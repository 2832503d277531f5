namespace StackSurvey.Mangling

/-- True of names mangled by the Itanium scheme, with one more underscore on some systems, or by the
v0 scheme. -/
def isMangled (name : String) : Bool :=
  match name.toList with
  | '_' :: 'Z' :: _ => true
  | '_' :: '_' :: 'Z' :: _ => true
  | '_' :: 'R' :: _ => true
  | _ => false

end StackSurvey.Mangling
