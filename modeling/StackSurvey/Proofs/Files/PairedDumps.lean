import StackSurvey.Proofs.Files.FoundFiles

namespace StackSurvey

open StackSurvey.Path

section Texts

variable {a b x y : List Char} {dirs : List String} {dir name : String}

theorem append_slash_isPrefix_iff (ha : '/' ∉ a) (hb : '/' ∉ b) :
    a ++ '/' :: x <+: b ++ '/' :: y ↔ a = b ∧ x <+: y := by
  induction a generalizing b with
  | nil =>
    cases b with
    | nil => simp
    | cons c b => simpa using fun h => absurd h (List.ne_of_not_mem_cons hb)
  | cons c a ih =>
    cases b with
    | nil => simpa using fun h => absurd h.symm (List.ne_of_not_mem_cons ha)
    | cons d b =>
      have h := ih (List.not_mem_of_not_mem_cons ha) (List.not_mem_of_not_mem_cons hb)
      rw [List.cons_append, List.cons_append, List.cons_prefix_cons, h, List.cons.injEq, and_assoc]

/-- A word begins a path exactly if it begins the first part of it. -/
theorem isPrefix_append_slash_iff (ha : '/' ∉ a) : a <+: b ++ '/' :: y ↔ a <+: b := by
  refine ⟨fun h => ?_, fun h => h.trans (List.prefix_append ..)⟩
  rcases Nat.lt_or_ge b.length a.length with hlong | hshort
  · have hslash : b ++ ['/'] <+: b ++ '/' :: y := ⟨y, by rw [List.append_assoc]; rfl⟩
    have hbegins : b ++ ['/'] <+: a :=
      List.prefix_of_prefix_length_le hslash h (by rwa [List.length_append])
    exact absurd (hbegins.subset (List.mem_append_right _ (List.mem_singleton_self _))) ha
  · exact List.prefix_of_prefix_length_le h (List.prefix_append ..) hshort

/-- What the directories on the way to a file add to its path. -/
def trail (dirs : List String) : List Char := dirs.flatMap fun dir => dir.toList ++ ['/']

theorem trail_nil : trail [] = [] := rfl

theorem trail_cons (dir : String) (dirs : List String) :
    trail (dir :: dirs) = dir.toList ++ '/' :: trail dirs := by
  rw [trail, List.flatMap_cons, List.append_assoc]
  rfl

theorem trail_cons_append (dir : String) (dirs : List String) (rest : List Char) :
    trail (dir :: dirs) ++ rest = dir.toList ++ '/' :: (trail dirs ++ rest) := by
  rw [trail_cons, List.append_assoc, List.cons_append]

theorem opening_foldl_join (h : ∀ dir ∈ dirs, IsEntryName dir) (path : String) :
    opening (dirs.foldl join path) = opening path ++ trail dirs := by
  induction dirs generalizing path with
  | nil => exact (List.append_nil _).symm
  | cons dir dirs ih =>
    obtain ⟨hdir, hdirs⟩ := List.forall_mem_cons.1 h
    rw [List.foldl_cons, ih hdirs, opening_join hdir, trail_cons, List.append_assoc,
      List.append_assoc, List.singleton_append]

/-- A path begins with some directories and a word exactly if it leads to an entry of the last of
them that begins with the word, or through a directory that does. -/
theorem trail_isPrefix_iff {some dirs : List String} {word : List Char}
    (hsome : ∀ dir ∈ some, IsEntryName dir) (hdirs : ∀ dir ∈ dirs, IsEntryName dir)
    (hword : '/' ∉ word) (hname : IsEntryName name) :
    trail some ++ word <+: trail dirs ++ name.toList ↔
      (dirs = some ∧ word <+: name.toList) ∨
        ∃ sub more, dirs = some ++ sub :: more ∧ word <+: sub.toList := by
  induction some generalizing dirs with
  | nil =>
    cases dirs with
    | nil => simp [trail_nil]
    | cons sub more =>
      rw [trail_cons_append, trail_nil, List.nil_append, isPrefix_append_slash_iff hword]
      simp
  | cons first some ih =>
    obtain ⟨hfirst, hrest⟩ := List.forall_mem_cons.1 hsome
    cases dirs with
    | nil =>
      rw [trail_cons_append]
      have hslash : ¬ first.toList ++ '/' :: (trail some ++ word) <+: name.toList := fun h =>
        hname.slash_notMem (h.subset (List.mem_append_right _ (List.mem_cons_self ..)))
      simp [trail_nil, hslash]
    | cons dir dirs =>
      obtain ⟨hdir, hdirs⟩ := List.forall_mem_cons.1 hdirs
      rw [trail_cons_append, trail_cons_append,
        append_slash_isPrefix_iff hfirst.slash_notMem hdir.slash_notMem, ih hrest hdirs,
        String.toList_inj, eq_comm]
      simp only [List.cons_append, List.cons.injEq, and_assoc, exists_and_left, and_or_left]

end Texts

namespace FoundFile

/-- A file comes before another one in the order of paths. -/
def Precedes (a b : FoundFile) : Prop := Path.compare a.path b.path = .lt

/-- The first of the files with a property, if there are any. -/
def IsFirst (p : FoundFile → Prop) : Option FoundFile → Prop
  | none => ∀ f, ¬ p f
  | some f => p f ∧ ∀ g, p g → g = f ∨ f.Precedes g

variable {files : List FoundFile} {p q : FoundFile → Prop} {found : Option FoundFile}

theorem IsFirst.congr (h : IsFirst p found) (hpq : ∀ f, p f ↔ q f) : IsFirst q found :=
  funext (fun f => propext (hpq f)) ▸ h

/-- Among the files of either kind the first is the first of one kind exactly if one of these
comes before every other file. -/
theorem IsFirst.left_iff (h : IsFirst (fun f => p f ∨ q f) found) (hpq : ∀ f, p f → ¬ q f) :
    IsFirst p found ↔ ∀ f, q f → ∃ g, p g ∧ g.Precedes f := by
  cases found with
  | none => exact iff_of_true (fun f hf => h f (.inl hf)) fun f hf => absurd (.inr hf) (h f)
  | some first =>
    obtain ⟨hfirst, hrest⟩ := h
    constructor
    · rintro ⟨hp, -⟩ f hf
      refine ⟨first, hp, (hrest f (.inr hf)).resolve_left ?_⟩
      rintro rfl
      exact hpq f hp hf
    · intro h
      rcases hfirst with hp | hq
      · exact ⟨hp, fun g hg => hrest g (.inl hg)⟩
      · obtain ⟨g, hg, hprecedes⟩ := h first hq
        rcases hrest g (.inl hg) with rfl | hafter
        · exact absurd hq (hpq g hg)
        · exact absurd hprecedes (Std.OrientedCmp.not_lt_of_lt hafter)

theorem isFirst_find? (h : files.Pairwise Precedes) (p : FoundFile → Bool) :
    IsFirst (fun f => f ∈ files ∧ p f = true) (files.find? p) := by
  induction files with
  | nil => exact fun f hf => List.not_mem_nil hf.1
  | cons first files ih =>
    obtain ⟨hfirst, hrest⟩ := List.pairwise_cons.1 h
    by_cases hp : p first = true
    · rw [List.find?_cons_of_pos hp]
      exact ⟨⟨List.mem_cons_self .., hp⟩, fun g hg => (List.mem_cons.1 hg.1).imp_right (hfirst g)⟩
    · rw [List.find?_cons_of_neg hp]
      refine (ih hrest).congr fun f => and_congr_left fun hf => ?_
      rw [List.mem_cons, or_iff_right]
      rintro rfl
      exact hp hf

/-- Files with paths of their own come one before the other. -/
theorem pairwise_inPathOrder
    (h : files.Pairwise fun a b => components a.path ≠ components b.path) :
    (inPathOrder files).Pairwise Precedes := by
  have htotal : ∀ a b : FoundFile,
      ((Path.compare a.path b.path).isLE || (Path.compare b.path a.path).isLE) = true := by
    intro a b
    have hswap : Path.compare b.path a.path = (Path.compare a.path b.path).swap :=
      Std.OrientedCmp.eq_swap
    rw [hswap]
    cases Path.compare a.path b.path <;> rfl
  have hsorted : (inPathOrder files).Pairwise fun a b => (Path.compare a.path b.path).isLE = true :=
    List.pairwise_mergeSort (fun a b c => Std.TransCmp.isLE_trans) htotal files
  have hperm : (inPathOrder files).Perm files := List.mergeSort_perm ..
  refine (hsorted.and ((hperm.pairwise_iff Ne.symm).2 h)).imp fun hab => ?_
  exact (Ordering.isLE_iff_eq_lt_or_eq_eq.1 hab.1).resolve_right fun heq =>
    hab.2 (compare_eq_eq_iff.1 heq)

/-- The name of a report up to the last dot, with it. -/
def nameStem (report : FoundFile) : List Char :=
  report.name.toList.take (report.name.length - "su".length)

theorem stem_eq {report : FoundFile} (h : isReportName report.name = true) :
    report.stem = opening report.directory ++ report.nameStem := by
  have hlength : "su".length ≤ report.name.length := by
    rw [← String.length_toList]
    exact Nat.le_of_succ_le (List.isSuffixOf_iff_suffix.1 h).length_le
  rw [stem, path, ← String.length_toList, toList_join, List.length_append, String.length_toList,
    Nat.add_sub_assoc hlength, List.take_length_add_append, nameStem]

end FoundFile

open FoundFile

variable {path : String} {entries : List (String × FileTree)} {tree : FileTree}
  {report dump : FoundFile}

namespace FileTree

/-- A dump in the directory of a report whose name begins as that of the report does. -/
structure HasDumpBeside (path : String) (entries : List (String × FileTree))
    (report dump : FoundFile) : Prop where
  holds : Holds path entries dump
  isDumpName : isDumpName dump.name = true
  directory_eq : dump.directory = report.directory
  begins : report.nameStem <+: dump.name.toList

/-- A dump in or below a directory that lies beside a report and whose name begins as that of the
report does. -/
structure HasDumpInside (path : String) (entries : List (String × FileTree))
    (report dump : FoundFile) : Prop where
  holds : Holds path entries dump
  isDumpName : isDumpName dump.name = true
  exists_directory : ∃ sub dirs, (∀ dir ∈ sub :: dirs, IsEntryName dir) ∧
    dump.directory = (sub :: dirs).foldl join report.directory ∧ report.nameStem <+: sub.toList

theorem not_hasDumpInside (h : HasDumpBeside path entries report dump) :
    ¬ HasDumpInside path entries report dump := by
  rintro ⟨-, -, sub, dirs, hnames, hdirectory, -⟩
  have hcomponents := components_foldl_join hnames report.directory
  rw [← hdirectory, h.directory_eq] at hcomponents
  exact List.cons_ne_nil _ _ (List.self_eq_append_right.1 hcomponents)

theorem stem_isPrefix_of_hasDumpBeside (hname : isReportName report.name = true)
    (h : HasDumpBeside path entries report dump) : report.stem <+: dump.path.toList := by
  rw [stem_eq hname, FoundFile.path, toList_join, h.directory_eq]
  exact (List.prefix_append_right_inj _).2 h.begins

theorem stem_isPrefix_of_hasDumpInside (hname : isReportName report.name = true)
    (h : HasDumpInside path entries report dump) : report.stem <+: dump.path.toList := by
  obtain ⟨sub, dirs, hnames, hdirectory, hbegins⟩ := h.exists_directory
  rw [stem_eq hname, FoundFile.path, toList_join, hdirectory, opening_foldl_join hnames,
    List.append_assoc, trail_cons_append, List.prefix_append_right_inj]
  exact hbegins.trans (List.prefix_append ..)

/-- The path of a dump begins as that of a report exactly if the dump lies beside the report, or in
or below a directory beside it, with a name that begins as that of the report does. -/
theorem stem_isPrefix_iff (hnamed : AreWellNamed entries) (hreport : Holds path entries report)
    (hname : isReportName report.name = true) :
    (Holds path entries dump ∧ isDumpName dump.name = true) ∧ report.stem <+: dump.path.toList ↔
      HasDumpBeside path entries report dump ∨ HasDumpInside path entries report dump := by
  constructor
  · rintro ⟨⟨hdump, hdumpName⟩, hprefix⟩
    obtain ⟨some, hsome, hsomeDirectory⟩ := hreport
    obtain ⟨dirs, hdirs, hdirectory⟩ := id hdump
    obtain ⟨hsomeNames, hreportName⟩ := hsome.isEntryName hnamed
    obtain ⟨hnames, hentryName⟩ := hdirs.isEntryName hnamed
    have hword : '/' ∉ report.nameStem := fun h =>
      hreportName.slash_notMem (List.take_subset _ _ h)
    rw [stem_eq hname, FoundFile.path, toList_join, hsomeDirectory, hdirectory,
      opening_foldl_join hsomeNames, opening_foldl_join hnames, List.append_assoc,
      List.append_assoc, List.prefix_append_right_inj,
      trail_isPrefix_iff hsomeNames hnames hword hentryName] at hprefix
    rcases hprefix with ⟨rfl, hbegins⟩ | ⟨sub, more, rfl, hbegins⟩
    · exact .inl ⟨hdump, hdumpName, hdirectory.trans hsomeDirectory.symm, hbegins⟩
    · have hmore := (List.forall_mem_append.1 hnames).2
      refine .inr ⟨hdump, hdumpName, sub, more, hmore, ?_, hbegins⟩
      rw [hdirectory, hsomeDirectory, List.foldl_append]
  · rintro (h | h)
    · exact ⟨⟨h.holds, h.isDumpName⟩, stem_isPrefix_of_hasDumpBeside hname h⟩
    · exact ⟨⟨h.holds, h.isDumpName⟩, stem_isPrefix_of_hasDumpInside hname h⟩

theorem mem_inPathOrder_iff {f : FoundFile} :
    f ∈ inPathOrder (filesIn path entries) ↔ Holds path entries f :=
  List.mem_mergeSort.trans mem_filesIn_iff

theorem isFirst_dump_ofReport (hnamed : AreWellNamed entries) (hreport : Holds path entries report)
    (hname : isReportName report.name = true) :
    IsFirst (fun dump => HasDumpBeside path entries report dump ∨
        HasDumpInside path entries report dump)
      (StackFiles.ofReport ((inPathOrder (filesIn path entries)).filter (isDumpName ·.name))
        report).dump := by
  have hsorted := pairwise_inPathOrder (pairwise_filesIn path hnamed)
  refine (isFirst_find? (hsorted.sublist List.filter_sublist) _).congr fun dump => ?_
  rw [List.mem_filter, mem_inPathOrder_iff, List.isPrefixOf_iff_prefix,
    stem_isPrefix_iff hnamed hreport hname]

/-- The stack files in a tree are its reports, each once and in the order of paths. A report has the
first of the dumps beside it and inside the directories beside it whose names begin as its own
does: that is the first one beside it exactly if one of these precedes all those inside. -/
theorem findStackFiles_eq_ok (hfind : tree.find path = .ok (directory entries))
    (hnamed : AreWellNamed entries) :
    ∃ pairs, tree.findStackFiles path = .ok pairs ∧
      (pairs.map StackFiles.report).Pairwise Precedes ∧
      (∀ f, f ∈ pairs.map StackFiles.report ↔
        Holds path entries f ∧ isReportName f.name = true) ∧
      ∀ pair ∈ pairs,
        IsFirst (fun dump => HasDumpBeside path entries pair.report dump ∨
          HasDumpInside path entries pair.report dump) pair.dump ∧
        (IsFirst (HasDumpBeside path entries pair.report) pair.dump ↔
          ∀ dump, HasDumpInside path entries pair.report dump →
            ∃ other, HasDumpBeside path entries pair.report other ∧ other.Precedes dump) := by
  refine ⟨StackFiles.ofFiles (filesIn path entries), by rw [findStackFiles, hfind]; rfl, ?_⟩
  have hreports : (StackFiles.ofFiles (filesIn path entries)).map StackFiles.report =
      (inPathOrder (filesIn path entries)).filter (isReportName ·.name) := by
    rw [StackFiles.ofFiles, List.map_map]
    exact List.map_id _
  have hmem : ∀ f, f ∈ (StackFiles.ofFiles (filesIn path entries)).map StackFiles.report ↔
      Holds path entries f ∧ isReportName f.name = true := by
    intro f
    rw [hreports, List.mem_filter, mem_inPathOrder_iff]
  refine ⟨?_, hmem, ?_⟩
  · rw [hreports]
    exact (pairwise_inPathOrder (pairwise_filesIn path hnamed)).sublist List.filter_sublist
  · intro pair hpair
    obtain ⟨hreport, hname⟩ := (hmem pair.report).1 (List.mem_map_of_mem hpair)
    obtain ⟨report, -, rfl⟩ := List.mem_map.1 hpair
    have hfirst := isFirst_dump_ofReport hnamed hreport hname
    exact ⟨hfirst, hfirst.left_iff fun dump => not_hasDumpInside⟩

/-- A report with its dump. A directory between the two, in the order of paths, has another one. -/
def shadowedEntries : List (String × FileTree) :=
  [("a.su", .file (.ok ⟨#[1]⟩)), ("a.b", .directory [("y.cgraph", .file (.ok ⟨#[2]⟩))]),
    ("a.cgraph", .file (.ok ⟨#[3]⟩))]

theorem areWellNamed_shadowedEntries : AreWellNamed shadowedEntries := by
  have hnames : ∀ name ∈ ["a.su", "a.b", "y.cgraph", "a.cgraph"], IsEntryName name := by
    intro name hname
    constructor <;> (revert name; decide)
  simp [shadowedEntries, AreWellNamed, IsWellNamed, hnames]

theorem findStackFiles_shadowedEntries :
    (directory shadowedEntries).find "." = .ok (directory shadowedEntries) ∧
      AreWellNamed shadowedEntries ∧
      ∃ pairs, (directory shadowedEntries).findStackFiles "." = .ok pairs ∧
        (pairs.map StackFiles.report).Pairwise Precedes ∧
        (∀ f, f ∈ pairs.map StackFiles.report ↔
          Holds "." shadowedEntries f ∧ isReportName f.name = true) ∧
        ∀ pair ∈ pairs,
          IsFirst (fun dump => HasDumpBeside "." shadowedEntries pair.report dump ∨
            HasDumpInside "." shadowedEntries pair.report dump) pair.dump ∧
          (IsFirst (HasDumpBeside "." shadowedEntries pair.report) pair.dump ↔
            ∀ dump, HasDumpInside "." shadowedEntries pair.report dump →
              ∃ other, HasDumpBeside "." shadowedEntries pair.report other ∧
                other.Precedes dump) :=
  ⟨rfl, areWellNamed_shadowedEntries, findStackFiles_eq_ok rfl areWellNamed_shadowedEntries⟩

/-- A report need not get the first dump beside it. -/
theorem exists_not_isFirst_shadowedEntries :
    ∃ pairs, (directory shadowedEntries).findStackFiles "." = .ok pairs ∧
      ∃ pair ∈ pairs, ¬ IsFirst (HasDumpBeside "." shadowedEntries pair.report) pair.dump := by
  have hreport : Holds "." shadowedEntries ⟨".", "a.su", .ok ⟨#[1]⟩⟩ :=
    ⟨[], .here (.head _), rfl⟩
  have hinside : HasDumpInside "." shadowedEntries ⟨".", "a.su", .ok ⟨#[1]⟩⟩
      ⟨"./a.b", "y.cgraph", .ok ⟨#[2]⟩⟩ := by
    refine ⟨⟨["a.b"], .inside (.tail _ (.head _)) (.here (.head _)), rfl⟩, rfl, "a.b", [], ?_, rfl,
      by decide⟩
    exact List.forall_mem_singleton.2
      (areWellNamed_shadowedEntries.of_mem (.tail _ (.head _))).1
  have hfirst := isFirst_dump_ofReport areWellNamed_shadowedEntries hreport rfl
  refine ⟨_, rfl, _,
    List.mem_map_of_mem (List.mem_filter.2 ⟨mem_inPathOrder_iff.2 hreport, rfl⟩), fun h => ?_⟩
  obtain ⟨other, hother, hprecedes⟩ :=
    (hfirst.left_iff fun dump => not_hasDumpInside).1 h _ hinside
  -- The only dump beside the report comes behind the one in the directory.
  have hmem := mem_filesIn_iff.2 hother.holds
  rw [show filesIn "." shadowedEntries = [⟨".", "a.su", .ok ⟨#[1]⟩⟩,
    ⟨"./a.b", "y.cgraph", .ok ⟨#[2]⟩⟩, ⟨".", "a.cgraph", .ok ⟨#[3]⟩⟩] from rfl] at hmem
  simp only [List.mem_cons, List.not_mem_nil, or_false] at hmem
  rcases hmem with rfl | rfl | rfl
  · exact absurd hother.isDumpName (by decide)
  · exact absurd hother.directory_eq (by decide)
  · exact absurd hprecedes (by rw [Precedes]; decide)

end FileTree

end StackSurvey
