import StackSurvey.Files.StackFiles
import StackSurvey.Proofs.Path.Components

namespace StackSurvey

open StackSurvey.Path

namespace FileTree

/-- A file lies below a directory with some entries, where `dirs` names the directories between
them. -/
inductive HasFile : List (String × FileTree) → List String → String →
    Except SystemFault ByteArray → Prop
  | here {entries : List (String × FileTree)} {name : String}
      {contents : Except SystemFault ByteArray} (h : (name, file contents) ∈ entries) :
      HasFile entries [] name contents
  | inside {entries inner : List (String × FileTree)} {dir name : String} {dirs : List String}
      {contents : Except SystemFault ByteArray} (h : (dir, directory inner) ∈ entries)
      (hfile : HasFile inner dirs name contents) : HasFile entries (dir :: dirs) name contents

mutual

/-- In every directory the entries have names that entries can have, each another one. -/
def IsWellNamed : FileTree → Prop
  | file _ => True
  | directory entries => AreWellNamed entries

/-- The entries of a directory, and those of the directories below it, have names that entries can
have, each another one. -/
def AreWellNamed : List (String × FileTree) → Prop
  | [] => True
  | (name, tree) :: rest =>
    IsEntryName name ∧ (∀ entry ∈ rest, entry.1 ≠ name) ∧ tree.IsWellNamed ∧ AreWellNamed rest

end

/-- A file in or below a directory with a path. -/
def Holds (path : String) (entries : List (String × FileTree)) (f : FoundFile) : Prop :=
  ∃ dirs, HasFile entries dirs f.name f.contents ∧ f.directory = dirs.foldl join path

variable {path name : String} {entries : List (String × FileTree)} {tree : FileTree}
  {dirs : List String} {contents : Except SystemFault ByteArray} {f : FoundFile}

theorem filesIn_eq_flatMap (path : String) (entries : List (String × FileTree)) :
    filesIn path entries = entries.flatMap fun entry => entryFiles path entry.1 entry.2 := by
  induction entries with
  | nil => rw [filesIn, List.flatMap_nil]
  | cons entry entries ih => rw [filesIn, ih, List.flatMap_cons]

theorem HasFile.mem_filesIn (h : HasFile entries dirs name contents) (path : String) :
    ⟨dirs.foldl join path, name, contents⟩ ∈ filesIn path entries := by
  induction h generalizing path with
  | here h =>
    rw [filesIn_eq_flatMap]
    exact List.mem_flatMap.2 ⟨_, h, by rw [entryFiles]; exact List.mem_singleton_self _⟩
  | inside h _ ih =>
    rw [filesIn_eq_flatMap]
    exact List.mem_flatMap.2 ⟨_, h, by rw [entryFiles]; exact ih _⟩

mutual

theorem holds_of_mem_entryFiles {path name : String} {tree : FileTree} {f : FoundFile}
    (h : f ∈ entryFiles path name tree) {entries : List (String × FileTree)}
    (hentry : (name, tree) ∈ entries) : Holds path entries f := by
  cases tree with
  | file contents =>
    rw [entryFiles, List.mem_singleton] at h
    subst h
    exact ⟨[], .here hentry, rfl⟩
  | directory inner =>
    rw [entryFiles] at h
    obtain ⟨dirs, hfile, hdirectory⟩ := holds_of_mem_filesIn h (List.Subset.refl inner)
    exact ⟨name :: dirs, .inside hentry hfile, hdirectory⟩

theorem holds_of_mem_filesIn {path : String} {some : List (String × FileTree)} {f : FoundFile}
    (h : f ∈ filesIn path some) {entries : List (String × FileTree)} (hsome : some ⊆ entries) :
    Holds path entries f := by
  cases some with
  | nil =>
    rw [filesIn] at h
    cases h
  | cons entry rest =>
    obtain ⟨hentry, hrest⟩ := List.cons_subset.1 hsome
    rw [filesIn, List.mem_append] at h
    rcases h with h | h
    · exact holds_of_mem_entryFiles h hentry
    · exact holds_of_mem_filesIn h hrest

end

/-- A search finds what lies in or below a directory. -/
theorem mem_filesIn_iff : f ∈ filesIn path entries ↔ Holds path entries f := by
  refine ⟨fun h => holds_of_mem_filesIn h (List.Subset.refl entries), ?_⟩
  rintro ⟨dirs, hfile, hdirectory⟩
  have hmem := hfile.mem_filesIn path
  rwa [← hdirectory] at hmem

section Names

theorem components_foldl_join (h : ∀ dir ∈ dirs, IsEntryName dir) (path : String) :
    components (dirs.foldl join path) = components path ++ dirs.map .name := by
  induction dirs generalizing path with
  | nil => exact (List.append_nil _).symm
  | cons dir dirs ih =>
    obtain ⟨hdir, hdirs⟩ := List.forall_mem_cons.1 h
    rw [List.foldl_cons, ih hdirs, components_join hdir, List.append_assoc]
    rfl

theorem AreWellNamed.of_mem (h : AreWellNamed entries) {entry : String × FileTree}
    (hentry : entry ∈ entries) : IsEntryName entry.1 ∧ entry.2.IsWellNamed := by
  induction entries with
  | nil => cases hentry
  | cons first entries ih =>
    obtain ⟨hname, -, htree, hrest⟩ := h
    rcases List.mem_cons.1 hentry with rfl | hentry
    · exact ⟨hname, htree⟩
    · exact ih hrest hentry

theorem HasFile.isEntryName (h : HasFile entries dirs name contents)
    (hnamed : AreWellNamed entries) : (∀ dir ∈ dirs, IsEntryName dir) ∧ IsEntryName name := by
  induction h with
  | here h => exact ⟨List.forall_mem_nil _, (hnamed.of_mem h).1⟩
  | inside h _ ih =>
    obtain ⟨hdir, hinner⟩ := hnamed.of_mem h
    obtain ⟨hdirs, hname⟩ := ih hinner
    exact ⟨List.forall_mem_cons.2 ⟨hdir, hdirs⟩, hname⟩

theorem HasFile.exists_head (h : HasFile entries dirs name contents) :
    ∃ entry ∈ entries, (dirs ++ [name]).head? = some entry.1 := by
  cases h with
  | here h => exact ⟨_, h, rfl⟩
  | inside h _ => exact ⟨_, h, rfl⟩

/-- The path of a file names the directories above it and the file. -/
theorem components_path (hfile : HasFile entries dirs f.name f.contents)
    (hnamed : AreWellNamed entries) (hdirectory : f.directory = dirs.foldl join path) :
    components f.path = components path ++ (dirs ++ [f.name]).map .name := by
  obtain ⟨hdirs, hname⟩ := hfile.isEntryName hnamed
  rw [FoundFile.path, components_join hname, hdirectory, components_foldl_join hdirs,
    List.append_assoc, List.map_append]
  rfl

/-- Behind the path of a directory, the path of a file in or below it goes on with the name of an
entry. -/
theorem exists_components_path (h : Holds path entries f) (hnamed : AreWellNamed entries) :
    ∃ entry ∈ entries, ∃ rest,
      components f.path = components path ++ .name entry.1 :: rest := by
  obtain ⟨dirs, hfile, hdirectory⟩ := h
  obtain ⟨entry, hentry, hhead⟩ := hfile.exists_head
  obtain ⟨rest, hrest⟩ := List.head?_eq_some_iff.1 hhead
  refine ⟨entry, hentry, rest.map .name, ?_⟩
  rw [components_path hfile hnamed hdirectory, hrest]
  rfl

end Names

mutual

theorem pairwise_entryFiles {name : String} {tree : FileTree} (path : String)
    (h : tree.IsWellNamed) :
    (entryFiles path name tree).Pairwise fun a b => components a.path ≠ components b.path := by
  cases tree with
  | file contents =>
    rw [entryFiles]
    exact List.pairwise_singleton ..
  | directory entries =>
    rw [entryFiles]
    exact pairwise_filesIn _ h

/-- No two files that are found have a path in common. -/
theorem pairwise_filesIn {entries : List (String × FileTree)} (path : String)
    (h : AreWellNamed entries) :
    (filesIn path entries).Pairwise fun a b => components a.path ≠ components b.path := by
  cases entries with
  | nil =>
    rw [filesIn]
    exact .nil
  | cons entry entries =>
    obtain ⟨hname, hother, htree, hrest⟩ := h
    rw [filesIn, List.pairwise_append]
    refine ⟨pairwise_entryFiles path htree, pairwise_filesIn path hrest, ?_⟩
    intro a ha b hb heq
    have hsingle : AreWellNamed [entry] := ⟨hname, List.forall_mem_nil _, htree, trivial⟩
    obtain ⟨first, hfirst, restA, hcomponentsA⟩ := exists_components_path
      (holds_of_mem_entryFiles ha (List.mem_singleton_self entry)) hsingle
    obtain ⟨second, hsecond, restB, hcomponentsB⟩ :=
      exists_components_path (mem_filesIn_iff.1 hb) hrest
    obtain rfl := List.mem_singleton.1 hfirst
    -- The paths would go on with the names of two entries of one directory.
    rw [hcomponentsA, hcomponentsB] at heq
    have hsame := (List.cons.inj (List.append_cancel_left heq)).1
    exact hother second hsecond (Component.name.inj hsame).symm

end

end FileTree

end StackSurvey
