import Mathlib.Data.String.Basic
import StateDiagram.Proofs.Running

namespace StateDiagram.CommandLine

/-- The file that is filled by writing to what a path leads to. -/
def Entry.place? : Entry → Option FilePath
  | .file place _ | .vacant place false => some place
  | .directory | .vacant _ true | .broken _ => none

theorem splitOnAux_of_not_mem {back : List Char} (h : '/' ∉ back) (front : List Char) :
    (String.ofList (front ++ back)).splitOnAux "/" 0 ⟨String.utf8Len front⟩ 0 [] =
      [String.ofList (front ++ back)] := by
  induction back generalizing front with
  | nil =>
    have hend := (String.atEnd_of_valid front []).2 rfl
    have hall := String.extract_of_valid [] front []
    rw [String.utf8Len_nil, Nat.zero_add, List.nil_append, List.append_nil] at hall
    rw [String.splitOnAux, if_pos hend, List.append_nil]
    exact congrArg (fun part => [part]) hall
  | cons c back ih =>
    obtain ⟨hc, hback⟩ := not_or.1 (mt List.mem_cons.2 h)
    have hend : ¬ String.Pos.Raw.atEnd (String.ofList (front ++ c :: back))
        ⟨String.utf8Len front⟩ = true :=
      mt (String.atEnd_of_valid front _).1 (List.cons_ne_nil c back)
    have hget : ¬ (String.Pos.Raw.get (String.ofList (front ++ c :: back))
        ⟨String.utf8Len front⟩ == String.Pos.Raw.get "/" 0) = true := by
      rw [String.get_of_valid]
      exact fun he => hc (eq_of_beq he).symm
    have hnext := String.next_of_valid front c back
    have hrest := ih hback (front ++ [c])
    rw [String.utf8Len_append, List.append_assoc] at hrest
    rw [String.splitOnAux, if_neg hend, if_neg hget]
    change String.splitOnAux _ "/" 0 (String.Pos.Raw.next _ ⟨String.utf8Len front⟩) 0 [] = _
    rw [hnext]
    simpa using hrest

theorem splitOn_of_not_mem {name : String} (h : '/' ∉ name.toList) : name.splitOn "/" = [name] := by
  have hall := splitOnAux_of_not_mem h []
  rw [List.nil_append, String.ofList_toList] at hall
  rw [String.splitOn, if_neg (by decide)]
  exact hall

theorem startsWith_of_not_mem {name : String} (h : '/' ∉ name.toList) :
    name.startsWith "/" = false := by
  rw [String.startsWith_string_eq_false_iff]
  exact fun hp => h (hp.subset List.mem_cons_self)

namespace Workspace

/-- The file that is filled by writing to a path. -/
def target? (workspace : Workspace) (path : String) : Option FilePath :=
  (workspace.entry path).place?

def store (workspace : Workspace) (place : FilePath) (content : ByteArray) : Workspace :=
  { workspace with files := put place content workspace.files }

variable {workspace : Workspace} {place other path : FilePath} {content : ByteArray}

theorem lookup_put_self (place : FilePath) (content : ByteArray)
    (files : List (FilePath × ByteArray)) :
    (put place content files).lookup place = some content := by
  induction files with
  | nil => exact List.lookup_cons_self
  | cons file files ih =>
    rw [put]
    split
    · exact List.lookup_cons_self
    · next hne => rw [List.lookup_cons, beq_false_of_ne (Ne.symm hne), ih]

theorem lookup_put_of_ne (h : other ≠ place) (content : ByteArray)
    (files : List (FilePath × ByteArray)) :
    (put place content files).lookup other = files.lookup other := by
  induction files with
  | nil => rw [put, List.lookup_cons, beq_false_of_ne h]
  | cons file files ih =>
    rw [put]
    split
    · next he => rw [List.lookup_cons, List.lookup_cons, he, beq_false_of_ne h]
    · rw [List.lookup_cons, List.lookup_cons, ih]

theorem file?_store_self (workspace : Workspace) (place : FilePath) (content : ByteArray) :
    (workspace.store place content).file? place = some content :=
  lookup_put_self place content workspace.files

theorem file?_store_of_ne (h : other ≠ place) (workspace : Workspace) (content : ByteArray) :
    (workspace.store place content).file? other = workspace.file? other :=
  lookup_put_of_ne h content workspace.files

theorem any_put {p : FilePath → Bool} {files : List (FilePath × ByteArray)}
    (h : files.any (fun file => p file.1) = true) (place : FilePath) (content : ByteArray) :
    (put place content files).any (fun file => p file.1) = true := by
  induction files with
  | nil => cases h
  | cons file files ih =>
    rw [List.any_cons, Bool.or_eq_true] at h
    rw [put]
    split
    · next he => rwa [List.any_cons, Bool.or_eq_true, ← he]
    · rw [List.any_cons, Bool.or_eq_true]
      exact h.imp id ih

theorem isDirectory_store (h : workspace.isDirectory path = true) (place : FilePath)
    (content : ByteArray) : (workspace.store place content).isDirectory path = true :=
  any_put (p := fun name => path.isPrefixOf name && path ≠ name) h place content

/-- What a path leads to that goes on from the name of a file or directory. -/
def enter (workspace : Workspace) (path : FilePath) (rest : List String) : Entry :=
  match workspace.file? path with
  | some content => if rest = [] then .file path content else .broken .notDirectory
  | none =>
    if workspace.isDirectory path then workspace.follow (some path) rest
    else if rest.all (· = "") then .vacant path (rest ≠ [])
    else .broken .notFound

theorem entry_of_name {name : String} (hs : '/' ∉ name.toList) (hn : name ∉ ["", ".", ".."])
    (workspace : Workspace) : workspace.entry name = workspace.enter [name] [] := by
  simp only [List.mem_cons, List.not_mem_nil, or_false, not_or] at hn
  obtain ⟨he, hd, hu⟩ := hn
  rw [entry, startsWith_of_not_mem hs, splitOn_of_not_mem hs]
  simp only [follow, if_neg (not_or.2 ⟨he, hd⟩), if_neg hu]
  rfl

/-- A part of a path stays in the directory or leaves it, whatever files there are, or is looked
up in it. -/
theorem follow_cases (directory : Option FilePath) (part : String) (rest : List String) :
    (∃ next, ∀ workspace : Workspace,
      workspace.follow directory (part :: rest) = workspace.follow next rest) ∨
    (∃ problem, ∀ workspace : Workspace,
      workspace.follow directory (part :: rest) = .broken problem) ∨
    ∃ path, ∀ workspace : Workspace,
      workspace.follow directory (part :: rest) = workspace.enter path rest := by
  by_cases hs : part = "" ∨ part = "."
  · refine .inl ⟨directory, fun workspace => ?_⟩
    simp only [follow, if_pos hs]
  · by_cases hu : part = ".."
    · rcases directory with _ | _ | ⟨first, more⟩
      · exact .inl ⟨none, fun workspace => by simp only [follow, if_neg hs, if_pos hu]⟩
      · exact .inl ⟨none, fun workspace => by simp only [follow, if_neg hs, if_pos hu]⟩
      · exact .inl ⟨some (first :: more).dropLast,
          fun workspace => by simp only [follow, if_neg hs, if_pos hu]⟩
    · cases directory with
      | none =>
        exact .inr (.inl ⟨.notFound,
          fun workspace => by simp only [follow, if_neg hs, if_neg hu]⟩)
      | some directory =>
        exact .inr (.inr ⟨directory ++ [part],
          fun workspace => by simp only [follow, if_neg hs, if_neg hu]; rfl⟩)

theorem place?_enter {rest : List String}
    (h : (workspace.enter path rest).place? = some place) :
    (workspace.file? path = none ∧ workspace.isDirectory path = true ∧
      (workspace.follow (some path) rest).place? = some place) ∨
    (rest = [] ∧ path = place ∧
      (workspace.file? path ≠ none ∨ workspace.isDirectory path = false)) := by
  rw [enter] at h
  split at h
  · next content hc =>
    split at h
    · next hr => exact .inr ⟨hr, Option.some.inj h, .inl (hc ▸ nofun)⟩
    · cases h
  · next hn =>
    split at h
    · next hd => exact .inl ⟨hn, hd, h⟩
    · next hd =>
      split at h
      · cases rest with
        | nil => exact .inr ⟨rfl, Option.some.inj h, .inr (eq_false_of_ne_true hd)⟩
        | cons part rest => cases h
      · cases h

/-- What is filled by writing is a file already, or nothing that could hold files. -/
theorem place?_follow {directory : Option FilePath} {parts : List String}
    (h : (workspace.follow directory parts).place? = some place) :
    workspace.file? place ≠ none ∨ workspace.isDirectory place = false := by
  induction parts generalizing directory with
  | nil => cases h
  | cons part rest ih =>
    rcases follow_cases directory part rest with ⟨next, hf⟩ | ⟨problem, hf⟩ | ⟨path, hf⟩
    · exact ih (hf workspace ▸ h)
    · rw [hf] at h
      cases h
    · rw [hf] at h
      rcases place?_enter h with ⟨_, _, hnext⟩ | ⟨_, rfl, hplace⟩
      · exact ih hnext
      · exact hplace

/-- A path leads to the file that was filled by writing to it. -/
theorem follow_store {directory : Option FilePath} {parts : List String}
    (h : (workspace.follow directory parts).place? = some place) (content : ByteArray) :
    (workspace.store place content).follow directory parts = .file place content := by
  induction parts generalizing directory with
  | nil => cases h
  | cons part rest ih =>
    have hplace := place?_follow h
    rcases follow_cases directory part rest with ⟨next, hf⟩ | ⟨problem, hf⟩ | ⟨path, hf⟩
    · rw [hf] at h ⊢
      exact ih h
    · rw [hf] at h
      cases h
    · rw [hf] at h ⊢
      rcases place?_enter h with ⟨hn, hd, hnext⟩ | ⟨rfl, rfl, _⟩
      · have hne : path ≠ place := by
          rintro rfl
          rcases hplace with hfile | hdirectory
          · exact hfile hn
          · rw [hd] at hdirectory
            cases hdirectory
        rw [enter, file?_store_of_ne hne, hn]
        exact (if_pos (isDirectory_store hd place content)).trans (ih hnext)
      · rw [enter, file?_store_self]
        exact if_pos rfl

theorem entry_store {path : String} (h : workspace.target? path = some place)
    (content : ByteArray) : (workspace.store place content).entry path = .file place content :=
  follow_store h content

theorem write_cases (workspace : Workspace) (path : String) (content : ByteArray) :
    (∃ place, workspace.target? path = some place ∧
      workspace.write path content = .ok (workspace.store place content)) ∨
    (workspace.target? path = none ∧ ∃ problem, workspace.write path content = .error problem) := by
  rw [target?, write]
  rcases workspace.entry path with ⟨place, old⟩ | _ | ⟨place, _ | _⟩ | problem
  · exact .inl ⟨place, rfl, rfl⟩
  · exact .inr ⟨rfl, _, rfl⟩
  · exact .inl ⟨place, rfl, rfl⟩
  · exact .inr ⟨rfl, _, rfl⟩
  · exact .inr ⟨rfl, _, rfl⟩

end Workspace

end StateDiagram.CommandLine
