import Mathlib.Data.List.TakeWhile
import StateDiagram.Proofs.DrawnLine

namespace StateDiagram

set_option autoImplicit true

/-- What a line shows of an edge. The text of a transition is one string, in which its event and
its side effect are not told apart. -/
inductive DrawnEdge where
  | start (target : Endpoint)
  | transition (source target : Endpoint) (text : String)
deriving DecidableEq, Repr

/-- What the text of a diagram shows. -/
structure Drawing where
  fenced : Bool
  labels : List String
  edges : List DrawnEdge
deriving DecidableEq, Repr

def Edge.drawn : Edge → DrawnEdge
  | .start target => .start target
  | .transition source target event sideEffect =>
    .transition source target (transitionText event sideEffect)

namespace Diagram

def drawing (fenced : Bool) (diagram : Diagram) : Drawing where
  fenced := fenced
  labels := diagram.labels
  edges := diagram.edges.map Edge.drawn

def readId? : List Char → Option Endpoint
  | 's' :: digits => some (some (Nat.ofDigitChars 10 digits 0))
  | id => if id = unresolvedId.toList then some none else none

def readLabel? (line : List Char) : Option String :=
  (line.dropPrefix? (indent ++ "state \"").toList).map fun rest =>
    String.ofList (rest.takeWhile (· ≠ '\x22'))

def readEdge? (line : List Char) : Option DrawnEdge := do
  let line ← line.dropPrefix? indent.toList
  let source := line.takeWhile (· ≠ ' ')
  let rest ← (line.dropWhile (· ≠ ' ')).dropPrefix? arrow.toList
  let target ← readId? (rest.takeWhile (· ≠ ':'))
  if source = startMark.toList then some (.start target)
  else (readId? source).map fun source =>
    .transition source target (String.ofList ((rest.dropWhile (· ≠ ':')).drop 1))

/-- What a text shows, read from nothing but its lines. -/
def read? (text : String) : Option Drawing :=
  (Text.lines? text.toList).map fun lines => {
    fenced := lines.head? == some openingFence.toList
    labels := lines.filterMap readLabel?
    edges := lines.filterMap readEdge? }

/-- The texts of diagrams that are joined. -/
def separate? (document : String) : Option (List String) :=
  (Text.lines? document.toList).map fun lines =>
    if lines = [] then []
    else (lines.splitOn []).map fun lines => String.ofList (Text.unlines lines)

theorem readId?_endpointId (endpoint : Endpoint) :
    readId? (endpointId endpoint).toList = some endpoint := by
  cases endpoint with
  | none => rfl
  | some position => rw [toList_endpointId, readId?, Nat.ofDigitChars_ten_toDigits]

theorem takeWhile_ne_append {c : Char} {cs : List Char} (h : c ∉ cs) (rest : List Char) :
    (cs ++ c :: rest).takeWhile (· ≠ c) = cs := by
  rw [List.takeWhile_append_of_pos, List.takeWhile_cons_of_neg (by simp), List.append_nil]
  intro d hd
  exact decide_eq_true fun he => h (he ▸ hd)

theorem dropWhile_ne_append {c : Char} {cs : List Char} (h : c ∉ cs) (rest : List Char) :
    (cs ++ c :: rest).dropWhile (· ≠ c) = c :: rest := by
  rw [List.dropWhile_append_of_pos, List.dropWhile_cons_of_neg (by simp)]
  intro d hd
  exact decide_eq_true fun he => h (he ▸ hd)

theorem dropPrefix?_append (front rest : List Char) :
    (front ++ rest).dropPrefix? front = some rest :=
  List.dropPrefix?_eq_some_iff.2 ⟨front, rfl, beq_self_eq_true front⟩

theorem readLabel?_declarationLine {label : String} (h : Label.Plain label) (position : Nat) :
    readLabel? (declarationLine position label).toList = some label := by
  rw [readLabel?, toList_declarationLine, dropPrefix?_append, Option.map_some,
    takeWhile_ne_append (fun hm => (h _ hm).2.2 rfl), String.ofList_toList]

/-- Reading stops at the blank behind the source, and at the colon behind the target if a text
follows. -/
theorem readEdge?_line (source behind : List Char) (hs : ' ' ∉ source) (target : Endpoint)
    (hb : ∀ c ∈ behind.head?, c = ':') :
    readEdge? (indent.toList ++ (source ++ (arrow.toList ++
        ((endpointId target).toList ++ behind)))) =
      if source = startMark.toList then some (.start target)
      else (readId? source).map fun source =>
        .transition source target (String.ofList (behind.drop 1)) := by
  have hcolon : ':' ∉ (endpointId target).toList := not_mem_endpointId rfl target
  have htake : ((endpointId target).toList ++ behind).takeWhile (· ≠ ':') =
        (endpointId target).toList ∧
      ((endpointId target).toList ++ behind).dropWhile (· ≠ ':') = behind := by
    cases behind with
    | nil =>
      have hall : ∀ c ∈ (endpointId target).toList, decide (c ≠ ':') = true :=
        fun c hc => decide_eq_true fun he => hcolon (he ▸ hc)
      rw [List.append_nil]
      exact ⟨List.takeWhile_eq_self_iff.2 hall, List.dropWhile_eq_nil_iff.2 hall⟩
    | cons c behind =>
      obtain rfl := hb c rfl
      exact ⟨takeWhile_ne_append hcolon behind, dropWhile_ne_append hcolon behind⟩
  have harrow (rest : List Char) : arrow.toList ++ rest = ' ' :: ("--> ".toList ++ rest) := rfl
  rw [readEdge?, dropPrefix?_append, Option.bind_eq_bind, Option.bind_some, harrow,
    takeWhile_ne_append hs, dropWhile_ne_append hs, ← harrow, dropPrefix?_append,
    Option.bind_eq_bind, Option.bind_some, htake.1, readId?_endpointId, htake.2]
  rfl

theorem readEdge?_edgeLine (edge : Edge) : readEdge? (edgeLine edge).toList = some edge.drawn := by
  have hspace (endpoint : Endpoint) : ' ' ∉ (endpointId endpoint).toList :=
    not_mem_endpointId rfl endpoint
  cases edge with
  | start target =>
    have h := readEdge?_line startMark.toList [] (by decide) target nofun
    rw [List.append_nil, if_pos rfl] at h
    rw [toList_startLine, h]
    rfl
  | transition source target event effect =>
    have hne : (endpointId source).toList ≠ startMark.toList := by
      intro he
      have hm : '[' ∈ (endpointId source).toList := he ▸ List.mem_cons_self
      exact not_mem_endpointId rfl source hm
    have h := readEdge?_line _ (':' :: (Edge.transitionText event effect).toList) (hspace source)
      target (by simp)
    rw [if_neg hne, readId?_endpointId] at h
    rw [toList_transitionLine, h, Option.map_some, List.drop_one, List.tail_cons,
      String.ofList_toList]
    rfl

/-- An edge line is no declaration line: what stands behind its indent is a start mark, `null`, or
an `s` with a digit behind it. -/
theorem readLabel?_edgeLine (edge : Edge) : readLabel? (edgeLine edge).toList = none := by
  cases edge with
  | start target =>
    rw [toList_startLine]
    rfl
  | transition source target event effect =>
    rw [toList_transitionLine]
    cases source with
    | none => rfl
    | some position =>
      obtain ⟨digit, digits, hd⟩ := List.exists_cons_of_ne_nil
        (Nat.toDigits_ne_nil (n := position) (b := 10))
      have hdigit : digit.isDigit = true :=
        Nat.isDigit_of_mem_toDigits (by decide) (by decide) (hd ▸ List.mem_cons_self)
      have hne : digit ≠ 't' := by
        rintro rfl
        cases hdigit
      rw [toList_endpointId, hd, readLabel?, Option.map_eq_none_iff]
      simp [List.dropPrefix?, indent, hne]

theorem readEdge?_declarationLine (position : Nat) (label : String) :
    readEdge? (declarationLine position label).toList = none := by
  rw [readEdge?, toList_declarationLine]
  rfl

/-- A line that does not start with blanks is part of no diagram. -/
theorem reads_of_head {c : Char} (hc : c ≠ ' ') (line : List Char) :
    readLabel? (c :: line) = none ∧ readEdge? (c :: line) = none := by
  simp [readLabel?, readEdge?, List.dropPrefix?, indent, hc]

theorem map_declarationLines {f : List Char → β} (position : Nat) (labels : List String)
    {g : String → β}
    (h : ∀ label ∈ labels, ∀ position, f (declarationLine position label).toList = g label) :
    (declarationLines position labels).map (f ·.toList) = labels.map g := by
  induction labels generalizing position with
  | nil => rfl
  | cons label labels ih =>
    obtain ⟨hl, h⟩ := List.forall_mem_cons.1 h
    rw [declarationLines, List.map_cons, List.map_cons, hl, ih _ h]

theorem filterMap_declarationLines {f : List Char → Option β} (position : Nat)
    (labels : List String) {g : String → Option β}
    (h : ∀ label ∈ labels, ∀ position, f (declarationLine position label).toList = g label) :
    ((declarationLines position labels).map String.toList).filterMap f = labels.filterMap g := by
  have he := congrArg (List.filterMap id) (map_declarationLines position labels h)
  rw [List.filterMap_map, List.filterMap_map] at he
  rw [List.filterMap_map]
  exact he

theorem filterMap_lines {f : List Char → Option β} (fenced : Bool) (diagram : Diagram)
    (h : ∀ c line, c ≠ ' ' → f (c :: line) = none) :
    ((diagram.lines fenced).map String.toList).filterMap f =
      ((declarationLines 0 diagram.labels).map String.toList).filterMap f ++
        ((diagram.edges.map edgeLine).map String.toList).filterMap f := by
  have hheader : f header.toList = none := h 's' _ (by decide)
  have hopen : f openingFence.toList = none := h '\x60' _ (by decide)
  have hclose : f closingFence.toList = none := h '\x60' _ (by decide)
  cases fenced <;>
    simp only [lines, bodyLines, if_true, if_false, Bool.false_eq_true, List.map_cons,
      List.map_append, List.map_nil, List.filterMap_cons, List.filterMap_append,
      List.filterMap_nil, hheader, hopen, hclose, List.append_nil]

theorem filterMap_readLabel? {diagram : Diagram} (h : diagram.Plain) (fenced : Bool) :
    ((diagram.lines fenced).map String.toList).filterMap readLabel? = diagram.labels := by
  have hedges : ((diagram.edges.map edgeLine).map String.toList).filterMap readLabel? = [] := by
    rw [List.map_map, List.filterMap_map, List.filterMap_eq_nil_iff]
    exact fun edge _ => readLabel?_edgeLine edge
  rw [filterMap_lines fenced diagram fun c line hc => (reads_of_head hc line).1, hedges,
    List.append_nil, filterMap_declarationLines 0 _
      fun label hl => readLabel?_declarationLine (h.labels label hl)]
  exact List.filterMap_some

theorem filterMap_readEdge? (fenced : Bool) (diagram : Diagram) :
    ((diagram.lines fenced).map String.toList).filterMap readEdge? =
      diagram.edges.map Edge.drawn := by
  have hlabels : ((declarationLines 0 diagram.labels).map String.toList).filterMap readEdge? =
      [] := by
    rw [filterMap_declarationLines 0 _ fun label _ position =>
      readEdge?_declarationLine position label]
    exact List.filterMap_eq_nil_iff.2 fun _ _ => rfl
  rw [filterMap_lines fenced diagram fun c line hc => (reads_of_head hc line).2, hlabels,
    List.nil_append, List.map_map, List.filterMap_map, ← List.filterMap_eq_map]
  exact List.filterMap_congr fun edge _ => readEdge?_edgeLine edge

theorem head?_lines (fenced : Bool) (diagram : Diagram) :
    (((diagram.lines fenced).map String.toList).head? == some openingFence.toList) = fenced := by
  cases fenced <;> rfl

theorem read?_text {diagram : Diagram} (h : diagram.Plain) (fenced : Bool) :
    read? (diagram.text fenced) = some (diagram.drawing fenced) := by
  rw [read?, lines?_text h, Option.map_some, head?_lines, filterMap_readLabel? h,
    filterMap_readEdge?]
  rfl

theorem lines_ne_nil (fenced : Bool) (diagram : Diagram) :
    (diagram.lines fenced).map String.toList ≠ [] := by
  cases fenced <;> exact List.cons_ne_nil _ _

theorem forall_mem_intercalate {p : α → Prop} {sep : List α} {groups : List (List α)}
    (hs : ∀ x ∈ sep, p x) (h : ∀ group ∈ groups, ∀ x ∈ group, p x) :
    ∀ x ∈ sep.intercalate groups, p x := by
  induction groups with
  | nil => nofun
  | cons group groups ih =>
    obtain ⟨hg, h⟩ := List.forall_mem_cons.1 h
    cases groups with
    | nil => rwa [List.intercalate_singleton]
    | cons next groups =>
      rw [List.intercalate_cons_cons]
      exact List.forall_mem_append.2 ⟨List.forall_mem_append.2 ⟨hg, hs⟩, ih h⟩

theorem separate?_of_lines? {document : String} {groups : List (List (List Char))}
    (hl : Text.lines? document.toList = some ([[]].intercalate groups))
    (hg : ∀ group ∈ groups, group ≠ [] ∧ ∀ line ∈ group, line ≠ []) :
    separate? document = some (groups.map fun lines => String.ofList (Text.unlines lines)) := by
  rw [separate?, hl, Option.map_some]
  rcases eq_or_ne groups [] with rfl | hne
  · rfl
  have hsplit : ([[]].intercalate groups).splitOn [] = groups :=
    List.splitOn_intercalate [] (fun group hm he => (hg group hm).2 [] he rfl) hne
  have hlines : [[]].intercalate groups ≠ [] := by
    intro he
    rw [he, List.splitOn_nil] at hsplit
    exact (hg [] (hsplit ▸ List.mem_singleton_self [])).1 rfl
  rw [if_neg hlines, hsplit]

theorem toList_joinDiagrams (fenced : Bool) (diagrams : List Diagram) :
    (joinDiagrams (diagrams.map (text fenced))).toList =
      Text.unlines ([[]].intercalate
        (diagrams.map fun diagram => (diagram.lines fenced).map String.toList)) := by
  have hlf : "\n".toList = ['\n'] := rfl
  have htexts : (diagrams.map (text fenced)).map String.toList =
      (diagrams.map fun diagram => (diagram.lines fenced).map String.toList).map
        Text.unlines := by
    rw [List.map_map, List.map_map]
    exact List.map_congr_left fun diagram _ => toList_text fenced diagram
  rw [joinDiagrams, String.toList_intercalate, htexts, hlf, ← Text.unlines_intercalate]

/-- No line of a diagram is empty, so the empty lines are those between diagrams. -/
theorem separate?_joinDiagrams {diagrams : List Diagram} (h : ∀ diagram ∈ diagrams, diagram.Plain)
    (fenced : Bool) :
    separate? (joinDiagrams (diagrams.map (text fenced))) = some (diagrams.map (text fenced)) := by
  have hmem : ∀ group ∈ diagrams.map fun diagram => (diagram.lines fenced).map String.toList,
      group ≠ [] ∧ ∀ line ∈ group, '\n' ∉ line ∧ line ≠ [] :=
    List.forall_mem_map.2 fun diagram hd =>
      ⟨lines_ne_nil fenced diagram, forall_mem_lines (h diagram hd) fenced⟩
  have hlines : Text.lines? (joinDiagrams (diagrams.map (text fenced))).toList =
      some ([[]].intercalate
        (diagrams.map fun diagram => (diagram.lines fenced).map String.toList)) := by
    rw [toList_joinDiagrams]
    refine Text.lines?_unlines (forall_mem_intercalate ?_ fun group hg line hl => ?_)
    · exact List.forall_mem_singleton.2 List.not_mem_nil
    · exact ((hmem group hg).2 line hl).1
  rw [separate?_of_lines? hlines fun group hg =>
    ⟨(hmem group hg).1, fun line hl => ((hmem group hg).2 line hl).2⟩, List.map_map]
  congr 1
  refine List.map_congr_left fun diagram _ => ?_
  rw [Function.comp_apply, ← toList_text, String.ofList_toList]

end Diagram

namespace Machine

theorem read?_draw (machine : Machine) (fenced : Bool) :
    Diagram.read? (machine.draw fenced) = some ((Diagram.ofMachine machine).drawing fenced) :=
  Diagram.read?_text (Diagram.plain_ofMachine machine) fenced

theorem map_draw (machines : List Machine) (fenced : Bool) :
    machines.map (draw fenced) = (machines.map Diagram.ofMachine).map (Diagram.text fenced) :=
  List.map_map.symm

theorem separate?_joinDiagrams (machines : List Machine) (fenced : Bool) :
    Diagram.separate? (joinDiagrams (machines.map (draw fenced))) =
      some (machines.map (draw fenced)) := by
  rw [map_draw]
  exact Diagram.separate?_joinDiagrams
    (List.forall_mem_map.2 fun machine _ => Diagram.plain_ofMachine machine) fenced

end Machine

end StateDiagram
