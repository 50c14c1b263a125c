import Mathlib.Data.List.Basic
import StateDiagram.Diagram
import StateDiagram.Proofs.Evaluation

namespace StateDiagram

set_option autoImplicit true

namespace Text

def lines? : List Char → Option (List (List Char))
  | [] => some []
  | c :: cs =>
    if c = '\n' then (lines? cs).map ([] :: ·)
    else
      match lines? cs with
      | some (line :: lines) => some ((c :: line) :: lines)
      | _ => none

def unlines (lines : List (List Char)) : List Char := lines.flatMap (· ++ ['\n'])

theorem lines?_cons_line {line : List Char} (h : '\n' ∉ line) (cs : List Char) :
    lines? (line ++ '\n' :: cs) = (lines? cs).map (line :: ·) := by
  induction line with
  | nil => rw [List.nil_append, lines?, if_pos rfl]
  | cons c line ih =>
    rw [List.mem_cons, not_or] at h
    rw [List.cons_append, lines?, if_neg (Ne.symm h.1), ih h.2]
    cases lines? cs <;> rfl

theorem lines?_unlines {lines : List (List Char)} (h : ∀ line ∈ lines, '\n' ∉ line) :
    lines? (unlines lines) = some lines := by
  induction lines with
  | nil => rfl
  | cons line lines ih =>
    obtain ⟨hl, h⟩ := List.forall_mem_cons.1 h
    rw [unlines, List.flatMap_cons, List.append_assoc, List.singleton_append, lines?_cons_line hl]
    exact congrArg (Option.map (line :: ·)) (ih h)

theorem unlines_intercalate (groups : List (List (List Char))) :
    unlines ([[]].intercalate groups) = ['\n'].intercalate (groups.map unlines) := by
  induction groups with
  | nil => rfl
  | cons group groups ih =>
    cases groups with
    | nil =>
      rw [List.intercalate_singleton, List.map_cons, List.map_nil, List.intercalate_singleton]
    | cons next groups =>
      rw [List.map_cons, List.map_cons, List.intercalate_cons_cons, List.intercalate_cons_cons,
        ← List.map_cons, ← ih]
      simp only [unlines, List.flatMap_append, List.flatMap_singleton, List.nil_append]

end Text

/-- A text that ends neither a line nor a label. -/
def Label.Plain (text : String) : Prop :=
  ∀ c ∈ text.toList, c ≠ '\n' ∧ c ≠ '\r' ∧ c ≠ '\x22'

instance : DecidablePred Label.Plain := fun text =>
  List.decidableBAll (fun c => c ≠ '\n' ∧ c ≠ '\r' ∧ c ≠ '\x22') text.toList

theorem Label.Plain.append {first second : String} (hf : Plain first) (hs : Plain second) :
    Plain (first ++ second) := by
  intro c hc
  rw [String.toList_append] at hc
  exact (List.mem_append.1 hc).elim (hf c) (hs c)

theorem Label.plain_escapeCharacter {c : Char} (hc : c ≠ '\r') :
    ∀ d ∈ escapeCharacter c, d ≠ '\n' ∧ d ≠ '\r' ∧ d ≠ '\x22' := by
  rw [escapeCharacter]
  split
  · simp
  · next hn =>
    split
    · simp
    · next hq => exact List.forall_mem_singleton.2 ⟨hn, hc, hq⟩

theorem Label.plain_escape (text : String) : Plain (escape text) := by
  intro c hc
  rw [escape, String.toList_ofList, escapeChars] at hc
  obtain ⟨d, hd, hc⟩ := List.mem_flatMap.1 hc
  refine plain_escapeCharacter ?_ c hc
  rintro rfl
  exact Text.cr_not_mem_normalizeLineEndings text.toList hd

namespace Edge

/-- The text on an edge: the event, two slashes, and the side effect if there is one. -/
def transitionText (event : String) (sideEffect : Option String) : String :=
  event ++ " //" ++
    match sideEffect with
    | some effect => " " ++ effect
    | none => ""

/-- The texts of the edge fit on a line. -/
def Plain : Edge → Prop
  | .start _ => True
  | .transition _ _ event sideEffect =>
    Label.Plain event ∧ ∀ effect ∈ sideEffect, Label.Plain effect

end Edge

namespace Diagram

/-- All texts of the diagram fit on a line. -/
structure Plain (diagram : Diagram) : Prop where
  labels : ∀ label ∈ diagram.labels, Label.Plain label
  edges : ∀ edge ∈ diagram.edges, edge.Plain

theorem plain_ofMachine (machine : Machine) : (ofMachine machine).Plain := by
  constructor
  · intro label hm
    obtain ⟨state, _, rfl⟩ := List.mem_map.1 hm
    exact Label.plain_escape _
  · intro edge hm
    obtain ⟨statement, _, hm⟩ := List.mem_flatMap.1 hm
    cases statement with
    | initial name =>
      rw [List.mem_singleton.1 hm]
      trivial
    | state declared =>
      obtain ⟨transition, _, rfl⟩ := List.mem_map.1 hm
      refine ⟨Label.plain_escape _, fun effect he => ?_⟩
      obtain ⟨raw, _, rfl⟩ := Option.map_eq_some_iff.1 he
      exact Label.plain_escape raw

def startMark : String := "[*]"

def arrow : String := " --> "

theorem toList_endpointId (position : Nat) :
    (endpointId (some position)).toList = 's' :: Nat.toDigits 10 position := by
  have he : endpointId (some position) = "s" ++ position.repr := rfl
  rw [he, String.toList_append, Nat.toList_repr]
  rfl

theorem not_mem_endpointId {c : Char} (hc : c.isAlphanum = false) (endpoint : Endpoint) :
    c ∉ (endpointId endpoint).toList := by
  intro hm
  have ha : ∀ d ∈ (endpointId endpoint).toList, d.isAlphanum = true := by
    cases endpoint with
    | none => exact List.all_eq_true.1 rfl
    | some position =>
      rw [toList_endpointId]
      refine List.forall_mem_cons.2 ⟨rfl, fun d hd => ?_⟩
      rw [Char.isAlphanum, Nat.isDigit_of_mem_toDigits (by decide) (by decide) hd, Bool.or_true]
  rw [ha c hm] at hc
  cases hc

theorem toList_declarationLine (position : Nat) (label : String) :
    (declarationLine position label).toList =
      (indent ++ "state \"").toList ++ (label.toList ++
        '\x22' :: (" as ".toList ++ (endpointId (some position)).toList)) := by
  have he : declarationLine position label =
      indent ++ "state \"" ++ label ++ "\" as " ++ endpointId (some position) := rfl
  simp only [he, String.toList_append, List.append_assoc]
  rfl

theorem toList_startLine (target : Endpoint) :
    (edgeLine (.start target)).toList =
      indent.toList ++ (startMark.toList ++ (arrow.toList ++ (endpointId target).toList)) := by
  have he : edgeLine (.start target) = indent ++ "[*] --> " ++ endpointId target := rfl
  simp only [he, String.toList_append, List.append_assoc]
  rfl

theorem toList_transitionLine (source target : Endpoint) (event : String)
    (effect : Option String) :
    (edgeLine (.transition source target event effect)).toList =
      indent.toList ++ ((endpointId source).toList ++ (arrow.toList ++
        ((endpointId target).toList ++ ':' :: (Edge.transitionText event effect).toList))) := by
  have he : edgeLine (.transition source target event effect) =
      indent ++ endpointId source ++ " --> " ++ endpointId target ++ ":" ++ event ++ " //" ++
        (match effect with
        | some effect => " " ++ effect
        | none => "") := rfl
  simp only [he, Edge.transitionText, String.toList_append, List.append_assoc]
  rfl

theorem toList_text (fenced : Bool) (diagram : Diagram) :
    (diagram.text fenced).toList = Text.unlines ((diagram.lines fenced).map String.toList) := by
  rw [text, String.toList_join, Text.unlines, List.flatMap_map, List.flatMap_map]
  simp only [String.toList_append]
  rfl

/-- A line with so many double quotes. It is not empty and holds no line break. -/
structure IsLine (quotes : Nat) (line : String) : Prop where
  nonempty : line ≠ ""
  lf : '\n' ∉ line.toList
  cr : '\r' ∉ line.toList
  quotes : line.toList.count '\x22' = quotes

/-- A line that would open or close a code block: behind its leading spaces it starts with three
backticks. -/
def IsFence (line : String) : Prop := closingFence.toList <+: line.toList.dropWhile (· = ' ')

instance (line : String) : Decidable (IsFence line) :=
  inferInstanceAs (Decidable (_ <+: _))

theorem isLine_of_plain {line : String} (h : Label.Plain line) (hne : line ≠ "") :
    IsLine 0 line where
  nonempty := hne
  lf hm := (h _ hm).1 rfl
  cr hm := (h _ hm).2.1 rfl
  quotes := List.count_eq_zero.2 fun hm => (h _ hm).2.2 rfl

theorem plain_endpointId (endpoint : Endpoint) : Label.Plain (endpointId endpoint) := by
  intro c hc
  refine ⟨?_, ?_, ?_⟩ <;>
  · rintro rfl
    exact not_mem_endpointId rfl endpoint hc

theorem plain_transitionText {event : String} {effect : Option String} (he : Label.Plain event)
    (hs : ∀ text ∈ effect, Label.Plain text) : Label.Plain (Edge.transitionText event effect) := by
  have hslashes : Label.Plain " //" := by decide
  have hspace : Label.Plain " " := by decide
  refine (he.append hslashes).append ?_
  cases effect with
  | none => nofun
  | some text => exact hspace.append (hs text rfl)

theorem plain_edgeLine {edge : Edge} (h : edge.Plain) : Label.Plain (edgeLine edge) := by
  have hindent : Label.Plain indent := by decide
  have harrow : Label.Plain arrow := by decide
  intro c hc
  cases edge with
  | start target =>
    have hmark : Label.Plain startMark := by decide
    simp only [toList_startLine, List.mem_append] at hc
    rcases hc with hc | hc | hc | hc
    exacts [hindent c hc, hmark c hc, harrow c hc, plain_endpointId target c hc]
  | transition source target event effect =>
    simp only [toList_transitionLine, List.mem_append, List.mem_cons] at hc
    rcases hc with hc | hc | hc | hc | rfl | hc
    exacts [hindent c hc, plain_endpointId source c hc, harrow c hc, plain_endpointId target c hc,
      by decide, plain_transitionText h.1 h.2 c hc]

/-- The double quotes of a declaration line are those around the label. -/
theorem isLine_declarationLine {label : String} (h : Label.Plain label) (position : Nat) :
    IsLine 2 (declarationLine position label) := by
  have he := toList_declarationLine position label
  have hf : ∀ c ∈ (indent ++ "state \"").toList, c ≠ '\n' ∧ c ≠ '\r' := by simp [indent]
  have hb : ∀ c ∈ '\x22' :: " as ".toList, c ≠ '\n' ∧ c ≠ '\r' := by simp
  have hall : ∀ c ∈ (declarationLine position label).toList, c ≠ '\n' ∧ c ≠ '\r' := by
    intro c hc
    rw [he, ← List.cons_append] at hc
    simp only [List.mem_append] at hc
    rcases hc with hc | hc | hc | hc
    exacts [hf c hc, ⟨(h c hc).1, (h c hc).2.1⟩, hb c hc,
      ⟨(plain_endpointId _ c hc).1, (plain_endpointId _ c hc).2.1⟩]
  have hlabel : label.toList.count '\x22' = 0 := List.count_eq_zero.2 fun hm => (h _ hm).2.2 rfl
  have hid : (endpointId (some position)).toList.count '\x22' = 0 :=
    List.count_eq_zero.2 fun hm => (plain_endpointId _ _ hm).2.2 rfl
  refine ⟨?_, fun hm => (hall _ hm).1 rfl, fun hm => (hall _ hm).2 rfl, ?_⟩
  · rintro hempty
    rw [hempty] at he
    cases he
  · rw [he, List.count_append, List.count_append, List.count_cons_self, List.count_append, hlabel,
      hid]
    rfl

theorem isLine_edgeLine {edge : Edge} (h : edge.Plain) : IsLine 0 (edgeLine edge) := by
  refine isLine_of_plain (plain_edgeLine h) ?_
  intro hempty
  have he := congrArg String.toList hempty
  cases edge with
  | start target =>
    rw [toList_startLine] at he
    cases he
  | transition source target event effect =>
    rw [toList_transitionLine] at he
    cases he

theorem exists_of_mem_declarationLines {position : Nat} {labels : List String} {line : String}
    (h : line ∈ declarationLines position labels) :
    ∃ position, ∃ label ∈ labels, line = declarationLine position label := by
  induction labels generalizing position with
  | nil => cases h
  | cons label labels ih =>
    rcases List.mem_cons.1 h with rfl | h
    · exact ⟨position, label, List.mem_cons_self, rfl⟩
    · obtain ⟨position, other, hm, he⟩ := ih h
      exact ⟨position, other, List.mem_cons_of_mem _ hm, he⟩

def fence (fenced : Bool) (line : String) : List String := if fenced then [line] else []

theorem lines_eq (fenced : Bool) (diagram : Diagram) :
    diagram.lines fenced = fence fenced openingFence ++
      header :: (declarationLines 0 diagram.labels ++ diagram.edges.map edgeLine) ++
        fence fenced closingFence := by
  cases fenced with
  | false => exact (List.append_nil _).symm
  | true => rfl

theorem isLine_fixed (line : String) (h : line ∈ [openingFence, header, closingFence]) :
    IsLine 0 line := by
  have hall : ∀ line ∈ [openingFence, header, closingFence],
      Label.Plain line ∧ line ≠ "" := by decide
  exact isLine_of_plain (hall line h).1 (hall line h).2

theorem isFence_fence (fenced : Bool) {side line : String}
    (hs : side = openingFence ∨ side = closingFence) (h : line ∈ fence fenced side) :
    IsLine 0 line ∧ IsFence line := by
  cases fenced with
  | false => cases h
  | true =>
    obtain rfl := List.mem_singleton.1 h
    rcases hs with rfl | rfl
    · exact ⟨isLine_fixed _ (by decide), by decide⟩
    · exact ⟨isLine_fixed _ (by decide), by decide⟩

theorem exists_isLine {diagram : Diagram} (h : diagram.Plain) (fenced : Bool) {line : String}
    (hm : line ∈ diagram.lines fenced) : ∃ quotes, IsLine quotes line := by
  rw [lines_eq] at hm
  simp only [List.mem_append, List.mem_cons, List.mem_map] at hm
  rcases hm with (hm | rfl | hm | ⟨edge, hm, rfl⟩) | hm
  · exact ⟨0, (isFence_fence fenced (.inl rfl) hm).1⟩
  · exact ⟨0, isLine_fixed _ (by decide)⟩
  · obtain ⟨position, label, hl, rfl⟩ := exists_of_mem_declarationLines hm
    exact ⟨2, isLine_declarationLine (h.labels label hl) position⟩
  · exact ⟨0, isLine_edgeLine (h.edges edge hm)⟩
  · exact ⟨0, (isFence_fence fenced (.inr rfl) hm).1⟩

theorem forall_mem_lines {diagram : Diagram} (h : diagram.Plain) (fenced : Bool) :
    ∀ line ∈ (diagram.lines fenced).map String.toList, '\n' ∉ line ∧ line ≠ [] := by
  refine List.forall_mem_map.2 fun line hm => ?_
  obtain ⟨quotes, hline⟩ := exists_isLine h fenced hm
  exact ⟨hline.lf, mt String.toList_eq_nil_iff.1 hline.nonempty⟩

theorem lines?_text {diagram : Diagram} (h : diagram.Plain) (fenced : Bool) :
    Text.lines? (diagram.text fenced).toList = some ((diagram.lines fenced).map String.toList) := by
  rw [toList_text, Text.lines?_unlines fun line hm => (forall_mem_lines h fenced line hm).1]

end Diagram

end StateDiagram
