import Mathlib.Data.List.Chain
import Mathlib.Data.List.TakeWhile
import StateDiagram.Proofs.BodyLine

namespace StateDiagram

set_option autoImplicit true

open Layout Text

variable {f g : Layout}

def printBody (lines : List BodyLine) : String :=
  "StateMachine.create \x7b\n" ++ "\n".intercalate (lines.map BodyLine.print) ++ "\n\x7d"

/-- The statements that are left when the lines up to an arrow are read as parameters. -/
def survivingStatements (lines : List BodyLine) : List Statement :=
  match lines.dropWhile BodyLine.isParameter with
  | .function _ _ _ _ :: rest => keptStatements false rest
  | _ => keptStatements false lines

/-- No statement stands where a host line reaches. -/
structure Undisturbed (lines : List BodyLine) : Prop where
  parameters : ∀ front line rest, lines = front ++ line :: rest → line.isFunction = true →
    (∀ parameter ∈ front, parameter.isParameter = true) →
      ∀ parameter ∈ front, parameter.statement? = none
  declarations : lines.IsChain fun line next => line.isDeclaration = true → next.statement? = none

namespace BodyLine

/-- The first word of the line that is no part of parameters. -/
def barrier? : BodyLine → Option Lexeme
  | initial _ | declaration _ _ _ => none
  | state _ => some (.opening .curly)
  | value _ _ => some (.operator "=")
  | call _ text _ => some (.string text.quoted)
  | function _ _ _ _ => some (.operator "->")

theorem isParameter_moreParameters (names : List Identifier) :
    ∀ word ∈ (moreParameters names).words, word.isParameter = true := by
  induction names with
  | nil => exact List.forall_mem_singleton.2 rfl
  | cons name names ih => exact List.forall_mem_cons.2 ⟨rfl, List.forall_mem_cons.2 ⟨rfl, ih⟩⟩

theorem isParameter_functionFront (name : Identifier) (parameters : List Identifier) :
    ∀ word ∈ (functionFront name parameters).words, word.isParameter = true := by
  have hp : ∀ word ∈ (parametersLayout parameters).words, word.isParameter = true := by
    cases parameters with
    | nil => exact List.forall_mem_singleton.2 rfl
    | cons name names => exact List.forall_mem_cons.2 ⟨rfl, isParameter_moreParameters names⟩
  exact List.forall_mem_cons.2 ⟨rfl, List.forall_mem_cons.2 ⟨rfl, List.forall_mem_cons.2 ⟨rfl,
    List.forall_mem_cons.2 ⟨rfl, hp⟩⟩⟩⟩

theorem find?_words (line : BodyLine) :
    line.row.layout.words.find? (!·.isParameter) = line.barrier? := by
  cases line with
  | function name parameters result body =>
    have hf : (functionFront name parameters).words.find? (!·.isParameter) = none :=
      List.find?_eq_none.2 fun word hm => by
        simp [isParameter_functionFront name parameters word hm]
    rw [row, words_append, List.find?_append, hf]
    rfl
  | _ => rfl

theorem find?_stack (lines : List BodyLine) :
    (Layout.words (stack [] ((lines.map row).map Row.layout))).find? (!·.isParameter) =
      lines.findSome? barrier? := by
  induction lines with
  | nil => rfl
  | cons line lines ih =>
    have hl : Layout.words [.word .lineBreak] = [.lineBreak] := rfl
    rw [List.map_cons, List.map_cons, stack_cons, words_append, words_append, hl,
      List.findSome?_cons, List.find?_append, List.find?_append, line.find?_words, ih]
    cases line.barrier? <;> rfl

theorem findSome?_barrier (lines : List BodyLine) :
    lines.findSome? barrier? = (lines.dropWhile isParameter).head?.bind barrier? := by
  induction lines with
  | nil => rfl
  | cons line lines ih =>
    cases line with
    | initial | declaration => exact ih
    | _ => rfl

def layouts (lines : List BodyLine) : List Layout := (lines.map row).map Row.layout

theorem noParameters {lines : List BodyLine}
    (h : lines.findSome? barrier? ≠ some (.operator "->")) :
    Layout.NoParameters (.word .lineBreak :: (core [] (layouts lines) ++ [.word .lineBreak])) := by
  cases lines with
  | nil => exact Layout.Blank.noParameters (Layout.Blank.nil.lineBreak.lineBreak)
  | cons line lines =>
    have hs : (Piece.word .lineBreak :: (core [] (layouts (line :: lines)) ++ [.word .lineBreak])) =
        stack [] (layouts (line :: lines)) ++ [.word .lineBreak] := by
      rw [layouts, List.map_cons, List.map_cons, stack_cons]
      rfl
    have hb : Layout.words [.word .lineBreak] = [.lineBreak] := rfl
    rw [hs, Layout.NoParameters, ← List.find?_not_eq_head?_dropWhile, words_append,
      List.find?_append, layouts, find?_stack, hb]
    cases hf : List.findSome? barrier? (line :: lines) with
    | none =>
      intro hn
      cases hn
    | some word =>
      rw [hf] at h
      exact h

def inside (lines : List BodyLine) : Layout :=
  .word .lineBreak :: (core [] (layouts lines) ++ [.word .lineBreak])

def parameterLayout (lines : List BodyLine) (name : Identifier) (parameters : List Identifier) :
    Layout :=
  core [] (layouts lines ++ [functionFront name parameters])

theorem isParameter_words {line : BodyLine} (h : line.isParameter = true) :
    ∀ word ∈ line.row.layout.words, word.isParameter = true := by
  have hn : line.row.layout.words.find? (!·.isParameter) = none := by
    rw [find?_words]
    cases line <;> first | rfl | cases h
  intro word hm
  simpa using List.find?_eq_none.1 hn word hm

theorem isParameter_parameterLayout {lines : List BodyLine}
    (h : ∀ line ∈ lines, line.isParameter = true) (name : Identifier)
    (parameters : List Identifier) :
    ∀ word ∈ (parameterLayout lines name parameters).words, word.isParameter = true := by
  intro word hm
  rcases mem_core (mem_words.1 hm) with he | ⟨layout, hl, hm⟩
  · cases he
    rfl
  · rcases List.mem_append.1 hl with hl | hl
    · rw [layouts, List.map_map] at hl
      obtain ⟨line, hline, rfl⟩ := List.mem_map.1 hl
      exact isParameter_words (h line hline) word (mem_words.2 hm)
    · obtain rfl := List.mem_singleton.1 hl
      exact isParameter_functionFront name parameters word (mem_words.2 hm)

theorem exists_functionFront (name : Identifier) (parameters : List Identifier) :
    ∃ rest, functionFront name parameters = rest ++ [closing .round] := by
  have hm (names : List Identifier) : ∃ rest, moreParameters names = rest ++ [closing .round] := by
    induction names with
    | nil => exact ⟨[], rfl⟩
    | cons name names ih =>
      obtain ⟨rest, hr⟩ := ih
      exact ⟨comma :: .space :: name.piece :: rest, by rw [moreParameters, hr]; rfl⟩
  have hp : ∃ rest, parametersLayout parameters = rest ++ [closing .round] := by
    cases parameters with
    | nil => exact ⟨[], rfl⟩
    | cons first names =>
      obtain ⟨rest, hr⟩ := hm names
      exact ⟨first.piece :: rest, by rw [parametersLayout, hr]; rfl⟩
  obtain ⟨rest, hr⟩ := hp
  refine ⟨Word.value.piece :: .space :: name.piece :: sign ":" :: .space :: opening .round :: rest,
    ?_⟩
  rw [functionFront, hr]
  rfl

theorem trimmed_parameterLayout {lines : List BodyLine}
    (h : ∀ line ∈ lines, line.isParameter = true) (name : Identifier)
    (parameters : List Identifier) : (parameterLayout lines name parameters).Trimmed where
  first := by
    cases lines with
    | nil => exact ⟨_, _, rfl, rfl⟩
    | cons line lines =>
      have hl := h line List.mem_cons_self
      cases line with
      | initial | declaration => exact ⟨_, _, rfl, rfl⟩
      | _ => cases hl
  last := by
    obtain ⟨rest, hr⟩ := exists_functionFront name parameters
    have hc := core_append (f := []) (g := functionFront name parameters) (layouts lines) []
    rw [List.nil_append, hr, stack, List.flatMap_nil, List.append_nil, ← List.append_assoc] at hc
    rw [parameterLayout, hr]
    exact ⟨_, _, hc, rfl⟩

theorem inside_eq (front rest : List BodyLine) (name : Identifier) (parameters : List Identifier)
    (result body : Identifier) :
    inside (front ++ function name parameters result body :: rest) =
      .word .lineBreak :: (parameterLayout front name parameters ++ .space :: sign "->" ::
        ([.space] ++ (core [] (functionBack result body :: layouts rest) ++
          [.word .lineBreak]))) := by
  have hl : layouts (front ++ function name parameters result body :: rest) =
      layouts front ++ (functionFront name parameters ++
        .space :: sign "->" :: .space :: functionBack result body) :: layouts rest := by
    rw [layouts, List.map_append, List.map_append]
    rfl
  rw [inside, hl, core_append, parameterLayout, core]
  simp only [List.append_assoc, List.cons_append, List.nil_append]

theorem sound_rows (lines : List BodyLine) (hd : depth + 2 ≤ limit) :
    ∀ other ∈ lines.map row, other.Sound (n + 3) limit depth := by
  intro other hm
  obtain ⟨line, _, rfl⟩ := List.mem_map.1 hm
  exact line.sound hd

theorem readsLambda_of_barrier {lines : List BodyLine}
    (h : lines.findSome? barrier? ≠ some (.operator "->")) (hd : depth + 2 ≤ limit) :
    ∃ parameters body values, ReadsLambda (n + 4) (inside lines).braces
        (.lambda (inside lines).braces.text parameters (.block body (values.map Prod.fst))) ∧
      Found limit depth values (keptStatements false lines) := by
  have hl : Layout.Blank [.word .lineBreak] := Layout.Blank.nil.lineBreak
  cases lines with
  | nil => exact ⟨none, "", [], .blank hl.lineBreak, .nil⟩
  | cons line lines =>
    obtain ⟨values, hr, hf⟩ := Row.readsStatements (sound_rows (n := n) (line :: lines) hd)
    rw [← List.map_cons, kept_rows] at hf
    exact ⟨none, _, values, hr.lambda hl hl (noParameters h), hf⟩

theorem readsLambda_of_function {front : List BodyLine}
    (h : ∀ line ∈ front, line.isParameter = true) (name : Identifier)
    (parameters : List Identifier) (result body : Identifier) (rest : List BodyLine)
    (hd : depth + 2 ≤ limit) :
    ∃ found text values,
      ReadsLambda (n + 4) (inside (front ++ function name parameters result body :: rest)).braces
        (.lambda (inside (front ++ function name parameters result body :: rest)).braces.text found
          (.block text (values.map Prod.fst))) ∧
      Found limit depth values (keptStatements false rest) := by
  have hs : Row.Sound (n + 3) limit depth ⟨functionBack result body,
      [result.tree, operatorTree "=", body.tree], false, none⟩ := {
    reads := readsItems_functionBack result body
    leading := fun first hf => by cases hf; rfl
    quiet := List.forall_mem_cons.2 ⟨.identifier result, List.forall_mem_cons.2
      ⟨quiet_operatorTree "=", List.forall_mem_singleton.2 (.identifier body)⟩⟩
    yields := fun _ => yields_sequence _ _
    wide := nofun }
  obtain ⟨values, hr, hf⟩ := Row.readsStatements (List.forall_mem_cons.2 ⟨hs, sound_rows rest hd⟩)
  rw [Row.kept, kept_rows] at hf
  exact ⟨_, _, values, hr.lambda_of_arrow Layout.Blank.nil.lineBreak
    (List.forall_mem_singleton.2 (.inl rfl)) Layout.Blank.nil.lineBreak
    (isParameter_parameterLayout h name parameters)
    (trimmed_parameterLayout h name parameters) (inside_eq ..), hf⟩

theorem readsLambda (lines : List BodyLine) (hd : depth + 2 ≤ limit) :
    ∃ parameters body values, ReadsLambda (n + 4) (inside lines).braces
        (.lambda (inside lines).braces.text parameters (.block body (values.map Prod.fst))) ∧
      Found limit depth values (survivingStatements lines) := by
  unfold survivingStatements
  split
  · next name parameters result body rest hr =>
    have hp : ∀ line ∈ lines.takeWhile isParameter, line.isParameter = true :=
      fun _ => List.mem_takeWhile_imp
    have hf := readsLambda_of_function (n := n) hp name parameters result body rest hd
    rwa [← hr, List.takeWhile_append_dropWhile] at hf
  · next hn =>
    refine readsLambda_of_barrier (fun hb => ?_) hd
    rw [findSome?_barrier] at hb
    obtain ⟨line, hh, hb⟩ := Option.bind_eq_some_iff.1 hb
    obtain ⟨rest, hr⟩ := List.head?_eq_some_iff.1 hh
    cases line with
    | function name parameters result body => exact hn _ _ _ _ _ hr
    | _ => simp [barrier?] at hb

theorem scanned_core (lines : List BodyLine) :
    Layout.Scanned ('\n' :: after) (core [] (layouts lines)) := by
  have hs (lines : List BodyLine) : Layout.Scanned ('\n' :: after) (stack [] (layouts lines)) ∧
      ∃ cs, (stack [] (layouts lines)).chars ++ '\n' :: after = '\n' :: cs := by
    induction lines with
    | nil => exact ⟨Neat.nil.scanned, _, rfl⟩
    | cons line lines ih =>
      obtain ⟨hs, cs, hc⟩ := ih
      rw [layouts, List.map_cons, List.map_cons, ← layouts, stack_cons]
      have hb : Layout.Scanned (Layout.chars (line.row.layout ++ stack [] (layouts lines)) ++
          '\n' :: after) [.word .lineBreak] := Neat.nil.lineBreak.scanned
      refine ⟨scanned_append.2 ⟨hb, scanned_append.2 ⟨?_, hs⟩⟩, _, rfl⟩
      rw [hc]
      exact line.scanned_row
  cases lines with
  | nil => exact Neat.nil.scanned
  | cons line lines =>
    obtain ⟨hs, cs, hc⟩ := hs lines
    rw [layouts, List.map_cons, List.map_cons, ← layouts]
    refine scanned_append.2 ⟨?_, hs⟩
    rw [hc]
    exact line.scanned_row

theorem chars_inside (lines : List BodyLine) : (inside lines).chars =
    '\n' :: (("\n".intercalate (lines.map print)).toList ++ ['\n']) := by
  have ht : (layouts lines).map Layout.text = lines.map print := by
    rw [layouts, List.map_map, List.map_map]
    exact List.map_congr_left fun line _ => text_eq line.chars_row
  rw [inside, chars_cons, chars_append, chars_core, ht]
  rfl

/-- The builder with the lines in its body; the tree of the body is not looked at. -/
def builder (lines : List BodyLine) (tree : Node String) : Layout :=
  builderLayout ⟨(inside lines).braces, tree⟩

theorem text_builder (lines : List BodyLine) (tree : Node String) :
    (builder lines tree).text = printBody lines := by
  have hs : "StateMachine.create \x7b\n".toList = "StateMachine.create ".toList ++ ['\x7b', '\n'] :=
    rfl
  have he : "\n\x7d".toList = ['\n', '\x7d'] := rfl
  refine text_eq ?_
  unfold printBody
  rw [builder, chars_builderLayout, chars_braces, chars_inside, String.toList_append,
    String.toList_append, hs, he]
  simp

theorem scanned_builder (lines : List BodyLine) (tree : Node String) :
    Layout.Scanned [] (builder lines tree) := by
  have hf (after : List Char) : Neat after [Word.stateMachine.piece, dot, Word.create.piece, .space,
      opening .curly, .word .lineBreak] := by
    have hb : Neat after [.space, opening .curly, .word .lineBreak] :=
      .space (.opening .curly (.lineBreak .nil))
    exact Word.stateMachine.neat_dot Word.create (Word.create.neat (.cons (by decide)) hb)
  have hb : Neat [] [.word .lineBreak, closing .curly] := .lineBreak (.closing .curly .nil)
  have hl : builder lines tree = [Word.stateMachine.piece, dot, Word.create.piece, .space,
      opening .curly, .word .lineBreak] ++ (core [] (layouts lines) ++
        [.word .lineBreak, closing .curly]) := by
    simp [builder, builderLayout, Inscription.heading, braces, inside]
  rw [hl]
  exact scanned_append.2 ⟨(hf _).scanned, scanned_append.2 ⟨scanned_core lines, hb.scanned⟩⟩

end BodyLine

theorem extractMachines_survivingStatements (lines : List BodyLine) :
    extractMachines {} (printBody lines) = .ok [⟨survivingStatements lines⟩] := by
  have hd : 1 + 2 ≤ ({} : Limits).extractionDepth := by decide
  obtain ⟨parameters, body, values, hr, hf⟩ := BodyLine.readsLambda lines hd
  have hs := (readsStatement_builder hr).one.file .nil
  rw [List.append_nil] at hs
  rw [← BodyLine.text_builder lines, ← hf.statements]
  have hc := BodyLine.scanned_builder lines
  refine extractMachines_of_reads hs (hc _).lexical (hc _).cr fun whole => ?_
  refine @machinesAt_file _ _ [()] (fun _ => _) (fun _ => _) (fun _ _ => ⟨rfl, ?_⟩) whole
  exact machinesAt_builder Prod.snd (by decide) hf.quiet hf.yields _ _ _ _

theorem length_keptStatements_le (taken : Bool) (lines : List BodyLine) :
    (keptStatements taken lines).length ≤ (lines.filterMap BodyLine.statement?).length := by
  induction lines generalizing taken with
  | nil => exact Nat.le_refl 0
  | cons line lines ih =>
    have hl := ih line.isDeclaration
    rw [keptStatements, List.filterMap_cons]
    cases taken <;> cases line.statement? <;> simp <;> omega

theorem keptStatements_eq_iff (taken : Bool) (lines : List BodyLine) :
    keptStatements taken lines = lines.filterMap BodyLine.statement? ↔
      (taken = true → ∀ line ∈ lines.head?, line.statement? = none) ∧
        lines.IsChain fun line next => line.isDeclaration = true → next.statement? = none := by
  induction lines generalizing taken with
  | nil => simp [keptStatements]
  | cons line lines ih =>
    have hc : (List.IsChain (fun line next : BodyLine =>
        line.isDeclaration = true → next.statement? = none) (line :: lines)) ↔
          keptStatements line.isDeclaration lines = lines.filterMap BodyLine.statement? := by
      rw [List.isChain_cons, ih]
      exact and_congr_left fun _ =>
        ⟨fun h hd next hn => h next hn hd, fun h next hn hd => h hd next hn⟩
    rw [hc, keptStatements, List.filterMap_cons]
    cases hs : line.statement? with
    | none => simp [hs]
    | some statement =>
      cases taken with
      | false => simp
      | true =>
        -- The statement of the line is lost, and nothing makes up for it.
        refine iff_of_false (fun h => ?_) fun h => ?_
        · have hl := length_keptStatements_le line.isDeclaration lines
          have he := congrArg List.length h
          simp only [if_true, List.nil_append, List.length_cons] at he
          omega
        · rw [h.1 rfl line rfl] at hs
          cases hs

theorem BodyLine.not_isParameter {line : BodyLine} (h : line.isFunction = true) :
    ¬ line.isParameter = true := by
  cases line with
  | function => exact Bool.false_ne_true
  | _ => cases h

theorem takeWhile_isParameter {front rest : List BodyLine} {line : BodyLine}
    (hp : ∀ parameter ∈ front, parameter.isParameter = true) (hf : line.isFunction = true) :
    (front ++ line :: rest).takeWhile BodyLine.isParameter = front := by
  rw [List.takeWhile_append_of_pos hp, List.takeWhile_cons_of_neg (BodyLine.not_isParameter hf),
    List.append_nil]

theorem undisturbed_append {front rest : List BodyLine} {line : BodyLine}
    (hp : ∀ parameter ∈ front, parameter.isParameter = true) (hf : line.isFunction = true) :
    Undisturbed (front ++ line :: rest) ↔ (∀ parameter ∈ front, parameter.statement? = none) ∧
      rest.IsChain fun line next => line.isDeclaration = true → next.statement? = none := by
  have hn : line.isDeclaration = false ∧ line.statement? = none := by
    cases line with
    | function => exact ⟨rfl, rfl⟩
    | _ => cases hf
  constructor
  · rintro ⟨hparameters, hdeclarations⟩
    exact ⟨hparameters front line rest rfl hf hp,
      (List.isChain_cons.1 (List.isChain_append.1 hdeclarations).2.1).2⟩
  · rintro ⟨hs, hr⟩
    refine ⟨fun front' line' rest' he hf' hp' => ?_, List.isChain_append.2 ⟨?_, ?_, ?_⟩⟩
    · have ht : (front' ++ line' :: rest').takeWhile BodyLine.isParameter = front' :=
        takeWhile_isParameter hp' hf'
      rw [← he, takeWhile_isParameter hp hf] at ht
      rw [← ht]
      exact hs
    · have hpairs : front.Pairwise fun line next =>
          line.isDeclaration = true → next.statement? = none :=
        List.pairwise_of_forall_mem_list fun _ _ next hm _ => hs next hm
      exact hpairs.isChain
    · exact List.isChain_cons.2 ⟨fun next _ hd => absurd (hn.1.symm.trans hd) nofun, hr⟩
    · rintro _ _ next hm _
      cases hm
      exact hn.2

theorem survivingStatements_eq_iff (lines : List BodyLine) :
    survivingStatements lines = lines.filterMap BodyLine.statement? ↔ Undisturbed lines := by
  unfold survivingStatements
  split
  · next name parameters result body rest hr =>
    have hp : ∀ line ∈ lines.takeWhile BodyLine.isParameter, line.isParameter = true :=
      fun _ => List.mem_takeWhile_imp
    have hl := List.takeWhile_append_dropWhile (p := BodyLine.isParameter) (l := lines)
    rw [hr] at hl
    generalize lines.takeWhile BodyLine.isParameter = front at hp hl
    subst hl
    have hk := keptStatements_eq_iff false rest
    simp only [Bool.false_eq_true, false_implies, true_and] at hk
    rw [undisturbed_append hp rfl, List.filterMap_append, List.filterMap_cons_none rfl, ← hk,
      ← List.filterMap_eq_nil_iff]
    constructor
    · intro he
      have hlength := congrArg List.length he
      have hle := length_keptStatements_le false rest
      rw [List.length_append] at hlength
      have hn : front.filterMap BodyLine.statement? = [] := List.eq_nil_of_length_eq_zero (by omega)
      rw [hn, List.nil_append] at he
      exact ⟨hn, he⟩
    · rintro ⟨hn, he⟩
      rw [hn, he, List.nil_append]
  · next hn =>
    have hparameters : ∀ front line rest, lines = front ++ line :: rest → line.isFunction = true →
        (∀ parameter ∈ front, parameter.isParameter = true) →
          ∀ parameter ∈ front, parameter.statement? = none := by
      rintro front line rest rfl hf hp
      rw [List.dropWhile_append_of_pos hp,
        List.dropWhile_cons_of_neg (BodyLine.not_isParameter hf)] at hn
      cases line with
      | function => exact (hn _ _ _ _ _ rfl).elim
      | _ => cases hf
    rw [keptStatements_eq_iff]
    exact ⟨fun h => ⟨hparameters, h.2⟩, fun h => ⟨nofun, h.declarations⟩⟩

/-- What is extracted from a builder with host code in it: the statements that host code leaves
over, and these are all of them if and only if no statement stands where a host line reaches. -/
theorem extractMachines_printBody (lines : List BodyLine) :
    extractMachines {} (printBody lines) = .ok [⟨survivingStatements lines⟩] ∧
      (extractMachines {} (printBody lines) =
          .ok [⟨lines.filterMap BodyLine.statement?⟩] ↔ Undisturbed lines) := by
  have he := extractMachines_survivingStatements lines
  refine ⟨he, ?_⟩
  rw [he, ← survivingStatements_eq_iff]
  constructor
  · intro h
    injection h with h
    injection h with h
    injection h
  · intro h
    rw [h]

/-- The state below the declaration is lost, and so is the initial state above the function. -/
example (x f l t a : Identifier) :
    survivingStatements [.declaration x l t, .state a] = [] ∧
      survivingStatements [.initial a, .function f [t] t l] = [] :=
  ⟨rfl, rfl⟩

end StateDiagram
