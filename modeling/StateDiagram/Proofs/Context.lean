import StateDiagram.Proofs.BodyLine
import StateDiagram.Proofs.Inscription

namespace StateDiagram

set_option autoImplicit true

open Layout Text

namespace Word

def definition : Identifier := ⟨"class", by decide⟩

def run : Identifier := ⟨"run", by decide⟩

end Word

/-- Code around a hole: the value of a declaration, the body of a class, an argument, what stands
in brackets, the body of a call, an index, and the body of a lambda with a parameter. -/
inductive Context where
  | hole
  | value (name : Identifier) (inside : Context)
  | body (name : Identifier) (inside : Context)
  | argument (function : Identifier) (inside : Context)
  | second (function first : Identifier) (inside : Context)
  | group (inside : Context)
  | run (inside : Context)
  | index (name : Identifier) (inside : Context)
  | callback (function parameter : Identifier) (inside : Context)

/-- Expressions that stand side by side, the last of them apart from the others. -/
structure Strand where
  layout : Layout
  front : List (Node String)
  main : Node String

namespace Strand

def trees (strand : Strand) : List (Node String) := strand.front ++ [strand.main]

def tree (strand : Strand) : Node String := joined strand.layout.text strand.trees

def bracketed (bracket : Bracket) (strand : Strand) : Inscription where
  layout := opening bracket :: (strand.layout ++ [closing bracket])
  tree := .group (Layout.text (opening bracket :: (strand.layout ++ [closing bracket])))
    strand.trees

def braced (lead trail : Layout) (parameters : Option String) (strand : Strand) : Inscription where
  layout := braces (lead ++ (strand.layout ++ trail))
  tree := .lambda (Layout.text (braces (lead ++ (strand.layout ++ trail)))) parameters
    (.block strand.layout.text [strand.tree])

def argument (strand : Strand) : Node String :=
  .valueArgument strand.layout.text none strand.tree

end Strand

def Inscription.strand (line : Inscription) : Strand := ⟨line.layout, [], line.tree⟩

namespace Context

def print (text : String) : Context → String
  | hole => text
  | value name inside => "val " ++ name.text ++ " = " ++ inside.print text
  | body name inside => "class " ++ name.text ++ " \x7b\n" ++ inside.print text ++ "\n\x7d"
  | argument function inside => function.text ++ "(" ++ inside.print text ++ ")"
  | second function first inside =>
    function.text ++ "(" ++ first.text ++ ", " ++ inside.print text ++ ")"
  | group inside => "(" ++ inside.print text ++ ")"
  | run inside => "run \x7b " ++ inside.print text ++ " \x7d"
  | index name inside => name.text ++ "[" ++ inside.print text ++ "]"
  | callback function parameter inside =>
    function.text ++ "(\x7b " ++ parameter.text ++ " -> " ++ inside.print text ++ " \x7d)"

example : print "m" (.callback ⟨"f", by decide⟩ ⟨"y", by decide⟩
    (.body ⟨"A", by decide⟩ (.index ⟨"x", by decide⟩ .hole))) =
      "f(\x7b y -> class A \x7b\nx[m]\n\x7d \x7d)" := by decide

def depth : Context → Nat
  | hole => 0
  | value _ inside | body _ inside | argument _ inside | second _ _ inside | group inside
  | run inside | index _ inside | callback _ _ inside => inside.depth + 1

def arrowLayout (parameter : Identifier) : Layout :=
  [.space, parameter.piece, .space, sign "->", .space]

/-- The strand with the given one in the hole. -/
def strand (filling : Strand) : Context → Strand
  | hole => filling
  | value name inside =>
    let strand := inside.strand filling
    ⟨Word.value.piece :: .space :: name.piece :: .space :: sign "=" :: .space :: strand.layout,
      Word.value.tree :: name.tree :: operatorTree "=" :: strand.front, strand.main⟩
  | body name inside =>
    let call := Inscription.heading name [] [] []
      ((inside.strand filling).braced [.word .lineBreak] [.word .lineBreak] none)
    ⟨Word.definition.piece :: .space :: call.layout, [Word.definition.tree], call.tree⟩
  | argument function inside =>
    let strand := inside.strand filling
    (Inscription.call function (strand.layout ++ [closing .round]) [strand.argument]).strand
  | second function first inside =>
    let strand := inside.strand filling
    (Inscription.call function
      (first.piece :: comma :: .space :: (strand.layout ++ [closing .round]))
      [.valueArgument (Layout.text [first.piece]) none first.tree, strand.argument]).strand
  | group inside => ((inside.strand filling).bracketed .round).strand
  | run inside =>
    (Inscription.heading Word.run [] [] []
      ((inside.strand filling).braced [.space] [.space] none)).strand
  | index name inside =>
    let group := (inside.strand filling).bracketed .square
    (Inscription.mk (name.piece :: group.layout)
      (.sequence (Layout.text (name.piece :: group.layout)) [name.tree, group.tree])).strand
  | callback function parameter inside =>
    let lambda := (inside.strand filling).braced (arrowLayout parameter) [.space]
      (some parameter.text)
    (Inscription.call function (lambda.layout ++ [closing .round]) [lambda.argument]).strand

theorem chars_strand {filling : Strand} {text : String} (h : filling.layout.chars = text.toList)
    (context : Context) : (context.strand filling).layout.chars = (context.print text).toList := by
  induction context with
  | hole => exact h
  | _ =>
    simp_all [strand, print, Inscription.strand, Inscription.call, Inscription.heading,
      Strand.bracketed, Strand.braced, arrowLayout, chars_braces, Word.value, Word.definition,
      Word.run, Bracket.opening, Bracket.closing]

theorem scanned_bracketed (bracket : Bracket) {strand : Strand}
    (h : ∀ after, Scanned after strand.layout) (after : List Char) :
    Scanned after (strand.bracketed bracket).layout := by
  have ho : Scanned (Layout.chars (strand.layout ++ [closing bracket]) ++ after)
      [opening bracket] := (Neat.nil.opening bracket).scanned
  have hc : Scanned after [closing bracket] := (Neat.nil.closing bracket).scanned
  exact scanned_append.2 ⟨ho, scanned_append.2 ⟨h _, hc⟩⟩

theorem scanned_braced {lead trail : Layout} (hl : ∀ after, Scanned after lead)
    (ht : ∀ after, Scanned after trail) (parameters : Option String) {strand : Strand}
    (h : ∀ after, Scanned after strand.layout) (after : List Char) :
    Scanned after (strand.braced lead trail parameters).layout := by
  have hinside : ∀ after, Scanned after (lead ++ (strand.layout ++ trail)) :=
    fun _ => scanned_append.2 ⟨hl _, scanned_append.2 ⟨h _, ht _⟩⟩
  exact @scanned_bracketed .curly ⟨_, [], strand.main⟩ hinside after

theorem scanned_word (word : Identifier) (after : List Char) :
    Scanned after [word.piece, .space] :=
  (word.neat (.cons (by decide)) Neat.nil.space).scanned

theorem scanned_heading (callee : Identifier) {body : Inscription}
    (h : ∀ after, Scanned after body.layout) (after : List Char) :
    Scanned after (Inscription.heading callee [] [] [] body).layout :=
  scanned_append.2 ⟨scanned_word callee _, h after⟩

theorem scanned_call (callee : Identifier) {inside : Layout}
    (h : ∀ after, Scanned after inside) (after : List Char) :
    Scanned after (callee.piece :: opening .round :: (inside ++ [closing .round])) := by
  have hc : Neat (Layout.chars (inside ++ [closing .round]) ++ after)
      [callee.piece, opening .round] := callee.neat (.cons (by decide)) (Neat.nil.opening .round)
  have hclose : Scanned after [closing .round] := (Neat.nil.closing .round).scanned
  exact scanned_append.2 ⟨hc.scanned, scanned_append.2 ⟨h _, hclose⟩⟩

theorem scanned_arrowLayout (parameter : Identifier) (after : List Char) :
    Scanned after (arrowLayout parameter) := by
  have hp : Scanned (Layout.chars [sign "->", .space] ++ after)
      [.space, parameter.piece, .space] :=
    (parameter.neat (.cons (by decide)) Neat.nil.space).space.scanned
  have ha : Scanned after [sign "->", .space] := ⟨⟨Lexeme.recognized_arrow _, trivial⟩, by decide⟩
  exact scanned_append.2 ⟨hp, ha⟩

/-- The strand is a sequence of lexemes in front of any text, if the one in the hole is. -/
theorem scanned_strand {filling : Strand} (h : ∀ after, Scanned after filling.layout)
    (context : Context) (after : List Char) : Scanned after (context.strand filling).layout := by
  have hspace (after : List Char) : Scanned after [.space] := Neat.nil.space.scanned
  have hline (after : List Char) : Scanned after [.word .lineBreak] := Neat.nil.lineBreak.scanned
  induction context generalizing after with
  | hole => exact h after
  | value name inside ih =>
    have hsign : Neat ((inside.strand filling).layout.chars ++ after) [sign "=", .space] :=
      .spaced (c := '=') (by decide) (by decide) .nil
    have hname := (name.neat (.cons (by decide)) hsign.space).space
    have hw := Word.value.neat (.cons (by decide)) hname
    exact scanned_append.2 ⟨hw.scanned, ih after⟩
  | body name inside ih =>
    have hcall := scanned_heading name (scanned_braced hline hline none ih) after
    exact scanned_append.2 ⟨scanned_word Word.definition _, hcall⟩
  | argument function inside ih => exact scanned_call function ih after
  | second function first inside ih =>
    have hfirst (after : List Char) : Scanned after [first.piece, comma, .space] :=
      (first.neat (.cons (by decide)) Neat.nil.comma).scanned
    exact scanned_call function (fun _ => scanned_append.2 ⟨hfirst _, ih _⟩) after
  | group inside ih => exact scanned_bracketed .round ih after
  | run inside ih => exact scanned_heading Word.run (scanned_braced hspace hspace none ih) after
  | index name inside ih =>
    have hgroup := scanned_bracketed .square ih after
    have hn : Neat (((inside.strand filling).bracketed .square).layout.chars ++ after)
        [name.piece] := by
      refine .cons ⟨Lexeme.recognized_identifier name fun c hc => ?_, trivial⟩ name.clean .nil
      cases hc
      decide
    exact scanned_append.2 ⟨hn.scanned, hgroup⟩
  | callback function parameter inside ih =>
    exact scanned_call function (scanned_braced (scanned_arrowLayout parameter) hspace _ ih) after

end Context

/-- An opening brace stands in front of the first arrow. -/
def Layout.Barred (layout : Layout) : Prop :=
  ∃ front back, layout.words = front ++ .opening .curly :: back ∧ .operator "->" ∉ front

namespace Layout.Barred

variable {f g : Layout}

theorem append (h : f.Barred) (g : Layout) : Layout.Barred (f ++ g) := by
  obtain ⟨front, back, hw, hn⟩ := h
  refine ⟨front, back ++ words g, ?_, hn⟩
  rw [words_append, hw, List.append_assoc, List.cons_append]

theorem behind (h : g.Barred) (hf : .operator "->" ∉ f.words) : Layout.Barred (f ++ g) := by
  obtain ⟨front, back, hw, hn⟩ := h
  refine ⟨words f ++ front, back, ?_, ?_⟩
  · rw [words_append, hw, List.append_assoc]
  · rw [List.mem_append, not_or]
    exact ⟨hf, hn⟩

theorem braces (f : Layout) : f.braces.Barred := ⟨[], _, rfl, List.not_mem_nil⟩

theorem noParameters (h : f.Barred) : f.NoParameters := by
  obtain ⟨front, back, hw, hn⟩ := h
  rw [NoParameters, hw, List.dropWhile_append]
  split
  · exact fun he => by cases he
  · next hne =>
    intro he
    rw [List.head?_append_of_ne_nil _ (by simpa using hne)] at he
    exact hn ((List.dropWhile_sublist _).subset (List.mem_of_head? he))

end Layout.Barred

def Layout.Heads (layout : Layout) : Prop :=
  ∃ first rest, layout = .word first :: rest ∧
    ((∃ name, first = .identifier name) ∨ first = .opening .round) ∧
      (Layout.words rest).head? ≠ some (.operator "=")

namespace Context

variable {filling : Strand}

theorem barred_strand (h : filling.layout.Barred) (context : Context) :
    (context.strand filling).layout.Barred := by
  induction context with
  | hole => exact h
  | value name inside ih =>
    exact ih.behind (f := [Word.value.piece, .space, name.piece, .space, sign "=", .space])
      (by simp [words, Identifier.piece, sign])
  | body name inside ih =>
    exact (Barred.braces _).behind (f := [Word.definition.piece, .space, name.piece, .space])
      (by simp [words, Identifier.piece])
  | argument function inside ih =>
    exact (ih.append _).behind (f := [function.piece, opening .round])
      (by simp [words, Identifier.piece, opening])
  | second function first inside ih =>
    exact (ih.append _).behind
      (f := [function.piece, opening .round, first.piece, comma, .space])
      (by simp [words, Identifier.piece, opening, comma])
  | group inside ih => exact (ih.append _).behind (f := [opening .round]) (by simp [words, opening])
  | run inside ih =>
    exact (Barred.braces _).behind (f := [Word.run.piece, .space])
      (by simp [words, Identifier.piece])
  | index name inside ih =>
    exact (ih.append _).behind (f := [name.piece, opening .square])
      (by simp [words, Identifier.piece, opening])
  | callback function parameter inside ih =>
    exact ((Barred.braces _).append _).behind (f := [function.piece, opening .round])
      (by simp [words, Identifier.piece, opening])

theorem heads_strand (h : filling.layout.Heads) (context : Context) :
    (context.strand filling).layout.Heads := by
  induction context with
  | hole => exact h
  | group inside ih =>
    obtain ⟨first, rest, hl, hf, _⟩ := ih
    refine ⟨.opening .round, (inside.strand filling).layout ++ [closing .round], rfl, .inr rfl, ?_⟩
    rw [hl]
    rcases hf with ⟨name, rfl⟩ | rfl <;> simp [words]
  | _ =>
    refine ⟨_, _, rfl, .inl ⟨_, rfl⟩, ?_⟩
    exact fun h => by cases h

end Context

end StateDiagram
