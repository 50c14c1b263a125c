import StateDiagram.Proofs.Composition

namespace StateDiagram

set_option autoImplicit true

open Text

variable {f g : Layout} {after : List Char}

/-- Characters that end what is written in letters, digits or quotes. -/
def delimiters : List Char := [' ', '\n', '(', ')', '\x7b', '\x7d', ',', ':', '<', '>']

def Delimits (cs : List Char) : Prop := ∀ c ∈ cs.head?, c ∈ delimiters

theorem Delimits.cons {c : Char} {cs : List Char} (h : c ∈ delimiters) : Delimits (c :: cs) := by
  intro d hd
  cases hd
  exact h

/-- A piece that neither ends a line in CR nor ends the parameters of a lambda. -/
structure Piece.Clean (piece : Piece) : Prop where
  cr : '\r' ∉ piece.chars
  arrow : piece ≠ .word (.operator "->")

namespace Layout

@[simp] theorem opening_chars (bracket : Bracket) : (opening bracket).chars = [bracket.opening] :=
  String.toList_singleton ..

@[simp] theorem closing_chars (bracket : Bracket) : (closing bracket).chars = [bracket.closing] :=
  String.toList_singleton ..

@[simp] theorem space_chars : Piece.space.chars = [' '] := rfl

@[simp] theorem lineBreak_chars : (Piece.word .lineBreak).chars = ['\n'] := rfl

@[simp] theorem sign_chars (text : String) : (sign text).chars = text.toList := rfl

@[simp] theorem comma_chars : comma.chars = [','] := rfl

@[simp] theorem dot_chars : dot.chars = ['.'] := rfl

@[simp] theorem less_chars : less.chars = ['<'] := rfl

@[simp] theorem greater_chars : greater.chars = ['>'] := rfl

/-- In front of the given text, the layout is a sequence of lexemes without CR and arrows. -/
structure Neat (after : List Char) (layout : Layout) : Prop where
  lexical : Lexical after layout
  clean : ∀ piece ∈ layout, piece.Clean

theorem Neat.nil : Neat after [] := ⟨trivial, List.forall_mem_nil _⟩

theorem neat_append : Neat after (f ++ g) ↔ Neat (g.chars ++ after) f ∧ Neat after g := by
  constructor
  · rintro ⟨hl, hc⟩
    obtain ⟨hf, hg⟩ := lexical_append.1 hl
    obtain ⟨cf, cg⟩ := List.forall_mem_append.1 hc
    exact ⟨⟨hf, cf⟩, ⟨hg, cg⟩⟩
  · rintro ⟨⟨hf, cf⟩, ⟨hg, cg⟩⟩
    exact ⟨lexical_append.2 ⟨hf, hg⟩, List.forall_mem_append.2 ⟨cf, cg⟩⟩

theorem Neat.cons (hl : Lexical after (piece :: f)) (hc : piece.Clean) (hf : Neat after f) :
    Neat after (piece :: f) :=
  ⟨hl, List.forall_mem_cons.2 ⟨hc, hf.clean⟩⟩

theorem Neat.space (hf : Neat after f) : Neat after (.space :: f) :=
  .cons hf.lexical ⟨by decide, nofun⟩ hf

theorem Neat.lineBreak (hf : Neat after f) : Neat after (.word .lineBreak :: f) :=
  .cons ⟨Lexeme.recognized_lineBreak _, hf.lexical⟩ ⟨by decide, nofun⟩ hf

theorem Neat.opening (bracket : Bracket) (hf : Neat after f) :
    Neat after (Layout.opening bracket :: f) :=
  .cons ⟨Lexeme.recognized_opening .., hf.lexical⟩ ⟨by cases bracket <;> decide, nofun⟩ hf

theorem Neat.closing (bracket : Bracket) (hf : Neat after f) :
    Neat after (Layout.closing bracket :: f) :=
  .cons ⟨Lexeme.recognized_closing .., hf.lexical⟩ ⟨by cases bracket <;> decide, nofun⟩ hf

theorem Neat.cr (hf : Neat after f) : '\r' ∉ f.chars := by
  intro hm
  obtain ⟨piece, hp, hc⟩ := List.mem_flatMap.1 hm
  exact (hf.clean piece hp).cr hc

theorem Neat.arrow (hf : Neat after f) : .operator "->" ∉ f.words := by
  intro hm
  obtain ⟨piece, hp, he⟩ := List.mem_filterMap.1 hm
  cases piece with
  | space => cases he
  | word lexeme =>
    cases he
    exact (hf.clean _ hp).arrow rfl

/-- An operator of one character in front of what makes no longer operator of it. -/
theorem Neat.operator {c : Char} (hc : c ∈ Lexeme.operatorCharacters) (hg : c ≠ '/')
    (he : ∀ d ∈ (f.chars ++ after).head?, Lexeme.Separate c d) (hf : Neat after f) :
    Neat after (.word (.operator (String.singleton c)) :: f) := by
  refine .cons ⟨Lexeme.recognized_operator hc hg he, hf.lexical⟩ ⟨?_, ?_⟩ hf
  · rw [Piece.chars, Lexeme.text, String.toList_singleton, List.mem_singleton]
    rintro rfl
    exact absurd hc (by decide)
  · intro ha
    have ht : (String.singleton c).toList = "->".toList := by injections ha; simp_all
    rw [String.toList_singleton] at ht
    cases ht

theorem Neat.spaced {c : Char} (hc : c ∈ Lexeme.operatorCharacters) (hg : c ≠ '/')
    (hf : Neat after f) : Neat after (.word (.operator (String.singleton c)) :: .space :: f) := by
  refine Neat.operator hc hg (fun d hd => ?_) hf.space
  cases hd
  exact Lexeme.separate_of_not_mem (by decide) c

theorem Neat.comma (hf : Neat after f) : Neat after (Layout.comma :: .space :: f) :=
  Neat.spaced (c := ',') (by decide) (by decide) hf

theorem Neat.greater (hd : ∀ d ∈ (f.chars ++ after).head?, Lexeme.Separate '>' d)
    (hf : Neat after f) : Neat after (Layout.greater :: f) :=
  Neat.operator (c := '>') (by decide) (by decide) hd hf

/-- In front of the given text, the layout is a sequence of lexemes without CR. -/
structure Scanned (after : List Char) (layout : Layout) : Prop where
  lexical : Lexical after layout
  cr : '\r' ∉ layout.chars

theorem Neat.scanned (h : Neat after f) : Scanned after f := ⟨h.lexical, h.cr⟩

theorem scanned_append :
    Scanned after (f ++ g) ↔
      Scanned (g.chars ++ after) f ∧ Scanned after g := by
  constructor
  · rintro ⟨hl, hc⟩
    obtain ⟨hf, hg⟩ := lexical_append.1 hl
    rw [chars_append, List.mem_append, not_or] at hc
    exact ⟨⟨hf, hc.1⟩, ⟨hg, hc.2⟩⟩
  · rintro ⟨⟨hf, cf⟩, ⟨hg, cg⟩⟩
    refine ⟨lexical_append.2 ⟨hf, hg⟩, ?_⟩
    rw [chars_append, List.mem_append, not_or]
    exact ⟨cf, cg⟩

end Layout

open Layout

namespace Identifier

@[simp] theorem chars_piece (name : Identifier) : name.piece.chars = name.text.toList := rfl

theorem head_not_mem (name : Identifier) (cs : List Char) :
    ∀ d ∈ (name.text.toList ++ cs).head?, d ∉ Lexeme.operatorCharacters := by
  obtain ⟨c, cs', ht, hc, _⟩ := name.exists_cons
  intro d hd hm
  rw [ht] at hd
  cases hd
  have hn : ∀ d ∈ Lexeme.operatorCharacters, (isAlphabetic d || d == '_') = false :=
    List.all_iff_forall_prop.1 (by decide)
  rw [hn _ hm] at hc
  cases hc

theorem clean (name : Identifier) : name.piece.Clean := by
  obtain ⟨c, cs, ht, hc, hr⟩ := name.exists_cons
  refine ⟨fun hm => ?_, nofun⟩
  rw [chars_piece, ht] at hm
  rcases List.mem_cons.1 hm with rfl | hm
  · exact absurd hc (by decide)
  · exact absurd (hr _ hm) (by decide)

theorem neat (name : Identifier) (hd : Delimits (f.chars ++ after)) (hf : Neat after f) :
    Neat after (name.piece :: f) := by
  have hn : ∀ d ∈ delimiters, (isAlphanumeric d || d == '_') = false :=
    List.all_iff_forall_prop.1 (by decide)
  exact .cons ⟨Lexeme.recognized_identifier name fun c hc => hn c (hd c hc), hf.lexical⟩
    name.clean hf

theorem neat_operator (name : Identifier) {c : Char} (hc : c ∈ Lexeme.operatorCharacters)
    (hg : c ≠ '/') (hf : Neat after (name.piece :: f)) :
    Neat after (.word (.operator (String.singleton c)) :: name.piece :: f) := by
  refine Neat.operator hc hg ?_ hf
  rw [chars_cons, List.append_assoc]
  exact fun d hd => Lexeme.separate_of_not_mem (name.head_not_mem _ d hd) c

theorem neat_dot (name next : Identifier) (hf : Neat after (next.piece :: f)) :
    Neat after (name.piece :: dot :: next.piece :: f) := by
  have hn := next.neat_operator (c := '.') (by decide) (by decide) hf
  refine .cons ⟨Lexeme.recognized_identifier name fun c hc => ?_, hn.lexical⟩ name.clean hn
  cases hc
  decide

end Identifier

@[simp] theorem Numeral.chars_piece (numeral : Numeral) :
    numeral.piece.chars = numeral.text.toList := rfl

theorem Numeral.neat (numeral : Numeral) (hd : Delimits (f.chars ++ after)) (hf : Neat after f) :
    Neat after (numeral.piece :: f) := by
  have hn : ∀ d ∈ delimiters, Lexeme.isWordCharacter d = false ∧ d ≠ '.' :=
    List.all_iff_forall_prop.1 (by decide)
  refine .cons ⟨Lexeme.recognized_number numeral fun c hc => hn c (hd c hc), hf.lexical⟩
    ⟨fun hm => ?_, nofun⟩ hf
  exact absurd (List.all_eq_true.1 numeral.digits _ hm) (by decide)

@[simp] theorem PlainText.chars_piece (plain : PlainText) :
    plain.piece.chars = plain.quoted.toList :=
  rfl

theorem PlainText.neat (plain : PlainText) (hd : Delimits (f.chars ++ after)) (hf : Neat after f) :
    Neat after (plain.piece :: f) := by
  have hn : ∀ d ∈ delimiters, d ≠ '\x22' := List.all_iff_forall_prop.1 (by decide)
  refine .cons ⟨Lexeme.recognized_string plain fun c hc => hn c (hd c hc), hf.lexical⟩
    ⟨fun hm => ?_, nofun⟩ hf
  have ht : plain.quoted.toList = '\x22' :: (plain.text.toList ++ ['\x22']) := by
    simp [PlainText.quoted, String.toList_append]
  rw [chars_piece, ht] at hm
  simp only [List.mem_cons, List.mem_append, List.not_mem_nil, or_false] at hm
  rcases hm with hm | hm | hm
  · cases hm
  · exact plain.plain _ hm (by decide)
  · cases hm

theorem Chain.neat (chain : Chain) (hd : Delimits after) : Neat after chain.layout := by
  obtain ⟨first, rest⟩ := chain
  rw [Chain.layout_eq]
  induction rest generalizing first with
  | nil => exact first.neat hd .nil
  | cons next rest ih => exact first.neat_dot next (ih next)

theorem Chain.neat_operator (chain : Chain) {c : Char} (hc : c ∈ Lexeme.operatorCharacters)
    (hg : c ≠ '/') (hf : Neat after (chain.layout ++ f)) :
    Neat after (.word (.operator (String.singleton c)) :: (chain.layout ++ f)) := by
  rw [Chain.layout_eq, List.cons_append] at *
  exact chain.first.neat_operator hc hg hf

end StateDiagram
