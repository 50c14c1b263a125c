import StateDiagram.Proofs.Gap
import StateDiagram.Proofs.Offset
import StateDiagram.Proofs.Spelling

namespace StateDiagram

set_option autoImplicit true

open Recognizer Text

inductive Piece where
  | space
  | word (lexeme : Lexeme)

def Piece.chars : Piece → List Char
  | .space => [' ']
  | .word lexeme => lexeme.text.toList

abbrev Layout := List Piece

namespace Layout

def chars (layout : Layout) : List Char := layout.flatMap Piece.chars

def size (layout : Layout) : Nat := byteSize (chars layout)

def tokens (offset : Nat) : Layout → List Token
  | [] => []
  | .space :: layout => tokens (offset + 1) layout
  | .word lexeme :: layout =>
    ⟨lexeme, ⟨offset, offset + byteSize lexeme.text.toList⟩⟩ ::
      tokens (offset + byteSize lexeme.text.toList) layout

/-- Every lexeme is recognized in front of the layout behind it and the given text. -/
def Lexical (after : List Char) : Layout → Prop
  | [] => True
  | .space :: layout => Lexical after layout
  | .word lexeme :: layout => lexeme.Recognized (chars layout ++ after) ∧ Lexical after layout

@[simp] theorem chars_nil : chars [] = [] := rfl

@[simp] theorem chars_cons (piece : Piece) (layout : Layout) :
    chars (piece :: layout) = piece.chars ++ chars layout := rfl

@[simp] theorem chars_append (front back : Layout) :
    chars (front ++ back) = chars front ++ chars back := List.flatMap_append ..

@[simp] theorem size_nil : size [] = 0 := rfl

@[simp] theorem size_cons (piece : Piece) (layout : Layout) :
    size (piece :: layout) = byteSize piece.chars + size layout := byteSize_append ..

@[simp] theorem size_append (front back : Layout) :
    size (front ++ back) = size front + size back := by
  simp [size]

theorem tokens_append (offset : Nat) (front back : Layout) :
    tokens offset (front ++ back) = tokens offset front ++ tokens (offset + size front) back := by
  induction front generalizing offset with
  | nil => rfl
  | cons piece front ih =>
    rw [size_cons, ← Nat.add_assoc]
    cases piece with
    | space => exact ih (offset + 1)
    | word lexeme => exact congrArg _ (ih (offset + byteSize lexeme.text.toList))

theorem tokens_spaces (width start : Nat) (f : Layout) :
    tokens start (List.replicate width .space ++ f) = tokens (start + width) f := by
  induction width generalizing start with
  | zero => rfl
  | succ width ih =>
    rw [List.replicate_succ, List.cons_append, tokens, ih, Nat.add_right_comm, Nat.add_assoc]

theorem lexical_append {front back : Layout} :
    Lexical after (front ++ back) ↔ Lexical (chars back ++ after) front ∧ Lexical after back := by
  induction front with
  | nil => simp [Lexical]
  | cons piece front ih =>
    cases piece with
    | space => exact ih
    | word lexeme =>
      rw [List.cons_append, Lexical, Lexical, ih, chars_append, List.append_assoc, and_assoc]

end Layout

open Layout

theorem Trivia.takes_inlineWhitespace_cons (h : Takes Trivia.inlineWhitespace taken rest) :
    Takes Trivia.inlineWhitespace (' ' :: taken) rest := by
  obtain ⟨_, ht, hr⟩ := Trivia.takes_inlineWhitespace.1 h
  exact Trivia.takes_inlineWhitespace.2
    ⟨List.cons_ne_nil _ _, List.forall_mem_cons.2 ⟨by decide, ht⟩, hr⟩

theorem Trivia.takes_space (h : ∀ c ∈ rest.head?, Trivia.blanks.contains c = false) :
    Takes Trivia.piece [' '] rest :=
  Trivia.takes_piece.2 (.inl (Trivia.takes_inlineWhitespace.2
    ⟨by decide, List.forall_mem_singleton.2 (by decide), h⟩))

theorem Trivia.piece_of_blank (h : Trivia.blanks.contains c = true) :
    Trivia.piece (c :: rest) = some (repeatedLength (oneOf Trivia.blanks) rest + 1) := by
  have ho : oneOf Trivia.blanks (c :: rest) = some 1 := by rw [oneOf, one, if_pos h]
  have hw : Trivia.inlineWhitespace (c :: rest) =
      some (1 + repeatedLength (oneOf Trivia.blanks) rest) := by
    rw [Trivia.inlineWhitespace, repeatedOnce, andThen]
    rw [Trivia.blanks] at ho
    rw [ho]
    rfl
  rw [Trivia.piece, orElse, hw, Nat.add_comm]

theorem Trivia.takes_trivia_cons (h : Takes Trivia.trivia gap rest) :
    Takes Trivia.trivia (' ' :: gap) rest := by
  refine Trivia.takes_trivia.2 ?_
  cases Trivia.takes_trivia.1 h with
  | stop hs =>
    refine .step (List.cons_ne_nil ' ' []) (Trivia.takes_space fun c hc => ?_) (.stop hs)
    rw [Bool.eq_false_iff]
    intro hb
    cases rest with
    | nil => cases hc
    | cons d rest =>
      cases hc
      exact hs _ (Trivia.piece_of_blank hb)
  | @step first more _ hf ht hm =>
    rcases Trivia.takes_piece.1 ht with hw | hl | hb
    · exact .step (List.cons_ne_nil _ _)
        (Trivia.takes_piece.2 (.inl (Trivia.takes_inlineWhitespace_cons hw))) hm
    · obtain ⟨body, rfl, _⟩ := Trivia.takes_lineComment.1 hl
      refine .step (List.cons_ne_nil ' ' []) (Trivia.takes_space fun c hc => ?_) (.step hf ht hm)
      cases hc
      decide
    · obtain ⟨inside, rfl, _⟩ := Trivia.takes_blockComment.1 hb
      refine .step (List.cons_ne_nil ' ' []) (Trivia.takes_space fun c hc => ?_) (.step hf ht hm)
      cases hc
      decide

theorem Trivia.takes_trivia_nil (h : c ∉ Lexeme.gapCharacters) :
    Takes Trivia.trivia [] (c :: rest) := by
  refine Trivia.takes_trivia.2 (.stop fun n hn => ?_)
  have ht := Trivia.bounded_piece.takes hn
  rw [List.take_succ_cons] at ht
  rcases Trivia.takes_piece.1 ht with hw | hl | hb
  · obtain ⟨_, hb, _⟩ := Trivia.takes_inlineWhitespace.1 hw
    have hg : ∀ d ∈ Trivia.blanks, d ∈ Lexeme.gapCharacters :=
      List.all_iff_forall_prop.1 (by decide)
    exact h (hg c (List.contains_iff_mem.1 (hb c List.mem_cons_self)))
  · obtain ⟨body, he, _⟩ := Trivia.takes_lineComment.1 hl
    rw [(List.cons.inj he).1] at h
    exact h (by decide)
  · obtain ⟨inside, he, _⟩ := Trivia.takes_blockComment.1 hb
    rw [(List.cons.inj he).1] at h
    exact h (by decide)

theorem Token.scan_of_gap (h : Takes Trivia.trivia gap []) (offset : Nat) :
    Token.scan offset (gap ++ []) = [] := by
  rw [Takes] at h
  rw [Token.scan]
  dsimp only
  rw [h]
  split
  · rfl
  · next hd => simp at hd

theorem Token.scan_of_gap_cons (h : Takes Trivia.trivia gap (c :: rest)) (offset : Nat) :
    Token.scan offset (gap ++ c :: rest) =
      ⟨(Lexeme.ofFront c rest).1, ⟨offset + byteSize gap, offset + byteSize gap +
        byteSize ((c :: rest).take (Lexeme.ofFront c rest).2)⟩⟩ ::
      Token.scan (offset + byteSize gap + byteSize ((c :: rest).take (Lexeme.ofFront c rest).2))
        ((c :: rest).drop (Lexeme.ofFront c rest).2) := by
  rw [Takes] at h
  rw [Token.scan]
  dsimp only
  rw [h, Option.getD_some, List.take_left]
  split
  · next hd => simp at hd
  · next hd =>
    rw [List.drop_left] at hd
    cases hd
    rfl

theorem Token.scan_space (offset : Nat) (cs : List Char) :
    Token.scan offset (' ' :: cs) = Token.scan (offset + 1) cs := by
  have h := Trivia.takes_trivia_getD cs
  rw [← List.take_append_drop ((Trivia.trivia cs).getD 0) cs]
  generalize cs.take ((Trivia.trivia cs).getD 0) = gap at *
  generalize cs.drop ((Trivia.trivia cs).getD 0) = rest at *
  rw [← List.cons_append]
  cases rest with
  | nil => rw [Token.scan_of_gap h, Token.scan_of_gap (Trivia.takes_trivia_cons h)]
  | cons c rest =>
    rw [Token.scan_of_gap_cons h, Token.scan_of_gap_cons (Trivia.takes_trivia_cons h),
      byteSize_cons, ← Nat.add_assoc]
    rfl

theorem Token.scan_recognized {lexeme : Lexeme} (h : lexeme.Recognized rest) (offset : Nat) :
    Token.scan offset (lexeme.text.toList ++ rest) =
      ⟨lexeme, ⟨offset, offset + byteSize lexeme.text.toList⟩⟩ ::
        Token.scan (offset + byteSize lexeme.text.toList) rest := by
  obtain ⟨c, cs, ht, hg, hf⟩ := h
  have hn : Takes Trivia.trivia [] (c :: (cs ++ rest)) := Trivia.takes_trivia_nil hg
  have hs := Token.scan_of_gap_cons hn offset
  rw [hf, ← List.cons_append, List.take_left, List.drop_left, ← ht] at hs
  exact hs

theorem Token.scan_layout_append {layout : Layout} (h : Lexical after layout) (offset : Nat) :
    Token.scan offset (chars layout ++ after) =
      Layout.tokens offset layout ++ Token.scan (offset + layout.size) after := by
  induction layout generalizing offset with
  | nil => rfl
  | cons piece layout ih =>
    rw [chars_cons, size_cons, ← Nat.add_assoc, List.append_assoc]
    cases piece with
    | space => exact (Token.scan_space ..).trans (ih h _)
    | word lexeme =>
      rw [Piece.chars, scan_recognized h.1, ih h.2]
      rfl

/-- The tokens of a layout are its lexemes. -/
theorem Token.scan_layout {layout : Layout} (h : Lexical [] layout) (offset : Nat) :
    Token.scan offset (chars layout) = Layout.tokens offset layout := by
  have hn : Token.scan (offset + layout.size) [] = [] :=
    Token.scan_of_gap (Trivia.takes_trivia.2 (.stop nofun)) _
  have ht := Token.scan_layout_append h offset
  rwa [hn, List.append_nil, List.append_nil] at ht

end StateDiagram
