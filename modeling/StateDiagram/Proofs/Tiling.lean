import StateDiagram.Proofs.Gap
import StateDiagram.Proofs.Lexeme
import StateDiagram.Proofs.Offset

namespace StateDiagram

open Text

variable {offset size : Nat} {cs front before after : List Char} {tokens : List Token}
  {token : Token}

/-- The text from `offset` on is a gap, a token, a gap, and so on up to a last gap. -/
inductive Tiling : Nat → List Char → List Token → Prop where
  | gap {offset : Nat} {gap : List Char}
      (hg : Recognizer.Takes Trivia.trivia gap []) : Tiling offset gap []
  | token {offset : Nat} {gap text rest : List Char} {lexeme : Lexeme} {tokens : List Token}
      (hg : Recognizer.Takes Trivia.trivia gap (text ++ rest)) (hne : text ≠ [])
      (ht : lexeme.text.toList = text)
      (hl : lexeme = .lineBreak ∨ Lexeme.rawQuotes <+: text ∨ Lexeme.LineFeedsEscaped text)
      (hm : Tiling (offset + byteSize gap + byteSize text) rest tokens) :
      Tiling offset (gap ++ (text ++ rest))
        (⟨lexeme, ⟨offset + byteSize gap, offset + byteSize gap + byteSize text⟩⟩ :: tokens)

theorem tiling_scan (offset : Nat) (cs : List Char) : Tiling offset cs (Token.scan offset cs) := by
  fun_induction Token.scan offset cs with
  | case1 offset cs gap h =>
    have hg := Trivia.takes_trivia_getD cs
    have he : cs.take gap = cs := List.take_of_length_le (List.drop_eq_nil_iff.1 h)
    rw [h, he] at hg
    exact .gap hg
  | case2 offset cs gap c rest h lexeme start stop ih =>
    obtain ⟨text, more, he, hne, hn, ht, hl⟩ := Lexeme.exists_text_ofFront c rest
    have hg := Trivia.takes_trivia_getD cs
    have hcs : cs = cs.take gap ++ (text ++ more) := by
      rw [← he, ← h, List.take_append_drop]
    rw [h, he] at hg
    simp only [start, stop, lexeme, he, hn, List.take_left, List.drop_left] at ih ⊢
    generalize cs.take gap = front at *
    subst hcs
    exact .token hg hne ht hl ih

theorem Tiling.start_le (h : Tiling offset cs tokens) :
    ∀ token ∈ tokens, offset ≤ token.span.start := by
  induction h with
  | gap => simp
  | token _ _ _ _ _ ih =>
    intro token hm
    rcases List.mem_cons.1 hm with rfl | hm
    · exact Nat.le_add_right ..
    · have hle := ih token hm
      omega

theorem Tiling.pairwise (h : Tiling offset cs tokens) :
    tokens.Pairwise fun a b => a.span.stop ≤ b.span.start := by
  induction h with
  | gap => exact .nil
  | token _ _ _ _ hm ih => exact .cons hm.start_le ih

/-- Every token stands in the source with its whole text. -/
theorem Tiling.standsAt (h : Tiling offset cs tokens) (front : List Char)
    (hf : byteSize front = offset) :
    ∀ token ∈ tokens, token.lexeme.text.toList ≠ [] ∧
      StandsAt (front ++ cs) token.span.start token.lexeme.text.toList ∧
      token.span.stop = token.span.start + byteSize token.lexeme.text.toList := by
  induction h generalizing front with
  | gap => simp
  | @token offset gap text rest lexeme tokens _ hne ht _ _ ih =>
    intro token hm
    rcases List.mem_cons.1 hm with rfl | hm
    · refine ⟨by rwa [ht], ⟨front ++ gap, rest, ?_, ?_⟩, by rw [ht]⟩
      · rw [ht, List.append_assoc]
      · rw [byteSize_append, hf]
    · have hi := ih (front ++ (gap ++ text)) (by simp [hf, Nat.add_assoc]) token hm
      simpa only [List.append_assoc] using hi

def Token.gaps (start size : Nat) : List Token → List Span
  | [] => [⟨start, size⟩]
  | token :: tokens => ⟨start, token.span.start⟩ :: Token.gaps token.span.stop size tokens

theorem Tiling.gaps (h : Tiling offset cs tokens) (front : List Char)
    (hf : byteSize front = offset) (hs : size = byteSize (front ++ cs)) :
    ∀ span ∈ Token.gaps offset size tokens, ∃ gap, StandsAt (front ++ cs) span.start gap ∧
      span.stop = span.start + byteSize gap ∧ Trivia.matchesFully Trivia.trivia gap = true := by
  induction h generalizing front with
  | @gap offset gap hg =>
    intro span hm
    obtain rfl := List.mem_singleton.1 hm
    refine ⟨gap, ⟨front, [], by rw [List.append_nil], hf⟩, ?_, Trivia.matchesFully_of_takes hg⟩
    rw [hs, byteSize_append, hf]
  | @token offset gap text rest lexeme tokens hg _ _ _ _ ih =>
    intro span hm
    rcases List.mem_cons.1 hm with rfl | hm
    · exact ⟨gap, ⟨front, text ++ rest, rfl, hf⟩, rfl, Trivia.matchesFully_of_takes hg⟩
    · have hi := ih (front ++ (gap ++ text)) (by simp [hf, Nat.add_assoc])
        (by simp [hs]) span hm
      simpa only [List.append_assoc] using hi

/-- How the line feed between `before`, which starts at `offset`, and `after` is accounted for: by
a line break, by another token, where it is in a raw string or escaped, or by a block comment that
no token touches. -/
def AccountsForLineFeed (offset : Nat) (tokens : List Token) (before after : List Char) : Prop :=
  (∃ token ∈ tokens, token.lexeme = .lineBreak ∧
    token.span = ⟨offset + byteSize before, offset + byteSize before + 1⟩) ∨
  (∃ token ∈ tokens, token.lexeme ≠ .lineBreak ∧
    token.span.start ≤ offset + byteSize before ∧ offset + byteSize before < token.span.stop ∧
    (Lexeme.rawQuotes <+: token.lexeme.text.toList ∨ ∃ front, before = front ++ ['\x5c'])) ∨
  ∃ front inside inside' back, before = front ++ inside ∧ after = inside' ++ back ∧
    Trivia.matchesFully Trivia.blockComment (inside ++ '\n' :: inside') = true ∧
    ∀ token ∈ tokens, token.span.stop ≤ offset + byteSize front ∨
      offset + byteSize (before ++ '\n' :: inside') ≤ token.span.start

theorem AccountsForLineFeed.cons (h : AccountsForLineFeed token.span.stop tokens before after)
    (hstart : token.span.stop = offset + byteSize front) :
    AccountsForLineFeed offset (token :: tokens) (front ++ before) after := by
  simp only [AccountsForLineFeed, byteSize_append, ← Nat.add_assoc, ← hstart]
  rcases h with ⟨found, hm, h⟩ | ⟨found, hm, hl, hs, hs', he⟩ |
    ⟨ahead, inside, inside', back, rfl, ha, hc, h⟩
  · exact .inl ⟨found, List.mem_cons_of_mem _ hm, h⟩
  · refine .inr (.inl ⟨found, List.mem_cons_of_mem _ hm, hl, hs, hs', he.imp_right ?_⟩)
    rintro ⟨ahead, rfl⟩
    exact ⟨front ++ ahead, (List.append_assoc ..).symm⟩
  · refine .inr (.inr ⟨front ++ ahead, inside, inside', back, (List.append_assoc ..).symm, ha, hc,
      fun found hm => ?_⟩)
    rw [byteSize_append, ← Nat.add_assoc, ← hstart]
    rcases List.mem_cons.1 hm with rfl | hm
    · exact .inl (Nat.le_add_right ..)
    · simpa only [byteSize_append, ← Nat.add_assoc] using h found hm

theorem Tiling.accountsForLineFeed (h : Tiling offset cs tokens)
    (he : cs = before ++ '\n' :: after) : AccountsForLineFeed offset tokens before after := by
  induction h generalizing before with
  | gap hg =>
    rw [he] at hg
    obtain ⟨front, inside, inside', back, rfl, ha, hc⟩ := Trivia.exists_comment_of_lineFeed hg
    exact .inr (.inr ⟨front, inside, inside', back, rfl, ha, hc, by simp⟩)
  | @token offset gap text rest lexeme tokens hg hne ht hl hm ih =>
    rcases Recognizer.append_eq_append_cons he with ⟨left, rfl, rfl⟩ | ⟨left, rfl, he'⟩
    · obtain ⟨front, inside, inside', back, rfl, rfl, hc⟩ := Trivia.exists_comment_of_lineFeed hg
      refine .inr (.inr ⟨front, inside, inside', back ++ (text ++ rest), rfl, by simp, hc,
        fun found hfound => .inr ?_⟩)
      have hle : offset + byteSize (front ++ inside ++ '\n' :: (inside' ++ back)) ≤
          found.span.start := by
        rcases List.mem_cons.1 hfound with rfl | hfound
        · exact Nat.le_refl _
        · exact Nat.le_trans (Nat.le_add_right ..) (hm.start_le found hfound)
      simp only [byteSize_append, byteSize_cons] at hle ⊢
      omega
    · rcases Recognizer.append_eq_append_cons he' with ⟨left', htext, rfl⟩ | ⟨left', rfl, hrest⟩
      · by_cases hbreak : lexeme = .lineBreak
        · subst hbreak
          have hone : ['\n'] = left ++ '\n' :: left' := ht.trans htext
          cases left with
          | nil =>
            obtain rfl := (List.cons.inj hone).2
            refine .inl ⟨_, List.mem_cons_self, rfl, ?_⟩
            rw [htext, List.append_nil]
            rfl
          | cons c left => simp at hone
        · have hpos := ('\n').utf8Size_pos
          refine .inr (.inl ⟨_, List.mem_cons_self, hbreak, ?_, ?_, ?_⟩)
          · rw [byteSize_append, ← Nat.add_assoc]
            exact Nat.le_add_right ..
          · simp only [htext, byteSize_append, byteSize_cons]
            omega
          · rw [ht]
            rcases hl with hl | hl | hl
            · exact (hbreak hl).elim
            · exact .inl hl
            · obtain ⟨front, rfl⟩ := hl left left' htext
              exact .inr ⟨gap ++ front, (List.append_assoc ..).symm⟩
      · rw [← List.append_assoc]
        exact (ih hrest).cons (by rw [byteSize_append, Nat.add_assoc])

/-- Tokenizing is a lossless tiling. Tokens stand in the source with their whole text, in order
and on character boundaries; what is between them is trivia; and every line feed is a line break
unless a token or a block comment holds it. -/
theorem tokenize_tiles (source : String) :
    (∀ token ∈ Token.tokenize source, token.span.start < token.span.stop ∧
      IsBoundary source.toList token.span.start ∧ IsBoundary source.toList token.span.stop ∧
      slice token.span.start token.span.stop source.toList = token.lexeme.text.toList) ∧
    (Token.tokenize source).Pairwise (fun a b => a.span.stop ≤ b.span.start) ∧
    (∀ gap ∈ Token.gaps 0 (byteSize source.toList) (Token.tokenize source),
      gap.start ≤ gap.stop ∧
      Trivia.matchesFully Trivia.trivia (slice gap.start gap.stop source.toList) = true) ∧
    ∀ before after, source.toList = before ++ '\n' :: after →
      AccountsForLineFeed 0 (Token.tokenize source) before after := by
  have h := tiling_scan 0 source.toList
  refine ⟨fun token hm => ?_, h.pairwise, fun gap hm => ?_, fun before after he =>
    h.accountsForLineFeed he⟩
  · obtain ⟨hne, hs, he⟩ := h.standsAt [] rfl token hm
    have hpos := byteSize_pos hne
    refine ⟨by omega, hs.isBoundary_start, ?_, ?_⟩
    · rw [he]
      exact hs.isBoundary_stop
    · rw [he]
      exact hs.slice_eq
  · obtain ⟨text, hs, he, ht⟩ := h.gaps [] rfl rfl gap hm
    refine ⟨by omega, ?_⟩
    rw [he, ← ht]
    exact congrArg _ hs.slice_eq

theorem tokenize_tiles_comment :
    "a /*\n*/ 'b'".toList = ['a', ' ', '/', '*'] ++ '\n' :: ['*', '/', ' ', '\x27', 'b', '\x27'] ∧
    AccountsForLineFeed 0 (Token.tokenize "a /*\n*/ 'b'") ['a', ' ', '/', '*']
      ['*', '/', ' ', '\x27', 'b', '\x27'] :=
  ⟨by decide, (tokenize_tiles _).2.2.2 _ _ (by decide)⟩

end StateDiagram
