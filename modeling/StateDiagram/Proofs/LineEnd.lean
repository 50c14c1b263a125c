import StateDiagram.Proofs.Quotation

namespace StateDiagram

open Recognizer Text

variable {cs taken rest gap : List Char}

theorem Trivia.getLast?_ne_lineFeed (h : Takes trivia gap rest) : gap.getLast? ≠ some '\n' := by
  intro hl
  obtain ⟨before, rfl⟩ := List.getLast?_eq_some_iff.1 hl
  obtain ⟨front, inside, inside', back, _, ha, hc⟩ := exists_comment_of_lineFeed h
  obtain ⟨rfl, rfl⟩ := List.append_eq_nil_iff.1 ha.symm
  have ht : Takes blockComment (inside ++ ['\n']) [] := by
    rw [Takes, List.append_nil]
    exact beq_iff_eq.1 hc
  obtain ⟨body, he, hu⟩ := takes_blockComment.1 ht
  obtain ⟨text, rfl⟩ := hu.exists_body (List.cons_ne_nil _ _)
  have he : inside ++ ['\n'] = '/' :: '*' :: (text ++ ['*']) ++ ['/'] := by
    rw [he, List.cons_append, List.cons_append, List.append_assoc]
    rfl
  exact absurd (List.append_inj' he rfl).2 (by decide)

namespace Lexeme

theorem getLast?_characterLiteral (h : Takes characterLiteral taken rest) :
    taken.getLast? = some '\x27' := by
  obtain ⟨front, _, rfl, _, hb⟩ := takes_andThen.1 h
  obtain ⟨body, _, rfl, _, hq⟩ := takes_andThen.1 hb
  obtain rfl := takes_literal.1 hq
  rw [← List.append_assoc, List.getLast?_concat]

theorem eq_lineBreak_of_rule {rule : Rule} (hr : rule ∈ rules)
    (ht : Takes rule.recognizer taken rest) (hl : taken.getLast? = some '\n') :
    rule.lexeme taken = .lineBreak := by
  have hmem : '\n' ∈ taken := List.mem_of_getLast? hl
  simp only [rules, List.mem_cons, List.not_mem_nil, or_false] at hr
  rcases hr with rfl | rfl | rfl | rfl | rfl | rfl | hr
  · rfl
  · obtain ⟨inside, rfl⟩ := quoted_stringLiteral ht
    rw [← List.cons_append, List.getLast?_concat] at hl
    cases hl
  · rw [getLast?_characterLiteral ht] at hl
    cases hl
  · exact (avoids_numberLiteral _ _ ht hmem).elim
  · exact (avoids_name _ _ ht hmem).elim
  · exact (avoids_operatorSymbol _ _ ht hmem).elim
  · rcases hr with rfl | rfl | rfl | rfl | rfl | rfl
    all_goals
      rw [takes_literal.1 ht] at hmem
      simp at hmem

theorem eq_lineBreak_of_ofFront {c : Char} {text more : List Char} (he : c :: cs = text ++ more)
    (hn : (ofFront c cs).2 = text.length) (hl : text.getLast? = some '\n') :
    (ofFront c cs).1 = .lineBreak := by
  rw [ofFront] at hn ⊢
  cases hm : firstMatch (c :: cs) rules with
  | none =>
    rw [hm] at hn
    obtain ⟨d, rfl⟩ := List.length_eq_one_iff.1 hn.symm
    obtain ⟨rfl, -⟩ := List.cons.inj he
    cases hl
    cases hm
  | some found =>
    obtain ⟨lexeme, n⟩ := found
    rw [hm] at hn
    obtain ⟨rule, hr, ht, rfl⟩ := exists_rule_of_firstMatch hm
    have hn : n = text.length := hn
    have htake : (c :: cs).take n = text := by rw [he, hn, List.take_left]
    have htaken := (rules_faithful rule hr).bounded.takes ht
    rw [htake] at htaken
    rw [htake]
    exact eq_lineBreak_of_rule hr htaken hl

end Lexeme

theorem Token.scan_nil (offset : Nat) : Token.scan offset [] = [] := by
  rw [Token.scan]
  split
  · rfl
  · next h => simp at h

/-- The last token of a text that ends with a line feed. -/
theorem Token.getLast?_scan (offset : Nat) (h : cs.getLast? = some '\n') :
    ∃ token ∈ (Token.scan offset cs).getLast?,
      token.lexeme = .lineBreak ∧ token.span.stop = offset + byteSize cs := by
  fun_induction Token.scan offset cs with
  | case1 offset cs gap hd =>
    have hg := Trivia.takes_trivia_getD cs
    have he : cs.take gap = cs := List.take_of_length_le (List.drop_eq_nil_iff.1 hd)
    rw [he] at hg
    exact (Trivia.getLast?_ne_lineFeed hg h).elim
  | case2 offset cs gap c rest hd lexeme start stop ih =>
    obtain ⟨text, more, he, hne, hn, _⟩ := Lexeme.exists_text_ofFront c rest
    have hcs : cs = cs.take gap ++ (text ++ more) := by rw [← he, ← hd, List.take_append_drop]
    simp only [start, stop, lexeme, he, hn, List.take_left, List.drop_left] at ih ⊢
    generalize cs.take gap = front at *
    rw [hcs, ← List.append_assoc, List.getLast?_append] at h
    cases more with
    | nil =>
      rw [List.append_nil] at hcs
      rw [List.getLast?_nil, Option.none_or, List.getLast?_append_of_ne_nil _ hne] at h
      rw [Token.scan_nil, hcs, byteSize_append, ← Nat.add_assoc]
      exact ⟨_, rfl, Lexeme.eq_lineBreak_of_ofFront he hn h, rfl⟩
    | cons d more =>
      rw [List.getLast?_cons, Option.some_or, ← List.getLast?_cons] at h
      obtain ⟨token, hm, ht, hstop⟩ := ih h
      rw [List.getLast?_cons, Option.mem_def.1 hm, hcs, byteSize_append, byteSize_append]
      exact ⟨token, rfl, ht, by omega⟩

end StateDiagram
