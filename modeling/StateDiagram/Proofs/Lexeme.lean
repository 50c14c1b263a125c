import StateDiagram.Proofs.Recognizer
import StateDiagram.Token.Lexer

namespace StateDiagram.Lexeme

open Recognizer

variable {taken rest text more cs : List Char}

/-- Every line feed of the text stands behind a backslash. -/
def LineFeedsEscaped (text : List Char) : Prop :=
  ∀ before after, text = before ++ '\n' :: after → ∃ front, before = front ++ ['\x5c']

theorem lineFeedsEscaped_of_not_mem (h : '\n' ∉ text) : LineFeedsEscaped text := by
  intro before after he
  exact (h (by simp [he])).elim

theorem LineFeedsEscaped.append (h : LineFeedsEscaped text) (h' : LineFeedsEscaped more) :
    LineFeedsEscaped (text ++ more) := by
  intro before after he
  rcases append_eq_append_cons he with ⟨left, ht, _⟩ | ⟨left, rfl, hm⟩
  · exact h before left ht
  · obtain ⟨front, rfl⟩ := h' left after hm
    exact ⟨text ++ front, (List.append_assoc ..).symm⟩

theorem lineFeedsEscaped_escape (h : Takes escape taken rest) : LineFeedsEscaped taken := by
  obtain ⟨_, _, rfl, hf, hb⟩ := takes_andThen.1 h
  obtain rfl := takes_literal.1 hf
  obtain ⟨c, rfl, _⟩ := takes_one.1 hb
  intro before after he
  cases before with
  | nil => simp at he
  | cons d before =>
    cases before with
    | nil =>
      obtain ⟨rfl, _⟩ := List.cons.inj he
      exact ⟨[], rfl⟩
    | cons d before => simp at he

theorem lineFeedsEscaped_repeats {r : Recognizer} (hr : Avoids '\n' r)
    (h : Repeats (escape.orElse r) taken rest) : LineFeedsEscaped taken := by
  induction h with
  | stop => exact lineFeedsEscaped_of_not_mem List.not_mem_nil
  | step _ ht _ ih =>
    rcases takes_orElse.1 ht with ht | ⟨_, ht⟩
    · exact (lineFeedsEscaped_escape ht).append ih
    · exact (lineFeedsEscaped_of_not_mem (hr _ _ ht)).append ih

/-- What a token class has to guarantee for its tokens to be faithful to the source. -/
structure Rule.Faithful (rule : Rule) : Prop where
  bounded : Bounded rule.recognizer
  text_eq : ∀ {taken rest}, Takes rule.recognizer taken rest →
    (rule.lexeme taken).text.toList = taken
  lineFeed : ∀ {taken rest}, Takes rule.recognizer taken rest →
    rule.lexeme taken = .lineBreak ∨ rawQuotes <+: taken ∨ LineFeedsEscaped taken

theorem bounded_escape : Bounded escape := (Bounded.literal _).andThen (.one _)

theorem bounded_stringLiteral : Bounded stringLiteral :=
  ((Bounded.literal _).andThen (.upTo _)).orElse <| (Bounded.literal _).andThen <|
    (Bounded.repeated (bounded_escape.orElse
      (((Bounded.literal _).andThen ((Bounded.run _).andThen (.literal _))).orElse
        (.one _)))).andThen (.literal _)

theorem bounded_characterLiteral : Bounded characterLiteral :=
  (Bounded.literal _).andThen
    ((Bounded.repeatedOnce (bounded_escape.orElse (.one _))).andThen (.literal _))

theorem bounded_numberLiteral : Bounded numberLiteral :=
  (Bounded.one _).andThen ((Bounded.run _).andThen (.optional
    ((Bounded.literal _).andThen ((Bounded.one _).andThen (.run _)))))

theorem bounded_name : Bounded (quotedName.orElse plainName) :=
  ((Bounded.literal _).andThen ((Bounded.run _).andThen (.literal _))).orElse
    ((Bounded.one _).andThen (.run _))

theorem stringLiteral_lineFeed (h : Takes stringLiteral taken rest) :
    rawQuotes <+: taken ∨ LineFeedsEscaped taken := by
  rcases takes_orElse.1 h with h | ⟨_, h⟩
  · obtain ⟨_, back, rfl, hf, _⟩ := takes_andThen.1 h
    obtain rfl := takes_literal.1 hf
    exact .inl (List.prefix_append ..)
  · obtain ⟨_, back, rfl, hf, hb⟩ := takes_andThen.1 h
    obtain ⟨body, _, rfl, hr, hq⟩ := takes_andThen.1 hb
    obtain rfl := takes_literal.1 hf
    obtain rfl := takes_literal.1 hq
    have hbounded : Bounded (escape.orElse (template.orElse (noneOf ['\x5c', '\x22', '\n']))) :=
      bounded_escape.orElse
        (((Bounded.literal _).andThen ((Bounded.run _).andThen (.literal _))).orElse (.one _))
    have havoids : Avoids '\n' (template.orElse (noneOf ['\x5c', '\x22', '\n'])) :=
      ((Avoids.literal (by decide)).andThen ((Avoids.run (by decide)).andThen
        (.literal (by decide)))).orElse (.one (by decide))
    have hbody := lineFeedsEscaped_repeats havoids ((takes_repeated hbounded).1 hr)
    have hquote : LineFeedsEscaped ['\x22'] := lineFeedsEscaped_of_not_mem (by decide)
    exact .inr (hquote.append (hbody.append hquote))

theorem characterLiteral_lineFeed (h : Takes characterLiteral taken rest) :
    LineFeedsEscaped taken := by
  obtain ⟨_, _, rfl, hf, hb⟩ := takes_andThen.1 h
  obtain ⟨_, _, rfl, hr, hq⟩ := takes_andThen.1 hb
  obtain ⟨first, more, rfl, h₁, h₂⟩ := takes_andThen.1 hr
  obtain rfl := takes_literal.1 hf
  obtain rfl := takes_literal.1 hq
  have hbounded : Bounded (escape.orElse (noneOf ['\x5c', '\x27', '\n'])) :=
    bounded_escape.orElse (.one _)
  have havoids : Avoids '\n' (noneOf ['\x5c', '\x27', '\n']) := .one (by decide)
  have hfirst : LineFeedsEscaped first := by
    rcases takes_orElse.1 h₁ with h₁ | ⟨_, h₁⟩
    · exact lineFeedsEscaped_escape h₁
    · exact lineFeedsEscaped_of_not_mem (havoids _ _ h₁)
  have hmore := lineFeedsEscaped_repeats havoids ((takes_repeated hbounded).1 h₂)
  have hquote : LineFeedsEscaped ['\x27'] := lineFeedsEscaped_of_not_mem (by decide)
  exact hquote.append ((hfirst.append hmore).append hquote)

theorem avoids_numberLiteral : Avoids '\n' numberLiteral :=
  (Avoids.one (by decide)).andThen ((Avoids.run (by decide)).andThen (.optional
    ((Avoids.literal (by decide)).andThen ((Avoids.one (by decide)).andThen
      (.run (by decide))))))

theorem avoids_name : Avoids '\n' (quotedName.orElse plainName) :=
  ((Avoids.literal (by decide)).andThen ((Avoids.run (by decide)).andThen
    (.literal (by decide)))).orElse ((Avoids.one (by decide)).andThen (.run (by decide)))

theorem avoids_operatorSymbol : Avoids '\n' operatorSymbol :=
  (Avoids.firstLiteral (by decide)).orElse (.one (by decide))

theorem Rule.Faithful.ofText {r : Recognizer} {lexeme : String → Lexeme} (hb : Bounded r)
    (ht : ∀ text, (lexeme text).text = text)
    (hl : ∀ {taken rest}, Takes r taken rest → rawQuotes <+: taken ∨ LineFeedsEscaped taken) :
    Rule.Faithful ⟨r, fun text => lexeme (String.ofList text)⟩ where
  bounded := hb
  text_eq _ := by rw [ht, String.toList_ofList]
  lineFeed h := .inr (hl h)

theorem Rule.Faithful.ofLiteral {text : List Char} {lexeme : Lexeme}
    (ht : lexeme.text.toList = text) (hl : lexeme = .lineBreak ∨ '\n' ∉ text) :
    Rule.Faithful ⟨literal text, fun _ => lexeme⟩ where
  bounded := .literal _
  text_eq h := by rw [takes_literal.1 h]; exact ht
  lineFeed h := by
    rw [takes_literal.1 h]
    exact hl.imp_right fun hn => .inr (lineFeedsEscaped_of_not_mem hn)

theorem rules_faithful : ∀ rule ∈ rules, rule.Faithful := by
  simp only [rules, List.mem_cons, List.not_mem_nil, or_false, forall_eq_or_imp, forall_eq]
  have havoids {r : Recognizer} (hr : Avoids '\n' r) {taken rest : List Char}
      (h : Takes r taken rest) : rawQuotes <+: taken ∨ LineFeedsEscaped taken :=
    .inr (lineFeedsEscaped_of_not_mem (hr taken rest h))
  refine ⟨.ofLiteral rfl (.inl rfl), .ofText bounded_stringLiteral (fun _ => rfl)
    stringLiteral_lineFeed, .ofText bounded_characterLiteral (fun _ => rfl)
    fun h => .inr (characterLiteral_lineFeed h), .ofText bounded_numberLiteral (fun _ => rfl)
    (havoids avoids_numberLiteral), .ofText bounded_name (fun _ => rfl) (havoids avoids_name),
    .ofText ((Bounded.firstLiteral _).orElse (.one _)) (fun _ => rfl)
    (havoids avoids_operatorSymbol), ?_, ?_, ?_, ?_, ?_, ?_⟩
  all_goals exact .ofLiteral rfl (.inr (by decide))

theorem exists_rule_of_firstMatch {rules : List Rule} {lexeme : Lexeme} {n : Nat}
    (h : firstMatch cs rules = some (lexeme, n)) :
    ∃ rule ∈ rules, rule.recognizer cs = some n ∧ lexeme = rule.lexeme (cs.take n) := by
  induction rules with
  | nil => cases h
  | cons rule rules ih =>
    rw [firstMatch] at h
    split at h
    · next k hk =>
      cases h
      exact ⟨rule, by simp, hk, rfl⟩
    · obtain ⟨found, hm, hf⟩ := ih h
      exact ⟨found, by simp [hm], hf⟩

/-- What the rule that makes such lexemes recognizes. -/
def recognizer : Lexeme → Recognizer
  | .string _ => stringLiteral
  | .character _ => characterLiteral
  | .number _ => numberLiteral
  | .identifier _ => quotedName.orElse plainName
  | .operator _ => operatorSymbol
  | lexeme => literal lexeme.text.toList

theorem recognizer_of_rule : ∀ rule ∈ rules, ∀ taken, (rule.lexeme taken).recognizer =
    rule.recognizer := by
  simp only [rules, List.mem_cons, List.not_mem_nil, or_false, forall_eq_or_imp, forall_eq]
  and_intros <;> exact fun _ => rfl

theorem takes_ofFront (c : Char) (cs : List Char) :
    ∃ rest, Takes (ofFront c cs).1.recognizer (ofFront c cs).1.text.toList rest := by
  rw [ofFront]
  cases hm : firstMatch (c :: cs) rules with
  | none => exact ⟨cs, takes_literal.2 rfl⟩
  | some found =>
    obtain ⟨rule, hrule, hr, hl⟩ := exists_rule_of_firstMatch hm
    have hf := rules_faithful rule hrule
    have ht := hf.bounded.takes hr
    rw [Option.getD_some, hl, recognizer_of_rule rule hrule, hf.text_eq ht]
    exact ⟨_, ht⟩

/-- The first lexeme of a text, the text it takes, and where line feeds may be in it. -/
theorem exists_text_ofFront (c : Char) (cs : List Char) :
    ∃ text rest, c :: cs = text ++ rest ∧ text ≠ [] ∧ (ofFront c cs).2 = text.length ∧
      (ofFront c cs).1.text.toList = text ∧
      ((ofFront c cs).1 = .lineBreak ∨ rawQuotes <+: text ∨ LineFeedsEscaped text) := by
  cases h : firstMatch (c :: cs) rules with
  | none =>
    refine ⟨[c], cs, rfl, by simp, by simp [ofFront, h], ?_, .inr (.inr ?_)⟩
    · simp [ofFront, h, Lexeme.text]
    · refine lineFeedsEscaped_of_not_mem fun hm => ?_
      rw [← List.mem_singleton.1 hm] at h
      cases h
  | some found =>
    obtain ⟨lexeme, n⟩ := found
    obtain ⟨rule, hm, hr, rfl⟩ := exists_rule_of_firstMatch h
    have hf := rules_faithful rule hm
    have ht := hf.bounded.takes hr
    have hn := rules_positive rule hm _ _ hr
    have hle := hf.bounded _ _ hr
    refine ⟨(c :: cs).take n, (c :: cs).drop n, (List.take_append_drop ..).symm, ?_, ?_, ?_, ?_⟩
    · intro he
      have hl := congrArg List.length he
      rw [List.length_take, Nat.min_eq_left hle] at hl
      exact Nat.ne_of_gt hn hl
    · rw [ofFront, h, List.length_take, Nat.min_eq_left hle]
      rfl
    · simpa [ofFront, h] using hf.text_eq ht
    · simpa [ofFront, h] using hf.lineFeed ht

end StateDiagram.Lexeme
