import StateDiagram.Proofs.Layout
import StateDiagram.Proofs.LineEnd

namespace StateDiagram

open Text

namespace Recognizer

variable {r s : Recognizer} {p : Char → Bool} {taken rest more cs close text : List Char}

/-- What is taken is taken too if the text ends earlier behind it. -/
def Cuts (r : Recognizer) : Prop :=
  ∀ taken more rest, Takes r taken (more ++ rest) → Takes r taken more

/-- Where the recognizer does not apply, it does not apply to less text. -/
def Lapses (r : Recognizer) : Prop := ∀ cs more, r (cs ++ more) = none → r cs = none

/-- What is taken is taken too if the text goes on. -/
def Firm (r : Recognizer) : Prop :=
  ∀ taken rest more, Takes r taken rest → Takes r taken (rest ++ more)

theorem Firm.literal (text : List Char) : Firm (literal text) :=
  fun _ _ _ h => takes_literal.2 (takes_literal.1 h)

theorem Firm.one (p : Char → Bool) : Firm (one p) := fun _ _ _ h => takes_one.2 (takes_one.1 h)

theorem Firm.upTo (hc : close ≠ []) : Firm (upTo close) := fun _ _ _ h => h.upTo_rest hc _

theorem Firm.andThen (hr : Firm r) (hs : Firm s) : Firm (r.andThen s) := by
  intro taken rest more h
  obtain ⟨front, back, rfl, hf, hb⟩ := takes_andThen.1 h
  refine takes_andThen.2 ⟨front, back, rfl, ?_, hs _ _ _ hb⟩
  rw [← List.append_assoc]
  exact hr _ _ _ hf

theorem Firm.runUntil {c : Char} (hc : p c = false) : Firm ((run p).andThen (.literal [c])) := by
  intro taken rest more h
  obtain ⟨front, back, rfl, hf, hb⟩ := takes_andThen.1 h
  obtain rfl := takes_literal.1 hb
  refine takes_andThen.2
    ⟨front, [c], rfl, takes_run.2 ⟨(takes_run.1 hf).1, ?_⟩, takes_literal.2 rfl⟩
  rintro d hd
  cases hd
  exact hc

theorem Firm.lapses (hr : Firm r) (hb : Bounded r) : Lapses r := by
  intro cs more h
  cases hn : r cs with
  | none => rfl
  | some n =>
    have ht := hr _ _ more (hb.takes hn)
    rw [Takes, ← List.append_assoc, List.take_append_drop, h] at ht
    cases ht

theorem orElse_eq_none : r.orElse s cs = none ↔ r cs = none ∧ s cs = none := by
  rw [orElse]
  cases r cs <;> simp

theorem Lapses.of_total (h : ∀ cs, r cs ≠ none) : Lapses r :=
  fun cs more hn => (h (cs ++ more) hn).elim

theorem Lapses.run (p : Char → Bool) : Lapses (run p) := .of_total fun _ => nofun

theorem Lapses.orElse (hr : Lapses r) (hs : Lapses s) : Lapses (r.orElse s) := by
  intro cs more h
  obtain ⟨hn, hn'⟩ := orElse_eq_none.1 h
  exact orElse_eq_none.2 ⟨hr cs more hn, hs cs more hn'⟩

theorem Lapses.andThen (hr : Firm r) (hb : Bounded r) (hs : Lapses s) : Lapses (r.andThen s) := by
  intro cs more h
  cases hn : r cs with
  | none => rw [Recognizer.andThen, hn]
  | some n =>
    have ht := hr _ _ more (hb.takes hn)
    rw [Takes, ← List.append_assoc, List.take_append_drop, List.length_take,
      Nat.min_eq_left (hb cs n hn)] at ht
    rw [Recognizer.andThen, ht] at h
    have hd := Option.map_eq_none_iff.1 h
    rw [List.drop_append_of_le_length (hb cs n hn)] at hd
    rw [Recognizer.andThen, hn]
    exact Option.map_eq_none_iff.2 (hs _ _ hd)

theorem Lapses.firstLiteral (texts : List (List Char)) : Lapses (firstLiteral texts) := by
  induction texts with
  | nil => exact fun _ _ _ => rfl
  | cons text texts ih => exact ((Firm.literal text).lapses (.literal text)).orElse ih

theorem Cuts.literal (text : List Char) : Cuts (literal text) :=
  fun _ _ _ h => takes_literal.2 (takes_literal.1 h)

theorem Cuts.one (p : Char → Bool) : Cuts (one p) := fun _ _ _ h => takes_one.2 (takes_one.1 h)

theorem Cuts.run (p : Char → Bool) : Cuts (run p) := by
  intro taken more rest h
  obtain ⟨ht, hr⟩ := takes_run.1 h
  exact takes_run.2 ⟨ht, fun c hc => hr c (Trivia.head?_eq_of_mem hc)⟩

theorem Cuts.upTo (hc : close ≠ []) : Cuts (upTo close) := fun _ _ _ h => h.upTo_rest hc _

theorem Cuts.andThen (hr : Cuts r) (hs : Cuts s) : Cuts (r.andThen s) := by
  intro taken more rest h
  obtain ⟨front, back, rfl, hf, hb⟩ := takes_andThen.1 h
  rw [← List.append_assoc] at hf
  exact takes_andThen.2 ⟨front, back, rfl, hr _ _ _ hf, hs _ _ _ hb⟩

theorem Cuts.orElse (hr : Cuts r) (hl : Lapses r) (hs : Cuts s) : Cuts (r.orElse s) := by
  intro taken more rest h
  rcases takes_orElse.1 h with h | ⟨hn, h⟩
  · exact takes_orElse.2 (.inl (hr _ _ _ h))
  · rw [← List.append_assoc] at hn
    exact takes_orElse.2 (.inr ⟨hl _ _ hn, hs _ _ _ h⟩)

theorem Cuts.optional (hr : Cuts r) (hl : Lapses r) : Cuts r.optional := by
  intro taken more rest h
  rw [Takes, Recognizer.optional, Option.some.injEq] at h ⊢
  cases hn : r (taken ++ (more ++ rest)) with
  | none =>
    rw [hn] at h
    rw [← List.append_assoc] at hn
    rw [hl _ _ hn]
    exact h
  | some n =>
    rw [hn, Option.getD_some] at h
    subst h
    rw [hr _ _ _ hn]
    rfl

/-- Where a repetition stops, it stops in front of less text too. -/
theorem Lapses.stops (hl : Lapses r) (hp : Positive r) (h : ∀ n, r (more ++ rest) ≠ some (n + 1)) :
    ∀ n, r more ≠ some (n + 1) := by
  intro n hn
  cases hm : r (more ++ rest) with
  | none =>
    rw [hl _ _ hm] at hn
    cases hn
  | some m =>
    obtain ⟨k, rfl⟩ := Nat.exists_eq_succ_of_ne_zero (Nat.ne_of_gt (hp _ _ hm))
    exact h k hm

theorem Cuts.repeated (hb : Bounded r) (hp : Positive r) (hr : Cuts r) (hl : Lapses r) :
    Cuts r.repeated := by
  intro taken more rest h
  rw [takes_repeated hb] at h ⊢
  generalize hw : more ++ rest = whole at h
  induction h with
  | stop h =>
    subst hw
    exact .stop (hl.stops hp h)
  | step hf ht _ ih =>
    subst hw
    rw [← List.append_assoc] at ht
    exact .step hf (hr _ _ _ ht) (ih rfl)

theorem Repeats.stops (h : Repeats r taken rest) : ∀ n, r rest ≠ some (n + 1) := by
  induction h with
  | stop h => exact h
  | step _ _ _ ih => exact ih

theorem Cuts.firstLiteral (texts : List (List Char)) : Cuts (firstLiteral texts) := by
  induction texts with
  | nil => exact fun _ _ _ h => h
  | cons text texts ih =>
    exact (Cuts.literal text).orElse ((Firm.literal text).lapses (.literal text)) ih

end Recognizer

open Recognizer

namespace Trivia

variable {gap text rest : List Char}

theorem lapses_piece : Lapses piece :=
  Lapses.orElse (.andThen (.one _) (.one _) (.of_total fun _ => nofun)) <|
    Lapses.orElse (.andThen (.literal _) (.literal _) (.run _)) <|
      (Firm.andThen (.literal _) (.upTo (by decide))).lapses (.andThen (.literal _) (.upTo _))

theorem positive_piece : Positive piece :=
  (Positive.one _).andThen _ |>.orElse <|
    ((Positive.literal (by decide)).andThen _).orElse ((Positive.literal (by decide)).andThen _)

/-- The text behind a gap starts with no gap, also if it ends earlier. -/
theorem takes_nil_of_append (h : Takes trivia gap (text ++ rest)) : Takes trivia [] text :=
  takes_trivia.2 (.stop (lapses_piece.stops positive_piece (takes_trivia.1 h).stops))

end Trivia

namespace Lexeme

variable {taken rest text cs : List Char} {c : Char} {lexeme : Lexeme}

/-- The rule takes what it took, and fails where it failed, also if the text ends there. -/
structure Rule.Isolates (rule : Rule) (taken rest : List Char) : Prop where
  cuts : Takes rule.recognizer taken rest → Takes rule.recognizer taken []
  lapses : rule.recognizer (taken ++ rest) = none → rule.recognizer taken = none

theorem Rule.Isolates.of {rule : Rule} (hc : Cuts rule.recognizer)
    (hl : rule.recognizer (taken ++ rest) = none → rule.recognizer taken = none) :
    rule.Isolates taken rest := ⟨hc taken [] rest, hl⟩

theorem firstMatch_isolated {rules : List Rule} (h : ∀ rule ∈ rules, rule.Isolates taken rest) :
    (firstMatch (taken ++ rest) rules = none → firstMatch taken rules = none) ∧
    ∀ lexeme, firstMatch (taken ++ rest) rules = some (lexeme, taken.length) →
      firstMatch taken rules = some (lexeme, taken.length) := by
  induction rules with
  | nil => exact ⟨id, nofun⟩
  | cons rule rules ih =>
    obtain ⟨hr, h⟩ := List.forall_mem_cons.1 h
    rw [firstMatch, firstMatch]
    cases hn : rule.recognizer (taken ++ rest) with
    | none =>
      rw [hr.lapses hn]
      exact ih h
    | some n =>
      constructor
      · intro hm
        cases hm
      · intro _ hm
        obtain ⟨rfl, rfl⟩ := Prod.mk.inj (Option.some.inj hm)
        have ht := hr.cuts hn
        rw [Takes, List.append_nil] at ht
        simp only [ht, List.take_left, List.take_length]

theorem firstMatch_eq_none {rules : List Rule} (h : ∀ rule ∈ rules, rule.recognizer cs = none) :
    firstMatch cs rules = none := by
  induction rules with
  | nil => rfl
  | cons rule rules ih =>
    obtain ⟨hr, h⟩ := List.forall_mem_cons.1 h
    rw [firstMatch_of_none hr, ih h]

/-- Nothing but a string starts with a double quote, and nothing but a character with a single
one. -/
theorem firstMatch_quote (hc : c = '\x22' ∨ c = '\x27') (hs : stringLiteral (c :: cs) = none)
    (hl : characterLiteral (c :: cs) = none) : firstMatch (c :: cs) rules = none := by
  refine firstMatch_eq_none ?_
  simp only [rules, List.mem_cons, List.not_mem_nil, or_false, forall_eq_or_imp, forall_eq]
  have hname : quotedName.orElse plainName (c :: cs) = none := by
    rcases hc with rfl | rfl
    · exact name_of_not_letter (by decide) (by decide)
    · exact name_of_not_letter (by decide) (by decide)
  refine ⟨?_, hs, hl, ?_, hname, ?_, ?_, ?_, ?_, ?_, ?_, ?_⟩
  all_goals rcases hc with rfl | rfl <;> rfl

/-- A quote that starts no quotation is a token of its own. -/
theorem eq_singleton_of_quote (hc : c = '\x22' ∨ c = '\x27')
    (hs : stringLiteral (c :: cs) = none) (hl : characterLiteral (c :: cs) = none)
    (h : c :: cs = taken ++ rest) (hn : (ofFront c cs).2 = taken.length) : taken = [c] := by
  have hone : taken.length = 1 := by
    rw [← hn, ofFront, firstMatch_quote hc hs hl]
    rfl
  obtain ⟨d, rfl⟩ := List.length_eq_one_iff.1 hone
  exact congrArg (fun d => [d]) (List.cons.inj h).1.symm

theorem firm_escape : Firm escape := .andThen (.literal _) (.one _)

theorem firm_template : Firm template := .andThen (.literal _) (.runUntil (by decide))

theorem lapses_escape : Lapses escape := firm_escape.lapses bounded_escape

theorem bounded_template : Bounded template :=
  (Bounded.literal _).andThen ((Bounded.run _).andThen (.literal _))

theorem cuts_escape : Cuts escape := .andThen (.literal _) (.one _)

theorem positive_escape : Positive escape := (Positive.literal (by decide)).andThen _

theorem cuts_stringLiteral : Cuts stringLiteral := by
  have hraw : Lapses rawString := (Firm.andThen (.literal _) (.upTo (by decide))).lapses
    (.andThen (.literal _) (.upTo _))
  have htemplate : Cuts template := .andThen (.literal _) (.andThen (.run _) (.literal _))
  have hlapses : Lapses template := firm_template.lapses bounded_template
  have hpositive : Positive (escape.orElse (template.orElse (noneOf ['\x5c', '\x22', '\n']))) :=
    positive_escape.orElse (((Positive.literal (by decide)).andThen _).orElse (.one _))
  refine Cuts.orElse (.andThen (.literal _) (.upTo (by decide))) hraw
    (.andThen (.literal _) (.andThen (.repeated ?_ hpositive ?_ ?_) (.literal _)))
  · exact bounded_escape.orElse (bounded_template.orElse (.one _))
  · exact cuts_escape.orElse lapses_escape (htemplate.orElse hlapses (.one _))
  · exact lapses_escape.orElse (hlapses.orElse ((Firm.one _).lapses (.one _)))

theorem cuts_characterLiteral : Cuts characterLiteral := by
  have hcuts : Cuts (escape.orElse (noneOf ['\x5c', '\x27', '\n'])) :=
    cuts_escape.orElse lapses_escape (.one _)
  have hrepeated : Cuts (escape.orElse (noneOf ['\x5c', '\x27', '\n'])).repeated :=
    .repeated (bounded_escape.orElse (.one _)) (positive_escape.orElse (.one _)) hcuts
      (lapses_escape.orElse ((Firm.one _).lapses (.one _)))
  exact .andThen (.literal _) (.andThen (.andThen hcuts hrepeated) (.literal _))

theorem cuts_numberLiteral : Cuts numberLiteral :=
  .andThen (.one _) (.andThen (.run _) (.optional
    (.andThen (.literal _) (.andThen (.one _) (.run _)))
    (.andThen (.literal _) (.literal _) (.andThen (.one _) (.one _) (.run _)))))

theorem lapses_numberLiteral : Lapses numberLiteral :=
  .andThen (.one _) (.one _) (.of_total fun _ => nofun)

theorem lapses_quotedName : Lapses quotedName :=
  (Firm.andThen (.literal _) (.runUntil (by decide))).lapses
    ((Bounded.literal _).andThen ((Bounded.run _).andThen (.literal _)))

theorem cuts_name : Cuts (quotedName.orElse plainName) :=
  .orElse (.andThen (.literal _) (.andThen (.run _) (.literal _))) lapses_quotedName
    (.andThen (.one _) (.run _))

theorem lapses_name : Lapses (quotedName.orElse plainName) :=
  lapses_quotedName.orElse (.andThen (.one _) (.one _) (.run _))

theorem cuts_operatorSymbol : Cuts operatorSymbol :=
  .orElse (.firstLiteral _) (.firstLiteral _) (.one _)

theorem lapses_operatorSymbol : Lapses operatorSymbol :=
  (Lapses.firstLiteral _).orElse ((Firm.one _).lapses (.one _))

/-- Every rule isolates the text of a first lexeme. -/
theorem isolates_rules (h : c :: cs = taken ++ rest) (hne : taken ≠ [])
    (hn : (ofFront c cs).2 = taken.length) : ∀ rule ∈ rules, rule.Isolates taken rest := by
  obtain ⟨d, more, rfl⟩ := List.exists_cons_of_ne_nil hne
  obtain rfl : c = d := (List.cons.inj h).1
  have hliteral (text : List Char) (lexeme : List Char → Lexeme) :
      Rule.Isolates ⟨literal text, lexeme⟩ (c :: more) rest :=
    .of (.literal text) ((Firm.literal text).lapses (.literal text) _ rest)
  have hstring : stringLiteral (c :: cs) = none → stringLiteral (c :: more) = none := by
    intro hs
    by_cases hc : c = '\x22'
    · subst hc
      rw [eq_singleton_of_quote (.inl rfl) hs (characterLiteral_of_ne (by decide)) h hn]
      decide +kernel
    · exact stringLiteral_of_ne hc
  have hcharacter : characterLiteral (c :: cs) = none → characterLiteral (c :: more) = none := by
    intro hl
    by_cases hc : c = '\x27'
    · subst hc
      rw [eq_singleton_of_quote (.inr rfl) (stringLiteral_of_ne (by decide)) hl h hn]
      decide
    · exact characterLiteral_of_ne hc
  simp only [rules, List.mem_cons, List.not_mem_nil, or_false, forall_eq_or_imp, forall_eq]
  refine ⟨hliteral _ _, .of cuts_stringLiteral (h ▸ hstring),
    .of cuts_characterLiteral (h ▸ hcharacter),
    .of cuts_numberLiteral (lapses_numberLiteral _ rest), .of cuts_name (lapses_name _ rest),
    .of cuts_operatorSymbol (lapses_operatorSymbol _ rest), ?_, ?_, ?_, ?_, ?_, ?_⟩
  all_goals exact hliteral _ _

theorem ofFront_isolated {more : List Char} (h : c :: cs = (c :: more) ++ rest)
    (hn : (ofFront c cs).2 = (c :: more).length) : ofFront c more = ofFront c cs := by
  have hr := isolates_rules h (List.cons_ne_nil c more) hn
  rw [ofFront, ofFront, h]
  rw [ofFront, h] at hn
  cases hm : firstMatch (c :: more ++ rest) rules with
  | none => rw [(firstMatch_isolated hr).1 hm]
  | some found =>
    obtain ⟨lexeme, n⟩ := found
    rw [hm] at hn
    obtain rfl : n = (c :: more).length := hn
    rw [(firstMatch_isolated hr).2 lexeme hm]

end Lexeme

theorem Token.scan_text (offset : Nat) (cs : List Char) : ∀ token ∈ Token.scan offset cs,
    Token.scan 0 token.lexeme.text.toList =
      [⟨token.lexeme, ⟨0, byteSize token.lexeme.text.toList⟩⟩] := by
  fun_induction Token.scan offset cs with
  | case1 => exact List.forall_mem_nil _
  | case2 offset cs gap c rest h lexeme start stop ih =>
    refine List.forall_mem_cons.2 ⟨?_, ih⟩
    obtain ⟨text, behind, he, hne, hn, ht, _⟩ := Lexeme.exists_text_ofFront c rest
    have hg := Trivia.takes_trivia_getD cs
    rw [h, he] at hg
    obtain ⟨d, more, rfl⟩ := List.exists_cons_of_ne_nil hne
    obtain rfl : c = d := (List.cons.inj he).1
    have hfront : Lexeme.ofFront c more = lexeme := Lexeme.ofFront_isolated he hn
    have hstop : lexeme.2 = (c :: more).length := hn
    have hscan := Token.scan_of_gap_cons (Trivia.takes_nil_of_append hg) 0
    rw [hfront, hstop, List.take_length, List.drop_length, scan_nil] at hscan
    dsimp only [lexeme] at hscan ⊢
    simpa only [ht, List.nil_append, byteSize_nil, Nat.zero_add] using hscan

/-- Every token is the only token of the text under its span, so nothing outside of a token decides
of which kind it is. -/
theorem tokens_isolated (source : String) : ∀ token ∈ Token.tokenize source,
    Token.tokenize (String.ofList (slice token.span.start token.span.stop source.toList)) =
      [⟨token.lexeme, ⟨0, byteSize (slice token.span.start token.span.stop source.toList)⟩⟩] := by
  intro token hm
  obtain ⟨_, hs, hstop⟩ := (tiling_scan 0 source.toList).standsAt [] rfl token hm
  have htext : slice token.span.start token.span.stop source.toList = token.lexeme.text.toList := by
    rw [hstop]
    exact hs.slice_eq
  rw [htext, Token.tokenize, String.toList_ofList]
  exact Token.scan_text 0 source.toList token hm

/-- The brace of the template is closed behind the string, so the string is none: its first quote
stands alone. With the template cut off it would be a string. -/
theorem tokens_isolated_template :
    ⟨.unknown "\"", ⟨0, 1⟩⟩ ∈ Token.tokenize "\"$\x7b\" \x7d" ∧
      Token.tokenize "\"" = [⟨.unknown "\"", ⟨0, 1⟩⟩] ∧
      Token.tokenize "\"$\x7b\"" = [⟨.string "\"$\x7b\"", ⟨0, 4⟩⟩] := by
  have hm : ⟨.unknown "\"", ⟨0, 1⟩⟩ ∈ Token.tokenize "\"$\x7b\" \x7d" := by decide +kernel
  have hslice : slice 0 1 "\"$\x7b\" \x7d".toList = ['\x22'] := by decide
  have hquote : String.ofList ['\x22'] = "\"" := rfl
  have h := tokens_isolated _ _ hm
  dsimp only at h
  rw [hslice, hquote] at h
  exact ⟨hm, h, by decide +kernel⟩

end StateDiagram
