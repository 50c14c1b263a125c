import Mathlib.Data.Bool.AllAny
import StateDiagram.Proofs.Recognizer
import StateDiagram.Token.Lexer

namespace StateDiagram

set_option autoImplicit true

open Recognizer Text

def isName : List Char → Bool
  | [] => false
  | c :: cs => (isAlphabetic c || c == '_') && cs.all fun d => isAlphanumeric d || d == '_'

structure Identifier where
  text : String
  spelled : isName text.toList = true

theorem Identifier.exists_cons (name : Identifier) :
    ∃ c cs, name.text.toList = c :: cs ∧ (isAlphabetic c || c == '_') = true ∧
      ∀ d ∈ cs, (isAlphanumeric d || d == '_') = true := by
  obtain ⟨text, hs⟩ := name
  cases ht : text.toList with
  | nil => rw [ht] at hs; cases hs
  | cons c cs =>
    rw [ht, isName, Bool.and_eq_true] at hs
    exact ⟨c, cs, rfl, hs.1, List.all_eq_true.1 hs.2⟩

namespace Word

def stateMachine : Identifier := ⟨"StateMachine", by decide⟩

def create : Identifier := ⟨"create", by decide⟩

def initialState : Identifier := ⟨"initialState", by decide⟩

def state : Identifier := ⟨"state", by decide⟩

def on : Identifier := ⟨"on", by decide⟩

def transitionTo : Identifier := ⟨"transitionTo", by decide⟩

def onEnter : Identifier := ⟨"onEnter", by decide⟩

def onExit : Identifier := ⟨"onExit", by decide⟩

end Word

/-- A name that stands in back quotes. -/
structure QuotedName where
  content : String
  plain : ∀ c ∈ content.toList, c ∉ ['\x60', '\n', '\r']

def QuotedName.text (name : QuotedName) : String := "\x60" ++ name.content ++ "\x60"

structure Numeral where
  text : String
  nonempty : text.toList ≠ []
  digits : text.toList.all Char.isDigit = true

/-- Characters that quoted text would have to escape, and those that end lines. -/
def reservedCharacters : List Char := ['\x22', '\x5c', '$', '\n', '\r']

/-- Text that can be quoted as it is. -/
def Quotable (text : String) : Prop := ∀ c ∈ text.toList, c ∉ reservedCharacters

instance (text : String) : Decidable (Quotable text) :=
  decidable_of_iff (text.toList.all fun c => c ∉ reservedCharacters) List.all_iff_forall_prop

structure PlainText where
  text : String
  plain : Quotable text

def PlainText.quoted (plain : PlainText) : String := "\"" ++ plain.text ++ "\""

namespace Lexeme

theorem firstMatch_of_none {rule : Rule} (h : rule.recognizer cs = none) :
    firstMatch cs (rule :: more) = firstMatch cs more := by
  rw [firstMatch, h]

theorem firstMatch_of_takes {rule : Rule} (h : Takes rule.recognizer taken rest) :
    firstMatch (taken ++ rest) (rule :: more) = some (rule.lexeme taken, taken.length) := by
  rw [firstMatch, h]
  simp

theorem literal_of_ne (h : c ≠ d) : literal (d :: ds) (c :: cs) = none := by
  rw [literal, if_neg]
  simp [List.isPrefixOf, Ne.symm h]

theorem andThen_of_none (h : r cs = none) : andThen r s cs = none := by
  rw [andThen, h]

theorem orElse_of_none (h : r cs = none) : orElse r s cs = s cs := by
  rw [orElse, h]

theorem stringLiteral_of_ne (h : c ≠ '\x22') : stringLiteral (c :: cs) = none := by
  have hr : rawString (c :: cs) = none := andThen_of_none (literal_of_ne h)
  rw [stringLiteral, orElse_of_none hr]
  exact andThen_of_none (literal_of_ne h)

theorem characterLiteral_of_ne (h : c ≠ '\x27') : characterLiteral (c :: cs) = none :=
  andThen_of_none (literal_of_ne h)

theorem numberLiteral_of_not_digit (h : c.isDigit = false) : numberLiteral (c :: cs) = none :=
  andThen_of_none (by rw [one, h]; rfl)

theorem name_of_not_letter (hq : c ≠ '\x60') (h : (isAlphabetic c || c == '_') = false) :
    quotedName.orElse plainName (c :: cs) = none := by
  have hn : quotedName (c :: cs) = none := andThen_of_none (literal_of_ne hq)
  rw [orElse_of_none hn]
  exact andThen_of_none (by rw [one, h]; rfl)

theorem isAlphabetic_of_isDigit (h : c.isDigit = true) : (isAlphabetic c || c == '_') = false := by
  simp only [Char.isDigit, Bool.and_eq_true, decide_eq_true_eq] at h
  have hu : c.toNat ≤ 57 := UInt32.le_iff_toNat_le.1 h.2
  have ha : c.isAlpha = false := by
    rw [Bool.eq_false_iff]
    intro ha
    have := (toNat_of_isAlpha ha).1
    omega
  rw [isAlphabetic, if_pos (by omega), ha, Bool.false_or, beq_eq_false_iff_ne]
  rintro rfl
  exact absurd hu (by decide)

theorem firstMatch_name (hl : (isAlphabetic c || c == '_') = true)
    (hr : ∀ d ∈ cs, (isAlphanumeric d || d == '_') = true)
    (he : ∀ d ∈ rest.head?, (isAlphanumeric d || d == '_') = false) :
    firstMatch (c :: cs ++ rest) rules =
      some (.identifier (String.ofList (c :: cs)), (c :: cs).length) := by
  have hne {d : Char} (h : (isAlphabetic d || d == '_') = false) : c ≠ d := by
    rintro rfl
    rw [hl] at h
    cases h
  have hd : c.isDigit = false := by
    rw [Bool.eq_false_iff]
    intro hd
    rw [isAlphabetic_of_isDigit hd] at hl
    cases hl
  rw [rules, firstMatch_of_none (literal_of_ne (hne (by decide))),
    firstMatch_of_none (stringLiteral_of_ne (hne (by decide))),
    firstMatch_of_none (characterLiteral_of_ne (hne (by decide))),
    firstMatch_of_none (numberLiteral_of_not_digit hd)]
  refine firstMatch_of_takes (takes_orElse.2 (.inr ⟨?_, takes_andThen.2 ?_⟩))
  · exact andThen_of_none (literal_of_ne (hne (by decide)))
  · exact ⟨[c], cs, rfl, takes_one.2 ⟨c, rfl, hl⟩, takes_run.2 ⟨hr, he⟩⟩

theorem firstMatch_quotedName {content : List Char} (h : ∀ c ∈ content, c ∉ ['\x60', '\n', '\r']) :
    firstMatch ('\x60' :: (content ++ ['\x60']) ++ rest) rules =
      some (.identifier (String.ofList ('\x60' :: (content ++ ['\x60']))),
        ('\x60' :: (content ++ ['\x60'])).length) := by
  have hl : literal ['\n'] ('\x60' :: (content ++ ['\x60']) ++ rest) = none :=
    literal_of_ne (by decide)
  have hs : stringLiteral ('\x60' :: (content ++ ['\x60']) ++ rest) = none :=
    stringLiteral_of_ne (by decide)
  have hc : characterLiteral ('\x60' :: (content ++ ['\x60']) ++ rest) = none :=
    characterLiteral_of_ne (by decide)
  have hn : numberLiteral ('\x60' :: (content ++ ['\x60']) ++ rest) = none :=
    numberLiteral_of_not_digit (by decide)
  rw [rules, firstMatch_of_none hl, firstMatch_of_none hs, firstMatch_of_none hc,
    firstMatch_of_none hn]
  apply firstMatch_of_takes
  have hrun : Takes (run fun c => c ≠ '\x60' && c ≠ '\n') content ('\x60' :: rest) := by
    apply takes_run.2
    constructor
    · intro c hm
      have hp := h c hm
      simp only [List.mem_cons, not_or] at hp
      simp [hp.1, hp.2.1]
    · rintro c ⟨⟩
      rfl
  exact takes_orElse.2 (.inl (takes_andThen.2 ⟨['\x60'], content ++ ['\x60'], rfl,
    takes_literal.2 rfl, takes_andThen.2 ⟨content, ['\x60'], rfl, hrun, takes_literal.2 rfl⟩⟩))

theorem firstMatch_number (hc : c.isDigit = true) (hr : ∀ d ∈ cs, d.isDigit = true)
    (he : ∀ d ∈ rest.head?, isWordCharacter d = false ∧ d ≠ '.') :
    firstMatch (c :: cs ++ rest) rules =
      some (.number (String.ofList (c :: cs)), (c :: cs).length) := by
  have hne {d : Char} (h : d.isDigit = false) : c ≠ d := by
    rintro rfl
    rw [hc] at h
    cases h
  have hw : ∀ d ∈ cs, isWordCharacter d = true := by
    intro d hm
    rw [isWordCharacter, Char.isAlphanum, hr d hm, Bool.or_true, Bool.true_or]
  have ho : Takes (optional ((literal ['.']).andThen ((one Char.isDigit).andThen
      (run isWordCharacter)))) [] rest := by
    cases rest with
    | nil => rfl
    | cons d rest =>
      have hn : literal ['.'] (d :: rest) = none := literal_of_ne (he d rfl).2
      rw [Takes, Recognizer.optional, List.nil_append, andThen_of_none hn]
      rfl
  rw [rules, firstMatch_of_none (literal_of_ne (hne (by decide))),
    firstMatch_of_none (stringLiteral_of_ne (hne (by decide))),
    firstMatch_of_none (characterLiteral_of_ne (hne (by decide)))]
  refine firstMatch_of_takes (takes_andThen.2 ⟨[c], cs, rfl, takes_one.2 ⟨c, rfl, hc⟩,
    takes_andThen.2 ⟨cs, [], (List.append_nil cs).symm, takes_run.2 ⟨hw, ?_⟩, ho⟩⟩)
  exact fun d hd => (he d hd).1

theorem repeats_content (h : ∀ c ∈ content, c ∉ reservedCharacters) :
    Repeats (escape.orElse (template.orElse (noneOf ['\x5c', '\x22', '\n']))) content
      ('\x22' :: rest) := by
  induction content with
  | nil =>
    refine .stop fun n hn => ?_
    have he : escape ('\x22' :: rest) = none := andThen_of_none (literal_of_ne (by decide))
    have ht : template ('\x22' :: rest) = none := andThen_of_none (literal_of_ne (by decide))
    rw [orElse_of_none he, orElse_of_none ht] at hn
    cases hn
  | cons c content ih =>
    obtain ⟨hc, h⟩ := List.forall_mem_cons.1 h
    simp only [reservedCharacters, List.mem_cons, List.not_mem_nil, or_false, not_or] at hc
    obtain ⟨hq, hb, hd, hl, _⟩ := hc
    have he : escape (c :: (content ++ '\x22' :: rest)) = none :=
      andThen_of_none (literal_of_ne hb)
    have ht : template (c :: (content ++ '\x22' :: rest)) = none :=
      andThen_of_none (literal_of_ne hd)
    refine .step (List.cons_ne_nil c []) (takes_orElse.2 (.inr ⟨he, ?_⟩)) (ih h)
    refine takes_orElse.2 (.inr ⟨ht, takes_one.2 ⟨c, rfl, ?_⟩⟩)
    simp [hq, hb, hl]

theorem firstMatch_string (h : ∀ c ∈ content, c ∉ reservedCharacters)
    (he : ∀ d ∈ rest.head?, d ≠ '\x22') :
    firstMatch ('\x22' :: (content ++ ['\x22']) ++ rest) rules =
      some (.string (String.ofList ('\x22' :: (content ++ ['\x22']))),
        ('\x22' :: (content ++ ['\x22'])).length) := by
  have hraw : rawString ('\x22' :: (content ++ ['\x22']) ++ rest) = none := by
    refine andThen_of_none ?_
    rw [literal, if_neg]
    cases content with
    | nil =>
      cases rest with
      | nil => decide
      | cons d rest => simp [rawQuotes, Ne.symm (he d rfl)]
    | cons c content =>
      have hc : '\x22' ≠ c := by
        rintro rfl
        exact h _ List.mem_cons_self (by decide)
      simp [rawQuotes, hc]
  have hl : literal ['\n'] ('\x22' :: (content ++ ['\x22']) ++ rest) = none :=
    literal_of_ne (by decide)
  rw [rules, firstMatch_of_none hl]
  refine firstMatch_of_takes (takes_orElse.2 (.inr ⟨hraw, ?_⟩))
  refine takes_andThen.2 ⟨['\x22'], content ++ ['\x22'], rfl, takes_literal.2 rfl,
    takes_andThen.2 ⟨content, ['\x22'], rfl, ?_, takes_literal.2 rfl⟩⟩
  exact congrArg some (repeats_content h).repeatedLength_eq

/-- Operators that are read whatever stands behind them, and single characters that are operators
where no longer operator stands. -/
theorem firstMatch_operator (hc : c ∈ operatorCharacters)
    (ht : Takes operatorSymbol (c :: cs) rest) :
    firstMatch (c :: cs ++ rest) rules =
      some (.operator (String.ofList (c :: cs)), (c :: cs).length) := by
  have hne {d : Char} (h : d ∉ operatorCharacters) : c ≠ d := by
    rintro rfl
    exact h hc
  have hp : ∀ c ∈ operatorCharacters,
      c.isDigit = false ∧ (isAlphabetic c || c == '_') = false :=
    List.all_iff_forall_prop.1 (by decide)
  have hn : quotedName.orElse plainName (c :: cs ++ rest) = none :=
    name_of_not_letter (hne (by decide)) (hp c hc).2
  rw [rules, firstMatch_of_none (literal_of_ne (hne (by decide))),
    firstMatch_of_none (stringLiteral_of_ne (hne (by decide))),
    firstMatch_of_none (characterLiteral_of_ne (hne (by decide))),
    firstMatch_of_none (numberLiteral_of_not_digit (hp c hc).1), firstMatch_of_none hn]
  exact firstMatch_of_takes ht

/-- No long operator starts with the two characters. -/
def Separate (c d : Char) : Prop := ∀ text ∈ longOperators, text.take 2 ≠ [c, d]

instance (c d : Char) : Decidable (Separate c d) :=
  decidable_of_iff (longOperators.all fun text => text.take 2 ≠ [c, d]) List.all_iff_forall_prop

theorem separate_of_not_mem (h : d ∉ operatorCharacters) (c : Char) : Separate c d := by
  have hs : ∀ text ∈ longOperators, (text.take 2).all operatorCharacters.contains := by decide
  intro text hm he
  have hall := hs text hm
  rw [he] at hall
  simp [h] at hall

theorem firstLiteral_of_take {texts : List (List Char)} (h : ∀ text ∈ texts, 2 ≤ text.length)
    (he : ∀ d ∈ rest.head?, ∀ text ∈ texts, text.take 2 ≠ [c, d]) :
    firstLiteral texts (c :: rest) = none := by
  induction texts with
  | nil => rfl
  | cons text texts ih =>
    obtain ⟨ht, h⟩ := List.forall_mem_cons.1 h
    have hl : literal text (c :: rest) = none := by
      rw [literal, if_neg]
      intro hp
      obtain ⟨more, hm⟩ := List.isPrefixOf_iff_prefix.1 hp
      rcases text with _ | ⟨first, _ | ⟨second, text⟩⟩
      · cases ht
      · exact absurd ht (Nat.lt_irrefl 1)
      · cases hm
        exact he second rfl _ (List.mem_cons_self ..) rfl
    rw [firstLiteral, orElse_of_none hl]
    exact ih h fun d hd text hm => he d hd text (List.mem_cons_of_mem _ hm)

theorem takes_operatorSymbol (hc : c ∈ operatorCharacters)
    (he : ∀ d ∈ rest.head?, Separate c d) : Takes operatorSymbol [c] rest :=
  takes_orElse.2 (.inr ⟨firstLiteral_of_take (by decide) he,
    takes_one.2 ⟨c, rfl, by simpa using hc⟩⟩)

/-- The characters that trivia may start with. -/
def gapCharacters : List Char := [' ', '\t', '\r', '\x0c', '/']

/-- The lexeme is what is read where its text stands in front of the rest. -/
def Recognized (lexeme : Lexeme) (rest : List Char) : Prop :=
  ∃ c cs, lexeme.text.toList = c :: cs ∧ c ∉ gapCharacters ∧
    ofFront c (cs ++ rest) = (lexeme, (c :: cs).length)

theorem recognized_of_firstMatch {lexeme : Lexeme} (ht : lexeme.text.toList = c :: cs)
    (hc : c ∉ gapCharacters)
    (hm : firstMatch (c :: cs ++ rest) rules = some (lexeme, (c :: cs).length)) :
    lexeme.Recognized rest := by
  refine ⟨c, cs, ht, hc, ?_⟩
  rw [ofFront, ← List.cons_append, hm]
  rfl

theorem recognized_identifier (name : Identifier)
    (he : ∀ c ∈ rest.head?, (isAlphanumeric c || c == '_') = false) :
    (identifier name.text).Recognized rest := by
  obtain ⟨c, cs, ht, hl, hr⟩ := name.exists_cons
  have hg : ∀ d ∈ gapCharacters, (isAlphabetic d || d == '_') = false :=
    List.all_iff_forall_prop.1 (by decide)
  refine recognized_of_firstMatch ht (fun hc => ?_) ?_
  · rw [hg c hc] at hl
    cases hl
  · have ho : String.ofList (c :: cs) = name.text := by rw [← ht, String.ofList_toList]
    rw [firstMatch_name hl hr he, ho]

theorem recognized_number (numeral : Numeral)
    (he : ∀ c ∈ rest.head?, isWordCharacter c = false ∧ c ≠ '.') :
    (number numeral.text).Recognized rest := by
  obtain ⟨c, cs, ht⟩ := List.exists_cons_of_ne_nil numeral.nonempty
  have hd := List.all_eq_true.1 numeral.digits
  rw [ht] at hd
  obtain ⟨hc, hr⟩ := List.forall_mem_cons.1 hd
  have hg : ∀ d ∈ gapCharacters, d.isDigit = false := List.all_iff_forall_prop.1 (by decide)
  refine recognized_of_firstMatch ht (fun hm => ?_) ?_
  · rw [hg c hm] at hc
    cases hc
  · rw [firstMatch_number hc hr he, ← ht, String.ofList_toList]

theorem recognized_string (plain : PlainText) (he : ∀ c ∈ rest.head?, c ≠ '\x22') :
    (string plain.quoted).Recognized rest := by
  have ht : plain.quoted.toList = '\x22' :: (plain.text.toList ++ ['\x22']) := by
    simp [PlainText.quoted, String.toList_append]
  refine recognized_of_firstMatch ht (by decide) ?_
  rw [firstMatch_string plain.plain he, ← ht, String.ofList_toList]

theorem recognized_quotedName (name : QuotedName) (rest : List Char) :
    (identifier name.text).Recognized rest := by
  have ht : name.text.toList = '\x60' :: (name.content.toList ++ ['\x60']) := by
    simp [QuotedName.text, String.toList_append]
  refine recognized_of_firstMatch ht (by decide) ?_
  rw [firstMatch_quotedName name.plain, ← ht, String.ofList_toList]

theorem recognized_operator (hc : c ∈ operatorCharacters) (hg : c ≠ '/')
    (he : ∀ d ∈ rest.head?, Separate c d) : (operator (String.singleton c)).Recognized rest := by
  have hn : ∀ d ∈ operatorCharacters, d ∈ gapCharacters → d = '/' :=
    List.all_iff_forall_prop.1 (by decide)
  refine recognized_of_firstMatch (String.toList_singleton c) (fun hm => hg (hn c hc hm)) ?_
  exact firstMatch_operator hc (takes_operatorSymbol hc he)

theorem recognized_arrow (rest : List Char) : (operator "->").Recognized rest :=
  recognized_of_firstMatch rfl (by decide) rfl

theorem recognized_lineBreak (rest : List Char) : lineBreak.Recognized rest :=
  recognized_of_firstMatch rfl (by decide) rfl

theorem recognized_opening (bracket : Bracket) (rest : List Char) :
    (opening bracket).Recognized rest := by
  cases bracket <;> exact recognized_of_firstMatch rfl (by decide) rfl

theorem recognized_closing (bracket : Bracket) (rest : List Char) :
    (closing bracket).Recognized rest := by
  cases bracket <;> exact recognized_of_firstMatch rfl (by decide) rfl

end Lexeme

end StateDiagram
