import StateDiagram.Proofs.Reading

namespace StateDiagram

set_option autoImplicit true

/-- The tokens close the open brackets, inner ones first, and every bracket that they open. -/
def Token.nest : List Bracket → List Token → Bool
  | opened, [] => opened.isEmpty
  | opened, token :: tokens =>
    match token.lexeme with
    | .opening bracket => nest (bracket :: opened) tokens
    | .closing bracket =>
      match opened with
      | [] => false
      | inner :: outer => inner == bracket && nest outer tokens
    | _ => nest opened tokens

/-- The tokens that are no line breaks. -/
def Token.visible (tokens : List Token) : List Token :=
  tokens.filter (!·.lexeme.isLineBreak)

def Lexeme.isBracket : Lexeme → Bool
  | .opening _ | .closing _ => true
  | _ => false

theorem Lexeme.isClosing_of_not_isBracket {lexeme : Lexeme} (h : lexeme.isBracket = false) :
    lexeme.isClosing = false := by
  cases lexeme <;> first | rfl | cases h

/-- The tokens are read on their own where the given brackets are open. -/
structure Sealed (opened : List Bracket) (tokens : List Token) : Prop where
  nest : Token.nest opened tokens = true
  endsLine : ∃ token ∈ tokens.getLast?, token.lexeme = .lineBreak
  settled : ∀ token ∈ (Token.visible tokens).getLast?, token.lexeme.isCarrying = false

namespace Token

variable {token : Token} {tokens : List Token} {bracket : Bracket} {opened : List Bracket}

theorem nest_opening (h : token.lexeme = .opening bracket) :
    nest opened (token :: tokens) = nest (bracket :: opened) tokens := by
  rw [nest, h]

theorem nest_closing (h : token.lexeme = .closing bracket) :
    nest opened (token :: tokens) = true ↔
      ∃ outer, opened = bracket :: outer ∧ nest outer tokens = true := by
  rw [nest, h]
  cases opened with
  | nil => simp
  | cons inner outer => simp [and_assoc]

theorem nest_closing_cons (h : token.lexeme = .closing bracket) :
    nest (bracket :: opened) (token :: tokens) = nest opened tokens := by
  rw [nest, h]
  simp

theorem nest_of_not_isBracket (h : token.lexeme.isBracket = false) :
    nest opened (token :: tokens) = nest opened tokens := by
  rw [nest]
  cases ht : token.lexeme <;> rw [ht] at h <;> first | rfl | cases h

theorem exists_closing (h : nest opened tokens = true) (hb : bracket ∈ opened) :
    ∃ token ∈ tokens, token.lexeme = .closing bracket := by
  induction tokens generalizing opened with
  | nil =>
    rw [nest, List.isEmpty_iff] at h
    rw [h] at hb
    cases hb
  | cons token tokens ih =>
    have behind {opened : List Bracket} (h : nest opened tokens = true) (hb : bracket ∈ opened) :
        ∃ found ∈ token :: tokens, found.lexeme = .closing bracket := by
      obtain ⟨found, hm, hf⟩ := ih h hb
      exact ⟨found, List.mem_cons_of_mem _ hm, hf⟩
    cases ht : token.lexeme with
    | opening inner => exact behind (nest_opening ht ▸ h) (List.mem_cons_of_mem _ hb)
    | closing inner =>
      obtain ⟨outer, rfl, ho⟩ := (nest_closing ht).1 h
      rcases List.mem_cons.1 hb with rfl | hb
      · exact ⟨token, List.mem_cons_self, ht⟩
      · exact behind ho hb
    | _ => exact behind (nest_of_not_isBracket (by rw [ht]; rfl) ▸ h) hb

theorem visible_lineBreak (h : token.lexeme = .lineBreak) :
    visible (token :: tokens) = visible tokens := by
  rw [visible, List.filter_cons_of_neg, visible]
  rw [h]
  decide

theorem visible_cons (h : token.lexeme ≠ .lineBreak) :
    visible (token :: tokens) = token :: visible tokens := by
  rw [visible, List.filter_cons_of_pos, visible]
  rw [Bool.not_eq_true', Bool.eq_false_iff]
  exact mt Lexeme.isLineBreak_iff.1 h

end Token

theorem Token.exists_behind {token : Token} {rest : List Token} (ht : token.lexeme = .lineBreak)
    (hv : ∃ found ∈ token :: rest, found.lexeme ≠ .lineBreak) :
    ∃ found ∈ rest, found.lexeme ≠ .lineBreak := by
  obtain ⟨found, hm, hf⟩ := hv
  rcases List.mem_cons.1 hm with he | hm
  · exact (hf (by rw [he, ht])).elim
  · exact ⟨found, hm, hf⟩

namespace Sealed

variable {token : Token} {tokens rest : List Token} {bracket : Bracket}
  {opened : List Bracket}

theorem ne_nil (h : Sealed opened tokens) : tokens ≠ [] := by
  rintro rfl
  obtain ⟨_, hm, _⟩ := h.endsLine
  cases hm

theorem rest_ne_nil (h : Sealed opened (token :: rest)) (ht : token.lexeme ≠ .lineBreak) :
    rest ≠ [] := by
  rintro rfl
  obtain ⟨last, hm, hl⟩ := h.endsLine
  obtain rfl := Option.some.inj hm
  exact ht hl

/-- What is left of the tokens is sealed if its brackets are closed and it is not empty. -/
theorem drop {inner : List Bracket} (front : List Token) (h : Sealed opened (front ++ rest))
    (hne : rest ≠ []) (hn : Token.nest inner rest = true) : Sealed inner rest where
  nest := hn
  endsLine := by
    obtain ⟨last, hl, ht⟩ := h.endsLine
    refine ⟨last, ?_, ht⟩
    rw [List.getLast?_append, List.getLast?_eq_some_getLast hne, Option.some_or] at hl
    rwa [List.getLast?_eq_some_getLast hne]
  settled token hm := by
    refine h.settled token ?_
    rw [Option.mem_def] at hm ⊢
    rw [Token.visible, List.filter_append, List.getLast?_append, ← Token.visible, hm,
      Option.some_or]

theorem opening (h : Sealed opened (token :: rest)) (ht : token.lexeme = .opening bracket) :
    Sealed (bracket :: opened) rest :=
  h.drop [token] (h.rest_ne_nil (by rw [ht]; nofun)) (Token.nest_opening ht ▸ h.nest)

theorem closing (h : Sealed opened (token :: rest)) (ht : token.lexeme = .closing bracket) :
    ∃ outer, opened = bracket :: outer ∧ Sealed outer rest := by
  obtain ⟨outer, ho, hn⟩ := (Token.nest_closing ht).1 h.nest
  exact ⟨outer, ho, h.drop [token] (h.rest_ne_nil (by rw [ht]; nofun)) hn⟩

/-- Tokens other than brackets can be passed, unless that leaves nothing. -/
theorem pass (front : List Token) (h : Sealed opened (front ++ rest)) (hne : rest ≠ [])
    (hf : ∀ token ∈ front, token.lexeme.isBracket = false) : Sealed opened rest := by
  refine h.drop front hne ?_
  have hn := h.nest
  clear h
  induction front with
  | nil => exact hn
  | cons token front ih =>
    obtain ⟨ht, hf⟩ := List.forall_mem_cons.1 hf
    rw [List.cons_append, Token.nest_of_not_isBracket ht] at hn
    exact ih hf hn

theorem past (h : Sealed opened (token :: rest)) (hl : token.lexeme ≠ .lineBreak)
    (hb : token.lexeme.isBracket = false) : Sealed opened rest :=
  h.pass [token] (h.rest_ne_nil hl) (List.forall_mem_singleton.2 hb)

theorem passTo {front : List Token} (h : Sealed opened (front ++ token :: rest))
    (hl : token.lexeme ≠ .lineBreak)
    (hf : ∀ passed ∈ front ++ [token], passed.lexeme.isBracket = false) : Sealed opened rest := by
  obtain ⟨hfront, htoken⟩ := List.forall_mem_append.1 hf
  have ht := h.pass front (List.cons_ne_nil token rest) hfront
  exact ht.past hl (htoken token List.mem_cons_self)

/-- Within brackets there is always more than line breaks ahead. -/
theorem exists_visible (h : Sealed opened tokens) (hne : opened ≠ []) :
    ∃ token ∈ tokens, token.lexeme ≠ .lineBreak := by
  obtain ⟨bracket, outer, rfl⟩ := List.exists_cons_of_ne_nil hne
  obtain ⟨token, hm, ht⟩ := Token.exists_closing h.nest List.mem_cons_self
  exact ⟨token, hm, by rw [ht]; nofun⟩

theorem pastBreak (h : Sealed opened (token :: rest)) (ht : token.lexeme = .lineBreak)
    (hv : ∃ found ∈ rest, found.lexeme ≠ .lineBreak) : Sealed opened rest := by
  obtain ⟨found, hm, _⟩ := hv
  exact h.pass [token] (List.ne_nil_of_mem hm)
    (List.forall_mem_singleton.2 (by rw [ht]; rfl))

theorem skip (setting : Setting) (h : Sealed opened (token :: rest))
    (ht : token.lexeme = .lineBreak ∨ token.lexeme = setting.separator) (hne : opened ≠ []) :
    Sealed opened rest := by
  rcases ht with ht | ht
  · exact h.pastBreak ht (Token.exists_behind ht (h.exists_visible hne))
  · cases setting <;> exact h.past (by rw [ht]; nofun) (by rw [ht]; rfl)

/-- An operator that asks for another line is not the last token but for line breaks. -/
theorem visible_of_isCarrying (h : Sealed opened (token :: rest))
    (hc : token.lexeme.isCarrying = true) : ∃ token ∈ rest, token.lexeme ≠ .lineBreak := by
  have hl : token.lexeme ≠ .lineBreak := by
    intro hl
    rw [hl] at hc
    cases hc
  cases hv : Token.visible rest with
  | nil =>
    have hlast := h.settled token (by rw [Token.visible_cons hl, hv]; rfl)
    rw [hc] at hlast
    cases hlast
  | cons found more =>
    have hm : found ∈ Token.visible rest := hv ▸ List.mem_cons_self
    obtain ⟨hm, hf⟩ := List.mem_filter.1 hm
    refine ⟨found, hm, fun he => ?_⟩
    rw [he] at hf
    cases hf

end Sealed

theorem Lexeme.isBracket_of_isTypePart {lexeme : Lexeme} (h : lexeme.isTypePart = true) :
    lexeme.isBracket = false := by
  cases lexeme <;> first | rfl | cases h

theorem Lexeme.isBracket_of_isLiteral {lexeme : Lexeme} (h : lexeme.isLiteral = true) :
    lexeme.isBracket = false := by
  cases lexeme <;> first | rfl | cases h

theorem Lexeme.isBracket_of_isSymbol {lexeme : Lexeme} (h : lexeme.isSymbol = true)
    (hc : lexeme.isClosing = false) : lexeme.isBracket = false := by
  cases lexeme with
  | closing => cases hc
  | opening => cases h
  | _ => rfl

theorem Lexeme.round_of_isParameter {lexeme : Lexeme} {bracket : Bracket}
    (h : lexeme.isParameter = true) (hl : lexeme = .opening bracket ∨ lexeme = .closing bracket) :
    bracket = .round := by
  rcases hl with rfl | rfl <;> cases bracket <;> first | rfl | cases h

theorem Member.Ahead.isBracket_eq_false {member : Member}
    (h : member.Ahead tokens breaks dot name rest) :
    ∀ token ∈ breaks ++ [dot] ++ [name], token.lexeme.isBracket = false := by
  refine List.forall_mem_append.2 ⟨List.forall_mem_append.2 ⟨fun token hm => ?_, ?_⟩, ?_⟩
  · rw [h.breaks_eq token hm]
    rfl
  · rw [List.forall_mem_singleton, h.dot_eq]
    rfl
  · rw [List.forall_mem_singleton, h.name_eq]
    rfl

theorem TypeList.isBracket_eq_false {cursor : Cursor}
    (h : TypeList cursor opener inside close rest) :
    ∀ token ∈ opener :: inside ++ [close], token.lexeme.isBracket = false := by
  refine List.forall_mem_append.2 ⟨List.forall_mem_cons.2 ⟨?_, fun token hm => ?_⟩, ?_⟩
  · rw [h.opener_eq]
    rfl
  · exact Lexeme.isBracket_of_isTypePart (h.inside_eq token hm)
  · rw [List.forall_mem_singleton, h.close_eq]
    rfl

theorem Member.Ahead.sealed {member : Member} (h : member.Ahead tokens breaks dot name rest)
    (hs : Sealed opened tokens) : Sealed opened member.next.rest := by
  rw [h.passed_eq] at hs
  rw [h.next_eq]
  exact hs.passTo (by rw [h.name_eq]; nofun) h.isBracket_eq_false

theorem TypeList.sealed {cursor : Cursor} (h : TypeList cursor opener inside close rest)
    (hs : Sealed opened cursor.rest) : Sealed opened rest := by
  rw [h.rest_eq, ← List.cons_append] at hs
  exact hs.passTo (by rw [h.close_eq]; nofun) h.isBracket_eq_false

theorem sealed_readTypeArguments {cursor next : Cursor} {types : List Outline}
    (h : readTypeArguments cursor = (types, next)) (hs : Sealed opened cursor.rest) :
    Sealed opened next.rest := by
  cases typesRead h with
  | none => exact hs
  | list hl => exact hl.sealed hs

theorem sealed_readArgumentName {cursor : Cursor} (hs : Sealed opened cursor.rest) :
    Sealed opened (readArgumentName cursor).2.rest := by
  rcases readArgumentName_eq cursor with h | ⟨name, sign, rest, text, hr, hn, hg, h⟩
  · rw [h]
    exact hs
  · rw [h]
    rw [hr] at hs
    exact (hs.past (by rw [hn]; nofun) (by rw [hn]; rfl)).past (by rw [hg]; nofun) (by rw [hg]; rfl)

/-- Of a brace and the round brackets that parameters left open in it, the innermost one. -/
theorem innermost_of_ne_curly {outer : List Bracket} {n : Nat}
    (h : List.replicate n .round ++ .curly :: opened = bracket :: outer) (hb : bracket ≠ .curly) :
    ∃ m, n = m + 1 ∧ bracket = .round ∧
      outer = List.replicate m .round ++ .curly :: opened := by
  cases n with
  | zero => exact (hb (List.cons.inj h).1.symm).elim
  | succ m =>
    rw [List.replicate_succ, List.cons_append] at h
    obtain ⟨rfl, rfl⟩ := List.cons.inj h
    exact ⟨m, rfl, rfl, rfl⟩

theorem innermost_of_curly {outer : List Bracket} {n : Nat}
    (h : List.replicate n .round ++ .curly :: opened = .curly :: outer) : n = 0 := by
  cases n with
  | zero => rfl
  | succ n => cases h

/-- Parameters may open round brackets that are closed behind the arrow only. -/
theorem nest_parameters {inside rest : List Token} {m : Nat}
    (hi : ∀ token ∈ inside, token.lexeme.isParameter = true)
    (h : Token.nest (List.replicate m .round ++ .curly :: opened) (inside ++ rest) = true) :
    ∃ n, ∀ outer behind, Token.nest (List.replicate m .round ++ outer) (inside ++ behind) =
      Token.nest (List.replicate n .round ++ outer) behind := by
  induction inside generalizing m with
  | nil => exact ⟨m, fun _ _ => rfl⟩
  | cons token inside ih =>
    obtain ⟨hp, hi⟩ := List.forall_mem_cons.1 hi
    rw [List.cons_append] at h
    cases ht : token.lexeme with
    | opening bracket =>
      obtain rfl := Lexeme.round_of_isParameter hp (.inl ht)
      rw [Token.nest_opening ht, ← List.cons_append, ← List.replicate_succ] at h
      obtain ⟨n, hn⟩ := ih hi h
      refine ⟨n, fun outer behind => ?_⟩
      rw [List.cons_append, Token.nest_opening ht, ← List.cons_append, ← List.replicate_succ, hn]
    | closing bracket =>
      obtain rfl := Lexeme.round_of_isParameter hp (.inr ht)
      obtain ⟨outer, ho, h⟩ := (Token.nest_closing ht).1 h
      obtain ⟨m, rfl, _, rfl⟩ := innermost_of_ne_curly ho nofun
      obtain ⟨n, hn⟩ := ih hi h
      exact ⟨n, fun outer behind => (Token.nest_closing_cons ht).trans (hn outer behind)⟩
    | _ =>
      have hb : token.lexeme.isBracket = false := by
        rw [ht]
        rfl
      obtain ⟨n, hn⟩ := ih hi (Token.nest_of_not_isBracket hb ▸ h)
      exact ⟨n, fun outer behind => (Token.nest_of_not_isBracket hb).trans (hn outer behind)⟩

theorem sealed_readParameters {source : Source} {cursor next : Cursor}
    {parameters : Option String} (h : readParameters source cursor = (parameters, next))
    (hs : Sealed (.curly :: opened) cursor.rest) :
    ∃ n, Sealed (List.replicate n .round ++ .curly :: opened) next.rest := by
  cases parametersRead h with
  | none => exact ⟨0, hs⟩
  | @list inside arrow rest hp =>
    rw [hp.rest_eq] at hs
    obtain ⟨n, hn⟩ := nest_parameters (m := 0) hp.inside_eq hs.nest
    have harrow := hs.drop _ (List.cons_ne_nil arrow rest) ((hn _ _).symm.trans hs.nest)
    exact ⟨n, harrow.past (by rw [hp.arrow_eq]; nofun) (by rw [hp.arrow_eq]; rfl)⟩

theorem exists_visible_of_leadsOn {tokens : List Token} (h : leadsOn tokens = true) :
    ∃ token ∈ tokens, token.lexeme ≠ .lineBreak := by
  rw [leadsOn] at h
  split at h
  · cases h
  · next token rest hd =>
    have hm : token ∈ tokens := (List.dropWhile_suffix _).mem (hd ▸ List.mem_cons_self)
    refine ⟨token, hm, fun ht => ?_⟩
    rw [ht] at h
    cases h

theorem Sealed.continued {setting : Setting} {carried : Bool}
    (h : Sealed opened (token :: rest)) (ht : token.lexeme = .lineBreak)
    (harg : setting = .argument → opened ≠ [])
    (hcar : carried = true → ∃ found ∈ token :: rest, found.lexeme ≠ .lineBreak)
    (hc : (setting == .argument || carried || leadsOn rest) = true) :
    Sealed opened rest ∧ (carried = true → ∃ found ∈ rest, found.lexeme ≠ .lineBreak) := by
  have hbehind := fun hcarried => Token.exists_behind ht (hcar hcarried)
  refine ⟨h.pastBreak ht ?_, hbehind⟩
  rw [Bool.or_eq_true, Bool.or_eq_true, beq_iff_eq] at hc
  rcases hc with (harg' | hcarried) | hleads
  · exact Token.exists_behind ht (h.exists_visible (harg harg'))
  · exact hbehind hcarried
  · exact exists_visible_of_leadsOn hleads

theorem Sealed.skipClosing {cursor : Cursor} {bracket : Bracket}
    (h : Sealed (bracket :: opened) cursor.rest)
    (hc : cursor.rest = [] ∨ ∃ token rest close, cursor.rest = token :: rest ∧
      token.lexeme = .closing close ∧ some bracket = some close) :
    Sealed opened (cursor.skipClosing bracket).rest := by
  rcases hc with hr | ⟨token, rest, _, hr, ht, ⟨⟩⟩
  · exact (h.ne_nil hr).elim
  · rw [hr] at h
    obtain ⟨outer, ho, h⟩ := h.closing ht
    cases ho
    rwa [skipClosing_eq hr ht]

/-- What is left behind the phrase is sealed if what it is read from is. A phrase that is read
behind an opening bracket reads the closing one too, but for the statements of a lambda. -/
def Phrase.Seals : Phrase → Prop
  | .expression token cursor _ next | .primary token cursor _ next =>
    ∀ opened, token.lexeme.isClosing = false → token.lexeme ≠ .lineBreak →
      Sealed opened (token :: cursor.rest) → Sealed opened next.rest
  | .suffixes _ cursor _ next | .named _ _ cursor _ next | .callArguments cursor _ next
  | .trailingLambda cursor _ next =>
    ∀ opened, Sealed opened cursor.rest → Sealed opened next.rest
  | .valueArguments cursor _ next =>
    ∀ opened, Sealed (.round :: opened) cursor.rest → Sealed opened next.rest
  | .items setting carried cursor _ next =>
    ∀ opened, Sealed opened cursor.rest → (setting = .argument → opened ≠ []) →
      (carried = true → ∃ token ∈ cursor.rest, token.lexeme ≠ .lineBreak) →
        Sealed opened next.rest
  | .statements close cursor _ next =>
    close = some .curly → ∀ opened n,
      Sealed (List.replicate n .round ++ .curly :: opened) cursor.rest →
        Sealed (.curly :: opened) next.rest
  | .lambda _ cursor _ next =>
    ∀ opened, Sealed (.curly :: opened) cursor.rest → Sealed opened next.rest
  | .group bracket _ cursor _ next | .groupItems bracket cursor _ next =>
    ∀ opened, Sealed (bracket :: opened) cursor.rest → Sealed opened next.rest

theorem Derives.suffixes_isToken (h : Derives source n (.suffixes node cursor result next))
    (ht : result.isToken = true) : result = node ∧ next = cursor := by
  generalize hp : Phrase.suffixes node cursor result next = phrase at h
  induction h generalizing node cursor with
  | noSuffix =>
    cases hp
    exact ⟨rfl, rfl⟩
  | member _ _ _ _ ih | index _ _ _ _ _ _ _ ih =>
    cases hp
    obtain ⟨he, _⟩ := ih rfl
    rw [he] at ht
    cases ht
  | _ => cases hp

theorem Derives.expression_isToken (h : Derives source n (.expression token cursor node next))
    (ht : node.isToken = true) : next = cursor := by
  cases h with
  | expression hp hs =>
    obtain ⟨rfl, rfl⟩ := hs.suffixes_isToken ht
    cases hp with
    | name _ h => cases h <;> cases ht
    | braces _ h | brackets _ _ h =>
      cases h
      cases ht
    | string | literal => cases ht
    | symbol => rfl

theorem Derives.seals (h : Derives source n phrase) : phrase.Seals := by
  induction h with
  | expression _ _ ihp ihs => exact fun opened hc hl hs => ihs opened (ihp opened hc hl hs)
  | name ht _ ih =>
    exact fun opened _ hl hs => ih opened (hs.past hl (by rw [ht]; rfl))
  | braces ht _ ih | brackets ht _ _ ih => exact fun opened _ _ hs => ih opened (hs.opening ht)
  | string ht => exact fun opened _ hl hs => hs.past hl (by rw [ht]; rfl)
  | literal ht => exact fun opened _ hl hs => hs.past hl (Lexeme.isBracket_of_isLiteral ht)
  | symbol ht => exact fun opened hc hl hs => hs.past hl (Lexeme.isBracket_of_isSymbol ht hc)
  | noSuffix | noArguments | noLambda => exact fun _ hs => hs
  | member hm _ _ ihn ihs =>
    obtain ⟨_, _, _, _, ha⟩ := exists_of_memberAhead? hm
    exact fun opened hs => ihs opened (ihn opened (ha.sealed hs))
  | index _ hr ht _ _ _ ihg ihs =>
    intro opened hs
    rw [hr] at hs
    exact ihs opened (ihg opened (hs.opening ht))
  | identifier ht _ _ iha ihl | call ht _ _ _ iha ihl =>
    exact fun opened hs => ihl opened (iha opened (sealed_readTypeArguments ht hs))
  | arguments hr ht _ ih | trailing hr ht _ ih =>
    intro opened hs
    rw [hr] at hs
    exact ih opened (hs.opening ht)
  | argumentsEnd hr | groupEnd hr => exact fun opened hs => (hs.ne_nil hr).elim
  | argumentsSkip hr ht _ ih =>
    intro opened hs
    rw [hr] at hs
    exact ih opened (hs.skip .argument ht (List.cons_ne_nil _ _))
  | groupSkip hr ht _ ih =>
    intro opened hs
    rw [hr] at hs
    exact ih opened (hs.skip .argument (.inl ht) (List.cons_ne_nil _ _))
  | argumentsClose hr ht | groupClose hr ht =>
    intro opened hs
    rw [hr] at hs
    obtain ⟨outer, ho, hs⟩ := hs.closing ht
    cases ho
    rwa [if_pos rfl]
  | argument hr ht _ _ ihi iha =>
    intro opened hs
    exact iha opened (ihi _ (sealed_readArgumentName hs) (fun _ => List.cons_ne_nil _ _) nofun)
  | itemsEnd | itemsStop | itemsBreak => exact fun _ hs _ _ => hs
  | itemsContinue hr ht hc _ ih =>
    intro opened hs harg hcar
    rw [hr] at hs hcar
    obtain ⟨hs, hcar⟩ := hs.continued ht harg hcar hc
    exact ih opened hs harg hcar
  | item hr ht he _ ihe ihi =>
    intro opened hs harg hcar
    rw [hr] at hs
    refine ihi opened (ihe opened ht.2.2 ht.1 hs) harg fun hc => ?_
    rw [Bool.and_eq_true] at hc
    rw [he.expression_isToken hc.1]
    exact hs.visible_of_isCarrying hc.2
  | statementsEnd hr => exact fun _ opened n hs => (hs.ne_nil hr).elim
  | statementsSkip hr ht _ ih =>
    intro hc opened n hs
    rw [hr] at hs
    exact ih hc opened n (hs.skip .statement ht (by simp))
  | statementsClose hr ht hclose =>
    intro hc opened n hs
    have hs' := hs
    rw [hr] at hs'
    obtain ⟨outer, ho, _⟩ := hs'.closing ht
    cases hclose.symm.trans hc
    obtain rfl := innermost_of_curly ho
    exact hs
  | stray hr ht hne _ ih =>
    intro hc opened n hs
    rw [hr] at hs
    obtain ⟨outer, ho, hs⟩ := hs.closing ht
    obtain ⟨m, rfl, _, rfl⟩ := innermost_of_ne_curly ho fun hb => hne (hb ▸ hc)
    exact ih hc opened m hs
  | statement hr ht _ _ ihi ihs =>
    intro hc opened n hs
    exact ihs hc opened n (ihi _ hs nofun nofun)
  | lambda hp hd ih =>
    intro opened hs
    obtain ⟨n, hs⟩ := sealed_readParameters hp hs
    exact (ih rfl opened n hs).skipClosing hd.statements_stop
  | group _ ih => exact ih
  | groupItem hr hl hc _ _ ihe ihg =>
    intro opened hs
    rw [hr] at hs
    exact ihg opened (ihe _ hc hl hs)

end StateDiagram
