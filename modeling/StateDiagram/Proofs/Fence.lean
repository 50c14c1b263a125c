import StateDiagram.Proofs.Extent
import StateDiagram.Proofs.Segment

namespace StateDiagram

set_option autoImplicit true

/-- The tokens close the open brackets and all that they open, and there is neither a comma nor an
angle bracket where no bracket is open. -/
inductive Guarded : List Bracket → List Token → Prop where
  | nil : Guarded [] []
  | opening (ht : token.lexeme = .opening bracket) (h : Guarded (bracket :: opened) tokens) :
      Guarded opened (token :: tokens)
  | closing (ht : token.lexeme = .closing bracket) (h : Guarded opened tokens) :
      Guarded (bracket :: opened) (token :: tokens)
  | plain (hb : token.lexeme.isBracket = false)
      (hc : opened = [] → token.lexeme ≠ .operator "," ∧ token.lexeme ≠ .operator "<")
      (h : Guarded opened tokens) : Guarded opened (token :: tokens)

def Lexeme.EndsArgument (lexeme : Lexeme) : Prop :=
  lexeme = .operator "," ∨ lexeme.isClosing = true

/-- The tokens are guarded up to the one at which an argument stops. -/
def Fenced (stop : Token) (behind : List Token) (opened : List Bracket) (tokens : List Token) :
    Prop :=
  stop.lexeme.EndsArgument ∧ ∃ front, tokens = front ++ stop :: behind ∧ Guarded opened front

namespace Fenced

variable {stop token : Token} {behind rest tokens : List Token} {opened : List Bracket}
  {bracket : Bracket}

theorem intro (hs : stop.lexeme.EndsArgument) (h : Guarded opened front) :
    Fenced stop behind opened (front ++ stop :: behind) := ⟨hs, front, rfl, h⟩

theorem ne_nil (h : Fenced stop behind opened tokens) : tokens ≠ [] := by
  obtain ⟨_, front, rfl, _⟩ := h
  simp

theorem cases_cons (h : Fenced stop behind opened (token :: rest)) :
    opened = [] ∧ token = stop ∧ rest = behind ∨
      ∃ front, rest = front ++ stop :: behind ∧ Guarded opened (token :: front) := by
  obtain ⟨_, front, ht, hg⟩ := h
  cases front with
  | nil =>
    cases ht
    cases hg
    exact .inl ⟨rfl, rfl, rfl⟩
  | cons first front =>
    cases ht
    exact .inr ⟨front, rfl, hg⟩

theorem opening (h : Fenced stop behind opened (token :: rest))
    (ht : token.lexeme = .opening bracket) : Fenced stop behind (bracket :: opened) rest := by
  rcases h.cases_cons with ⟨_, rfl, _⟩ | ⟨front, rfl, hg⟩
  · have hs := h.1
    rw [ht] at hs
    rcases hs with hs | hs <;> cases hs
  · cases hg with
    | opening he hg =>
      rw [ht] at he
      cases he
      exact .intro h.1 hg
    | closing he =>
      rw [ht] at he
      cases he
    | plain hb =>
      rw [ht] at hb
      cases hb

theorem closing (h : Fenced stop behind opened (token :: rest)) (hne : opened ≠ [])
    (ht : token.lexeme = .closing bracket) :
    ∃ outer, opened = bracket :: outer ∧ Fenced stop behind outer rest := by
  rcases h.cases_cons with ⟨he, _⟩ | ⟨front, rfl, hg⟩
  · exact (hne he).elim
  · cases hg with
    | opening he =>
      rw [ht] at he
      cases he
    | closing he hg =>
      rw [ht] at he
      cases he
      exact ⟨_, rfl, .intro h.1 hg⟩
    | plain hb =>
      rw [ht] at hb
      cases hb

theorem past (h : Fenced stop behind opened (token :: rest)) (hb : token.lexeme.isBracket = false)
    (hc : opened = [] → token.lexeme ≠ .operator ",") : Fenced stop behind opened rest := by
  rcases h.cases_cons with ⟨ho, rfl, _⟩ | ⟨front, rfl, hg⟩
  · rcases h.1 with hs | hs
    · exact (hc ho hs).elim
    · rw [Lexeme.isClosing_of_not_isBracket hb] at hs
      cases hs
  · cases hg with
    | opening he | closing he =>
      rw [he] at hb
      cases hb
    | plain _ _ hg => exact .intro h.1 hg

theorem pass (front : List Token) (h : Fenced stop behind opened (front ++ rest))
    (hf : ∀ token ∈ front,
      token.lexeme.isBracket = false ∧ (opened = [] → token.lexeme ≠ .operator ",")) :
    Fenced stop behind opened rest := by
  induction front with
  | nil => exact h
  | cons token front ih =>
    obtain ⟨ht, hf⟩ := List.forall_mem_cons.1 hf
    exact ih (h.past ht.1 ht.2) hf

/-- No list of types stands where no bracket is open. -/
theorem opened_ne_nil (h : Fenced stop behind opened (token :: rest))
    (ht : token.lexeme = .operator "<") : opened ≠ [] := by
  rintro rfl
  rcases h.cases_cons with ⟨_, rfl, _⟩ | ⟨front, rfl, hg⟩
  · have hs := h.1
    rw [ht] at hs
    rcases hs with hs | hs
    · exact absurd hs (by decide)
    · cases hs
  · cases hg with
    | opening he =>
      rw [ht] at he
      cases he
    | plain _ hc => exact (hc rfl).2 ht

theorem skip (setting : Setting) (h : Fenced stop behind opened (token :: rest))
    (ht : token.lexeme = .lineBreak ∨ token.lexeme = setting.separator) (hne : opened ≠ []) :
    Fenced stop behind opened rest := by
  apply h.past _ fun ho => (hne ho).elim
  rcases ht with ht | ht
  · rw [ht]
    rfl
  · rw [ht]
    cases setting <;> rfl

theorem lineBreak (h : Fenced stop behind opened (token :: rest)) (ht : token.lexeme = .lineBreak) :
    Fenced stop behind opened rest := by
  apply h.past
  · rw [ht]
    rfl
  · intro _ hc
    rw [ht] at hc
    cases hc

end Fenced

/-- The cursor stands right behind a token that was passed and is no line break. -/
def Cursor.Closes (cursor next : Cursor) : Prop :=
  ∃ passed token rest, cursor.rest = passed ++ token :: rest ∧ next = .past token rest ∧
    token.lexeme ≠ .lineBreak

namespace Cursor.Closes

variable {cursor mid next : Cursor} {token : Token} {rest : List Token} {bracket : Bracket}

theorem closing (hr : cursor.rest = token :: rest) (ht : token.lexeme = .closing bracket) :
    cursor.Closes (.past token rest) := by
  refine ⟨[], token, rest, hr, rfl, ?_⟩
  intro hl
  rw [ht] at hl
  cases hl

theorem prepend (h : mid.Closes next) (hl : cursor.Leads mid) : cursor.Closes next := by
  obtain ⟨passed, token, rest, hr, hn, ht⟩ := h
  cases hl with
  | refl => exact ⟨passed, token, rest, hr, hn, ht⟩
  | @past ahead dot behind hc =>
    refine ⟨ahead ++ dot :: passed, token, rest, ?_, hn, ht⟩
    rw [hc, List.append_assoc, List.cons_append]
    exact congrArg (ahead ++ dot :: ·) hr

end Cursor.Closes

/-- The cursor did not move, or stands behind a token that is no line break. -/
def Cursor.Halts (cursor next : Cursor) : Prop := next = cursor ∨ cursor.Closes next

namespace Cursor.Halts

variable {cursor mid next : Cursor}

theorem refl (cursor : Cursor) : cursor.Halts cursor := .inl rfl

theorem trans (h : cursor.Halts mid) (hn : mid.Halts next) : cursor.Halts next := by
  rcases hn with rfl | hn
  · exact h
  · rcases h with rfl | ⟨passed, token, rest, hr, rfl, _⟩
    · exact .inr hn
    · exact .inr (hn.prepend (.past hr))

end Cursor.Halts

section

variable {stop token : Token} {behind tokens rest : List Token} {opened : List Bracket}

theorem Member.Ahead.fenced {member : Member} (h : member.Ahead tokens breaks dot name rest)
    (hf : Fenced stop behind opened tokens) : Fenced stop behind opened member.next.rest := by
  have hcomma : ∀ token ∈ breaks ++ [dot] ++ [name], token.lexeme ≠ .operator "," := by
    refine List.forall_mem_append.2 ⟨List.forall_mem_append.2 ⟨fun token hm => ?_, ?_⟩, ?_⟩
    · rw [h.breaks_eq token hm]
      nofun
    · rw [List.forall_mem_singleton, h.dot_eq]
      cases member.safe <;> decide
    · rw [List.forall_mem_singleton, h.name_eq]
      nofun
  rw [h.passed_eq, List.append_cons] at hf
  rw [h.next_eq]
  exact hf.pass _ fun token hm => ⟨h.isBracket_eq_false token hm, fun _ => hcomma token hm⟩

theorem Member.Ahead.closes {cursor : Cursor} {member : Member}
    (h : member.Ahead cursor.rest breaks dot name rest) : cursor.Closes member.next := by
  refine ⟨breaks ++ [dot], name, rest, h.passed_eq, h.next_eq, ?_⟩
  rw [h.name_eq]
  nofun

theorem TypeList.fenced {cursor : Cursor} (h : TypeList cursor opener inside close rest)
    (hf : Fenced stop behind opened cursor.rest) : Fenced stop behind opened rest := by
  rw [h.rest_eq] at hf
  have hne := hf.opened_ne_nil h.opener_eq
  rw [← List.cons_append, List.append_cons] at hf
  exact hf.pass _ fun token hm => ⟨h.isBracket_eq_false token hm, fun ho => (hne ho).elim⟩

theorem fenced_readTypeArguments {cursor next : Cursor} {types : List Outline}
    (h : readTypeArguments cursor = (types, next)) (hf : Fenced stop behind opened cursor.rest) :
    Fenced stop behind opened next.rest ∧ cursor.Halts next := by
  cases typesRead h with
  | none => exact ⟨hf, .refl _⟩
  | @list opener inside close rest hl =>
    refine ⟨hl.fenced hf, .inr ⟨opener :: inside, close, rest, hl.rest_eq, rfl, ?_⟩⟩
    rw [hl.close_eq]
    nofun

theorem fenced_readArgumentName {cursor : Cursor} (hne : opened ≠ [])
    (hf : Fenced stop behind opened cursor.rest) :
    Fenced stop behind opened (readArgumentName cursor).2.rest := by
  rcases readArgumentName_eq cursor with h | ⟨name, sign, rest, text, hr, hn, hg, h⟩
  · rw [h]
    exact hf
  · rw [h]
    rw [hr] at hf
    have hsign := hf.past (by rw [hn]; rfl) fun ho => (hne ho).elim
    exact hsign.past (by rw [hg]; rfl) fun ho => (hne ho).elim

/-- Parameters may open round brackets that are closed behind the arrow only. -/
theorem fenced_parameters {inside : List Token} {n : Nat}
    (hi : ∀ token ∈ inside, token.lexeme.isParameter = true)
    (h : Fenced stop behind (List.replicate n .round ++ .curly :: opened) (inside ++ rest)) :
    ∃ n, Fenced stop behind (List.replicate n .round ++ .curly :: opened) rest := by
  induction inside generalizing n with
  | nil => exact ⟨n, h⟩
  | cons token inside ih =>
    obtain ⟨hp, hi⟩ := List.forall_mem_cons.1 hi
    have hne : List.replicate n .round ++ .curly :: opened ≠ [] := by simp
    rw [List.cons_append] at h
    cases ht : token.lexeme with
    | opening bracket =>
      obtain rfl := Lexeme.round_of_isParameter hp (.inl ht)
      have ho := h.opening ht
      rw [← List.cons_append, ← List.replicate_succ] at ho
      exact ih hi ho
    | closing bracket =>
      obtain rfl := Lexeme.round_of_isParameter hp (.inr ht)
      obtain ⟨outer, ho, h⟩ := h.closing hne ht
      obtain ⟨m, rfl, _, rfl⟩ := innermost_of_ne_curly ho nofun
      exact ih hi h
    | _ => exact ih hi (h.past (by rw [ht]; rfl) fun ho => (hne ho).elim)

theorem fenced_readParameters {source : Source} {cursor next : Cursor}
    {parameters : Option String} (h : readParameters source cursor = (parameters, next))
    (hf : Fenced stop behind (.curly :: opened) cursor.rest) :
    ∃ n, Fenced stop behind (List.replicate n .round ++ .curly :: opened) next.rest := by
  cases parametersRead h with
  | none => exact ⟨0, hf⟩
  | list hp =>
    rw [hp.rest_eq] at hf
    obtain ⟨n, hn⟩ := fenced_parameters (n := 0) hp.inside_eq hf
    exact ⟨n, hn.past (by rw [hp.arrow_eq]; rfl) fun ho => absurd ho (by simp)⟩

theorem Fenced.skipClosing {cursor : Cursor} {bracket : Bracket}
    (h : Fenced stop behind (bracket :: opened) cursor.rest)
    (hc : cursor.rest = [] ∨ ∃ token rest close, cursor.rest = token :: rest ∧
      token.lexeme = .closing close ∧ some bracket = some close) :
    Fenced stop behind opened (cursor.skipClosing bracket).rest ∧
      cursor.Closes (cursor.skipClosing bracket) := by
  rcases hc with hr | ⟨token, rest, _, hr, ht, ⟨⟩⟩
  · exact (h.ne_nil hr).elim
  · rw [hr] at h
    obtain ⟨outer, ho, h⟩ := h.closing (List.cons_ne_nil _ _) ht
    cases ho
    rw [skipClosing_eq hr ht]
    exact ⟨h, .closing hr ht⟩

end

/-- What is read from fenced tokens leaves fenced tokens behind. It ends with a token that is no
line break, and behind an opening bracket that token is the closing one. -/
def Phrase.Fences (stop : Token) (behind : List Token) : Phrase → Prop
  | .expression token cursor _ next | .primary token cursor _ next =>
    ∀ opened, token.lexeme.isClosing = false → (opened = [] → token.lexeme ≠ .operator ",") →
      Fenced stop behind opened (token :: cursor.rest) →
        Fenced stop behind opened next.rest ∧ cursor.Halts next
  | .suffixes _ cursor _ next | .named _ _ cursor _ next | .callArguments cursor _ next
  | .trailingLambda cursor _ next =>
    ∀ opened, Fenced stop behind opened cursor.rest →
      Fenced stop behind opened next.rest ∧ cursor.Halts next
  | .valueArguments cursor _ next =>
    ∀ opened, Fenced stop behind (.round :: opened) cursor.rest →
      Fenced stop behind opened next.rest ∧ cursor.Closes next
  | .items setting _ cursor _ next =>
    ∀ opened, (opened = [] → setting = .argument) → Fenced stop behind opened cursor.rest →
      Fenced stop behind opened next.rest
  | .statements close cursor _ next =>
    close = some .curly → ∀ opened n,
      Fenced stop behind (List.replicate n .round ++ .curly :: opened) cursor.rest →
        Fenced stop behind (.curly :: opened) next.rest
  | .lambda _ cursor _ next =>
    ∀ opened, Fenced stop behind (.curly :: opened) cursor.rest →
      Fenced stop behind opened next.rest ∧ cursor.Closes next
  | .group bracket _ cursor _ next | .groupItems bracket cursor _ next =>
    ∀ opened, Fenced stop behind (bracket :: opened) cursor.rest →
      Fenced stop behind opened next.rest ∧ cursor.Closes next

namespace Phrase.Fences

variable {stop token : Token} {behind rest : List Token} {cursor mid next : Cursor}
  {node group : Outline} {nodes items : List Outline}

theorem name (ht : token.lexeme = .identifier text)
    (hn : (named text token.span cursor node next).Fences stop behind) :
    (primary token cursor node next).Fences stop behind := by
  intro opened _ _ hf
  refine hn opened (hf.past ?_ fun _ hc => ?_)
  · rw [ht]
    rfl
  · rw [ht] at hc
    cases hc

theorem member {found : Member} (hm : memberAhead? cursor = some found)
    (hn : (named found.text found.span found.next selector mid).Fences stop behind)
    (hs : (suffixes access mid result next).Fences stop behind) :
    (suffixes node cursor result next).Fences stop behind := by
  intro opened hf
  obtain ⟨_, _, _, _, ha⟩ := exists_of_memberAhead? hm
  obtain ⟨hmid, hl⟩ := hn opened (ha.fenced hf)
  obtain ⟨hnext, hl'⟩ := hs opened hmid
  exact ⟨hnext, .trans (.inr ha.closes) (hl.trans hl')⟩

theorem index (hr : cursor.rest = token :: rest) (ht : token.lexeme = .opening .square)
    (hg : (Phrase.group .square token (.past token rest) group mid).Fences stop behind)
    (hs : (suffixes indexed mid result next).Fences stop behind) :
    (suffixes node cursor result next).Fences stop behind := by
  intro opened hf
  rw [hr] at hf
  obtain ⟨hmid, hl⟩ := hg opened (hf.opening ht)
  obtain ⟨hnext, hl'⟩ := hs opened hmid
  exact ⟨hnext, .trans (.inr (hl.prepend (.head hr))) hl'⟩

theorem called (ht : readTypeArguments cursor = (types, behindTypes))
    (ha : (callArguments behindTypes arguments behindArguments).Fences stop behind)
    (hl : (trailingLambda behindArguments trailing next).Fences stop behind) :
    (named text span cursor node next).Fences stop behind := by
  intro opened hf
  obtain ⟨htypes, hhalts⟩ := fenced_readTypeArguments ht hf
  obtain ⟨hmid, hhalts'⟩ := ha opened htypes
  obtain ⟨hnext, hhalts''⟩ := hl opened hmid
  exact ⟨hnext, hhalts.trans (hhalts'.trans hhalts'')⟩

theorem argument (hl : (readArgumentName cursor).2.Leads mid)
    (hi : (Phrase.items .argument false (readArgumentName cursor).2 items mid).Fences stop behind)
    (ha : (valueArguments mid arguments next).Fences stop behind) :
    (valueArguments cursor nodes next).Fences stop behind := by
  intro opened hf
  have hname := fenced_readArgumentName (List.cons_ne_nil _ _) hf
  have hmid := hi (.round :: opened) (fun ho => (List.cons_ne_nil _ _ ho).elim) hname
  obtain ⟨hnext, hcloses⟩ := ha opened hmid
  exact ⟨hnext, hcloses.prepend ((readArgumentName_leads cursor).trans hl)⟩

theorem item (hr : cursor.rest = token :: rest) (ht : setting.Starts token.lexeme)
    (he : (expression token (.past token rest) node mid).Fences stop behind)
    (hi : (Phrase.items setting carrying mid items next).Fences stop behind) :
    (Phrase.items setting carried cursor nodes next).Fences stop behind := by
  intro opened hs hf
  rw [hr] at hf
  refine hi opened hs (he opened ht.2.2 (fun ho => ?_) hf).1
  obtain rfl := hs ho
  exact ht.2.1

theorem statementsClose (hr : cursor.rest = token :: rest) (ht : token.lexeme = .closing bracket)
    (hclose : close = some bracket) :
    (statements close cursor nodes cursor).Fences stop behind := by
  intro hc opened n hf
  cases hclose.symm.trans hc
  have hf' := hf
  rw [hr] at hf'
  obtain ⟨outer, ho, _⟩ := hf'.closing (by simp) ht
  obtain rfl := innermost_of_curly ho
  exact hf

/-- A round bracket that the parameters of the lambda left open. -/
theorem stray (hr : cursor.rest = token :: rest) (ht : token.lexeme = .closing bracket)
    (hne : close ≠ some bracket)
    (hs : (statements close (.past token rest) nodes next).Fences stop behind) :
    (statements close cursor (.token token.span :: nodes) next).Fences stop behind := by
  intro hc opened n hf
  rw [hr] at hf
  obtain ⟨outer, ho, hf⟩ := hf.closing (by simp) ht
  obtain ⟨m, rfl, _, rfl⟩ := innermost_of_ne_curly ho fun hb => hne (hb ▸ hc)
  exact hs hc opened m hf

theorem groupItem (hr : cursor.rest = token :: rest) (hc : token.lexeme.isClosing = false)
    (hl : (Cursor.past token rest).Leads mid)
    (he : (expression token (.past token rest) node mid).Fences stop behind)
    (hg : (groupItems bracket mid items next).Fences stop behind) :
    (groupItems bracket cursor nodes next).Fences stop behind := by
  intro opened hf
  rw [hr] at hf
  obtain ⟨hmid, _⟩ := he _ hc (fun ho => (List.cons_ne_nil _ _ ho).elim) hf
  obtain ⟨hnext, hcloses⟩ := hg opened hmid
  exact ⟨hnext, hcloses.prepend ((Cursor.Leads.head hr).trans hl)⟩

end Phrase.Fences

theorem Derives.fences (h : Derives source n phrase) (stop : Token) (behind : List Token) :
    phrase.Fences stop behind := by
  induction h with
  | expression _ _ ihp ihs =>
    intro opened hc ho hf
    obtain ⟨hmid, hl⟩ := ihp opened hc ho hf
    obtain ⟨hnext, hl'⟩ := ihs opened hmid
    exact ⟨hnext, hl.trans hl'⟩
  | name ht _ ih => exact .name ht ih
  | braces ht _ ih | brackets ht _ _ ih =>
    intro opened _ _ hf
    obtain ⟨hnext, hl⟩ := ih opened (hf.opening ht)
    exact ⟨hnext, .inr hl⟩
  | string ht => exact fun opened _ ho hf => ⟨hf.past (by rw [ht]; rfl) ho, .refl _⟩
  | literal ht =>
    exact fun opened _ ho hf => ⟨hf.past (Lexeme.isBracket_of_isLiteral ht) ho, .refl _⟩
  | symbol ht =>
    exact fun opened hc ho hf => ⟨hf.past (Lexeme.isBracket_of_isSymbol ht hc) ho, .refl _⟩
  | noSuffix | noArguments | noLambda => exact fun _ hf => ⟨hf, .refl _⟩
  | member hm _ _ ihn ihs => exact .member hm ihn ihs
  | index _ hr ht _ _ _ ihg ihs => exact .index hr ht ihg ihs
  | identifier ht _ _ iha ihl | call ht _ _ _ iha ihl => exact .called ht iha ihl
  | arguments hr ht _ ih | trailing hr ht _ ih =>
    intro opened hf
    rw [hr] at hf
    obtain ⟨hnext, hl⟩ := ih opened (hf.opening ht)
    exact ⟨hnext, .inr (hl.prepend (.head hr))⟩
  | argumentsEnd hr | groupEnd hr => exact fun opened hf => (hf.ne_nil hr).elim
  | argumentsSkip hr ht _ ih =>
    intro opened hf
    rw [hr] at hf
    obtain ⟨hnext, hl⟩ := ih opened (hf.skip .argument ht (List.cons_ne_nil _ _))
    exact ⟨hnext, hl.prepend (.head hr)⟩
  | groupSkip hr ht _ ih =>
    intro opened hf
    rw [hr] at hf
    obtain ⟨hnext, hl⟩ := ih opened (hf.lineBreak ht)
    exact ⟨hnext, hl.prepend (.head hr)⟩
  | argumentsClose hr ht | groupClose hr ht =>
    intro opened hf
    rw [hr] at hf
    obtain ⟨outer, ho, hf⟩ := hf.closing (List.cons_ne_nil _ _) ht
    cases ho
    rw [if_pos rfl]
    exact ⟨hf, .closing hr ht⟩
  | argument _ _ hi _ ihi iha => exact .argument hi.leads ihi iha
  | itemsEnd | itemsStop | itemsBreak => exact fun _ _ hf => hf
  | itemsContinue hr ht _ _ ih =>
    intro opened hs hf
    rw [hr] at hf
    exact ih opened hs (hf.lineBreak ht)
  | item hr ht _ _ ihe ihi => exact .item hr ht ihe ihi
  | statementsEnd hr => exact fun _ opened n hf => (hf.ne_nil hr).elim
  | statementsSkip hr ht _ ih =>
    intro hc opened n hf
    rw [hr] at hf
    exact ih hc opened n (hf.skip .statement ht (by simp))
  | statementsClose hr ht hclose => exact .statementsClose hr ht hclose
  | stray hr ht hne _ ih => exact .stray hr ht hne ih
  | statement _ _ _ _ ihi ihs =>
    intro hc opened n hf
    exact ihs hc opened n (ihi _ (by simp) hf)
  | lambda hp hd ih =>
    intro opened hf
    obtain ⟨n, hmid⟩ := fenced_readParameters hp hf
    obtain ⟨hnext, hl⟩ := (ih rfl opened n hmid).skipClosing hd.statements_stop
    exact ⟨hnext, hl.prepend ((readParameters_leads hp).trans hd.leads)⟩
  | group _ ih => exact ih
  | groupItem hr _ hc he _ ihe ihg => exact .groupItem hr hc he.leads ihe ihg

end StateDiagram
