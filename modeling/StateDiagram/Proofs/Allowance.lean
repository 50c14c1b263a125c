import StateDiagram.Proofs.Reading

namespace StateDiagram

set_option autoImplicit true

/-- The reader succeeds wherever fewer tokens than that are left behind the first one. -/
def Reader.Succeeds (read : Reader) (size : Nat) : Prop :=
  ∀ token cursor, cursor.rest.length < size → (read token cursor).isSome = true

variable {read : Reader} {cursor : Cursor}

theorem Reader.Succeeds.mono (h : read.Succeeds more) (hs : size ≤ more) : read.Succeeds size :=
  fun token cursor hc => h token cursor (Nat.lt_of_lt_of_le hc hs)

theorem Reader.Succeeds.next (h : read.Succeeds cursor.rest.length)
    (hr : cursor.rest = token :: rest) : (read token (.past token rest)).isSome = true := by
  apply h
  rw [hr]
  exact Nat.lt_succ_self _

theorem Reader.Succeeds.behind (h : read.Succeeds cursor.rest.length)
    (hr : cursor.rest = token :: rest) (hs : size ≤ rest.length) : read.Succeeds size := by
  apply h.mono
  rw [hr]
  exact Nat.le_succ_of_le hs

theorem isSome_sequenceItems (h : read.Succeeds cursor.rest.length) :
    (sequenceItems read setting carried cursor).isSome = true := by
  fun_induction sequenceItems read setting carried cursor with
  | case1 | case2 | case4 | case7 | case8 => rfl
  | case3 _ _ _ _ hr _ _ _ ih => exact ih (h.behind hr (Nat.le_refl _))
  | case5 _ _ _ _ hr _ _ he =>
    have hn := h.next hr
    rw [he] at hn
    cases hn
  | case6 _ _ _ _ hr _ _ _ _ _ hle hi ih =>
    have hn := ih (h.behind hr hle)
    rw [hi] at hn
    cases hn

theorem isSome_readSequence (setting : Setting) (h : read.Succeeds cursor.rest.length) :
    (readSequence read setting cursor).isSome = true := by
  obtain ⟨found, hi⟩ := Option.isSome_iff_exists.1 (isSome_sequenceItems h)
  rw [readSequence, hi]
  rfl

theorem isSome_readStatements (close : Option Bracket) (h : read.Succeeds cursor.rest.length) :
    (readStatements read close cursor).isSome = true := by
  fun_induction readStatements read close cursor with
  | case1 | case4 | case6 | case9 | case10 => rfl
  | case2 _ _ _ hr _ ih | case3 _ _ _ hr _ ih => exact ih (h.behind hr (Nat.le_refl _))
  | case5 _ _ _ hr _ _ _ hs ih =>
    have hn := ih (h.behind hr (Nat.le_refl _))
    rw [hs] at hn
    cases hn
  | case7 _ _ _ _ hs =>
    have hn := isSome_readSequence .statement h
    rw [hs] at hn
    cases hn
  | case8 _ _ _ hr _ _ _ hle hs _ _ _ ih =>
    have hn := ih (h.behind hr hle)
    rw [hs] at hn
    cases hn

theorem isSome_readGroupItems (bracket : Bracket) (h : read.Succeeds cursor.rest.length) :
    (readGroupItems read bracket cursor).isSome = true := by
  fun_induction readGroupItems read bracket cursor with
  | case1 | case3 | case6 | case7 => rfl
  | case2 _ _ _ hr _ ih => exact ih (h.behind hr (Nat.le_refl _))
  | case4 _ _ _ hr he =>
    have hn := h.next hr
    rw [he] at hn
    cases hn
  | case5 _ _ _ hr _ _ _ hle hs _ _ ih =>
    have hn := ih (h.behind hr hle)
    rw [hs] at hn
    cases hn

theorem isSome_readValueArguments (h : read.Succeeds cursor.rest.length) :
    (readValueArguments read cursor).isSome = true := by
  fun_induction readValueArguments read cursor with
  | case1 | case4 | case7 | case8 => rfl
  | case2 _ _ _ hr _ ih | case3 _ _ _ hr _ ih => exact ih (h.behind hr (Nat.le_refl _))
  | case5 cursor _ _ _ _ _ hn hi =>
    have hle := (readArgumentName_leads cursor).suffix.length_le
    rw [hn] at hle
    have hs := isSome_readSequence .argument (h.mono hle)
    rw [hi] at hs
    cases hs
  | case6 _ _ _ hr _ _ _ _ _ _ hle ha _ _ _ =>
    rename_i ih
    have hn := ih (h.behind hr hle)
    rw [ha] at hn
    cases hn

theorem isSome_readCallArguments (h : read.Succeeds cursor.rest.length) :
    (readCallArguments read cursor).isSome = true := by
  by_cases ho : cursor.opens .round
  · obtain ⟨token, rest, hr, ht⟩ := ho
    rw [readCallArguments_of_opens hr ht, Option.isSome_map]
    exact isSome_readValueArguments (h.behind hr (Nat.le_refl _))
  · rw [readCallArguments_of_not_opens ho]
    rfl

theorem isSome_readTrailingLambda (h : read.Succeeds cursor.rest.length) :
    (readTrailingLambda read cursor).isSome = true := by
  by_cases ho : cursor.opens .curly
  · obtain ⟨token, rest, hr, ht⟩ := ho
    rw [readTrailingLambda_of_opens hr ht, Option.isSome_map]
    exact h.next hr
  · rw [readTrailingLambda_of_not_opens ho]
    rfl

/-- Enough levels are left for what stands inside an expression. -/
structure Enough (source : Source) (n size : Nat) : Prop where
  argument : (expressionWithin source n).Succeeds size
  lambda : (lambdaWithin source n).Succeeds (size + 1)
  group (bracket : Bracket) : (groupWithin source n bracket).Succeeds (size + 1)

namespace Enough

variable {source : Source}

theorem mono (h : Enough source n more) (hs : size ≤ more) : Enough source n size :=
  ⟨h.argument.mono hs, h.lambda.mono (Nat.succ_le_succ hs), fun bracket =>
    (h.group bracket).mono (Nat.succ_le_succ hs)⟩

theorem named (h : Enough source n cursor.rest.length) (text : String) (span : Span) :
    (readNamed (interiorWithin source n) text span cursor).isSome = true := by
  have ht := (readTypeArguments_leads (Prod.eta (readTypeArguments cursor)).symm).suffix.length_le
  obtain ⟨⟨arguments, next⟩, ha⟩ :=
    Option.isSome_iff_exists.1 (isSome_readCallArguments (h.argument.mono ht))
  have hle := ((Level.all source n).callArguments ha).suffix.length_le
  simp only [Phrase.cursors] at hle
  have hl := isSome_readTrailingLambda
    (h.lambda.mono (Nat.le_succ_of_le (Nat.le_trans hle ht)))
  obtain ⟨found, hl⟩ := Option.isSome_iff_exists.1 hl
  simp only [readNamed, interiorWithin, ha, hl]
  split <;> rfl

theorem primary (h : Enough source n cursor.rest.length) (token : Token) :
    (readPrimary (interiorWithin source n) token cursor).isSome = true := by
  rw [readPrimary]
  split
  · exact h.named ..
  · exact h.lambda _ _ (Nat.lt_succ_self _)
  · exact h.group _ _ _ (Nat.lt_succ_self _)
  all_goals rfl

theorem suffixes (h : Enough source n cursor.rest.length) :
    (readSuffixes (interiorWithin source n) node cursor).isSome = true := by
  fun_induction readSuffixes (interiorWithin source n) node cursor with
  | case3 | case4 | case7 | case8 => rfl
  | case1 _ cursor member hm hn =>
    obtain ⟨dot, name, hs⟩ := memberAhead?_suffix hm
    have hle := hs.length_le
    rw [List.length_cons, List.length_cons] at hle
    have hs := (h.mono (Nat.le_trans (Nat.le_add_right _ 2) hle)).named member.text member.span
    rw [hn] at hs
    cases hs
  | case2 _ _ _ _ _ _ _ _ _ hlt ih => exact ih (h.mono (Nat.le_of_lt hlt))
  | case5 _ cursor _ token rest hr _ hg =>
    have hlt : (Cursor.past token rest).rest.length < cursor.rest.length + 1 := by
      rw [hr]
      exact Nat.lt_add_of_pos_right (Nat.succ_pos 1)
    have hs : ((interiorWithin source n).group .square token (.past token rest)).isSome = true :=
      h.group .square token _ hlt
    rw [hg] at hs
    cases hs
  | case6 _ _ _ _ _ _ _ _ _ _ _ hlt ih => exact ih (h.mono (Nat.le_of_lt hlt))

theorem expression (h : Enough source n cursor.rest.length) :
    (readExpression (interiorWithin source n) token cursor).isSome = true := by
  obtain ⟨⟨node, next⟩, hp⟩ := Option.isSome_iff_exists.1 (h.primary token)
  have hle := ((Level.all source n).primary hp).suffix.length_le
  rw [readExpression, hp]
  exact (h.mono hle).suffixes

end Enough

theorem succeeds_readLambda {source : Source} (h : read.Succeeds size) :
    (readLambda source read).Succeeds (size + 1) := by
  intro token cursor hc
  have hle := (readParameters_leads (Prod.eta (readParameters source cursor)).symm).suffix.length_le
  have hs := isSome_readStatements (some .curly)
    (h.mono (Nat.le_trans hle (Nat.le_of_lt_succ hc)))
  obtain ⟨found, hs⟩ := Option.isSome_iff_exists.1 hs
  simp only [readLambda, hs]
  rfl

theorem succeeds_readGroup (h : read.Succeeds size) (bracket : Bracket) :
    (readGroup read bracket).Succeeds (size + 1) := by
  intro token cursor hc
  have hs := isSome_readGroupItems bracket (h.mono (Nat.le_of_lt_succ hc))
  obtain ⟨found, hs⟩ := Option.isSome_iff_exists.1 hs
  rw [readGroup, hs]
  rfl

/-- An expression needs two levels for a token more, and what stands in it one level less. -/
theorem succeeds_of_half (source : Source) (n : Nat) :
    (expressionWithin source n).Succeeds (n / 2) ∧
      (lambdaWithin source n).Succeeds ((n + 1) / 2) ∧
        ∀ bracket, (groupWithin source n bracket).Succeeds ((n + 1) / 2) := by
  induction n with
  | zero => exact ⟨nofun, nofun, nofun⟩
  | succ n ih =>
    obtain ⟨he, hl, hg⟩ := ih
    have hhalf : (n + 1 + 1) / 2 = n / 2 + 1 := by omega
    rw [hhalf]
    refine ⟨?_, succeeds_readLambda he, succeeds_readGroup he⟩
    intro token cursor hc
    have henough : Enough source n cursor.rest.length :=
      ⟨he.mono (by omega), hl.mono hc, fun bracket => (hg bracket).mono hc⟩
    exact henough.expression

/-- A limit of twice the number of tokens is enough for any source. -/
theorem Source.isSome_outline? {source : Source} {limit : Nat}
    (h : 2 * source.tokens.length ≤ limit) : (source.outline? limit).isSome = true := by
  have hle : source.tokens.length ≤ limit / 2 := by omega
  have he : (expressionWithin source limit).Succeeds source.tokens.length :=
    (succeeds_of_half source limit).1.mono hle
  have hs : (readStatements (expressionWithin source limit) none ⟨0, source.tokens⟩).isSome =
    true := isSome_readStatements none he
  obtain ⟨found, hs⟩ := Option.isSome_iff_exists.1 hs
  rw [outline?, hs]
  rfl

end StateDiagram
