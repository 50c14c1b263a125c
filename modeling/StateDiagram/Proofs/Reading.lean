import StateDiagram.Proofs.Readers
import StateDiagram.Syntax.Parse

namespace StateDiagram

set_option autoImplicit true

def interiorWithin (source : Source) (n : Nat) : Interior where
  argument := expressionWithin source n
  lambda := lambdaWithin source n
  group := groupWithin source n

theorem interiorWithin_argument (source : Source) (n : Nat) :
    (interiorWithin source n).argument = expressionWithin source n := rfl

theorem interiorWithin_lambda (source : Source) (n : Nat) :
    (interiorWithin source n).lambda = lambdaWithin source n := rfl

theorem interiorWithin_group (source : Source) (n : Nat) :
    (interiorWithin source n).group = groupWithin source n := rfl

theorem expressionWithin_succ (source : Source) (n : Nat) :
    expressionWithin source (n + 1) = readExpression (interiorWithin source n) := rfl

theorem lambdaWithin_succ (source : Source) (n : Nat) :
    lambdaWithin source (n + 1) = readLambda source (expressionWithin source n) := rfl

theorem groupWithin_succ (source : Source) (n : Nat) :
    groupWithin source (n + 1) = readGroup (expressionWithin source n) := rfl

/-- The reader of the phrase answers with the nodes and the cursor of the phrase. -/
def Phrase.IsRead (source : Source) (n : Nat) : Phrase → Prop
  | .expression token cursor node next =>
    expressionWithin source n token cursor = some (node, next)
  | .primary token cursor node next =>
    readPrimary (interiorWithin source n) token cursor = some (node, next)
  | .suffixes node cursor result next =>
    readSuffixes (interiorWithin source n) node cursor = some (result, next)
  | .named text span cursor node next =>
    readNamed (interiorWithin source n) text span cursor = some (node, next)
  | .callArguments cursor nodes next =>
    readCallArguments (expressionWithin source n) cursor = some (nodes, next)
  | .trailingLambda cursor node next =>
    readTrailingLambda (lambdaWithin source n) cursor = some (node, next)
  | .valueArguments cursor nodes next =>
    readValueArguments (expressionWithin source n) cursor = some (nodes, next)
  | .items setting carried cursor nodes next =>
    sequenceItems (expressionWithin source n) setting carried cursor = some (nodes, next)
  | .statements close cursor nodes next =>
    readStatements (expressionWithin source n) close cursor = some (nodes, next)
  | .lambda token cursor node next => lambdaWithin source n token cursor = some (node, next)
  | .group bracket token cursor node next =>
    groupWithin source n bracket token cursor = some (node, next)
  | .groupItems bracket cursor nodes next =>
    readGroupItems (expressionWithin source n) bracket cursor = some (nodes, next)

theorem Setting.starts_of_not {setting : Setting} {lexeme : Lexeme}
    (hc : ¬ (lexeme.isClosing || lexeme == setting.separator) = true)
    (hl : ¬ lexeme.isLineBreak = true) : setting.Starts lexeme := by
  simp only [Bool.or_eq_true, beq_iff_eq, not_or, Bool.not_eq_true] at hc
  exact ⟨fun h => hl (Lexeme.isLineBreak_iff.2 h), hc.2, hc.1⟩

/-- What is read with `n` levels left has derivations. -/
structure Level (source : Source) (n : Nat) : Prop where
  expression : expressionWithin source n token cursor = some (node, next) →
    Derives source n (.expression token cursor node next)
  lambda : lambdaWithin source n token cursor = some (node, next) →
    Derives source n (.lambda token cursor node next)
  group : groupWithin source n bracket token cursor = some (node, next) →
    Derives source n (.group bracket token cursor node next)

namespace Level

theorem items (level : Level source n)
    (h : sequenceItems (expressionWithin source n) setting carried cursor = some (nodes, next)) :
    Derives source n (.items setting carried cursor nodes next) := by
  fun_induction sequenceItems (expressionWithin source n) setting carried cursor
    generalizing nodes next with
  | case1 _ _ hr =>
    cases h
    exact .itemsEnd hr
  | case2 _ _ _ _ hr ht =>
    cases h
    exact .itemsStop hr (by simpa using ht)
  | case3 _ _ _ _ hr _ ht hs ih => exact .itemsContinue hr (Lexeme.isLineBreak_iff.1 ht) hs (ih h)
  | case4 _ _ _ _ hr _ ht hs =>
    cases h
    exact .itemsBreak hr (Lexeme.isLineBreak_iff.1 ht) (Bool.eq_false_iff.2 hs)
  | case5 | case6 => cases h
  | case7 _ _ _ _ hr hc hl _ _ he _ _ _ hi ih =>
    cases h
    exact .item hr (Setting.starts_of_not hc hl) (level.expression he) (ih hi)
  | case8 _ _ _ _ _ _ _ _ _ he hn => exact (hn (level.expression he).suffix.length_le).elim

theorem sequence (level : Level source n)
    (h : readSequence (expressionWithin source n) setting cursor = some (node, next)) :
    ∃ nodes, node = collapse nodes ∧
      Derives source n (.items setting false cursor nodes next) := by
  rw [readSequence] at h
  split at h
  · cases h
  · next nodes stop hi =>
    cases h
    exact ⟨nodes, rfl, level.items hi⟩

theorem statements (level : Level source n)
    (h : readStatements (expressionWithin source n) close cursor = some (nodes, next)) :
    Derives source n (.statements close cursor nodes next) := by
  fun_induction readStatements (expressionWithin source n) close cursor
    generalizing nodes next with
  | case1 _ hr =>
    cases h
    exact .statementsEnd hr
  | case2 _ _ _ hr ht ih => exact .statementsSkip hr (.inl ht) (ih h)
  | case3 _ _ _ hr ht ih => exact .statementsSkip hr (.inr ht) (ih h)
  | case4 _ _ _ hr _ ht hc =>
    cases h
    exact .statementsClose hr ht hc.symm
  | case5 | case7 | case8 => cases h
  | case6 _ _ _ hr _ ht hc _ _ hs ih =>
    cases h
    exact .stray hr ht (Ne.symm hc) (ih hs)
  | case9 _ _ _ hr _ _ hi _ _ _ hs hl ho hc ih =>
    cases h
    obtain ⟨nodes, rfl, hd⟩ := level.sequence hi
    exact .statement hr ⟨hl, ho, Lexeme.isClosing_eq_false hc⟩ hd (ih hs)
  | case10 _ _ _ hr _ _ hi hn hl ho hc =>
    obtain ⟨nodes, rfl, hd⟩ := level.sequence hi
    exact (hn (hd.items_suffix hr ⟨hl, ho, Lexeme.isClosing_eq_false hc⟩).length_le).elim

theorem groupItems (level : Level source n)
    (h : readGroupItems (expressionWithin source n) bracket cursor = some (nodes, next)) :
    Derives source n (.groupItems bracket cursor nodes next) := by
  fun_induction readGroupItems (expressionWithin source n) bracket cursor
    generalizing nodes next with
  | case1 _ hr =>
    cases h
    exact .groupEnd hr
  | case2 _ _ _ hr ht ih => exact .groupSkip hr ht (ih h)
  | case3 _ _ _ hr _ ht =>
    cases h
    exact .groupClose hr ht
  | case4 | case5 => cases h
  | case6 _ _ _ hr _ _ he _ _ _ hg hl hc ih =>
    cases h
    exact .groupItem hr hl (Lexeme.isClosing_eq_false hc) (level.expression he) (ih hg)
  | case7 _ _ _ _ _ _ he hn => exact (hn (level.expression he).suffix.length_le).elim

theorem valueArguments (level : Level source n)
    (h : readValueArguments (expressionWithin source n) cursor = some (nodes, next)) :
    Derives source n (.valueArguments cursor nodes next) := by
  fun_induction readValueArguments (expressionWithin source n) cursor
    generalizing nodes next with
  | case1 _ hr =>
    cases h
    exact .argumentsEnd hr
  | case2 _ _ _ hr ht ih => exact .argumentsSkip hr (.inl ht) (ih h)
  | case3 _ _ _ hr ht ih => exact .argumentsSkip hr (.inr ht) (ih h)
  | case4 _ _ _ hr _ ht =>
    cases h
    exact .argumentsClose hr ht
  | case5 | case6 => cases h
  | case7 _ _ _ hr _ _ hn _ _ hi _ _ _ _ ha hl ho hc =>
    rename_i ih
    obtain ⟨nodes, rfl, hd⟩ := level.sequence hi
    cases h
    have hv := Derives.argument hr ⟨hl, ho, Lexeme.isClosing_eq_false hc⟩ (by rw [hn]; exact hd)
      (ih ha)
    rw [hn] at hv
    exact hv
  | case8 _ _ _ hr _ _ hn _ _ hi _ hnext hl ho =>
    rename_i hc
    obtain ⟨nodes, rfl, hd⟩ := level.sequence hi
    refine (hnext (Derives.argument_suffix (by rw [hn]; exact hd) hr
      ⟨hl, ho, Lexeme.isClosing_eq_false hc⟩).length_le).elim

theorem callArguments (level : Level source n)
    (h : readCallArguments (expressionWithin source n) cursor = some (nodes, next)) :
    Derives source n (.callArguments cursor nodes next) := by
  by_cases ho : cursor.opens .round
  · obtain ⟨token, rest, hr, ht⟩ := ho
    rw [readCallArguments_of_opens hr ht, Option.map_eq_some_iff] at h
    obtain ⟨⟨arguments, stop⟩, ha, he⟩ := h
    cases he
    exact .arguments hr ht (level.valueArguments ha)
  · rw [readCallArguments_of_not_opens ho] at h
    cases h
    exact .noArguments ho

theorem trailingLambda (level : Level source n)
    (h : readTrailingLambda (lambdaWithin source n) cursor = some (node, next)) :
    Derives source n (.trailingLambda cursor node next) := by
  by_cases ho : cursor.opens .curly
  · obtain ⟨token, rest, hr, ht⟩ := ho
    rw [readTrailingLambda_of_opens hr ht, Option.map_eq_some_iff] at h
    obtain ⟨⟨lambda, stop⟩, hl, he⟩ := h
    cases he
    exact .trailing hr ht (level.lambda hl)
  · rw [readTrailingLambda_of_not_opens ho] at h
    cases h
    exact .noLambda ho

theorem named (level : Level source n)
    (h : readNamed (interiorWithin source n) text span cursor = some (node, next)) :
    Derives source n (.named text span cursor node next) := by
  rw [readNamed] at h
  dsimp only at h
  split at h
  · cases h
  · next ha =>
    split at h
    · cases h
    · next hl =>
      have ha := level.callArguments ha
      have hl := level.trailingLambda hl
      split at h
      · next hc =>
        cases h
        simp only [Bool.and_eq_true, List.isEmpty_iff, Option.isNone_iff_eq_none] at hc
        obtain ⟨⟨ht, rfl⟩, rfl⟩ := hc
        exact .identifier (Prod.ext ht rfl) ha hl
      · next hc =>
        cases h
        exact .call rfl ha hl (Bool.eq_false_iff.2 hc)

theorem primary (level : Level source n)
    (h : readPrimary (interiorWithin source n) token cursor = some (node, next)) :
    Derives source n (.primary token cursor node next) := by
  rw [readPrimary] at h
  split at h
  · next ht => exact .name ht (level.named h)
  · next ht => exact .braces ht (level.lambda h)
  · next hb ht => exact .brackets ht hb (level.group h)
  · next ht =>
    cases h
    exact .string ht
  · next ht =>
    cases h
    exact .literal (by rw [ht]; rfl)
  · next ht =>
    cases h
    exact .literal (by rw [ht]; rfl)
  · next hi hc hb hs hch hn =>
    cases h
    refine .symbol ?_
    cases ht : token.lexeme with
    | lineBreak | operator | closing | unknown => rfl
    | string text => exact (hs text ht).elim
    | character text => exact (hch text ht).elim
    | number text => exact (hn text ht).elim
    | identifier text => exact (hi text ht).elim
    | opening bracket => exact (hb bracket ht).elim

theorem suffixes (level : Level source n)
    (h : readSuffixes (interiorWithin source n) node cursor = some (result, next)) :
    Derives source n (.suffixes node cursor result next) := by
  fun_induction readSuffixes (interiorWithin source n) node cursor
    generalizing result next with
  | case1 | case5 => cases h
  | case2 _ _ _ hm _ _ hn =>
    rename_i ih
    exact .member hm (level.named hn) (ih h)
  | case3 _ _ _ hm _ _ hn =>
    rename_i hlt
    obtain ⟨dot, name, hs⟩ := memberAhead?_suffix hm
    have hle := hs.length_le
    have hle' := (level.named hn).suffix.length_le
    simp only [Phrase.cursors, List.length_cons] at hle hle'
    omega
  | case4 _ _ hm hr =>
    cases h
    exact .noSuffix hm (Cursor.not_indexed_nil hr)
  | case6 _ _ hm _ _ hr ht _ _ hg =>
    rename_i ih
    exact .index hm hr ht.1 ht.2 (level.group hg) (ih h)
  | case7 _ _ hm _ _ hr ht _ _ hg =>
    rename_i hlt
    have hle := (level.group hg).suffix.length_le
    simp only [Phrase.cursors, Cursor.past] at hle
    rw [hr, List.length_cons] at hlt
    omega
  | case8 _ _ hm _ _ hr ht =>
    cases h
    exact .noSuffix hm (Cursor.not_indexed_cons hr ht)

theorem succ (level : Level source n) : Level source (n + 1) where
  expression h := by
    rw [expressionWithin_succ, readExpression] at h
    split at h
    · cases h
    · next hp => exact .expression (level.primary hp) (level.suffixes h)
  lambda h := by
    rw [lambdaWithin_succ, readLambda] at h
    dsimp only at h
    split at h
    · cases h
    · next hs =>
      cases h
      exact .lambda rfl (level.statements hs)
  group h := by
    rw [groupWithin_succ, readGroup] at h
    split at h
    · cases h
    · next hg =>
      cases h
      exact .group (level.groupItems hg)

theorem all (source : Source) : ∀ n, Level source n
  | 0 => ⟨nofun, nofun, nofun⟩
  | n + 1 => (all source n).succ

end Level

theorem expressionWithin_advances (source : Source) (n : Nat) :
    (expressionWithin source n).Advances :=
  fun _ _ _ _ h => ((Level.all source n).expression h).suffix.length_le

theorem groupWithin_advances (source : Source) (n : Nat) (bracket : Bracket) :
    (groupWithin source n bracket).Advances :=
  fun _ _ _ _ h => ((Level.all source n).group h).suffix.length_le

theorem readNamed_length_le
    (h : readNamed (interiorWithin source n) text span cursor = some (node, next)) :
    next.rest.length ≤ cursor.rest.length := ((Level.all source n).named h).suffix.length_le

theorem length_lt_of_member {member : Member} (hm : memberAhead? cursor = some member)
    (h : readNamed (interiorWithin source n) text span member.next = some (node, next)) :
    next.rest.length < cursor.rest.length := by
  obtain ⟨dot, name, hs⟩ := memberAhead?_suffix hm
  have hle := hs.length_le
  have hle' := readNamed_length_le h
  rw [List.length_cons, List.length_cons] at hle
  omega

theorem Derives.isRead (h : Derives source n phrase) : phrase.IsRead source n := by
  induction h with
  | expression _ _ ihp ihs =>
    simp only [Phrase.IsRead] at ihp ihs ⊢
    rw [expressionWithin_succ, readExpression, ihp]
    exact ihs
  | name ht _ ih | braces ht _ ih =>
    simp only [Phrase.IsRead, readPrimary, ht] at ih ⊢
    exact ih
  | brackets ht hb _ ih =>
    simp only [Phrase.IsRead, readPrimary, ht] at ih ⊢
    exact ih
  | string ht => simp only [Phrase.IsRead, readPrimary, ht]
  | literal ht =>
    simp only [Phrase.IsRead, readPrimary]
    split <;> simp_all [Lexeme.isLiteral]
  | symbol ht =>
    simp only [Phrase.IsRead, readPrimary]
    split <;> simp_all [Lexeme.isSymbol]
  | noSuffix hm hi => exact readSuffixes_of_none hm hi
  | member hm _ _ ihn ihs =>
    simp only [Phrase.IsRead] at ihn ⊢
    rw [readSuffixes_of_member hm fun _ _ => readNamed_length_le, ihn]
    exact ihs
  | index hm hr ht ha _ _ ihg ihs =>
    simp only [Phrase.IsRead] at ihg ⊢
    rw [readSuffixes_of_index hm hr ht ha (groupWithin_advances source _ _), interiorWithin_group,
      ihg]
    exact ihs
  | identifier ht _ _ iha ihl =>
    simp only [Phrase.IsRead] at iha ihl ⊢
    simp only [readNamed, ht, interiorWithin_argument, iha, interiorWithin_lambda, ihl]
    rfl
  | call ht _ _ hc iha ihl =>
    simp only [Phrase.IsRead] at iha ihl ⊢
    simp only [readNamed, ht, interiorWithin_argument, iha, interiorWithin_lambda, ihl]
    rw [if_neg (by rw [hc]; exact Bool.false_ne_true)]
  | noArguments ho => exact readCallArguments_of_not_opens ho
  | arguments hr ht _ ih =>
    simp only [Phrase.IsRead] at ih ⊢
    rw [readCallArguments_of_opens hr ht, ih]
    rfl
  | noLambda ho => exact readTrailingLambda_of_not_opens ho
  | trailing hr ht _ ih =>
    simp only [Phrase.IsRead] at ih ⊢
    rw [readTrailingLambda_of_opens hr ht, ih]
    rfl
  | argumentsEnd hr => exact readValueArguments_of_nil hr
  | argumentsSkip hr ht _ ih => exact (readValueArguments_of_skip hr ht).trans ih
  | argumentsClose hr ht => exact readValueArguments_of_closing hr ht
  | argument hr ht _ _ ihi iha =>
    simp only [Phrase.IsRead] at iha ⊢
    rw [readValueArguments_of_starts (expressionWithin_advances ..) hr ht,
      readSequence_of_items ihi, Option.bind_some, iha]
    rfl
  | itemsEnd hr => exact sequenceItems_of_nil hr _ _
  | itemsStop hr ht => exact sequenceItems_of_stop hr ht
  | itemsBreak hr ht hs =>
    rw [Phrase.IsRead, sequenceItems_of_lineBreak hr ht, hs]
    rfl
  | itemsContinue hr ht hs _ ih =>
    simp only [Phrase.IsRead] at ih ⊢
    rw [sequenceItems_of_lineBreak hr ht, if_pos hs, ih]
  | item hr ht _ _ ihe ihi =>
    simp only [Phrase.IsRead] at ihe ihi ⊢
    rw [sequenceItems_of_starts (expressionWithin_advances ..) hr ht, ihe, Option.bind_some, ihi]
    rfl
  | statementsEnd hr => exact readStatements_of_nil hr _
  | statementsSkip hr ht _ ih => exact (readStatements_of_skip hr ht).trans ih
  | statementsClose hr ht hc =>
    rw [Phrase.IsRead, readStatements_of_closing hr ht, if_pos hc]
  | stray hr ht hc _ ih =>
    simp only [Phrase.IsRead] at ih ⊢
    rw [readStatements_of_closing hr ht, if_neg hc, ih]
    rfl
  | statement hr ht _ _ ihi ihs =>
    simp only [Phrase.IsRead] at ihs ⊢
    rw [readStatements_of_starts (expressionWithin_advances ..) hr ht, readSequence_of_items ihi,
      Option.bind_some, ihs]
    rfl
  | lambda hp _ ih =>
    simp only [Phrase.IsRead] at ih ⊢
    simp only [lambdaWithin, readLambda, hp, ih]
    rfl
  | group _ ih =>
    simp only [Phrase.IsRead] at ih ⊢
    simp only [groupWithin, readGroup, ih]
  | groupEnd hr => exact readGroupItems_of_nil hr _
  | groupSkip hr ht _ ih => exact (readGroupItems_of_lineBreak hr ht).trans ih
  | groupClose hr ht => exact readGroupItems_of_closing hr ht
  | groupItem hr ht hc _ _ ihe ihg =>
    simp only [Phrase.IsRead] at ihe ihg ⊢
    rw [readGroupItems_of_starts (expressionWithin_advances ..) hr ht hc, ihe, Option.bind_some,
      ihg]
    rfl

/-- Every syntax tree has a derivation of its statements. -/
theorem Source.outline?_eq_some_iff {source : Source} {limit : Nat} {outline : Outline} :
    source.outline? limit = some outline ↔ ∃ nodes next,
      outline = .file ⟨0, source.size⟩ nodes ∧
        Derives source limit (.statements none ⟨0, source.tokens⟩ nodes next) := by
  rw [Source.outline?]
  constructor
  · intro h
    split at h
    · cases h
    · next nodes next hs =>
      cases h
      exact ⟨nodes, next, rfl, (Level.all source limit).statements hs⟩
  · rintro ⟨nodes, next, rfl, hs⟩
    have hs := hs.isRead
    simp only [Phrase.IsRead] at hs
    rw [hs]

end StateDiagram
