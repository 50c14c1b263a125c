import StateDiagram.Proofs.Derivation

namespace StateDiagram

set_option autoImplicit true

variable {read : Reader} {cursor : Cursor} {token : Token} {rest : List Token}

/-- Whatever the reader reads behind a token, it never goes back in front of it. -/
def Reader.Advances (read : Reader) : Prop :=
  ∀ ⦃token rest node next⦄, read token (.past token rest) = some (node, next) →
    next.rest.length ≤ rest.length

theorem Lexeme.isClosing_eq_false {lexeme : Lexeme}
    (h : ∀ bracket, lexeme = .closing bracket → False) :
    lexeme.isClosing = false := by
  cases lexeme with
  | closing bracket => exact (h bracket rfl).elim
  | _ => rfl

theorem Lexeme.ne_closing {lexeme : Lexeme} (h : lexeme.isClosing = false) (bracket : Bracket) :
    lexeme ≠ .closing bracket := by
  rintro rfl
  cases h

theorem Lexeme.exists_closing {lexeme : Lexeme} (h : lexeme.isClosing = true) :
    ∃ bracket, lexeme = .closing bracket := by
  cases lexeme with
  | closing bracket => exact ⟨bracket, rfl⟩
  | _ => cases h

/-- What a token does to a list of statements or arguments. -/
theorem Setting.lexeme_cases (setting : Setting) (lexeme : Lexeme) :
    (lexeme = .lineBreak ∨ lexeme = setting.separator) ∨
      (∃ bracket, lexeme = .closing bracket) ∨ setting.Starts lexeme := by
  by_cases hskip : lexeme = .lineBreak ∨ lexeme = setting.separator
  · exact .inl hskip
  · rw [not_or] at hskip
    cases hc : lexeme.isClosing with
    | false => exact .inr (.inr ⟨hskip.1, hskip.2, hc⟩)
    | true => exact .inr (.inl (Lexeme.exists_closing hc))

section

variable {setting : Setting} {carried : Bool}

theorem sequenceItems_of_nil (hr : cursor.rest = []) (setting : Setting) (carried : Bool) :
    sequenceItems read setting carried cursor = some ([], cursor) := by
  cases cursor
  cases hr
  rw [sequenceItems]

theorem sequenceItems_of_stop (hr : cursor.rest = token :: rest)
    (ht : token.lexeme.isClosing = true ∨ token.lexeme = setting.separator) :
    sequenceItems read setting carried cursor = some ([], cursor) := by
  cases cursor
  cases hr
  rw [sequenceItems]
  dsimp only
  rw [if_pos (by simpa using ht)]

theorem sequenceItems_of_lineBreak (hr : cursor.rest = token :: rest)
    (ht : token.lexeme = .lineBreak) :
    sequenceItems read setting carried cursor =
      if setting == .argument || carried || leadsOn rest then
        sequenceItems read setting carried (.past token rest)
      else some ([], cursor) := by
  cases cursor
  cases hr
  rw [sequenceItems]
  dsimp only
  rw [if_neg (by cases setting <;> simp [ht, Lexeme.isClosing, Setting.separator]),
    if_pos (Lexeme.isLineBreak_iff.2 ht)]

theorem sequenceItems_of_starts (h : read.Advances) (hr : cursor.rest = token :: rest)
    (ht : setting.Starts token.lexeme) :
    sequenceItems read setting carried cursor =
      (read token (.past token rest)).bind fun found =>
        (sequenceItems read setting (found.1.isToken && token.lexeme.isCarrying) found.2).map
          (Prod.map (found.1 :: ·) id) := by
  cases cursor
  cases hr
  rw [sequenceItems]
  dsimp only
  rw [if_neg (by simp [ht.2.1, ht.2.2]), if_neg (by simp [Lexeme.isLineBreak_iff, ht.1])]
  cases hread : read token (.past token rest) with
  | none => rfl
  | some found =>
    dsimp only [Option.bind_some]
    rw [dif_pos (h hread)]
    cases sequenceItems read setting (found.1.isToken && token.lexeme.isCarrying) found.2 <;> rfl

theorem readSequence_of_items
    (h : sequenceItems read setting false cursor = some (items, next)) :
    readSequence read setting cursor = some (collapse items, next) := by
  rw [readSequence, h]

theorem Reader.Advances.items {nodes : List Outline} (h : read.Advances)
    (hi : sequenceItems read setting carried cursor = some (nodes, next)) :
    next.rest.length ≤ cursor.rest.length := by
  fun_induction sequenceItems read setting carried cursor generalizing nodes next with
  | case1 | case2 | case4 =>
    cases hi
    exact Nat.le_refl _
  | case3 _ _ _ _ hr _ _ _ ih =>
    rw [hr]
    exact Nat.le_succ_of_le (ih hi)
  | case5 | case6 => cases hi
  | case7 _ _ _ _ hr _ _ _ _ he _ _ _ hs ih =>
    cases hi
    rw [hr]
    exact Nat.le_succ_of_le (Nat.le_trans (ih hs) (h he))
  | case8 _ _ _ _ _ _ _ _ _ he hle => exact (hle (h he)).elim

theorem Reader.Advances.sequence (h : read.Advances) (hr : cursor.rest = token :: rest)
    (ht : setting.Starts token.lexeme)
    (hs : readSequence read setting cursor = some (node, next)) :
    next.rest.length ≤ rest.length := by
  rw [readSequence, sequenceItems_of_starts h hr ht] at hs
  cases he : read token (.past token rest) with
  | none =>
    rw [he] at hs
    cases hs
  | some found =>
    rw [he, Option.bind_some] at hs
    cases hi : sequenceItems read setting (found.1.isToken && token.lexeme.isCarrying) found.2 with
    | none =>
      rw [hi] at hs
      cases hs
    | some items =>
      rw [hi] at hs
      cases hs
      exact Nat.le_trans (h.items hi) (h he)

theorem Reader.Advances.argument (h : read.Advances) (hr : cursor.rest = token :: rest)
    (ht : Setting.argument.Starts token.lexeme)
    (hs : readSequence read .argument (readArgumentName cursor).2 = some (node, next)) :
    next.rest.length ≤ rest.length := by
  rcases readArgumentName_eq cursor with hn | ⟨name, sign, behind, text, hr', _, _, hn⟩
  · rw [hn] at hs
    exact h.sequence hr ht hs
  · rw [hn, readSequence] at hs
    rw [hr] at hr'
    cases hr'
    split at hs
    · cases hs
    · next hi =>
      cases hs
      exact Nat.le_succ_of_le (h.items hi)

end

section

variable {close : Option Bracket}

theorem readStatements_of_nil (hr : cursor.rest = []) (close : Option Bracket) :
    readStatements read close cursor = some ([], cursor) := by
  cases cursor
  cases hr
  rw [readStatements]

theorem readStatements_of_skip (hr : cursor.rest = token :: rest)
    (ht : token.lexeme = .lineBreak ∨ token.lexeme = Setting.statement.separator) :
    readStatements read close cursor = readStatements read close (.past token rest) := by
  cases cursor
  cases hr
  rw [readStatements]
  dsimp only
  rcases ht with ht | ht <;> simp only [ht, Setting.separator]

theorem readStatements_of_closing (hr : cursor.rest = token :: rest)
    (ht : token.lexeme = .closing bracket) :
    readStatements read close cursor =
      if close = some bracket then some ([], cursor)
      else (readStatements read close (.past token rest)).map
        (Prod.map (.token token.span :: ·) id) := by
  cases cursor
  cases hr
  rw [readStatements]
  dsimp only
  simp only [ht, eq_comm (a := close)]
  split
  · rfl
  · cases readStatements read close (.past token rest) <;> rfl

theorem readStatements_of_starts (h : read.Advances) (hr : cursor.rest = token :: rest)
    (ht : Setting.statement.Starts token.lexeme) :
    readStatements read close cursor =
      (readSequence read .statement cursor).bind fun found =>
        (readStatements read close found.2).map (Prod.map (found.1.toList ++ ·) id) := by
  obtain ⟨previousEnd, _⟩ := cursor
  cases hr
  rw [readStatements]
  dsimp only
  split
  · next hl => exact (ht.1 hl).elim
  · next hl => exact (ht.2.1 hl).elim
  · next hl => rw [hl] at ht; cases ht.2.2
  · cases hread : readSequence read .statement ⟨previousEnd, token :: rest⟩ with
    | none => rfl
    | some found =>
      dsimp only [Option.bind_some]
      rw [dif_pos (h.sequence rfl ht hread)]
      cases readStatements read close found.2 <;> rfl

end

section

variable {close : Bracket}

theorem readGroupItems_of_nil (hr : cursor.rest = []) (close : Bracket) :
    readGroupItems read close cursor = some ([], cursor) := by
  cases cursor
  cases hr
  rw [readGroupItems]

theorem readGroupItems_of_lineBreak (hr : cursor.rest = token :: rest)
    (ht : token.lexeme = .lineBreak) :
    readGroupItems read close cursor = readGroupItems read close (.past token rest) := by
  cases cursor
  cases hr
  rw [readGroupItems]
  dsimp only
  simp only [ht]

theorem readGroupItems_of_closing (hr : cursor.rest = token :: rest)
    (ht : token.lexeme = .closing bracket) :
    readGroupItems read close cursor =
      some ([], if bracket = close then .past token rest else cursor) := by
  cases cursor
  cases hr
  rw [readGroupItems]
  dsimp only
  simp only [ht]

theorem readGroupItems_of_starts (h : read.Advances) (hr : cursor.rest = token :: rest)
    (ht : token.lexeme ≠ .lineBreak) (hc : token.lexeme.isClosing = false) :
    readGroupItems read close cursor =
      (read token (.past token rest)).bind fun found =>
        (readGroupItems read close found.2).map (Prod.map (found.1 :: ·) id) := by
  cases cursor
  cases hr
  rw [readGroupItems]
  dsimp only
  split
  · next hl => exact (ht hl).elim
  · next hl => rw [hl] at hc; cases hc
  · cases hread : read token (.past token rest) with
    | none => rfl
    | some found =>
      dsimp only [Option.bind_some]
      rw [dif_pos (h hread)]
      cases readGroupItems read close found.2 <;> rfl

end

theorem readValueArguments_of_nil (hr : cursor.rest = []) :
    readValueArguments read cursor = some ([], cursor) := by
  cases cursor
  cases hr
  rw [readValueArguments]

theorem readValueArguments_of_skip (hr : cursor.rest = token :: rest)
    (ht : token.lexeme = .lineBreak ∨ token.lexeme = Setting.argument.separator) :
    readValueArguments read cursor = readValueArguments read (.past token rest) := by
  cases cursor
  cases hr
  rw [readValueArguments]
  dsimp only
  rcases ht with ht | ht <;> simp only [ht, Setting.separator]

theorem readValueArguments_of_closing (hr : cursor.rest = token :: rest)
    (ht : token.lexeme = .closing bracket) :
    readValueArguments read cursor =
      some ([], if bracket = .round then .past token rest else cursor) := by
  cases cursor
  cases hr
  rw [readValueArguments]
  dsimp only
  simp only [ht]

theorem readValueArguments_of_starts (h : read.Advances) (hr : cursor.rest = token :: rest)
    (ht : Setting.argument.Starts token.lexeme) :
    readValueArguments read cursor =
      (readSequence read .argument (readArgumentName cursor).2).bind fun found =>
        (readValueArguments read found.2).map (Prod.map
          ((found.1.map (argumentOutline token (readArgumentName cursor).1)).toList ++ ·) id) := by
  obtain ⟨previousEnd, _⟩ := cursor
  cases hr
  rw [readValueArguments]
  dsimp only
  split
  · next hl => exact (ht.1 hl).elim
  · next hl => exact (ht.2.1 hl).elim
  · next hl => rw [hl] at ht; cases ht.2.2
  · cases hread : readSequence read .argument
      (readArgumentName ⟨previousEnd, token :: rest⟩).2 with
    | none => rfl
    | some found =>
      dsimp only [Option.bind_some]
      rw [dif_pos (h.argument rfl ht hread)]
      cases readValueArguments read found.2 <;> rfl

theorem Cursor.not_opens (h : ∀ token ∈ cursor.rest.head?, token.lexeme.isOpening = false)
    (bracket : Bracket) : ¬ cursor.opens bracket := by
  rintro ⟨token, rest, hr, ht⟩
  have ho := h token (by rw [hr]; rfl)
  rw [ht] at ho
  cases ho

theorem Cursor.not_opens_nil (hr : cursor.rest = []) (bracket : Bracket) :
    ¬ cursor.opens bracket := by
  apply not_opens
  rw [hr]
  exact nofun

theorem Cursor.not_opens_cons (hr : cursor.rest = token :: rest)
    (ht : token.lexeme ≠ .opening bracket) : ¬ cursor.opens bracket := by
  rintro ⟨_, _, hr', ht'⟩
  rw [hr] at hr'
  cases hr'
  exact ht ht'

theorem readCallArguments_of_opens (hr : cursor.rest = token :: rest)
    (ht : token.lexeme = .opening .round) :
    readCallArguments read cursor =
      (readValueArguments read (.past token rest)).map (Prod.map some id) := by
  rw [readCallArguments, hr]
  dsimp only
  rw [if_pos ht]
  cases readValueArguments read (.past token rest) <;> rfl

theorem readCallArguments_of_not_opens (h : ¬ cursor.opens .round) :
    readCallArguments read cursor = some (none, cursor) := by
  rw [readCallArguments]
  split
  · rfl
  · next token rest hr => rw [if_neg fun ht => h ⟨token, rest, hr, ht⟩]

theorem readTrailingLambda_of_opens (hr : cursor.rest = token :: rest)
    (ht : token.lexeme = .opening .curly) :
    readTrailingLambda read cursor = (read token (.past token rest)).map (Prod.map some id) := by
  rw [readTrailingLambda, hr]
  dsimp only
  rw [if_pos ht]
  cases read token (.past token rest) <;> rfl

theorem readTrailingLambda_of_not_opens (h : ¬ cursor.opens .curly) :
    readTrailingLambda read cursor = some (none, cursor) := by
  rw [readTrailingLambda]
  split
  · rfl
  · next token rest hr => rw [if_neg fun ht => h ⟨token, rest, hr, ht⟩]

section

variable {interior : Interior} {node : Outline}

theorem Cursor.not_indexed_nil (hr : cursor.rest = []) : ¬ cursor.Indexed := by
  rintro ⟨_, _, hr', _⟩
  rw [hr] at hr'
  cases hr'

theorem Cursor.not_indexed_cons (hr : cursor.rest = token :: rest)
    (ht : ¬ (token.lexeme = .opening .square ∧ token.span.start = cursor.previousEnd)) :
    ¬ cursor.Indexed := by
  rintro ⟨_, _, hr', ht'⟩
  rw [hr] at hr'
  cases hr'
  exact ht ht'

theorem readSuffixes_of_none (hm : memberAhead? cursor = none) (hi : ¬ cursor.Indexed) :
    readSuffixes interior node cursor = some (node, cursor) := by
  rw [readSuffixes, hm]
  dsimp only
  split
  · rfl
  · next token rest hr => rw [if_neg fun hc => hi ⟨token, rest, hr, hc⟩]

theorem readSuffixes_of_member {member : Member} (hm : memberAhead? cursor = some member)
    (h : ∀ selector next, readNamed interior member.text member.span member.next =
      some (selector, next) → next.rest.length ≤ member.next.rest.length) :
    readSuffixes interior node cursor =
      (readNamed interior member.text member.span member.next).bind fun found =>
        readSuffixes interior (.memberAccess ⟨node.info.start, found.1.info.stop⟩ node found.1
          member.safe) found.2 := by
  obtain ⟨dot, name, hs⟩ := memberAhead?_suffix hm
  have hlt := hs.length_le
  simp only [List.length_cons] at hlt
  rw [readSuffixes, hm]
  dsimp only
  cases hread : readNamed interior member.text member.span member.next with
  | none => rfl
  | some found =>
    have hle := h _ _ hread
    dsimp only [Option.bind_some]
    rw [dif_pos (by omega)]

theorem readSuffixes_of_index (hm : memberAhead? cursor = none) (hr : cursor.rest = token :: rest)
    (ht : token.lexeme = .opening .square) (ha : token.span.start = cursor.previousEnd)
    (h : (interior.group .square).Advances) :
    readSuffixes interior node cursor =
      (interior.group .square token (.past token rest)).bind fun found =>
        readSuffixes interior (.sequence ⟨node.info.start, found.1.info.stop⟩ [node, found.1])
          found.2 := by
  rw [readSuffixes, hm]
  dsimp only
  rw [hr]
  dsimp only
  rw [if_pos ⟨ht, ha⟩]
  cases hread : interior.group .square token (.past token rest) with
  | none => rfl
  | some found =>
    dsimp only [Option.bind_some]
    rw [dif_pos (by rw [List.length_cons]; exact Nat.lt_succ_of_le (h hread))]

end

end StateDiagram
