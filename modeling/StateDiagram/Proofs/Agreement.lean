import StateDiagram.Proofs.Quotation

namespace StateDiagram

set_option autoImplicit true

open Indexed

variable {source : Source} {limit n depth index : Nat} {token : Token} {cursor next : Cursor}

def Source.cursorAt (source : Source) (index : Nat) : Cursor :=
  ⟨endBefore source index, source.tokens.drop index⟩

theorem Source.lt_of_getElem? (h : source.tokens[index]? = some token) :
    index < source.tokens.length := (List.getElem?_eq_some_iff.1 h).1

theorem Source.getElem?_of_rest_nil (h : (source.cursorAt index).rest = []) :
    source.tokens[index]? = none := by
  have hd : source.tokens.drop index = [] := h
  rw [← List.head?_drop, hd]
  rfl

theorem Source.rest_of_getElem?_none (h : source.tokens[index]? = none) :
    (source.cursorAt index).rest = [] :=
  List.drop_eq_nil_iff.2 (List.getElem?_eq_none_iff.1 h)

theorem Source.rest_of_append {passed behind : List Token}
    (h : source.tokens.drop index = passed ++ behind) :
    (source.cursorAt (index + passed.length)).rest = behind := by
  rw [cursorAt, ← List.drop_drop, h, List.drop_left]

theorem Source.getElem?_of_rest {rest : List Token}
    (h : (source.cursorAt index).rest = token :: rest) :
    source.tokens[index]? = some token ∧ rest = source.tokens.drop (index + 1) := by
  have hd : source.tokens.drop index = token :: rest := h
  rw [← List.head?_drop, ← List.tail_drop, hd]
  exact ⟨rfl, rfl⟩

theorem Source.past_eq (h : source.tokens[index]? = some token) :
    .past token (source.tokens.drop (index + 1)) = source.cursorAt (index + 1) := by
  rw [cursorAt, endBefore, h]
  rfl

theorem Source.rest_eq (h : source.tokens[index]? = some token) :
    (source.cursorAt index).rest = token :: source.tokens.drop (index + 1) := by
  obtain ⟨hlt, rfl⟩ := List.getElem?_eq_some_iff.1 h
  exact List.drop_eq_getElem_cons hlt

theorem Source.le_of_length_le (h : (source.cursorAt stop).rest.length ≤
    (source.tokens.drop index).length) (hs : stop ≤ source.tokens.length)
    (hi : index ≤ source.tokens.length) : index ≤ stop := by
  have hl : (source.cursorAt stop).rest.length = source.tokens.length - stop := List.length_drop
  rw [hl, List.length_drop] at h
  omega

theorem Source.steps_of_getElem? (hget : source.tokens[index]? = some token)
    (hs : source.tokens.length ≤ index + steps) :
    ∃ left, steps = left + 1 ∧ source.tokens.length ≤ index + 1 + left := by
  have hlt := lt_of_getElem? hget
  cases steps with
  | zero => exact absurd hlt (Nat.not_lt_of_le hs)
  | succ left => exact ⟨left, rfl, by omega⟩

theorem Source.sound_cursorAt (h : index ≤ source.tokens.length) :
    (source.cursorAt index).Sound source := by
  induction index with
  | zero => exact source.sound_tokens
  | succ index ih =>
    have hget := List.getElem?_eq_getElem h
    rw [← past_eq hget]
    exact (ih (Nat.le_of_succ_le h)).leads (.head (rest_eq hget))

theorem Source.heads_cursorAt (h : source.tokens[index]? = some token) :
    token.span.Heads source (source.cursorAt (index + 1)) := by
  have hs := sound_cursorAt (Nat.le_of_lt (lt_of_getElem? h))
  rw [← past_eq h]
  exact hs.headsNext (rest_eq h)

theorem startOf_eq (source : Source) (index : Nat) :
    startOf source index = (source.cursorAt index).nextStart source.size := by
  rw [startOf]
  cases hget : source.tokens[index]? with
  | none =>
    rw [Cursor.nextStart_of_nil (Source.rest_of_getElem?_none hget)]
    rfl
  | some token =>
    rw [Cursor.nextStart_of_cons (Source.rest_eq hget)]
    rfl

theorem startOf_of_getElem? (h : source.tokens[index]? = some token) :
    startOf source index = token.span.start := by
  rw [startOf, h]
  rfl

theorem touches_iff (hpos : 0 < index) (hget : source.tokens[index]? = some token)
    (lexeme : Lexeme) :
    (source.tokens[index]?.any (·.lexeme == lexeme) && touches source index) = true ↔
      token.lexeme = lexeme ∧ token.span.start = (source.cursorAt index).previousEnd := by
  rw [hget, touches, startOf_of_getElem? hget]
  simp [hpos, Source.cursorAt]

namespace Indexed

/-- The builder gives what is read, at its places, and stands where the cursor does; or it stops
for the nesting where nothing is read. -/
def Mirrors (source : Source) (limit depth : Nat) (place : α → β)
    (run : Except Failure (β × Position)) : Option (α × Cursor) → Prop
  | none => run = .error (.fault (.nestingTooDeep limit))
  | some (value, next) => ∃ index, index ≤ source.tokens.length ∧ source.cursorAt index = next ∧
    run = .ok (place value, ⟨index, depth⟩)

section

variable {place : α → β} {run : Except Failure (β × Position)} {result : Option (α × Cursor)}

theorem Mirrors.of_none (h : Mirrors source limit depth place run result) (hr : result = none) :
    run = .error (.fault (.nestingTooDeep limit)) := by
  subst hr
  exact h

theorem Mirrors.of_some (h : Mirrors source limit depth place run result)
    (hr : result = some (value, next)) :
    ∃ index, index ≤ source.tokens.length ∧ source.cursorAt index = next ∧
      run = .ok (place value, ⟨index, depth⟩) := by
  subst hr
  exact h

/-- What is read from there on is built from there on. -/
theorem Mirrors.bind {place' : γ → δ} {f : β × Position → Except Failure (δ × Position)}
    {g : α × Cursor → Option (γ × Cursor)} (h : Mirrors source limit depth place run result)
    (hf : ∀ value mid, mid ≤ source.tokens.length → result = some (value, source.cursorAt mid) →
      Mirrors source limit depth place' (f (place value, ⟨mid, depth⟩))
        (g (value, source.cursorAt mid))) :
    Mirrors source limit depth place' (run >>= f) (result.bind g) := by
  cases result with
  | none =>
    rw [h.of_none rfl]
    rfl
  | some found =>
    obtain ⟨value, next⟩ := found
    obtain ⟨mid, hmid, rfl, rfl⟩ := h.of_some rfl
    exact hf value mid hmid rfl

theorem Mirrors.map {place' : γ → δ} {f : α → γ} {f' : β → δ}
    (h : Mirrors source limit depth place run result)
    (hf : ∀ value, place' (f value) = f' (place value)) :
    Mirrors source limit depth place' (run >>= fun found => .ok (f' found.1, found.2))
      (result.map (Prod.map f id)) := by
  rw [Option.map_eq_bind]
  refine h.bind fun value mid hmid _ => ⟨mid, hmid, rfl, ?_⟩
  rw [hf]

end

/-- The builders do at every token what the readers with `n` levels left do there. -/
structure Follows (source : Source) (limit n depth : Nat) (interior : Interior) : Prop where
  argument {index : Nat} {token : Token} : source.tokens[index]? = some token →
    Mirrors source limit depth (Node.map source.locate) (interior.argument.run ⟨index, depth⟩)
      (expressionWithin source n token (source.cursorAt (index + 1)))
  lambda {index : Nat} {token : Token} : source.tokens[index]? = some token →
    Mirrors source limit depth (Node.map source.locate) (interior.lambda.run ⟨index, depth⟩)
      (lambdaWithin source n token (source.cursorAt (index + 1)))
  group {index : Nat} {token : Token} {bracket : Bracket} : source.tokens[index]? = some token →
    Mirrors source limit depth (Node.map source.locate)
      ((interior.group bracket).run ⟨index, depth⟩)
      (groupWithin source n bracket token (source.cursorAt (index + 1)))

theorem run_bind (m : Build α) (f : α → Build β) (position : Position) :
    (m >>= f).run position = m.run position >>= fun result => (f result.1).run result.2 := rfl

theorem run_pure (value : α) (position : Position) :
    (pure value : Build α).run position = .ok (value, position) := rfl

theorem run_peek (position : Position) :
    (peek source).run position = .ok (source.tokens[position.index]?, position) := rfl

theorem run_get (position : Position) :
    (get : Build Position).run position = .ok (position, position) := rfl

theorem run_advance (count : Nat) :
    (advance count).run ⟨index, depth⟩ = .ok ((), ⟨index + count, depth⟩) := rfl

theorem run_modify (f : Position → Position) (position : Position) :
    (modify f : Build Unit).run position = .ok ((), f position) := rfl

theorem ok_bind (value : α) (f : α → Except Failure β) : (Except.ok value >>= f) = f value := rfl

theorem error_bind (failure : Failure) (f : α → Except Failure β) :
    (Except.error failure >>= f) = .error failure := rfl

theorem run_node (h : Span.Within source ⟨start, stop⟩) (build : Place → SyntaxTree)
    (position : Position) :
    (node source build start stop).run position =
      .ok (build (source.locate ⟨start, stop⟩), position) := by
  rw [node, Source.place?_eq h]
  rfl

/-- Where the list of type arguments closes, if a call follows. -/
theorem closingAngle?_eq (depth index : Nat) (tokens : List Token) :
    closingAngle? (depth + 1) index tokens = .ok ((closeAngle depth tokens).bind fun found =>
      if opensCall found.2.2 then some (index + found.1.length) else none) := by
  induction tokens generalizing depth index with
  | nil => rfl
  | cons token tokens ih =>
    -- The builder counts one more open bracket, the one that opens the list.
    have step (depth : Nat) : closingAngle? (depth + 1) (index + 1) tokens =
        .ok (((closeAngle depth tokens).map fun found => (token :: found.1, found.2)).bind
          fun found => if opensCall found.2.2 then some (index + found.1.length) else none) := by
      rw [ih, Option.bind_map]
      simp only [Function.comp_def, List.length_cons, Nat.add_assoc, Nat.add_comm 1]
    rw [closingAngle?.eq_def, closeAngle.eq_def]
    obtain ⟨lexeme, span⟩ := token
    cases lexeme with
    | identifier => exact step depth
    | operator text =>
      dsimp only
      by_cases hopen : text = "<"
      · rw [if_pos hopen, if_pos hopen]
        exact step (depth + 1)
      rw [if_neg hopen, if_neg hopen]
      by_cases hclose : text = ">"
      · rw [if_pos hclose, if_pos hclose]
        cases depth with
        | zero => rfl
        | succ depth => exact step depth
      rw [if_neg hclose, if_neg hclose]
      by_cases hpart : typeOperators.contains text = true
      · rw [if_pos hpart, if_pos hpart]
        exact step depth
      · rw [if_neg hpart, if_neg hpart]
        rfl
    | _ => rfl

/-- The type argument of some tokens has been read from `first` to `last`. -/
structure Pending (tokens : List Token) (first : Option Nat) (last : Nat) : Prop where
  first_eq : first = tokens.head?.map (·.span.start)
  last_eq : ∀ token, tokens.getLast? = some token → last = token.span.stop

theorem Pending.nil (last : Nat) : Pending [] none last := ⟨rfl, nofun⟩

theorem Pending.concat (h : Pending tokens first last) (token : Token) :
    Pending (tokens ++ [token]) (some (first.getD token.span.start)) token.span.stop := by
  refine ⟨?_, ?_⟩
  · rw [h.first_eq]
    cases tokens <;> rfl
  · intro found hf
    rw [List.getLast?_concat] at hf
    cases hf
    rfl

theorem Pending.run_typeArgument (h : Pending tokens first last)
    (hw : ∀ span ∈ Span.ofTokens? tokens, span.Within source) (position : Position) :
    (typeArgument source first last).run position =
      .ok ((Span.ofTokens? tokens).toList.map (.typeArgument <| source.locate ·), position) := by
  rw [h.first_eq]
  cases tokens with
  | nil => rfl
  | cons token tokens =>
    have hl := List.getLast?_eq_some_getLast (List.cons_ne_nil token tokens)
    simp only [Span.ofTokens?, hl] at hw ⊢
    have hw := hw _ rfl
    rw [← h.last_eq _ hl] at hw ⊢
    simp only [typeArgument, List.head?_cons, Option.map_some, run_bind, run_node hw, ok_bind]
    rfl

theorem filterMap_ofTokens? (segment : List Token) (segments : List (List Token)) :
    (segment :: segments).filterMap Span.ofTokens? =
      (Span.ofTokens? segment).toList ++ segments.filterMap Span.ofTokens? := by
  rw [List.filterMap_cons]
  cases Span.ofTokens? segment <;> rfl

/-- The type argument that is being read, and those behind it. -/
theorem Pending.run_segments {inside segment : List Token} {more : List (List Token)}
    (h : Pending tokens first last) (hr : source.tokens.drop index = inside ++ behind)
    (hs : inside.length ≤ steps) (ht : typeSegments angles inside = segment :: more)
    (hw : ∀ span ∈ ((tokens ++ segment) :: more).filterMap Span.ofTokens?, span.Within source) :
    (segments source (index + inside.length) angles first last (steps + 1)).run ⟨index, depth⟩ =
      .ok ((((tokens ++ segment) :: more).filterMap Span.ofTokens?).map
        (.typeArgument <| source.locate ·), ⟨index + inside.length, depth⟩) := by
  induction inside generalizing index steps angles tokens first last segment more with
  | nil =>
    cases ht
    have hlt : ¬ index < index + ([] : List Token).length := Nat.lt_irrefl _
    rw [List.append_nil, filterMap_ofTokens?, List.filterMap_nil, List.append_nil] at hw ⊢
    rw [segments, run_bind, run_get, ok_bind, if_neg hlt]
    exact h.run_typeArgument (fun span hs => hw span (Option.mem_toList.2 hs)) _
  | cons token inside ih =>
    obtain ⟨hget, hd⟩ := Source.getElem?_of_rest hr
    obtain ⟨steps, rfl⟩ := Nat.exists_eq_succ_of_ne_zero (Nat.ne_of_gt (Nat.zero_lt_of_lt hs))
    have hle := Nat.le_of_succ_le_succ hs
    have hlt : index < index + (token :: inside).length :=
      Nat.lt_add_of_pos_right (Nat.succ_pos inside.length)
    have hstop : index + (token :: inside).length = index + 1 + inside.length := by
      rw [List.length_cons, Nat.add_assoc, Nat.add_comm 1]
    rw [segments, run_bind, run_get, ok_bind, if_pos hlt, hget, hstop]
    dsimp only
    rw [run_bind, run_advance, ok_bind]
    rw [typeSegments] at ht
    split at ht
    · next hcomma =>
      cases ht
      have hn := Pending.nil last
      obtain ⟨segment, more, hrest⟩ := exists_typeSegments 0 inside
      rw [List.append_nil, filterMap_ofTokens?] at hw ⊢
      obtain ⟨hw, hws⟩ := List.forall_mem_append.1 hw
      rw [hrest] at hws ⊢
      rw [if_pos hcomma, run_bind,
        h.run_typeArgument fun span hs => hw span (Option.mem_toList.2 hs), ok_bind, run_bind,
        ih hn hd.symm hle hrest hws]
      rw [List.map_append]
      rfl
    · next hcomma =>
      rw [if_neg hcomma]
      obtain ⟨segment', more', hrest⟩ := exists_typeSegments
        (if token.lexeme = .operator "<" then angles + 1
          else if token.lexeme = .operator ">" then angles - 1 else angles) inside
      dsimp only at ht
      rw [hrest] at ht
      cases ht
      rw [List.append_cons] at hw ⊢
      exact ih (h.concat token) hd.symm hle hrest hw

theorem run_segments {inside : List Token} (depth : Nat)
    (hd : source.tokens.drop index = inside ++ behind)
    (hw : ∀ span ∈ (typeSegments 0 inside).filterMap Span.ofTokens?, span.Within source) :
    (segments source (index + inside.length) 0 none 0 (source.tokens.length + 1)).run
        ⟨index, depth⟩ =
      .ok (((typeSegments 0 inside).filterMap Span.ofTokens?).map
        (.typeArgument <| source.locate ·), ⟨index + inside.length, depth⟩) := by
  obtain ⟨segment, more, hs⟩ := exists_typeSegments 0 inside
  have hl := congrArg List.length hd
  rw [List.length_drop, List.length_append] at hl
  have hsteps : inside.length ≤ source.tokens.length := by omega
  rw [hs] at hw ⊢
  exact (Pending.nil 0).run_segments hd hsteps hs hw

theorem closingAngle?_head (hget : source.tokens[index]? = some token)
    (ht : token.lexeme = .operator "<") :
    closingAngle? 0 index (source.tokens.drop index) =
      .ok ((closeAngle 0 (source.tokens.drop (index + 1))).bind fun found =>
        if opensCall found.2.2 then some (index + 1 + found.1.length) else none) := by
  have hr : source.tokens.drop index = token :: source.tokens.drop (index + 1) :=
    Source.rest_eq hget
  rw [← closingAngle?_eq, hr, closingAngle?, ht]
  rfl

theorem run_lift (value : Except Failure α) (position : Position) :
    (liftM value : Build α).run position = value >>= fun value => .ok (value, position) := rfl

theorem run_typeArguments {types : List Outline} (depth : Nat) (hpos : 0 < index)
    (hi : index ≤ source.tokens.length)
    (h : readTypeArguments (source.cursorAt index) = (types, next)) :
    ∃ stop, stop ≤ source.tokens.length ∧ source.cursorAt stop = next ∧
      (typeArguments source).run ⟨index, depth⟩ =
        .ok (types.map (Node.map source.locate), ⟨stop, depth⟩) := by
  have hlaid := laid_readTypeArguments (Source.sound_cursorAt hi) h
  rw [readTypeArguments, typeArgumentTokens?] at h
  cases hget : source.tokens[index]? with
  | none =>
    rw [Source.rest_of_getElem?_none hget] at h
    cases h
    refine ⟨index, hi, rfl, ?_⟩
    simp only [typeArguments, run_bind, run_get, ok_bind, hget]
    rfl
  | some token =>
    have hb := touches_iff hpos hget (.operator "<")
    rw [Source.rest_eq hget] at h
    dsimp only at h
    simp only [typeArguments, run_bind, run_get, ok_bind]
    by_cases ho : token.lexeme = .operator "<" ∧
        token.span.start = (source.cursorAt index).previousEnd
    · rw [if_pos ho] at h
      rw [if_pos (hb.2 ho), run_bind, run_lift, closingAngle?_head hget ho.1]
      cases hc : closeAngle 0 (source.tokens.drop (index + 1)) with
      | none =>
        rw [hc] at h
        cases h
        exact ⟨index, hi, rfl, rfl⟩
      | some found =>
        obtain ⟨inside, close, rest⟩ := found
        rw [hc] at h
        dsimp only at h
        rw [Option.bind_some]
        dsimp only
        by_cases hopens : opensCall rest = true
        · rw [if_pos hopens] at h ⊢
          have hd := (closeAngle_spec hc).1
          cases h
          obtain ⟨hclose, rfl⟩ := Source.getElem?_of_rest (Source.rest_of_append hd)
          have hle := Source.lt_of_getElem? hclose
          have hw : ∀ span ∈ (typeSegments 0 inside).filterMap Span.ofTokens?,
              span.Within source :=
            fun span hm => (hlaid.sound _ (List.mem_map_of_mem hm)).within
          refine ⟨index + 1 + inside.length + 1, hle, (Source.past_eq hclose).symm, ?_⟩
          simp only [ok_bind, run_bind, run_advance, run_segments depth hd hw, run_modify,
            run_pure, List.map_map, Function.comp_def, Node.map]
        · rw [if_neg hopens] at h ⊢
          cases h
          exact ⟨index, hi, rfl, rfl⟩
    · rw [if_neg ho] at h
      rw [if_neg (mt hb.1 ho)]
      cases h
      exact ⟨index, hi, rfl, rfl⟩

namespace Follows

variable {interior : Interior}

/-- One step for each token that is left is enough, and one more to see the end. -/
theorem items {index : Nat} (h : Follows source limit n depth interior) (setting : Setting)
    (carried : Bool)
    (hi : index ≤ source.tokens.length) (hs : source.tokens.length ≤ index + steps) :
    Mirrors source limit depth (List.map (Node.map source.locate))
      ((items source interior.argument setting carried (steps + 1)).run ⟨index, depth⟩)
      (sequenceItems (expressionWithin source n) setting carried (source.cursorAt index)) := by
  cases hget : source.tokens[index]? with
  | none =>
    rw [sequenceItems_of_nil (Source.rest_of_getElem?_none hget)]
    simp only [Indexed.items, run_bind, run_peek, ok_bind, hget, run_pure]
    exact ⟨index, hi, rfl, rfl⟩
  | some token =>
    have hr := Source.rest_eq hget
    have hlt := Source.lt_of_getElem? hget
    obtain ⟨steps, rfl, hsteps⟩ := Source.steps_of_getElem? hget hs
    by_cases hstop : (token.lexeme.isClosing || token.lexeme == setting.separator) = true
    · rw [sequenceItems_of_stop hr (by simpa using hstop)]
      simp only [Indexed.items, run_bind, run_peek, ok_bind, hget, if_pos hstop, run_pure]
      exact ⟨index, hi, rfl, rfl⟩
    by_cases hbreak : token.lexeme.isLineBreak = true
    · rw [sequenceItems_of_lineBreak hr (Lexeme.isLineBreak_iff.1 hbreak), Source.past_eq hget]
      simp only [Indexed.items, run_bind, run_peek, ok_bind, hget, if_neg hstop, if_pos hbreak,
        run_get]
      split
      · simp only [run_bind, run_advance, ok_bind]
        exact items h setting carried hlt hsteps
      · exact ⟨index, hi, rfl, rfl⟩
    rw [sequenceItems_of_starts (expressionWithin_advances ..) hr
      (Setting.starts_of_not hstop hbreak), Source.past_eq hget]
    simp only [Indexed.items, run_bind, run_peek, ok_bind, hget, if_neg hstop, if_neg hbreak]
    refine (h.argument hget).bind fun item mid hmid hread => ?_
    rw [← Source.past_eq hget] at hread
    have hle := Source.le_of_length_le (expressionWithin_advances _ _ hread) hmid hlt
    simp only [Node.isToken_map]
    exact (items h setting _ hmid (by omega)).map fun _ => rfl
termination_by steps

theorem sequence (h : Follows source limit n depth interior) (setting : Setting)
    (hi : index ≤ source.tokens.length) :
    Mirrors source limit depth (Option.map (Node.map source.locate))
      ((Indexed.sequence source interior.argument setting).run ⟨index, depth⟩)
      (readSequence (expressionWithin source n) setting (source.cursorAt index)) := by
  have hrun := h.items setting false hi
    (Nat.le_add_left source.tokens.length index)
  rw [readSequence]
  cases hitems : sequenceItems (expressionWithin source n) setting false
    (source.cursorAt index) with
  | none =>
    simp only [Indexed.sequence, run_bind, hrun.of_none hitems, error_bind]
    rfl
  | some found =>
    obtain ⟨nodes, next⟩ := found
    obtain ⟨stop, hstop, rfl, hrun⟩ := hrun.of_some hitems
    have hlaid := ((Level.all source n).items hitems).spanned (Source.sound_cursorAt hi)
    refine ⟨stop, hstop, rfl, ?_⟩
    simp only [Indexed.sequence, run_bind, hrun, ok_bind]
    rcases nodes with _ | ⟨first, _ | ⟨second, more⟩⟩
    · rfl
    · rfl
    · have hw := (hlaid.collapse.sound _ (List.mem_singleton_self _)).within
      have hlast : ((second :: more).map (Node.map source.locate)).getLast
          (List.cons_ne_nil _ _) = ((second :: more).getLast (List.cons_ne_nil _ _)).map
            source.locate := List.getLast_map _
      simp only [List.map_cons] at hlast ⊢
      rw [hlast]
      simp only [run_bind, Node.info_map, Source.locate, run_node hw, ok_bind, run_pure, collapse,
        Option.map_some, Node.map, List.map_cons]

theorem statements {index : Nat} (h : Follows source limit n depth interior)
    (close : Option Bracket) (hi : index ≤ source.tokens.length)
    (hs : source.tokens.length ≤ index + steps) :
    Mirrors source limit depth (List.map (Node.map source.locate))
      ((Indexed.statements source interior.argument close (steps + 1)).run ⟨index, depth⟩)
      (readStatements (expressionWithin source n) close (source.cursorAt index)) := by
  cases hget : source.tokens[index]? with
  | none =>
    rw [readStatements_of_nil (Source.rest_of_getElem?_none hget)]
    simp only [Indexed.statements, run_bind, run_peek, ok_bind, hget, run_pure]
    exact ⟨index, hi, rfl, rfl⟩
  | some token =>
    have hr := Source.rest_eq hget
    have hlt := Source.lt_of_getElem? hget
    obtain ⟨steps, rfl, hsteps⟩ := Source.steps_of_getElem? hget hs
    have hbehind := statements h close hlt hsteps
    rcases Setting.statement.lexeme_cases token.lexeme with ht | ⟨bracket, ht⟩ | ht
    · rw [readStatements_of_skip hr ht, Source.past_eq hget]
      rcases ht with ht | ht <;>
        simp only [Indexed.statements, run_bind, run_peek, ok_bind, hget, ht, Setting.separator,
          run_advance] <;>
        exact hbehind
    · rw [readStatements_of_closing hr ht, Source.past_eq hget]
      simp only [Indexed.statements, run_bind, run_peek, ok_bind, hget, ht, eq_comm (a := close)]
      split
      · exact ⟨index, hi, rfl, rfl⟩
      · have hw := (Source.heads_cursorAt hget).within
        simp only [run_bind, run_advance, ok_bind, run_node hw]
        exact hbehind.map fun _ => by rw [List.map_cons, Node.map]
    · rw [readStatements_of_starts (expressionWithin_advances ..) hr ht]
      have hbreak := ht.1
      have hsemi : token.lexeme ≠ .operator ";" := ht.2.1
      have hclosing := Lexeme.ne_closing ht.2.2
      simp only [Indexed.statements, run_bind, run_peek, ok_bind, hget]
      refine (h.sequence .statement hi).bind fun statement mid hmid hread => ?_
      have hle := Source.le_of_length_le
        ((expressionWithin_advances source n).sequence hr ht hread) hmid hlt
      exact (statements h close hmid (by omega)).map fun _ => by
        rw [List.map_append, Option.toList_map]
termination_by steps

theorem groupItems {index : Nat} (h : Follows source limit n depth interior) (close : Bracket)
    (hi : index ≤ source.tokens.length) (hs : source.tokens.length ≤ index + steps) :
    Mirrors source limit depth (List.map (Node.map source.locate))
      ((Indexed.groupItems source interior.argument close (steps + 1)).run ⟨index, depth⟩)
      (readGroupItems (expressionWithin source n) close (source.cursorAt index)) := by
  cases hget : source.tokens[index]? with
  | none =>
    rw [readGroupItems_of_nil (Source.rest_of_getElem?_none hget)]
    simp only [Indexed.groupItems, run_bind, run_peek, ok_bind, hget, run_pure]
    exact ⟨index, hi, rfl, rfl⟩
  | some token =>
    have hr := Source.rest_eq hget
    have hlt := Source.lt_of_getElem? hget
    obtain ⟨steps, rfl, hsteps⟩ := Source.steps_of_getElem? hget hs
    by_cases hbreak : token.lexeme = .lineBreak
    · rw [readGroupItems_of_lineBreak hr hbreak, Source.past_eq hget]
      simp only [Indexed.groupItems, run_bind, run_peek, ok_bind, hget, hbreak, run_advance]
      exact groupItems h close hlt hsteps
    cases hc : token.lexeme.isClosing with
    | true =>
      obtain ⟨bracket, ht⟩ := Lexeme.exists_closing hc
      rw [readGroupItems_of_closing hr ht, Source.past_eq hget]
      simp only [Indexed.groupItems, run_bind, run_peek, ok_bind, hget, ht]
      split
      · exact ⟨index + 1, hlt, rfl, rfl⟩
      · exact ⟨index, hi, rfl, rfl⟩
    | false =>
      rw [readGroupItems_of_starts (expressionWithin_advances ..) hr hbreak hc,
        Source.past_eq hget]
      have hclosing := Lexeme.ne_closing hc
      simp only [Indexed.groupItems, run_bind, run_peek, ok_bind, hget]
      refine (h.argument hget).bind fun item mid hmid hread => ?_
      rw [← Source.past_eq hget] at hread
      have hle := Source.le_of_length_le (expressionWithin_advances _ _ hread) hmid hlt
      exact (groupItems h close hmid (by omega)).map fun _ => rfl
termination_by steps

theorem run_argumentName (depth : Nat) (hi : index ≤ source.tokens.length)
    (hn : readArgumentName (source.cursorAt index) = (name, next)) :
    ∃ stop, stop ≤ source.tokens.length ∧ source.cursorAt stop = next ∧
      (argumentName source).run ⟨index, depth⟩ = .ok (name, ⟨stop, depth⟩) := by
  simp only [argumentName, run_bind, run_get, ok_bind]
  split
  · next hget hsign =>
    have hr := (Source.rest_eq hget).trans (congrArg _ (Source.rest_eq hsign))
    rw [readArgumentName, hr] at hn
    cases hn
    exact ⟨index + 2, Source.lt_of_getElem? hsign, (Source.past_eq hsign).symm, rfl⟩
  · next hne =>
    rcases readArgumentName_eq (source.cursorAt index) with
      h | ⟨⟨lexeme, span⟩, ⟨lexeme', span'⟩, rest, text, hr, hname, hsign, _⟩
    · rw [h] at hn
      cases hn
      exact ⟨index, hi, rfl, rfl⟩
    · obtain rfl : lexeme = .identifier text := hname
      obtain rfl : lexeme' = .operator "=" := hsign
      obtain ⟨hget, hrest⟩ := Source.getElem?_of_rest hr
      exact (hne _ _ _ hget (Source.getElem?_of_rest hrest.symm).1).elim

theorem valueArgument (h : Follows source limit n depth interior)
    (hget : source.tokens[index]? = some token)
    (hn : readArgumentName (source.cursorAt index) = (name, start)) :
    Mirrors source limit depth
      (Option.map fun expression => (argumentOutline token name expression).map source.locate)
      ((Indexed.valueArgument source interior.argument).run ⟨index, depth⟩)
      (readSequence (expressionWithin source n) .argument start) := by
  have hi := Nat.le_of_lt (Source.lt_of_getElem? hget)
  have hstart := startOf_of_getElem? hget
  obtain ⟨first, hfirst, hcursor, hname⟩ := run_argumentName depth hi hn
  have hrun := h.sequence .argument hfirst
  rw [hcursor] at hrun
  cases hseq : readSequence (expressionWithin source n) .argument start with
  | none =>
    simp only [Indexed.valueArgument, run_bind, run_get, ok_bind, hname, hrun.of_none hseq,
      error_bind]
    rfl
  | some found =>
    obtain ⟨expression, next⟩ := found
    obtain ⟨stop, hstop, rfl, hrun⟩ := hrun.of_some hseq
    refine ⟨stop, hstop, rfl, ?_⟩
    simp only [Indexed.valueArgument, run_bind, run_get, ok_bind, hname, hrun, hstart]
    obtain ⟨nodes, rfl, hd⟩ := (Level.all source n).sequence hseq
    cases hnode : collapse nodes with
    | none => rfl
    | some expression =>
      have hc := Source.sound_cursorAt hi
      have hs : start = (readArgumentName (source.cursorAt index)).2 := by rw [hn]
      have hlaid := hd.spanned (hs ▸ hc.leads (readArgumentName_leads _))
      have hw : Span.Within source ⟨token.span.start, expression.info.stop⟩ := by
        have ha := (hs ▸ hlaid).argument (Source.rest_eq hget) hc name
        rw [hnode] at ha
        exact (ha.sound _ (List.mem_singleton_self _)).within
      simp only [Option.map_some, run_bind, Node.info_map, Source.locate, run_node hw, ok_bind,
        run_pure, argumentOutline, Node.map]

theorem valueArguments {index : Nat} (h : Follows source limit n depth interior)
    (hi : index ≤ source.tokens.length) (hs : source.tokens.length ≤ index + steps) :
    Mirrors source limit depth (List.map (Node.map source.locate))
      ((Indexed.valueArguments source interior.argument (steps + 1)).run ⟨index, depth⟩)
      (readValueArguments (expressionWithin source n) (source.cursorAt index)) := by
  cases hget : source.tokens[index]? with
  | none =>
    rw [readValueArguments_of_nil (Source.rest_of_getElem?_none hget)]
    simp only [Indexed.valueArguments, run_bind, run_peek, ok_bind, hget, run_pure]
    exact ⟨index, hi, rfl, rfl⟩
  | some token =>
    have hr := Source.rest_eq hget
    have hlt := Source.lt_of_getElem? hget
    obtain ⟨steps, rfl, hsteps⟩ := Source.steps_of_getElem? hget hs
    rcases Setting.argument.lexeme_cases token.lexeme with ht | ⟨bracket, ht⟩ | ht
    · rw [readValueArguments_of_skip hr ht, Source.past_eq hget]
      rcases ht with ht | ht <;>
        simp only [Indexed.valueArguments, run_bind, run_peek, ok_bind, hget, ht,
          Setting.separator, run_advance] <;>
        exact valueArguments h hlt hsteps
    · rw [readValueArguments_of_closing hr ht, Source.past_eq hget]
      simp only [Indexed.valueArguments, run_bind, run_peek, ok_bind, hget, ht]
      split
      · exact ⟨index + 1, hlt, rfl, rfl⟩
      · exact ⟨index, hi, rfl, rfl⟩
    · rw [readValueArguments_of_starts (expressionWithin_advances ..) hr ht]
      have hbreak := ht.1
      have hcomma : token.lexeme ≠ .operator "," := ht.2.1
      have hclosing := Lexeme.ne_closing ht.2.2
      simp only [Indexed.valueArguments, run_bind, run_peek, ok_bind, hget]
      refine (h.valueArgument hget (Prod.eta _).symm).bind fun expression mid hmid hread => ?_
      have hle := Source.le_of_length_le
        ((expressionWithin_advances source n).argument hr ht hread) hmid hlt
      exact (valueArguments h hmid (by omega)).map fun _ => by
        rw [List.map_append, ← Option.toList_map, Option.map_map]
        rfl
termination_by steps

theorem callArguments (h : Follows source limit n depth interior)
    (hi : index ≤ source.tokens.length) :
    Mirrors source limit depth (Option.map (List.map (Node.map source.locate)))
      ((Indexed.callArguments source interior.argument).run ⟨index, depth⟩)
      (readCallArguments (expressionWithin source n) (source.cursorAt index)) := by
  simp only [Indexed.callArguments, run_bind, run_peek, ok_bind]
  cases hget : source.tokens[index]? with
  | none =>
    rw [readCallArguments_of_not_opens
      (Cursor.not_opens_nil (Source.rest_of_getElem?_none hget) _)]
    exact ⟨index, hi, rfl, rfl⟩
  | some token =>
    have hr := Source.rest_eq hget
    by_cases ht : token.lexeme = .opening .round
    · rw [readCallArguments_of_opens hr ht, Source.past_eq hget]
      simp only [if_pos ht, run_bind, run_advance, ok_bind]
      exact (h.valueArguments (Source.lt_of_getElem? hget)
        (Nat.le_add_left source.tokens.length (index + 1))).map fun _ => rfl
    · rw [readCallArguments_of_not_opens (Cursor.not_opens_cons hr ht)]
      simp only [if_neg ht]
      exact ⟨index, hi, rfl, rfl⟩

theorem trailingLambda (h : Follows source limit n depth interior)
    (hi : index ≤ source.tokens.length) :
    Mirrors source limit depth (Option.map (Node.map source.locate))
      ((Indexed.trailingLambda source interior.lambda).run ⟨index, depth⟩)
      (readTrailingLambda (lambdaWithin source n) (source.cursorAt index)) := by
  simp only [Indexed.trailingLambda, run_bind, run_peek, ok_bind]
  cases hget : source.tokens[index]? with
  | none =>
    rw [readTrailingLambda_of_not_opens
      (Cursor.not_opens_nil (Source.rest_of_getElem?_none hget) _)]
    exact ⟨index, hi, rfl, rfl⟩
  | some token =>
    have hr := Source.rest_eq hget
    by_cases ht : token.lexeme = .opening .curly
    · rw [readTrailingLambda_of_opens hr ht, Source.past_eq hget]
      simp only [if_pos ht, run_bind]
      exact (h.lambda hget).map fun _ => rfl
    · rw [readTrailingLambda_of_not_opens (Cursor.not_opens_cons hr ht)]
      simp only [if_neg ht]
      exact ⟨index, hi, rfl, rfl⟩

theorem named (h : Follows source limit n depth interior)
    (hget : source.tokens[index]? = some token) (ht : token.lexeme = .identifier text) :
    Mirrors source limit depth (Node.map source.locate)
      ((Indexed.named source interior).run ⟨index, depth⟩)
      (readNamed (interiorWithin source n) text token.span (source.cursorAt (index + 1))) := by
  have hheads := Source.heads_cursorAt hget
  have hlt := Source.lt_of_getElem? hget
  obtain ⟨lexeme, span⟩ := token
  subst ht
  rw [readNamed]
  dsimp only
  cases htypes : readTypeArguments (source.cursorAt (index + 1)) with
  | mk types behindTypes =>
    obtain ⟨first, hfirst, rfl, htypesRun⟩ :=
      run_typeArguments depth (Nat.succ_pos index) hlt htypes
    have hargumentsRun := h.callArguments hfirst
    simp only [Indexed.named, run_bind, run_peek, ok_bind, hget, run_advance,
      run_node hheads.within, htypesRun]
    split
    · next hnone =>
      simp only [hargumentsRun.of_none hnone]
      rfl
    · next arguments behindArguments hsome =>
      have ha := (Level.all source n).callArguments hsome
      obtain ⟨second, hsecond, rfl, hargumentsRun⟩ := hargumentsRun.of_some hsome
      have hlambdaRun := h.trailingLambda hsecond
      simp only [hargumentsRun, ok_bind]
      split
      · next hnone =>
        simp only [hlambdaRun.of_none hnone]
        rfl
      · next lambda behindLambda hsome =>
        have hl := (Level.all source n).trailingLambda hsome
        obtain ⟨stop, hstop, rfl, hlambdaRun⟩ := hlambdaRun.of_some hsome
        simp only [hlambdaRun, ok_bind, List.isEmpty_map, Option.isNone_map]
        split
        · refine ⟨stop, hstop, rfl, ?_⟩
          rw [Node.map]
          rfl
        · next hc =>
          have hcall : Derives source n (.named text span (source.cursorAt (index + 1)) _ _) :=
            .call htypes ha hl (Bool.eq_false_iff.2 hc)
          have hw := (hcall.spanned hheads).sound.within
          have hend : endBefore source stop = (source.cursorAt stop).previousEnd := rfl
          refine ⟨stop, hstop, rfl, ?_⟩
          simp only [run_bind, run_get, ok_bind, hend, run_node hw, Node.map_call]
          rw [Node.map]
          cases arguments <;> rfl

end Follows

end Indexed

end StateDiagram
