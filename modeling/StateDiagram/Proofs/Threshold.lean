import Mathlib.Data.Nat.Find
import StateDiagram.Proofs.Allowance
import StateDiagram.Proofs.Limit

namespace StateDiagram

set_option autoImplicit true

def openings (tokens : List Token) : Nat := tokens.countP (·.lexeme.isOpening)

/-- Two levels for each opening bracket among the tokens, and some to spare. -/
def levels (tokens : List Token) (spare : Nat) : Nat := 2 * openings tokens + spare

theorem levels_of_suffix {tokens more : List Token} (h : tokens <:+ more) (spare : Nat) :
    levels tokens spare ≤ levels more spare :=
  Nat.add_le_add_right (Nat.mul_le_mul_left 2 h.sublist.countP_le) spare

theorem levels_opening {token : Token} (h : token.lexeme = .opening bracket) (tokens : List Token)
    (spare : Nat) : levels (token :: tokens) spare = levels tokens (spare + 2) := by
  rw [levels, openings, List.countP_cons_of_pos (by rw [h]; rfl), ← openings, levels]
  omega

/-- The levels that are enough for the phrase, from what is still to be read of it. -/
def Phrase.demand : Phrase → Nat
  | .expression token cursor _ _ => levels (token :: cursor.rest) 1
  | .primary token cursor _ _ => levels (token :: cursor.rest) 0
  | .suffixes _ cursor _ _ | .named _ _ cursor _ _ | .callArguments cursor _ _
  | .trailingLambda cursor _ _ => levels cursor.rest 0
  | .valueArguments cursor _ _ | .items _ _ cursor _ _ | .statements _ cursor _ _
  | .groupItems _ cursor _ _ => levels cursor.rest 1
  | .lambda _ cursor _ _ | .group _ _ cursor _ _ => levels cursor.rest 2

/-- The limit `m` is no smaller than one that was enough, or no smaller than what is demanded. -/
def Allows (m n demand : Nat) : Prop := n ≤ m ∨ demand ≤ m

namespace Allows

variable {cursor : Cursor}

theorem mono (h : Allows m n demand) (hd : less ≤ demand) : Allows m n less :=
  h.imp_right (Nat.le_trans hd)

theorem exists_pred (h : Allows m (n + 1) (demand + 1)) : ∃ k, m = k + 1 ∧ Allows k n demand := by
  cases m with
  | zero => exact (h.elim (Nat.not_succ_le_zero n) (Nat.not_succ_le_zero demand)).elim
  | succ k => exact ⟨k, rfl, h.imp Nat.le_of_succ_le_succ Nat.le_of_succ_le_succ⟩

theorem later (h : Allows m n (levels more spare)) (hs : tokens <:+ more) :
    Allows m n (levels tokens spare) :=
  h.mono (levels_of_suffix hs spare)

theorem next (h : Allows m n (levels cursor.rest spare)) (hr : cursor.rest = token :: rest) :
    Allows m n (levels rest spare) :=
  h.later (Cursor.Leads.head hr).suffix

theorem front (h : Allows m n (levels cursor.rest spare)) (hr : cursor.rest = token :: rest) :
    Allows m n (levels (token :: rest) spare) :=
  hr ▸ h

/-- Behind an opening bracket there are two more levels to spare. -/
theorem inside (h : Allows m n (levels cursor.rest spare)) (hr : cursor.rest = token :: rest)
    (ht : token.lexeme = .opening bracket) (hl : less ≤ spare + 2) :
    Allows m n (levels rest less) := by
  apply h.mono
  rw [hr, levels_opening ht]
  exact Nat.add_le_add_left hl _

end Allows

/-- No more levels are needed than are demanded, and more levels change nothing. -/
theorem Derives.relax (h : Derives source n phrase) (hm : Allows m n phrase.demand) :
    Derives source m phrase := by
  induction h generalizing m with
  | expression hp _ ihp ihs =>
    obtain ⟨k, rfl, hk⟩ := hm.exists_pred
    exact .expression (ihp hk) (ihs (hk.later (hp.suffix.trans (List.suffix_cons ..))))
  | name ht _ ih => exact .name ht (ih (hm.later (List.suffix_cons ..)))
  | braces ht _ ih => exact .braces ht (ih (hm.mono (Nat.le_of_eq (levels_opening ht ..).symm)))
  | brackets ht hb _ ih =>
    exact .brackets ht hb (ih (hm.mono (Nat.le_of_eq (levels_opening ht ..).symm)))
  | string ht => exact .string ht
  | literal ht => exact .literal ht
  | symbol ht => exact .symbol ht
  | noSuffix hd hi => exact .noSuffix hd hi
  | member hd hn _ ihn ihs =>
    obtain ⟨dot, name, hs⟩ := memberAhead?_suffix hd
    have hb := hm.later (((List.suffix_cons ..).trans (List.suffix_cons ..)).trans hs)
    exact .member hd (ihn hb) (ihs (hb.later hn.suffix))
  | index hd hr ht ha hg _ ihg ihs =>
    exact .index hd hr ht ha (ihg (hm.inside hr ht (Nat.le_refl _)))
      (ihs ((hm.next hr).later hg.suffix))
  | identifier ht ha _ iha ihl =>
    have hb := hm.later (readTypeArguments_leads ht).suffix
    exact .identifier ht (iha hb) (ihl (hb.later ha.suffix))
  | call ht ha _ hc iha ihl =>
    have hb := hm.later (readTypeArguments_leads ht).suffix
    exact .call ht (iha hb) (ihl (hb.later ha.suffix)) hc
  | noArguments ho => exact .noArguments ho
  | arguments hr ht _ ih => exact .arguments hr ht (ih (hm.inside hr ht (by decide)))
  | noLambda ho => exact .noLambda ho
  | trailing hr ht _ ih => exact .trailing hr ht (ih (hm.inside hr ht (Nat.le_refl _)))
  | argumentsEnd hr => exact .argumentsEnd hr
  | argumentsSkip hr ht _ ih => exact .argumentsSkip hr ht (ih (hm.next hr))
  | argumentsClose hr ht => exact .argumentsClose hr ht
  | argument hr ht hi _ ihi iha =>
    have hb := hm.later (readArgumentName_leads _).suffix
    exact .argument hr ht (ihi hb) (iha (hb.later hi.suffix))
  | itemsEnd hr => exact .itemsEnd hr
  | itemsStop hr ht => exact .itemsStop hr ht
  | itemsBreak hr ht hs => exact .itemsBreak hr ht hs
  | itemsContinue hr ht hs _ ih => exact .itemsContinue hr ht hs (ih (hm.next hr))
  | item hr ht he _ ihe ihi =>
    exact .item hr ht (ihe (hm.front hr)) (ihi ((hm.next hr).later he.suffix))
  | statementsEnd hr => exact .statementsEnd hr
  | statementsSkip hr ht _ ih => exact .statementsSkip hr ht (ih (hm.next hr))
  | statementsClose hr ht hc => exact .statementsClose hr ht hc
  | stray hr ht hc _ ih => exact .stray hr ht hc (ih (hm.next hr))
  | statement hr ht hi _ ihi ihs => exact .statement hr ht (ihi hm) (ihs (hm.later hi.suffix))
  | lambda hp _ ih =>
    obtain ⟨k, rfl, hk⟩ := hm.exists_pred
    exact .lambda hp (ih (hk.later (readParameters_leads hp).suffix))
  | group _ ih =>
    obtain ⟨k, rfl, hk⟩ := hm.exists_pred
    exact .group (ih hk)
  | groupEnd hr => exact .groupEnd hr
  | groupSkip hr ht _ ih => exact .groupSkip hr ht (ih (hm.next hr))
  | groupClose hr ht => exact .groupClose hr ht
  | groupItem hr ht hc he _ ihe ihg =>
    exact .groupItem hr ht hc (ihe (hm.front hr)) (ihg ((hm.next hr).later he.suffix))

namespace Source

variable {source : Source} {outline : Outline}

theorem outline?_of_allows (h : source.outline? limit = some outline)
    (hm : Allows more limit (levels source.tokens 1)) : source.outline? more = some outline := by
  obtain ⟨nodes, next, rfl, hd⟩ := outline?_eq_some_iff.1 h
  exact outline?_eq_some_iff.2 ⟨nodes, next, rfl, hd.relax hm⟩

theorem exists_threshold (source : Source) : ∃ outline threshold,
    threshold ≤ levels source.tokens 1 ∧
      ∀ limit, source.outline? limit = if threshold ≤ limit then some outline else none := by
  classical
  obtain ⟨outline, ho⟩ :=
    Option.isSome_iff_exists.1 (isSome_outline? (Nat.le_refl (2 * source.tokens.length)))
  have henough := outline?_of_allows ho (.inr (Nat.le_refl _))
  have hex : ∃ limit, source.outline? limit = some outline := ⟨_, henough⟩
  refine ⟨outline, Nat.find hex, Nat.find_min' hex henough, fun limit => ?_⟩
  split
  · next hle => exact outline?_of_allows (Nat.find_spec hex) (.inl hle)
  · next hlt =>
    -- A tree that is read under a smaller limit would be the same one.
    rw [Option.eq_none_iff_forall_ne_some]
    intro other hs
    have hsame := outline?_of_allows hs (.inr (Nat.le_refl _))
    rw [henough] at hsame
    cases hsame
    exact hlt (Nat.find_min' hex hs)

end Source

/-- What one result gives, the other one gives too. -/
def Keeps (result other : Except Fault α) : Prop :=
  ∀ value, result = .ok value → other = .ok value

namespace Keeps

theorem refl (result : Except Fault α) : Keeps result result := fun _ => id

theorem bind {result other : Except Fault α} {f g : α → Except Fault β} (h : Keeps result other)
    (hn : ∀ value, Keeps (f value) (g value)) : Keeps (result >>= f) (other >>= g) := by
  intro value he
  obtain ⟨first, hf, he⟩ := bind_eq_ok.1 he
  rw [h first hf]
  exact hn first value he

theorem bindClosed : BindClosed fun _ => Keeps where
  ok _ := .refl _
  bind := .bind

theorem checkDepth (h : limit ≤ more) (depth : Nat) :
    Keeps (StateDiagram.checkDepth limit depth) (StateDiagram.checkDepth more depth) := by
  rw [StateDiagram.checkDepth, StateDiagram.checkDepth]
  split
  · next hd =>
    rw [if_pos (Nat.le_trans hd h)]
    exact .refl _
  · intro value he
    cases he

end Keeps

theorem keeps_handlerTransitions (h : limit ≤ more) (depth : Nat) (state event : String)
    (body : SyntaxTree) : Keeps (handlerTransitions limit depth state event body)
      (handlerTransitions more depth state event body) :=
  (Keeps.checkDepth h depth).bind fun _ => .refl _

theorem keeps_extend (h : limit ≤ more) (depth : Nat) (state : State) (call : BuilderCall) :
    Keeps (State.extend limit depth state call) (State.extend more depth state call) := by
  rw [State.extend, State.extend]
  split
  · split
    · exact (keeps_handlerTransitions h _ _ _ _).bind fun _ => .refl _
    · exact .refl _
  all_goals exact .refl _

theorem keeps_state? (h : limit ≤ more) (depth : Nat) (call : BuilderCall) :
    Keeps (call.state? limit depth) (call.state? more depth) := by
  refine (Keeps.checkDepth h depth).bind fun _ => ?_
  split
  · exact .refl _
  · split
    · exact .refl _
    · refine (Keeps.bindClosed.foldlM (fun inner _ state => ?_) _).bind fun _ => .refl _
      exact keeps_extend h depth state inner

theorem keeps_statement? (h : limit ≤ more) (depth : Nat) (call : BuilderCall) :
    Keeps (call.statement? limit depth) (call.statement? more depth) := by
  rw [BuilderCall.statement?, BuilderCall.statement?]
  split
  · exact .refl _
  · exact (keeps_state? h _ call).bind fun _ => .refl _
  · exact .refl _

theorem keeps_ofBody (h : limit ≤ more) (depth : Nat) (body : SyntaxTree) :
    Keeps (Machine.ofBody limit depth body) (Machine.ofBody more depth body) :=
  (Keeps.checkDepth h depth).bind fun _ =>
    (Keeps.bindClosed.mapM fun call _ => keeps_statement? h depth call).bind fun _ => .refl _

theorem keeps_ownMachines (h : limit ≤ more) (depth : Nat) (node : SyntaxTree) :
    Keeps (node.ownMachines limit depth) (node.ownMachines more depth) := by
  rw [SyntaxTree.ownMachines, SyntaxTree.ownMachines]
  split
  · exact .refl _
  · split
    · exact .refl _
    · exact (keeps_ofBody h _ _).bind fun _ => .refl _

theorem keeps_machinesAt (h : limit ≤ more) (depth : Nat) (node : SyntaxTree) :
    Keeps (node.machinesAt limit depth) (node.machinesAt more depth) := by
  induction node using Node.induction generalizing depth with
  | step node ih =>
    rw [SyntaxTree.machinesAt_eq, SyntaxTree.machinesAt_eq]
    exact (Keeps.checkDepth h depth).bind fun _ =>
      (Keeps.bindClosed.mapM fun child hc => ih child hc _).bind fun _ =>
        (keeps_ownMachines h depth node).bind fun _ => .refl _

/-- From some limit on, which is at most twice the number of opening brackets and one more, a source
has one and the same tree, and under a smaller limit nothing but that limit is complained about.
Machines that are extracted under some limits are extracted under greater ones too. -/
theorem parse_threshold (text : String) :
    (∃ tree threshold, threshold ≤ 2 * openings (Source.ofString text).tokens + 1 ∧
      ∀ limit, SyntaxTree.parse limit text =
        if threshold ≤ limit then .ok tree else .error (.nestingTooDeep limit)) ∧
    ∀ limits more : Limits, limits.syntaxDepth ≤ more.syntaxDepth →
      limits.extractionDepth ≤ more.extractionDepth → ∀ machines,
        extractMachines limits text = .ok machines → extractMachines more text = .ok machines := by
  obtain ⟨outline, threshold, hle, ho⟩ := (Source.ofString text).exists_threshold
  have hparse (limit : Nat) : SyntaxTree.parse limit text =
      if threshold ≤ limit then .ok (outline.map (Source.ofString text).locate)
      else .error (.nestingTooDeep limit) := by
    rw [SyntaxTree.parse, Source.parse, ho]
    by_cases hl : threshold ≤ limit
    · rw [if_pos hl, if_pos hl]
    · rw [if_neg hl, if_neg hl]
  refine ⟨⟨_, threshold, hle, hparse⟩, fun limits more hs he machines h => ?_⟩
  obtain ⟨tree, ht, hm⟩ := bind_eq_ok.1 h
  have hmore : SyntaxTree.parse more.syntaxDepth text = .ok tree := by
    rw [hparse] at ht ⊢
    split at ht
    · next hlimit => rwa [if_pos (Nat.le_trans hlimit hs)]
    · cases ht
  exact bind_eq_ok.2 ⟨tree, hmore, keeps_machinesAt he 0 tree machines hm⟩

/-- Three brackets stand in each other, and nothing in the inner one takes up its last level. -/
theorem parse_threshold_handler :
    openings (Source.ofString
      "StateMachine.create \x7b state<A> \x7b on<E> \x7b \x7d \x7d \x7d").tokens = 3 ∧
    6 ≤ 7 ∧ 3 ≤ 256 ∧
    extractMachines ⟨6, 3⟩
      "StateMachine.create \x7b state<A> \x7b on<E> \x7b \x7d \x7d \x7d" =
        .ok [⟨[.state { name := "A" }]⟩] ∧
    extractMachines ⟨7, 256⟩
      "StateMachine.create \x7b state<A> \x7b on<E> \x7b \x7d \x7d \x7d" =
        .ok [⟨[.state { name := "A" }]⟩] := by
  have he : extractMachines ⟨6, 3⟩
      "StateMachine.create \x7b state<A> \x7b on<E> \x7b \x7d \x7d \x7d" =
        .ok [⟨[.state { name := "A" }]⟩] := by
    decide +kernel
  have hs : 6 ≤ 7 := by decide
  have hx : 3 ≤ 256 := by decide
  exact ⟨by decide +kernel, hs, hx, he, (parse_threshold _).2 ⟨6, 3⟩ ⟨7, 256⟩ hs hx _ he⟩

end StateDiagram
