import StateDiagram.Proofs.Evaluation
import StateDiagram.Proofs.Reading

namespace StateDiagram

set_option autoImplicit true

namespace Node

/-- The tree without its annotations and without the texts of parameters. -/
def shape : Node α → Node Unit
  | .file _ nodes => .file () (nodes.map shape)
  | .block _ nodes => .block () (nodes.map shape)
  | .call _ callee types values none =>
    .call () callee.shape (types.map shape) (values.map shape) none
  | .call _ callee types values (some trailing) =>
    .call () callee.shape (types.map shape) (values.map shape) (some trailing.shape)
  | .memberAccess _ receiver selector safe => .memberAccess () receiver.shape selector.shape safe
  | .lambda _ parameters body => .lambda () (parameters.map fun _ => "") body.shape
  | .valueArgument _ name expression => .valueArgument () name expression.shape
  | .typeArgument _ => .typeArgument ()
  | .stringLiteral _ content => .stringLiteral () content
  | .identifier _ name => .identifier () name
  | .literal _ => .literal ()
  | .group _ nodes => .group () (nodes.map shape)
  | .sequence _ nodes => .sequence () (nodes.map shape)
  | .token _ => .token ()
termination_by node => sizeOf node
decreasing_by all_goals exact sizeOf_lt_of_mem_children (by simp [children, *])

attribute [simp] shape

theorem shape_call (a : α) (callee : Node α) (types values : List (Node α))
    (trailing : Option (Node α)) :
    (call a callee types values trailing).shape =
      call () callee.shape (types.map shape) (values.map shape) (trailing.map shape) := by
  cases trailing <;> simp

theorem isToken_shape (node : Node α) : node.shape.isToken = node.isToken := by
  cases node <;> simp [shape_call, isToken]

theorem shape_map (f : α → β) (node : Node α) : (node.map f).shape = node.shape := by
  induction node using Node.induction with
  | step node ih =>
    cases node with
    | call a callee types values trailing =>
      cases trailing <;> simp_all [map_call, shape_call, children]
    | _ => simp_all [children]

end Node

theorem collapse_shape {items twins : List Outline}
    (h : items.map Node.shape = twins.map Node.shape) :
    (collapse items).map Node.shape = (collapse twins).map Node.shape := by
  match items, twins with
  | [], [] => rfl
  | [_], [_] | _ :: _ :: _, _ :: _ :: _ => simpa [collapse] using h
  | [], _ :: _ | _ :: _, [] | [_], _ :: _ :: _ | _ :: _ :: _, [_] => simp at h

/-- Tokens with the same lexemes, of which the same ones touch what ends in front of them. -/
inductive Alike : Nat → List Token → Nat → List Token → Prop where
  | nil (stop other : Nat) : Alike stop [] other []
  | cons {stop other : Nat} {token twin : Token} {rest more : List Token}
      (hl : token.lexeme = twin.lexeme) (ht : token.span.start = stop ↔ twin.span.start = other)
      (h : Alike token.span.stop rest twin.span.stop more) :
      Alike stop (token :: rest) other (twin :: more)

namespace Alike

theorem dropWhile (h : Alike stop tokens other twins) (p : Lexeme → Bool) :
    ∃ stop other, Alike stop (tokens.dropWhile (p ·.lexeme)) other
      (twins.dropWhile (p ·.lexeme)) := by
  induction h with
  | nil => exact ⟨0, 0, .nil 0 0⟩
  | @cons stop other token twin rest more hl ht h ih =>
    rw [List.dropWhile_cons, List.dropWhile_cons, ← hl]
    split
    · exact ih
    · exact ⟨stop, other, .cons hl ht h⟩

theorem leadsOn (h : Alike stop tokens other twins) : leadsOn tokens = leadsOn twins := by
  obtain ⟨stop, other, h⟩ := h.dropWhile Lexeme.isLineBreak
  rw [StateDiagram.leadsOn, StateDiagram.leadsOn]
  generalize tokens.dropWhile (·.lexeme.isLineBreak) = ahead at *
  generalize twins.dropWhile (·.lexeme.isLineBreak) = aheadTwins at *
  cases h with
  | nil => rfl
  | cons hl => exact congrArg Lexeme.isLeading hl

theorem closeAngle (h : Alike stop tokens other twins) (depth : Nat) :
    Option.Rel (fun found twin => found.1.map Token.lexeme = twin.1.map Token.lexeme ∧
        Alike found.2.1.span.stop found.2.2 twin.2.1.span.stop twin.2.2)
      (closeAngle depth tokens) (closeAngle depth twins) := by
  induction h generalizing depth with
  | nil => exact .none
  | @cons _ _ token twin rest more hl _ h ih =>
    have step (depth : Nat) : Option.Rel
        (fun found twin => found.1.map Token.lexeme = twin.1.map Token.lexeme ∧
          Alike found.2.1.span.stop found.2.2 twin.2.1.span.stop twin.2.2)
        ((StateDiagram.closeAngle depth rest).map fun found => (token :: found.1, found.2))
        ((StateDiagram.closeAngle depth more).map fun found => (twin :: found.1, found.2)) := by
      have hfound := ih depth
      generalize StateDiagram.closeAngle depth rest = found at *
      generalize StateDiagram.closeAngle depth more = foundTwin at *
      cases hfound with
      | none => exact .none
      | some hf => exact .some ⟨by rw [List.map_cons, List.map_cons, hl, hf.1], hf.2⟩
    rw [closeAngle.eq_def, closeAngle.eq_def depth (twin :: more)]
    dsimp only
    rw [← hl]
    split
    · exact step depth
    · split
      · exact step (depth + 1)
      · split
        · split
          · exact .some ⟨rfl, h⟩
          · exact step _
        · split
          · exact step depth
          · exact .none
    · exact .none

end Alike

theorem typeSegments_lexemes {tokens twins : List Token}
    (h : tokens.map Token.lexeme = twins.map Token.lexeme) (depth : Nat) :
    (typeSegments depth tokens).map (List.map Token.lexeme) =
      (typeSegments depth twins).map (List.map Token.lexeme) := by
  induction tokens generalizing depth twins with
  | nil =>
    obtain rfl := List.map_eq_nil_iff.1 h.symm
    rfl
  | cons token tokens ih =>
    obtain ⟨twin, twins, rfl, hl, ht⟩ := List.map_eq_cons_iff.1 h.symm
    rw [typeSegments, typeSegments, hl]
    split
    · rw [List.map_cons, List.map_cons, ih ht.symm]
    · dsimp only
      generalize (if token.lexeme = .operator "<" then depth + 1
        else if token.lexeme = .operator ">" then depth - 1 else depth) = inner
      have hs := ih ht.symm inner
      obtain ⟨segment, segments, he⟩ := exists_typeSegments inner tokens
      obtain ⟨other, others, ho⟩ := exists_typeSegments inner twins
      rw [he, ho] at hs
      rw [he, ho]
      simp only [List.map_cons, List.cons.injEq] at hs ⊢
      exact ⟨⟨hl.symm, hs.1⟩, hs.2⟩

/-- As many parts are left when the empty ones are left out. -/
theorem typeArguments_shape {segments others : List (List Token)}
    (h : segments.map (List.map Token.lexeme) = others.map (List.map Token.lexeme)) :
    ((segments.filterMap Span.ofTokens?).map Node.typeArgument).map Node.shape =
      ((others.filterMap Span.ofTokens?).map Node.typeArgument).map Node.shape := by
  induction segments generalizing others with
  | nil =>
    obtain rfl := List.map_eq_nil_iff.1 h.symm
    rfl
  | cons segment segments ih =>
    obtain ⟨other, others, rfl, hl, ht⟩ := List.map_eq_cons_iff.1 h.symm
    have hs := ih ht.symm
    cases segment with
    | nil =>
      obtain rfl := List.map_eq_nil_iff.1 hl
      exact hs
    | cons first rest =>
      obtain ⟨twin, more, rfl, _, _⟩ := List.map_eq_cons_iff.1 hl
      have hf := List.getLast?_eq_some_getLast (List.cons_ne_nil first rest)
      have ht := List.getLast?_eq_some_getLast (List.cons_ne_nil twin more)
      simp only [List.filterMap_cons, Span.ofTokens?, hf, ht, List.map_cons, Node.shape, hs]

namespace Cursor

/-- The tokens that are left are alike. -/
def Alike (cursor twin : Cursor) : Prop :=
  StateDiagram.Alike cursor.previousEnd cursor.rest twin.previousEnd twin.rest

namespace Alike

variable {cursor twin : Cursor} {token : Token} {rest : List Token}

theorem rest_nil (h : cursor.Alike twin) (hr : cursor.rest = []) : twin.rest = [] := by
  rw [Cursor.Alike, hr] at h
  generalize twin.rest = rest at *
  cases h
  rfl

theorem rest_cons (h : cursor.Alike twin) (hr : cursor.rest = token :: rest) :
    ∃ other more, twin.rest = other :: more ∧ other.lexeme = token.lexeme ∧
      (token.span.start = cursor.previousEnd ↔ other.span.start = twin.previousEnd) ∧
      (past token rest).Alike (past other more) := by
  rw [Cursor.Alike, hr] at h
  generalize twin.rest = tokens at *
  cases h with
  | cons hl ht h => exact ⟨_, _, rfl, hl.symm, ht, h⟩

theorem symm (h : cursor.Alike twin) : twin.Alike cursor := by
  unfold Cursor.Alike at *
  generalize cursor.previousEnd = stop at *
  generalize twin.previousEnd = other at *
  generalize cursor.rest = tokens at *
  generalize twin.rest = twins at *
  induction h with
  | nil => exact .nil ..
  | cons hl ht _ ih => exact .cons hl.symm ht.symm ih

theorem opens_iff (h : cursor.Alike twin) (bracket : Bracket) :
    cursor.opens bracket ↔ twin.opens bracket := by
  have half {cursor twin : Cursor} (h : cursor.Alike twin) (ho : cursor.opens bracket) :
      twin.opens bracket := by
    obtain ⟨token, rest, hr, ht⟩ := ho
    obtain ⟨other, more, hr', hl, _⟩ := h.rest_cons hr
    exact ⟨other, more, hr', hl.trans ht⟩
  exact ⟨half h, half h.symm⟩

theorem indexed_iff (h : cursor.Alike twin) : cursor.Indexed ↔ twin.Indexed := by
  have half {cursor twin : Cursor} (h : cursor.Alike twin) (hi : cursor.Indexed) :
      twin.Indexed := by
    obtain ⟨token, rest, hr, ht, hs⟩ := hi
    obtain ⟨other, more, hr', hl, hiff, _⟩ := h.rest_cons hr
    exact ⟨other, more, hr', hl.trans ht, hiff.1 hs⟩
  exact ⟨half h, half h.symm⟩

theorem memberAhead (h : cursor.Alike twin) :
    Option.Rel (fun member other => other.safe = member.safe ∧ other.text = member.text ∧
      member.next.Alike other.next) (memberAhead? cursor) (memberAhead? twin) := by
  obtain ⟨stop, other, h⟩ := StateDiagram.Alike.dropWhile h Lexeme.isLineBreak
  rw [memberAhead?, memberAhead?]
  generalize cursor.rest.dropWhile (·.lexeme.isLineBreak) = ahead at *
  generalize twin.rest.dropWhile (·.lexeme.isLineBreak) = aheadTwin at *
  cases h with
  | nil => exact .none
  | cons hdot _ h =>
    cases h with
    | nil => exact .none
    | cons hname _ h =>
      dsimp only
      rw [← hdot, ← hname]
      split
      · split
        · exact .some ⟨rfl, rfl, h⟩
        · split
          · exact .some ⟨rfl, rfl, h⟩
          · exact .none
      · exact .none

theorem memberAhead_none (h : cursor.Alike twin) (hm : memberAhead? cursor = none) :
    memberAhead? twin = none := by
  have hahead := h.memberAhead
  rw [hm] at hahead
  generalize memberAhead? twin = ahead at hahead
  cases hahead
  rfl

theorem exists_memberAhead {member : Member} (h : cursor.Alike twin)
    (hm : memberAhead? cursor = some member) :
    ∃ other, memberAhead? twin = some other ∧ other.safe = member.safe ∧
      other.text = member.text ∧ member.next.Alike other.next := by
  have hahead := h.memberAhead
  rw [hm] at hahead
  generalize memberAhead? twin = ahead at hahead
  cases hahead with
  | some hother => exact ⟨_, rfl, hother⟩

theorem opensCall_eq {stop other : Nat} {tokens twins : List Token}
    (h : StateDiagram.Alike stop tokens other twins) : opensCall tokens = opensCall twins := by
  cases h with
  | nil => rfl
  | cons hl => rw [opensCall, opensCall, hl]

theorem typeArgumentTokens (h : cursor.Alike twin) :
    Option.Rel (fun found other => found.1.map Token.lexeme = other.1.map Token.lexeme ∧
      found.2.Alike other.2) (typeArgumentTokens? cursor) (typeArgumentTokens? twin) := by
  rw [typeArgumentTokens?, typeArgumentTokens?]
  cases hr : cursor.rest with
  | nil =>
    rw [h.rest_nil hr]
    exact .none
  | cons token rest =>
    obtain ⟨other, more, hr', hl, ht, hrest⟩ := h.rest_cons hr
    rw [hr']
    dsimp only
    rw [hl]
    by_cases hc : token.lexeme = .operator "<" ∧ token.span.start = cursor.previousEnd
    · rw [if_pos hc, if_pos ⟨hc.1, ht.1 hc.2⟩]
      have hclose := StateDiagram.Alike.closeAngle hrest 0
      simp only [past] at hclose
      generalize closeAngle 0 rest = found at *
      generalize closeAngle 0 more = foundTwin at *
      cases hclose with
      | none => exact .none
      | @some found foundTwin hf =>
        obtain ⟨tokens, close, behind⟩ := found
        obtain ⟨twins, closeTwin, behindTwin⟩ := foundTwin
        obtain ⟨hlexemes, hbehind⟩ := hf
        dsimp only
        rw [opensCall_eq hbehind]
        split
        · exact .some ⟨hlexemes, hbehind⟩
        · exact .none
    · rw [if_neg hc, if_neg fun hc' => hc ⟨hc'.1, ht.2 hc'.2⟩]
      exact .none

theorem exists_readTypeArguments {next : Cursor} {types : List Outline} (h : cursor.Alike twin)
    (ht : readTypeArguments cursor = (types, next)) :
    ∃ others stop, readTypeArguments twin = (others, stop) ∧
      others.map Node.shape = types.map Node.shape ∧ next.Alike stop := by
  have htokens := h.typeArgumentTokens
  rw [readTypeArguments] at ht
  rw [readTypeArguments]
  generalize typeArgumentTokens? cursor = found at *
  generalize typeArgumentTokens? twin = foundTwin at *
  cases htokens with
  | none =>
    cases ht
    exact ⟨[], twin, rfl, rfl, h⟩
  | some hf =>
    cases ht
    exact ⟨_, _, rfl, (typeArguments_shape (typeSegments_lexemes hf.1 0)).symm, hf.2⟩

theorem argumentName (h : cursor.Alike twin) :
    (readArgumentName twin).1 = (readArgumentName cursor).1 ∧
      (readArgumentName cursor).2.Alike (readArgumentName twin).2 := by
  rw [readArgumentName, readArgumentName]
  cases hr : cursor.rest with
  | nil =>
    rw [h.rest_nil hr]
    exact ⟨rfl, h⟩
  | cons name rest =>
    obtain ⟨nameTwin, more, hr', hname, _, hrest⟩ := h.rest_cons hr
    rw [hr']
    cases rest with
    | nil =>
      obtain rfl := hrest.rest_nil rfl
      exact ⟨rfl, h⟩
    | cons sign rest =>
      obtain ⟨signTwin, more, rfl, hsign, _, hrest⟩ := hrest.rest_cons rfl
      dsimp only
      rw [hname, hsign]
      split
      · exact ⟨rfl, hrest⟩
      · exact ⟨rfl, h⟩

theorem parameters (h : cursor.Alike twin) (source other : Source) :
    (readParameters source cursor).1.map (fun _ => "") =
        (readParameters other twin).1.map (fun _ => "") ∧
      (readParameters source cursor).2.Alike (readParameters other twin).2 := by
  obtain ⟨stop, stopTwin, hd⟩ := StateDiagram.Alike.dropWhile h Lexeme.isParameter
  rw [readParameters, readParameters]
  generalize cursor.rest.dropWhile (·.lexeme.isParameter) = ahead at *
  generalize twin.rest.dropWhile (·.lexeme.isParameter) = aheadTwin at *
  cases hd with
  | nil => exact ⟨rfl, h⟩
  | cons hl _ hd =>
    dsimp only
    rw [← hl]
    split
    · exact ⟨rfl, hd⟩
    · exact ⟨rfl, h⟩

theorem skipClosing (h : cursor.Alike twin) (bracket : Bracket) :
    (cursor.skipClosing bracket).Alike (twin.skipClosing bracket) := by
  rw [Cursor.skipClosing, Cursor.skipClosing]
  cases hr : cursor.rest with
  | nil =>
    rw [h.rest_nil hr]
    exact h
  | cons token rest =>
    obtain ⟨other, more, hr', hl, _, hrest⟩ := h.rest_cons hr
    rw [hr']
    dsimp only
    rw [hl]
    split
    · exact hrest
    · exact h

end Alike

end Cursor

end StateDiagram
