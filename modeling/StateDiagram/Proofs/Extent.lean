import StateDiagram.Proofs.Reading
import StateDiagram.Proofs.Tiling
import StateDiagram.Proofs.Traversal

namespace StateDiagram

set_option autoImplicit true

open Text

variable {source : Source}

theorem Text.IsBoundary.le {cs : List Char} (h : IsBoundary cs n) : n ≤ byteSize cs := by
  obtain ⟨before, after, rfl, rfl⟩ := h
  rw [byteSize_append]
  exact Nat.le_add_right ..

structure Span.Within (source : Source) (span : Span) : Prop where
  start_le : span.start ≤ span.stop
  boundary_start : IsBoundary source.text span.start
  boundary_stop : IsBoundary source.text span.stop

/-- Where the last token ends that has been or is still to be read. -/
def Cursor.lastEnd (cursor : Cursor) : Nat :=
  (cursor.rest.getLast?.map (·.span.stop)).getD cursor.previousEnd

def Source.lastEnd (source : Source) : Nat := Cursor.lastEnd ⟨0, source.tokens⟩

/-- How far what has been read may reach. -/
def Cursor.reach (cursor : Cursor) (size : Nat) : Nat :=
  match cursor.rest with
  | [] => size
  | _ :: _ => cursor.previousEnd

/-- The tokens that are left stand in the source one behind the other. -/
structure Cursor.Sound (source : Source) (cursor : Cursor) : Prop where
  boundary : IsBoundary source.text cursor.previousEnd
  tokens : ∀ token ∈ cursor.rest,
    token.span.start < token.span.stop ∧ token.span.Within source
  ahead : ∀ token ∈ cursor.rest, cursor.previousEnd ≤ token.span.start
  ordered : cursor.rest.Pairwise fun a b => a.span.stop ≤ b.span.start
  lastEnd_eq : cursor.lastEnd = source.lastEnd

/-- The cursor stands right behind the span of a token. -/
structure Span.Heads (source : Source) (span : Span) (cursor : Cursor) : Prop where
  nonempty : span.start < span.stop
  within : span.Within source
  previousEnd_eq : cursor.previousEnd = span.stop
  sound : cursor.Sound source

namespace Cursor

theorem reach_of_nil {cursor : Cursor} (h : cursor.rest = []) (size : Nat) :
    cursor.reach size = size := by
  rw [reach, h]

theorem reach_of_cons {cursor : Cursor} (h : cursor.rest = token :: behind) (size : Nat) :
    cursor.reach size = cursor.previousEnd := by
  rw [reach, h]

theorem nextStart_of_nil {cursor : Cursor} (h : cursor.rest = []) (size : Nat) :
    cursor.nextStart size = size := by
  rw [nextStart, h]

theorem nextStart_of_cons {cursor : Cursor} (h : cursor.rest = token :: behind) (size : Nat) :
    cursor.nextStart size = token.span.start := by
  rw [nextStart, h]

end Cursor

namespace Cursor.Sound

variable {cursor next : Cursor}

theorem heads (h : cursor.Sound source) (hr : cursor.rest = p ++ token :: behind) :
    token.span.Heads source (.past token behind) := by
  have hp := h.ordered
  rw [hr] at hp
  have hb := (List.pairwise_cons.1 (List.pairwise_append.1 hp).2.1)
  have hm : ∀ found ∈ token :: behind, found ∈ cursor.rest := by
    intro found hf
    rw [hr]
    exact List.mem_append_right _ hf
  have ht := h.tokens token (hm token List.mem_cons_self)
  refine ⟨ht.1, ht.2, rfl, ht.2.boundary_stop, ?_, hb.1, hb.2, ?_⟩
  · intro found hf
    exact h.tokens found (hm found (List.mem_cons_of_mem _ hf))
  · rw [← h.lastEnd_eq, lastEnd, lastEnd, hr, List.getLast?_append, List.getLast?_cons]
    cases hl : behind.getLast? with
    | none => simp [past, hl]
    | some last => simp [past, hl]

theorem headsNext (h : cursor.Sound source) (hr : cursor.rest = token :: behind) :
    token.span.Heads source (.past token behind) :=
  h.heads (p := []) hr

theorem leads (h : cursor.Sound source) (hl : cursor.Leads next) : next.Sound source := by
  cases hl with
  | refl => exact h
  | past hr => exact (h.heads hr).sound

theorem previousEnd_le_lastEnd (h : cursor.Sound source) :
    cursor.previousEnd ≤ source.lastEnd := by
  rw [← h.lastEnd_eq, lastEnd]
  cases hl : cursor.rest.getLast? with
  | none => exact Nat.le_refl _
  | some last =>
    have hm := List.mem_of_getLast? hl
    exact Nat.le_trans (h.ahead last hm) (Nat.le_of_lt (h.tokens last hm).1)

theorem lastEnd_of_nil (h : cursor.Sound source) (hr : cursor.rest = []) :
    source.lastEnd = cursor.previousEnd := by
  rw [← h.lastEnd_eq, lastEnd, hr]
  rfl

theorem previousEnd_le_reach (h : cursor.Sound source) :
    cursor.previousEnd ≤ cursor.reach source.size := by
  rw [reach]
  split
  · exact h.boundary.le
  · exact Nat.le_refl _

theorem reach_le_nextStart (h : cursor.Sound source) :
    cursor.reach source.size ≤ cursor.nextStart source.size := by
  cases hr : cursor.rest with
  | nil =>
    exact Nat.le_of_eq ((reach_of_nil hr _).trans (nextStart_of_nil hr _).symm)
  | cons token behind =>
    rw [reach_of_cons hr, nextStart_of_cons hr]
    exact h.ahead token (by rw [hr]; exact List.mem_cons_self)

theorem boundary_nextStart (h : cursor.Sound source) :
    IsBoundary source.text (cursor.nextStart source.size) := by
  cases hr : cursor.rest with
  | nil =>
    rw [nextStart_of_nil hr]
    exact ⟨source.text, [], (List.append_nil _).symm, rfl⟩
  | cons token behind =>
    rw [nextStart_of_cons hr]
    exact (h.tokens token (by rw [hr]; exact List.mem_cons_self)).2.boundary_start

theorem nextStart_le_past (h : cursor.Sound source)
    (hr : cursor.rest = passed ++ token :: behind) :
    cursor.nextStart source.size ≤ token.span.start := by
  cases passed with
  | nil => exact Nat.le_of_eq (nextStart_of_cons hr _)
  | cons first passed =>
    rw [nextStart_of_cons hr]
    have hp := h.ordered
    rw [hr] at hp
    have hs := (List.pairwise_cons.1 hp).1 token
      (List.mem_append_right _ List.mem_cons_self)
    have hf := (h.tokens first (by rw [hr]; exact List.mem_cons_self)).1
    omega

theorem previousEnd_le (h : cursor.Sound source) (hl : cursor.Leads next) :
    cursor.previousEnd ≤ next.previousEnd := by
  cases hl with
  | refl => exact Nat.le_refl _
  | @past passed token behind hr =>
    have hm : token ∈ cursor.rest := by
      rw [hr]
      exact List.mem_append_right _ List.mem_cons_self
    exact Nat.le_trans (h.ahead token hm) (Nat.le_of_lt (h.tokens token hm).1)

theorem nextStart_le (h : cursor.Sound source) (hl : cursor.Leads next) :
    cursor.nextStart source.size ≤ next.nextStart source.size := by
  have hn := h.leads hl
  cases hl with
  | refl => exact Nat.le_refl _
  | @past passed token behind hr =>
    have hs := (h.heads hr).nonempty
    calc cursor.nextStart source.size
      _ ≤ token.span.start := h.nextStart_le_past hr
      _ ≤ (Cursor.past token behind).previousEnd := Nat.le_of_lt hs
      _ ≤ (Cursor.past token behind).reach source.size := hn.previousEnd_le_reach
      _ ≤ (Cursor.past token behind).nextStart source.size := hn.reach_le_nextStart

theorem reach_le (h : cursor.Sound source) (hl : cursor.Leads next) :
    cursor.reach source.size ≤ next.reach source.size := by
  have hn := h.leads hl
  cases hr : cursor.rest with
  | nil =>
    cases hl with
    | refl => exact Nat.le_refl _
    | past hp =>
      rw [hr] at hp
      exact (List.append_ne_nil_of_right_ne_nil _ (List.cons_ne_nil _ _) hp.symm).elim
  | cons =>
    rw [reach_of_cons hr]
    exact Nat.le_trans (h.previousEnd_le hl) hn.previousEnd_le_reach

end Cursor.Sound

namespace Node

/-- Whether the node ends at the last token that was read for it. -/
def endsAtToken : Node α → Bool
  | .call _ _ _ _ _ | .group _ _ => true
  | _ => false

/-- Whether the node is a lambda without statements. -/
def isEmptyLambda : Node α → Bool
  | .lambda _ _ body => body.statements.isEmpty
  | _ => false

/-- A lambda without statements, at or below the node, reaches over the last token of the source. -/
def Overruns (source : Source) (node : Outline) : Prop :=
  ∃ inner ∈ node.preorder, inner.isEmptyLambda = true ∧ source.lastEnd < inner.info.stop

/-- The node stands in the source, and its children stand in it one behind the other, except that
the last child of a call or group may reach over it to the end of the source. -/
structure Nests (source : Source) (node : Outline) : Prop where
  within : node.info.Within source
  starts : ∀ child ∈ node.children, node.info.start ≤ child.info.start
  ordered : node.children.Pairwise fun a b => a.info.stop ≤ b.info.start
  stops : ∀ child ∈ node.children, child.info.stop ≤ node.info.stop ∨
    node.endsAtToken = true ∧ node.info.stop = source.lastEnd ∧
      child.info.stop = source.size ∧ child.Overruns source
  ends : node.endsAtToken = true → node.info.stop ≤ source.lastEnd

/-- The tree stands in the source, and what reaches over the last token is a lambda or ends in
one. -/
structure Sound (source : Source) (node : Outline) : Prop where
  nests : ∀ inner ∈ node.preorder, inner.Nests source
  overruns : source.lastEnd < node.info.stop →
    node.info.stop = source.size ∧ node.Overruns source

/-- The tree is read behind a token, from the span of that token on. -/
structure Spans (source : Source) (node : Outline) (span : Span) (next : Cursor) : Prop where
  start_eq : node.info.start = span.start
  le_stop : span.stop ≤ node.info.stop
  stop_le : node.info.stop ≤ next.reach source.size
  sound : node.Sound source

variable {node : Outline} {next : Cursor}

theorem Overruns.of_mem {outer inner : Outline} (h : inner.Overruns source)
    (hm : inner ∈ outer.children) : outer.Overruns source := by
  obtain ⟨lambda, hl, h⟩ := h
  exact ⟨lambda, mem_preorder.2 (.inr ⟨inner, hm, hl⟩), h⟩

theorem Sound.within (h : node.Sound source) : node.info.Within source :=
  (h.nests node (mem_preorder_self node)).within

theorem Sound.intro (hn : node.Nests source)
    (hc : ∀ child ∈ node.children, ∀ inner ∈ child.preorder, inner.Nests source)
    (ho : source.lastEnd < node.info.stop →
      node.info.stop = source.size ∧ node.Overruns source) : node.Sound source := by
  refine ⟨?_, ho⟩
  intro inner hm
  rcases mem_preorder.1 hm with rfl | ⟨child, hchild, hm⟩
  · exact hn
  · exact hc child hchild inner hm

end Node

structure Laid (source : Source) (low high : Nat) (nodes : List Outline) : Prop where
  within : ∀ node ∈ nodes, low ≤ node.info.start ∧ node.info.stop ≤ high
  ordered : nodes.Pairwise fun a b => a.info.stop ≤ b.info.start
  sound : ∀ node ∈ nodes, node.Sound source

namespace Laid

variable {first second : List Outline} {node : Outline} {cursor next : Cursor}

theorem nil (source : Source) (low high : Nat) : Laid source low high [] :=
  ⟨List.forall_mem_nil _, .nil, List.forall_mem_nil _⟩

theorem mono (h : Laid source low high first) (hl : less ≤ low) (hh : high ≤ more) :
    Laid source less more first := by
  refine ⟨?_, h.ordered, h.sound⟩
  intro node hm
  obtain ⟨hs, ht⟩ := h.within node hm
  exact ⟨Nat.le_trans hl hs, Nat.le_trans ht hh⟩

theorem append (h : Laid source low mid first) (hs : Laid source mid' high second)
    (hm : mid ≤ mid') (hl : low ≤ mid') (hh : mid ≤ high) :
    Laid source low high (first ++ second) := by
  refine ⟨?_, ?_, List.forall_mem_append.2 ⟨h.sound, hs.sound⟩⟩
  · exact List.forall_mem_append.2
      ⟨(h.mono (Nat.le_refl _) hh).within, (hs.mono hl (Nat.le_refl _)).within⟩
  · refine List.pairwise_append.2 ⟨h.ordered, hs.ordered, ?_⟩
    intro a ha b hb
    have := (h.within a ha).2
    have := (hs.within b hb).1
    omega

theorem singleton (h : node.Sound source) (hl : low ≤ node.info.start)
    (hh : node.info.stop ≤ high) : Laid source low high [node] :=
  ⟨List.forall_mem_singleton.2 ⟨hl, hh⟩, List.pairwise_singleton _ _,
    List.forall_mem_singleton.2 h⟩

theorem split (h : Laid source low high (first ++ node :: second)) :
    Laid source low node.info.start first ∧ low ≤ node.info.start ∧ node.info.start ≤ high ∧
      Laid source node.info.start high second := by
  obtain ⟨hf, hs⟩ := List.forall_mem_append.1 h.within
  obtain ⟨hn, hs⟩ := List.forall_mem_cons.1 hs
  obtain ⟨hsf, hss⟩ := List.forall_mem_append.1 h.sound
  obtain ⟨hsn, hss⟩ := List.forall_mem_cons.1 hss
  obtain ⟨hpf, hps, hp⟩ := List.pairwise_append.1 h.ordered
  obtain ⟨hpn, hps⟩ := List.pairwise_cons.1 hps
  have hle := hsn.within.start_le
  refine ⟨⟨?_, hpf, hsf⟩, hn.1, Nat.le_trans hle hn.2, ⟨?_, hps, hss⟩⟩
  · intro found hm
    exact ⟨(hf found hm).1, hp found hm node List.mem_cons_self⟩
  · intro found hm
    exact ⟨Nat.le_trans hle (hpn found hm), (hs found hm).2⟩

theorem chain (h : Laid source (cursor.nextStart source.size) (next.reach source.size) first)
    (hs : Laid source (next.nextStart source.size) (last.reach source.size) second)
    (hc : cursor.Sound source) (hn : cursor.Leads next) (hl : next.Leads last) :
    Laid source (cursor.nextStart source.size) (last.reach source.size) (first ++ second) :=
  h.append hs (hc.leads hn).reach_le_nextStart (hc.nextStart_le hn) ((hc.leads hn).reach_le hl)

theorem stop_le_getLast (h : Laid source low high first) (hne : first ≠ [])
    (hm : node ∈ first) : node.info.stop ≤ (first.getLast hne).info.stop := by
  have hp := h.ordered
  have hlast := h.sound _ (List.getLast_mem hne)
  rw [← List.dropLast_append_getLast hne] at hm hp
  rcases List.mem_append.1 hm with hm | hm
  · have hb := (List.pairwise_append.1 hp).2.2 node hm _ (List.mem_singleton_self _)
    exact Nat.le_trans hb hlast.within.start_le
  · cases List.mem_singleton.1 hm
    exact Nat.le_refl _

theorem tight (h : Laid source low high (node :: first)) :
    Laid source node.info.start ((node :: first).getLast (List.cons_ne_nil _ _)).info.stop
      (node :: first) := by
  refine ⟨?_, h.ordered, h.sound⟩
  intro found hm
  refine ⟨?_, h.stop_le_getLast _ hm⟩
  rcases List.mem_cons.1 hm with rfl | hm
  · exact Nat.le_refl _
  · have hw := (h.sound node List.mem_cons_self).within.start_le
    exact Nat.le_trans hw ((List.pairwise_cons.1 h.ordered).1 found hm)

end Laid

namespace Node

variable {node : Outline} {span : Span} {cursor next : Cursor}

theorem Sound.leaf (hw : node.info.Within source) (hl : node.info.stop ≤ source.lastEnd)
    (hc : node.children = []) : node.Sound source := by
  have hn : node.Nests source := by
    refine ⟨hw, ?_, ?_, ?_, fun _ => hl⟩
    all_goals rw [hc]
    · exact List.forall_mem_nil _
    · exact .nil
    · exact List.forall_mem_nil _
  apply Sound.intro hn
  · rw [hc]
    exact List.forall_mem_nil _
  · intro ho
    exact (Nat.not_lt.2 hl ho).elim

theorem Sound.cover (hl : Laid source node.info.start node.info.stop node.children)
    (hs : IsBoundary source.text node.info.start) (he : node.endsAtToken = false)
    (hm : child ∈ node.children) (hstop : node.info.stop = child.info.stop) :
    node.Sound source := by
  have hc := hl.sound child hm
  have hw : node.info.Within source := by
    refine ⟨?_, hs, hstop ▸ hc.within.boundary_stop⟩
    have := hl.within child hm
    have := hc.within.start_le
    omega
  have hn : node.Nests source := by
    refine ⟨hw, fun inner hi => (hl.within inner hi).1, hl.ordered,
      fun inner hi => .inl (hl.within inner hi).2, ?_⟩
    rw [he]
    intro h
    cases h
  apply Sound.intro hn fun inner hi => (hl.sound inner hi).nests
  rw [hstop]
  intro ho
  obtain ⟨hsize, hover⟩ := hc.overruns ho
  exact ⟨hsize, hover.of_mem hm⟩

/-- A call or group holds all that is read for it, or else no tokens are left. -/
theorem Sound.open (hl : Laid source node.info.start (next.reach source.size) node.children)
    (he : node.endsAtToken = true) (hs : IsBoundary source.text node.info.start)
    (hle : node.info.start ≤ node.info.stop) (hstop : node.info.stop = next.previousEnd)
    (hn : next.Sound source) : node.Sound source := by
  have hlast := hn.previousEnd_le_lastEnd
  rw [← hstop] at hlast
  have hw : node.info.Within source := ⟨hle, hs, hstop ▸ hn.boundary⟩
  have hstops : ∀ child ∈ node.children, child.info.stop ≤ node.info.stop ∨
      node.endsAtToken = true ∧ node.info.stop = source.lastEnd ∧
        child.info.stop = source.size ∧ child.Overruns source := by
    intro child hm
    have hc := (hl.within child hm).2
    cases hr : next.rest with
    | cons =>
      rw [Cursor.reach_of_cons hr, ← hstop] at hc
      exact .inl hc
    | nil =>
      rw [← hn.lastEnd_of_nil hr] at hstop
      rcases Nat.lt_or_ge node.info.stop child.info.stop with ho | ho
      · rw [hstop] at ho
        exact .inr ⟨he, hstop, (hl.sound child hm).overruns ho⟩
      · exact .inl ho
  apply Sound.intro ⟨hw, fun inner hi => (hl.within inner hi).1, hl.ordered, hstops, fun _ => hlast⟩
    fun inner hi => (hl.sound inner hi).nests
  intro ho
  exact (Nat.not_lt.2 hlast ho).elim

end Node

theorem Laid.collapse (h : Laid source low high nodes) :
    Laid source low high (StateDiagram.collapse nodes).toList := by
  match nodes with
  | [] => exact h
  | [_] => exact h
  | first :: second :: rest =>
    have ht := h.tight
    have hm := List.getLast_mem (List.cons_ne_nil first (second :: rest))
    have hb := (h.sound first List.mem_cons_self).within.boundary_start
    have hs : Node.Sound source (.sequence
        ⟨first.info.start, ((first :: second :: rest).getLast (List.cons_ne_nil _ _)).info.stop⟩
        (first :: second :: rest)) := .cover ht hb rfl hm rfl
    rw [List.getLast_cons (List.cons_ne_nil second rest)] at hs hm
    exact singleton hs (h.within first List.mem_cons_self).1 (h.within _ hm).2

def Phrase.Spanned (source : Source) : Phrase → Prop
  | .expression token cursor node next | .primary token cursor node next
  | .lambda token cursor node next | .group _ token cursor node next =>
    token.span.Heads source cursor → node.Spans source token.span next
  | .named _ span cursor node next => span.Heads source cursor → node.Spans source span next
  | .suffixes node cursor result next =>
    cursor.Sound source → node.Sound source → node.info.stop ≤ cursor.reach source.size →
      result.Spans source node.info next
  | .callArguments cursor nodes next =>
    cursor.Sound source →
      Laid source (cursor.nextStart source.size) (next.reach source.size) (nodes.getD [])
  | .trailingLambda cursor node next =>
    cursor.Sound source →
      Laid source (cursor.nextStart source.size) (next.reach source.size) node.toList
  | .valueArguments cursor nodes next | .items _ _ cursor nodes next
  | .statements _ cursor nodes next | .groupItems _ cursor nodes next =>
    cursor.Sound source →
      Laid source (cursor.nextStart source.size) (next.reach source.size) nodes

variable {cursor next : Cursor} {token : Token} {span : Span} {node result : Outline}

theorem Span.Heads.stop_le_reach (h : span.Heads source cursor) :
    span.stop ≤ cursor.reach source.size := by
  rw [← h.previousEnd_eq]
  exact h.sound.previousEnd_le_reach

theorem Span.Heads.stop_le_lastEnd (h : span.Heads source cursor) :
    span.stop ≤ source.lastEnd := by
  rw [← h.previousEnd_eq]
  exact h.sound.previousEnd_le_lastEnd

theorem Node.Spans.leaf (h : span.Heads source cursor) (hi : node.info = span)
    (hc : node.children = []) : node.Spans source span cursor := by
  subst hi
  exact ⟨rfl, Nat.le_refl _, h.stop_le_reach, .leaf h.within h.stop_le_lastEnd hc⟩

theorem Node.Spans.trans {mid : Outline} (h : mid.Spans source node.info next)
    (hs : result.Spans source mid.info last) : result.Spans source node.info last :=
  ⟨hs.start_eq.trans h.start_eq, Nat.le_trans h.le_stop hs.le_stop, hs.stop_le, hs.sound⟩

theorem Laid.cons {behind : Cursor} (hr : cursor.rest = token :: tokens)
    (hn : node.Spans source token.span next)
    (hs : Laid source (next.nextStart source.size) (behind.reach source.size) nodes)
    (hc : cursor.Sound source) (hl : cursor.Leads next) (hb : next.Leads behind) :
    Laid source (cursor.nextStart source.size) (behind.reach source.size) (node :: nodes) := by
  have h := Laid.singleton hn.sound (Nat.le_of_eq hn.start_eq.symm) hn.stop_le
  rw [← Cursor.nextStart_of_cons hr source.size] at h
  exact h.chain hs hc hl hb

theorem Laid.skip (hr : cursor.rest = token :: tokens)
    (h : Laid source ((Cursor.past token tokens).nextStart source.size) high nodes)
    (hc : cursor.Sound source) : Laid source (cursor.nextStart source.size) high nodes :=
  h.mono (hc.nextStart_le (.head hr)) (Nat.le_refl _)

/-- Tokens that are left stand one behind the other as nodes of their own do. -/
theorem Cursor.Sound.laid (h : cursor.Sound source)
    (hr : cursor.rest = inside ++ token :: behind) :
    Laid source (cursor.nextStart source.size) token.span.start
      (inside.map fun token => .token token.span) := by
  have hp := h.ordered
  rw [hr] at hp
  obtain ⟨hi, _, hb⟩ := List.pairwise_append.1 hp
  refine ⟨?_, List.pairwise_map.2 hi, ?_⟩
  all_goals
    intro node hm
    obtain ⟨found, hf, rfl⟩ := List.mem_map.1 hm
    obtain ⟨front, back, hs⟩ := List.append_of_mem hf
    rw [hs, List.append_assoc, List.cons_append] at hr
  · exact ⟨h.nextStart_le_past hr, hb found hf token List.mem_cons_self⟩
  · exact (Node.Spans.leaf (h.heads hr) rfl rfl).sound

theorem Laid.typeArgument {segment : List Token}
    (h : Laid source low high (segment.map fun token => .token token.span))
    (hh : high ≤ source.lastEnd) :
    Laid source low high ((Span.ofTokens? segment).map Node.typeArgument).toList := by
  cases segment with
  | nil => exact .nil ..
  | cons first more =>
    have hm := List.getLast_mem (List.cons_ne_nil first more)
    have hspan : Span.ofTokens? (first :: more) =
        some ⟨first.span.start, ((first :: more).getLast (List.cons_ne_nil _ _)).span.stop⟩ := by
      simp only [Span.ofTokens?, List.getLast?_eq_some_getLast (List.cons_ne_nil first more)]
    generalize (first :: more).getLast (List.cons_ne_nil _ _) = last at hm hspan
    rw [hspan]
    -- The first and the last token bound the part as nodes of their own would.
    have hfirst : Node.token first.span ∈ (first :: more).map fun token => .token token.span :=
      List.mem_cons_self
    have hlast : Node.token last.span ∈ (first :: more).map fun token => .token token.span :=
      List.mem_map_of_mem hm
    have hw : Span.Within source ⟨first.span.start, last.span.stop⟩ :=
      ⟨Nat.le_trans (h.tight.within _ hlast).1 (h.sound _ hlast).within.start_le,
        (h.sound _ hfirst).within.boundary_start, (h.sound _ hlast).within.boundary_stop⟩
    have hle := (h.within _ hlast).2
    exact singleton (.leaf hw (Nat.le_trans hle hh) rfl) (h.within _ hfirst).1 hle

theorem Joined.laid (h : Joined tokens segments)
    (hl : Laid source low high (tokens.map fun token => .token token.span))
    (hh : high ≤ source.lastEnd) :
    Laid source low high ((segments.filterMap Span.ofTokens?).map .typeArgument) := by
  induction h generalizing low with
  | last segment =>
    have hs := hl.typeArgument hh
    rw [List.filterMap_cons]
    cases ho : Span.ofTokens? segment <;> rw [ho] at hs <;> exact hs
  | comma segment hc h ih =>
    rw [List.map_append, List.map_cons] at hl
    obtain ⟨hf, hlow, hhigh, hb⟩ := hl.split
    have hs := (hf.typeArgument (Nat.le_trans hhigh hh)).append (ih hb) (Nat.le_refl _) hlow hhigh
    rw [List.filterMap_cons]
    cases ho : Span.ofTokens? segment <;> rw [ho] at hs <;> exact hs

theorem laid_readTypeArguments {types : List Outline} (hc : cursor.Sound source)
    (h : readTypeArguments cursor = (types, next)) :
    Laid source (cursor.nextStart source.size) (next.reach source.size) types := by
  cases typesRead h with
  | none => exact .nil ..
  | @list opener inside close rest hl =>
    have ho := Cursor.Leads.head hl.rest_eq
    have hb := hc.leads ho
    have hrest : (Cursor.past opener (inside ++ close :: rest)).rest =
        inside ++ close :: rest := rfl
    have hclose := hb.heads hrest
    have hle : close.span.start ≤ close.span.stop := Nat.le_of_lt hclose.nonempty
    apply ((joined_typeSegments 0 inside).laid (hb.laid hrest) _).mono
    · exact hc.nextStart_le ho
    · exact Nat.le_trans hle hclose.stop_le_reach
    · exact Nat.le_trans hle hclose.stop_le_lastEnd

/-- The span of the block of a lambda whose statements end at the given cursor. -/
structure BlockSpan (source : Source) (body : List Outline) (low : Nat) (stop : Cursor)
    (span : Span) : Prop where
  low_le : low ≤ span.start
  stop_le : span.stop ≤ stop.nextStart source.size
  nests : ∀ inner ∈ (Node.block span body).preorder, inner.Nests source
  overruns : source.lastEnd < span.stop → span.stop = source.size ∧
    (body = [] ∨ (Node.block span body).Overruns source)

theorem blockSpan {body : List Outline} {mid stop : Cursor} (hm : mid.Sound source)
    (hl : mid.Leads stop)
    (hb : Laid source (mid.nextStart source.size) (stop.reach source.size) body) :
    let start := (body.head?.map (·.info.start)).getD (stop.nextStart source.size)
    BlockSpan source body (mid.nextStart source.size) stop
      ⟨start, (body.getLast?.map (·.info.stop)).getD start⟩ := by
  have hs := hm.leads hl
  cases body with
  | nil =>
    -- An empty block stands in front of the closing brace, or at the end of the source.
    have hw : Span.Within source ⟨stop.nextStart source.size, stop.nextStart source.size⟩ :=
      ⟨Nat.le_refl _, hs.boundary_nextStart, hs.boundary_nextStart⟩
    have hn : Node.Nests source
        (.block ⟨stop.nextStart source.size, stop.nextStart source.size⟩ []) :=
      ⟨hw, List.forall_mem_nil _, .nil, List.forall_mem_nil _, nofun⟩
    refine ⟨hm.nextStart_le hl, Nat.le_refl _, ?_, ?_⟩
    · intro inner hi
      rcases Node.mem_preorder.1 hi with rfl | ⟨child, hc, _⟩
      · exact hn
      · cases hc
    · intro ho
      cases hr : stop.rest with
      | nil => exact ⟨Cursor.nextStart_of_nil hr _, .inl rfl⟩
      | cons token behind =>
        have ht := hs.headsNext hr
        have := ht.stop_le_lastEnd
        have := ht.nonempty
        dsimp only [List.head?_nil, List.getLast?_nil, Option.map_none, Option.getD_none] at ho
        rw [Cursor.nextStart_of_cons hr] at ho
        omega
  | cons first rest =>
    have hlast := List.getLast_mem (List.cons_ne_nil first rest)
    have ht := hb.tight
    rw [List.getLast?_eq_some_getLast (List.cons_ne_nil first rest)]
    generalize (first :: rest).getLast (List.cons_ne_nil first rest) = last at hlast ht
    have hsound := hb.sound last hlast
    have hbound := (hb.sound first List.mem_cons_self).within.boundary_start
    have hblock : Node.Sound source (.block ⟨first.info.start, last.info.stop⟩ (first :: rest)) :=
      .cover ht hbound rfl hlast rfl
    exact ⟨(hb.within first List.mem_cons_self).1,
      Nat.le_trans (hb.within last hlast).2 hs.reach_le_nextStart, hblock.nests,
      fun ho => ⟨(hsound.overruns ho).1, .inr (hblock.overruns ho).2⟩⟩

theorem Text.IsBoundary.max {cs : List Char} (hm : IsBoundary cs m) (hn : IsBoundary cs n) :
    IsBoundary cs (max m n) := by
  rcases Nat.le_total m n with h | h
  · rwa [Nat.max_eq_right h]
  · rwa [Nat.max_eq_left h]

theorem nextStart_le_skipClosing {body : List Outline} {stop : Cursor}
    (hd : Derives source n (.statements (some bracket) mid body stop)) (hs : stop.Sound source) :
    stop.nextStart source.size ≤ (stop.skipClosing bracket).reach source.size := by
  rcases hd.statements_stop with hr | ⟨token, rest, found, hr, ht, hf⟩
  · have hskip : stop.skipClosing bracket = stop := by rw [Cursor.skipClosing, hr]
    rw [hskip]
    exact Nat.le_of_eq ((Cursor.nextStart_of_nil hr _).trans (Cursor.reach_of_nil hr _).symm)
  · cases hf
    have hh := hs.headsNext hr
    rw [skipClosing_eq hr ht, Cursor.nextStart_of_cons hr]
    exact Nat.le_trans (Nat.le_of_lt hh.nonempty) hh.stop_le_reach

/-- A lambda reaches from its brace to the cursor, and over its block where that reaches further. -/
theorem BlockSpan.spans_lambda {body : List Outline} {stop : Cursor}
    (hb : BlockSpan source body low stop block) (h : token.span.Heads source cursor)
    (hlow : token.span.stop ≤ low) (hn : next.Sound source)
    (hp : token.span.stop ≤ next.previousEnd)
    (hs : stop.nextStart source.size ≤ next.reach source.size) (parameters : Option String) :
    Node.Spans source (.lambda ⟨token.span.start, max next.previousEnd block.stop⟩ parameters
      (.block block body)) token.span next := by
  have hblock := hb.nests _ (Node.mem_preorder_self _)
  have hstart := Nat.le_of_lt h.nonempty
  have hle : token.span.stop ≤ max next.previousEnd block.stop :=
    Nat.le_trans hp (Nat.le_max_left ..)
  have hw : Span.Within source ⟨token.span.start, max next.previousEnd block.stop⟩ :=
    ⟨Nat.le_trans hstart hle, h.within.boundary_start,
      hn.boundary.max hblock.within.boundary_stop⟩
  refine ⟨rfl, hle, Nat.max_le.2 ⟨hn.previousEnd_le_reach, Nat.le_trans hb.stop_le hs⟩, ?_⟩
  apply Node.Sound.intro
  · refine ⟨hw, ?_, List.pairwise_singleton _ _, ?_, nofun⟩
    all_goals
      intro child hc
      cases List.mem_singleton.1 hc
    · exact Nat.le_trans hstart (Nat.le_trans hlow hb.low_le)
    · exact .inl (Nat.le_max_right ..)
  · exact List.forall_mem_singleton.2 hb.nests
  · intro ho
    have hlast := hn.previousEnd_le_lastEnd
    have hover : source.lastEnd < block.stop := by
      simp only [Node.info] at ho
      omega
    obtain ⟨hend, hover⟩ := hb.overruns hover
    refine ⟨?_, ?_⟩
    · simp only [Node.info, hend]
      exact Nat.max_eq_right hn.boundary.le
    · rcases hover with rfl | hover
      · exact ⟨_, Node.mem_preorder_self _, rfl, ho⟩
      · exact hover.of_mem (List.mem_singleton_self _)

theorem spans_lambdaOutline {body : List Outline} {mid stop : Cursor}
    (hd : Derives source n (.statements (some .curly) mid body stop))
    (hb : Laid source (mid.nextStart source.size) (stop.reach source.size) body)
    (hl : cursor.Leads mid) (h : token.span.Heads source cursor) :
    (lambdaOutline source token parameters body stop).Spans source token.span
      (stop.skipClosing .curly) := by
  have hread : mid.Leads stop := hd.leads
  have hskip := skipClosing_leads .curly stop
  have hm := h.sound.leads hl
  have hs := hm.leads hread
  have hprevious := h.sound.previousEnd_le (hl.trans (hread.trans hskip))
  rw [h.previousEnd_eq] at hprevious
  have hlow : token.span.stop ≤ mid.nextStart source.size :=
    calc token.span.stop
      _ ≤ cursor.reach source.size := h.stop_le_reach
      _ ≤ cursor.nextStart source.size := h.sound.reach_le_nextStart
      _ ≤ mid.nextStart source.size := h.sound.nextStart_le hl
  rw [lambdaOutline]
  exact (blockSpan hm hread hb).spans_lambda h hlow (hs.leads hskip) hprevious
    (nextStart_le_skipClosing hd hs) parameters

theorem Node.Spans.pair {left right pair : Outline} (hl : left.Sound source)
    (hr : right.Spans source span next) (hle : left.info.stop ≤ span.start)
    (hp : pair = .sequence ⟨left.info.start, right.info.stop⟩ [left, right] ∨
      ∃ safe, pair = .memberAccess ⟨left.info.start, right.info.stop⟩ left right safe) :
    pair.Spans source left.info next := by
  have hstart := hr.start_eq
  have hlw := hl.within.start_le
  have hrw := hr.sound.within.start_le
  have hlaid : Laid source left.info.start right.info.stop [left, right] := by
    have hleft : Laid source left.info.start span.start [left] :=
      .singleton hl (Nat.le_refl _) hle
    have hright : Laid source span.start right.info.stop [right] :=
      .singleton hr.sound (Nat.le_of_eq hstart.symm) (Nat.le_refl _)
    exact hleft.append hright (Nat.le_refl _) (by omega) (by omega)
  have hm : right ∈ [left, right] := List.mem_cons_of_mem _ (List.mem_singleton_self _)
  have hb := hl.within.boundary_start
  have hstop : left.info.stop ≤ right.info.stop := by omega
  rcases hp with rfl | ⟨safe, rfl⟩
  · exact ⟨rfl, hstop, hr.stop_le, .cover hlaid hb rfl hm rfl⟩
  · exact ⟨rfl, hstop, hr.stop_le, .cover hlaid hb rfl hm rfl⟩

theorem Member.Ahead.heads {member : Member} (h : member.Ahead cursor.rest breaks dot name rest)
    (hc : cursor.Sound source) : member.span.Heads source member.next := by
  rw [← h.span_eq, h.next_eq]
  exact hc.heads h.passed_eq

theorem Member.Ahead.reach_le {member : Member}
    (h : member.Ahead cursor.rest breaks dot name rest) (hc : cursor.Sound source) :
    cursor.reach source.size ≤ member.span.start := by
  rw [← h.span_eq]
  exact Nat.le_trans hc.reach_le_nextStart (hc.nextStart_le_past h.passed_eq)

theorem Node.Spans.member {node selector : Outline} {member : Member}
    (hm : memberAhead? cursor = some member) (hc : cursor.Sound source) (hn : node.Sound source)
    (hle : node.info.stop ≤ cursor.reach source.size)
    (hs : member.span.Heads source member.next → selector.Spans source member.span next) :
    Node.Spans source (.memberAccess ⟨node.info.start, selector.info.stop⟩ node selector
      member.safe) node.info next := by
  obtain ⟨_, _, _, _, ha⟩ := exists_of_memberAhead? hm
  exact .pair hn (hs (ha.heads hc)) (Nat.le_trans hle (ha.reach_le hc)) (.inr ⟨member.safe, rfl⟩)

theorem Node.Spans.index {node group : Outline} (hr : cursor.rest = token :: rest)
    (ht : token.span.start = cursor.previousEnd) (hn : node.Sound source)
    (hle : node.info.stop ≤ cursor.reach source.size) (hg : group.Spans source token.span next) :
    Node.Spans source (.sequence ⟨node.info.start, group.info.stop⟩ [node, group]) node.info
      next := by
  rw [Cursor.reach_of_cons hr, ← ht] at hle
  exact .pair hn hg hle (.inl rfl)

theorem Laid.arguments {nodes : List Outline}
    (h : Laid source low high (StateDiagram.collapse nodes).toList)
    (hl : token.span.start ≤ low) (hb : IsBoundary source.text token.span.start)
    (name : Option String) :
    Laid source token.span.start high
      ((StateDiagram.collapse nodes).map (argumentOutline token name)).toList := by
  cases hn : StateDiagram.collapse nodes with
  | none => exact .nil ..
  | some expression =>
    rw [hn] at h
    have hm : expression ∈ [expression] := List.mem_singleton_self _
    obtain ⟨hs, ht⟩ := h.within expression hm
    have he : Laid source token.span.start expression.info.stop [expression] :=
      .singleton (h.sound expression hm) (Nat.le_trans hl hs) (Nat.le_refl _)
    exact .singleton (.cover he hb rfl hm rfl) (Nat.le_refl _) ht

theorem Laid.argument {nodes : List Outline} (hr : cursor.rest = token :: rest)
    (hc : cursor.Sound source)
    (h : Laid source ((readArgumentName cursor).2.nextStart source.size) high nodes)
    (name : Option String) :
    Laid source (cursor.nextStart source.size) high
      ((StateDiagram.collapse nodes).map (argumentOutline token name)).toList := by
  have hlow := hc.nextStart_le (readArgumentName_leads cursor)
  rw [Cursor.nextStart_of_cons hr] at hlow ⊢
  exact h.collapse.arguments hlow (hc.headsNext hr).within.boundary_start name

theorem Node.Spans.call {types : List Outline} {arguments : List Outline}
    {lambda : Option Outline} {behindTypes behindArguments : Cursor} {callee : Outline}
    (h : span.Heads source cursor) (hcallee : callee.Spans source span cursor)
    (ht : Laid source (cursor.nextStart source.size) (behindTypes.reach source.size) types)
    (ha : Laid source (behindTypes.nextStart source.size) (behindArguments.reach source.size)
      arguments)
    (hl : Laid source (behindArguments.nextStart source.size) (next.reach source.size)
      lambda.toList)
    (htypes : cursor.Leads behindTypes) (hargs : behindTypes.Leads behindArguments)
    (hnext : behindArguments.Leads next) :
    Node.Spans source (.call ⟨span.start, next.previousEnd⟩ callee types arguments lambda)
      span next := by
  have hleads := htypes.trans (hargs.trans hnext)
  have hn := h.sound.leads hleads
  have hle : span.stop ≤ next.previousEnd := by
    rw [← h.previousEnd_eq]
    exact h.sound.previousEnd_le hleads
  have hlaid := (ht.chain ha h.sound htypes hargs).chain hl h.sound (htypes.trans hargs) hnext
  have hfirst : Laid source span.start (cursor.reach source.size) [callee] :=
    .singleton hcallee.sound (Nat.le_of_eq hcallee.start_eq.symm) hcallee.stop_le
  have hstart : span.start ≤ cursor.nextStart source.size :=
    Nat.le_trans (Nat.le_of_lt h.nonempty)
      (Nat.le_trans h.stop_le_reach h.sound.reach_le_nextStart)
  have hall := hfirst.append hlaid h.sound.reach_le_nextStart hstart (h.sound.reach_le hleads)
  exact ⟨rfl, hle, hn.previousEnd_le_reach,
    .open hall rfl h.within.boundary_start (Nat.le_trans (Nat.le_of_lt h.nonempty) hle) rfl hn⟩

theorem Derives.spanned (h : Derives source n phrase) : phrase.Spanned source := by
  induction h with
  | expression hp _ ihp ihs =>
    intro ht
    have hn := ihp ht
    have hs := ihs (ht.sound.leads hp.leads) hn.sound hn.stop_le
    exact ⟨hs.start_eq.trans hn.start_eq, Nat.le_trans hn.le_stop hs.le_stop, hs.stop_le, hs.sound⟩
  | name _ _ ih | braces _ _ ih | brackets _ _ _ ih => exact ih
  | string | literal | symbol =>
    intro ht
    exact .leaf ht rfl rfl
  | noSuffix =>
    intro _ hn hle
    exact ⟨rfl, Nat.le_refl _, hle, hn⟩
  | member hm hn _ ihn ihs =>
    intro hc hnode hle
    obtain ⟨_, _, _, _, ha⟩ := exists_of_memberAhead? hm
    have hs := Node.Spans.member hm hc hnode hle ihn
    exact hs.trans (ihs ((ha.heads hc).sound.leads hn.leads) hs.sound hs.stop_le)
  | index _ hr _ ha hg _ ihg ihs =>
    intro hc hnode hle
    have ht := hc.headsNext hr
    have hs := Node.Spans.index hr ha hnode hle (ihg ht)
    exact hs.trans (ihs (ht.sound.leads hg.leads) hs.sound hs.stop_le)
  | identifier ht ha hl =>
    intro h
    have hleads := (readTypeArguments_leads ht).trans (ha.leads.trans hl.leads)
    exact ⟨rfl, Nat.le_refl _, Nat.le_trans h.stop_le_reach (h.sound.reach_le hleads),
      .leaf h.within h.stop_le_lastEnd rfl⟩
  | call ht ha hl _ iha ihl =>
    intro h
    have htypes := readTypeArguments_leads ht
    have hbehind := h.sound.leads htypes
    exact .call h (.leaf h rfl rfl) (laid_readTypeArguments h.sound ht) (iha hbehind)
      (ihl (hbehind.leads ha.leads)) htypes ha.leads hl.leads
  | noArguments | noLambda | argumentsEnd | argumentsClose | itemsEnd | itemsStop | itemsBreak
  | statementsEnd | statementsClose | groupEnd | groupClose =>
    intro _
    exact .nil ..
  | arguments hr _ _ ih | argumentsSkip hr _ _ ih | itemsContinue hr _ _ _ ih
  | statementsSkip hr _ _ ih | groupSkip hr _ _ ih =>
    intro hc
    exact .skip hr (ih (hc.leads (.head hr))) hc
  | trailing hr _ hl ih =>
    intro hc
    have hn := ih (hc.headsNext hr)
    exact .cons hr hn (.nil ..) hc ((Cursor.Leads.head hr).trans hl.leads) .refl
  | @argument _ _ _ cursor _ _ _ _ hr _ hi ha ihi iha =>
    intro hc
    have hname := readArgumentName_leads cursor
    have hn := hc.leads hname
    have hargument := (ihi hn).argument hr hc (readArgumentName cursor).1
    exact hargument.chain (iha (hn.leads hi.leads)) hc (hname.trans hi.leads) ha.leads
  | item hr _ he hi ihe ihi | groupItem hr _ _ he hi ihe ihi =>
    intro hc
    have hl := (Cursor.Leads.head hr).trans he.leads
    exact .cons hr (ihe (hc.headsNext hr)) (ihi (hc.leads hl)) hc hl hi.leads
  | stray hr _ _ hs ih =>
    intro hc
    have ht := hc.headsNext hr
    exact .cons hr (.leaf ht rfl rfl) (ih ht.sound) hc (.head hr) hs.leads
  | statement _ _ hi hs ihi ihs =>
    intro hc
    exact (ihi hc).collapse.chain (ihs (hc.leads hi.leads)) hc hi.leads hs.leads
  | lambda hp hs ih =>
    intro ht
    have hl := readParameters_leads hp
    exact spans_lambdaOutline hs (ih (ht.sound.leads hl)) hl ht
  | group hg ih =>
    intro h
    have hn := h.sound.leads hg.leads
    have hle := h.sound.previousEnd_le hg.leads
    rw [h.previousEnd_eq] at hle
    have hstart := Nat.le_trans h.stop_le_reach h.sound.reach_le_nextStart
    have hlaid := (ih h.sound).mono (Nat.le_trans (Nat.le_of_lt h.nonempty) hstart)
      (Nat.le_refl _)
    exact ⟨rfl, hle, hn.previousEnd_le_reach, .open hlaid rfl h.within.boundary_start
      (Nat.le_trans (Nat.le_of_lt h.nonempty) hle) rfl hn⟩

theorem Source.sound_tokens (source : Source) : Cursor.Sound source ⟨0, source.tokens⟩ := by
  have h := tiling_scan 0 source.text
  refine ⟨⟨[], source.text, rfl, rfl⟩, ?_, fun _ _ => Nat.zero_le _, h.pairwise, rfl⟩
  intro token hm
  obtain ⟨hne, hs, hstop⟩ := h.standsAt [] rfl token hm
  have hpos := byteSize_pos hne
  have hlt : token.span.start < token.span.stop := by omega
  exact ⟨hlt, Nat.le_of_lt hlt, hs.isBoundary_start, hstop ▸ hs.isBoundary_stop⟩

/-- The statements of a file are read up to the end of the source. -/
theorem Source.laid_statements {statements : List Outline}
    (h : Derives source n (.statements none ⟨0, source.tokens⟩ statements next)) :
    Laid source 0 source.size statements := by
  have hl := h.spanned source.sound_tokens
  rcases h.statements_stop with hr | ⟨_, _, _, _, _, hc⟩
  · rw [Cursor.reach_of_nil hr] at hl
    exact hl.mono (Nat.zero_le _) (Nat.le_refl _)
  · cases hc

theorem Source.within_whole (source : Source) : Span.Within source ⟨0, source.size⟩ :=
  ⟨Nat.zero_le _, ⟨[], source.text, rfl, rfl⟩, source.text, [], (List.append_nil _).symm, rfl⟩

/-- All nodes of a tree nest. -/
theorem Source.nests_of_outline? {outline : Outline} (h : source.outline? limit = some outline) :
    ∀ node ∈ outline.preorder, node.Nests source := by
  obtain ⟨statements, next, rfl, hd⟩ := outline?_eq_some_iff.1 h
  have hl := laid_statements hd
  intro node hm
  rcases Node.mem_preorder.1 hm with rfl | ⟨child, hc, hm⟩
  · exact ⟨source.within_whole, fun inner hi => (hl.within inner hi).1, hl.ordered,
      fun inner hi => .inl (hl.within inner hi).2, nofun⟩
  · exact (hl.sound child hc).nests node hm

end StateDiagram
