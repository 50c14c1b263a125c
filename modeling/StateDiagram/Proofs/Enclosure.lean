import StateDiagram.Proofs.Extent

namespace StateDiagram

set_option autoImplicit true

namespace Node

theorem endsAtToken_map (f : α → β) (node : Node α) :
    (node.map f).endsAtToken = node.endsAtToken := by
  cases node <;> simp [map_call, endsAtToken]

theorem isEmptyLambda_map (f : α → β) (node : Node α) :
    (node.map f).isEmptyLambda = node.isEmptyLambda := by
  cases node <;> simp [map_call, isEmptyLambda, statements_map]

variable {source : Source} {outline node inner : Outline}

theorem start_le_of_mem_preorder (h : ∀ node ∈ outline.preorder, node.Nests source)
    (hm : inner ∈ outline.preorder) : outline.info.start ≤ inner.info.start := by
  induction outline using Node.induction with
  | step node ih =>
    rcases mem_preorder.1 hm with rfl | ⟨child, hc, hi⟩
    · exact Nat.le_refl _
    · have hchild : ∀ found ∈ child.preorder, found.Nests source :=
        fun found hf => h found (mem_preorder.2 (.inr ⟨child, hc, hf⟩))
      exact Nat.le_trans ((h node (mem_preorder_self node)).starts child hc) (ih child hc hchild hi)

theorem stop_le_of_mem_preorder
    (h : ∀ node ∈ outline.preorder, ∀ child ∈ node.children, child.info.stop ≤ node.info.stop)
    (hn : node ∈ outline.preorder) (hi : inner ∈ node.preorder) :
    inner.info.stop ≤ node.info.stop := by
  induction node using Node.induction with
  | step node ih =>
    rcases mem_preorder.1 hi with rfl | ⟨child, hc, hi⟩
    · exact Nat.le_refl _
    · have hm : child ∈ node.preorder := mem_preorder.2 (.inr ⟨child, hc, mem_preorder_self child⟩)
      exact Nat.le_trans (ih child hc (mem_preorder_trans hn hm) hi) (h node hn child hc)

/-- All spans nest if and only if no call or group holds an empty lambda that reaches over the
last token. -/
theorem stops_iff (h : ∀ node ∈ outline.preorder, node.Nests source) :
    (∀ node ∈ outline.preorder, ∀ child ∈ node.children, child.info.stop ≤ node.info.stop) ↔
      ∀ node ∈ outline.preorder, node.endsAtToken = true → ∀ inner ∈ node.preorder,
        inner.isEmptyLambda = true → inner.info.stop ≤ source.lastEnd := by
  constructor
  · intro hs node hn he inner hi _
    exact Nat.le_trans (stop_le_of_mem_preorder hs hn hi) ((h node hn).ends he)
  · intro hs node hn child hc
    rcases (h node hn).stops child hc with hle | ⟨he, _, _, lambda, hl, hempty, hlt⟩
    · exact hle
    · have hm := mem_preorder.2 (.inr ⟨child, hc, hl⟩)
      exact (Nat.not_lt.2 (hs node hn he lambda hm hempty) hlt).elim

end Node

/-- In every tree that is parsed, the children of a node start in its span, and each ends where
the next one starts or in front of it. Each ends in the span of the node too, or else the node is a
call or group that ends at the last token while the child reaches to the end of the source. All
spans nest if and only if no call or group holds an empty lambda that reaches over the last
token. -/
theorem children_nest {limit : Nat} {text : String} {tree : SyntaxTree}
    (h : SyntaxTree.parse limit text = .ok tree) :
    (∀ node ∈ tree.preorder,
      node.children.Pairwise (fun a b => a.info.span.stop ≤ b.info.span.start) ∧
      ∀ child ∈ node.children, node.info.span.start ≤ child.info.span.start ∧
        (child.info.span.stop ≤ node.info.span.stop ∨
          node.endsAtToken = true ∧ node.info.span.stop = (Source.ofString text).lastEnd ∧
            child.info.span.stop = (Source.ofString text).size)) ∧
    ((∀ node ∈ tree.preorder, ∀ child ∈ node.children,
        child.info.span.stop ≤ node.info.span.stop) ↔
      ∀ node ∈ tree.preorder, node.endsAtToken = true → ∀ inner ∈ node.preorder,
        inner.isEmptyLambda = true →
          inner.info.span.stop ≤ (Source.ofString text).lastEnd) := by
  rw [SyntaxTree.parse, Source.parse] at h
  split at h
  · cases h
  · next outline ho =>
    cases h
    have hn := Source.nests_of_outline? ho
    have hi := Node.stops_iff hn
    simp only [Node.preorder_map, List.forall_mem_map, Node.children_map, List.pairwise_map,
      Node.info_map, Source.locate, Node.endsAtToken_map, Node.isEmptyLambda_map]
    refine ⟨?_, hi⟩
    intro node hm
    have hnode := hn node hm
    refine ⟨hnode.ordered, ?_⟩
    intro child hc
    refine ⟨hnode.starts child hc, (hnode.stops child hc).imp_right ?_⟩
    rintro ⟨he, hstop, hsize, _⟩
    exact ⟨he, hstop, hsize⟩

/-- A lambda that is not closed reaches over the call that it belongs to. -/
theorem children_nest_unclosed : ∃ tree, SyntaxTree.parse 2 "call \x7b " = .ok tree ∧
    ¬ (∀ node ∈ tree.preorder, ∀ child ∈ node.children,
      child.info.span.stop ≤ node.info.span.stop) ∧
    ∀ node ∈ tree.preorder,
      node.children.Pairwise fun a b => a.info.span.stop ≤ b.info.span.start := by
  have hp : ((SyntaxTree.parse 2 "call \x7b ").toOption.any fun tree =>
      tree.preorder.any fun node => node.children.any fun child =>
        node.info.span.stop < child.info.span.stop) = true := by
    decide +kernel
  cases ht : SyntaxTree.parse 2 "call \x7b " with
  | ok tree =>
    rw [ht] at hp
    refine ⟨tree, rfl, ?_, fun node hm => ((children_nest ht).1 node hm).1⟩
    intro h
    obtain ⟨node, hn, hp⟩ := List.any_eq_true.1 hp
    obtain ⟨child, hc, hp⟩ := List.any_eq_true.1 hp
    exact Nat.not_le.2 (of_decide_eq_true hp) (h node hn child hc)
  | error => rw [ht] at hp; cases hp

end StateDiagram
