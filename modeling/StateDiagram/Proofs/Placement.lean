import StateDiagram.Proofs.Regular
import StateDiagram.Proofs.Strand
import StateDiagram.Proofs.Threshold

namespace StateDiagram

set_option autoImplicit true

open Layout Text

namespace Node

/-- The machines in the tree, if the given number of levels is left for it. -/
def Bears (n : Nat) (machines : List Machine) (tree : Node String) : Prop :=
  ∀ ⦃limit depth : Nat⦄, depth + n ≤ limit → tree.placed.machinesAt limit depth = .ok machines

theorem Bears.mono {tree : Node String} (h : tree.Bears m machines) (hn : m ≤ n) :
    tree.Bears n machines :=
  fun limit depth hd => h (by omega)

/-- Only the last child of the tree bears machines. -/
theorem Bears.of_children {tree child : Node String} (ho : Builder.ofNode? tree.placed = none)
    (hc : tree.children = front ++ [child]) (hf : ∀ other ∈ front, other.Quiet 0)
    (h : child.Bears n machines) : tree.Bears (n + 1) machines := by
  intro limit depth hd
  have hlevel (child : Node String) :
      (if child.opensLevel then depth + 1 else depth) + n ≤ limit := by
    split <;> omega
  have hv : tree.children =
      (front.map (fun other => (other, [])) ++ [(child, machines)]).map Prod.fst := by
    rw [hc, List.map_append, List.map_map, Function.comp_def, List.map_id']
    rfl
  have hown : SyntaxTree.ownMachines limit depth tree.placed = .ok [] := by
    rw [SyntaxTree.ownMachines, ho]
  have hm := machinesAt_placed Prod.snd hv (by omega) (fun value hm => ?_) hown
  · rwa [List.flatMap_append, List.flatMap_map, List.flatMap_eq_nil_iff.2 fun _ _ => rfl,
      List.flatMap_singleton, List.nil_append, List.append_nil] at hm
  · rcases List.mem_append.1 hm with hm | hm
    · obtain ⟨other, hother, rfl⟩ := List.mem_map.1 hm
      exact (hf other hother).mono (Nat.zero_le n) (hlevel other)
    · obtain rfl := List.mem_singleton.1 hm
      exact h (hlevel child)

theorem Bears.sequence {tree : Node String} (h : tree.Bears n machines) (text : String)
    (name : Identifier) : (Node.sequence text [name.tree, tree]).Bears (n + 1) machines :=
  .of_children (ofNode?_placed nofun) rfl (List.forall_mem_singleton.2 (.identifier name)) h

theorem Quiet.bareArgument (text : String) (name : Identifier) :
    (Node.valueArgument text none name.tree).Quiet n :=
  .of_flat (ofNode?_placed nofun) (List.forall_mem_singleton.2 ⟨rfl, .identifier name⟩)

end Node

/-- Only the last expression of the strand bears machines. -/
structure Strand.Bears (n : Nat) (machines : List Machine) (strand : Strand) : Prop where
  front : ∀ tree ∈ strand.front, tree.Quiet 0
  main : strand.main.Bears n machines

namespace Strand

variable {strand : Strand}

theorem Bears.tree (h : strand.Bears n machines) : strand.tree.Bears (n + 1) machines := by
  obtain ⟨layout, front, main⟩ := strand
  cases front with
  | nil => exact Node.Bears.mono h.main (Nat.le_succ n)
  | cons first front =>
    have hj : joined layout.text (first :: front ++ [main]) =
        .sequence layout.text (first :: front ++ [main]) := by
      cases front <;> rfl
    rw [Strand.tree, trees, hj]
    exact .of_children (Node.ofNode?_placed nofun) rfl h.front h.main

theorem Bears.argument (h : strand.Bears n machines) : strand.argument.Bears (n + 2) machines :=
  .of_children (Node.ofNode?_placed nofun) rfl (List.forall_mem_nil _) h.tree

theorem Bears.bracketed (h : strand.Bears n machines) (bracket : Bracket) :
    (strand.bracketed bracket).tree.Bears (n + 1) machines :=
  .of_children (Node.ofNode?_placed nofun) rfl h.front h.main

theorem Bears.braced (h : strand.Bears n machines) (lead trail : Layout)
    (parameters : Option String) :
    (strand.braced lead trail parameters).tree.Bears (n + 3) machines := by
  have hb : (Node.block strand.layout.text [strand.tree]).Bears (n + 2) machines :=
    .of_children (Node.ofNode?_placed nofun) rfl (List.forall_mem_nil _) h.tree
  exact .of_children (Node.ofNode?_placed nofun) rfl (List.forall_mem_nil _) hb

theorem Bears.mono (h : strand.Bears m machines) (hn : m ≤ n) : strand.Bears n machines :=
  ⟨h.front, Node.Bears.mono h.main hn⟩

end Strand

theorem Inscription.bears {line : Inscription} (h : line.tree.Bears n machines) :
    line.strand.Bears n machines :=
  ⟨List.forall_mem_nil _, h⟩

theorem Inscription.bears_call (callee : Identifier) (inside : Layout)
    (hf : ∀ other ∈ front, other.Quiet 0) {value : Node String} (h : value.Bears n machines) :
    (Inscription.call callee inside (front ++ [value])).tree.Bears (n + 1) machines := by
  have hc : ∀ other ∈ callee.tree :: front, other.Quiet 0 :=
    List.forall_mem_cons.2 ⟨.identifier callee, hf⟩
  refine .of_children (Node.ofNode?_placed nofun) ?_ hc h
  simp [Inscription.call, Node.children]

theorem Inscription.bears_heading (callee : Identifier) {body : Inscription}
    (h : body.tree.Bears n machines) :
    (Inscription.heading callee [] [] [] body).tree.Bears (n + 1) machines :=
  .of_children (Node.ofNode?_placed nofun) rfl
    (List.forall_mem_singleton.2 (.identifier callee)) h

/-- The machines in the hole are the machines in the whole, whatever stands around it. -/
theorem Context.bears {filling : Strand} (h : filling.Bears k machines) (context : Context) :
    (context.strand filling).Bears (k + 6 * context.depth) machines := by
  have hi (name : Identifier) : name.tree.Quiet 0 := .identifier name
  induction context with
  | hole => exact h
  | value name inside ih =>
    have hf : ∀ tree ∈ (strand filling (.value name inside)).front, tree.Quiet 0 :=
      List.forall_mem_cons.2 ⟨hi _, List.forall_mem_cons.2 ⟨hi name, List.forall_mem_cons.2
        ⟨BodyLine.quiet_operatorTree "=", ih.front⟩⟩⟩
    have hb : (strand filling (.value name inside)).Bears _ machines := ⟨hf, ih.main⟩
    exact hb.mono (by rw [depth]; omega)
  | body name inside ih =>
    have hc := Inscription.bears_heading name
      (ih.braced [.word .lineBreak] [.word .lineBreak] none)
    have hb : (strand filling (.body name inside)).Bears _ machines :=
      ⟨List.forall_mem_singleton.2 (hi _), hc⟩
    exact hb.mono (by rw [depth]; omega)
  | argument function inside ih =>
    have hb : (strand filling (.argument function inside)).Bears _ machines :=
      Inscription.bears (Inscription.bears_call function _ (List.forall_mem_nil _) ih.argument)
    exact hb.mono (by rw [depth]; omega)
  | second function first inside ih =>
    have hf := List.forall_mem_singleton.2
      (Node.Quiet.bareArgument (n := 0) (Layout.text [first.piece]) first)
    have hb : (strand filling (.second function first inside)).Bears _ machines :=
      Inscription.bears (Inscription.bears_call function _ hf ih.argument)
    exact hb.mono (by rw [depth]; omega)
  | group inside ih => exact (Inscription.bears (ih.bracketed .round)).mono (by rw [depth]; omega)
  | run inside ih =>
    have hc := Inscription.bears_heading Word.run (ih.braced [.space] [.space] none)
    exact (Inscription.bears hc).mono (by rw [depth]; omega)
  | index name inside ih =>
    have hb : (strand filling (.index name inside)).Bears _ machines :=
      Inscription.bears ((ih.bracketed .square).sequence _ name)
    exact hb.mono (by rw [depth]; omega)
  | callback function parameter inside ih =>
    have hl := ih.braced (arrowLayout parameter) [.space] (some parameter.text)
    have hb : (strand filling (.callback function parameter inside)).Bears _ machines :=
      Inscription.bears (Inscription.bears_call function _ (List.forall_mem_nil _)
        (Inscription.bears hl).argument)
    exact hb.mono (by rw [depth]; omega)

namespace MachineScript

/-- The builder as the only expression in the hole. -/
def strand (width : Nat) (script : MachineScript) : Strand :=
  ⟨script.layout width, [], script.tree width⟩

theorem heads_strand (width : Nat) (script : MachineScript) :
    (script.strand width).layout.Heads := by
  have hd : some (Lexeme.operator ".") ≠ some (.operator "=") := by decide
  exact ⟨_, _, rfl, .inl ⟨_, rfl⟩, hd⟩

theorem barred_strand (width : Nat) (script : MachineScript) :
    (script.strand width).layout.Barred :=
  (Barred.braces _).behind (f := [Word.stateMachine.piece, dot, Word.create.piece, .space])
    (by simp [words, Identifier.piece, dot])

theorem readsStrand (width : Nat) (script : MachineScript) (hn : 9 ≤ n) :
    ReadsStrand n (script.strand width).layout (script.strand width).trees := by
  obtain ⟨n, rfl⟩ : ∃ m, n = m + 9 := ⟨n - 9, by omega⟩
  exact (script.readsExpression width).strand (script.heads_strand width)

theorem bears_strand (width : Nat) (script : MachineScript) :
    (script.strand width).Bears 13 [script.machine] :=
  ⟨List.forall_mem_nil _, fun _ _ hd => script.machinesAt_tree width hd⟩

theorem scanned_strand (width : Nat) (script : MachineScript) (after : List Char) :
    Scanned after (script.strand width).layout :=
  (script.neat width after).scanned

end MachineScript

/-- Where the limits leave enough levels, the only machine is the one in the hole. -/
theorem Context.extractMachines_print (context : Context) (script : MachineScript) (width : Nat)
    {limits : Limits} (hs : 9 + 3 * context.depth ≤ limits.syntaxDepth)
    (he : 15 + 6 * context.depth ≤ limits.extractionDepth) :
    extractMachines limits (context.print (script.print width)) = .ok [script.machine] := by
  have hf := context.heads_strand (script.heads_strand width)
  have hr := context.readsStrand (script.heads_strand width) (script.barred_strand width)
    (fun _ hn => script.readsStrand width hn) limits.syntaxDepth hs
  have hfile : ReadsFile limits.syntaxDepth _ _ := (hr.statement hf).one.file .nil
  rw [List.append_nil] at hfile
  have hc := context.scanned_strand (script.scanned_strand width) []
  have ht : (context.strand (script.strand width)).layout.text =
      context.print (script.print width) :=
    text_eq (context.chars_strand (script.chars_layout width))
  rw [← ht]
  refine extractMachines_of_reads hfile hc.lexical hc.cr fun whole => ?_
  have hb : (Node.file whole [(context.strand (script.strand width)).tree]).Bears _ _ :=
    .of_children (Node.ofNode?_placed nofun) rfl (List.forall_mem_nil _)
      (context.bears (script.bears_strand width)).tree
  exact hb (by omega)

/-- What is found under one limit is found from some limit on, and nothing else below it. -/
theorem exists_threshold_of_extractMachines {limits : Limits} {text : String}
    (h : extractMachines limits text = .ok machines)
    (hl : limits.syntaxDepth ≤ limits.extractionDepth) :
    ∃ threshold, threshold ≤ limits.syntaxDepth ∧
      ∀ limit, extractMachines ⟨limit, limit⟩ text =
        if threshold ≤ limit then .ok machines else .error (.nestingTooDeep limit) := by
  obtain ⟨outline, threshold, _, ho⟩ := (Source.ofString text).exists_threshold
  have hparse (limit : Nat) : SyntaxTree.parse limit text =
      if threshold ≤ limit then .ok (outline.map (Source.ofString text).locate)
      else .error (.nestingTooDeep limit) := by
    rw [SyntaxTree.parse, Source.parse, ho]
    by_cases hl : threshold ≤ limit
    · rw [if_pos hl, if_pos hl]
    · rw [if_neg hl, if_neg hl]
  obtain ⟨tree, ht, hm⟩ := bind_eq_ok.1 h
  have hsame := ht
  rw [hparse] at hsame
  split at hsame
  · next hle =>
    obtain rfl := Except.ok.inj hsame
    rw [machines_eq_of_parse ht (.inl hl)] at hm
    refine ⟨threshold, hle, fun limit => ?_⟩
    by_cases hlimit : threshold ≤ limit
    · have hp := hparse limit
      rw [if_pos hlimit] at hp ⊢
      refine bind_eq_ok.2 ⟨_, hp, ?_⟩
      rw [machines_eq_of_parse hp (.inl (Nat.le_refl limit))]
      exact hm
    · rw [if_neg hlimit, extractMachines, hparse, if_neg hlimit]
      rfl
  · cases hsame

/-- The machine of a builder is found wherever the builder stands, and nothing else is found. All
that can be in the way is a limit. -/
theorem extractMachines_placed (context : Context) (script : MachineScript) (width : Nat) :
    extractMachines {} (script.print width) = .ok [script.machine] ∧
      ∃ threshold, threshold ≤ 9 + 3 * context.depth ∧
        ∀ limit, extractMachines ⟨limit, limit⟩ (context.print (script.print width)) =
          if threshold ≤ limit then .ok [script.machine] else .error (.nestingTooDeep limit) := by
  constructor
  · have hdefault : 15 ≤ defaultDepth := by decide
    exact Context.hole.extractMachines_print script width
      (Nat.le_trans (by decide) hdefault) hdefault
  · have hx : extractMachines ⟨9 + 3 * context.depth, 15 + 6 * context.depth⟩
        (context.print (script.print width)) = .ok [script.machine] :=
      context.extractMachines_print script width (Nat.le_refl _) (Nat.le_refl _)
    exact exists_threshold_of_extractMachines hx (by dsimp only; omega)

end StateDiagram
