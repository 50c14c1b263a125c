import StateDiagram.Proofs.Evaluation
import StateDiagram.Proofs.Sequence

namespace StateDiagram

set_option autoImplicit true

open Layout Text

/-- A line of a body, and the statement that it stands for. -/
structure Row where
  layout : Layout
  items : List (Node String)
  carries : Bool
  found : Option Statement

namespace Row

/-- The row is read as its items, and they stand for its statement. -/
structure Sound (n limit depth : Nat) (row : Row) : Prop where
  reads : ReadsItems n row.layout row.carries row.items
  leading : ∀ first ∈ row.layout.words.head?, first.isLeading = false
  quiet : ∀ item ∈ row.items, item.Quiet 3
  yields : row.carries = false → Yields limit depth (joined row.layout.text row.items) row.found
  wide : row.carries = true → (∃ first second more, row.items = first :: second :: more) ∧
    row.found = none

/-- The statements of the rows that are not taken in by the row above them. -/
def kept (taken : Bool) : List Row → List Statement
  | [] => []
  | row :: rows => (if taken then [] else row.found.toList) ++ kept row.carries rows

end Row

theorem quiet_joined (h : ∀ item ∈ items, item.Quiet n) (whole : String) :
    (joined whole items).Quiet (n + 1) := by
  match items with
  | [] => exact .of_children (Node.ofNode?_placed nofun) h
  | [item] => exact (h item List.mem_cons_self).mono (Nat.le_succ n)
  | first :: second :: more => exact .of_children (Node.ofNode?_placed nofun) h

theorem yields_sequence (whole : String) (items : List (Node String)) :
    Yields limit depth (.sequence whole items) none := by
  refine .inl ⟨?_, rfl⟩
  rw [Node.placed, Node.map]
  rfl

/-- Trees and the statements that they stand for. -/
structure Found (limit depth : Nat) (values : List (Node String × Option Statement))
    (statements : List Statement) : Prop where
  quiet : ∀ value ∈ values, value.1.Quiet 4
  yields : ∀ value ∈ values, Yields limit depth value.1 value.2
  statements : values.filterMap Prod.snd = statements

theorem Found.nil : Found limit depth [] [] := ⟨nofun, nofun, rfl⟩

theorem Found.cons (hq : tree.Quiet 4) (hy : Yields limit depth tree found)
    (h : Found limit depth values known) :
    Found limit depth ((tree, found) :: values) (found.toList ++ known) where
  quiet := List.forall_mem_cons.2 ⟨hq, h.quiet⟩
  yields := List.forall_mem_cons.2 ⟨hy, h.yields⟩
  statements := by
    rw [List.filterMap_cons, h.statements]
    cases found <;> rfl

namespace Row

/-- The first statement of some rows, which may take in several of them, and what is found in the
others. -/
structure Split (n limit depth : Nat) (row : Row) (rows : List Row) (front back : Layout)
    (trees : List (Node String)) (values : List (Node String × Option Statement)) : Prop where
  layout : core [] ((row :: rows).map Row.layout) = front ++ back
  reads : ReadsBody n front back trees (values.map Prod.fst)
  quiet : ∀ tree ∈ trees, tree.Quiet 3
  found : Found limit depth values (kept row.carries rows)
  plain : row.carries = false → front = row.layout ∧ trees = row.items
  wide : row.carries = true → ∃ first second more, trees = first :: second :: more

theorem Split.statements (h : Split n limit depth row rows front back trees values)
    (hs : row.Sound n limit depth) :
    ∃ values, ReadsStatements n (core [] ((row :: rows).map Row.layout)) (values.map Prod.fst) ∧
      Found limit depth values (kept false (row :: rows)) := by
  have hy : Yields limit depth (joined front.text trees) row.found := by
    cases hc : row.carries with
    | false =>
      obtain ⟨rfl, rfl⟩ := h.plain hc
      exact hs.yields hc
    | true =>
      obtain ⟨first, second, more, rfl⟩ := h.wide hc
      rw [(hs.wide hc).2]
      exact yields_sequence front.text _
  refine ⟨(joined front.text trees, row.found) :: values, ?_,
    .cons (quiet_joined h.quiet _) hy h.found⟩
  rw [h.layout]
  exact h.reads.statements

theorem exists_split {row : Row} {rows : List Row}
    (h : ∀ other ∈ row :: rows, other.Sound n limit depth) :
    ∃ front back trees values, Split n limit depth row rows front back trees values := by
  induction rows generalizing row with
  | nil =>
    obtain ⟨hs, _⟩ := List.forall_mem_cons.1 h
    exact ⟨row.layout, [], row.items, [], rfl, .last hs.reads hs.leading, hs.quiet, .nil,
      fun _ => ⟨rfl, rfl⟩, fun hc => (hs.wide hc).1⟩
  | cons next rows ih =>
    obtain ⟨hs, h⟩ := List.forall_mem_cons.1 h
    obtain ⟨front, back, trees, values, hn⟩ := ih h
    have hl : core [] ((row :: next :: rows).map Row.layout) =
        row.layout ++ .word .lineBreak :: core [] ((next :: rows).map Row.layout) := by
      rw [List.map_cons, core, List.map_cons, stack_cons]
      rfl
    cases hc : row.carries with
    | false =>
      obtain ⟨values, hr, hf⟩ := hn.statements (h next List.mem_cons_self)
      have hreads := hs.reads
      rw [hc] at hreads
      refine ⟨row.layout, _, row.items, values, hl, .next hreads hs.leading hr, hs.quiet, ?_,
        fun _ => ⟨rfl, rfl⟩, fun ht => absurd (hc.symm.trans ht) Bool.false_ne_true⟩
      rw [hc]
      exact hf
    | true =>
      have hreads := hs.reads
      rw [hc] at hreads
      obtain ⟨⟨first, second, more, hi⟩, _⟩ := hs.wide hc
      refine ⟨_, back, row.items ++ trees, values, ?_, .carry hreads hs.leading hn.reads,
        List.forall_mem_append.2 ⟨hs.quiet, hn.quiet⟩, ?_,
        fun ht => absurd (ht.symm.trans hc) Bool.false_ne_true,
        fun _ => ⟨first, second, more ++ trees, by rw [hi]; rfl⟩⟩
      · rw [hl, hn.layout, List.append_assoc, List.cons_append]
      · rw [hc]
        exact hn.found

/-- Rows one below the other are read as statements, in which those of the rows are found that
are not taken in. -/
theorem readsStatements {row : Row} {rows : List Row}
    (h : ∀ other ∈ row :: rows, other.Sound n limit depth) :
    ∃ values, ReadsStatements n (core [] ((row :: rows).map Row.layout)) (values.map Prod.fst) ∧
      Found limit depth values (kept false (row :: rows)) := by
  obtain ⟨front, back, trees, values, hs⟩ := exists_split h
  exact hs.statements (h row List.mem_cons_self)

end Row

end StateDiagram
