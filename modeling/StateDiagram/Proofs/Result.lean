namespace StateDiagram

set_option autoImplicit true

theorem bind_eq_ok {result : Except ε α} {next : α → Except ε β} {value : β} :
    result >>= next = .ok value ↔ ∃ first, result = .ok first ∧ next first = .ok value := by
  cases result with
  | error fault => exact ⟨nofun, nofun⟩
  | ok first => exact ⟨fun h => ⟨first, rfl, h⟩, fun ⟨_, he, h⟩ => by cases he; exact h⟩

theorem exists_eq_ok_of_isOk {result : Except ε α} (h : result.isOk = true) :
    ∃ value, result = .ok value := by
  cases result with
  | error => cases h
  | ok value => exact ⟨value, rfl⟩

theorem exists_of_mapM_ok {f : α → Except ε β} {values : List α} {results : List β}
    (h : values.mapM f = .ok results) : ∀ result ∈ results, ∃ value ∈ values,
      f value = .ok result := by
  induction values generalizing results with
  | nil =>
    cases h
    exact List.forall_mem_nil _
  | cons value values ih =>
    rw [List.mapM_cons] at h
    obtain ⟨first, hf, h⟩ := bind_eq_ok.1 h
    obtain ⟨more, hm, h⟩ := bind_eq_ok.1 h
    cases h
    refine List.forall_mem_cons.2 ⟨⟨value, List.mem_cons_self, hf⟩, fun result hr => ?_⟩
    obtain ⟨other, ho, he⟩ := ih hm result hr
    exact ⟨other, List.mem_cons_of_mem _ ho, he⟩

/-- A relation between results that holds of equal values and that going on with related results
keeps. A property of results is such a relation that leaves its second side out. -/
structure BindClosed (r : ∀ α : Type, Except ε α → Except ε α → Prop) : Prop where
  ok : ∀ {α : Type} (value : α), r α (.ok value) (.ok value)
  bind : ∀ {α β : Type} {result other : Except ε α} {f g : α → Except ε β},
    r α result other → (∀ value, r β (f value) (g value)) → r β (result >>= f) (other >>= g)

namespace BindClosed

variable {α : Type u} {β : Type} {r : ∀ α : Type, Except ε α → Except ε α → Prop}

theorem mapM (hr : BindClosed r) {f g : α → Except ε β} {values : List α}
    (h : ∀ value ∈ values, r β (f value) (g value)) :
    r (List β) (values.mapM f) (values.mapM g) := by
  induction values with
  | nil => exact hr.ok []
  | cons value values ih =>
    obtain ⟨hv, h⟩ := List.forall_mem_cons.1 h
    rw [List.mapM_cons, List.mapM_cons]
    exact hr.bind hv fun _ => hr.bind (ih h) fun _ => hr.ok _

theorem foldlM (hr : BindClosed r) {f g : β → α → Except ε β} {values : List α}
    (h : ∀ value ∈ values, ∀ state, r β (f state value) (g state value)) (state : β) :
    r β (values.foldlM f state) (values.foldlM g state) := by
  induction values generalizing state with
  | nil => exact hr.ok state
  | cons value values ih =>
    obtain ⟨hv, h⟩ := List.forall_mem_cons.1 h
    rw [List.foldlM_cons, List.foldlM_cons]
    exact hr.bind (hv state) (ih h)

theorem eq : BindClosed fun α => @Eq (Except ε α) where
  ok _ := rfl
  bind h hn := by rw [h, funext hn]

theorem sameValue : BindClosed fun _ (result other : Except ε _) =>
    ∀ value, result = .ok value ↔ other = .ok value where
  ok _ _ := Iff.rfl
  bind h hn value := by simp only [bind_eq_ok, h, hn]

end BindClosed

theorem mapM_eq_ok {α : Type u} {β : Type} {f : α → Except ε β} {g : α → β} {values : List α}
    (h : ∀ value ∈ values, f value = .ok (g value)) : values.mapM f = .ok (values.map g) :=
  (BindClosed.eq.mapM h).trans List.mapM_pure

end StateDiagram
