import StateDiagram.Source

namespace StateDiagram.Text

variable {as bs cs text : List Char} {start : Nat}

def StandsAt (cs : List Char) (start : Nat) (text : List Char) : Prop :=
  ∃ before after, cs = before ++ (text ++ after) ∧ byteSize before = start

/-- A byte offset that does not lie within a character. -/
def IsBoundary (cs : List Char) (n : Nat) : Prop :=
  ∃ before after, cs = before ++ after ∧ byteSize before = n

theorem byteSize_pos (h : text ≠ []) : 0 < byteSize text := by
  obtain ⟨c, cs, rfl⟩ := List.exists_cons_of_ne_nil h
  have := c.utf8Size_pos
  rw [byteSize_cons]
  omega

theorem StandsAt.slice_eq (h : StandsAt cs start text) :
    slice start (start + byteSize text) cs = text := by
  obtain ⟨before, after, rfl, rfl⟩ := h
  exact slice_append before text after

theorem StandsAt.left (h : StandsAt cs start (as ++ bs)) : StandsAt cs start as := by
  obtain ⟨before, after, rfl, rfl⟩ := h
  exact ⟨before, bs ++ after, by rw [List.append_assoc], rfl⟩

theorem StandsAt.right (h : StandsAt cs start (as ++ bs)) :
    StandsAt cs (start + byteSize as) bs := by
  obtain ⟨before, after, rfl, rfl⟩ := h
  exact ⟨before ++ as, after, by simp only [List.append_assoc], byteSize_append ..⟩

theorem StandsAt.isBoundary_start (h : StandsAt cs start text) : IsBoundary cs start := by
  obtain ⟨before, after, rfl, rfl⟩ := h
  exact ⟨before, text ++ after, rfl, rfl⟩

theorem StandsAt.isBoundary_stop (h : StandsAt cs start text) :
    IsBoundary cs (start + byteSize text) := by
  obtain ⟨before, after, rfl, rfl⟩ := h
  exact ⟨before ++ text, after, (List.append_assoc ..).symm, byteSize_append ..⟩

theorem takeBytes_zero (cs : List Char) : takeBytes 0 cs = [] := by
  have h := takeBytes_byteSize_append [] cs
  rwa [byteSize_nil, List.nil_append] at h

theorem takeBytes_add (n : Nat) (as bs : List Char) :
    takeBytes (n + byteSize as) (as ++ bs) = as ++ takeBytes n bs := by
  induction as with
  | nil => rfl
  | cons a as ih =>
    have hsub : n + (a.utf8Size + byteSize as) - a.utf8Size = n + byteSize as := by omega
    rw [List.cons_append, takeBytes, byteSize_cons, if_pos (by omega), hsub, ih, List.cons_append]

theorem dropBytes_add (n : Nat) (as bs : List Char) :
    dropBytes (n + byteSize as) (as ++ bs) = dropBytes n bs := by
  induction as with
  | nil => rfl
  | cons a as ih =>
    have hpos := a.utf8Size_pos
    have hsub : n + (a.utf8Size + byteSize as) - a.utf8Size = n + byteSize as := by omega
    rw [List.cons_append, dropBytes, byteSize_cons, if_neg (by omega), hsub, ih]

theorem slice_add (start stop : Nat) (as bs : List Char) :
    slice (start + byteSize as) (stop + byteSize as) (as ++ bs) = slice start stop bs := by
  rw [slice, slice, dropBytes_add, Nat.add_sub_add_right]

theorem takeBytes_append_of_le {n : Nat} (h : n ≤ byteSize as) :
    takeBytes n (as ++ bs) = takeBytes n as := by
  induction as generalizing n with
  | nil =>
    obtain rfl := Nat.le_zero.1 h
    exact takeBytes_zero bs
  | cons a as ih =>
    rw [byteSize_cons] at h
    rw [List.cons_append, takeBytes, takeBytes, ih (by omega)]

theorem slice_append_of_le {stop : Nat} (hs : IsBoundary as start) (h : stop ≤ byteSize as) :
    slice start stop (as ++ bs) = slice start stop as := by
  obtain ⟨before, after, rfl, rfl⟩ := hs
  rw [byteSize_append] at h
  rw [List.append_assoc, slice, slice, dropBytes_byteSize_append, dropBytes_byteSize_append]
  exact takeBytes_append_of_le (by omega)

end StateDiagram.Text

theorem StateDiagram.Source.slice_self (source : Source) (offset : Nat) :
    source.slice ⟨offset, offset⟩ = "" := by
  rw [slice, Text.slice, Nat.sub_self, Text.takeBytes_zero]
