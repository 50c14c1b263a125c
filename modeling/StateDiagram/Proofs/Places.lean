import Mathlib.Data.List.Induction
import StateDiagram.Proofs.Extent
import StateDiagram.Proofs.Indexed

namespace StateDiagram

set_option autoImplicit true

namespace Text

theorem splitAt?_append (before after : List Char) :
    splitAt? (byteSize before) (before ++ after) = some (before, after) := by
  induction before with
  | nil => cases after <;> rfl
  | cons c before ih =>
    obtain ⟨size, hsize⟩ := Nat.exists_eq_succ_of_ne_zero (Nat.ne_of_gt c.utf8Size_pos)
    have hs : byteSize (c :: before) = (size + byteSize before) + 1 := by
      rw [byteSize_cons, hsize]
      omega
    have hle : c.utf8Size ≤ (size + byteSize before) + 1 := by omega
    have hb : (size + byteSize before) + 1 - c.utf8Size = byteSize before := by omega
    rw [List.cons_append, hs, splitAt?, if_pos hle, hb, ih]

theorem slice?_append (before inside after : List Char) :
    slice? (byteSize before) (byteSize before + byteSize inside) (before ++ (inside ++ after)) =
      some inside := by
  have hle := Nat.le_add_right (byteSize before) (byteSize inside)
  simp only [slice?, if_pos hle, splitAt?_append, Nat.add_sub_cancel_left, Option.map_some]

theorem linesFrom_append (offset : Nat) (front back : List Char) :
    linesFrom offset (front ++ back) =
      linesFrom offset front ++ linesFrom (offset + byteSize front) back := by
  induction front generalizing offset with
  | nil => rfl
  | cons c front ih =>
    simp only [List.cons_append, linesFrom, ih, byteSize_cons, Nat.add_assoc]
    split <;> rfl

theorem length_linesFrom (offset : Nat) (cs : List Char) :
    (linesFrom offset cs).length = cs.count '\n' := by
  induction cs generalizing offset with
  | nil => rfl
  | cons c cs ih =>
    simp only [linesFrom, List.count_cons, beq_iff_eq]
    split
    · rw [List.length_cons, ih]
    · exact ih _

theorem lt_of_mem_linesFrom {cs : List Char} (h : start ∈ linesFrom offset cs) :
    offset < start ∧ start ≤ offset + byteSize cs := by
  induction cs generalizing offset with
  | nil => cases h
  | cons c cs ih =>
    have hpos := c.utf8Size_pos
    simp only [linesFrom] at h
    simp only [byteSize_cons]
    split at h
    · rcases List.mem_cons.1 h with rfl | h
      · omega
      · have := ih h
        omega
    · have := ih h
      omega

theorem linesFrom_of_not_mem {cs : List Char} (h : '\n' ∉ cs) : linesFrom offset cs = [] := by
  rw [← List.length_eq_zero_iff, length_linesFrom]
  exact List.count_eq_zero.2 h

/-- Binary search finds the border between the values that have a property and the others. -/
theorem partitionPoint_eq {p : Nat → Bool} {front back : List Nat} {low high : Nat}
    (hf : ∀ value ∈ front, p value = true) (hb : ∀ value ∈ back, p value = false)
    (hl : low ≤ front.length) (hh : front.length ≤ high) (hle : high ≤ (front ++ back).length) :
    partitionPoint p (front ++ back) low high = front.length := by
  fun_induction partitionPoint p (front ++ back) low high with
  | case1 low high hlt mid hp ih =>
    have hmid : mid < front.length := by
      by_contra hge
      rw [List.getElem?_append_right (Nat.le_of_not_lt hge)] at hp
      obtain ⟨value, hv, hp⟩ := (Option.any_eq_true p _).1 hp
      rw [hb value (List.mem_of_getElem? hv)] at hp
      cases hp
    exact ih hmid hh hle
  | case2 low high hlt mid hp ih =>
    have hmid : front.length ≤ mid := by
      by_contra hge
      have hm := Nat.lt_of_not_le hge
      rw [List.getElem?_append_left hm, List.getElem?_eq_getElem hm] at hp
      exact hp (hf _ (List.getElem_mem hm))
    exact ih hl hmid (by omega)
  | case3 low high hlt => omega

theorem exists_lastLine (cs : List Char) : ∃ front line, cs = front ++ line ∧ '\n' ∉ line ∧
    (front = [] ∨ ∃ lines, front = lines ++ ['\n']) ∧
    (cs.reverse.takeWhile (· ≠ '\n')).length = line.length := by
  induction cs using List.reverseRecOn with
  | nil => exact ⟨[], [], rfl, List.not_mem_nil, .inl rfl, rfl⟩
  | append_singleton cs c ih =>
    rw [List.reverse_append, List.reverse_singleton, List.singleton_append, List.takeWhile_cons]
    by_cases hc : c = '\n'
    · subst hc
      exact ⟨cs ++ ['\n'], [], (List.append_nil _).symm, List.not_mem_nil, .inr ⟨cs, rfl⟩, rfl⟩
    · obtain ⟨front, line, rfl, hn, hf, hl⟩ := ih
      refine ⟨front, line ++ [c], List.append_assoc .., ?_, hf, ?_⟩
      · rw [List.mem_append, List.mem_singleton, not_or]
        exact ⟨hn, Ne.symm hc⟩
      · rw [if_pos (decide_eq_true hc), List.length_cons, hl, List.length_append,
          List.length_singleton]

/-- A line starts where the last line feed in front of it ends. -/
theorem getLast_linesFrom {front : List Char} (h : front = [] ∨ ∃ lines, front = lines ++ ['\n']) :
    (0 :: linesFrom 0 front).getLast (List.cons_ne_nil _ _) = byteSize front := by
  rcases h with rfl | ⟨lines, rfl⟩
  · rfl
  · rw [linesFrom_append, byteSize_append]
    simp [linesFrom]

end Text

open Text

variable {source : Source} {span : Span}

theorem Span.Within.exists_text (h : span.Within source) : ∃ before inside after,
    source.text = before ++ (inside ++ after) ∧ byteSize before = span.start ∧
      byteSize before + byteSize inside = span.stop := by
  obtain ⟨before, behind, hs, hstart⟩ := h.boundary_start
  obtain ⟨front, after, ht, hstop⟩ := h.boundary_stop
  have hle := h.start_le
  rw [ht] at hs
  rcases List.append_eq_append_iff.1 hs with ⟨excess, rfl, rfl⟩ | ⟨inside, rfl, rfl⟩
  · -- The stop is not in front of the start, so nothing stands between them.
    rw [byteSize_append] at hstart
    have hz : byteSize excess = 0 := by omega
    have hn : excess = [] := by
      by_contra hne
      exact Nat.ne_of_gt (byteSize_pos hne) hz
    subst hn
    refine ⟨front, [], behind, ht, ?_, ?_⟩
    · rw [← hstart]
      rfl
    · rw [← hstop]
      rfl
  · refine ⟨before, inside, after, ?_, hstart, ?_⟩
    · rw [ht, List.append_assoc]
    · rw [← hstop, byteSize_append]

/-- The line that binary search finds is the one that counting gives. -/
theorem Source.location?_eq (before after : List Char) :
    Source.location? ⟨before ++ after⟩ (byteSize before) = some (.after before) := by
  obtain ⟨front, line, rfl, hn, hf, hl⟩ := exists_lastLine before
  have hstarts : Source.lineStarts ⟨front ++ line ++ after⟩ =
      (0 :: linesFrom 0 front) ++ linesFrom (byteSize (front ++ line)) after := by
    rw [Source.lineStarts, linesFrom_append, linesFrom_append, linesFrom_of_not_mem hn,
      List.append_nil, Nat.zero_add]
    rfl
  have hcount : (0 :: linesFrom 0 front).length = 1 + (front ++ line).count '\n' := by
    rw [List.length_cons, length_linesFrom, List.count_append, List.count_eq_zero.2 hn,
      Nat.add_zero]
    exact Nat.add_comm ..
  have hpoint : partitionPoint (· ≤ byteSize (front ++ line))
      ((0 :: linesFrom 0 front) ++ linesFrom (byteSize (front ++ line)) after) 0
      ((0 :: linesFrom 0 front) ++ linesFrom (byteSize (front ++ line)) after).length =
      (0 :: linesFrom 0 front).length := by
    apply partitionPoint_eq _ _ (Nat.zero_le _) _ (Nat.le_refl _)
    · intro start hm
      rw [decide_eq_true_eq, byteSize_append]
      rcases List.mem_cons.1 hm with rfl | hm
      · exact Nat.zero_le _
      · have := (lt_of_mem_linesFrom hm).2
        omega
    · intro start hm
      have := (lt_of_mem_linesFrom hm).1
      exact decide_eq_false (Nat.not_le.2 this)
    · rw [List.length_append]
      exact Nat.le_add_right ..
  have hlast : ((0 :: linesFrom 0 front) ++ linesFrom (byteSize (front ++ line)) after)[
      (0 :: linesFrom 0 front).length - 1]? = some (byteSize front) := by
    rw [List.getElem?_append_left (by simp), ← List.getLast?_eq_getElem?,
      List.getLast?_eq_some_getLast (List.cons_ne_nil _ _), getLast_linesFrom hf]
  have hslice := slice?_append front line after
  rw [← byteSize_append, ← List.append_assoc] at hslice
  simp only [Source.location?, hstarts, hpoint, hlast, hslice, Option.map_some, Location.after]
  rw [hcount, hl, Nat.add_comm 1 line.length]

theorem Source.slice?_eq (h : span.Within source) :
    slice? span.start span.stop source.text = some (source.slice span).toList := by
  obtain ⟨before, inside, after, ht, hstart, hstop⟩ := h.exists_text
  obtain ⟨text⟩ := source
  subst ht
  have hs := slice?_append before inside after
  simp only [← hstart, ← hstop, hs, slice, slice_append, String.toList_ofList]

theorem Source.place?_eq (h : span.Within source) :
    source.place? span = some (source.locate span) := by
  have hs := slice?_eq h
  obtain ⟨before, after, ht, hstart⟩ := h.boundary_start
  obtain ⟨text⟩ := source
  subst ht
  have hl := location?_eq before after
  have ht := takeBytes_byteSize_append before after
  rw [hstart] at hl ht
  simp only [place?, hs, hl, locate, ht, String.ofList_toList]

-- A span that ends within a character has no place.
example : Source.place? ⟨['a', 'é']⟩ ⟨1, 2⟩ = none ∧
    Source.place? ⟨['a', 'é']⟩ ⟨1, 3⟩ = some ⟨⟨1, 3⟩, ⟨1, 2⟩, "é"⟩ := by
  decide +kernel

end StateDiagram
