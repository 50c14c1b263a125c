import StateDiagram.Text.Recognizer

namespace StateDiagram.Recognizer

variable {r s : Recognizer} {p : Char → Bool} {cs text close taken rest : List Char} {n : Nat}

theorem append_eq_append_cons {as bs before after : List Char} {c : Char}
    (h : as ++ bs = before ++ c :: after) :
    (∃ left, as = before ++ c :: left ∧ after = left ++ bs) ∨
      ∃ left, before = as ++ left ∧ bs = left ++ c :: after := by
  rcases List.append_eq_append_iff.1 h with ⟨left, hb, hbs⟩ | ⟨left, ha, hc⟩
  · exact .inr ⟨left, hb, hbs⟩
  · cases left with
    | nil => exact .inr ⟨[], by simpa using ha.symm, by simpa using hc.symm⟩
    | cons d left =>
      obtain ⟨rfl, rfl⟩ := List.cons.inj hc
      exact .inl ⟨left, ha, rfl⟩

/-- The recognizer takes exactly `taken` from a text that goes on with `rest`. -/
def Takes (r : Recognizer) (taken rest : List Char) : Prop := r (taken ++ rest) = some taken.length

/-- A recognizer that never takes more than there is. -/
def Bounded (r : Recognizer) : Prop := ∀ cs n, r cs = some n → n ≤ cs.length

theorem Bounded.takes (h : Bounded r) (hn : r cs = some n) :
    Takes r (cs.take n) (cs.drop n) := by
  rw [Takes, List.take_append_drop, hn, List.length_take, Nat.min_eq_left (h cs n hn)]

theorem takes_literal : Takes (literal text) taken rest ↔ taken = text := by
  rw [Takes, literal]
  constructor
  · intro h
    split at h
    · next hp =>
      obtain ⟨more, he⟩ := List.isPrefixOf_iff_prefix.1 hp
      exact (List.append_inj he (Option.some.inj h)).1.symm
    · cases h
  · rintro rfl
    rw [if_pos (List.isPrefixOf_iff_prefix.2 (List.prefix_append ..))]

theorem takes_one : Takes (one p) taken rest ↔ ∃ c, taken = [c] ∧ p c = true := by
  rw [Takes]
  constructor
  · intro h
    cases taken with
    | nil =>
      cases rest with
      | nil => cases h
      | cons c rest =>
        simp only [List.nil_append, one] at h
        split at h <;> cases h
    | cons c taken =>
      simp only [List.cons_append, one] at h
      split at h
      · next hc =>
        have hl := Option.some.inj h
        have he : taken = [] := List.eq_nil_of_length_eq_zero (by simpa using hl.symm)
        exact ⟨c, by rw [he], hc⟩
      · cases h
  · rintro ⟨c, rfl, hc⟩
    simp [one, hc]

theorem takes_run : Takes (run p) taken rest ↔
    (∀ c ∈ taken, p c = true) ∧ ∀ c ∈ rest.head?, p c = false := by
  rw [Takes, run, Option.some.injEq]
  induction taken with
  | nil =>
    cases rest with
    | nil => simp
    | cons c rest => cases hc : p c <;> simp [hc]
  | cons c taken ih =>
    rw [List.cons_append, List.takeWhile_cons]
    cases hc : p c with
    | false => simp [hc]
    | true => simpa [hc] using ih

theorem takes_orElse : Takes (r.orElse s) taken rest ↔
    Takes r taken rest ∨ r (taken ++ rest) = none ∧ Takes s taken rest := by
  simp only [Takes, orElse]
  cases r (taken ++ rest) <;> simp

theorem takes_andThen : Takes (r.andThen s) taken rest ↔
    ∃ front back, taken = front ++ back ∧ Takes r front (back ++ rest) ∧ Takes s back rest := by
  simp only [Takes, andThen]
  constructor
  · intro h
    cases hn : r (taken ++ rest) with
    | none => simp [hn] at h
    | some n =>
      simp only [hn, Option.map_eq_some_iff] at h
      obtain ⟨k, hk, he⟩ := h
      have hle : n ≤ taken.length := by omega
      rw [List.drop_append_of_le_length hle] at hk
      refine ⟨taken.take n, taken.drop n, (List.take_append_drop ..).symm, ?_, ?_⟩
      · rw [← List.append_assoc, List.take_append_drop, hn, List.length_take,
          Nat.min_eq_left hle]
      · rw [hk, List.length_drop]
        congr 1
        omega
  · rintro ⟨front, back, rfl, hf, hb⟩
    rw [List.append_assoc, hf]
    simp [hb]

theorem Bounded.literal (text : List Char) : Bounded (literal text) := by
  intro cs n h
  rw [Recognizer.literal] at h
  split at h
  · next hp =>
    cases h
    exact (List.isPrefixOf_iff_prefix.1 hp).length_le
  · cases h

theorem Bounded.one (p : Char → Bool) : Bounded (one p) := by
  intro cs n h
  cases cs with
  | nil => cases h
  | cons c cs =>
    simp only [Recognizer.one] at h
    split at h <;> cases h
    simp

theorem Bounded.run (p : Char → Bool) : Bounded (run p) := by
  intro cs n h
  cases h
  exact (List.takeWhile_prefix p).length_le

theorem Bounded.andThen (hr : Bounded r) (hs : Bounded s) : Bounded (r.andThen s) := by
  intro cs n h
  rw [Recognizer.andThen] at h
  split at h
  · cases h
  · next k hk =>
    obtain ⟨m, hm, rfl⟩ := Option.map_eq_some_iff.1 h
    have hkl := hr cs k hk
    have hml := hs _ m hm
    rw [List.length_drop] at hml
    omega

theorem Bounded.orElse (hr : Bounded r) (hs : Bounded s) : Bounded (r.orElse s) := by
  intro cs n h
  rw [Recognizer.orElse] at h
  split at h
  · exact hs cs n h
  · next k hk =>
    have hn : k = n := Option.some.inj h
    exact hn ▸ hr cs k hk

theorem Bounded.optional (hr : Bounded r) : Bounded r.optional := by
  intro cs n h
  rw [Recognizer.optional] at h
  cases hk : r cs with
  | none => rw [hk] at h; cases h; exact Nat.zero_le _
  | some k =>
    rw [hk] at h
    have hn : k = n := Option.some.inj h
    exact hn ▸ hr cs k hk

theorem Bounded.firstLiteral (texts : List (List Char)) : Bounded (firstLiteral texts) := by
  induction texts with
  | nil => intro cs n h; cases h
  | cons text texts ih => exact (Bounded.literal text).orElse ih

theorem Bounded.upTo (close : List Char) : Bounded (upTo close) := by
  intro cs
  induction cs with
  | nil => exact Bounded.literal close []
  | cons c cs ih =>
    intro n h
    rw [Recognizer.upTo] at h
    split at h
    · next hp =>
      cases h
      exact (List.isPrefixOf_iff_prefix.1 hp).length_le
    · obtain ⟨k, hk, rfl⟩ := Option.map_eq_some_iff.1 h
      have hle := ih k hk
      rw [List.length_cons]
      omega

theorem not_takes_upTo_nil (hc : close ≠ []) : ¬ Takes (upTo close) [] rest := by
  intro h
  rw [Takes, List.nil_append, List.length_nil] at h
  cases rest with
  | nil =>
    have hl : [] = close := takes_literal.1 h
    exact hc hl.symm
  | cons c rest =>
    rw [upTo] at h
    split at h
    · exact hc (List.eq_nil_of_length_eq_zero (Option.some.inj h))
    · obtain ⟨k, _, hk⟩ := Option.map_eq_some_iff.1 h
      omega

theorem takes_upTo_cons {c : Char} : Takes (upTo close) (c :: taken) rest ↔
    c :: taken = close ∨
      ¬ close <+: c :: (taken ++ rest) ∧ Takes (upTo close) taken rest := by
  rw [Takes, List.cons_append, upTo, Takes]
  simp only [List.isPrefixOf_iff_prefix]
  by_cases hp : close <+: c :: (taken ++ rest)
  · simp only [hp, ↓reduceIte, Option.some.injEq, not_true_eq_false, false_and, or_false]
    constructor
    · intro hl
      obtain ⟨more, he⟩ := hp
      exact (List.append_inj he hl).1.symm
    · rintro rfl
      rfl
  · simp only [hp, ↓reduceIte, not_false_eq_true, true_and]
    have hne : c :: taken ≠ close := by
      rintro rfl
      exact hp (List.prefix_append (c :: taken) rest)
    simp only [hne, false_or]
    cases upTo close (taken ++ rest) with
    | none => simp
    | some k => simp; omega

theorem Takes.exists_body (hc : close ≠ []) (h : Takes (upTo close) taken rest) :
    ∃ body, taken = body ++ close := by
  induction taken with
  | nil => exact (not_takes_upTo_nil hc h).elim
  | cons c taken ih =>
    rcases takes_upTo_cons.1 h with he | ⟨_, ht⟩
    · exact ⟨[], he⟩
    · obtain ⟨body, rfl⟩ := ih ht
      exact ⟨c :: body, rfl⟩

/-- A closing text is found without a look at what follows it. -/
theorem Takes.upTo_rest (hc : close ≠ []) (h : Takes (upTo close) taken rest)
    (rest' : List Char) : Takes (upTo close) taken rest' := by
  induction taken with
  | nil => exact (not_takes_upTo_nil hc h).elim
  | cons c taken ih =>
    rcases takes_upTo_cons.1 h with he | ⟨hp, ht⟩
    · exact takes_upTo_cons.2 (.inl he)
    · refine takes_upTo_cons.2 (.inr ⟨fun hp' => hp ?_, ih ht⟩)
      obtain ⟨body, rfl⟩ := ht.exists_body hc
      have hin : close <+: c :: (body ++ close) := by
        apply List.prefix_of_prefix_length_le hp' (List.prefix_append (c :: (body ++ close)) rest')
        simp only [List.length_cons, List.length_append]
        omega
      exact hin.trans (List.prefix_append (c :: (body ++ close)) rest)

/-- Applying `r` again and again takes `taken` and stops in front of `rest`. -/
inductive Repeats (r : Recognizer) : List Char → List Char → Prop where
  | stop {rest : List Char} (h : ∀ n, r rest ≠ some (n + 1)) : Repeats r [] rest
  | step {first more rest : List Char} (hf : first ≠ []) (ht : Takes r first (more ++ rest))
      (hm : Repeats r more rest) : Repeats r (first ++ more) rest

theorem repeats_repeatedLength (hr : Bounded r) (cs : List Char) :
    Repeats r (cs.take (repeatedLength r cs)) (cs.drop (repeatedLength r cs)) := by
  fun_induction repeatedLength r cs with
  | case1 =>
    refine .stop fun n hn => ?_
    have hle := hr _ _ hn
    simp at hle
  | case2 c cs n hn ih =>
    have ht := hr.takes hn
    have hd : (c :: cs).drop (n + 1 + repeatedLength r (cs.drop n)) =
        (cs.drop n).drop (repeatedLength r (cs.drop n)) := by
      rw [List.drop_drop, Nat.add_right_comm, List.drop_succ_cons]
    rw [List.take_add, List.drop_succ_cons, hd]
    refine .step (by simp) ?_ ih
    rw [List.take_append_drop]
    exact ht
  | case3 c cs hn => exact .stop hn

theorem Repeats.repeatedLength_eq (h : Repeats r taken rest) :
    repeatedLength r (taken ++ rest) = taken.length := by
  induction h with
  | @stop rest h =>
    cases rest with
    | nil => simp [repeatedLength]
    | cons c rest =>
      rw [List.nil_append, repeatedLength]
      split
      · next n hn => exact (h n hn).elim
      · rfl
  | @step first more rest hf ht hm ih =>
    obtain ⟨c, first, rfl⟩ := List.exists_cons_of_ne_nil hf
    rw [Takes] at ht
    rw [List.append_assoc, List.cons_append, repeatedLength]
    simp only [List.cons_append, List.length_cons] at ht
    rw [ht]
    simp only [List.drop_left, ih, List.length_append, List.length_cons]

theorem Bounded.repeated (hr : Bounded r) : Bounded r.repeated := by
  intro cs n h
  cases h
  have he := (repeats_repeatedLength hr cs).repeatedLength_eq
  rw [List.take_append_drop, List.length_take] at he
  omega

theorem takes_repeated (hr : Bounded r) : Takes r.repeated taken rest ↔ Repeats r taken rest := by
  rw [Takes, Recognizer.repeated, Option.some.injEq]
  constructor
  · intro h
    have hs := repeats_repeatedLength hr (taken ++ rest)
    rwa [h, List.take_left, List.drop_left] at hs
  · exact Repeats.repeatedLength_eq

theorem Bounded.repeatedOnce (hr : Bounded r) : Bounded r.repeatedOnce := hr.andThen hr.repeated

theorem repeats_one : Repeats (one p) taken rest ↔ Takes (run p) taken rest := by
  rw [takes_run]
  constructor
  · intro h
    induction h with
    | @stop rest h =>
      refine ⟨by simp, fun c hc => ?_⟩
      obtain ⟨more, rfl⟩ : ∃ more, rest = c :: more := by
        cases rest with
        | nil => simp at hc
        | cons d more => simp at hc; exact ⟨more, by rw [hc]⟩
      cases hp : p c with
      | false => rfl
      | true => exact (h 0 (by simp [one, hp])).elim
    | step hf ht hm ih =>
      obtain ⟨c, rfl, hc⟩ := takes_one.1 ht
      exact ⟨by simpa [hc] using ih.1, ih.2⟩
  · rintro ⟨ht, hr⟩
    induction taken with
    | nil =>
      refine .stop fun n hn => ?_
      cases rest with
      | nil => cases hn
      | cons c rest =>
        have hc := hr c (by simp)
        simp [one, hc] at hn
    | cons c taken ih =>
      have hc := ht c (by simp)
      exact .step (by simp) (takes_one.2 ⟨c, rfl, hc⟩) (ih fun d hd => ht d (by simp [hd]))

theorem takes_optional : Takes r.optional taken rest →
    Takes r taken rest ∨ taken = [] := by
  intro h
  rw [Takes, optional, Option.some.injEq] at h
  cases hk : r (taken ++ rest) with
  | none =>
    rw [hk] at h
    exact .inr (List.eq_nil_of_length_eq_zero h.symm)
  | some k =>
    rw [hk] at h
    have hl : k = taken.length := h
    exact .inl (hl ▸ hk :)

theorem takes_firstLiteral {texts : List (List Char)} (h : Takes (firstLiteral texts) taken rest) :
    taken ∈ texts := by
  induction texts with
  | nil => cases h
  | cons text texts ih =>
    rcases takes_orElse.1 h with h | ⟨_, h⟩
    · exact List.mem_cons.2 (.inl (takes_literal.1 h))
    · exact List.mem_cons_of_mem text (ih h)

/-- A recognizer that takes no text with the given character in it. -/
def Avoids (c : Char) (r : Recognizer) : Prop := ∀ taken rest, Takes r taken rest → c ∉ taken

section Avoids

variable {c : Char}

theorem Avoids.literal (h : c ∉ text) : Avoids c (literal text) := by
  intro taken rest ht
  rwa [takes_literal.1 ht]

theorem Avoids.one (h : p c = false) : Avoids c (one p) := by
  intro taken rest ht hc
  obtain ⟨d, rfl, hd⟩ := takes_one.1 ht
  rw [← List.mem_singleton.1 hc, h] at hd
  cases hd

theorem Avoids.run (h : p c = false) : Avoids c (run p) := by
  intro taken rest ht hc
  have hp := (takes_run.1 ht).1 c hc
  rw [h] at hp
  cases hp

theorem Avoids.orElse (hr : Avoids c r) (hs : Avoids c s) : Avoids c (r.orElse s) := by
  intro taken rest ht
  rcases takes_orElse.1 ht with ht | ⟨_, ht⟩
  · exact hr taken rest ht
  · exact hs taken rest ht

theorem Avoids.andThen (hr : Avoids c r) (hs : Avoids c s) : Avoids c (r.andThen s) := by
  intro taken rest ht hc
  obtain ⟨front, back, rfl, hf, hb⟩ := takes_andThen.1 ht
  rcases List.mem_append.1 hc with hc | hc
  · exact hr front _ hf hc
  · exact hs back _ hb hc

theorem Avoids.optional (hr : Avoids c r) : Avoids c r.optional := by
  intro taken rest ht
  rcases takes_optional ht with ht | rfl
  · exact hr taken rest ht
  · exact List.not_mem_nil

theorem Avoids.firstLiteral {texts : List (List Char)} (h : ∀ text ∈ texts, c ∉ text) :
    Avoids c (firstLiteral texts) :=
  fun taken _ ht => h taken (takes_firstLiteral ht)

end Avoids

end StateDiagram.Recognizer
