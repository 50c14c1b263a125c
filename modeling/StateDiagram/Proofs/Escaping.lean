import StateDiagram.Proofs.DrawnLine
import StateDiagram.Proofs.LineBreak

namespace StateDiagram

open Text

namespace Text

/-- The number of line breaks; CR LF is a single one. -/
def lineBreaks : List Char → Nat
  | [] => 0
  | '\r' :: '\n' :: cs => lineBreaks cs + 1
  | c :: cs => lineBreaks cs + if c = '\r' ∨ c = '\n' then 1 else 0

/-- The number of places at which the word stands in the text. -/
def occurrences (word cs : List Char) : Nat := cs.tails.countP fun tail => word <+: tail

/-- No CR at the end of the first text meets an LF at the start of the second. -/
def Parted (first second : List Char) : Prop :=
  ¬ (first.getLast? = some '\r' ∧ second.head? = some '\n')

variable {word cs first second : List Char} {c d : Char}

theorem occurrences_cons (word cs : List Char) (c : Char) :
    occurrences word (c :: cs) = occurrences word cs + if word <+: c :: cs then 1 else 0 := by
  rw [occurrences, List.tails, List.countP_cons, occurrences]
  simp only [decide_eq_true_eq]

theorem occurrences_cons_of_ne (h : c ≠ d) :
    occurrences (d :: word) (c :: cs) = occurrences (d :: word) cs := by
  rw [occurrences_cons, if_neg, Nat.add_zero]
  exact fun hp => h (List.cons_prefix_cons.1 hp).1.symm

theorem Parted.of_cons (h : Parted (c :: first) second) : Parted first second := by
  rintro ⟨hl, hs⟩
  refine h ⟨?_, hs⟩
  rw [List.getLast?_cons, hl]
  rfl

theorem joinCrLf_append (h : Parted first second) :
    joinCrLf (first ++ second) = joinCrLf first ++ joinCrLf second := by
  fun_induction joinCrLf first with
  | case1 => rfl
  | case2 cs ih => exact congrArg _ (ih h.of_cons.of_cons)
  | case3 c cs hn ih =>
    rw [List.cons_append, joinCrLf_cons, ih h.of_cons, List.cons_append]
    rintro rfl hs
    cases cs with
    | nil => exact h ⟨rfl, hs⟩
    | cons d cs =>
      obtain rfl : d = '\n' := Option.some.inj hs
      exact hn cs rfl rfl

end Text

namespace Label

def lineMark : List Char := ['<', 'b', 'r', '>']

def isBreak (c : Char) : Bool := c = '\r' || c = '\n'

/-- What a character becomes that is no part of a CR LF. -/
def escapeAlone (c : Char) : List Char :=
  if isBreak c then lineMark else if c = '\x22' then ['\x27'] else [c]

/-- Escapes a text in one pass from left to right. -/
def escapeOnce : List Char → List Char
  | [] => []
  | '\r' :: '\n' :: cs => lineMark ++ escapeOnce cs
  | c :: cs => escapeAlone c ++ escapeOnce cs

/-- Replaces each CR LF by LF, then each CR and LF by its mark, then each double quote. -/
def escapeThrice (cs : List Char) : List Char :=
  ((joinCrLf cs).flatMap fun c => if isBreak c then lineMark else [c]).map fun c =>
    if c = '\x22' then '\x27' else c

variable {word cs first second : List Char} {c : Char}

theorem escapeChars_eq (cs : List Char) : escapeChars cs = (joinCrLf cs).flatMap escapeAlone := by
  rw [escapeChars, normalizeLineEndings, List.flatMap_map]
  refine List.flatMap_congr fun c _ => ?_
  rw [escapeCharacter, escapeAlone, isBreak]
  by_cases hr : c = '\r'
  · simp [hr, lineMark]
  · simp [hr, lineMark]

theorem escapeChars_eq_escapeOnce (cs : List Char) : escapeChars cs = escapeOnce cs := by
  rw [escapeChars_eq]
  fun_induction escapeOnce cs with
  | case1 => rfl
  | case2 cs ih => rw [joinCrLf, List.flatMap_cons, ih]; rfl
  | case3 c cs hn ih =>
    rw [joinCrLf_cons, List.flatMap_cons, ih]
    rintro rfl hs
    obtain ⟨more, rfl⟩ := List.head?_eq_some_iff.1 hs
    exact hn more rfl rfl

theorem escapeChars_eq_escapeThrice (cs : List Char) : escapeChars cs = escapeThrice cs := by
  rw [escapeChars_eq, escapeThrice, List.map_flatMap]
  refine List.flatMap_congr fun c _ => ?_
  rw [escapeAlone]
  split
  · rfl
  · rw [List.map_singleton]
    split <;> rfl

theorem escapeChars_append (h : Parted first second) :
    escapeChars (first ++ second) = escapeChars first ++ escapeChars second := by
  rw [escapeChars_eq, joinCrLf_append h, List.flatMap_append, ← escapeChars_eq, ← escapeChars_eq]

theorem escapeChars_cons (h : c = '\r' → cs.head? ≠ some '\n') :
    escapeChars (c :: cs) = escapeAlone c ++ escapeChars cs := by
  rw [escapeChars_eq, joinCrLf_cons h, List.flatMap_cons, ← escapeChars_eq]

theorem escapeChars_crLf (cs : List Char) :
    escapeChars ('\r' :: '\n' :: cs) = lineMark ++ escapeChars cs := by
  rw [escapeChars_eq, joinCrLf, List.flatMap_cons, ← escapeChars_eq]
  rfl

/-- Texts are escaped part by part if and only if no CR meets an LF. -/
theorem escapeChars_append_iff : escapeChars (first ++ second) =
    escapeChars first ++ escapeChars second ↔ Parted first second := by
  refine ⟨fun h => ?_, escapeChars_append⟩
  rintro ⟨hl, hs⟩
  obtain ⟨front, rfl⟩ := List.getLast?_eq_some_iff.1 hl
  obtain ⟨back, rfl⟩ := List.head?_eq_some_iff.1 hs
  have hfront (more : List Char) : Parted front ('\r' :: more) := by
    rintro ⟨_, hm⟩
    cases hm
  have hwhole : escapeChars (front ++ ['\r'] ++ '\n' :: back) =
      escapeChars front ++ (lineMark ++ escapeChars back) := by
    rw [List.append_assoc, List.singleton_append, escapeChars_append (hfront _), escapeChars_crLf]
  have hfirst : escapeChars (front ++ ['\r']) = escapeChars front ++ lineMark := by
    rw [escapeChars_append (hfront _)]
    rfl
  have hsecond : escapeChars ('\n' :: back) = lineMark ++ escapeChars back :=
    escapeChars_cons nofun
  rw [hwhole, hfirst, hsecond] at h
  have hlength := congrArg List.length h
  simp [lineMark] at hlength

/-- The characters that are replaced, and those that replacements start with. -/
def touched : List Char := ['\r', '\n', '\x22', '\x27', '<']

theorem escapeChars_of_mem_touched (hc : c ∈ touched) (cs : List Char) :
    ∃ first ∈ touched, ∃ rest, escapeChars (c :: cs) = first :: rest := by
  by_cases hs : c = '\r' ∧ cs.head? = some '\n'
  · obtain ⟨rfl, hs⟩ := hs
    obtain ⟨more, rfl⟩ := List.head?_eq_some_iff.1 hs
    exact ⟨'<', by decide, _, escapeChars_crLf more⟩
  · have halone : ∀ c ∈ touched, ∃ first ∈ touched, ∃ rest, escapeAlone c = first :: rest := by
      simp [touched, escapeAlone, isBreak, lineMark]
    obtain ⟨first, hf, rest, he⟩ := halone c hc
    refine ⟨first, hf, rest ++ escapeChars cs, ?_⟩
    rw [escapeChars_cons fun hr hl => hs ⟨hr, hl⟩, he]
    rfl

theorem escapeChars_of_not_mem_touched (hc : c ∉ touched) (cs : List Char) :
    escapeChars (c :: cs) = c :: escapeChars cs := by
  simp only [touched, List.mem_cons, not_or] at hc
  rw [escapeChars_cons fun hr => (hc.1 hr).elim, escapeAlone, isBreak]
  simp [hc]

theorem prefix_escapeChars_iff (hw : ∀ d ∈ word, d ∉ touched) :
    word <+: escapeChars cs ↔ word <+: cs := by
  induction word generalizing cs with
  | nil => exact iff_of_true List.nil_prefix List.nil_prefix
  | cons d word ih =>
    obtain ⟨hd, hw⟩ := List.forall_mem_cons.1 hw
    cases cs with
    | nil => exact Iff.rfl
    | cons c cs =>
      by_cases hc : c ∈ touched
      · obtain ⟨first, hf, rest, he⟩ := escapeChars_of_mem_touched hc cs
        rw [he, List.cons_prefix_cons, List.cons_prefix_cons]
        refine iff_of_false ?_ ?_
        · rintro ⟨rfl, _⟩
          exact hd hf
        · rintro ⟨rfl, _⟩
          exact hd hc
      · rw [escapeChars_of_not_mem_touched hc, List.cons_prefix_cons, List.cons_prefix_cons, ih hw]

theorem occurrences_lineMark_append (cs : List Char) :
    occurrences lineMark (lineMark ++ cs) = occurrences lineMark cs + 1 := by
  have hp : lineMark <+: '<' :: 'b' :: 'r' :: '>' :: cs := List.prefix_append lineMark cs
  have h : lineMark ++ cs = '<' :: 'b' :: 'r' :: '>' :: cs := rfl
  rw [h, occurrences_cons, if_pos hp, lineMark, occurrences_cons_of_ne (by decide),
    occurrences_cons_of_ne (by decide), occurrences_cons_of_ne (by decide)]

/-- No mark is made or lost but those of the line breaks. -/
theorem occurrences_escapeChars (cs : List Char) : occurrences lineMark (escapeChars cs) =
    lineBreaks cs + occurrences lineMark cs := by
  fun_induction lineBreaks cs with
  | case1 => rfl
  | case2 cs ih =>
    rw [escapeChars_crLf, occurrences_lineMark_append, ih, lineMark,
      occurrences_cons_of_ne (by decide), occurrences_cons_of_ne (by decide)]
    omega
  | case3 c cs hn ih =>
    have hcons : escapeChars (c :: cs) = escapeAlone c ++ escapeChars cs := by
      refine escapeChars_cons ?_
      rintro rfl hs
      obtain ⟨more, rfl⟩ := List.head?_eq_some_iff.1 hs
      exact hn more rfl rfl
    rw [hcons, escapeAlone, isBreak]
    by_cases hb : c = '\r' ∨ c = '\n'
    · have hne : c ≠ '<' := by rcases hb with rfl | rfl <;> decide
      rw [if_pos (by simpa using hb), if_pos hb, occurrences_lineMark_append, ih]
      rw [lineMark, occurrences_cons_of_ne hne]
      omega
    · rw [if_neg (by simpa using hb), if_neg hb, Nat.add_zero]
      split
      · next hq =>
        subst hq
        rw [List.singleton_append, lineMark, occurrences_cons_of_ne (by decide),
          occurrences_cons_of_ne (by decide)]
        exact ih
      · have hp : lineMark <+: c :: escapeChars cs ↔ lineMark <+: c :: cs := by
          rw [lineMark, List.cons_prefix_cons, List.cons_prefix_cons,
            prefix_escapeChars_iff (by simp [touched])]
        rw [List.singleton_append, occurrences_cons, occurrences_cons, ih, Nat.add_assoc]
        simp only [hp]

theorem escape_of_plain {text : String} (h : Plain text) : escape text = text := by
  have hr : '\r' ∉ text.toList := fun hm => (h _ hm).2.1 rfl
  have hone : ∀ c ∈ text.toList, escapeCharacter c = [c] := by
    intro c hc
    rw [escapeCharacter, if_neg (h c hc).1, if_neg (h c hc).2.2]
  rw [escape, escapeChars, normalizeLineEndings_of_not_mem hr, List.flatMap_congr hone,
    List.flatMap_singleton', String.ofList_toList]

/-- Parts that are joined by line breaks are escaped one by one if none of them ends with a CR. -/
theorem escapeChars_intercalate {parts : List (List Char)}
    (h : ∀ part ∈ parts, part.getLast? ≠ some '\r') :
    escapeChars (['\n'].intercalate parts) = lineMark.intercalate (parts.map escapeChars) := by
  induction parts with
  | nil => rfl
  | cons first rest ih =>
    obtain ⟨hf, hrest⟩ := List.forall_mem_cons.1 h
    cases rest with
    | nil => simp only [List.map_cons, List.map_nil, List.intercalate_singleton]
    | cons second rest =>
      have hbreak (cs : List Char) : escapeChars ('\n' :: cs) = lineMark ++ escapeChars cs :=
        escapeChars_cons nofun
      rw [List.intercalate_cons_cons, List.append_assoc, escapeChars_append fun hp => hf hp.1,
        List.singleton_append, hbreak, ih hrest, List.map_cons, List.map_cons, List.map_cons,
        List.intercalate_cons_cons, List.append_assoc]

theorem getLast?_entry {title code : String} (ht : title.toList.getLast? ≠ some '\r')
    (hc : code.toList.getLast? ≠ some '\r') : (title ++ code).toList.getLast? ≠ some '\r' := by
  rw [String.toList_append, List.getLast?_append]
  cases hl : code.toList.getLast? with
  | none => exact ht
  | some c =>
    rw [hl] at hc
    exact hc

theorem ofState_eq {state : State}
    (h : ∀ text ∈ state.name :: (state.onEnter ++ state.onExit),
      text.toList.getLast? ≠ some '\r') :
    ofState state = "<br>".intercalate ((parts state).map escape) := by
  obtain ⟨hname, hcode⟩ := List.forall_mem_cons.1 h
  obtain ⟨henter, hexit⟩ := List.forall_mem_append.1 hcode
  have hparts : ∀ part ∈ (parts state).map String.toList, part.getLast? ≠ some '\r' := by
    refine List.forall_mem_map.2 (List.forall_mem_cons.2 ⟨hname, List.forall_mem_append.2 ?_⟩)
    exact ⟨List.forall_mem_map.2 fun code hm => getLast?_entry (by decide) (henter code hm),
      List.forall_mem_map.2 fun code hm => getLast?_entry (by decide) (hexit code hm)⟩
  have hlf : "\n".toList = ['\n'] := rfl
  have hmark : "<br>".toList = lineMark := rfl
  rw [← String.toList_inj, String.toList_intercalate, hmark, ofState, escape,
    String.toList_ofList, String.toList_intercalate, hlf, escapeChars_intercalate hparts]
  simp only [List.map_map, Function.comp_def, escape, String.toList_ofList]

end Label

/-- Labels are escaped in one pass, kind by kind, or part by part, all to the same effect. Each line
break is marked once, and nothing is left to be escaped. -/
theorem labels_escaped_partwise :
    (∀ text : String,
      (Label.escape text).toList = Label.escapeOnce text.toList ∧
      (Label.escape text).toList = Label.escapeThrice text.toList ∧
      Label.Plain (Label.escape text) ∧
      occurrences Label.lineMark (Label.escape text).toList =
        lineBreaks text.toList + occurrences Label.lineMark text.toList ∧
      Label.escape (Label.escape text) = Label.escape text) ∧
    (∀ first second : String,
      Label.escape (first ++ second) = Label.escape first ++ Label.escape second ↔
        ¬ (first.toList.getLast? = some '\r' ∧ second.toList.head? = some '\n')) ∧
    ∀ state : State,
      (∀ text ∈ state.name :: (state.onEnter ++ state.onExit),
        text.toList.getLast? ≠ some '\r') →
      Label.ofState state = "<br>".intercalate (Label.escape state.name ::
        (state.onEnter.map (fun code => Label.escape ("onEnter: " ++ code)) ++
          state.onExit.map fun code => Label.escape ("onExit: " ++ code))) := by
  refine ⟨fun text => ?_, fun first second => ?_, fun state h => ?_⟩
  · have htext : (Label.escape text).toList = Label.escapeChars text.toList :=
      String.toList_ofList
    refine ⟨?_, ?_, Label.plain_escape text, ?_, Label.escape_of_plain (Label.plain_escape text)⟩
    · rw [htext, Label.escapeChars_eq_escapeOnce]
    · rw [htext, Label.escapeChars_eq_escapeThrice]
    · rw [htext, Label.occurrences_escapeChars]
  · change _ ↔ Parted first.toList second.toList
    rw [← Label.escapeChars_append_iff, ← String.toList_inj, String.toList_append]
    simp only [Label.escape, String.toList_ofList, String.toList_append]
  · rw [Label.ofState_eq h, Label.parts]
    simp only [List.map_cons, List.map_append, List.map_map, Function.comp_def]

/-- A state with a CR in the middle of its name, a CR LF, and a mark that was there before. -/
def Label.brokenState : State where
  name := "a\rb\""
  onEnter := ["x\r\n<br>"]
  onExit := [""]

theorem labels_escaped_partwise_broken :
    (∀ text ∈ ["a\rb\"", "x\r\n<br>", ""], text.toList.getLast? ≠ some '\r') ∧
      Label.ofState Label.brokenState = "a<br>b'<br>onEnter: x<br><br><br>onExit: " := by
  have h : ∀ text ∈ ["a\rb\"", "x\r\n<br>", ""], text.toList.getLast? ≠ some '\r' := by decide
  exact ⟨h, (labels_escaped_partwise.2.2 Label.brokenState h).trans (by decide)⟩

end StateDiagram
