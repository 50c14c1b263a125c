import StateDiagram.Proofs.Recognizer
import StateDiagram.Token.Lexer

namespace StateDiagram.Trivia

open Recognizer

variable {gap taken more rest before after : List Char}

def blanks : List Char := [' ', '\t', '\r', '\x0c']

/-- A run of blank space or a comment. -/
def piece : Recognizer := inlineWhitespace.orElse (lineComment.orElse blockComment)

theorem bounded_piece : Bounded piece :=
  (Bounded.one _).repeatedOnce.orElse <|
    ((Bounded.literal _).andThen (.run _)).orElse ((Bounded.literal _).andThen (.upTo _))

theorem takes_inlineWhitespace : Takes inlineWhitespace taken rest ↔
    taken ≠ [] ∧ (∀ c ∈ taken, blanks.contains c = true) ∧
      ∀ c ∈ rest.head?, blanks.contains c = false := by
  rw [inlineWhitespace, repeatedOnce, takes_andThen]
  simp only [oneOf, takes_one, takes_repeated (Bounded.one _), repeats_one, takes_run]
  constructor
  · rintro ⟨_, back, rfl, ⟨c, rfl, hc⟩, hb, hr⟩
    refine ⟨by simp, fun d hd => ?_, hr⟩
    rcases List.mem_cons.1 hd with rfl | hd
    · exact hc
    · exact hb d hd
  · rintro ⟨hne, ht, hr⟩
    obtain ⟨c, back, rfl⟩ := List.exists_cons_of_ne_nil hne
    exact ⟨[c], back, rfl, ⟨c, rfl, ht c (by simp)⟩, fun d hd => ht d (by simp [hd]), hr⟩

theorem takes_lineComment : Takes lineComment taken rest ↔
    ∃ body, taken = '/' :: '/' :: body ∧ (∀ c ∈ body, c ≠ '\n') ∧
      ∀ c ∈ rest.head?, c = '\n' := by
  simp only [lineComment, takes_andThen, takes_literal, takes_run, decide_eq_true_eq,
    decide_eq_false_iff_not, ne_eq, Decidable.not_not]
  constructor
  · rintro ⟨_, body, rfl, rfl, h⟩
    exact ⟨body, rfl, h⟩
  · rintro ⟨body, rfl, h⟩
    exact ⟨_, body, rfl, rfl, h⟩

theorem takes_blockComment : Takes blockComment taken rest ↔
    ∃ inside, taken = '/' :: '*' :: inside ∧ Takes (upTo ['*', '/']) inside rest := by
  simp only [blockComment, takes_andThen, takes_literal]
  constructor
  · rintro ⟨_, inside, rfl, rfl, h⟩
    exact ⟨inside, rfl, h⟩
  · rintro ⟨inside, rfl, h⟩
    exact ⟨_, inside, rfl, rfl, h⟩

/-- What starts one kind of piece starts no other, so the order of the kinds does not matter. -/
theorem takes_piece : Takes piece taken rest ↔
    Takes inlineWhitespace taken rest ∨ Takes lineComment taken rest ∨
      Takes blockComment taken rest := by
  simp only [piece, takes_orElse]
  constructor
  · rintro (h | ⟨_, h | ⟨_, h⟩⟩)
    · exact .inl h
    · exact .inr (.inl h)
    · exact .inr (.inr h)
  · rintro (h | h | h)
    · exact .inl h
    · obtain ⟨body, rfl, _⟩ := takes_lineComment.1 h
      exact .inr ⟨rfl, .inl h⟩
    · obtain ⟨inside, rfl, _⟩ := takes_blockComment.1 h
      exact .inr ⟨rfl, .inr ⟨rfl, h⟩⟩

theorem takes_trivia : Takes trivia taken rest ↔ Repeats piece taken rest :=
  takes_repeated bounded_piece

theorem takes_trivia_getD (cs : List Char) :
    Takes trivia (cs.take ((trivia cs).getD 0)) (cs.drop ((trivia cs).getD 0)) :=
  takes_trivia.2 (repeats_repeatedLength bounded_piece cs)

theorem head?_eq_of_mem {c : Char} (hc : c ∈ more.head?) : c ∈ (more ++ rest).head? := by
  cases more with
  | nil => simp at hc
  | cons d more => exact hc

theorem takes_piece_of_append (h : Takes piece taken (more ++ rest)) : Takes piece taken more := by
  rcases takes_piece.1 h with h | h | h
  · obtain ⟨hne, ht, hr⟩ := takes_inlineWhitespace.1 h
    exact takes_piece.2 (.inl (takes_inlineWhitespace.2
      ⟨hne, ht, fun c hc => hr c (head?_eq_of_mem hc)⟩))
  · obtain ⟨body, rfl, hb, hr⟩ := takes_lineComment.1 h
    exact takes_piece.2 (.inr (.inl (takes_lineComment.2
      ⟨body, rfl, hb, fun c hc => hr c (head?_eq_of_mem hc)⟩)))
  · obtain ⟨inside, rfl, hi⟩ := takes_blockComment.1 h
    exact takes_piece.2 (.inr (.inr (takes_blockComment.2
      ⟨inside, rfl, Takes.upTo_rest (by simp) hi more⟩)))

theorem matchesFully_of_takes (h : Takes trivia gap rest) : matchesFully trivia gap = true := by
  have hr : Repeats piece gap [] := by
    have hr := takes_trivia.1 h
    clear h
    induction hr with
    | stop =>
      refine .stop fun n hn => ?_
      have hle := bounded_piece _ _ hn
      simp at hle
    | step hf ht _ ih => exact .step hf (by simpa using takes_piece_of_append ht) ih
  have ht := takes_trivia.2 hr
  rw [Takes, List.append_nil] at ht
  simp [matchesFully, ht]

/-- A line feed in a gap stands in a block comment. -/
theorem exists_comment_of_lineFeed (h : Takes trivia (before ++ '\n' :: after) rest) :
    ∃ front inside inside' back, before = front ++ inside ∧ after = inside' ++ back ∧
      matchesFully blockComment (inside ++ '\n' :: inside') = true := by
  generalize hg : before ++ '\n' :: after = gap at h
  replace h := takes_trivia.1 h
  induction h generalizing before with
  | stop => simp at hg
  | @step first more rest hf ht _ ih =>
    rcases append_eq_append_cons hg.symm with ⟨left, hfirst, rfl⟩ | ⟨left, rfl, hmore⟩
    · rcases takes_piece.1 ht with ht | ht | ht
      · have hb := (takes_inlineWhitespace.1 ht).2.1 '\n' (by simp [hfirst])
        simp [blanks] at hb
      · obtain ⟨body, he, hb, _⟩ := takes_lineComment.1 ht
        have hn : '\n' ∈ '/' :: '/' :: body := by simp [← he, hfirst]
        simp only [List.mem_cons, Char.reduceEq, false_or] at hn
        exact (hb '\n' hn rfl).elim
      · refine ⟨[], before, left, more, rfl, rfl, ?_⟩
        obtain ⟨inside, he, hi⟩ := takes_blockComment.1 ht
        have hi' := takes_blockComment.2 ⟨inside, he, Takes.upTo_rest (by simp) hi []⟩
        rw [Takes, List.append_nil, hfirst] at hi'
        simp [matchesFully, hi']
    · obtain ⟨front, inside, inside', back, rfl, ha, hm⟩ := ih hmore.symm
      exact ⟨first ++ front, inside, inside', back, by simp, ha, hm⟩

end StateDiagram.Trivia
