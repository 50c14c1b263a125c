import StateDiagram.Proofs.Composition

namespace StateDiagram

set_option autoImplicit true

open Layout Text

variable {f g : Layout} {source : Source}

/-- No arrow stands behind what may be parameters. -/
def Layout.NoParameters (layout : Layout) : Prop :=
  (layout.words.dropWhile Lexeme.isParameter).head? ≠ some (.operator "->")

theorem Layout.noParameters_of_not_mem (h : .operator "->" ∉ f.words) : f.NoParameters :=
  fun hh => h ((List.dropWhile_sublist _).subset (List.mem_of_head? hh))

theorem readParameters_of_noParameters {brace : Token} (hn : f.NoParameters)
    (hb : brace.lexeme = .closing .curly) (prior start : Nat) (after : List Token) :
    readParameters source ⟨prior, f.tokens start ++ brace :: after⟩ =
      (none, ⟨prior, f.tokens start ++ brace :: after⟩) := by
  have hd : ∃ token rest, (f.tokens start ++ brace :: after).dropWhile (·.lexeme.isParameter) =
      token :: rest ∧ token.lexeme ≠ .operator "->" := by
    rw [List.dropWhile_append]
    rw [Layout.NoParameters, ← Layout.map_lexeme_tokens f start, List.dropWhile_map] at hn
    cases ht : (f.tokens start).dropWhile (·.lexeme.isParameter) with
    | nil =>
      rw [List.isEmpty_nil, if_pos rfl]
      refine ⟨brace, after, List.dropWhile_cons_of_neg ?_, ?_⟩
      all_goals simp [hb, Lexeme.isParameter]
    | cons token rest =>
      refine ⟨token, rest ++ brace :: after, rfl, fun he => hn ?_⟩
      have hm := congrArg (fun tokens => (tokens.map Token.lexeme).head?) ht
      exact hm.trans (congrArg some he)
  obtain ⟨token, rest, ht, hne⟩ := hd
  rw [readParameters]
  dsimp only
  rw [ht]
  exact if_neg hne

theorem Layout.Trimmed.ofTokens_filter (h : Layout.Trimmed f) (start : Nat) :
    Span.ofTokens? ((f.tokens start).filter (!·.lexeme.isLineBreak)) =
      Span.ofTokens? (f.tokens start) := by
  obtain ⟨first, more, hf, hfirst⟩ := h.first
  obtain ⟨(rest : Layout), last, hl, hlast⟩ := h.last
  have hhead : ∃ span tokens, f.tokens start = ⟨first, span⟩ :: tokens := ⟨_, _, by rw [hf]; rfl⟩
  have hend : ∃ tokens span, f.tokens start = tokens ++ [⟨last, span⟩] :=
    ⟨rest.tokens start, _, by rw [hl, tokens_append]; rfl⟩
  obtain ⟨span, tokens, hhead⟩ := hhead
  obtain ⟨others, stop, hend⟩ := hend
  have hg : ((f.tokens start).filter (!·.lexeme.isLineBreak)).getLast? = some ⟨last, stop⟩ := by
    rw [hend, List.filter_append, List.filter_cons_of_pos (by simp [hlast]), List.getLast?_append]
    rfl
  have hg' : (f.tokens start).getLast? = some ⟨last, stop⟩ := by
    rw [hend, List.getLast?_append]
    rfl
  rw [hhead, List.filter_cons_of_pos (by simp [hfirst])] at hg ⊢
  rw [hhead] at hg'
  simp only [Span.ofTokens?, hg, hg']

/-- What stands in front of an arrow, apart from line breaks, is a list of parameters. -/
theorem readParameters_of_arrow (hl : ∀ word ∈ Layout.words lead, word = .lineBreak)
    (hp : ∀ word ∈ f.words, word.isParameter = true) (hf : Layout.Trimmed f)
    (hh : source.Holds start stop (lead ++ (f ++ .space :: sign "->" :: g)))
    (prior : Nat) (after : List Token) :
    ∃ mid, source.Holds mid stop g ∧ readParameters source
      ⟨prior, Layout.tokens start (lead ++ (f ++ .space :: sign "->" :: g)) ++ after⟩ =
        (some f.text, ⟨mid, g.tokens mid ++ after⟩) := by
  obtain ⟨first, _, hrest, hw⟩ := hh.append
  obtain ⟨last, hholds, hspace, ht⟩ := hrest.append
  obtain ⟨mid, ha, _, hg⟩ := hspace.space.word
  have hbreaks : ∀ token ∈ Layout.tokens start lead, token.lexeme = .lineBreak := by
    intro token hm
    refine hl token.lexeme ?_
    rw [← map_lexeme_tokens lead start]
    exact List.mem_map_of_mem hm
  have hm : ∀ token ∈ f.tokens first, token.lexeme.isParameter = true := by
    intro token hm
    refine hp token.lexeme ?_
    rw [← map_lexeme_tokens f first]
    exact List.mem_map_of_mem hm
  have hall : ∀ token ∈ Layout.tokens start lead ++ f.tokens first,
      token.lexeme.isParameter = true := by
    intro token ht
    rcases List.mem_append.1 ht with hb | ht
    · rw [hbreaks token hb]
      rfl
    · exact hm token ht
  have hlist : ParameterList
      ⟨prior, Layout.tokens start (lead ++ (f ++ .space :: sign "->" :: g)) ++ after⟩
      (Layout.tokens start lead ++ f.tokens first) ⟨.operator "->", ⟨last + 1, mid⟩⟩
      (g.tokens mid ++ after) := by
    refine ⟨?_, hall, rfl⟩
    rw [hw, ht, Layout.tokens, sign, ha]
    simp only [List.append_assoc, List.cons_append]
  have hnone : (Layout.tokens start lead).filter (!·.lexeme.isLineBreak) = [] := by
    rw [List.filter_eq_nil_iff]
    intro token hb
    rw [hbreaks token hb]
    exact Bool.false_ne_true
  refine ⟨mid, hg, ?_⟩
  rw [hlist.read_eq, List.filter_append, hnone, List.nil_append, hf.ofTokens_filter,
    hf.ofTokens hholds, Option.map_some, hholds.slice_eq]
  rfl

end StateDiagram
