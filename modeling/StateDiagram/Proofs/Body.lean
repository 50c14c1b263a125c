import StateDiagram.Proofs.Parameters
import StateDiagram.Proofs.Reading

namespace StateDiagram

set_option autoImplicit true

open Text

variable {f g : Layout} {source : Source}

theorem leadsOn_of_lineBreak {token : Token} (h : token.lexeme = .lineBreak) (rest : List Token) :
    leadsOn (token :: rest) = leadsOn rest := by
  have hd : (token :: rest).dropWhile (·.lexeme.isLineBreak) =
      rest.dropWhile (·.lexeme.isLineBreak) :=
    List.dropWhile_cons_of_pos (Lexeme.isLineBreak_iff.2 h)
  rw [leadsOn, hd, ← leadsOn]

theorem leadsOn_of_ne {token : Token} (h : token.lexeme ≠ .lineBreak) (rest : List Token) :
    leadsOn (token :: rest) = token.lexeme.isLeading := by
  have hn : ¬ token.lexeme.isLineBreak = true := fun ht => h (Lexeme.isLineBreak_iff.1 ht)
  have hd : (token :: rest).dropWhile (·.lexeme.isLineBreak) = token :: rest :=
    List.dropWhile_cons_of_neg hn
  rw [leadsOn, hd]

theorem settled_of_head {token : Token} (rest : List Token) (hb : token.lexeme ≠ .lineBreak)
    (hf : token.lexeme.followsName = true) (hl : token.lexeme.isLeading = false) :
    Settled (token :: rest) where
  head := by
    intro first ht
    cases ht
    exact hf
  leads := (leadsOn_of_ne hb rest).trans hl

/-- What may stand right behind a statement. -/
structure EndsStatement (after : List Token) : Prop where
  head : ∀ token ∈ after.head?, token.lexeme = .lineBreak ∨ token.lexeme.isClosing = true
  leads : leadsOn after = false

theorem EndsStatement.settled (h : EndsStatement after) : Settled after where
  head token ht := by
    rcases h.head token ht with hl | hl
    · rw [hl]
      rfl
    · cases he : token.lexeme with
      | closing => rfl
      | _ => rw [he] at hl; cases hl
  leads := h.leads

theorem EndsStatement.derives (h : EndsStatement after) (prior : Nat) :
    Derives source n (.items .statement false ⟨prior, after⟩ [] ⟨prior, after⟩) := by
  cases after with
  | nil => exact .itemsEnd rfl
  | cons token after =>
    rcases h.head token rfl with hl | hl
    · refine .itemsBreak rfl hl ?_
      exact (leadsOn_of_lineBreak hl after).symm.trans h.leads
    · exact .itemsStop rfl (.inl hl)

/-- A layout that reads as a statement. -/
structure ReadsStatement (n : Nat) (layout : Layout) (tree : Node String) : Prop where
  words : ∃ first more, layout.words = first :: more ∧ Setting.statement.Starts first ∧
    first.isLeading = false
  reads : ∀ ⦃source : Source⦄ ⦃start stop : Nat⦄ ⦃after : List Token⦄,
    source.Holds start stop layout → EndsStatement after →
    ∃ nodes node, (∀ prior, Derives source n (.items .statement false
        ⟨prior, layout.tokens start ++ after⟩ nodes ⟨stop, after⟩)) ∧
      collapse nodes = some node ∧ Shows source start stop node tree

/-- A lexeme that an expression starts with and that is no operator. -/
def Lexeme.isPlain : Lexeme → Bool
  | .identifier _ | .string _ | .number _ => true
  | _ => false

theorem Lexeme.starts_of_isPlain {lexeme : Lexeme} (h : lexeme.isPlain = true) (setting : Setting) :
    setting.Starts lexeme := by
  cases lexeme <;> cases setting <;> simp_all [Lexeme.isPlain, Setting.Starts, Setting.separator,
    Lexeme.isClosing]

theorem Lexeme.isCarrying_of_isPlain {lexeme : Lexeme} (h : lexeme.isPlain = true) :
    lexeme.isCarrying = false := by
  cases lexeme <;> first | rfl | cases h

theorem ReadsExpression.statement (h : ReadsExpression n f tree) (hw : f.words = first :: more)
    (hp : first.isPlain = true) : ReadsStatement n f tree where
  words := by
    refine ⟨first, more, hw, Lexeme.starts_of_isPlain hp _, ?_⟩
    cases first <;> first | rfl | cases hp
  reads := by
    intro source start stop after hh he
    obtain ⟨token, rest, node, ht, hs, hd, hn⟩ := h hh (he.settled.endsExpression stop)
    obtain ⟨_, _, ht', rfl, _⟩ := Layout.exists_token hw start
    obtain ⟨rfl, rfl⟩ := List.cons.inj (ht.symm.trans ht')
    refine ⟨[node], node, fun prior => ?_, rfl, hn⟩
    rw [ht, List.cons_append]
    refine .item rfl (Lexeme.starts_of_isPlain hp _) hd ?_
    rw [Lexeme.isCarrying_of_isPlain hp, Bool.and_false]
    exact he.derives stop

/-- Reading statements from some tokens on leads to others. -/
def Reaches (source : Source) (n : Nat) (close : Option Bracket) (before : List Token)
    (nodes : List Outline) (after : List Token) : Prop :=
  ∀ prior, ∃ next, Derives source n (.statements close ⟨prior, before⟩ nodes next) ∧
    next.rest = after

theorem Reaches.closing {token : Token} (h : token.lexeme = .closing bracket) :
    Reaches source n (some bracket) (token :: rest) [] (token :: rest) :=
  fun _ => ⟨_, .statementsClose rfl h rfl, rfl⟩

theorem Reaches.finish : Reaches source n close [] [] [] :=
  fun _ => ⟨_, .statementsEnd rfl, rfl⟩

def Layout.Blank (layout : Layout) : Prop :=
  ∀ piece ∈ layout, piece = .space ∨ piece = .word .lineBreak

theorem Reaches.blank (hb : f.Blank) (start : Nat) (h : Reaches source n close before nodes after) :
    Reaches source n close (f.tokens start ++ before) nodes after := by
  induction f generalizing start with
  | nil => exact h
  | cons piece f ih =>
    obtain ⟨hp, hf⟩ := List.forall_mem_cons.1 hb
    rcases hp with rfl | rfl
    · exact ih hf (start + 1)
    · intro prior
      obtain ⟨next, hd, hn⟩ := ih hf (start + byteSize Lexeme.lineBreak.text.toList) _
      exact ⟨next, .statementsSkip rfl (.inl rfl) hd, hn⟩

theorem leadsOn_blank (hb : f.Blank) (start : Nat) (tokens : List Token) :
    leadsOn (f.tokens start ++ tokens) = leadsOn tokens := by
  induction f generalizing start with
  | nil => rfl
  | cons piece f ih =>
    obtain ⟨hp, hf⟩ := List.forall_mem_cons.1 hb
    rcases hp with rfl | rfl
    · exact ih hf (start + 1)
    · exact ih hf _

/-- Only line breaks stand between here and the end of the body. -/
def EndsBody (after : List Token) : Prop :=
  ∀ token ∈ (after.dropWhile (·.lexeme.isLineBreak)).head?, token.lexeme.isClosing = true

theorem EndsBody.closing {token : Token} (h : token.lexeme = .closing bracket) :
    EndsBody (token :: rest) := by
  have hd : (token :: rest).dropWhile (·.lexeme.isLineBreak) = token :: rest :=
    List.dropWhile_cons_of_neg (by simp [h, Lexeme.isLineBreak])
  rw [EndsBody, hd]
  intro _ ht
  cases ht
  rw [h]
  rfl

theorem EndsBody.nil : EndsBody [] := nofun

theorem EndsBody.blank (hb : f.Blank) (start : Nat) (h : EndsBody after) :
    EndsBody (f.tokens start ++ after) := by
  induction f generalizing start with
  | nil => exact h
  | cons piece f ih =>
    obtain ⟨hp, hf⟩ := List.forall_mem_cons.1 hb
    rcases hp with rfl | rfl
    · exact ih hf (start + 1)
    · exact ih hf _

theorem EndsBody.endsStatement (h : EndsBody after) : EndsStatement after where
  head token ht := by
    by_cases hl : token.lexeme.isLineBreak = true
    · exact .inl (Lexeme.isLineBreak_iff.1 hl)
    · refine .inr (h token ?_)
      obtain ⟨rest, rfl⟩ := List.head?_eq_some_iff.1 ht
      have hd : (token :: rest).dropWhile (·.lexeme.isLineBreak) = token :: rest :=
        List.dropWhile_cons_of_neg hl
      rw [hd]
      rfl
  leads := by
    rw [EndsBody] at h
    rw [leadsOn]
    split
    · rfl
    · next token _ hd =>
      rw [hd] at h
      have hc := h token rfl
      cases ht : token.lexeme with
      | closing => rfl
      | _ => rw [ht] at hc; cases hc

/-- The nodes stand one behind the other, from one offset to the other, and show the trees. -/
structure ShowsAll (source : Source) (start stop : Nat) (nodes : List Outline)
    (trees : List (Node String)) : Prop where
  first : nodes.head?.map (·.info.start) = some start
  last : nodes.getLast?.map (·.info.stop) = some stop
  texts : nodes.map (Node.map source.slice) = trees

theorem ShowsAll.one (h : Shows source start stop node tree) :
    ShowsAll source start stop [node] [tree] where
  first := congrArg (fun span : Span => some span.start) h.info
  last := congrArg (fun span : Span => some span.stop) h.info
  texts := congrArg (fun tree => [tree]) h.texts

theorem ShowsAll.cons (h : Shows source start mid node tree)
    (ht : ShowsAll source next stop nodes trees) :
    ShowsAll source start stop (node :: nodes) (tree :: trees) where
  first := congrArg (fun span : Span => some span.start) h.info
  last := by
    obtain ⟨last, hl, hs⟩ := Option.map_eq_some_iff.1 ht.last
    rw [List.getLast?_cons, hl]
    exact congrArg some hs
  texts := by rw [List.map_cons, h.texts, ht.texts]

theorem ShowsAll.append (h : ShowsAll source start mid nodes trees)
    (ht : ShowsAll source next stop others more) :
    ShowsAll source start stop (nodes ++ others) (trees ++ more) where
  first := by
    obtain ⟨first, hf, hs⟩ := Option.map_eq_some_iff.1 h.first
    rw [List.head?_append, hf]
    exact congrArg some hs
  last := by
    obtain ⟨last, hl, hs⟩ := Option.map_eq_some_iff.1 ht.last
    rw [List.getLast?_append, hl]
    exact congrArg some hs
  texts := by rw [List.map_append, h.texts, ht.texts]

/-- A layout that reads as statements. -/
structure ReadsStatements (n : Nat) (layout : Layout) (trees : List (Node String)) : Prop where
  words : ∃ first more, layout.words = first :: more ∧ first ≠ .lineBreak ∧ first.isLeading = false
  reads : ∀ ⦃source : Source⦄ ⦃start stop : Nat⦄ ⦃after : List Token⦄ (close : Option Bracket),
    source.Holds start stop layout → EndsBody after →
    ∃ nodes, ShowsAll source start stop nodes trees ∧
      ∀ ⦃more final⦄, Reaches source n close after more final →
        Reaches source n close (layout.tokens start ++ after) (nodes ++ more) final

theorem ReadsStatement.reaches (h : ReadsStatement n f tree) (hh : source.Holds start stop f)
    (he : EndsStatement after) : ∃ node, Shows source start stop node tree ∧
      ∀ ⦃close more final⦄, Reaches source n close after more final →
        Reaches source n close (f.tokens start ++ after) (node :: more) final := by
  obtain ⟨first, others, hw, hs, _⟩ := h.words
  obtain ⟨token, rest, ht, rfl, _⟩ := Layout.exists_token hw start
  obtain ⟨nodes, node, hd, hc, hn⟩ := h.reads hh he
  refine ⟨node, hn, fun close more final hreach prior => ?_⟩
  obtain ⟨next, hmore, hnext⟩ := hreach stop
  have hr : (Cursor.mk prior (f.tokens start ++ after)).rest = token :: (rest ++ after) := by
    rw [ht, List.cons_append]
  have hstatement := Derives.statement hr hs (hd prior) hmore
  rw [hc] at hstatement
  exact ⟨next, hstatement, hnext⟩

theorem ReadsStatement.one (h : ReadsStatement n f tree) : ReadsStatements n f [tree] where
  words := by
    obtain ⟨first, more, hw, hs, hl⟩ := h.words
    exact ⟨first, more, hw, hs.1, hl⟩
  reads := by
    intro source start stop after close hh he
    obtain ⟨node, hn, hr⟩ := h.reaches hh he.endsStatement
    exact ⟨[node], .one hn, fun more final hm => hr hm⟩

theorem endsStatement_of_words (hw : g.words = first :: more) (hne : first ≠ .lineBreak)
    (hl : first.isLeading = false) (hb : f.Blank) {token : Token} (ht : token.lexeme = .lineBreak)
    (behind start : Nat) (after : List Token) :
    EndsStatement (token :: (f.tokens behind ++ (g.tokens start ++ after))) := by
  refine ⟨fun _ hm => ?_, ?_⟩
  · cases hm
    exact .inl ht
  · obtain ⟨other, rest, htokens, rfl, _⟩ := Layout.exists_token hw start
    rw [leadsOn_of_lineBreak ht, leadsOn_blank hb, htokens, List.cons_append, leadsOn_of_ne hne, hl]

theorem ReadsStatements.cons (h : ReadsStatement n f tree) (hb : gap.Blank)
    (hs : ReadsStatements n g trees) :
    ReadsStatements n (f ++ .word .lineBreak :: (gap ++ g)) (tree :: trees) where
  words := by
    obtain ⟨first, more, hw, hs, hl⟩ := h.words
    refine ⟨first, more ++ Layout.words (.word .lineBreak :: (gap ++ g)), ?_, hs.1, hl⟩
    rw [Layout.words_append, hw, List.cons_append]
  reads := by
    intro source start stop after close hh he
    obtain ⟨mid, hf, hg, ht⟩ := hh.append
    obtain ⟨behind, hw, _, hrest⟩ := hg.word
    obtain ⟨next, _, hnext, hgap⟩ := hrest.append
    obtain ⟨nodes, hn, hr⟩ := hs.reads close hnext he
    obtain ⟨first, more, hwords, hne, hl⟩ := hs.words
    have hends : EndsStatement (⟨.lineBreak, ⟨mid, behind⟩⟩ ::
        (gap.tokens behind ++ (g.tokens next ++ after))) :=
      endsStatement_of_words hwords hne hl hb rfl behind next after
    obtain ⟨node, hnode, hreach⟩ := h.reaches hf hends
    refine ⟨node :: nodes, .cons hnode hn, fun more final hm => ?_⟩
    rw [ht, hw, hgap, List.append_assoc, List.cons_append, List.append_assoc]
    refine hreach (fun prior => ?_)
    obtain ⟨next, hd, hnext⟩ := (hr hm).blank hb behind behind
    exact ⟨next, .statementsSkip rfl (.inl rfl) hd, hnext⟩

def bodySpan (nodes : List Outline) (position : Nat) : Span :=
  let start := (nodes.head?.map (·.info.start)).getD position
  ⟨start, (nodes.getLast?.map (·.info.stop)).getD start⟩

theorem Source.Holds.le (h : source.Holds start stop f) : start ≤ stop :=
  h.stop_eq ▸ Nat.le_add_right ..

theorem ShowsAll.bodySpan_eq (h : ShowsAll source start stop nodes trees) (position : Nat) :
    bodySpan nodes position = ⟨start, stop⟩ := by
  rw [bodySpan, h.first, h.last]
  rfl

def Layout.braces (inside : Layout) : Layout :=
  opening .curly :: (inside ++ [closing .curly])

/-- What stands in braces is split into parameters and statements. -/
theorem readsLambda_of_reaches {inside : Layout} {parameters : Option String} {body : String}
    {trees : List (Node String)}
    (h : ∀ ⦃source : Source⦄ ⦃start stop : Nat⦄ (brace : Token) (after : List Token),
      source.Holds start stop inside → brace.span.start = stop →
      brace.lexeme = .closing .curly →
      ∃ behind nodes, readParameters source ⟨start, inside.tokens start ++ brace :: after⟩ =
          (parameters, behind) ∧
        Reaches source n (some .curly) behind.rest nodes (brace :: after) ∧
        (bodySpan nodes stop).stop ≤ stop ∧ source.slice (bodySpan nodes stop) = body ∧
        nodes.map (Node.map source.slice) = trees) :
    ReadsLambda (n + 1) inside.braces
      (.lambda inside.braces.text parameters (.block body trees)) := by
  intro source start stop after hh
  obtain ⟨mid, hw, _, hrest⟩ := hh.word
  obtain ⟨last, hinside, hclosing, ht⟩ := hrest.append
  obtain ⟨stop', hc, _, hnil⟩ := hclosing.word
  obtain rfl := hnil.nil
  obtain ⟨behind, nodes, hp, hr, hle, hbody, htrees⟩ :=
    h ⟨.closing .curly, ⟨last, stop'⟩⟩ after hinside rfl rfl
  obtain ⟨next, hd, hnext⟩ := hr behind.previousEnd
  have hskip : next.skipClosing .curly = ⟨stop', after⟩ := skipClosing_eq hnext rfl
  have hstart : next.nextStart source.size = last := by
    rw [Cursor.nextStart, hnext]
  have hl : Derives source (n + 1) (.lambda ⟨.opening .curly, ⟨start, mid⟩⟩ _ _ _) := .lambda hp hd
  have hn : lambdaOutline source ⟨.opening .curly, ⟨start, mid⟩⟩ parameters nodes next =
      .lambda ⟨start, stop'⟩ parameters (.block (bodySpan nodes last) nodes) := by
    rw [lambdaOutline, hskip, hstart]
    exact congrArg (fun stop => Node.lambda ⟨start, stop⟩ parameters
      (.block (bodySpan nodes last) nodes)) 
      (Nat.max_eq_left (Nat.le_trans hle hclosing.le))
  rw [hskip, hn] at hl
  refine ⟨_, _, .lambda ⟨start, stop'⟩ parameters (.block (bodySpan nodes last) nodes), hw, rfl, ?_,
    rfl, ?_⟩
  · rw [ht, Layout.closing, hc, List.append_assoc]
    exact hl
  · rw [Node.map, Node.map, hh.slice_eq, hbody, htrees]

theorem Layout.Blank.words (hb : f.Blank) : ∀ word ∈ f.words, word = .lineBreak := by
  intro word hm
  rcases hb _ (mem_words.1 hm) with he | he
  · cases he
  · exact Piece.word.inj he

theorem Layout.Blank.lineBreaks (hb : f.Blank) {start : Nat} :
    ∀ token ∈ f.tokens start, token.lexeme = .lineBreak := by
  intro token hm
  refine hb.words _ ?_
  rw [← f.map_lexeme_tokens start]
  exact List.mem_map_of_mem hm

theorem Layout.Blank.head (hb : f.Blank) {start : Nat} {token : Token}
    (h : token ∈ (f.tokens start ++ after).head?) :
    token.lexeme = .lineBreak ∨ token ∈ after.head? := by
  rw [List.head?_append] at h
  cases hf : (f.tokens start).head? with
  | none =>
    rw [hf] at h
    exact .inr h
  | some first =>
    rw [hf] at h
    cases h
    exact .inl (hb.lineBreaks _ (List.mem_of_mem_head? hf))

theorem Layout.Blank.followsName (hb : f.Blank)
    (h : ∀ token ∈ after.head?, token.lexeme.followsName = true) (start : Nat) :
    ∀ token ∈ (f.tokens start ++ after).head?, token.lexeme.followsName = true := by
  intro token ht
  rcases hb.head ht with hl | ha
  · rw [hl]
    rfl
  · exact h token ha

theorem Settled.blank (h : Settled after) (hb : f.Blank) (start : Nat) :
    Settled (f.tokens start ++ after) where
  head := hb.followsName h.head start
  leads := (leadsOn_blank hb start after).trans h.leads

theorem Layout.Blank.noParameters (hb : f.Blank) : f.NoParameters := by
  refine noParameters_of_not_mem fun hm => ?_
  cases hb.words _ hm

theorem ReadsLambda.blank (hb : f.Blank) : ReadsLambda (n + 1) f.braces
    (.lambda f.braces.text none (.block "" [])) := by
  refine readsLambda_of_reaches fun source start stop brace after hh hs hc => ?_
  exact ⟨_, [], readParameters_of_noParameters hb.noParameters hc start start after,
    (Reaches.closing hc).blank hb start, Nat.le_refl stop, source.slice_self stop, rfl⟩

theorem ReadsStatements.reaches (h : ReadsStatements n f trees) (hl : lead.Blank) (ht : trail.Blank)
    (hh : source.Holds start stop (lead ++ (f ++ trail))) {brace : Token}
    (hc : brace.lexeme = .closing bracket) (after : List Token) :
    ∃ nodes mid last, ShowsAll source mid last nodes trees ∧
      source.slice ⟨mid, last⟩ = f.text ∧ last ≤ stop ∧
      Reaches source n (some bracket)
        (Layout.tokens start (lead ++ (f ++ trail)) ++ brace :: after) nodes (brace :: after) := by
  obtain ⟨mid, _, hbody, hwl⟩ := hh.append
  obtain ⟨last, hf, hbehind, hwf⟩ := hbody.append
  have hends : EndsBody (trail.tokens last ++ brace :: after) :=
    (EndsBody.closing hc).blank ht last
  obtain ⟨nodes, hshows, hreach⟩ := h.reads (some bracket) hf hends
  refine ⟨nodes, mid, last, hshows, hf.slice_eq, hbehind.le, ?_⟩
  have hr := (hreach ((Reaches.closing hc).blank ht last)).blank hl start
  rw [List.append_nil] at hr
  rw [hwl, hwf, List.append_assoc, List.append_assoc]
  exact hr

theorem ReadsStatements.lambda_of_parameters {inside : Layout} {parameters : Option String}
    (h : ReadsStatements n f trees) (hl : Layout.Blank lead) (ht : Layout.Blank trail)
    (hp : ∀ ⦃source : Source⦄ ⦃start stop : Nat⦄ (brace : Token) (after : List Token),
      source.Holds start stop inside → brace.lexeme = .closing .curly →
      ∃ prior mid, source.Holds mid stop (lead ++ (f ++ trail)) ∧
        readParameters source ⟨start, inside.tokens start ++ brace :: after⟩ =
          (parameters, ⟨prior, Layout.tokens mid (lead ++ (f ++ trail)) ++ brace :: after⟩)) :
    ReadsLambda (n + 1) inside.braces
      (.lambda inside.braces.text parameters (.block f.text trees)) := by
  refine readsLambda_of_reaches fun source start stop brace after hh _ hc => ?_
  obtain ⟨prior, mid, hbody, hparameters⟩ := hp brace after hh hc
  obtain ⟨nodes, first, last, hshows, htext, hle, hr⟩ := h.reaches hl ht hbody hc after
  have hspan := hshows.bodySpan_eq stop
  refine ⟨_, nodes, hparameters, hr, ?_, ?_, hshows.texts⟩
  · rw [hspan]
    exact hle
  · rw [hspan, htext]

theorem ReadsStatements.lambda (h : ReadsStatements n f trees) (hl : lead.Blank) (ht : trail.Blank)
    (hn : Layout.NoParameters (lead ++ (f ++ trail))) :
    ReadsLambda (n + 1) (Layout.braces (lead ++ (f ++ trail)))
      (.lambda (Layout.text (Layout.braces (lead ++ (f ++ trail)))) none
        (.block f.text trees)) := by
  refine h.lambda_of_parameters hl ht fun source start stop brace after hh hc => ?_
  exact ⟨start, start, hh, readParameters_of_noParameters hn hc start start after⟩

theorem ReadsStatements.lambda_of_arrow (h : ReadsStatements n g trees) (ho : Layout.Blank outer)
    (hl : Layout.Blank lead) (ht : Layout.Blank trail)
    (hp : ∀ word ∈ f.words, word.isParameter = true) (hf : f.Trimmed) {inside : Layout}
    (hi : inside = outer ++ (f ++ .space :: Layout.sign "->" :: (lead ++ (g ++ trail)))) :
    ReadsLambda (n + 1) inside.braces
      (.lambda inside.braces.text (some f.text) (.block g.text trees)) := by
  subst hi
  refine h.lambda_of_parameters hl ht fun source start stop brace after hh hc => ?_
  obtain ⟨mid, hg, hr⟩ := readParameters_of_arrow ho.words hp hf hh start (brace :: after)
  exact ⟨mid, mid, hg, hr⟩

namespace Layout

/-- The layouts, each with the gap on a line break in front of it. -/
def stack (gap : Layout) (lines : List Layout) : Layout :=
  lines.flatMap fun line => .word .lineBreak :: (gap ++ line)

/-- The stack without what stands in front of its first line. -/
def core (gap : Layout) : List Layout → Layout
  | [] => []
  | line :: lines => line ++ stack gap lines

theorem stack_cons (gap line : Layout) (lines : List Layout) :
    stack gap (line :: lines) = .word .lineBreak :: gap ++ (line ++ stack gap lines) := by
  rw [stack, List.flatMap_cons, ← stack, List.cons_append, List.append_assoc, List.cons_append]

theorem core_append (lines rest : List Layout) :
    core [] (lines ++ (f ++ g) :: rest) = core [] (lines ++ [f]) ++ (g ++ stack [] rest) := by
  cases lines with
  | nil => simp [core, stack]
  | cons line lines => simp [core, stack]

theorem mem_core {lines : List Layout} (h : piece ∈ core [] lines) :
    piece = .word .lineBreak ∨ ∃ line ∈ lines, piece ∈ line := by
  cases lines with
  | nil => cases h
  | cons line lines =>
    rcases List.mem_append.1 h with h | h
    · exact .inr ⟨line, List.mem_cons_self, h⟩
    · obtain ⟨other, hm, h⟩ := List.mem_flatMap.1 h
      rcases List.mem_cons.1 h with rfl | h
      · exact .inl rfl
      · exact .inr ⟨other, List.mem_cons_of_mem _ hm, h⟩

theorem Blank.lineBreak (hb : f.Blank) : Blank (.word .lineBreak :: f) :=
  List.forall_mem_cons.2 ⟨.inr rfl, hb⟩

theorem Blank.nil : Blank [] := List.forall_mem_nil _

end Layout

namespace Inscription

open Layout

def inline (line : Inscription) : Inscription where
  layout := braces (.space :: (line.layout ++ [.space]))
  tree := .lambda (Layout.text (braces (.space :: (line.layout ++ [.space])))) none
    (.block line.layout.text [line.tree])

def block (gap trail : Layout) (lines : List Inscription) : Inscription where
  layout := braces (stack gap (lines.map layout) ++ trail)
  tree := .lambda (Layout.text (braces (stack gap (lines.map layout) ++ trail))) none
    (.block (core gap (lines.map layout)).text (lines.map tree))

end Inscription

theorem ReadsStatements.core {line : Inscription} {lines : List Inscription} (hb : gap.Blank)
    (h : ReadsStatement n line.layout line.tree)
    (hs : ∀ line ∈ lines, ReadsStatement n line.layout line.tree) :
    ReadsStatements n (line.layout ++ Layout.stack gap (lines.map Inscription.layout))
      (line.tree :: lines.map Inscription.tree) := by
  induction lines generalizing line with
  | nil =>
    rw [List.map_nil, Layout.stack, List.flatMap_nil, List.append_nil]
    exact h.one
  | cons next lines ih =>
    obtain ⟨hn, hs⟩ := List.forall_mem_cons.1 hs
    rw [List.map_cons, Layout.stack_cons]
    exact .cons h hb (ih hn hs)

theorem ReadsLambda.inline {line : Inscription} (h : ReadsStatement n line.layout line.tree)
    (hn : Layout.NoParameters (.space :: (line.layout ++ [.space]))) :
    ReadsLambda (n + 1) line.inline.layout line.inline.tree :=
  have hb : Layout.Blank [.space] := List.forall_mem_singleton.2 (.inl rfl)
  h.one.lambda hb hb hn

theorem ReadsLambda.block {lines : List Inscription} (hb : gap.Blank) (ht : trail.Blank)
    (h : ∀ line ∈ lines, ReadsStatement n line.layout line.tree)
    (hn : Layout.NoParameters (Layout.stack gap (lines.map Inscription.layout) ++ trail)) :
    ReadsLambda (n + 1) (Inscription.block gap trail lines).layout
      (Inscription.block gap trail lines).tree := by
  cases lines with
  | nil => exact .blank ht
  | cons line lines =>
    obtain ⟨hl, hs⟩ := List.forall_mem_cons.1 h
    rw [Inscription.block]
    rw [List.map_cons, Layout.stack_cons, List.append_assoc] at hn ⊢
    exact (ReadsStatements.core hb hl hs).lambda hb.lineBreak ht hn

end StateDiagram
