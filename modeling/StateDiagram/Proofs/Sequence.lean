import StateDiagram.Proofs.Body

namespace StateDiagram

set_option autoImplicit true

open Layout Text

variable {f g : Layout} {source : Source}

def ReadsBefore (ends : Cursor → Prop) (n : Nat) (layout : Layout) (tree : Node String) : Prop :=
  ∀ ⦃source : Source⦄ ⦃start stop : Nat⦄ ⦃after : List Token⦄, source.Holds start stop layout →
    ends ⟨stop, after⟩ →
    ∃ token rest node, layout.tokens start = token :: rest ∧ token.span.start = start ∧
      Derives source n (.expression token (.past token (rest ++ after)) node ⟨stop, after⟩) ∧
      Shows source start stop node tree

/-- What follows is no suffix of what was read. -/
structure Cursor.EndsSuffixes (cursor : Cursor) : Prop where
  member : memberAhead? cursor = none
  index : ¬ cursor.Indexed

def operatorTree (text : String) : Node String := .token text

theorem readsBefore_operator (text : String) :
    ReadsBefore Cursor.EndsSuffixes (n + 1) [.word (.operator text)] (operatorTree text) := by
  intro source start stop after hh he
  obtain ⟨mid, ht, hs, hn⟩ := hh.word
  obtain rfl := hn.nil
  refine ⟨_, [], .token ⟨start, mid⟩, ht, rfl,
    .expression (.symbol rfl) (.noSuffix he.member he.index), rfl, ?_⟩
  rw [Node.map, hs]
  rfl

/-- The layout stands for items of a statement; `carried` says whether the last one carries on. -/
structure ReadsItems (n : Nat) (layout : Layout) (carried : Bool) (trees : List (Node String)) :
    Prop where
  words : ∃ first more, layout.words = first :: more ∧ Setting.statement.Starts first
  reads : ∀ ⦃source : Source⦄ ⦃start stop : Nat⦄ ⦃after : List Token⦄,
    source.Holds start stop layout → EndsStatement after →
    ∃ nodes, ShowsAll source start stop nodes trees ∧
      ∀ ⦃more next⦄, Derives source n (.items .statement carried ⟨stop, after⟩ more next) →
        ∀ before prior, Derives source n (.items .statement before
          ⟨prior, layout.tokens start ++ after⟩ (nodes ++ more) next)

theorem ReadsBefore.item {ends : Cursor → Prop} (h : ReadsBefore ends n f tree)
    (hw : f.words = first :: more) (hs : Setting.statement.Starts first)
    (hh : source.Holds start stop f) (he : ends ⟨stop, after⟩) :
    ∃ node, Shows source start stop node tree ∧
      ∀ ⦃items next⦄, Derives source n
          (.items .statement (tree.isToken && first.isCarrying) ⟨stop, after⟩ items next) →
        ∀ before prior, Derives source n (.items .statement before
          ⟨prior, f.tokens start ++ after⟩ (node :: items) next) := by
  obtain ⟨token, rest, node, ht, _, hd, hn⟩ := h hh he
  obtain ⟨_, _, ht', rfl, _⟩ := Layout.exists_token hw start
  obtain ⟨rfl, rfl⟩ := List.cons.inj (ht.symm.trans ht')
  refine ⟨node, hn, fun items next hi before prior => ?_⟩
  rw [← hn.texts, Node.isToken_map] at hi
  rw [ht, List.cons_append]
  exact .item rfl hs hd hi

theorem ReadsItems.one {ends : Cursor → Prop} (h : ReadsBefore ends n f tree)
    (hw : f.words = first :: more) (hs : Setting.statement.Starts first)
    (he : ∀ stop ⦃after⦄, EndsStatement after → ends ⟨stop, after⟩) :
    ReadsItems n f (tree.isToken && first.isCarrying) [tree] where
  words := ⟨first, more, hw, hs⟩
  reads := by
    intro source start stop after hh ha
    obtain ⟨node, hn, hi⟩ := h.item hw hs hh (he stop ha)
    exact ⟨[node], .one hn, fun items next hd => hi hd⟩

theorem EndsStatement.endsExpression (stop : Nat) (h : EndsStatement after) :
    (Cursor.mk stop after).EndsExpression :=
  h.settled.endsExpression stop

theorem Settled.endsSuffixes (h : Settled after) (offset : Nat) :
    (Cursor.mk offset after).EndsSuffixes :=
  ⟨(h.endsExpression offset).member, (h.endsExpression offset).index⟩

theorem EndsStatement.endsSuffixes (stop : Nat) (h : EndsStatement after) :
    (Cursor.mk stop after).EndsSuffixes :=
  h.settled.endsSuffixes stop

/-- What the layout starts with, and what follows it, ends what stands in front of it. -/
def Layout.Leaves (ends : Cursor → Prop) (layout : Layout) : Prop :=
  ∀ ⦃source : Source⦄ ⦃start stop : Nat⦄ ⦃after : List Token⦄, source.Holds start stop layout →
    EndsStatement after → ∀ offset, ends ⟨offset, layout.tokens start ++ after⟩

theorem ReadsItems.cons {ends : Cursor → Prop} (width : Nat) (h : ReadsBefore ends n f tree)
    (hw : f.words = first :: more) (hs : Setting.statement.Starts first) (hl : g.Leaves ends)
    (hg : ReadsItems n g carried trees) :
    ReadsItems n (f ++ (List.replicate width .space ++ g)) carried (tree :: trees) where
  words := by
    refine ⟨first, more ++ Layout.words (List.replicate width .space ++ g), ?_, hs⟩
    rw [Layout.words_append, hw, List.cons_append]
  reads := by
    intro source start stop after hh he
    obtain ⟨mid, hf, hgap, ht⟩ := hh.append
    have hbehind := hgap.spaces
    obtain ⟨nodes, hn, hr⟩ := hg.reads hbehind he
    obtain ⟨node, hnode, hi⟩ := h.item hw hs hf (hl hbehind he mid)
    refine ⟨node :: nodes, .cons hnode hn, fun more next hd before prior => ?_⟩
    rw [ht, tokens_spaces, List.append_assoc, List.cons_append]
    exact hi (hr hd _ mid) before prior

theorem memberAhead?_of_head {cursor : Cursor} (hr : cursor.rest = token :: rest)
    (hb : token.lexeme ≠ .lineBreak) (hl : token.lexeme.isLeading = false) :
    memberAhead? cursor = none :=
  memberAhead?_of_not_leadsOn (by rw [hr, leadsOn_of_ne hb, hl])

theorem endsSuffixes_of_head {token : Token} (hb : token.lexeme ≠ .lineBreak)
    (hs : token.lexeme ≠ .opening .square) (hl : token.lexeme.isLeading = false) (offset : Nat) :
    (Cursor.mk offset (token :: rest)).EndsSuffixes := by
  refine ⟨memberAhead?_of_head rfl hb hl, ?_⟩
  rintro ⟨_, _, hr, ht, _⟩
  cases hr
  exact hs ht

def Layout.Severs (ends : Cursor → Prop) (layout : Layout) : Prop :=
  ∀ start offset after, ends ⟨offset, layout.tokens start ++ after⟩

theorem Layout.Severs.leaves {ends : Cursor → Prop} (h : g.Severs ends) : g.Leaves ends :=
  fun _ start _ after _ _ offset => h start offset after

theorem Layout.severs_suffixes (hw : g.words = first :: more) (hb : first ≠ .lineBreak)
    (hl : first.isLeading = false) (hs : first ≠ .opening .square) :
    g.Severs Cursor.EndsSuffixes := by
  intro start offset after
  obtain ⟨token, rest, ht, rfl, _⟩ := Layout.exists_token hw start
  refine ⟨memberAhead?_of_head (by rw [ht]; rfl) hb hl, ?_⟩
  rintro ⟨token', rest', hr, hq, _⟩
  rw [ht] at hr
  cases hr
  exact hs hq

theorem Layout.severs_expression (hw : g.words = first :: more) (hb : first ≠ .lineBreak)
    (hl : first.isLeading = false) (hf : first.followsName = true) :
    g.Severs Cursor.EndsExpression := by
  intro start offset after
  obtain ⟨token, rest, ht, rfl, _⟩ := Layout.exists_token hw start
  refine Settled.endsExpression ⟨fun token' hr => ?_, ?_⟩ offset
  · rw [ht] at hr
    cases hr
    exact hf
  · rw [ht, List.cons_append, leadsOn_of_ne hb, hl]

theorem Layout.leaves_suffixes (hw : g.words = first :: more) (hb : first ≠ .lineBreak)
    (hl : first.isLeading = false) (hs : first ≠ .opening .square) :
    g.Leaves Cursor.EndsSuffixes :=
  (severs_suffixes hw hb hl hs).leaves

theorem Layout.leaves_expression (hw : g.words = first :: more) (hb : first ≠ .lineBreak)
    (hl : first.isLeading = false) (hf : first.followsName = true) :
    g.Leaves Cursor.EndsExpression :=
  (severs_expression hw hb hl hf).leaves

/-- A type argument list in front of no call is none. -/
theorem Layout.leaves_angle (name : Identifier) :
    Layout.Leaves Cursor.EndsExpression [less, name.piece, greater] := by
  intro source start stop after hh he offset
  obtain ⟨mid, hless, _, hrest⟩ := hh.word
  obtain ⟨behind, hname, _, hlast⟩ := hrest.word
  obtain ⟨stop', hgreater, _, _⟩ := hlast.word
  have ht : Layout.tokens start [less, name.piece, greater] ++ after =
      ⟨.operator "<", ⟨start, mid⟩⟩ :: ⟨.identifier name.text, ⟨mid, behind⟩⟩ ::
        ⟨.operator ">", ⟨behind, stop'⟩⟩ :: after := by
    rw [less, hless, Identifier.piece, hname, greater, hgreater]
    rfl
  have ho : opensCall after = false := by
    cases after with
    | nil => rfl
    | cons token after =>
      rcases he.head token rfl with hl | hl
      · simp [opensCall, hl]
      · cases hc : token.lexeme with
        | closing => simp [opensCall, hc]
        | _ => rw [hc] at hl; cases hl
  have hc : closeAngle 0 (⟨.identifier name.text, ⟨mid, behind⟩⟩ ::
      ⟨.operator ">", ⟨behind, stop'⟩⟩ :: after) =
        some ([⟨.identifier name.text, ⟨mid, behind⟩⟩], ⟨.operator ">", ⟨behind, stop'⟩⟩, after) :=
    closeAngle_append (List.forall_mem_singleton.2 (.inl ⟨_, rfl⟩)) rfl
  have hn : ∀ token ∈ (Layout.tokens start [less, name.piece, greater] ++ after).head?,
      token.lexeme.isOpening = false := by
    rw [ht]
    rintro _ ⟨⟩
    rfl
  refine ⟨⟨?_, Cursor.not_opens hn _, Cursor.not_opens hn _⟩, ?_, ?_⟩
  · rw [ht]
    apply readTypeArguments_of_not_closed
    intro _ _ _ hfound
    rw [hc] at hfound
    cases hfound
    exact ho
  · rw [ht]
    exact memberAhead?_of_head rfl (fun h => by cases h) rfl
  · rintro ⟨token, rest, hr, hq, _⟩
    rw [ht] at hr
    cases hr
    cases hq

/-- The tree of a statement with the given text and items. -/
def joined (whole : String) : List (Node String) → Node String
  | [tree] => tree
  | trees => .sequence whole trees

theorem ShowsAll.collapse (h : ShowsAll source start stop nodes trees) :
    ∃ node, collapse nodes = some node ∧
      Shows source start stop node (joined (source.slice ⟨start, stop⟩) trees) := by
  obtain ⟨hf, hl, rfl⟩ := h
  match nodes with
  | [] => cases hf
  | [node] =>
    obtain rfl := Option.some.inj hf
    obtain rfl := Option.some.inj hl
    exact ⟨node, rfl, rfl, rfl⟩
  | first :: second :: rest =>
    obtain rfl := Option.some.inj hf
    rw [List.getLast?_cons_cons, List.getLast?_eq_some_getLast (List.cons_ne_nil second rest)] at hl
    obtain rfl := Option.some.inj hl
    refine ⟨_, rfl, rfl, ?_⟩
    rw [Node.map]
    rfl

/-- The layout in front reads as the first statement, together with the one behind it as the
statements of a body. -/
structure ReadsBody (n : Nat) (front back : Layout) (items trees : List (Node String)) : Prop where
  words : ∃ first more, front.words = first :: more ∧ Setting.statement.Starts first ∧
    first.isLeading = false
  reads : ∀ ⦃source : Source⦄ ⦃start stop : Nat⦄ ⦃after : List Token⦄ (close : Option Bracket),
    source.Holds start stop (front ++ back) → EndsBody after →
    ∃ nodes rest, ShowsAll source start (start + front.size) nodes items ∧
      rest.map (Node.map source.slice) = trees ∧
      (rest.getLast?.map (·.info.stop)).getD (start + front.size) = stop ∧
      ∀ ⦃more final⦄, Reaches source n close after more final → ∀ before prior, ∃ behind next,
        Derives source n (.items .statement before
          ⟨prior, Layout.tokens start (front ++ back) ++ after⟩ nodes behind) ∧
        Derives source n (.statements close behind (rest ++ more) next) ∧ next.rest = final

/-- Line breaks behind an operator are part of the statement. -/
theorem Derives.carried (h : EndsBody after)
    (hs : Derives source n (.statements close ⟨prior, after⟩ nodes next)) (before : Bool) :
    ∃ behind, Derives source n (.items .statement before ⟨prior, after⟩ [] behind) ∧
      Derives source n (.statements close behind nodes next) := by
  cases before with
  | false => exact ⟨_, h.endsStatement.derives prior, hs⟩
  | true =>
    induction after generalizing prior with
    | nil => exact ⟨_, .itemsEnd rfl, hs⟩
    | cons token after ih =>
      rcases h.endsStatement.head token rfl with hl | hl
      · have hd : (token :: after).dropWhile (·.lexeme.isLineBreak) =
            after.dropWhile (·.lexeme.isLineBreak) :=
          List.dropWhile_cons_of_pos (Lexeme.isLineBreak_iff.2 hl)
        rw [EndsBody, hd] at h
        cases hs with
        | statementsEnd hr => cases hr
        | statementsSkip hr _ hs =>
          cases hr
          obtain ⟨behind, hi, hn⟩ := ih h hs
          exact ⟨behind, .itemsContinue rfl hl rfl hi, hn⟩
        | statementsClose hr ht =>
          cases hr
          rw [hl] at ht
          cases ht
        | stray hr ht =>
          cases hr
          rw [hl] at ht
          cases ht
        | statement hr ht =>
          cases hr
          exact (ht.1 hl).elim
      · exact ⟨_, .itemsStop rfl (.inl hl), hs⟩

namespace ReadsBody

theorem last (h : ReadsItems n f carried items)
    (hl : ∀ first ∈ f.words.head?, first.isLeading = false) : ReadsBody n f [] items [] where
  words := by
    obtain ⟨first, more, hw, hs⟩ := h.words
    exact ⟨first, more, hw, hs, hl first (by rw [hw]; rfl)⟩
  reads := by
    intro source start stop after close hh he
    rw [List.append_nil] at hh ⊢
    obtain ⟨nodes, hn, hr⟩ := h.reads hh he.endsStatement
    refine ⟨nodes, [], by rwa [hh.stop_eq], rfl, hh.stop_eq,
      fun more final hreach before prior => ?_⟩
    obtain ⟨next, hs, hnext⟩ := hreach stop
    obtain ⟨behind, hi, hd⟩ := Derives.carried he hs carried
    have hitems := hr hi before prior
    rw [List.append_nil] at hitems
    exact ⟨behind, next, hitems, hd, hnext⟩

theorem next (h : ReadsItems n f false items)
    (hl : ∀ first ∈ f.words.head?, first.isLeading = false) (hs : ReadsStatements n g trees) :
    ReadsBody n f (.word .lineBreak :: g) items trees where
  words := by
    obtain ⟨first, more, hw, hs⟩ := h.words
    exact ⟨first, more, hw, hs, hl first (by rw [hw]; rfl)⟩
  reads := by
    intro source start stop after close hh he
    obtain ⟨mid, hf, hg, ht⟩ := hh.append
    obtain ⟨behind, hw, _, hrest⟩ := hg.word
    obtain ⟨rest, hn, hreach⟩ := hs.reads close hrest he
    obtain ⟨first, more, hwords, hne, hlead⟩ := hs.words
    have hends : EndsStatement (⟨.lineBreak, ⟨mid, behind⟩⟩ :: (g.tokens behind ++ after)) :=
      endsStatement_of_words hwords hne hlead Layout.Blank.nil rfl behind behind after
    obtain ⟨nodes, hnodes, hr⟩ := h.reads hf hends
    refine ⟨nodes, rest, by rwa [hf.stop_eq], hn.texts, by rw [hn.last]; rfl,
      fun more final hm before prior => ?_⟩
    obtain ⟨next, hd, hnext⟩ := hreach hm behind
    have hitems := hr (hends.derives mid) before prior
    rw [List.append_nil] at hitems
    rw [ht, hw, List.append_assoc]
    exact ⟨_, next, hitems, .statementsSkip rfl (.inl rfl) hd, hnext⟩

/-- An operator at the end of the first line takes the next line in. -/
theorem carry (h : ReadsItems n f true items)
    (hl : ∀ first ∈ f.words.head?, first.isLeading = false)
    (hb : ReadsBody n g back others trees) :
    ReadsBody n (f ++ .word .lineBreak :: g) back (items ++ others) trees where
  words := by
    obtain ⟨first, more, hw, hs⟩ := h.words
    refine ⟨first, more ++ Layout.words (.word .lineBreak :: g), ?_, hs, hl first (by rw [hw]; rfl)⟩
    rw [Layout.words_append, hw, List.cons_append]
  reads := by
    intro source start stop after close hh he
    rw [List.append_assoc, List.cons_append] at hh ⊢
    obtain ⟨mid, hf, hg, ht⟩ := hh.append
    obtain ⟨behind, hw, _, hrest⟩ := hg.word
    obtain ⟨nodes, rest, hn, hrestmap, hlast, hreach⟩ := hb.reads close hrest he
    have hsize : start + (f ++ .word .lineBreak :: g).size = behind + g.size := by
      have := hh.stop_eq
      have := hrest.stop_eq
      simp only [size_append, size_cons] at *
      omega
    obtain ⟨first, more, hwords, hs, hlead⟩ := hb.words
    have hwords' : Layout.words (g ++ back) = first :: (more ++ back.words) := by
      rw [words_append, hwords, List.cons_append]
    have hends : EndsStatement
        (⟨.lineBreak, ⟨mid, behind⟩⟩ :: (Layout.tokens behind (g ++ back) ++ after)) :=
      endsStatement_of_words hwords' hs.1 hlead Layout.Blank.nil rfl behind behind after
    obtain ⟨front, hfront, hr⟩ := h.reads hf hends
    refine ⟨front ++ nodes, rest, by rw [hsize]; exact .append hfront hn, hrestmap,
      by rw [hsize]; exact hlast, fun more final hm before prior => ?_⟩
    obtain ⟨stop', next, hi, hd, hnext⟩ := hreach hm true behind
    rw [ht, hw, List.append_assoc]
    exact ⟨stop', next, hr (.itemsContinue rfl rfl rfl hi) before prior, hd, hnext⟩

theorem statements (h : ReadsBody n front back items trees) :
    ReadsStatements n (front ++ back) (joined front.text items :: trees) where
  words := by
    obtain ⟨first, more, hw, hs, hl⟩ := h.words
    refine ⟨first, more ++ back.words, ?_, hs.1, hl⟩
    rw [Layout.words_append, hw, List.cons_append]
  reads := by
    intro source start stop after close hh he
    obtain ⟨mid, hf, _, _⟩ := hh.append
    obtain ⟨nodes, rest, hn, hrest, hlast, hreach⟩ := h.reads close hh he
    obtain ⟨first, others, hw, hs, _⟩ := h.words
    have hwords : Layout.words (front ++ back) = first :: (others ++ back.words) := by
      rw [words_append, hw, List.cons_append]
    obtain ⟨token, tokens, ht, rfl, _⟩ := Layout.exists_token hwords start
    rw [hf.stop_eq] at hn hlast
    obtain ⟨node, hc, hnode⟩ := hn.collapse
    rw [hf.slice_eq] at hnode
    refine ⟨node :: rest, ⟨?_, ?_, ?_⟩, fun more final hm prior => ?_⟩
    · exact congrArg (fun span : Span => some span.start) hnode.info
    · have hstop : node.info.stop = mid := congrArg Span.stop hnode.info
      rw [← hlast, ← hstop, List.getLast?_cons]
      cases rest.getLast? <;> rfl
    · rw [List.map_cons, hnode.texts, hrest]
    · obtain ⟨behind, next, hi, hd, hnext⟩ := hreach hm false prior
      have hr : (Cursor.mk prior (Layout.tokens start (front ++ back) ++ after)).rest =
          token :: (tokens ++ after) := by rw [ht, List.cons_append]
      have hstatement := Derives.statement hr hs hi hd
      rw [hc] at hstatement
      exact ⟨next, hstatement, hnext⟩

end ReadsBody

end StateDiagram
