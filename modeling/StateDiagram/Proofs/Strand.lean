import StateDiagram.Proofs.Context
import StateDiagram.Proofs.Printing

namespace StateDiagram

set_option autoImplicit true

open Layout Text

variable {f g : Layout} {source : Source}

def ReadsStrand (n : Nat) (layout : Layout) (trees : List (Node String)) : Prop :=
  ∀ ⦃source : Source⦄ ⦃start stop : Nat⦄ ⦃after : List Token⦄, source.Holds start stop layout →
    Settled after →
    ∃ nodes, ShowsAll source start stop nodes trees ∧
      (∀ ⦃setting more next⦄, Derives source n (.items setting false ⟨stop, after⟩ more next) →
        ∀ before prior, Derives source n (.items setting before
          ⟨prior, layout.tokens start ++ after⟩ (nodes ++ more) next)) ∧
      ∀ ⦃bracket more next⦄, Derives source n (.groupItems bracket ⟨stop, after⟩ more next) →
        ∀ prior, Derives source n (.groupItems bracket
          ⟨prior, layout.tokens start ++ after⟩ (nodes ++ more) next)

/-- A lexeme that an expression may start with, and that goes on from no line above it. -/
structure Lexeme.Initial (lexeme : Lexeme) : Prop where
  starts : ∀ setting : Setting, setting.Starts lexeme
  leading : lexeme.isLeading = false

theorem Lexeme.initial_identifier (name : String) : (Lexeme.identifier name).Initial :=
  ⟨fun setting => by cases setting <;> exact ⟨nofun, nofun, rfl⟩, rfl⟩

theorem Layout.Heads.exists_initial (h : f.Heads) : ∃ first more, f.words = first :: more ∧
    first.Initial ∧ first.isCarrying = false ∧ first ≠ .opening .square := by
  obtain ⟨first, rest, rfl, hf, _⟩ := h
  refine ⟨first, words rest, rfl, ?_⟩
  rcases hf with ⟨name, rfl⟩ | rfl
  · exact ⟨Lexeme.initial_identifier name, rfl, nofun⟩
  · exact ⟨⟨fun setting => by cases setting <;> exact ⟨nofun, nofun, rfl⟩, rfl⟩, rfl, nofun⟩

theorem ReadsExpression.strand (h : ReadsExpression n f tree) (hf : f.Heads) :
    ReadsStrand n f [tree] := by
  intro source start stop after hh ha
  obtain ⟨first, more, hw, hi, hc, _⟩ := hf.exists_initial
  obtain ⟨token, rest, node, ht, _, hd, hn⟩ := h hh (ha.endsExpression stop)
  obtain ⟨_, _, ht', rfl, _⟩ := Layout.exists_token hw start
  obtain ⟨rfl, rfl⟩ := List.cons.inj (ht.symm.trans ht')
  refine ⟨[node], .one hn, fun setting items next hm before prior => ?_,
    fun bracket items next hm prior => ?_⟩
  · rw [ht, List.cons_append]
    refine .item rfl (hi.starts setting) hd ?_
    rw [hc, Bool.and_false]
    exact hm
  · rw [ht, List.cons_append]
    have hs := hi.starts .argument
    exact .groupItem rfl hs.1 hs.2.2 hd hm

theorem ReadsName.strand (h : ReadsName n f tree) (hf : f.Heads) :
    ReadsStrand (n + 1) f [tree] :=
  h.head.expression.strand hf

theorem ReadsStrand.cons {ends : Cursor → Prop} (h : ReadsBefore ends n f tree)
    (hw : f.words = first :: more) (hi : first.Initial) (hs : g.Severs ends)
    (hg : ReadsStrand n g trees) : ReadsStrand n (f ++ .space :: g) (tree :: trees) := by
  intro source start stop after hh ha
  obtain ⟨mid, hf, hgap, htokens⟩ := hh.append
  obtain ⟨nodes, hshows, hitems, hgroup⟩ := hg hgap.space ha
  obtain ⟨token, rest, node, ht, _, hd, hn⟩ := h hf (hs (mid + 1) mid after)
  obtain ⟨_, _, ht', rfl, _⟩ := Layout.exists_token hw start
  obtain ⟨rfl, rfl⟩ := List.cons.inj (ht.symm.trans ht')
  refine ⟨node :: nodes, .cons hn hshows, fun setting items next hm before prior => ?_,
    fun bracket items next hm prior => ?_⟩
  · rw [htokens, ht, Layout.tokens, List.append_assoc, List.cons_append]
    exact .item rfl (hi.starts setting) hd (hitems hm _ mid)
  · rw [htokens, ht, Layout.tokens, List.append_assoc, List.cons_append]
    have hstart := hi.starts .argument
    exact .groupItem rfl hstart.1 hstart.2.2 hd (hgroup hm mid)

theorem ReadsStrand.statement {strand : Strand} (h : ReadsStrand n strand.layout strand.trees)
    (hf : strand.layout.Heads) : ReadsStatement n strand.layout strand.tree where
  words := by
    obtain ⟨first, more, hw, hi, _⟩ := hf.exists_initial
    exact ⟨first, more, hw, hi.starts .statement, hi.leading⟩
  reads := by
    intro source start stop after hh he
    obtain ⟨nodes, hshows, hitems, _⟩ := h hh he.settled
    obtain ⟨node, hc, hn⟩ := hshows.collapse
    rw [hh.slice_eq] at hn
    refine ⟨nodes, node, fun prior => ?_, hc, hn⟩
    have hd := hitems (he.derives stop) false prior
    rwa [List.append_nil] at hd

theorem settled_closing {token : Token} {bracket : Bracket} (h : token.lexeme = .closing bracket)
    (rest : List Token) : Settled (token :: rest) := by
  refine settled_of_head rest ?_ ?_ ?_ <;> rw [h]
  · exact nofun
  · rfl
  · rfl

def ReadsBrackets (n : Nat) (bracket : Bracket) (layout : Layout) (tree : Node String) : Prop :=
  ∀ ⦃source : Source⦄ ⦃start stop : Nat⦄ (after : List Token), source.Holds start stop layout →
    ∃ token rest node, layout.tokens start = token :: rest ∧ token.lexeme = .opening bracket ∧
      token.span.start = start ∧
      Derives source n (.group bracket token (.past token (rest ++ after)) node ⟨stop, after⟩) ∧
      Shows source start stop node tree

theorem ReadsStrand.bracketed {strand : Strand} (h : ReadsStrand n strand.layout strand.trees)
    (bracket : Bracket) : ReadsBrackets (n + 1) bracket (strand.bracketed bracket).layout
      (strand.bracketed bracket).tree := by
  intro source start stop after hh
  obtain ⟨mid, ht, _, hrest⟩ := hh.word
  obtain ⟨last, hf, hclose, htokens⟩ := hrest.append
  obtain ⟨stop', hc, _, hnil⟩ := hclose.word
  obtain rfl := hnil.nil
  have hsettled : Settled (⟨.closing bracket, ⟨last, stop'⟩⟩ :: after) := settled_closing rfl after
  obtain ⟨nodes, hshows, _, hgroup⟩ := h hf hsettled
  have hend : Derives source n (.groupItems bracket
      ⟨last, ⟨.closing bracket, ⟨last, stop'⟩⟩ :: after⟩ []
      (if bracket = bracket then .past ⟨.closing bracket, ⟨last, stop'⟩⟩ after
        else ⟨last, ⟨.closing bracket, ⟨last, stop'⟩⟩ :: after⟩)) := .groupClose rfl rfl
  rw [if_pos rfl] at hend
  have hitems := hgroup hend mid
  rw [List.append_nil] at hitems
  refine ⟨_, _, .group ⟨start, stop'⟩ nodes, ht, rfl, rfl, ?_, rfl, ?_⟩
  · rw [htokens, closing, hc, List.append_assoc]
    exact .group hitems
  · rw [Node.map, hh.slice_eq, hshows.texts]
    rfl

theorem ReadsBrackets.expression (h : ReadsBrackets n .round f tree) :
    ReadsExpression (n + 1) f tree := by
  intro source start stop after hh he
  obtain ⟨token, rest, node, ht, ho, hs, hd, hn⟩ := h after hh
  exact ⟨token, rest, node, ht, hs,
    .expression (.brackets ho (by decide) hd) (.noSuffix he.member he.index), hn⟩

theorem ReadsBrackets.index (h : ReadsBrackets n .square f tree) (name : Identifier) :
    ReadsExpression (n + 1) (name.piece :: f)
      (.sequence (Layout.text (name.piece :: f)) [name.tree, tree]) := by
  intro source start stop after hh he
  obtain ⟨mid, ht, hs, hf⟩ := hh.word
  obtain ⟨token, rest, node, htokens, ho, hstart, hd, hn⟩ := h after hf
  have hr : (Cursor.mk mid (f.tokens mid ++ after)).rest = token :: (rest ++ after) := by
    rw [htokens, List.cons_append]
  have hopens {bracket : Bracket} (hb : bracket ≠ .square) :
      ¬ (Cursor.mk mid (f.tokens mid ++ after)).opens bracket := by
    rintro ⟨other, more, hother, hl⟩
    rw [hr] at hother
    cases hother
    rw [ho] at hl
    cases hl
    exact hb rfl
  have hname : Derives source n (.named name.text ⟨start, mid⟩ ⟨mid, f.tokens mid ++ after⟩
      (.identifier ⟨start, mid⟩ (bareName name.text)) ⟨mid, f.tokens mid ++ after⟩) := by
    refine .identifier (readTypeArguments_of_head fun other hother => ?_)
      (.noArguments (hopens (by decide))) (.noLambda (hopens (by decide)))
    rw [hr] at hother
    cases hother
    rw [ho]
    exact nofun
  have hmember : memberAhead? ⟨mid, f.tokens mid ++ after⟩ = none :=
    memberAhead?_of_head hr (by rw [ho]; exact nofun) (by rw [ho]; rfl)
  have hindex : Derives source n (.suffixes (.identifier ⟨start, mid⟩ (bareName name.text))
      ⟨mid, f.tokens mid ++ after⟩
      (.sequence ⟨start, node.info.stop⟩ [.identifier ⟨start, mid⟩ (bareName name.text), node])
      ⟨stop, after⟩) :=
    .index hmember hr ho hstart hd (.noSuffix he.member he.index)
  refine ⟨_, _, .sequence ⟨start, stop⟩ [.identifier ⟨start, mid⟩ (bareName name.text), node], ht,
    rfl, ?_, rfl, ?_⟩
  · rw [hn.info] at hindex
    exact .expression (.name rfl hname) hindex
  · have ht : (Lexeme.identifier name.text).text = name.text := rfl
    simp [Node.map, hh.slice_eq, hs, ht, name.bareName_text, hn.texts, Identifier.tree]

theorem ReadsStrand.values {strand : Strand} (h : ReadsStrand n strand.layout strand.trees)
    (hf : strand.layout.Heads) :
    ReadsValues n (strand.layout ++ [closing .round]) [strand.argument] := by
  intro source start stop prior after hh
  obtain ⟨mid, hholds, hclose, htokens⟩ := hh.append
  obtain ⟨others, hend, hothers⟩ := ReadsValues.nil (n := n) mid after hclose
  obtain rfl := List.map_eq_nil_iff.1 hothers
  obtain ⟨stop', hc, _, _⟩ := hclose.word
  rw [closing, hc] at hend
  have hsettled : Settled (⟨.closing .round, ⟨mid, stop'⟩⟩ :: after) := settled_closing rfl after
  obtain ⟨nodes, hshows, hitems, _⟩ := h hholds hsettled
  obtain ⟨node, hcollapse, hn⟩ := hshows.collapse
  have hstop : Derives source n (.items .argument false
      ⟨mid, ⟨.closing .round, ⟨mid, stop'⟩⟩ :: after⟩ [] _) := .itemsStop rfl (.inl rfl)
  have hd := hitems hstop false prior
  rw [List.append_nil] at hd
  obtain ⟨first, more, hw, hi, _⟩ := hf.exists_initial
  obtain ⟨_, rest, hl, _, heq⟩ := hf
  have hrest : more = words rest := by
    rw [hl] at hw
    exact (List.cons.inj hw).2.symm
  rw [← hrest] at heq
  have hclosing : (Token.mk (.closing .round) ⟨mid, stop'⟩).lexeme ≠ .operator "=" := by
    rintro ⟨⟩
  have hname := readArgumentName_of_words hw heq hclosing prior start after
  obtain ⟨token, tokens, ht, rfl, _⟩ := Layout.exists_token hw start
  have hstart : token.span.start = start := by
    rw [hl] at ht
    cases ht
    rfl
  have hr : (Cursor.mk prior (strand.layout.tokens start ++
      ⟨.closing .round, ⟨mid, stop'⟩⟩ :: after)).rest =
        token :: (tokens ++ ⟨.closing .round, ⟨mid, stop'⟩⟩ :: after) := by
    rw [ht, List.cons_append]
  have ha := Derives.argument hr (hi.starts .argument) (by rw [hname]; exact hd) hend
  rw [hname, hcollapse] at ha
  refine ⟨[argumentOutline token none node], ?_, ?_⟩
  · rw [htokens, closing, hc, List.append_assoc]
    exact ha
  · rw [hholds.slice_eq] at hn
    rw [List.map_singleton, argumentOutline, Node.map, hn.texts, hn.info, hstart, hholds.slice_eq]
    rfl

theorem ReadsStrand.braced {strand : Strand} (h : ReadsStrand n strand.layout strand.trees)
    (hf : strand.layout.Heads) (hb : strand.layout.Barred) {blank : Piece}
    (hblank : Layout.Blank [blank]) :
    ReadsLambda (n + 1) (strand.braced [blank] [blank] none).layout
      (strand.braced [blank] [blank] none).tree := by
  refine (h.statement hf).one.lambda hblank hblank ((hb.append [blank]).behind ?_).noParameters
  rcases hblank blank List.mem_cons_self with rfl | rfl <;> simp [words]

/-- An arrow in front of the strand makes a parameter of the name in front of it. -/
theorem ReadsStrand.callback {strand : Strand} (h : ReadsStrand n strand.layout strand.trees)
    (hf : strand.layout.Heads) (parameter : Identifier) :
    ReadsLambda (n + 1)
      (strand.braced (Context.arrowLayout parameter) [.space] (some parameter.text)).layout
      (strand.braced (Context.arrowLayout parameter) [.space] (some parameter.text)).tree := by
  have hblank : Layout.Blank [.space] := List.forall_mem_singleton.2 (.inl rfl)
  have hp : ∀ word ∈ words [parameter.piece], word.isParameter = true :=
    List.forall_mem_singleton.2 rfl
  have ht : Layout.text [parameter.piece] = parameter.text := by
    rw [Layout.text, chars_cons, chars_nil, List.append_nil, Identifier.chars_piece,
      String.ofList_toList]
  rw [← ht]
  exact (h.statement hf).one.lambda_of_arrow hblank hblank hblank hp
    (Chain.trimmed ⟨parameter, []⟩) rfl

theorem ReadsLambda.expression (h : ReadsLambda n f.braces tree) :
    ReadsExpression (n + 1) f.braces tree := by
  intro source start stop after hh he
  obtain ⟨token, rest, node, ht, hl, hd, hn⟩ := h after hh
  obtain ⟨mid, hw, _⟩ := hh.word
  obtain ⟨rfl, rfl⟩ := List.cons.inj (ht.symm.trans hw)
  exact ⟨_, _, node, hw, rfl, .expression (.braces hl hd) (.noSuffix he.member he.index), hn⟩

theorem Layout.Heads.severs (h : f.Heads) : f.Severs Cursor.EndsSuffixes := by
  obtain ⟨first, more, hw, hi, _, hs⟩ := h.exists_initial
  exact severs_suffixes hw (hi.starts .argument).1 hi.leading hs

theorem ReadsStrand.word (word : Identifier) (hs : g.Severs Cursor.EndsExpression)
    (hg : ReadsStrand (n + 1) g trees) :
    ReadsStrand (n + 1) (word.piece :: .space :: g) (word.tree :: trees) :=
  .cons (ReadsName.bare word).head.expression rfl (Lexeme.initial_identifier word.text) hs hg

namespace Context

variable {filling : Strand}

/-- The strand in the hole reads as it reads alone, whatever stands around it. -/
theorem readsStrand (hf : filling.layout.Heads) (hb : filling.layout.Barred)
    (h : ∀ n, k ≤ n → ReadsStrand n filling.layout filling.trees) (context : Context) :
    ∀ n, k + 3 * context.depth ≤ n →
      ReadsStrand n (context.strand filling).layout (context.strand filling).trees := by
  induction context with
  | hole => exact h
  | value name inside ih =>
    intro n hn
    rw [depth] at hn
    obtain ⟨n, rfl⟩ : ∃ m, n = m + 3 := ⟨n - 3, by omega⟩
    have hi : ReadsStrand (n + 3) _ _ := ih (n + 3) (by omega)
    have hs : (Lexeme.operator "=").Initial :=
      ⟨fun setting => by cases setting <;> exact ⟨nofun, by decide, rfl⟩, rfl⟩
    have hsevers := (heads_strand hf inside).severs
    have hsign := ReadsStrand.cons (readsBefore_operator "=") rfl hs hsevers hi
    have hl : Layout.Severs Cursor.EndsExpression
        (sign "=" :: .space :: (inside.strand filling).layout) :=
      severs_expression rfl nofun rfl rfl
    exact .word Word.value (severs_expression rfl nofun rfl rfl) (.word name hl hsign)
  | body name inside ih =>
    intro n hn
    rw [depth] at hn
    obtain ⟨n, rfl⟩ : ∃ m, n = m + 2 := ⟨n - 2, by omega⟩
    have hi := (ih n (by omega)).braced (heads_strand hf inside) (barred_strand hb inside)
      (List.forall_mem_singleton.2 (.inr rfl))
    have hcall := (ReadsName.bareLambda name hi).strand ⟨_, _, rfl, .inl ⟨_, rfl⟩, nofun⟩
    exact .word Word.definition (severs_expression rfl nofun rfl rfl) hcall
  | argument function inside ih =>
    intro n hn
    rw [depth] at hn
    obtain ⟨n, rfl⟩ : ∃ m, n = m + 1 := ⟨n - 1, by omega⟩
    have hi := (ih n (by omega)).values (heads_strand hf inside)
    exact (ReadsName.arguments function hi).strand ⟨_, _, rfl, .inl ⟨_, rfl⟩, nofun⟩
  | second function first inside ih =>
    intro n hn
    rw [depth] at hn
    obtain ⟨n, rfl⟩ : ∃ m, n = m + 2 := ⟨n - 2, by omega⟩
    have hi := (ih (n + 1) (by omega)).values (heads_strand hf inside)
    have hvalues := ReadsValues.cons (ArgumentScript.readsArgument (.identifier first)) hi
    exact (ReadsName.arguments function hvalues).strand ⟨_, _, rfl, .inl ⟨_, rfl⟩, nofun⟩
  | group inside ih =>
    intro n hn
    rw [depth] at hn
    obtain ⟨n, rfl⟩ : ∃ m, n = m + 2 := ⟨n - 2, by omega⟩
    have hi := (ih n (by omega)).bracketed .round
    exact hi.expression.strand (heads_strand hf (.group inside))
  | run inside ih =>
    intro n hn
    rw [depth] at hn
    obtain ⟨n, rfl⟩ : ∃ m, n = m + 2 := ⟨n - 2, by omega⟩
    have hi := (ih n (by omega)).braced (heads_strand hf inside) (barred_strand hb inside)
      (List.forall_mem_singleton.2 (.inl rfl))
    exact (ReadsName.bareLambda Word.run hi).strand ⟨_, _, rfl, .inl ⟨_, rfl⟩, nofun⟩
  | index name inside ih =>
    intro n hn
    rw [depth] at hn
    obtain ⟨n, rfl⟩ : ∃ m, n = m + 2 := ⟨n - 2, by omega⟩
    have hi := (ih n (by omega)).bracketed .square
    exact (hi.index name).strand ⟨_, _, rfl, .inl ⟨_, rfl⟩, nofun⟩
  | callback function parameter inside ih =>
    intro n hn
    rw [depth] at hn
    obtain ⟨n, rfl⟩ : ∃ m, n = m + 3 := ⟨n - 3, by omega⟩
    have hi := (ih n (by omega)).callback (heads_strand hf inside) parameter
    have hw : ((inside.strand filling).braced (arrowLayout parameter) [.space]
        (some parameter.text)).layout.words =
          .opening .curly :: .identifier parameter.text :: .operator "->" :: _ := rfl
    have ha : ReadsArgument (n + 2) _ _ :=
      ⟨⟨_, _, hw, ⟨nofun, nofun, rfl⟩, fun h => by cases h⟩, hi.expression⟩
    have hvalues := ReadsValues.last ha
    exact (ReadsName.arguments function hvalues).strand ⟨_, _, rfl, .inl ⟨_, rfl⟩, nofun⟩

end Context

end StateDiagram
