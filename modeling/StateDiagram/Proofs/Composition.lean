import StateDiagram.Proofs.Annotation
import StateDiagram.Proofs.Derivation
import StateDiagram.Proofs.Layout
import StateDiagram.Proofs.Quotation
import StateDiagram.Proofs.Reading

namespace StateDiagram

set_option autoImplicit true

open Text

variable {f g : Layout} {source : Source} {offset : Nat}

def Layout.text (layout : Layout) : String := String.ofList layout.chars

namespace Source

/-- The layout stands in the source from one offset to the other. -/
structure Holds (source : Source) (start stop : Nat) (layout : Layout) : Prop where
  stands : StandsAt source.text start layout.chars
  stop_eq : start + layout.size = stop

namespace Holds

theorem slice_eq (h : source.Holds start stop f) : source.slice ⟨start, stop⟩ = f.text := by
  rw [← h.stop_eq]
  exact congrArg String.ofList (StandsAt.slice_eq h.stands)

theorem append (h : source.Holds start stop (f ++ g)) :
    ∃ mid, source.Holds start mid f ∧ source.Holds mid stop g ∧
      Layout.tokens start (f ++ g) = f.tokens start ++ g.tokens mid := by
  obtain ⟨hs, he⟩ := h
  rw [Layout.chars_append] at hs
  rw [Layout.size_append, ← Nat.add_assoc] at he
  exact ⟨start + f.size, ⟨hs.left, rfl⟩, ⟨hs.right, he⟩, Layout.tokens_append start f g⟩

theorem word (h : source.Holds start stop (.word lexeme :: f)) :
    ∃ mid, Layout.tokens start (.word lexeme :: f) = ⟨lexeme, ⟨start, mid⟩⟩ :: f.tokens mid ∧
      source.slice ⟨start, mid⟩ = lexeme.text ∧ source.Holds mid stop f := by
  obtain ⟨hs, he⟩ := h
  rw [Layout.size_cons, ← Nat.add_assoc] at he
  refine ⟨start + byteSize lexeme.text.toList, rfl, ?_, ⟨hs.right, he⟩⟩
  have ht : source.slice ⟨start, start + byteSize lexeme.text.toList⟩ =
      String.ofList lexeme.text.toList := congrArg String.ofList hs.left.slice_eq
  rw [ht, String.ofList_toList]

theorem space (h : source.Holds start stop (.space :: f)) : source.Holds (start + 1) stop f := by
  obtain ⟨hs, he⟩ := h
  rw [Layout.size_cons, ← Nat.add_assoc] at he
  exact ⟨hs.right, he⟩

theorem spaces (h : source.Holds start stop (List.replicate width .space ++ f)) :
    source.Holds (start + width) stop f := by
  induction width generalizing start with
  | zero => exact h
  | succ width ih =>
    rw [List.replicate_succ, List.cons_append] at h
    have hs := ih h.space
    rwa [Nat.add_right_comm, Nat.add_assoc] at hs

theorem nil (h : source.Holds start stop []) : start = stop := h.stop_eq

end Holds

end Source

/-- The node takes up the given stretch of the source, and its texts are those of the tree. -/
structure Shows (source : Source) (start stop : Nat) (node : Outline) (tree : Node String) :
    Prop where
  info : node.info = ⟨start, stop⟩
  texts : node.map source.slice = tree

/-- What follows makes no call of a name. -/
structure Cursor.EndsName (cursor : Cursor) : Prop where
  types : readTypeArguments cursor = ([], cursor)
  round : ¬ cursor.opens .round
  curly : ¬ cursor.opens .curly

/-- What follows does not belong to an expression. -/
structure Cursor.EndsExpression (cursor : Cursor) : Prop extends cursor.EndsName where
  member : memberAhead? cursor = none
  index : ¬ cursor.Indexed

theorem readTypeArguments_of_head {cursor : Cursor}
    (h : ∀ token ∈ cursor.rest.head?, token.lexeme ≠ .operator "<") :
    readTypeArguments cursor = ([], cursor) := by
  have ht : typeArgumentTokens? cursor = none := by
    rw [typeArgumentTokens?]
    split
    · rfl
    · next token rest hr => rw [if_neg fun hc => h token (by rw [hr]; rfl) hc.1]
  rw [readTypeArguments, ht]

/-- What may stand right behind a name. -/
def Lexeme.followsName (lexeme : Lexeme) : Bool :=
  !lexeme.isOpening && lexeme != .operator "<"

theorem Cursor.endsName_of_head {cursor : Cursor}
    (h : ∀ token ∈ cursor.rest.head?, token.lexeme.followsName = true) : cursor.EndsName := by
  have ho : ∀ token ∈ cursor.rest.head?, token.lexeme.isOpening = false := by
    intro token ht
    have hf := h token ht
    rw [Lexeme.followsName, Bool.and_eq_true, Bool.not_eq_true'] at hf
    exact hf.1
  refine ⟨readTypeArguments_of_head fun token ht he => ?_, not_opens ho _, not_opens ho _⟩
  have hf := h token ht
  rw [he] at hf
  cases hf

/-- Tokens that do not reach back into the expression in front of them. -/
structure Settled (tokens : List Token) : Prop where
  head : ∀ token ∈ tokens.head?, token.lexeme.followsName = true
  leads : leadsOn tokens = false

theorem memberAhead?_of_not_leadsOn {cursor : Cursor} (h : leadsOn cursor.rest = false) :
    memberAhead? cursor = none := by
  rw [memberAhead?]
  rw [leadsOn] at h
  split
  · next dot name rest hr =>
    rw [hr] at h
    dsimp only at h
    split
    · rw [if_neg, if_neg]
      all_goals
        intro hd
        rw [hd] at h
        cases h
    · rfl
  · rfl

theorem Cursor.not_indexed {cursor : Cursor}
    (h : ∀ token ∈ cursor.rest.head?, token.lexeme.followsName = true) : ¬ cursor.Indexed := by
  rintro ⟨token, rest, hr, ht, _⟩
  have hf := h token (by rw [hr]; rfl)
  rw [ht] at hf
  cases hf

theorem Settled.endsExpression (h : Settled after) (offset : Nat) :
    (Cursor.mk offset after).EndsExpression where
  toEndsName := Cursor.endsName_of_head h.head
  member := memberAhead?_of_not_leadsOn h.leads
  index := Cursor.not_indexed h.head

theorem Identifier.bareName_text (name : Identifier) : bareName name.text = name.text := by
  obtain ⟨c, cs, ht, hc, hr⟩ := name.exists_cons
  refine bareName_of_not_mem fun hm => ?_
  rw [ht] at hm
  rcases List.mem_cons.1 hm with rfl | hm
  · exact absurd hc (by decide)
  · exact absurd (hr _ hm) (by decide)

theorem Cursor.EndsName.named {cursor : Cursor} (h : cursor.EndsName) (text : String)
    (span : Span) :
    Derives source n (.named text span cursor (.identifier span (bareName text)) cursor) :=
  .identifier h.types (.noArguments h.round) (.noLambda h.curly)

theorem Derives.named_of_endsName {cursor : Cursor}
    (h : Derives source n (.named text span cursor node next)) (he : cursor.EndsName) :
    node = .identifier span (bareName text) ∧ next = cursor := by
  have hn : Derives source n (.named text span cursor (.identifier span (bareName text)) cursor) :=
    he.named text span
  have heq : some (node, next) = some (.identifier span (bareName text), cursor) :=
    h.isRead.symm.trans hn.isRead
  cases heq
  exact ⟨rfl, rfl⟩

def Identifier.piece (name : Identifier) : Piece := .word (.identifier name.text)

def Identifier.tree (name : Identifier) : Node String := .identifier name.text name.text

def ReadsName (n : Nat) (layout : Layout) (tree : Node String) : Prop :=
  ∀ ⦃source : Source⦄ ⦃start stop : Nat⦄ ⦃after : List Token⦄, source.Holds start stop layout →
    (Cursor.mk stop after).EndsName →
    ∃ name span rest node, layout.tokens start = ⟨.identifier name, span⟩ :: rest ∧
      span.start = start ∧
      Derives source n (.named name span ⟨span.stop, rest ++ after⟩ node ⟨stop, after⟩) ∧
      Shows source start stop node tree

def ReadsLambda (n : Nat) (layout : Layout) (tree : Node String) : Prop :=
  ∀ ⦃source : Source⦄ ⦃start stop : Nat⦄ (after : List Token), source.Holds start stop layout →
    ∃ token rest node, layout.tokens start = token :: rest ∧ token.lexeme = .opening .curly ∧
      Derives source n (.lambda token (.past token (rest ++ after)) node ⟨stop, after⟩) ∧
      Shows source start stop node tree

def ReadsArguments (n : Nat) (layout : Layout) (trees : List (Node String)) : Prop :=
  ∀ ⦃source : Source⦄ ⦃start stop : Nat⦄ (after : List Token), source.Holds start stop layout →
    ∃ token rest nodes, layout.tokens start = token :: rest ∧ token.lexeme = .opening .round ∧
      Derives source n (.valueArguments (.past token (rest ++ after)) nodes ⟨stop, after⟩) ∧
      nodes.map (Node.map source.slice) = trees

def ReadsTypes (layout : Layout) (trees : List (Node String)) : Prop :=
  ∀ ⦃source : Source⦄ ⦃start stop : Nat⦄ ⦃after : List Token⦄, source.Holds start stop layout →
    opensCall after = true →
    ∃ nodes, readTypeArguments ⟨start, layout.tokens start ++ after⟩ = (nodes, ⟨stop, after⟩) ∧
      nodes.map (Node.map source.slice) = trees

theorem ReadsTypes.nil : ReadsTypes [] [] := by
  intro source start stop after hh ho
  obtain rfl := hh.nil
  refine ⟨[], readTypeArguments_of_head fun token ht he => ?_, rfl⟩
  cases after with
  | nil => cases ht
  | cons first after =>
    cases ht
    rw [opensCall, he] at ho
    cases ho

theorem ReadsName.bare (name : Identifier) : ReadsName n [name.piece] name.tree := by
  intro source start stop after hh he
  obtain ⟨mid, ht, hs, hn⟩ := hh.word
  obtain rfl := hn.nil
  refine ⟨name.text, ⟨start, mid⟩, [], _, ht, rfl, he.named name.text ⟨start, mid⟩, rfl, ?_⟩
  rw [Node.map, hs, name.bareName_text]
  rfl

/-- What a call is made of: perhaps types, perhaps arguments, perhaps a lambda. -/
theorem readsName_of_parts {name : Identifier} {types : List Outline}
    {arguments : Option (List Outline)} {lambda : Option Outline}
    (hh : source.Holds start stop (name.piece :: f))
    (hw : Layout.tokens start (name.piece :: f) = ⟨.identifier name.text, ⟨start, mid⟩⟩ :: rest)
    (hs : source.slice ⟨start, mid⟩ = name.text)
    (ht : readTypeArguments ⟨mid, rest ++ after⟩ = (types, behindTypes))
    (ha : Derives source n (.callArguments behindTypes arguments behindArguments))
    (hl : Derives source n (.trailingLambda behindArguments lambda ⟨stop, after⟩))
    (hc : (types.isEmpty && arguments.isNone && lambda.isNone) = false) :
    ∃ text span rest node,
      Layout.tokens start (name.piece :: f) = ⟨.identifier text, span⟩ :: rest ∧
      span.start = start ∧
      Derives source n (.named text span ⟨span.stop, rest ++ after⟩ node ⟨stop, after⟩) ∧
      Shows source start stop node
        (.call (Layout.text (name.piece :: f)) name.tree
          (types.map (Node.map source.slice)) ((arguments.getD []).map (Node.map source.slice))
          (lambda.map (Node.map source.slice))) := by
  refine ⟨name.text, ⟨start, mid⟩, rest, _, hw, rfl, .call ht ha hl hc, rfl, ?_⟩
  rw [Node.map_call, Node.map, name.bareName_text, hs, hh.slice_eq]
  rfl

theorem opensCall_of_opening {token : Token} (h : token.lexeme = .opening .round ∨
    token.lexeme = .opening .curly) (rest : List Token) : opensCall (token :: rest) = true := by
  rcases h with h | h <;> simp [opensCall, h]

theorem ReadsName.call (name : Identifier) (ht : ReadsTypes f types)
    (ha : ReadsArguments n g values) :
    ReadsName n (name.piece :: (f ++ g))
      (.call (Layout.text (name.piece :: (f ++ g))) name.tree types values none) := by
  intro source start stop after hh he
  obtain ⟨mid, hw, hs, hn⟩ := hh.word
  obtain ⟨behind, hf, hg, hfg⟩ := hn.append
  obtain ⟨token, rest, values', htokens, ho, hd, rfl⟩ := ha after hg
  rw [hfg, htokens] at hw
  obtain ⟨types', ht', rfl⟩ := ht hf (opensCall_of_opening (.inl ho) (rest ++ after))
  have hv : Derives source n (.callArguments ⟨behind, token :: (rest ++ after)⟩ (some values')
      ⟨stop, after⟩) := .arguments rfl ho hd
  refine readsName_of_parts hh hw hs ?_ hv (.noLambda he.curly) ?_
  · rw [List.append_assoc]
    exact ht'
  · simp

theorem ReadsName.callLambda (name : Identifier) (ht : ReadsTypes f types)
    (ha : ReadsArguments n g values) (hl : ReadsLambda n l tree) :
    ReadsName n (name.piece :: (f ++ (g ++ .space :: l)))
      (.call (Layout.text (name.piece :: (f ++ (g ++ .space :: l)))) name.tree types values
        (some tree)) := by
  intro source start stop after hh he
  obtain ⟨mid, hw, hs, hn⟩ := hh.word
  obtain ⟨behind, hf, hgl, hfg⟩ := hn.append
  obtain ⟨close, hg, hsl, hglt⟩ := hgl.append
  obtain ⟨brace, inner, lambda, hlt, hlo, hld, hls⟩ := hl after hsl.space
  obtain ⟨token, rest, values', htokens, ho, hd, rfl⟩ := ha (brace :: (inner ++ after)) hg
  rw [hfg, hglt, htokens, Layout.tokens, hlt] at hw
  obtain ⟨types', ht', rfl⟩ := ht hf
    (opensCall_of_opening (.inl ho) (rest ++ brace :: (inner ++ after)))
  have hv : Derives source n (.callArguments
      ⟨behind, token :: (rest ++ brace :: (inner ++ after))⟩ (some values')
      ⟨close, brace :: (inner ++ after)⟩) := .arguments rfl ho hd
  rw [← hls.texts]
  refine readsName_of_parts hh hw hs ?_ hv (.trailing rfl hlo hld) ?_
  · simpa only [List.append_assoc, List.cons_append] using ht'
  · simp

theorem ReadsName.lambda (name : Identifier) (ht : ReadsTypes f types)
    (hl : ReadsLambda n l tree) :
    ReadsName n (name.piece :: (f ++ .space :: l))
      (.call (Layout.text (name.piece :: (f ++ .space :: l))) name.tree types [] (some tree)) := by
  intro source start stop after hh he
  obtain ⟨mid, hw, hs, hn⟩ := hh.word
  obtain ⟨behind, hf, hsl, hfg⟩ := hn.append
  obtain ⟨brace, inner, lambda, hlt, hlo, hld, hls⟩ := hl after hsl.space
  rw [hfg, Layout.tokens, hlt] at hw
  obtain ⟨types', ht', rfl⟩ := ht hf (opensCall_of_opening (.inr hlo) (inner ++ after))
  have hv : Derives source n (.callArguments ⟨behind, brace :: (inner ++ after)⟩ none
      ⟨behind, brace :: (inner ++ after)⟩) := by
    refine .noArguments ?_
    rintro ⟨other, more, hr, hc⟩
    cases hr
    rw [hlo] at hc
    cases hc
  rw [← hls.texts]
  refine readsName_of_parts hh hw hs ?_ hv (.trailing rfl hlo hld) ?_
  · simpa only [List.append_assoc, List.cons_append] using ht'
  · simp

def ReadsExpression (n : Nat) (layout : Layout) (tree : Node String) : Prop :=
  ∀ ⦃source : Source⦄ ⦃start stop : Nat⦄ ⦃after : List Token⦄, source.Holds start stop layout →
    (Cursor.mk stop after).EndsExpression →
    ∃ token rest node, layout.tokens start = token :: rest ∧ token.span.start = start ∧
      Derives source n (.expression token (.past token (rest ++ after)) node ⟨stop, after⟩) ∧
      Shows source start stop node tree

/-- An expression reads as the tree and may go on with member accesses. -/
def ReadsHead (n : Nat) (layout : Layout) (tree : Node String) : Prop :=
  ∀ ⦃source : Source⦄ ⦃start stop : Nat⦄ ⦃after : List Token⦄, source.Holds start stop layout →
    (Cursor.mk stop after).EndsName →
    ∃ token rest node, layout.tokens start = token :: rest ∧ token.span.start = start ∧
      Shows source start stop node tree ∧
      ∀ ⦃result next⦄, Derives source n (.suffixes node ⟨stop, after⟩ result next) →
        Derives source (n + 1) (.expression token (.past token (rest ++ after)) result next)

theorem ReadsHead.expression (h : ReadsHead n f tree) : ReadsExpression (n + 1) f tree := by
  intro source start stop after hh he
  obtain ⟨token, rest, node, ht, hs, hn, hd⟩ := h hh he.toEndsName
  exact ⟨token, rest, node, ht, hs, hd (.noSuffix he.member he.index), hn⟩

theorem ReadsName.head (h : ReadsName n f tree) : ReadsHead n f tree := by
  intro source start stop after hh he
  obtain ⟨name, span, rest, node, ht, hs, hd, hn⟩ := h hh he
  exact ⟨_, rest, node, ht, hs, hn, fun _ _ hx => .expression (.name rfl hd) hx⟩

def Layout.dot : Piece := .word (.operator ".")

theorem ReadsHead.member (hf : ReadsHead n f tree) (hg : ReadsName n g selector) :
    ReadsHead n (f ++ Layout.dot :: g)
      (.memberAccess (Layout.text (f ++ Layout.dot :: g)) tree selector false) := by
  intro source start stop after hh he
  obtain ⟨mid, hholds, hd, htokens⟩ := hh.append
  obtain ⟨behind, hw, _, hname⟩ := hd.word
  obtain ⟨name, span, more, selector', hg, _, hname, hselector⟩ := hg hname he
  have he' : (Cursor.mk mid (⟨.operator ".", ⟨mid, behind⟩⟩ :: ⟨.identifier name, span⟩ ::
      (more ++ after))).EndsName := by
    refine Cursor.endsName_of_head fun token ht => ?_
    cases ht
    rfl
  obtain ⟨token, rest, node, hf, hs, hnode, hx⟩ := hf hholds he'
  refine ⟨token, rest ++ ⟨.operator ".", ⟨mid, behind⟩⟩ :: ⟨.identifier name, span⟩ :: more,
    .memberAccess ⟨start, stop⟩ node selector' false, ?_, hs, ⟨rfl, ?_⟩, ?_⟩
  · rw [htokens, hf, Layout.dot, hw, hg, List.cons_append]
  · rw [Node.map, hh.slice_eq, hnode.texts, hselector.texts]
  · intro result next hsuffix
    have hm : memberAhead? ⟨mid, ⟨.operator ".", ⟨mid, behind⟩⟩ :: ⟨.identifier name, span⟩ ::
        (more ++ after)⟩ = some ⟨false, name, span, ⟨span.stop, more ++ after⟩⟩ := rfl
    rw [List.append_assoc]
    refine hx (.member hm hname ?_)
    rw [hnode.info, hselector.info]
    exact hsuffix

theorem PlainText.stringContent_quoted (plain : PlainText) :
    stringContent plain.quoted = plain.text := by
  obtain ⟨text, hp⟩ := plain
  have ht : (PlainText.quoted ⟨text, hp⟩).toList = '\x22' :: (text.toList ++ ['\x22']) := by
    simp [PlainText.quoted, String.toList_append]
  have hraw : ¬ (6 ≤ ('\x22' :: (text.toList ++ ['\x22'])).length ∧
      (['\x22', '\x22', '\x22'] : List Char).isPrefixOf ('\x22' :: (text.toList ++ ['\x22'])) ∧
      (['\x22', '\x22', '\x22'] : List Char).isSuffixOf
        ('\x22' :: (text.toList ++ ['\x22']))) := by
    rintro ⟨hl, hq, _⟩
    cases hc : text.toList with
    | nil =>
      rw [hc] at hl
      exact absurd hl (by decide)
    | cons c cs =>
      have hr : c ∉ reservedCharacters := hp c (by rw [hc]; exact List.mem_cons_self)
      rw [hc] at hq
      obtain ⟨more, he⟩ := List.isPrefixOf_iff_prefix.1 hq
      obtain ⟨rfl, _⟩ := List.cons.inj (List.cons.inj he).2
      exact hr (by decide)
  rw [stringContent, ht]
  simp only [if_neg hraw]
  simp

def PlainText.piece (plain : PlainText) : Piece := .word (.string plain.quoted)

def PlainText.tree (plain : PlainText) : Node String := .stringLiteral plain.quoted plain.text

def Numeral.piece (numeral : Numeral) : Piece := .word (.number numeral.text)

def Numeral.tree (numeral : Numeral) : Node String := .literal numeral.text

theorem ReadsHead.string (plain : PlainText) : ReadsHead n [plain.piece] plain.tree := by
  intro source start stop after hh _
  obtain ⟨mid, ht, hs, hn⟩ := hh.word
  obtain rfl := hn.nil
  refine ⟨_, [], .stringLiteral ⟨start, mid⟩ (stringContent plain.quoted), ht, rfl, ⟨rfl, ?_⟩,
    fun _ _ hx => .expression (.string rfl) hx⟩
  rw [Node.map, hs, plain.stringContent_quoted]
  rfl

theorem ReadsHead.number (numeral : Numeral) : ReadsHead n [numeral.piece] numeral.tree := by
  intro source start stop after hh _
  obtain ⟨mid, ht, hs, hn⟩ := hh.word
  obtain rfl := hn.nil
  refine ⟨_, [], .literal ⟨start, mid⟩, ht, rfl, ⟨rfl, ?_⟩,
    fun _ _ hx => .expression (.literal rfl) hx⟩
  rw [Node.map, hs]
  rfl

/-- A layout and the tree that it reads as. -/
structure Inscription where
  layout : Layout
  tree : Node String

structure Chain where
  first : Identifier
  rest : List Identifier

namespace Chain

def step (part : Inscription) (name : Identifier) : Inscription where
  layout := part.layout ++ Layout.dot :: [name.piece]
  tree := .memberAccess (Layout.text (part.layout ++ Layout.dot :: [name.piece])) part.tree
    name.tree false

def inscription (chain : Chain) : Inscription :=
  chain.rest.foldl step ⟨[chain.first.piece], chain.first.tree⟩

def layout (chain : Chain) : Layout := chain.inscription.layout

def tree (chain : Chain) : Node String := chain.inscription.tree

theorem readsHead_foldl (names : List Identifier) (part : Inscription)
    (h : ReadsHead n part.layout part.tree) :
    ReadsHead n (names.foldl step part).layout (names.foldl step part).tree := by
  induction names generalizing part with
  | nil => exact h
  | cons name names ih => exact ih _ (h.member (.bare name))

theorem layout_foldl (names : List Identifier) (part : Inscription) :
    (names.foldl step part).layout =
      part.layout ++ names.flatMap fun name => [Layout.dot, name.piece] := by
  induction names generalizing part with
  | nil => exact (List.append_nil _).symm
  | cons name names ih => rw [List.foldl_cons, ih, step, List.flatMap_cons, List.append_assoc]

theorem layout_eq (chain : Chain) : chain.layout =
    chain.first.piece :: chain.rest.flatMap fun name => [Layout.dot, name.piece] :=
  layout_foldl ..

theorem readsHead (chain : Chain) : ReadsHead n chain.layout chain.tree := by
  have hfirst : ReadsHead n [chain.first.piece] chain.first.tree :=
    (ReadsName.bare chain.first).head
  exact readsHead_foldl chain.rest ⟨_, _⟩ hfirst

end Chain

namespace Layout

def words (layout : Layout) : List Lexeme :=
  layout.filterMap fun
    | .space => none
    | .word lexeme => some lexeme

theorem words_append (f g : Layout) : words (f ++ g) = f.words ++ g.words :=
  List.filterMap_append ..

theorem mem_words {layout : Layout} {word : Lexeme} :
    word ∈ layout.words ↔ .word word ∈ layout := by
  rw [words, List.mem_filterMap]
  constructor
  · rintro ⟨piece, hm, he⟩
    cases piece with
    | space => cases he
    | word lexeme =>
      cases he
      exact hm
  · exact fun hm => ⟨_, hm, rfl⟩

theorem map_lexeme_tokens (layout : Layout) (start : Nat) :
    (layout.tokens start).map Token.lexeme = layout.words := by
  induction layout generalizing start with
  | nil => rfl
  | cons piece layout ih =>
    cases piece with
    | space => exact ih _
    | word lexeme => exact congrArg _ (ih _)

theorem exists_token {layout : Layout} (h : layout.words = first :: more) (start : Nat) :
    ∃ token rest, layout.tokens start = token :: rest ∧ token.lexeme = first ∧
      rest.map Token.lexeme = more := by
  have hw := layout.map_lexeme_tokens start
  rw [h] at hw
  obtain ⟨token, rest, ht, hf, hm⟩ := List.map_eq_cons_iff.1 hw
  exact ⟨token, rest, ht, hf, hm⟩

end Layout

def Layout.sign (text : String) : Piece := .word (.operator text)

def Layout.comma : Piece := .word (.operator ",")

def Layout.opening (bracket : Bracket) : Piece := .word (.opening bracket)

def Layout.closing (bracket : Bracket) : Piece := .word (.closing bracket)

structure ReadsArgument (n : Nat) (layout : Layout) (tree : Node String) : Prop where
  words : ∃ first more, layout.words = first :: more ∧ Setting.argument.Starts first ∧
    more.head? ≠ some (.operator "=")
  reads : ReadsExpression n layout tree

def ReadsValues (n : Nat) (layout : Layout) (trees : List (Node String)) : Prop :=
  ∀ ⦃source : Source⦄ ⦃start stop : Nat⦄ (prior : Nat) (after : List Token),
    source.Holds start stop layout →
    ∃ nodes, Derives source n (.valueArguments ⟨prior, layout.tokens start ++ after⟩ nodes
        ⟨stop, after⟩) ∧
      nodes.map (Node.map source.slice) = trees

theorem ReadsValues.arguments (h : ReadsValues n f trees) :
    ReadsArguments n (Layout.opening .round :: f) trees := by
  intro source start stop after hh
  obtain ⟨mid, ht, _, hf⟩ := hh.word
  obtain ⟨nodes, hd, hn⟩ := h mid after hf
  exact ⟨_, f.tokens mid, nodes, ht, rfl, hd, hn⟩

theorem ReadsValues.nil : ReadsValues n [Layout.closing .round] [] := by
  intro source start stop prior after hh
  obtain ⟨mid, ht, _, hn⟩ := hh.word
  obtain rfl := hn.nil
  have hd : Derives source n (.valueArguments
      ⟨prior, ⟨.closing .round, ⟨start, mid⟩⟩ :: after⟩ []
      (if Bracket.round = .round then .past ⟨.closing .round, ⟨start, mid⟩⟩ after
        else ⟨prior, ⟨.closing .round, ⟨start, mid⟩⟩ :: after⟩)) := .argumentsClose rfl rfl
  rw [if_pos rfl] at hd
  rw [Layout.closing, ht]
  exact ⟨[], hd, rfl⟩

theorem readArgumentName_of_head {cursor : Cursor}
    (h : ∀ first second rest, cursor.rest = first :: second :: rest →
      second.lexeme ≠ .operator "=") : readArgumentName cursor = (none, cursor) := by
  rw [readArgumentName]
  split
  · next name sign rest hr =>
    split
    · next hs => exact (h _ _ _ hr hs).elim
    · rfl
  · rfl

theorem readArgumentName_of_words (hw : f.words = first :: more)
    (hm : more.head? ≠ some (.operator "=")) {token : Token} (ht : token.lexeme ≠ .operator "=")
    (prior start : Nat) (after : List Token) :
    readArgumentName ⟨prior, f.tokens start ++ token :: after⟩ =
      (none, ⟨prior, f.tokens start ++ token :: after⟩) := by
  obtain ⟨head, rest, htokens, _, hrest⟩ := Layout.exists_token hw start
  refine readArgumentName_of_head fun one two others ho he => ?_
  rw [htokens, List.cons_append] at ho
  obtain ⟨_, ho⟩ := List.cons.inj ho
  cases rest with
  | nil =>
    cases ho
    exact ht he
  | cons second rest =>
    obtain ⟨rfl, _⟩ := List.cons.inj ho
    rw [← hrest, List.map_cons, he] at hm
    exact hm rfl

theorem ReadsArgument.derives (h : ReadsArgument n f tree) (hh : source.Holds start stop f)
    (hf : first.lexeme = .operator "," ∨ first.lexeme = .closing .round)
    (hd : Derives source n (.valueArguments ⟨stop, first :: after⟩ nodes next)) (prior : Nat) :
    ∃ node, Derives source n (.valueArguments ⟨prior, f.tokens start ++ first :: after⟩
        (node :: nodes) next) ∧
      node.map source.slice = .valueArgument f.text none tree := by
  obtain ⟨⟨lexeme, more, hw, hstarts, heq⟩, hreads⟩ := h
  have hsettled : Settled (first :: after) := by
    constructor
    · intro token ht
      cases ht
      rcases hf with hf | hf <;> simp [hf, Lexeme.followsName, Lexeme.isOpening]
    · rcases hf with hf | hf <;> simp [leadsOn, hf, Lexeme.isLineBreak, Lexeme.isLeading,
        leadingOperators]
  obtain ⟨token, rest, node, ht, hs, he, hn⟩ := hreads hh (hsettled.endsExpression stop)
  obtain ⟨_, _, ht', hlexeme, _⟩ := Layout.exists_token hw start
  obtain ⟨rfl, rfl⟩ := List.cons.inj (ht.symm.trans ht')
  have hne : first.lexeme ≠ .operator "=" := by
    rcases hf with hf | hf <;> simp [hf]
  have hname := readArgumentName_of_words hw heq hne prior start after
  have hitems : Derives source n (.items .argument false
      ⟨prior, f.tokens start ++ first :: after⟩ [node] ⟨stop, first :: after⟩) := by
    rw [ht, List.cons_append]
    refine .item rfl (hlexeme ▸ hstarts) he (.itemsStop rfl ?_)
    rcases hf with hf | hf
    · exact .inr hf
    · exact .inl (by rw [hf]; rfl)
  refine ⟨argumentOutline token none node, ?_, ?_⟩
  · have hr : (Cursor.mk prior (f.tokens start ++ first :: after)).rest =
        token :: (rest ++ first :: after) := by rw [ht, List.cons_append]
    have ha := Derives.argument hr (hlexeme ▸ hstarts) (by rw [hname]; exact hitems) hd
    rw [hname] at ha
    exact ha
  · rw [argumentOutline, Node.map, hn.texts, hn.info, hs, hh.slice_eq]

theorem ReadsValues.last (h : ReadsArgument n f tree) :
    ReadsValues n (f ++ [Layout.closing .round]) [.valueArgument f.text none tree] := by
  intro source start stop prior after hh
  obtain ⟨mid, hf, hc, ht⟩ := hh.append
  obtain ⟨nodes, hd, hn⟩ := ReadsValues.nil mid after hc
  obtain ⟨stop', hw, _, hnil⟩ := hc.word
  rw [Layout.closing, hw] at hd
  obtain ⟨node, ha, hnode⟩ := h.derives hf (.inr rfl) hd prior
  refine ⟨node :: nodes, ?_, by rw [List.map_cons, hnode, hn]⟩
  rw [ht, Layout.closing, hw, List.append_assoc]
  exact ha

theorem ReadsValues.cons (h : ReadsArgument n f tree) (ht : ReadsValues n g trees) :
    ReadsValues n (f ++ Layout.comma :: .space :: g)
      (.valueArgument f.text none tree :: trees) := by
  intro source start stop prior after hh
  obtain ⟨mid, hf, hg, htokens⟩ := hh.append
  obtain ⟨behind, hw, _, hrest⟩ := hg.word
  obtain ⟨nodes, hd, hn⟩ := ht behind after hrest.space
  have hskip : Derives source n (.valueArguments
      ⟨mid, ⟨.operator ",", ⟨mid, behind⟩⟩ :: (g.tokens (behind + 1) ++ after)⟩ nodes
      ⟨stop, after⟩) := .argumentsSkip rfl (.inr rfl) hd
  obtain ⟨node, ha, hnode⟩ := h.derives hf (.inl rfl) hskip prior
  refine ⟨node :: nodes, ?_, by rw [List.map_cons, hnode, hn]⟩
  rw [htokens, Layout.comma, hw, List.append_assoc]
  exact ha

namespace Layout

def less : Piece := .word (.operator "<")

def greater : Piece := .word (.operator ">")

/-- Neither a blank nor a line break stands around the layout. -/
structure Trimmed (layout : Layout) : Prop where
  first : ∃ lexeme rest, layout = .word lexeme :: rest ∧ lexeme.isLineBreak = false
  last : ∃ rest lexeme, layout = rest ++ [.word lexeme] ∧ lexeme.isLineBreak = false

theorem Trimmed.ofTokens (h : Trimmed f) (hh : source.Holds start stop f) :
    Span.ofTokens? (f.tokens start) = some ⟨start, stop⟩ := by
  obtain ⟨rest, lexeme, hl, _⟩ := h.last
  obtain ⟨first, more, hf, _⟩ := h.first
  have hlast : (f.tokens start).getLast?.map (·.span.stop) = some stop := by
    subst hl
    obtain ⟨mid, _, hw, ht⟩ := hh.append
    obtain ⟨stop', hw', _, hn⟩ := hw.word
    obtain rfl := hn.nil
    rw [ht, hw', List.getLast?_append]
    rfl
  have hfirst : ∃ tokens, f.tokens start = ⟨first, ⟨start, start + byteSize first.text.toList⟩⟩ ::
      tokens := ⟨_, by rw [hf]; rfl⟩
  obtain ⟨tokens, ht⟩ := hfirst
  rw [ht] at hlast ⊢
  obtain ⟨last, hg, rfl⟩ := Option.map_eq_some_iff.1 hlast
  simp only [Span.ofTokens?, hg]

end Layout

def Lexeme.inType (lexeme : Lexeme) : Prop :=
  (∃ name, lexeme = .identifier name) ∨ lexeme = .operator "."

/-- A lexeme that stands between the types of a list or in them, or is a line break. -/
def Lexeme.isBetween : Lexeme → Bool
  | .identifier _ | .lineBreak => true
  | .operator text => typeOperators.contains text
  | _ => false

/-- A list of types without lists of their own is one unless it holds a line break. -/
theorem closeAngle_eq {inside : List Token} {close : Token}
    (h : ∀ token ∈ inside, token.lexeme.isBetween = true) (hc : close.lexeme = .operator ">") :
    closeAngle 0 (inside ++ close :: rest) =
      if inside.any (·.lexeme.isLineBreak) then none else some (inside, close, rest) := by
  induction inside with
  | nil =>
    rw [List.nil_append, closeAngle.eq_def]
    simp [hc]
  | cons token inside ih =>
    obtain ⟨ht, h⟩ := List.forall_mem_cons.1 h
    rw [List.cons_append, closeAngle.eq_def, List.any_cons]
    dsimp only
    rw [ih h]
    cases hl : token.lexeme with
    | lineBreak => rfl
    | identifier name => cases inside.any (·.lexeme.isLineBreak) <;> rfl
    | operator text =>
      rw [hl, Lexeme.isBetween] at ht
      have hless : text ≠ "<" := by
        rintro rfl
        exact absurd ht (by decide)
      have hgreater : text ≠ ">" := by
        rintro rfl
        exact absurd ht (by decide)
      simp only [if_neg hless, if_neg hgreater, ht]
      cases inside.any (·.lexeme.isLineBreak) <;> rfl
    | _ =>
      rw [hl] at ht
      cases ht

theorem closeAngle_append {inside : List Token} {close : Token}
    (h : ∀ token ∈ inside, token.lexeme.inType) (hc : close.lexeme = .operator ">") :
    closeAngle 0 (inside ++ close :: rest) = some (inside, close, rest) := by
  have hb : ∀ token ∈ inside, token.lexeme.isBetween = true := by
    intro token hm
    rcases h token hm with ⟨name, ht⟩ | ht <;> rw [ht] <;> rfl
  have hn : inside.any (·.lexeme.isLineBreak) = false := by
    refine List.any_eq_false.2 fun token hm => ?_
    rcases h token hm with ⟨name, ht⟩ | ht <;> rw [ht] <;> exact Bool.false_ne_true
  rw [closeAngle_eq hb hc, hn]
  rfl

theorem typeSegments_of_inType {inside : List Token} (h : ∀ token ∈ inside, token.lexeme.inType) :
    typeSegments 0 inside = [inside] := by
  induction inside with
  | nil => rfl
  | cons token inside ih =>
    obtain ⟨ht, h⟩ := List.forall_mem_cons.1 h
    rw [typeSegments]
    rcases ht with ⟨name, ht⟩ | ht <;> simp [ht, ih h]

theorem Chain.trimmed (chain : Chain) : chain.layout.Trimmed := by
  rw [chain.layout_eq]
  refine ⟨⟨_, _, rfl, rfl⟩, ?_⟩
  rcases List.eq_nil_or_concat chain.rest with hr | ⟨names, name, hr⟩
  · rw [hr]
    exact ⟨[], _, rfl, rfl⟩
  · rw [hr, List.concat_eq_append, List.flatMap_append]
    exact ⟨chain.first.piece :: (names.flatMap fun name => [Layout.dot, name.piece]) ++
      [Layout.dot], .identifier name.text, by simp [Identifier.piece], rfl⟩

theorem Chain.inType (chain : Chain) : ∀ lexeme ∈ chain.layout.words, lexeme.inType := by
  intro lexeme hm
  rw [chain.layout_eq] at hm
  obtain ⟨piece, hp, hl⟩ := List.mem_filterMap.1 hm
  rcases List.mem_cons.1 hp with rfl | hp
  · cases hl
    exact .inl ⟨_, rfl⟩
  · obtain ⟨name, _, hp⟩ := List.mem_flatMap.1 hp
    simp only [List.mem_cons, List.not_mem_nil, or_false] at hp
    rcases hp with rfl | rfl
    · cases hl
      exact .inr rfl
    · cases hl
      exact .inl ⟨_, rfl⟩

theorem ReadsTypes.chain (chain : Chain) :
    ReadsTypes (Layout.less :: (chain.layout ++ [Layout.greater]))
      [.typeArgument chain.layout.text] := by
  intro source start stop after hh ho
  obtain ⟨mid, hless, _, hrest⟩ := hh.word
  obtain ⟨behind, hc, hg, ht⟩ := hrest.append
  obtain ⟨stop', hgreater, _, hn⟩ := hg.word
  obtain rfl := hn.nil
  have hin : ∀ token ∈ chain.layout.tokens mid, token.lexeme.inType := by
    intro token hm
    refine chain.inType token.lexeme ?_
    rw [← Layout.map_lexeme_tokens _ mid]
    exact List.mem_map_of_mem hm
  refine ⟨[.typeArgument ⟨mid, behind⟩], ?_, ?_⟩
  · have hsegments : (typeSegments 0 (chain.layout.tokens mid)).filterMap Span.ofTokens? =
        [⟨mid, behind⟩] := by
      rw [typeSegments_of_inType hin, List.filterMap_cons_some (chain.trimmed.ofTokens hc)]
      rfl
    have hclose : closeAngle 0 (chain.layout.tokens mid ++
        ⟨.operator ">", ⟨behind, stop'⟩⟩ :: after) = some (chain.layout.tokens mid,
          ⟨.operator ">", ⟨behind, stop'⟩⟩, after) := closeAngle_append hin rfl
    have htokens :
        Layout.tokens start (Layout.less :: (chain.layout ++ [Layout.greater])) ++ after =
          ⟨.operator "<", ⟨start, mid⟩⟩ :: (chain.layout.tokens mid ++
            ⟨.operator ">", ⟨behind, stop'⟩⟩ :: after) := by
      rw [Layout.less, hless, ht, Layout.greater, hgreater, List.cons_append, List.append_assoc]
      rfl
    rw [htokens]
    exact Eq.trans (readTypeArguments_of_closeAngle rfl rfl hclose ho) (by rw [hsegments]; rfl)
  · rw [List.map_singleton, Node.map, hc.slice_eq]

end StateDiagram
