import StateDiagram.Proofs.Header

namespace StateDiagram

set_option autoImplicit true

open Layout Text

variable {source : Source} {tokens rest after : List Token} {token : Token} {tree : Node String}
  {builders : List (Place × Builder)}

namespace Source

theorem Continues.single (token : Token) {node : Outline}
    (h : ∀ carried prior, source.Continues (n + 1) carried ⟨prior, rest⟩ builders)
    (hs : Setting.statement.Starts token.lexeme) (he : (Cursor.past token rest).EndsSuffixes)
    (hp : Derives source n (.primary token (.past token rest) node (.past token rest)))
    (hb : source.buildersIn node = []) (carried : Bool) (prior : Nat) :
    source.Continues (n + 1) carried ⟨prior, token :: rest⟩ builders := by
  have hc := (h _ _).expression hs (.expression hp (.noSuffix he.member he.index)) carried prior
  rwa [hb] at hc

theorem Continues.sign (text : String) (span : Span)
    (h : ∀ carried prior, source.Continues (n + 1) carried ⟨prior, rest⟩ builders)
    (ht : text ≠ ";") (he : (Cursor.mk span.stop rest).EndsSuffixes) (carried : Bool)
    (prior : Nat) :
    source.Continues (n + 1) carried ⟨prior, ⟨.operator text, span⟩ :: rest⟩ builders :=
  Continues.single ⟨.operator text, span⟩ h
    ⟨fun hl => (by cases hl), fun hl => ht (Lexeme.operator.inj hl), rfl⟩ he (.symbol rfl)
    (buildersIn_token _) carried prior

theorem Continues.name (text : String) (span : Span)
    (h : ∀ carried prior, source.Continues (n + 1) carried ⟨prior, rest⟩ builders)
    (hn : (Cursor.mk span.stop rest).EndsName) (he : (Cursor.mk span.stop rest).EndsSuffixes)
    (carried : Bool) (prior : Nat) :
    source.Continues (n + 1) carried ⟨prior, ⟨.identifier text, span⟩ :: rest⟩ builders :=
  Continues.single ⟨.identifier text, span⟩ h
    (Lexeme.starts_of_isPlain rfl _) he (.name rfl (hn.named text span))
    (buildersIn_identifier ..) carried prior

namespace OpensLambda

theorem continues (h : source.OpensLambda n tokens tree builders) (carried : Bool) (prior : Nat) :
    source.Continues (n + 1) carried ⟨prior, tokens⟩ (tree.placed.builders ++ builders) := by
  obtain ⟨brace, behind, lambda, next, rfl, ho, hd, rfl, ht⟩ := h
  have hname : lambda.hasName "StateMachine" = false ∧ lambda.isToken = false := by
    cases hd
    exact ⟨rfl, rfl⟩
  obtain ⟨item, mid, rest, hs, hc, he⟩ := ht lambda hname.1 hname.2
  have hstarts : Setting.statement.Starts brace.lexeme := by
    rw [ho]
    exact ⟨by decide, by decide, rfl⟩
  have hcarry : brace.lexeme.isCarrying = false := by
    rw [ho]
    rfl
  have hitem := hc.uncarried hstarts hcarry (.expression (.braces ho hd) hs) carried prior
  rwa [he] at hitem

theorem named (h : source.OpensLambda n tokens tree builders) {cursor : Cursor}
    {spans : List Span}
    (ht : readTypeArguments cursor = (spans.map .typeArgument, ⟨stop, tokens⟩)) (text : String)
    (span : Span) :
    ∃ lambda next, lambda.map source.slice = tree ∧ source.Trails n next builders ∧
      Derives source n (.named text span cursor (.call ⟨span.start, next.previousEnd⟩
        (.identifier span (bareName text)) (spans.map .typeArgument) [] (some lambda)) next) := by
  obtain ⟨brace, behind, lambda, next, rfl, ho, hd, rfl, hb⟩ := h
  have hround : ¬ (Cursor.mk stop (brace :: behind)).opens .round := by
    apply Cursor.not_opens_cons rfl
    rw [ho]
    exact nofun
  exact ⟨lambda, next, rfl, hb,
    .call ht (.noArguments hround) (.trailing rfl ho hd) (Bool.and_false _)⟩

/-- The function that is called with the lambda is no builder unless it is a member. -/
theorem continues_call (h : source.OpensLambda n tokens tree builders) {span : Span}
    {spans : List Span}
    (ht : readTypeArguments ⟨span.stop, rest⟩ = (spans.map .typeArgument, ⟨stop, tokens⟩))
    (text : String) (carried : Bool) (prior : Nat) :
    source.Continues (n + 1) carried ⟨prior, ⟨.identifier text, span⟩ :: rest⟩
      (tree.placed.builders ++ builders) := by
  obtain ⟨lambda, next, rfl, hb, hn⟩ := h.named ht text span
  obtain ⟨item, mid, more, hs, hc, he⟩ := hb (.call ⟨span.start, next.previousEnd⟩
    (.identifier span (bareName text)) (spans.map .typeArgument) [] (some lambda)) rfl rfl
  have hstarts : Setting.statement.Starts (.identifier text) := Lexeme.starts_of_isPlain rfl _
  have hd : Derives source (n + 1) (.expression ⟨.identifier text, span⟩ ⟨span.stop, rest⟩ item
      mid) := .expression (.name rfl hn) hs
  have hitem := hc.uncarried hstarts rfl hd carried prior
  rwa [he, buildersIn_call, List.flatMap_nil, List.nil_append, Option.toList_some,
    List.flatMap_singleton] at hitem

end OpensLambda

theorem derives_create (first name : Span) {selector item : Outline} {mid next : Cursor}
    (hb : Layout.Blank f) (start : Nat) (dot : Span)
    (hn : Derives source n (.named "create" name ⟨name.stop, rest⟩ selector mid))
    (hs : Derives source n (.suffixes (.memberAccess ⟨first.start, selector.info.stop⟩
      (.identifier first "StateMachine") selector false) mid item next)) :
    Derives source (n + 1) (.expression ⟨.identifier "StateMachine", first⟩
      ⟨first.stop, f.tokens start ++ ⟨.operator ".", dot⟩ :: ⟨.identifier "create", name⟩ :: rest⟩
      item next) := by
  have he : (Cursor.mk first.stop (f.tokens start ++ ⟨.operator ".", dot⟩ ::
      ⟨.identifier "create", name⟩ :: rest)).EndsName :=
    Cursor.endsName_of_head (hb.followsName (fun token ht => by cases ht; rfl) start)
  have hm : memberAhead? ⟨first.stop, f.tokens start ++ ⟨.operator ".", dot⟩ ::
      ⟨.identifier "create", name⟩ :: rest⟩ = some ⟨false, "create", name, ⟨name.stop, rest⟩⟩ := by
    rw [memberAhead?]
    dsimp only
    rw [List.dropWhile_append_of_pos fun token ht => by rw [hb.lineBreaks token ht]; rfl]
    rfl
  exact .expression (.name rfl (he.named "StateMachine" first)) (.member hm hn hs)

theorem buildersIn_create (source : Source) (span first call callee : Span) (spans : List Span)
    (lambda : Outline) :
    ∃ place, source.buildersIn (.memberAccess span (.identifier first "StateMachine")
        (.call call (.identifier callee "create") (spans.map .typeArgument) []
          (some lambda)) false) =
      source.buildersIn lambda ++ [(place, ⟨[], some (lambda.map source.slice).placed⟩)] := by
  have ho : Builder.ofNode? ((Node.memberAccess span (.identifier first "StateMachine")
      (.call call (.identifier callee "create") (spans.map .typeArgument) [] (some lambda))
      false).map source.slice).placed = some ⟨[], some (lambda.map source.slice).placed⟩ := by
    rw [Node.placed, Node.map, Node.map_call, Node.map, Node.map_call, Builder.ofNode?]
    simp only [Node.hasName_map]
    rfl
  rw [buildersIn_eq, ho]
  refine ⟨_, congrArg (· ++ _) ?_⟩
  simp [Node.children, buildersIn_identifier, buildersIn_call]

theorem buildersIn_names (span first second : Span) (name function : String) (safe : Bool) :
    source.buildersIn (.memberAccess span (.identifier first name) (.identifier second function)
      safe) = [] := by
  have ho : Builder.ofNode? ((Node.memberAccess span (.identifier first name)
      (.identifier second function) safe).map source.slice).placed = none := by
    simp [Node.placed, Node.map, Builder.ofNode?]
  rw [buildersIn_eq, ho]
  simp [Node.children, buildersIn_identifier]

theorem OpensLambda.endsSuffixes (h : source.OpensLambda n tokens tree builders) (offset : Nat) :
    (Cursor.mk offset tokens).EndsSuffixes := by
  obtain ⟨brace, behind, _, _, rfl, ho, _⟩ := h
  refine endsSuffixes_of_head ?_ ?_ ?_ offset <;> rw [ho]
  · exact fun hl => by cases hl
  · exact fun hl => by cases hl
  · rfl

theorem OpensLambda.opensCall (h : source.OpensLambda n tokens tree builders) :
    opensCall tokens = true := by
  obtain ⟨brace, behind, _, _, rfl, ho, _⟩ := h
  exact opensCall_of_opening (.inr ho) behind

end Source

namespace TypeNames

variable {sign : String}

theorem exists_tokens_namesLayout (sign : String) (gap : Gap) (name : Identifier)
    (more : List (Gap × Identifier)) (start : Nat) :
    ∃ behind nameStart stop, (namesLayout sign ((gap, name) :: more)).tokens start =
      ⟨.operator sign, ⟨start, behind⟩⟩ :: (gap.layout.tokens behind ++
        ⟨.identifier name.text, ⟨nameStart, stop⟩⟩ :: (namesLayout "," more).tokens stop) := by
  rw [namesLayout, Layout.sign, Layout.tokens, Layout.tokens_append]
  exact ⟨_, _, _, rfl⟩

theorem settled_namesLayout (names : List (Gap × Identifier)) (ha : Settled after) (start : Nat) :
    Settled ((namesLayout "," names).tokens start ++ after) := by
  cases names with
  | nil => exact ha
  | cons entry more =>
    obtain ⟨behind, nameStart, stop, ht⟩ :=
      exists_tokens_namesLayout "," entry.1 entry.2 more start
    rw [ht]
    exact settled_of_head _ (fun hl => by cases hl) rfl rfl

/-- Names that are no list of types are expressions without builders, and so are their signs. -/
theorem continues_namesLayout (names : List (Gap × Identifier)) (hs : sign = "<" ∨ sign = ",")
    (ha : Settled after)
    (h : ∀ carried prior, source.Continues (n + 1) carried ⟨prior, after⟩ builders) (start : Nat) :
    ∀ carried prior, source.Continues (n + 1) carried
      ⟨prior, (namesLayout sign names).tokens start ++ after⟩ builders := by
  -- From the back: each sign and each name is an expression of its own in front of the rest.
  induction names generalizing sign start with
  | nil => exact h
  | cons entry more ih =>
    obtain ⟨gap, name⟩ := entry
    obtain ⟨behind, nameStart, stop, ht⟩ := exists_tokens_namesLayout sign gap name more start
    have hend : ((Cursor.mk stop ((namesLayout "," more).tokens stop ++ after))).EndsExpression :=
      (settled_namesLayout more ha stop).endsExpression stop
    have hname := Source.Continues.name name.text ⟨nameStart, stop⟩
      (ih (.inr rfl) stop) hend.toEndsName ⟨hend.member, hend.index⟩
    have hgap := Source.Continues.blank (Lexeme.starts_of_isPlain rfl _) hname gap.blank_layout
    have hhead : Settled (⟨.identifier name.text, ⟨nameStart, stop⟩⟩ ::
        ((namesLayout "," more).tokens stop ++ after)) :=
      settled_of_head _ (fun hl => by cases hl) rfl rfl
    have hne : sign ≠ ";" := by rcases hs with rfl | rfl <;> decide
    intro carried prior
    rw [ht, List.cons_append, List.append_assoc, List.cons_append]
    exact Source.Continues.sign sign ⟨start, behind⟩
      (fun carried prior => hgap carried prior behind) hne
      ((hhead.blank gap.blank_layout behind).endsSuffixes behind) carried prior

theorem exists_tokens_layout (types : TypeNames) (start : Nat) :
    ∃ close stop, types.layout.tokens start =
      (namesLayout "<" (types.first :: types.more)).tokens start ++
        (types.beforeClose.layout.tokens close ++ [⟨.operator ">", stop⟩]) := by
  rw [layout, Layout.tokens_append, Layout.tokens_append]
  exact ⟨_, _, rfl⟩

/-- What would be a list of types in front of a lambda leaves its builders as they are. -/
theorem continues (types : TypeNames) (h : source.OpensLambda n tokens tree builders)
    (start : Nat) (carried : Bool) (prior : Nat) :
    source.Continues (n + 1) carried ⟨prior, types.layout.tokens start ++ tokens⟩
      (tree.placed.builders ++ builders) := by
  obtain ⟨close, stop, ht⟩ := types.exists_tokens_layout start
  have hclose := Source.Continues.sign ">" stop h.continues (by decide)
    (h.endsSuffixes stop.stop)
  have hstarts : Setting.statement.Starts (.operator ">") :=
    ⟨by decide, by decide, rfl⟩
  have hgap := Source.Continues.blank hstarts hclose types.beforeClose.blank_layout
  have hhead : Settled (⟨.operator ">", stop⟩ :: tokens) :=
    settled_of_head _ (fun hl => by cases hl) rfl rfl
  rw [ht, List.append_assoc, List.append_assoc]
  exact continues_namesLayout _ (.inl rfl) (hhead.blank types.beforeClose.blank_layout close)
    (fun carried prior => hgap carried prior close) start carried prior

def inner (types : TypeNames) : Layout :=
  types.first.1.layout ++ types.first.2.piece ::
    (namesLayout "," types.more ++ types.beforeClose.layout)

theorem layout_eq (types : TypeNames) : types.layout = less :: (types.inner ++ [greater]) := by
  obtain ⟨⟨gap, name⟩, more, beforeClose⟩ := types
  simp only [layout, namesLayout, inner, List.cons_append, List.append_assoc]
  rfl

theorem isBetween_of_gap {gap : Gap} {word : Lexeme} (h : .word word ∈ gap.layout) :
    word.isBetween = true := by
  rw [gap.blank_layout.words word (mem_words.2 h)]
  rfl

theorem isBetween_of_names {names : List (Gap × Identifier)} {word : Lexeme}
    (h : .word word ∈ namesLayout "," names) : word.isBetween = true := by
  induction names with
  | nil => cases h
  | cons entry more ih =>
    rw [namesLayout, List.mem_cons, List.mem_append, List.mem_cons] at h
    rcases h with h | h | h | h
    · cases h
      decide
    · exact isBetween_of_gap h
    · cases h
      rfl
    · exact ih h

theorem isBetween_of_inner {types : TypeNames} {word : Lexeme} (h : .word word ∈ types.inner) :
    word.isBetween = true := by
  rw [inner, List.mem_append, List.mem_cons, List.mem_append] at h
  rcases h with h | h | h | h
  · exact isBetween_of_gap h
  · cases h
    rfl
  · exact isBetween_of_names h
  · exact isBetween_of_gap h

theorem lineBreak_mem_names {names : List (Gap × Identifier)} :
    .word .lineBreak ∈ namesLayout sign names ↔ names.any (·.1.breaks) = true := by
  induction names generalizing sign with
  | nil => simp [namesLayout]
  | cons entry more ih =>
    have hs : Piece.word .lineBreak ≠ Layout.sign sign := fun h => by cases h
    have hn : Piece.word .lineBreak ≠ entry.2.piece := fun h => by cases h
    simp [namesLayout, hs, hn, ih, ← mem_words, Gap.lineBreak_mem_words]

theorem lineBreak_mem_inner {types : TypeNames} :
    .word .lineBreak ∈ types.inner ↔ types.breaks = true := by
  have hn : Piece.word .lineBreak ≠ types.first.2.piece := fun h => by cases h
  rw [inner, List.mem_append, List.mem_cons, List.mem_append, lineBreak_mem_names, ← mem_words,
    ← mem_words, Gap.lineBreak_mem_words, Gap.lineBreak_mem_words, or_iff_right hn, breaks,
    List.any_cons, Bool.or_eq_true, Bool.or_eq_true, or_assoc]

/-- A line break keeps a list in front of a call from being a list of types. -/
theorem readTypeArguments_eq (types : TypeNames) (ho : opensCall after = true) (start : Nat) :
    ∃ (spans : List Span) (stop : Nat),
      readTypeArguments ⟨start, types.layout.tokens start ++ after⟩ =
      if types.breaks then ([], ⟨start, types.layout.tokens start ++ after⟩)
      else (spans.map .typeArgument, ⟨stop, after⟩) := by
  have htokens : ∃ behind close, types.layout.tokens start ++ after =
      ⟨.operator "<", ⟨start, behind⟩⟩ :: (types.inner.tokens behind ++
        ⟨.operator ">", close⟩ :: after) := by
    rw [layout_eq, less, Layout.tokens, Layout.tokens_append]
    exact ⟨_, _, by rw [List.cons_append, List.append_assoc]; rfl⟩
  obtain ⟨behind, close, ht⟩ := htokens
  have hword {token : Token} (hm : token ∈ types.inner.tokens behind) :
      .word token.lexeme ∈ types.inner := by
    rw [← mem_words, ← map_lexeme_tokens _ behind]
    exact List.mem_map_of_mem hm
  have hbetween : ∀ token ∈ types.inner.tokens behind, token.lexeme.isBetween = true :=
    fun token hm => isBetween_of_inner (hword hm)
  have hany : (types.inner.tokens behind).any (·.lexeme.isLineBreak) = types.breaks := by
    rw [Bool.eq_iff_iff, ← lineBreak_mem_inner, ← mem_words, ← map_lexeme_tokens _ behind,
      List.any_eq_true, List.mem_map]
    simp only [Lexeme.isLineBreak_iff]
  have hclose : closeAngle 0 (types.inner.tokens behind ++ ⟨.operator ">", close⟩ :: after) =
      if types.breaks then none
      else some (types.inner.tokens behind, ⟨.operator ">", close⟩, after) := by
    rw [closeAngle_eq hbetween rfl, hany]
  refine ⟨(typeSegments 0 (types.inner.tokens behind)).filterMap Span.ofTokens?, close.stop, ?_⟩
  rw [ht]
  cases hb : types.breaks with
  | true =>
    rw [hb, if_pos rfl] at hclose
    rw [if_pos rfl]
    apply readTypeArguments_of_not_closed
    intro _ _ _ hfound
    rw [hclose] at hfound
    cases hfound
  | false =>
    rw [hb, if_neg Bool.false_ne_true] at hclose
    rw [if_neg Bool.false_ne_true]
    exact readTypeArguments_of_closeAngle rfl rfl hclose ho

end TypeNames

namespace Header

variable {header : Header}

theorem readTypeArguments_eq (header : Header) (ho : opensCall after = true) (start : Nat) :
    ∃ (spans : List Span) (stop : Nat),
      readTypeArguments ⟨start, header.typesLayout.tokens start ++ after⟩ =
      if header.types.any TypeNames.breaks then
        ([], ⟨start, header.typesLayout.tokens start ++ after⟩)
      else (spans.map .typeArgument, ⟨stop, after⟩) := by
  rw [typesLayout]
  cases header.types with
  | some types => exact types.readTypeArguments_eq ho start
  | none =>
    refine ⟨[], start, readTypeArguments_of_head fun token ht he => ?_⟩
    cases after with
    | nil => cases ht
    | cons first after =>
      cases ht
      rw [opensCall, he] at ho
      cases ho

theorem exists_tokens_layout (header : Header) :
    ∃ stop dot behind name next, header.layout.tokens 0 =
      ⟨.identifier "StateMachine", ⟨0, stop⟩⟩ :: (header.beforeDot.layout.tokens stop ++
        ⟨.operator ".", ⟨dot, behind⟩⟩ :: (header.afterDot.layout.tokens behind ++
          ⟨.identifier "create", ⟨name, next⟩⟩ :: header.typesLayout.tokens next)) := by
  have ht (start : Nat) : Layout.tokens start (header.typesLayout ++ [.space]) =
      header.typesLayout.tokens start := by
    rw [Layout.tokens_append]
    exact List.append_nil _
  rw [layout, Identifier.piece, Layout.tokens, Layout.tokens_append, Layout.dot, Layout.tokens,
    Layout.tokens_append, Identifier.piece, Layout.tokens, ht]
  exact ⟨_, _, _, _, _, rfl⟩

/-- With neither a line break behind the dot nor one in the list of types, the lambda is the body
of a machine. -/
theorem continues_of_shown (hh : header.hides = false)
    (h : source.OpensLambda n tokens tree builders) :
    ∃ place, source.Continues (n + 1) false ⟨0, header.layout.tokens 0 ++ tokens⟩
      (tree.placed.builders ++ (place, ⟨[], some tree.placed⟩) :: builders) := by
  obtain ⟨hdot, htypes⟩ := Bool.or_eq_false_iff.1 hh
  obtain ⟨stop, dot, behind, name, next, ht⟩ := header.exists_tokens_layout
  obtain ⟨spans, last, hr⟩ := header.readTypeArguments_eq h.opensCall next
  rw [htypes] at hr
  obtain ⟨lambda, mid, rfl, hb, hn⟩ := h.named hr "create" ⟨name, next⟩
  rw [show bareName "create" = "create" from Word.create.bareName_text] at hn
  obtain ⟨item, final, rest, hs, hc, he⟩ := hb (.memberAccess ⟨0, mid.previousEnd⟩
    (.identifier ⟨0, stop⟩ "StateMachine") (.call ⟨name, mid.previousEnd⟩
      (.identifier ⟨name, next⟩ "create") (spans.map .typeArgument) [] (some lambda)) false) rfl rfl
  obtain ⟨place, hplace⟩ := source.buildersIn_create ⟨0, mid.previousEnd⟩
    ⟨0, stop⟩ ⟨name, mid.previousEnd⟩ ⟨name, next⟩ spans lambda
  have hd := Source.derives_create ⟨0, stop⟩ ⟨name, next⟩ header.beforeDot.blank_layout stop
    ⟨dot, behind⟩ hn hs
  have hstarts : Setting.statement.Starts (.identifier "StateMachine") :=
    Lexeme.starts_of_isPlain rfl _
  have hitem := hc.uncarried hstarts rfl hd false 0
  rw [he, hplace, List.append_assoc, Source.buildersIn] at hitem
  refine ⟨place, ?_⟩
  rw [ht, Gap.tokens_layout hdot]
  simpa only [List.cons_append, List.append_assoc, List.nil_append] using hitem

theorem exists_types (ht : header.types.any TypeNames.breaks = true) :
    ∃ types : TypeNames, header.typesLayout = types.layout := by
  rw [typesLayout]
  cases hh : header.types with
  | none =>
    rw [hh] at ht
    cases ht
  | some types => exact ⟨types, rfl⟩

theorem endsName (ht : header.types.any TypeNames.breaks = true) (ho : opensCall after = true)
    (start : Nat) : (Cursor.mk start (header.typesLayout.tokens start ++ after)).EndsName := by
  obtain ⟨_, _, hr⟩ := header.readTypeArguments_eq ho start
  rw [ht, if_pos rfl] at hr
  have hh : ∀ token ∈ (header.typesLayout.tokens start ++ after).head?,
      token.lexeme.isOpening = false := by
    obtain ⟨types, he⟩ := exists_types ht
    rw [he, TypeNames.layout_eq]
    intro token hm
    cases hm
    rfl
  exact ⟨hr, Cursor.not_opens hh _, Cursor.not_opens hh _⟩

theorem endsSuffixes (ht : header.types.any TypeNames.breaks = true) (start : Nat) :
    (Cursor.mk start (header.typesLayout.tokens start ++ after)).EndsSuffixes := by
  obtain ⟨types, he⟩ := exists_types ht
  rw [he, TypeNames.layout_eq]
  exact endsSuffixes_of_head (fun hl => by cases hl) (fun hl => by cases hl) rfl start

theorem continues_create (header : Header) (h : source.OpensLambda n tokens tree builders)
    (name next : Nat) (carried : Bool) (prior : Nat) :
    source.Continues (n + 1) carried
      ⟨prior, ⟨.identifier "create", ⟨name, next⟩⟩ :: (header.typesLayout.tokens next ++ tokens)⟩
      (tree.placed.builders ++ builders) := by
  cases ht : header.types.any TypeNames.breaks with
  | false =>
    obtain ⟨spans, last, hr⟩ := header.readTypeArguments_eq h.opensCall next
    rw [ht] at hr
    exact h.continues_call hr "create" carried prior
  | true =>
    obtain ⟨types, he⟩ := exists_types ht
    refine Source.Continues.name "create" ⟨name, next⟩ (fun carried prior => ?_)
      (endsName ht h.opensCall next) (endsSuffixes ht next) carried prior
    rw [he]
    exact types.continues h next carried prior

/-- A line break behind the dot keeps what stands there from being a member. -/
theorem continues_of_dot (header : Header) (hb : header.afterDot.breaks = true) (name : Span)
    (h : ∀ carried prior, source.Continues (n + 1) carried
      ⟨prior, ⟨.identifier "create", name⟩ :: rest⟩ builders) (stop behind : Nat) (dot : Span) :
    source.Continues (n + 1) false
      ⟨0, ⟨.identifier "StateMachine", ⟨0, stop⟩⟩ :: (header.beforeDot.layout.tokens stop ++
        ⟨.operator ".", dot⟩ :: (header.afterDot.layout.tokens behind ++
          ⟨.identifier "create", name⟩ :: rest))⟩ builders := by
  have hdotStarts : Setting.statement.Starts (.operator ".") := ⟨by decide, by decide, rfl⟩
  have hhead : Settled (⟨.identifier "create", name⟩ :: rest) :=
    settled_of_head _ (fun hl => by cases hl) rfl rfl
  have hgap := Source.Continues.blank (Lexeme.starts_of_isPlain rfl _) h
    header.afterDot.blank_layout
  have hdot := Source.Continues.sign "." dot (fun carried prior => hgap carried prior behind)
    (by decide) ((hhead.blank header.afterDot.blank_layout behind).endsSuffixes dot.stop)
  have hbefore := Source.Continues.blank hdotStarts hdot header.beforeDot.blank_layout
  have hends : ∀ token ∈ (header.beforeDot.layout.tokens stop ++ ⟨.operator ".", dot⟩ ::
      (header.afterDot.layout.tokens behind ++ ⟨.identifier "create", name⟩ :: rest)).head?,
      token.lexeme.followsName = true :=
    header.beforeDot.blank_layout.followsName (fun token ht => by cases ht; rfl) stop
  refine Source.Continues.name "StateMachine" ⟨0, stop⟩
    (fun carried prior => hbefore carried prior stop) (Cursor.endsName_of_head hends)
    ⟨?_, Cursor.not_indexed hends⟩ false 0
  obtain ⟨token, more, ht, hl⟩ := Gap.exists_lineBreak hb behind
  rw [memberAhead?]
  dsimp only
  rw [List.dropWhile_append_of_pos fun token hm => by
    rw [header.beforeDot.blank_layout.lineBreaks token hm]; rfl, ht]
  simp only [List.dropWhile, Lexeme.isLineBreak, List.cons_append, hl]

/-- With a line break behind the dot or in the list of types, the lambda is no body of a machine;
what stands in it and behind it is read all the same. -/
theorem continues_of_hidden (hh : header.hides = true)
    (h : source.OpensLambda n tokens tree builders) :
    source.Continues (n + 1) false ⟨0, header.layout.tokens 0 ++ tokens⟩
      (tree.placed.builders ++ builders) := by
  obtain ⟨stop, dot, behind, name, next, ht⟩ := header.exists_tokens_layout
  simp only [ht, List.cons_append, List.append_assoc]
  cases hb : header.afterDot.breaks with
  | true =>
    exact continues_of_dot header hb ⟨name, next⟩ (header.continues_create h name next) stop behind
      ⟨dot, behind⟩
  | false =>
    rw [hides, hb, Bool.false_or] at hh
    obtain ⟨types, he⟩ := exists_types hh
    have hn : Derives source n (.named "create" ⟨name, next⟩
        ⟨next, header.typesLayout.tokens next ++ tokens⟩
        (.identifier ⟨name, next⟩ (bareName "create"))
        ⟨next, header.typesLayout.tokens next ++ tokens⟩) :=
      (endsName hh h.opensCall next).named "create" ⟨name, next⟩
    rw [show bareName "create" = "create" from Word.create.bareName_text] at hn
    have hs : (Cursor.mk next (header.typesLayout.tokens next ++ tokens)).EndsSuffixes :=
      endsSuffixes hh next
    have hd := Source.derives_create ⟨0, stop⟩ ⟨name, next⟩ header.beforeDot.blank_layout stop
      ⟨dot, behind⟩ hn (.noSuffix hs.member hs.index)
    have hstarts : Setting.statement.Starts (.identifier "StateMachine") :=
      Lexeme.starts_of_isPlain rfl _
    have hc := types.continues h next false next
    rw [← he] at hc
    have hitem := hc.uncarried hstarts rfl hd false 0
    rw [Source.buildersIn_names, List.nil_append] at hitem
    rw [Gap.tokens_layout hb]
    exact hitem

end Header

end StateDiagram
