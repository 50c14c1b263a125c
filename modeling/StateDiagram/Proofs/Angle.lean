import StateDiagram.Proofs.Segment

namespace StateDiagram

set_option autoImplicit true

/-- By how much the token changes the nesting of angle brackets. -/
def Lexeme.angle : Lexeme → Int
  | .operator text => if text = "<" then 1 else if text = ">" then -1 else 0
  | _ => 0

def Token.nesting : List Token → Int
  | [] => 0
  | token :: tokens => token.lexeme.angle + nesting tokens

@[simp] theorem nesting_nil : Token.nesting [] = 0 := rfl

@[simp] theorem nesting_cons (token : Token) (tokens : List Token) :
    Token.nesting (token :: tokens) = token.lexeme.angle + Token.nesting tokens := rfl

@[simp] theorem nesting_append (tokens more : List Token) :
    Token.nesting (tokens ++ more) = Token.nesting tokens + Token.nesting more := by
  induction tokens with
  | nil => rw [List.nil_append, nesting_nil, Int.zero_add]
  | cons token tokens ih => rw [List.cons_append, nesting_cons, ih, nesting_cons, Int.add_assoc]

theorem nesting_snoc (tokens : List Token) (token : Token) :
    Token.nesting (tokens ++ [token]) = Token.nesting tokens + token.lexeme.angle := by
  rw [nesting_append, nesting_cons, nesting_nil, Int.add_zero]

/-- Behind tokens of the given nesting, `close` is the first token at which the nesting is zero, and
only parts of types stand in front of it. -/
structure Returns (level : Int) (tokens inside : List Token) (close : Token) (rest : List Token) :
    Prop where
  tokens_eq : tokens = inside ++ close :: rest
  returns : level + Token.nesting (inside ++ [close]) = 0
  first : ∀ front, front <+: inside → level + Token.nesting front ≠ 0
  parts : ∀ token ∈ inside, token.lexeme.isTypePart = true

/-- A list of type arguments stands behind the opening angle bracket, and a call follows. -/
structure TypesAhead (opener : Token) (tokens inside : List Token) (close : Token)
    (rest : List Token) : Prop extends Returns opener.lexeme.angle tokens inside close rest where
  opens : opensCall rest = true

/-- A comma within a single pair of angle brackets. -/
def Token.endsType : Token.Cut := fun front token _ =>
  token.lexeme == .operator "," && Token.nesting front == 1

def typeArguments (opener : Token) (inside : List Token) : List Outline :=
  ((Token.segments Token.endsType [opener] inside).filterMap Span.ofTokens?).map .typeArgument

section

variable {level : Int} {token first close : Token} {tokens inside rest : List Token}

theorem returns_nil_iff : Returns level (token :: tokens) [] close rest ↔
    token = close ∧ tokens = rest ∧ level + token.lexeme.angle = 0 ∧ level ≠ 0 := by
  constructor
  · rintro ⟨ht, hr, hf, -⟩
    cases ht
    have hl := hf [] List.prefix_rfl
    simp only [nesting_nil, List.nil_append, nesting_cons] at hr hl
    exact ⟨rfl, rfl, by omega, by omega⟩
  · rintro ⟨rfl, rfl, hr, hl⟩
    refine ⟨rfl, by simpa using hr, ?_, List.forall_mem_nil _⟩
    intro front hp
    rw [List.prefix_nil.1 hp]
    simpa using hl

theorem returns_cons_iff : Returns level (token :: tokens) (first :: inside) close rest ↔
    token = first ∧ token.lexeme.isTypePart = true ∧ level ≠ 0 ∧
      Returns (level + token.lexeme.angle) tokens inside close rest := by
  constructor
  · rintro ⟨ht, hr, hf, hp⟩
    cases ht
    obtain ⟨hpart, hp⟩ := List.forall_mem_cons.1 hp
    have hl := hf [] (List.nil_prefix)
    refine ⟨rfl, hpart, by simpa using hl, rfl, ?_, ?_, hp⟩
    · rw [List.cons_append, nesting_cons] at hr
      omega
    · intro front hpre
      have hne := hf (token :: front) (List.prefix_cons_inj token |>.2 hpre)
      rw [nesting_cons] at hne
      omega
  · rintro ⟨rfl, hpart, hl, rfl, hr, hf, hp⟩
    refine ⟨rfl, ?_, ?_, List.forall_mem_cons.2 ⟨hpart, hp⟩⟩
    · rw [List.cons_append, nesting_cons]
      omega
    · intro front hpre
      cases front with
      | nil => simpa using hl
      | cons other front =>
        obtain ⟨rfl, hfront⟩ := List.cons_prefix_cons.1 hpre
        have hne := hf front hfront
        rw [nesting_cons]
        omega

theorem isTypePart_of_angle {lexeme : Lexeme} (h : lexeme.angle ≠ 0) :
    lexeme.isTypePart = true := by
  rw [Lexeme.angle.eq_def] at h
  split at h
  · next text =>
    split at h
    · next hl =>
      subst hl
      rfl
    · split at h
      · next hg =>
        subst hg
        rfl
      · exact (h rfl).elim
  · exact (h rfl).elim

theorem neg_one_le_angle (lexeme : Lexeme) : -1 ≤ lexeme.angle := by
  rw [Lexeme.angle.eq_def]
  split
  · split
    · decide
    · split <;> decide
  · decide

theorem closeAngle_cons (depth : Nat) (token : Token) (tokens : List Token) :
    closeAngle depth (token :: tokens) =
      if token.lexeme.isTypePart = false then none
      else if (depth : Int) + 1 + token.lexeme.angle = 0 then some ([], token, tokens)
      else (closeAngle ((depth : Int) + token.lexeme.angle).toNat tokens).map fun found =>
        (token :: found.1, found.2) := by
  have hpos : (depth : Int) + 1 + 0 ≠ 0 := by omega
  rw [closeAngle.eq_def]
  dsimp only
  split
  · next text ht =>
    have ha : token.lexeme.angle = 0 := by rw [ht]; rfl
    have hp : token.lexeme.isTypePart = true := by rw [ht]; rfl
    rw [ha, hp, if_neg Bool.false_ne_true.symm, if_neg hpos, Int.add_zero, Int.toNat_natCast]
  · next text ht =>
    rw [ht, Lexeme.isTypePart, Lexeme.angle]
    by_cases hl : text = "<"
    · have hlevel : (depth : Int) + 1 + 1 ≠ 0 := by omega
      have hpart : ("<" == "<" || "<" == ">" || typeOperators.contains "<") = true := rfl
      subst hl
      rw [if_pos rfl, if_pos rfl, hpart, if_neg Bool.false_ne_true.symm, if_neg hlevel]
      rfl
    · by_cases hg : text = ">"
      · have hpart : (">" == "<" || ">" == ">" || typeOperators.contains ">") = true := rfl
        subst hg
        rw [if_neg hl, if_pos rfl, if_neg hl, if_pos rfl, hpart, if_neg Bool.false_ne_true.symm]
        cases depth with
        | zero => rfl
        | succ depth =>
          have hlevel : ((depth + 1 : Nat) : Int) + 1 + -1 ≠ 0 := by omega
          have hn : (((depth + 1 : Nat) : Int) + -1).toNat = depth := by omega
          rw [if_neg hlevel, hn]
      · rw [if_neg hl, if_neg hg, if_neg hl, if_neg hg, if_neg hpos, Int.add_zero,
          Int.toNat_natCast, beq_false_of_ne hl, beq_false_of_ne hg]
        cases typeOperators.contains text <;> rfl
  · next hi ho =>
    have hn : token.lexeme.isTypePart = false := by
      rw [Lexeme.isTypePart.eq_def]
      split
      · next he => exact (hi _ he).elim
      · next he => exact (ho _ he).elim
      · rfl
    rw [hn, if_pos rfl]

/-- The search for the end of a list finds where the nesting returns to zero. -/
theorem closeAngle_eq_some_iff {depth : Nat} : closeAngle depth tokens = some (inside, close, rest) ↔
    Returns (depth + 1) tokens inside close rest := by
  induction tokens generalizing depth inside with
  | nil =>
    constructor
    · nofun
    · intro h
      have ht := h.tokens_eq
      cases inside <;> cases ht
  | cons token tokens ih =>
    have hlevel (hz : (depth : Int) + 1 + token.lexeme.angle ≠ 0) :
        ((((depth : Int) + token.lexeme.angle).toNat : Nat) : Int) + 1 =
          (depth : Int) + 1 + token.lexeme.angle := by
      have hle := neg_one_le_angle token.lexeme
      omega
    rw [closeAngle_cons]
    cases inside with
    | nil =>
      rw [returns_nil_iff]
      constructor
      · intro h
        split at h
        · cases h
        · split at h
          · next hz =>
            cases h
            exact ⟨rfl, rfl, hz, by omega⟩
          · obtain ⟨found, -, he⟩ := Option.map_eq_some_iff.1 h
            cases he
      · rintro ⟨rfl, rfl, hz, -⟩
        have hp : token.lexeme.isTypePart = true := by
          apply isTypePart_of_angle
          omega
        rw [hp, if_neg Bool.false_ne_true.symm, if_pos hz]
    | cons first inside =>
      rw [returns_cons_iff]
      constructor
      · intro h
        split at h
        · cases h
        · next hp =>
          split at h
          · cases h
          · next hz =>
            obtain ⟨inside', he, hf⟩ := map_closeAngle h
            cases he
            have hr := ih.1 hf
            rw [hlevel hz] at hr
            exact ⟨rfl, by simpa using hp, by omega, hr⟩
      · rintro ⟨rfl, hp, -, hr⟩
        have hz : (depth : Int) + 1 + token.lexeme.angle ≠ 0 := by
          simpa using hr.first [] List.nil_prefix
        rw [← hlevel hz] at hr
        rw [hp, if_neg Bool.false_ne_true.symm, if_neg hz, ih.2 hr]
        rfl

/-- The depth behind the token is counted exactly unless the token closes the list. -/
theorem depth_of_angle {depth : Nat} (h : (depth : Int) + 1 + token.lexeme.angle ≠ 0) :
    ((if token.lexeme = .operator "<" then depth + 1
      else if token.lexeme = .operator ">" then depth - 1 else depth : Nat) : Int) =
        (depth : Int) + token.lexeme.angle := by
  by_cases hl : token.lexeme = .operator "<"
  · have ha : token.lexeme.angle = 1 := by rw [hl]; rfl
    rw [if_pos hl, ha]
    rfl
  · by_cases hg : token.lexeme = .operator ">"
    · have ha : token.lexeme.angle = -1 := by rw [hg]; rfl
      rw [if_neg hl, if_pos hg]
      omega
    · have ha : token.lexeme.angle = 0 := by
        rw [Lexeme.angle.eq_def]
        split
        · next text ht =>
          rw [if_neg fun he => hl (by rw [ht, he]), if_neg fun he => hg (by rw [ht, he])]
        · rfl
      rw [if_neg hl, if_neg hg, ha, Int.add_zero]

/-- Where the nesting does not return to zero, the commas are found at the right depth. -/
theorem typeSegments_eq {depth : Nat} {front : List Token}
    (hf : Token.nesting front = (depth : Int) + 1)
    (h : ∀ part, part <+: tokens → (depth : Int) + 1 + Token.nesting part ≠ 0) :
    typeSegments depth tokens = Token.segments Token.endsType front tokens := by
  induction tokens generalizing depth front with
  | nil => rfl
  | cons token tokens ih =>
    have htoken : (depth : Int) + 1 + token.lexeme.angle ≠ 0 := by
      simpa using h [token] (List.prefix_append [token] tokens)
    have hdepth := depth_of_angle htoken
    have hpart (part : List Token) (hp : part <+: tokens) :
        (depth : Int) + 1 + (token.lexeme.angle + Token.nesting part) ≠ 0 := by
      simpa using h (token :: part) (List.cons_prefix_cons.2 ⟨rfl, hp⟩)
    rw [typeSegments, Token.segments]
    by_cases hc : token.lexeme = .operator "," ∧ depth = 0
    · obtain ⟨ht, rfl⟩ := hc
      have ha : token.lexeme.angle = 0 := by rw [ht]; rfl
      have hcut : Token.endsType front token tokens = true := by
        rw [Token.endsType, ht, hf]
        rfl
      have hmore : typeSegments 0 tokens =
          Token.segments Token.endsType (front ++ [token]) tokens := by
        apply ih
        · simp [hf, ha]
        · intro part hp
          have hn := hpart part hp
          omega
      rw [if_pos ⟨ht, rfl⟩, if_pos hcut, hmore]
    · have hcut : Token.endsType front token tokens = false := by
        rw [Token.endsType, hf, Bool.and_eq_false_imp]
        intro ht
        rw [beq_eq_false_iff_ne]
        intro hd
        exact hc ⟨beq_iff_eq.1 ht, by omega⟩
      rw [if_neg hc, hcut]
      dsimp only
      generalize (if token.lexeme = .operator "<" then depth + 1
        else if token.lexeme = .operator ">" then depth - 1 else depth) = inner at hdepth ⊢
      have hmore : typeSegments inner tokens =
          Token.segments Token.endsType (front ++ [token]) tokens := by
        apply ih
        · rw [nesting_append, nesting_cons, nesting_nil]
          omega
        · intro part hp
          have hn := hpart part hp
          omega
      obtain ⟨segment, segments, hs⟩ := exists_typeSegments inner tokens
      rw [← hmore, hs]
      rfl

/-- A list of type arguments is taken exactly where there is one. -/
theorem readTypeArguments_eq_iff {opener : Token} {previousEnd : Nat} (tokens : List Token)
    (ho : opener.lexeme = .operator "<") (ht : opener.span.start = previousEnd) :
    (∀ inside close rest, TypesAhead opener tokens inside close rest →
      readTypeArguments ⟨previousEnd, opener :: tokens⟩ =
        (typeArguments opener inside, .past close rest)) ∧
    ((¬ ∃ inside close rest, TypesAhead opener tokens inside close rest) →
      readTypeArguments ⟨previousEnd, opener :: tokens⟩ =
        ([], ⟨previousEnd, opener :: tokens⟩)) := by
  have ha : opener.lexeme.angle = ((0 : Nat) : Int) + 1 := by rw [ho]; rfl
  constructor
  · intro inside close rest h
    have hr := h.toReturns
    rw [ha] at hr
    have hsegments : typeSegments 0 inside = Token.segments Token.endsType [opener] inside := by
      apply typeSegments_eq
      · rw [nesting_cons, nesting_nil, ha]
        rfl
      · exact hr.first
    rw [readTypeArguments_of_closeAngle ho ht (closeAngle_eq_some_iff.2 hr) h.opens, hsegments,
      typeArguments]
  · intro hn
    apply readTypeArguments_of_not_closed
    intro inside close rest hc
    have hr := closeAngle_eq_some_iff.1 hc
    rw [← ha] at hr
    rw [Bool.eq_false_iff]
    exact fun hopens => hn ⟨inside, close, rest, hr, hopens⟩

end

theorem some_of_opensCall {cursor mid next : Cursor} {values : Option (List Outline)}
    {lambda : Option Outline} {readArgument readLambda : Reader} (ho : opensCall cursor.rest = true)
    (hv : readCallArguments readArgument cursor = some (values, mid))
    (hl : readTrailingLambda readLambda mid = some (lambda, next)) :
    (values.isNone && lambda.isNone) = false := by
  obtain ⟨token, rest, hr, ht⟩ := exists_of_opensCall ho
  by_cases hround : token.lexeme = .opening .round
  · rw [readCallArguments_of_opens hr hround, Option.map_eq_some_iff] at hv
    obtain ⟨_, _, he⟩ := hv
    cases he
    rfl
  · rw [readCallArguments_of_not_opens (Cursor.not_opens_cons hr hround)] at hv
    cases hv
    rw [readTrailingLambda_of_opens hr (ht.resolve_left hround), Option.map_eq_some_iff] at hl
    obtain ⟨_, _, he⟩ := hl
    cases he
    rfl

theorem readNamed_of_opensCall (interior : Interior) (text : String) (span : Span)
    {cursor behind : Cursor} {types : List Outline}
    (ht : readTypeArguments cursor = (types, behind)) (ho : opensCall behind.rest = true) :
    readNamed interior text span cursor = do
      let (values, afterValues) ← readCallArguments interior.argument behind
      let (lambda, next) ← readTrailingLambda interior.lambda afterValues
      return (.call ⟨span.start, next.previousEnd⟩ (.identifier span (bareName text)) types
        (values.getD []) lambda, next) := by
  rw [readNamed, ht]
  dsimp only
  cases hv : readCallArguments interior.argument behind with
  | none => rfl
  | some found =>
    obtain ⟨values, afterValues⟩ := found
    cases hl : readTrailingLambda interior.lambda afterValues with
    | none => simp [hl]
    | some found =>
      obtain ⟨lambda, next⟩ := found
      have hs : (types.isEmpty && values.isNone && lambda.isNone) = false := by
        rw [Bool.and_assoc, some_of_opensCall ho hv hl, Bool.and_false]
      dsimp only
      rw [hl]
      dsimp only
      rw [hs, if_neg Bool.false_ne_true]
      simp [hl]

/-- A name in front of an angle bracket that opens no list of types stands for itself. -/
theorem readNamed_of_less (interior : Interior) (text : String) (span : Span) {cursor : Cursor}
    (ht : readTypeArguments cursor = ([], cursor)) (hr : cursor.rest = opener :: tokens)
    (ho : opener.lexeme = .operator "<") :
    readNamed interior text span cursor = some (.identifier span (bareName text), cursor) := by
  have hnot (bracket : Bracket) : ¬ cursor.opens bracket := by
    apply Cursor.not_opens_cons hr
    rw [ho]
    exact nofun
  rw [readNamed, ht]
  dsimp only
  rw [readCallArguments_of_not_opens (hnot _)]
  dsimp only
  rw [readTrailingLambda_of_not_opens (hnot _)]
  rfl

/-- Tokens with all angle brackets closed, and outside of them with commas only if `commas` says
so. -/
inductive Nested : Bool → List Token → Prop where
  | nil : Nested commas []
  | cons (hp : token.lexeme.isTypePart = true) (ha : token.lexeme.angle = 0)
      (hc : commas = true ∨ token.lexeme ≠ .operator ",") (h : Nested commas tokens) :
      Nested commas (token :: tokens)
  | angles (ho : opener.lexeme = .operator "<") (hi : Nested true inside)
      (hg : close.lexeme = .operator ">") (h : Nested commas tokens) :
      Nested commas (opener :: (inside ++ close :: tokens))

namespace Nested

variable {tokens more inside rest front back : List Token} {close : Token} {commas : Bool}

theorem append (h : Nested commas tokens) (hm : Nested commas more) :
    Nested commas (tokens ++ more) := by
  induction h with
  | nil => exact hm
  | cons hp ha hc _ ih => exact .cons hp ha hc (ih hm)
  | angles ho hi hg _ _ ih =>
    rw [List.cons_append, List.append_assoc, List.cons_append]
    exact .angles ho hi hg (ih hm)

theorem nesting_eq (h : Nested commas tokens) : Token.nesting tokens = 0 := by
  induction h with
  | nil => rfl
  | cons _ ha _ _ ih => rw [nesting_cons, ha, ih]; rfl
  | angles ho _ hg _ ihi ih =>
    rw [nesting_cons, nesting_append, nesting_cons, ho, hg, ihi, ih]
    rfl

theorem relax (h : Nested false tokens) : Nested true tokens := by
  generalize hb : false = commas at h
  induction h with
  | nil => exact .nil
  | cons hp ha _ _ ih => exact .cons hp ha (.inl rfl) (ih hb)
  | angles ho hi hg _ _ ih => exact .angles ho hi hg (ih hb)

/-- Closed brackets are passed on the way to the end of a list. -/
theorem returns (h : Nested commas tokens) (hl : 0 < level)
    (hr : Returns level more inside close rest) :
    Returns level (tokens ++ more) (tokens ++ inside) close rest := by
  induction h generalizing level more inside with
  | nil => exact hr
  | cons hp ha _ _ ih =>
    apply returns_cons_iff.2
    rw [ha, Int.add_zero]
    exact ⟨rfl, hp, by omega, ih hl hr⟩
  | angles ho _ hg _ ihi ih =>
    rw [List.cons_append, List.append_assoc, List.cons_append, List.cons_append, List.append_assoc,
      List.cons_append]
    have hopen : (Lexeme.operator "<").angle = 1 := rfl
    have hclose : (Lexeme.operator ">").angle = -1 := rfl
    apply returns_cons_iff.2
    rw [ho, hopen]
    refine ⟨rfl, rfl, by omega, ihi (by omega) (returns_cons_iff.2 ?_)⟩
    rw [hg, hclose]
    refine ⟨rfl, rfl, by omega, ?_⟩
    have hlevel : level + 1 + -1 = level := by omega
    rw [hlevel]
    exact ih hl hr

theorem not_endsType (h : token.lexeme ≠ .operator "," ∨ Token.nesting front ≠ 1) :
    Token.endsType front token back = false := by
  rw [Token.endsType, Bool.and_eq_false_imp]
  intro hc
  exact beq_eq_false_iff_ne.2 (h.resolve_left fun hn => hn (beq_iff_eq.1 hc))

theorem uncut (h : Nested commas tokens) (hf : 1 ≤ Token.nesting front)
    (hc : commas = true → 2 ≤ Token.nesting front) : Uncut Token.endsType front tokens back := by
  induction h generalizing front back with
  | nil => exact .nil
  | cons _ ha hcomma _ ih =>
    apply Uncut.cons
    · apply not_endsType
      rcases hcomma with ht | hn
      · have hlevel := hc ht
        exact .inr (by omega)
      · exact .inl hn
    · apply ih
      · rwa [nesting_snoc, ha, Int.add_zero]
      · rwa [nesting_snoc, ha, Int.add_zero]
  | angles ho hi hg _ ihi ih =>
    have hopen : (Lexeme.operator "<").angle = 1 := rfl
    have hclose : (Lexeme.operator ">").angle = -1 := rfl
    apply Uncut.cons
    · exact not_endsType (.inl (by rw [ho]; decide))
    · apply Uncut.append
      · apply ihi
        · rw [nesting_snoc, ho, hopen]
          omega
        · rw [nesting_snoc, ho, hopen]
          omega
      · apply Uncut.cons
        · exact not_endsType (.inl (by rw [hg]; decide))
        · have hlevel : Token.nesting front + 1 + 0 + -1 = Token.nesting front := by omega
          apply ih
          · rwa [nesting_snoc, nesting_append, nesting_snoc, ho, hg, hi.nesting_eq, hopen, hclose,
              hlevel]
          · rwa [nesting_snoc, nesting_append, nesting_snoc, ho, hg, hi.nesting_eq, hopen, hclose,
              hlevel]

end Nested

end StateDiagram
