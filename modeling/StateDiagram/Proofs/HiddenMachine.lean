import StateDiagram.Proofs.Hiding

namespace StateDiagram

set_option autoImplicit true

open Layout Text

section

variable {source : Source} {cursor next : Cursor} {token : Token} {rest : List Token}
  {node : Outline} {text : String} {span : Span} {carried : Bool}

theorem Derives.lambda_of_named (h : Derives source n (.named text span cursor node next))
    (hr : cursor.rest = token :: rest) (ho : token.lexeme = .opening .curly) :
    ∃ lambda, Derives source n (.lambda token (.past token rest) lambda next) ∧
      node = .call ⟨span.start, next.previousEnd⟩ (.identifier span (bareName text)) [] []
        (some lambda) := by
  have htypes : readTypeArguments cursor = ([], cursor) := by
    refine readTypeArguments_of_head fun first hm he => ?_
    rw [hr] at hm
    cases hm
    rw [ho] at he
    cases he
  have hcurly : cursor.opens .curly := ⟨token, rest, hr, ho⟩
  cases h with
  | identifier ht ha hl =>
    cases htypes.symm.trans ht
    cases ha
    cases hl with
    | noLambda hn => exact (hn hcurly).elim
  | call ht ha hl =>
    cases htypes.symm.trans ht
    cases ha with
    | arguments he hround =>
      rw [hr] at he
      cases he
      rw [ho] at hround
      cases hround
    | noArguments =>
      cases hl with
      | noLambda hn => exact (hn hcurly).elim
      | trailing he _ hd =>
        rw [hr] at he
        cases he
        exact ⟨_, hd, rfl⟩

end

namespace Builder

variable {front back : List (Place × Builder)} {builder : Builder} {place : Place}
  {before behind : List Machine} {machine : Machine}

theorem machine_eq_ok :
    Builder.machine (place, builder) = .ok machine ↔
      ∃ body, builder.body? = some body ∧ Machine.described body.statements = machine := by
  rw [Builder.machine]
  cases builder.body? with
  | none => simp
  | some body => simp

theorem machines_insert {own : Place × Builder} {machines : List Machine} :
    Builder.machines (front ++ own :: back) = .ok machines ↔
      ∃ before machine behind, Builder.machines front = .ok before ∧
        Builder.machine own = .ok machine ∧ Builder.machines back = .ok behind ∧
          machines = before ++ machine :: behind := by
  have hcons : Builder.machines (own :: back) = (do
      let machine ← Builder.machine own
      let behind ← Builder.machines back
      return machine :: behind) := List.mapM_cons
  rw [machines_append, hcons]
  constructor
  · intro h
    obtain ⟨before, hf, h⟩ := bind_eq_ok.1 h
    obtain ⟨second, hs, h⟩ := bind_eq_ok.1 h
    obtain ⟨machine, hm, hs⟩ := bind_eq_ok.1 hs
    obtain ⟨behind, hb, hs⟩ := bind_eq_ok.1 hs
    cases hs
    cases h
    exact ⟨before, machine, behind, hf, hm, hb, rfl⟩
  · rintro ⟨before, machine, behind, hf, hm, hb, rfl⟩
    rw [hf, hm, hb]
    rfl

/-- Where a builder stands does not matter to its machine. -/
theorem machines_of_moved (hf : Builder.machines front = .ok before)
    (hm : Builder.machine (place, builder) = .ok machine) (hb : Builder.machines back = .ok behind)
    (other : Place) :
    Builder.machines (front ++ (other, builder) :: back) = .ok (before ++ machine :: behind) :=
  machines_insert.2
    ⟨before, machine, behind, hf, machine_eq_ok.2 (machine_eq_ok.1 hm), hb, rfl⟩

theorem machines_of_removed (hf : Builder.machines front = .ok before)
    (hb : Builder.machines back = .ok behind) :
    Builder.machines (front ++ back) = .ok (before ++ behind) := by
  rw [machines_append, hf, hb]
  rfl

end Builder

namespace Header

def plain : Header := ⟨⟨"", rfl⟩, ⟨"", rfl⟩, none⟩

theorem opensLambda_of_plain {source : Source} {brace : Token} {behind : List Token}
    {nodes : List Outline} {last : Cursor}
    (h : Derives source limit (.statements none ⟨0, plain.layout.tokens 0 ++ brace :: behind⟩ nodes
      last)) (ho : brace.lexeme = .opening .curly) :
    ∃ n tree builders, limit = n + 1 ∧ source.OpensLambda n (brace :: behind) tree builders := by
  have hstarts : Setting.statement.Starts (.identifier "StateMachine") :=
    Lexeme.starts_of_isPlain rfl _
  obtain ⟨items, mid, more, hi, hn⟩ := h.statement_of_starts rfl hstarts
  obtain ⟨item, stop, others, he, hothers⟩ := hi.item_of_starts rfl hstarts
  obtain ⟨n, inner, dot, rfl, hnamed, hsuffixes⟩ := he.named_of_identifier rfl
  obtain ⟨rfl, rfl⟩ := hnamed.named_of_endsName (Cursor.endsName_of_head fun token ht => by
    cases ht
    rfl)
  obtain ⟨selector, next, hcreate, hs⟩ := hsuffixes.suffixes_of_member rfl
  obtain ⟨lambda, hl, rfl⟩ := hcreate.lambda_of_named rfl ho
  -- The name is no modifier, so that nothing is carried to what stands behind the item.
  have hcarry : (item.isToken && Lexeme.isCarrying (.identifier "StateMachine")) = false :=
    Bool.and_false _
  have hc : source.Continues (n + 1) false stop
      (others.flatMap source.buildersIn ++ more.flatMap source.buildersIn) := by
    rw [← hcarry]
    exact ⟨others, mid, more, last, hothers, hn, rfl⟩
  obtain ⟨builders, _, ht⟩ := Source.trails_of_suffixes hs rfl hc
  exact ⟨n, _, builders, rfl, brace, behind, lambda, next, rfl, ho, hl, rfl, ht⟩

theorem tokens_append (header : Header) (back : Source) :
    (Source.append ⟨header.layout.chars⟩ back).tokens = header.layout.tokens 0 ++
      back.tokens.map (Token.shift header.layout.size) :=
  Source.tokens_append (header.scanned back.text).lexical

variable {back : Source} {tree : Node String} {builders : List (Place × Builder)}

theorem opensLambda_append (header : Header) (h : back.OpensLambda n back.tokens tree builders) :
    (Source.append ⟨header.layout.chars⟩ back).OpensLambda n
      (back.tokens.map (Token.shift header.layout.size)) tree builders :=
  (Source.opensLambda_append ⟨header.layout.chars⟩ (List.Subset.refl back.tokens)).2 h

theorem exists_outline (header : Header)
    (h : (Source.append ⟨header.layout.chars⟩ back).Continues (n + 1) false
      ⟨0, header.layout.tokens 0 ++ back.tokens.map (Token.shift header.layout.size)⟩ builders) :
    ∃ outline, (Source.append ⟨header.layout.chars⟩ back).outline? (n + 1) = some outline ∧
      (Source.append ⟨header.layout.chars⟩ back).buildersIn outline = builders := by
  obtain ⟨_, _, _, _, _, ht⟩ := header.exists_tokens_layout
  rw [← header.tokens_append] at h
  have hhead := header.tokens_append back
  rw [ht] at hhead
  exact h.outline hhead (Lexeme.starts_of_isPlain rfl _)

end Header

theorem Source.exists_brace (rest : String) : ∃ brace behind,
    (Source.ofString ("\x7b" ++ rest)).tokens = brace :: behind ∧
      brace.lexeme = .opening .curly := by
  have htext : (Source.ofString ("\x7b" ++ rest)).text =
      (Lexeme.opening .curly).text.toList ++ normalizeLineEndings rest.toList := by
    rw [Source.ofString, String.toList_append]
    exact normalizeLineEndings_append (by decide) _
  rw [Source.tokens, htext, Token.scan_recognized (Lexeme.recognized_opening .curly _)]
  exact ⟨_, _, rfl, rfl⟩

/-- Behind the shortest header a lambda is read, and it is the body of one of the machines. -/
theorem exists_lambda_of_plain {limits : Limits} {rest : String} {machines : List Machine}
    (hl : limits.syntaxDepth ≤ limits.extractionDepth)
    (h : extractMachines limits ("StateMachine.create \x7b" ++ rest) = .ok machines) :
    ∃ n tree builders place, limits.syntaxDepth = n + 1 ∧
      (Source.ofString ("\x7b" ++ rest)).OpensLambda n (Source.ofString ("\x7b" ++ rest)).tokens
        tree builders ∧
      Builder.machines (tree.placed.builders ++ (place, ⟨[], some tree.placed⟩) :: builders) =
        .ok machines := by
  have htext : "StateMachine.create \x7b" ++ rest = Header.plain.print ++ ("\x7b" ++ rest) := by
    rw [← String.append_assoc]
    rfl
  have hwhole := Header.plain.ofString_print ("\x7b" ++ rest)
  rw [← htext] at hwhole
  obtain ⟨brace, behind, hb, ho⟩ := Source.exists_brace rest
  obtain ⟨_, hp, _⟩ := bind_eq_ok.1 h
  obtain ⟨outline, houtline, _⟩ := Source.parse_eq_ok_iff.1 hp
  have hm := (extractMachines_eq_ok_iff houtline hl).1 h
  rw [hwhole] at houtline hm
  obtain ⟨nodes, last, _, hd⟩ := Source.outline?_eq_some_iff.1 houtline
  rw [Header.tokens_append, hb] at hd
  obtain ⟨n, tree, builders, hn, hlambda⟩ := Header.opensLambda_of_plain hd ho
  rw [← List.map_cons, ← hb] at hlambda
  have hback := (Source.opensLambda_append _ (List.Subset.refl _)).1 hlambda
  have hshown : Header.plain.hides = false := rfl
  obtain ⟨place, hc⟩ := Header.continues_of_shown hshown (Header.plain.opensLambda_append hback)
  obtain ⟨outline', houtline', hbuilders⟩ := Header.plain.exists_outline hc
  rw [hn, houtline'] at houtline
  cases houtline
  rw [hbuilders] at hm
  exact ⟨n, tree, builders, place, hn, hback, hm⟩

/-- A header with no line break behind the dot or in its list of types gives the machines that the
shortest header gives. With such a line break one machine is missing, and so it is if there is no
header at all. -/
theorem extractMachines_header {limits : Limits} {rest : String} {machines : List Machine}
    (header : Header) (hl : limits.syntaxDepth ≤ limits.extractionDepth)
    (h : extractMachines limits ("StateMachine.create \x7b" ++ rest) = .ok machines) :
    (extractMachines limits (header.print ++ "\x7b" ++ rest) = .ok machines ↔
      header.hides = false) ∧
    (header.hides = true → ∃ before machine behind, machines = before ++ machine :: behind ∧
      extractMachines limits (header.print ++ "\x7b" ++ rest) = .ok (before ++ behind) ∧
      extractMachines limits ("\x7b" ++ rest) = .ok (before ++ behind)) := by
  obtain ⟨n, tree, builders, place, hn, hlambda, hmachines⟩ := exists_lambda_of_plain hl h
  obtain ⟨before, machine, behind, hf, hm, hb, rfl⟩ := Builder.machines_insert.1 hmachines
  have htext : header.print ++ "\x7b" ++ rest = header.print ++ ("\x7b" ++ rest) :=
    String.append_assoc
  have hwhole := header.ofString_print ("\x7b" ++ rest)
  rw [← htext] at hwhole
  have hopens := header.opensLambda_append hlambda
  have hremoved := Builder.machines_of_removed hf hb
  have hhidden (hh : header.hides = true) :
      extractMachines limits (header.print ++ "\x7b" ++ rest) = .ok (before ++ behind) := by
    obtain ⟨outline, ho, hbuilders⟩ :=
      header.exists_outline (Header.continues_of_hidden hh hopens)
    rw [← hwhole, ← hn] at ho
    refine (extractMachines_eq_ok_iff ho hl).2 ?_
    rwa [hwhole, hbuilders]
  have hbare : extractMachines limits ("\x7b" ++ rest) = .ok (before ++ behind) := by
    obtain ⟨brace, more, ht, hbrace⟩ := Source.exists_brace rest
    have hstarts : Setting.statement.Starts brace.lexeme := by
      rw [hbrace]
      exact ⟨by decide, by decide, rfl⟩
    obtain ⟨outline, ho, hbuilders⟩ := (hlambda.continues false 0).outline ht hstarts
    rw [← hn] at ho
    refine (extractMachines_eq_ok_iff ho hl).2 ?_
    rwa [hbuilders]
  refine ⟨⟨fun he => ?_, fun hh => ?_⟩, fun hh =>
    ⟨before, machine, behind, rfl, hhidden hh, hbare⟩⟩
  · -- A hidden builder leaves one machine fewer, so the two lists cannot be equal.
    rw [Bool.eq_false_iff]
    intro hh
    rw [hhidden hh] at he
    have hlength := congrArg List.length (Except.ok.inj he)
    simp at hlength
  · obtain ⟨other, hc⟩ := Header.continues_of_shown hh hopens
    obtain ⟨outline, ho, hbuilders⟩ := header.exists_outline hc
    rw [← hwhole, ← hn] at ho
    refine (extractMachines_eq_ok_iff ho hl).2 ?_
    rw [hwhole, hbuilders]
    exact Builder.machines_of_moved hf hm hb other

/-- A header on three lines, with a list of types. -/
def splitHeader : Header where
  beforeDot := ⟨"\n", rfl⟩
  afterDot := ⟨"\n", rfl⟩
  types := some ⟨(⟨"", rfl⟩, ⟨"Door", by decide⟩), [], ⟨" ", rfl⟩⟩

/-- The machine is lost without a fault. -/
theorem extractMachines_header_split :
    ({} : Limits).syntaxDepth ≤ ({} : Limits).extractionDepth ∧
    extractMachines {} ("StateMachine.create \x7b" ++ " state<A> \x7b \x7d \x7d") =
      .ok [⟨[.state { name := "A" }]⟩] ∧
    splitHeader.print = "StateMachine\n.\ncreate<Door > " ∧ splitHeader.hides = true ∧
    extractMachines {} (splitHeader.print ++ "\x7b" ++ " state<A> \x7b \x7d \x7d") = .ok [] := by
  have hplain : extractMachines {} ("StateMachine.create \x7b" ++ " state<A> \x7b \x7d \x7d") =
      .ok [⟨[.state { name := "A" }]⟩] := by decide +kernel
  obtain ⟨_, hhidden⟩ := extractMachines_header splitHeader (Nat.le_refl _) hplain
  obtain ⟨before, machine, behind, hm, hs, _⟩ := hhidden rfl
  refine ⟨Nat.le_refl _, hplain, rfl, rfl, ?_⟩
  have hlength := congrArg List.length hm
  simp only [List.length_append, List.length_cons, List.length_nil] at hlength
  have hbefore : before = [] := List.eq_nil_of_length_eq_zero (by omega)
  have hbehind : behind = [] := List.eq_nil_of_length_eq_zero (by omega)
  rw [hs, hbefore, hbehind]
  rfl

end StateDiagram
