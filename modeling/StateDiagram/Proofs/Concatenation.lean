import StateDiagram.Proofs.EmbeddedReading
import StateDiagram.Proofs.Evaluation
import StateDiagram.Proofs.Extent
import StateDiagram.Proofs.LineEnd

namespace StateDiagram

set_option autoImplicit true

open Text

theorem Span.shift_zero : Span.shift 0 = id := rfl

theorem Token.shift_zero : Token.shift 0 = id := rfl

theorem Node.map_id (node : Node α) : node.map id = node := by
  induction node using Node.induction with
  | step node ih =>
    have hnodes {nodes : List (Node α)} (h : ∀ child ∈ nodes, child.map id = child) :
        nodes.map (map id) = nodes := (List.map_congr_left h).trans (List.map_id nodes)
    cases node with
    | call a callee types values trailing =>
      cases trailing <;> simp_all [map_call, children]
    | _ => simp_all [children]

theorem Node.map_congr {f g : α → β} {node : Node α}
    (h : ∀ inner ∈ node.preorder, f inner.info = g inner.info) : node.map f = node.map g := by
  induction node using Node.induction with
  | step node ih =>
    have hinfo := h node (mem_preorder_self node)
    have hchildren : ∀ child ∈ node.children, child.map f = child.map g := fun child hc =>
      ih child hc fun inner hi => h inner (mem_preorder.2 (.inr ⟨child, hc, hi⟩))
    cases node with
    | call a callee types values trailing =>
      cases trailing <;> simp_all [map_call, children, info]
    | _ => simp_all [children, info]

theorem Derives.rest_eq_nil (h : Derives source n (.statements none cursor nodes next)) :
    next.rest = [] := by
  rcases h.statements_stop with hr | ⟨_, _, _, _, _, hc⟩
  · exact hr
  · cases hc

theorem leadsOn_eq_false {tokens : List Token}
    (h : ∀ token ∈ (Token.visible tokens).head?, token.lexeme.isLeading = false) :
    leadsOn tokens = false := by
  induction tokens with
  | nil => rfl
  | cons token tokens ih =>
    by_cases hl : token.lexeme = .lineBreak
    · rw [Token.visible_lineBreak hl] at h
      rw [leadsOn, List.dropWhile_cons, if_pos (Lexeme.isLineBreak_iff.2 hl)]
      exact ih h
    · rw [Token.visible_cons hl] at h
      rw [leadsOn, List.dropWhile_cons, if_neg (mt Lexeme.isLineBreak_iff.1 hl)]
      exact h token rfl

/-- Lines are counted on and columns start anew behind a line feed. -/
theorem Location.after_append {front : List Char} (h : front.getLast? = some '\n')
    (before : List Char) : Location.after (front ++ before) =
      ⟨(Location.after before).line + front.count '\n', (Location.after before).column⟩ := by
  obtain ⟨line, rfl⟩ := List.getLast?_eq_some_iff.1 h
  have hcolumn : (line ++ ['\n'] ++ before).reverse.takeWhile (· ≠ '\n') =
      before.reverse.takeWhile (· ≠ '\n') := by
    rw [List.reverse_append, List.reverse_append, List.reverse_singleton, List.singleton_append]
    induction before.reverse with
    | nil => rfl
    | cons c cs ih => rw [List.cons_append, List.takeWhile_cons, List.takeWhile_cons, ih]
  simp only [Location.after, List.count_append, hcolumn, Location.mk.injEq, and_true]
  omega

theorem SyntaxTree.machinesAt_file {limit depth : Nat} {statements : List SyntaxTree}
    {found : List Machine} (place : Place) :
    SyntaxTree.machinesAt limit depth (.file place statements) = .ok found ↔
      checkDepth limit depth = .ok () ∧ ∃ nested,
        statements.mapM (fun child =>
          SyntaxTree.machinesAt limit (if child.opensLevel then depth + 1 else depth) child) =
            .ok nested ∧ found = nested.flatten := by
  have hown : SyntaxTree.ownMachines limit depth (.file place statements) = .ok [] := rfl
  rw [machinesAt_eq, bind_eq_ok]
  simp only [bind_eq_ok, hown, Node.children]
  constructor
  · rintro ⟨_, hd, nested, hn, _, ⟨⟩, he⟩
    exact ⟨hd, nested, hn, (Except.ok.inj he).symm.trans (List.append_nil _)⟩
  · rintro ⟨hd, nested, hn, rfl⟩
    exact ⟨_, hd, nested, hn, _, rfl, congrArg Except.ok (List.append_nil _)⟩

theorem SyntaxTree.machinesAt_append {limit depth : Nat} {first second : List SyntaxTree}
    {place place' : Place} {found found' : List Machine}
    (hf : SyntaxTree.machinesAt limit depth (.file place first) = .ok found)
    (hs : SyntaxTree.machinesAt limit depth (.file place' second) = .ok found') (whole : Place) :
    SyntaxTree.machinesAt limit depth (.file whole (first ++ second)) = .ok (found ++ found') := by
  obtain ⟨hd, nested, hn, rfl⟩ := (machinesAt_file place).1 hf
  obtain ⟨_, nested', hn', rfl⟩ := (machinesAt_file place').1 hs
  refine (machinesAt_file whole).2 ⟨hd, nested ++ nested', ?_, List.flatten_append.symm⟩
  rw [List.mapM_append, hn, hn']
  rfl

/-- The source with another one behind it. -/
def Source.append (front back : Source) : Source := ⟨front.text ++ back.text⟩

/-- The place in a text that has more bytes and lines in front. -/
def Place.shift (bytes lines : Nat) (place : Place) : Place where
  span := place.span.shift bytes
  location := ⟨place.location.line + lines, place.location.column⟩
  text := place.text

theorem Place.keepsText_shift (bytes lines : Nat) : KeepsText (Place.shift bytes lines) :=
  fun _ => rfl

/-- No token and no construct reaches from the first source into the second. -/
structure Source.Meets (front back : Source) : Prop where
  endsLine : front.text.getLast? = some '\n'
  tokens_eq : (front.append back).tokens = front.tokens ++ back.tokens.map (Token.shift front.size)
  nest : Token.nest [] front.tokens = true
  settled : ∀ token ∈ (Token.visible front.tokens).getLast?, token.lexeme.isCarrying = false
  fresh : ∀ token ∈ (Token.visible back.tokens).head?, token.lexeme.isLeading = false

namespace Source

theorem size_append (front back : Source) : (front.append back).size = front.size + back.size :=
  byteSize_append ..

variable {front back : Source}

theorem slice_append_left {span : Span} (hs : IsBoundary front.text span.start)
    (h : span.stop ≤ front.size) : (front.append back).slice span = front.slice span := by
  rw [slice, slice, append, slice_append_of_le hs h]

theorem slice_append_right (front back : Source) (span : Span) :
    (front.append back).slice (span.shift front.size) = back.slice span :=
  congrArg String.ofList (slice_add span.start span.stop front.text back.text)

theorem locate_append_left {span : Span} (h : span.Within front) :
    (front.append back).locate span = front.locate span := by
  rw [locate, locate, slice_append_left h.boundary_start h.boundary_stop.le, append,
    takeBytes_append_of_le h.boundary_start.le]

theorem locate_append_right (he : front.text.getLast? = some '\n') (span : Span) :
    (front.append back).locate (span.shift front.size) =
      (back.locate span).shift front.size (front.text.count '\n') := by
  have ht : takeBytes (span.start + front.size) (front.append back).text =
      front.text ++ takeBytes span.start back.text := takeBytes_add ..
  rw [locate, locate, slice_append_right, Place.shift]
  simp only [Span.shift, ht, Location.after_append he]

theorem exists_file_of_parse {tree : SyntaxTree} (h : front.parse n = .ok tree) :
    ∃ place statements, tree = .file place statements := by
  obtain ⟨outline, ho, rfl⟩ := parse_eq_ok_iff.1 h
  obtain ⟨statements, _, rfl, _⟩ := outline?_eq_some_iff.1 ho
  rw [Node.map]
  exact ⟨_, _, rfl⟩

namespace Meets

theorem isSealed (h : front.Meets back) : Sealed [] front.tokens where
  nest := h.nest
  endsLine := by
    obtain ⟨token, hm, ht, _⟩ := Token.getLast?_scan 0 h.endsLine
    exact ⟨token, hm, ht⟩
  settled := h.settled

theorem embeds_left (h : front.Meets back) :
    Embeds front (front.append back) 0 (back.tokens.map (Token.shift front.size)) where
  slice_eq first hf last hl := by
    have hsound := front.sound_tokens
    exact slice_append_left (hsound.tokens first hf).2.boundary_start
      (hsound.tokens last hl).2.boundary_stop.le
  isFollowed hne := by
    have htext : back.text ≠ [] := by
      intro he
      rw [tokens, he, Token.scan_nil] at hne
      exact hne rfl
    have hpos : 0 < back.size := byteSize_pos htext
    rw [IsFollowed, size_append]
    omega
  leadsOn_eq := by
    have hl : leadsOn (back.tokens.map (Token.shift front.size) ++ []) = leadsOn back.tokens :=
      leadsOn_within rfl back.tokens
    rw [List.append_nil] at hl
    rw [hl, leadsOn_eq_false h.fresh]

theorem embeds_right (front back : Source) : Embeds back (front.append back) front.size [] where
  slice_eq _ _ _ _ := slice_append_right ..
  isFollowed hne := (hne rfl).elim
  leadsOn_eq := rfl

/-- All of the first source is read, up to the line feed at its end. -/
theorem stop_eq (h : front.Meets back)
    (hd : Derives front n (.statements none ⟨0, front.tokens⟩ nodes stop)) :
    stop = ⟨front.size, []⟩ := by
  obtain ⟨token, hm, _, hstop⟩ := Token.getLast?_scan 0 h.endsLine
  have hrest : stop.rest = [] := hd.rest_eq_nil
  have hend := (front.sound_tokens.leads hd.leads).lastEnd_of_nil hrest
  rw [lastEnd, Cursor.lastEnd, tokens, Option.mem_def.1 hm, Option.map_some, Option.getD_some,
    hstop, Nat.zero_add] at hend
  obtain ⟨previousEnd, rest⟩ := stop
  obtain rfl := hrest
  exact congrArg (Cursor.mk · []) hend.symm

theorem readStatements_append (h : front.Meets back) (n : Nat) :
    readStatements (expressionWithin (front.append back) n) none ⟨0, (front.append back).tokens⟩ =
      (readStatements (expressionWithin front n) none ⟨0, front.tokens⟩).bind fun first =>
        (readStatements (expressionWithin back n) none ⟨0, back.tokens⟩).map fun second =>
          (first.1 ++ second.1.map (Node.map (Span.shift front.size)),
            second.2.within front.size []) := by
  have hwhole : Cursor.mk 0 (front.append back).tokens =
      (Cursor.mk 0 front.tokens).within 0 (back.tokens.map (Token.shift front.size)) := by
    rw [Cursor.within, h.tokens_eq, Token.shift_zero, List.map_id]
  have hleft := (Embedded.all h.embeds_left n).statements h.embeds_left none ⟨0, front.tokens⟩
    (.inr ⟨[], List.Subset.refl _, fun _ => h.isSealed⟩)
  have hright := (Embedded.all (embeds_right front back) n).statements (embeds_right front back)
    none ⟨0, back.tokens⟩
    (.inr ⟨[], List.Subset.refl _, fun hf => (hf (by rw [size_append, Nat.add_comm])).elim⟩)
  rw [hwhole, hleft]
  cases hfirst : readStatements (expressionWithin front n) none ⟨0, front.tokens⟩ with
  | none => rfl
  | some first =>
    obtain ⟨nodes, stop⟩ := first
    obtain rfl := h.stop_eq ((Level.all front n).statements hfirst)
    have hmid : (Cursor.mk front.size []).within 0 (back.tokens.map (Token.shift front.size)) =
        (Cursor.mk 0 back.tokens).within front.size [] := by
      rw [Cursor.within, Cursor.within, List.append_nil, Nat.zero_add]
      rfl
    dsimp only [Option.bind_some]
    rw [hmid, hright]
    cases hsecond : readStatements (expressionWithin back n) none ⟨0, back.tokens⟩ with
    | none => rfl
    | some second =>
      obtain ⟨nodes', stop⟩ := second
      have hstop : stop.rest = [] := ((Level.all back n).statements hsecond).rest_eq_nil
      dsimp only [Option.bind_some, Option.map_some]
      rw [readStatements_of_nil (Cursor.rest_within_nil hstop rfl), Span.shift_zero,
        Option.map_some, Option.map_some, Prod.map, Prod.map, List.append_nil,
        funext Node.map_id]
      rw [List.map_id']
      rfl

theorem outline?_append (h : front.Meets back) (n : Nat) :
    (front.append back).outline? n = (front.outline? n).bind fun first =>
      (back.outline? n).map fun second => .file ⟨0, (front.append back).size⟩
        (first.statements ++ second.statements.map (Node.map (Span.shift front.size))) := by
  rw [outline?, outline?, outline?, h.readStatements_append]
  cases readStatements (expressionWithin front n) none ⟨0, front.tokens⟩ with
  | none => rfl
  | some first =>
    cases readStatements (expressionWithin back n) none ⟨0, back.tokens⟩ <;> rfl

theorem locate_left {outline : Outline} (ho : front.outline? n = some outline) :
    outline.statements.map (Node.map (front.append back).locate) =
      outline.statements.map (Node.map front.locate) := by
  refine List.map_congr_left fun node hm => Node.map_congr fun inner hi => ?_
  obtain ⟨statements, _, rfl, _⟩ := outline?_eq_some_iff.1 ho
  have hmem : inner ∈ (Node.file ⟨0, front.size⟩ statements).preorder :=
    Node.mem_preorder.2 (.inr ⟨node, hm, hi⟩)
  exact locate_append_left (nests_of_outline? ho inner hmem).within

/-- The tree of the whole has the statements of the first source and those of the second, further
on. -/
theorem parse_append (h : front.Meets back) (n : Nat) :
    (front.append back).parse n = do
      let first ← front.parse n
      let second ← back.parse n
      return .file ((front.append back).locate ⟨0, (front.append back).size⟩)
        (first.statements ++ second.statements.map
          (Node.map (.shift front.size (front.text.count '\n')))) := by
  rw [parse, parse, parse, h.outline?_append]
  cases hfirst : front.outline? n with
  | none => rfl
  | some first =>
    cases back.outline? n with
    | none => rfl
    | some second =>
      have hmove : Node.map (front.append back).locate ∘ Node.map (Span.shift front.size) =
          Node.map (.shift front.size (front.text.count '\n')) ∘ Node.map back.locate := by
        funext node
        rw [Function.comp_apply, Function.comp_apply, Node.map_map, Node.map_map]
        exact congrArg (Node.map · node) (funext (locate_append_right h.endsLine))
      dsimp only [Option.bind_some, Option.map_some]
      rw [Node.map, List.map_append, locate_left hfirst, List.map_map, hmove, ← List.map_map,
        ← Node.statements_map, ← Node.statements_map]
      rfl

theorem parse_eq_error (h : front.Meets back) :
    (front.append back).parse n = .error fault ↔
      front.parse n = .error fault ∨ back.parse n = .error fault := by
  rw [h.parse_append]
  cases hfirst : front.parse n with
  | error fault' =>
    refine ⟨.inl, fun he => he.elim id fun hsecond => ?_⟩
    rw [eq_of_parse hfirst, eq_of_parse hsecond]
    rfl
  | ok first =>
    cases back.parse n with
    | error fault' => exact ⟨.inr, fun he => he.elim nofun id⟩
    | ok second => exact ⟨nofun, fun he => he.elim nofun nofun⟩

theorem machines_append (h : front.Meets back) {limit : Nat} {first second : SyntaxTree}
    {found found' : List Machine} (hf : front.parse n = .ok first)
    (hs : back.parse n = .ok second) (hm : first.machines limit = .ok found)
    (hm' : second.machines limit = .ok found') :
    ((front.append back).parse n >>= SyntaxTree.machines limit) = .ok (found ++ found') := by
  obtain ⟨place, statements, rfl⟩ := exists_file_of_parse hf
  obtain ⟨place', statements', rfl⟩ := exists_file_of_parse hs
  have hmoved := (SyntaxTree.machinesAt_map
    (Place.keepsText_shift front.size (front.text.count '\n')) _).2 hm'
  rw [Node.map] at hmoved
  rw [h.parse_append, hf, hs]
  exact SyntaxTree.machinesAt_append hm hmoved _

end Meets

end Source

/-- Reading is compositional. A source that ends its last line, closes its brackets and asks for no
further line, and one behind it that does not carry on a line, are read as they are on their own,
the second further on. The whole is refused exactly where one of them is. -/
theorem parse_concatenated (front back : String) (hf : '\r' ∉ front.toList)
    (hb : '\r' ∉ back.toList) (hend : front.toList.getLast? = some '\n')
    (htokens : Token.tokenize (front ++ back) = Token.tokenize front ++
      (Token.tokenize back).map (Token.shift (byteSize front.toList)))
    (hnest : Token.nest [] (Token.tokenize front) = true)
    (hlast : ∀ token ∈ (Token.visible (Token.tokenize front)).getLast?,
      token.lexeme.isCarrying = false)
    (hfirst : ∀ token ∈ (Token.visible (Token.tokenize back)).head?,
      token.lexeme.isLeading = false) :
    (∀ limit fault, SyntaxTree.parse limit (front ++ back) = .error fault ↔
      SyntaxTree.parse limit front = .error fault ∨
        SyntaxTree.parse limit back = .error fault) ∧
    (∀ limit first second, SyntaxTree.parse limit front = .ok first →
      SyntaxTree.parse limit back = .ok second →
        ∃ place, SyntaxTree.parse limit (front ++ back) = .ok (.file place
          (first.statements ++ second.statements.map
            (Node.map (.shift (byteSize front.toList) (front.toList.count '\n')))))) ∧
    ∀ limits first second, extractMachines limits front = .ok first →
      extractMachines limits back = .ok second →
        extractMachines limits (front ++ back) = .ok (first ++ second) := by
  have hm : Source.Meets ⟨front.toList⟩ ⟨back.toList⟩ := {
    endsLine := hend
    tokens_eq := by
      rw [Source.append, ← String.toList_append]
      exact htokens
    nest := hnest
    settled := hlast
    fresh := hfirst }
  have hfront (limit : Nat) : SyntaxTree.parse limit front = Source.parse ⟨front.toList⟩ limit := by
    rw [SyntaxTree.parse, Source.ofString, normalizeLineEndings_of_not_mem hf]
  have hback (limit : Nat) : SyntaxTree.parse limit back = Source.parse ⟨back.toList⟩ limit := by
    rw [SyntaxTree.parse, Source.ofString, normalizeLineEndings_of_not_mem hb]
  have hwhole (limit : Nat) : SyntaxTree.parse limit (front ++ back) =
      Source.parse (Source.append ⟨front.toList⟩ ⟨back.toList⟩) limit := by
    have hr : '\r' ∉ front.toList ++ back.toList := List.not_mem_append hf hb
    rw [SyntaxTree.parse, Source.ofString, String.toList_append, normalizeLineEndings_of_not_mem hr,
      Source.append]
  refine ⟨fun limit fault => ?_, fun limit first second h h' => ?_,
    fun limits first second h h' => ?_⟩
  · rw [hwhole, hfront, hback]
    exact hm.parse_eq_error
  · rw [hfront] at h
    rw [hback] at h'
    rw [hwhole, hm.parse_append, h, h']
    exact ⟨_, rfl⟩
  · obtain ⟨tree, ht, h⟩ := bind_eq_ok.1 h
    obtain ⟨tree', ht', h'⟩ := bind_eq_ok.1 h'
    rw [hfront] at ht
    rw [hback] at ht'
    have hmachines := hm.machines_append ht ht' h h'
    rwa [← hwhole] at hmachines

def doorFile : String := "StateMachine.create \x7b state<Open> \x7b\x7d\n\x7d // \u00e9\n"

def lampFile : String := "\nval lamp = StateMachine.create \x7b initialState(Off) \x7d\n"

/-- Bytes are counted, and the comment holds a character of two. -/
theorem parse_concatenated_lamp :
    ('\r' ∉ doorFile.toList ∧ '\r' ∉ lampFile.toList ∧ doorFile.toList.getLast? = some '\n' ∧
      Token.tokenize (doorFile ++ lampFile) = Token.tokenize doorFile ++
        (Token.tokenize lampFile).map (Token.shift (byteSize doorFile.toList)) ∧
      Token.nest [] (Token.tokenize doorFile) = true ∧
      (∀ token ∈ (Token.visible (Token.tokenize doorFile)).getLast?,
        token.lexeme.isCarrying = false) ∧
      ∀ token ∈ (Token.visible (Token.tokenize lampFile)).head?,
        token.lexeme.isLeading = false) ∧
    SyntaxTree.parse 2 (doorFile ++ lampFile) = .error (.nestingTooDeep 2) ∧
    (∃ place first second, SyntaxTree.parse 5 doorFile = .ok first ∧
      SyntaxTree.parse 5 lampFile = .ok second ∧
      SyntaxTree.parse 5 (doorFile ++ lampFile) = .ok (.file place
        (first.statements ++ second.statements.map (Node.map (.shift 45 2))))) ∧
    extractMachines {} (doorFile ++ lampFile) =
      .ok [⟨[.state { name := "Open" }]⟩, ⟨[.initial "Off"]⟩] := by
  refine have hyps := ?_; ⟨hyps, ?_⟩
  · decide +kernel
  · obtain ⟨hf, hb, hend, htokens, hnest, hlast, hfirst⟩ := hyps
    obtain ⟨herror, htree, hmachines⟩ :=
      parse_concatenated doorFile lampFile hf hb hend htokens hnest hlast hfirst
    have hdeep : (SyntaxTree.parse 2 doorFile).isOk = false := by decide +kernel
    have hdoor : (SyntaxTree.parse 5 doorFile).isOk = true := by decide +kernel
    have hlamp : (SyntaxTree.parse 5 lampFile).isOk = true := by decide +kernel
    refine ⟨(herror 2 _).2 (.inl ?_), ?_, hmachines {} [_] [_] ?_ ?_⟩
    · cases he : SyntaxTree.parse 2 doorFile with
      | error fault => rw [Source.eq_of_parse he]
      | ok tree =>
        rw [he] at hdeep
        cases hdeep
    · obtain ⟨first, hfirst⟩ := exists_eq_ok_of_isOk hdoor
      obtain ⟨second, hsecond⟩ := exists_eq_ok_of_isOk hlamp
      obtain ⟨place, hwhole⟩ := htree 5 first second hfirst hsecond
      exact ⟨place, first, second, hfirst, hsecond, hwhole⟩
    · decide +kernel
    · decide +kernel

end StateDiagram
