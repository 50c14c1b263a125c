import StateDiagram.Proofs.Continuation

namespace StateDiagram

set_option autoImplicit true

open Text

theorem iff_of_map {f : α → β} {g : Cursor → Cursor} {answer : Option (α × Cursor)}
    {moved : Option (β × Cursor)} {P : α → Cursor → Prop} {Q : β → Cursor → Prop}
    (h : moved = answer.map (Prod.map f g))
    (hp : ∀ original stop, answer = some (original, stop) ↔ P original stop)
    (hq : ∀ value next, moved = some (value, next) ↔ Q value next) {value : β} {next : Cursor} :
    Q value next ↔ ∃ original stop, P original stop ∧ f original = value ∧ g stop = next := by
  rw [← hq, h, Option.map_eq_some_iff]
  constructor
  · rintro ⟨⟨original, stop⟩, ha, he⟩
    cases he
    exact ⟨original, stop, (hp ..).1 ha, rfl, rfl⟩
  · rintro ⟨original, stop, ha, rfl, rfl⟩
    exact ⟨_, (hp ..).2 ha, rfl⟩

namespace Source

variable {back : Source} {cursor next : Cursor} {token : Token} {tokens : List Token}
  {node : Outline}

theorem confined_append (front : Source) (opened : List Bracket) (h : tokens ⊆ back.tokens) :
    Confined back (front.append back) front.size opened tokens :=
  ⟨h, fun hf => (hf (by rw [size_append, Nat.add_comm])).elim⟩

theorem embedded_append (front back : Source) (n : Nat) :
    Embedded back (front.append back) front.size [] n :=
  Embedded.all (Meets.embeds_right front back) n

theorem derives_lambda_append (front : Source) (h : cursor.rest ⊆ back.tokens) :
    Derives (front.append back) n
        (.lambda (token.shift front.size) (cursor.within front.size []) node next) ↔
      ∃ lambda stop, Derives back n (.lambda token cursor lambda stop) ∧
        lambda.map (Span.shift front.size) = node ∧ stop.within front.size [] = next :=
  iff_of_map ((embedded_append front back n).lambda (confined_append front [.curly] h))
    (fun _ _ => ⟨(Level.all _ n).lambda, Derives.isRead⟩)
    fun _ _ => ⟨(Level.all _ n).lambda, Derives.isRead⟩

theorem derives_suffixes_append (front : Source) (h : cursor.rest ⊆ back.tokens)
    {item : Outline} :
    Derives (front.append back) n
        (.suffixes (node.map (Span.shift front.size)) (cursor.within front.size []) item next) ↔
      ∃ result stop, Derives back n (.suffixes node cursor result stop) ∧
        result.map (Span.shift front.size) = item ∧ stop.within front.size [] = next := by
  have he := (embedded_append front back n).suffixes (Meets.embeds_right front back) node
    (confined_append front [] h)
  exact iff_of_map he (fun _ _ => ⟨(Level.all _ n).suffixes, Derives.isRead⟩)
    fun _ _ => ⟨(Level.all _ n).suffixes, Derives.isRead⟩

theorem derives_items_append (front : Source) (h : cursor.rest ⊆ back.tokens) {carried : Bool}
    {items : List Outline} :
    Derives (front.append back) n
        (.items .statement carried (cursor.within front.size []) items next) ↔
      ∃ nodes stop, Derives back n (.items .statement carried cursor nodes stop) ∧
        nodes.map (Node.map (Span.shift front.size)) = items ∧
          stop.within front.size [] = next := by
  have he := (embedded_append front back n).items (Meets.embeds_right front back) .statement
    carried (confined_append front [] h) (fun _ hs => by cases hs)
    (fun hf => (hf (by rw [size_append, Nat.add_comm])).elim)
  exact iff_of_map he (fun _ _ => ⟨(Level.all _ n).items, Derives.isRead⟩)
    fun _ _ => ⟨(Level.all _ n).items, Derives.isRead⟩

theorem derives_statements_append (front : Source) (h : cursor.rest ⊆ back.tokens)
    {nodes : List Outline} :
    Derives (front.append back) n
        (.statements none (cursor.within front.size []) nodes next) ↔
      ∃ statements stop, Derives back n (.statements none cursor statements stop) ∧
        statements.map (Node.map (Span.shift front.size)) = nodes ∧
          stop.within front.size [] = next := by
  have he : readStatements (expressionWithin (front.append back) n) none
      (cursor.within front.size []) =
        (readStatements (expressionWithin back n) none cursor).map
          (Prod.map (List.map (Node.map (Span.shift front.size)))
            (Cursor.within front.size [])) := by
    rw [(embedded_append front back n).statements (Meets.embeds_right front back) none cursor
      (.inr ⟨[], confined_append front [] h⟩)]
    cases hread : readStatements (expressionWithin back n) none cursor with
    | none => rfl
    | some found =>
      have hstop : found.2.rest = [] := ((Level.all back n).statements hread).rest_eq_nil
      rw [Option.bind_some, readStatements_of_nil (Cursor.rest_within_nil hstop rfl),
        Option.map_some, Option.map_some, Prod.map, Prod.map, List.append_nil]
      rfl
  exact iff_of_map he (fun _ _ => ⟨(Level.all _ n).statements, Derives.isRead⟩)
    fun _ _ => ⟨(Level.all _ n).statements, Derives.isRead⟩

theorem flatMap_buildersIn_shift (front back : Source) (nodes : List Outline) :
    (nodes.map (Node.map (Span.shift front.size))).flatMap (front.append back).buildersIn =
      nodes.flatMap back.buildersIn := by
  rw [List.flatMap_map]
  exact congrArg (nodes.flatMap ·) (funext (buildersIn_shift front back))

/-- The builders that are met from a token on do not depend on what stands in front of it. -/
theorem continues_append (front : Source) (h : cursor.rest ⊆ back.tokens) :
    (front.append back).Continues n carried (cursor.within front.size []) builders ↔
      back.Continues n carried cursor builders := by
  constructor
  · rintro ⟨_, _, _, _, hi, hs, rfl⟩
    obtain ⟨items, mid, hitems, rfl, rfl⟩ := (derives_items_append front h).1 hi
    have hmid : mid.rest ⊆ back.tokens := List.Subset.trans hitems.suffix.subset h
    obtain ⟨nodes, last, hnodes, rfl, rfl⟩ := (derives_statements_append front hmid).1 hs
    rw [flatMap_buildersIn_shift, flatMap_buildersIn_shift]
    exact ⟨items, mid, nodes, last, hitems, hnodes, rfl⟩
  · rintro ⟨items, mid, nodes, last, hi, hs, rfl⟩
    have hmid : mid.rest ⊆ back.tokens := List.Subset.trans hi.suffix.subset h
    refine ⟨_, _, _, _, (derives_items_append front h).2 ⟨items, mid, hi, rfl, rfl⟩,
      (derives_statements_append front hmid).2 ⟨nodes, last, hs, rfl, rfl⟩, ?_⟩
    rw [flatMap_buildersIn_shift, flatMap_buildersIn_shift]

/-- What is read behind a node, which is not the name of the builder, has the same builders
whatever that node is. -/
theorem suffixes_builders {source : Source} {cursor next : Cursor} {node result : Outline}
    (h : Derives source n (.suffixes node cursor result next))
    (hn : node.hasName "StateMachine" = false) :
    ∃ behind, source.buildersIn result = source.buildersIn node ++ behind ∧
      ∀ other : Outline, other.hasName "StateMachine" = false → ∃ result',
        Derives source n (.suffixes other cursor result' next) ∧
          source.buildersIn result' = source.buildersIn other ++ behind := by
  generalize hp : Phrase.suffixes node cursor result next = phrase at h
  -- Each suffix wraps what was read so far in a node of its own, which is no name.
  induction h generalizing node cursor with
  | noSuffix hm hi =>
    cases hp
    exact ⟨[], (List.append_nil _).symm, fun other _ =>
      ⟨other, .noSuffix hm hi, (List.append_nil _).symm⟩⟩
  | @member _ member _ selector _ _ _ _ hm hnamed _ _ ih =>
    cases hp
    obtain ⟨behind, hb, ho⟩ := ih rfl rfl
    rw [buildersIn_member hn, List.append_assoc] at hb
    refine ⟨_, hb, fun other hother => ?_⟩
    obtain ⟨result', hd, hr⟩ := ho (.memberAccess ⟨other.info.start, selector.info.stop⟩ other
      selector member.safe) rfl
    rw [buildersIn_member hother, List.append_assoc] at hr
    exact ⟨result', .member hm hnamed hd, hr⟩
  | @index _ _ _ _ group _ _ _ _ hm hr ht ha hg _ _ ih =>
    cases hp
    obtain ⟨behind, hb, ho⟩ := ih rfl rfl
    rw [buildersIn_sequence, List.flatMap_cons, List.append_assoc] at hb
    refine ⟨_, hb, fun other _ => ?_⟩
    obtain ⟨result', hd, he⟩ := ho (.sequence ⟨other.info.start, group.info.stop⟩
      [other, group]) rfl
    rw [buildersIn_sequence, List.flatMap_cons, List.append_assoc] at he
    exact ⟨result', .index hm hr ht ha hg hd, he⟩
  | _ => cases hp

/-- Behind an expression, which is neither the name of the builder nor a token, the rest of a
statement and further statements are read, and in them stand the builders. -/
def Trails (source : Source) (n : Nat) (cursor : Cursor) (builders : List (Place × Builder)) :
    Prop :=
  ∀ base : Outline, base.hasName "StateMachine" = false → base.isToken = false →
    ∃ item mid rest, Derives source n (.suffixes base cursor item mid) ∧
      source.Continues (n + 1) false mid rest ∧
        source.buildersIn item ++ rest = source.buildersIn base ++ builders

theorem trails_of_suffixes {source : Source} {cursor mid : Cursor} {base item : Outline}
    (h : Derives source n (.suffixes base cursor item mid))
    (hb : base.hasName "StateMachine" = false) (hc : source.Continues (n + 1) false mid rest) :
    ∃ builders, source.buildersIn item ++ rest = source.buildersIn base ++ builders ∧
      source.Trails n cursor builders := by
  obtain ⟨behind, he, ho⟩ := suffixes_builders h hb
  refine ⟨behind ++ rest, by rw [he, List.append_assoc], fun other hother _ => ?_⟩
  obtain ⟨result, hd, hr⟩ := ho other hother
  exact ⟨result, mid, rest, hd, hc, by rw [hr, List.append_assoc]⟩

theorem trails_append (front : Source) (h : cursor.rest ⊆ back.tokens) :
    (front.append back).Trails n (cursor.within front.size []) builders ↔
      back.Trails n cursor builders := by
  constructor
  · intro ht base hb hn
    obtain ⟨_, _, rest, hd, hc, he⟩ := ht (base.map (Span.shift front.size))
      (by rw [Node.hasName_map, hb]) (by rw [Node.isToken_map, hn])
    obtain ⟨item, mid, hitem, rfl, rfl⟩ := (derives_suffixes_append front h).1 hd
    rw [buildersIn_shift, buildersIn_shift] at he
    have hmid : mid.rest ⊆ back.tokens := List.Subset.trans hitem.suffix.subset h
    exact ⟨item, mid, rest, hitem, (continues_append front hmid).1 hc, he⟩
  · intro ht
    -- What is read behind one node is read behind every other one, so any node will do here.
    have hname : (Node.literal ⟨0, 0⟩ : Outline).hasName "StateMachine" = false := rfl
    obtain ⟨item, mid, rest, hd, hc, he⟩ := ht (.literal ⟨0, 0⟩) hname rfl
    have hmid : mid.rest ⊆ back.tokens := List.Subset.trans hd.suffix.subset h
    obtain ⟨builders', he', ht'⟩ := trails_of_suffixes
      ((derives_suffixes_append front h).2 ⟨item, mid, hd, rfl, rfl⟩)
      (by rw [Node.hasName_map, hname]) ((continues_append front hmid).2 hc)
    rw [buildersIn_shift, buildersIn_shift] at he'
    obtain rfl : builders = builders' := List.append_cancel_left (he.symm.trans he')
    exact ht'

/-- The tokens start with a lambda that reads as the tree, and the builders stand behind it. -/
def OpensLambda (source : Source) (n : Nat) (tokens : List Token) (tree : Node String)
    (builders : List (Place × Builder)) : Prop :=
  ∃ brace behind lambda next, tokens = brace :: behind ∧ brace.lexeme = .opening .curly ∧
    Derives source n (.lambda brace (.past brace behind) lambda next) ∧
      lambda.map source.slice = tree ∧ source.Trails n next builders

/-- What a lambda reads as does not depend on what stands in front of it. -/
theorem opensLambda_append (front : Source) (h : tokens ⊆ back.tokens) :
    (front.append back).OpensLambda n (tokens.map (Token.shift front.size)) tree builders ↔
      back.OpensLambda n tokens tree builders := by
  have hslice (node : Outline) : (node.map (Span.shift front.size)).map
      (front.append back).slice = node.map back.slice := by
    rw [Node.map_map]
    exact congrArg (node.map ·) (funext (slice_append_right front back))
  have hpast (brace : Token) (behind : List Token) :
      Cursor.past (brace.shift front.size) (behind.map (Token.shift front.size)) =
        (Cursor.past brace behind).within front.size [] := by
    rw [Cursor.within_past, List.append_nil]
  constructor
  · rintro ⟨_, _, _, _, ht, ho, hd, rfl, hb⟩
    obtain ⟨brace, behind, rfl, rfl, rfl⟩ := List.map_eq_cons_iff.1 ht
    rw [hpast] at hd
    have hbehind : behind ⊆ back.tokens := fun _ hm => h (List.mem_cons_of_mem _ hm)
    obtain ⟨lambda, next, hl, rfl, rfl⟩ := (derives_lambda_append front hbehind).1 hd
    have hnext : next.rest ⊆ back.tokens := List.Subset.trans hl.suffix.subset hbehind
    exact ⟨brace, behind, lambda, next, rfl, ho, hl, (hslice lambda).symm,
      (trails_append front hnext).1 hb⟩
  · rintro ⟨brace, behind, lambda, next, rfl, ho, hl, rfl, hb⟩
    have hbehind : behind ⊆ back.tokens := fun _ hm => h (List.mem_cons_of_mem _ hm)
    have hnext : next.rest ⊆ back.tokens := List.Subset.trans hl.suffix.subset hbehind
    have hd := (derives_lambda_append front hbehind).2 ⟨lambda, next, hl, rfl, rfl⟩
    rw [← hpast] at hd
    exact ⟨_, _, _, _, rfl, ho, hd, hslice lambda, (trails_append front hnext).2 hb⟩

end Source

end StateDiagram
