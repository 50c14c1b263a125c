import StateDiagram.Proofs.Angle
import StateDiagram.Proofs.Inscription

namespace StateDiagram

set_option autoImplicit true

open Layout Text

/-- A name, perhaps in back quotes. -/
inductive WrittenName where
  | bare (name : Identifier)
  | quoted (name : QuotedName)

namespace WrittenName

def text : WrittenName → String
  | bare name => name.text
  | quoted name => name.text

def piece (name : WrittenName) : Piece := .word (.identifier name.text)

end WrittenName

/-- Names with dots between them, perhaps with type arguments, perhaps nullable. -/
inductive TypeExpression where
  | mk (first : WrittenName) (rest : List WrittenName) (arguments : List TypeExpression)
      (nullable : Bool)

/-- Texts in angle brackets, with the given number of spaces behind each comma. -/
def printTypes (gap : Nat) : List String → String
  | [] => ""
  | text :: texts => "<" ++ ("," ++ spaces gap).intercalate (text :: texts) ++ ">"

def commaLayout (gap : Nat) (first : Layout) : List Layout → Layout
  | [] => first
  | second :: rest =>
    first ++ comma :: (List.replicate gap .space ++ commaLayout gap second rest)

def typesLayout (gap : Nat) : List Layout → Layout
  | [] => []
  | first :: rest => less :: (commaLayout gap first rest ++ [greater])

def dotsLayout (names : List WrittenName) : Layout := names.flatMap fun name => [dot, name.piece]

def nullableLayout (nullable : Bool) : Layout := if nullable then [sign "?"] else []

namespace TypeExpression

theorem sizeOf_lt_of_mem {type : TypeExpression} {arguments : List TypeExpression}
    (h : type ∈ arguments) (first : WrittenName) (rest : List WrittenName) (nullable : Bool) :
    sizeOf type < sizeOf (mk first rest arguments nullable) := by
  have hm := List.sizeOf_lt_of_mem h
  rw [mk.sizeOf_spec]
  omega

def print (gap : Nat) : TypeExpression → String
  | mk first rest arguments nullable =>
    ".".intercalate (first.text :: rest.map WrittenName.text) ++
      printTypes gap (arguments.map (print gap)) ++ if nullable then "?" else ""
termination_by type => sizeOf type
decreasing_by exact sizeOf_lt_of_mem ‹_› ..

example : print 1 (.mk (.bare ⟨"Map", by decide⟩) [] [.mk (.bare ⟨"K", by decide⟩) [] [] false,
    .mk (.bare ⟨"a", by decide⟩) [.bare ⟨"b", by decide⟩]
      [.mk (.bare ⟨"V", by decide⟩) [] [] false] true] false) = "Map<K, a.b<V>?>" := by
  cbv

def layout (gap : Nat) : TypeExpression → Layout
  | mk first rest arguments nullable =>
    first.piece :: (dotsLayout rest ++
      (typesLayout gap (arguments.map (layout gap)) ++ nullableLayout nullable))
termination_by type => sizeOf type
decreasing_by exact sizeOf_lt_of_mem ‹_› ..

theorem induction {motive : TypeExpression → Prop}
    (step : ∀ first rest arguments nullable, (∀ type ∈ arguments, motive type) →
      motive (mk first rest arguments nullable)) : ∀ type, motive type
  | mk first rest arguments nullable =>
    step first rest arguments nullable fun type _ => induction step type
termination_by type => sizeOf type
decreasing_by exact sizeOf_lt_of_mem ‹_› ..

end TypeExpression

def EndsType (cs : List Char) : Prop := ∀ c ∈ cs.head?, c ∈ [',', '>', ' ']

theorem EndsType.cons {c : Char} {cs : List Char} (h : c ∈ [',', '>', ' ']) :
    EndsType (c :: cs) := by
  intro d hd
  cases hd
  exact h

theorem chars_commaLayout (gap : Nat) (first : Layout) (rest : List Layout) :
    (commaLayout gap first rest).chars =
      (("," ++ spaces gap).intercalate (first.text :: rest.map Layout.text)).toList := by
  induction rest generalizing first with
  | nil => exact (String.toList_ofList).symm
  | cons second rest ih =>
    rw [List.map_cons, String.intercalate_cons_cons]
    simp [commaLayout, ih, chars_spaces, Layout.text]

theorem chars_typesLayout (gap : Nat) (layouts : List Layout) :
    (typesLayout gap layouts).chars = (printTypes gap (layouts.map Layout.text)).toList := by
  cases layouts with
  | nil => rfl
  | cons first rest => simp [typesLayout, printTypes, chars_commaLayout]

namespace WrittenName

@[simp] theorem chars_piece (name : WrittenName) : name.piece.chars = name.text.toList := rfl

theorem clean (name : WrittenName) : name.piece.Clean := by
  cases name with
  | bare name => exact name.clean
  | quoted name =>
    refine ⟨fun hm => ?_, nofun⟩
    have ht : name.text.toList = '\x60' :: (name.content.toList ++ ['\x60']) := by
      simp [QuotedName.text, String.toList_append]
    rw [chars_piece, text, ht] at hm
    simp only [List.mem_cons, List.mem_append, List.not_mem_nil, or_false] at hm
    rcases hm with hm | hm | hm
    · cases hm
    · exact name.plain _ hm (by decide)
    · cases hm

theorem neat {name : WrittenName}
    (hd : ∀ d ∈ (f.chars ++ after).head?, (isAlphanumeric d || d == '_') = false)
    (hf : Neat after f) : Neat after (name.piece :: f) := by
  refine .cons ⟨?_, hf.lexical⟩ name.clean hf
  cases name with
  | bare name => exact Lexeme.recognized_identifier name hd
  | quoted name => exact Lexeme.recognized_quotedName name _

theorem separate (name : WrittenName) (cs : List Char) (c : Char) :
    ∀ d ∈ (name.text.toList ++ cs).head?, Lexeme.Separate c d := by
  cases name with
  | bare name => exact fun d hd => Lexeme.separate_of_not_mem (name.head_not_mem cs d hd) c
  | quoted name =>
    intro d hd
    have ht : name.text.toList = '\x60' :: (name.content.toList ++ ['\x60']) := by
      simp [QuotedName.text, String.toList_append]
    rw [text, ht] at hd
    cases hd
    exact Lexeme.separate_of_not_mem (by decide) c

end WrittenName

/-- A layout that may stand in a list of types. -/
structure TypeLayout (layout : Layout) : Prop where
  neat : ∀ {after}, EndsType after → Neat after layout
  opens : ∃ name rest, layout = WrittenName.piece name :: rest
  nested : ∀ start, Nested false (layout.tokens start)
  trimmed : layout.Trimmed

theorem separate_comma (d : Char) : Lexeme.Separate ',' d := by
  have hs : ∀ text ∈ Lexeme.longOperators, text.head? ≠ some ',' := by decide
  intro text hm he
  apply hs text hm
  cases text with
  | nil => cases he
  | cons c cs => exact congrArg some (List.cons.inj he).1

theorem exists_commaLayout (gap : Nat) (first : Layout) (rest : List Layout) :
    ∃ more, commaLayout gap first rest = first ++ more := by
  cases rest with
  | nil => exact ⟨[], (List.append_nil first).symm⟩
  | cons second rest => exact ⟨_, rfl⟩

section

variable {first : Layout} {rest layouts : List Layout} {source : Source}

theorem neat_commaLayout (h : ∀ layout ∈ first :: rest, TypeLayout layout) (gap : Nat)
    (hf : Neat after f) (he : EndsType (f.chars ++ after)) :
    Neat after (commaLayout gap first rest ++ f) := by
  induction rest generalizing first with
  | nil => exact neat_append.2 ⟨(h first List.mem_cons_self).neat he, hf⟩
  | cons second rest ih =>
    obtain ⟨hfirst, h⟩ := List.forall_mem_cons.1 h
    have hrest : Neat after (List.replicate gap .space ++ (commaLayout gap second rest ++ f)) :=
      neat_append.2 ⟨neat_spaces gap _, ih h⟩
    have hcomma := Neat.operator (c := ',') (by decide) (by decide) (fun d _ => separate_comma d)
      hrest
    rw [commaLayout, List.append_assoc, List.cons_append, List.append_assoc]
    exact neat_append.2 ⟨hfirst.neat (.cons (by decide)), hcomma⟩

theorem neat_typesLayout (h : ∀ layout ∈ layouts, TypeLayout layout) (gap : Nat)
    (hf : Neat after f) (hd : ∀ d ∈ (f.chars ++ after).head?, Lexeme.Separate '>' d) :
    Neat after (typesLayout gap layouts ++ f) := by
  cases layouts with
  | nil => exact hf
  | cons first rest =>
    have hclose : Neat after (commaLayout gap first rest ++ (greater :: f)) :=
      neat_commaLayout h gap (.greater hd hf) (.cons (by decide))
    rw [typesLayout, List.cons_append, List.append_assoc]
    refine Neat.operator (c := '<') (by decide) (by decide) ?_ hclose
    obtain ⟨more, hm⟩ := exists_commaLayout gap first rest
    obtain ⟨name, behind, hn⟩ := (h first List.mem_cons_self).opens
    rw [hm, hn, List.cons_append, List.cons_append, chars_cons, List.append_assoc]
    exact name.separate _ '<'

theorem nested_commaLayout (h : ∀ layout ∈ first :: rest, TypeLayout layout) (gap start : Nat) :
    Nested true (tokens start (commaLayout gap first rest)) := by
  induction rest generalizing first start with
  | nil => exact ((h first List.mem_cons_self).nested start).relax
  | cons second rest ih =>
    obtain ⟨hfirst, h⟩ := List.forall_mem_cons.1 h
    rw [commaLayout, tokens_append]
    apply ((hfirst.nested start).relax).append
    apply Nested.cons rfl rfl (.inl rfl)
    rw [tokens_spaces]
    exact ih h _

theorem nested_typesLayout (h : ∀ layout ∈ layouts, TypeLayout layout) (gap start : Nat) :
    Nested false (tokens start (typesLayout gap layouts)) := by
  cases layouts with
  | nil => exact .nil
  | cons first rest =>
    rw [typesLayout, less, greater, tokens, tokens_append]
    exact .angles rfl (nested_commaLayout h gap _) rfl .nil

/-- Each layout is a segment of its own. -/
theorem segments_commaLayout (h : ∀ layout ∈ first :: rest, TypeLayout layout)
    (hh : source.Holds start stop (commaLayout gap first rest)) (hf : Token.nesting front = 1) :
    ((Token.segments Token.endsType front (tokens start (commaLayout gap first rest))).filterMap
      Span.ofTokens?).map source.slice = (first :: rest).map Layout.text := by
  induction rest generalizing first start front with
  | nil =>
    have hfirst := h first List.mem_cons_self
    have huncut : Uncut Token.endsType front (first.tokens start) [] :=
      (hfirst.nested start).uncut (by omega) nofun
    have hsegments := segments_of_uncut huncut rfl
    rw [List.append_nil] at hsegments
    have hspan := hfirst.trimmed.ofTokens hh
    rw [commaLayout, hsegments, List.filterMap_cons_some hspan, List.map_cons]
    exact congrArg (· :: _) hh.slice_eq
  | cons second rest ih =>
    obtain ⟨hfirst, h⟩ := List.forall_mem_cons.1 h
    obtain ⟨mid, hleft, hcomma, htokens⟩ := hh.append
    obtain ⟨behind, hword, -, hright⟩ := hcomma.word
    have hspaces := tokens_spaces gap behind (commaLayout gap second rest)
    have huncut : Uncut Token.endsType front (first.tokens start)
        (⟨.operator ",", ⟨mid, behind⟩⟩ :: tokens (behind + gap) (commaLayout gap second rest)) :=
      (hfirst.nested start).uncut (by omega) nofun
    have hnesting : Token.nesting (front ++ first.tokens start) = 1 := by
      rw [nesting_append, (hfirst.nested start).nesting_eq, hf]
      rfl
    have hcut : Token.endsType (front ++ first.tokens start) ⟨.operator ",", ⟨mid, behind⟩⟩
        (tokens (behind + gap) (commaLayout gap second rest)) = true := by
      rw [Token.endsType, hnesting]
      rfl
    have hnext : Token.nesting (front ++ first.tokens start ++ [⟨.operator ",", ⟨mid, behind⟩⟩]) =
        1 := by
      rw [nesting_snoc, hnesting]
      rfl
    have hmore := ih h hright.spaces hnext
    have hsegments := segments_of_uncut huncut (segments_of_cut hcut)
    rw [List.append_nil] at hsegments
    have hspan := hfirst.trimmed.ofTokens hleft
    rw [commaLayout, htokens, comma, hword, hspaces, hsegments, List.filterMap_cons_some hspan,
      List.map_cons, hmore]
    exact congrArg (· :: _) hleft.slice_eq

theorem ReadsTypes.typesLayout (h : ∀ layout ∈ layouts, TypeLayout layout) (gap : Nat) :
    ReadsTypes (typesLayout gap layouts) ((layouts.map Layout.text).map .typeArgument) := by
  cases layouts with
  | nil => exact .nil
  | cons first rest =>
    intro source start stop after hh ho
    obtain ⟨mid, hless, -, hrest⟩ := hh.word
    obtain ⟨behind, hinside, hgreater, htokens⟩ := hrest.append
    obtain ⟨stop', hclose, -, hnil⟩ := hgreater.word
    obtain rfl := hnil.nil
    have hreturns : Returns 1 (⟨.operator ">", ⟨behind, stop'⟩⟩ :: after) []
        ⟨.operator ">", ⟨behind, stop'⟩⟩ after := returns_nil_iff.2 ⟨rfl, rfl, rfl, by omega⟩
    have hlevel : 0 < (Lexeme.operator "<").angle := by decide
    have hahead : TypesAhead ⟨.operator "<", ⟨start, mid⟩⟩
        (tokens mid (commaLayout gap first rest) ++ ⟨.operator ">", ⟨behind, stop'⟩⟩ :: after)
        (tokens mid (commaLayout gap first rest) ++ []) ⟨.operator ">", ⟨behind, stop'⟩⟩ after :=
      ⟨(nested_commaLayout h gap mid).returns hlevel hreturns, ho⟩
    rw [List.append_nil] at hahead
    have hstart : (Token.mk (.operator "<") ⟨start, mid⟩).span.start = start := rfl
    have hread := (readTypeArguments_eq_iff _ rfl hstart).1 _ _ _ hahead
    refine ⟨typeArguments ⟨.operator "<", ⟨start, mid⟩⟩ (tokens mid (commaLayout gap first rest)),
      ?_, ?_⟩
    · rw [StateDiagram.typesLayout, less, hless, htokens, greater, hclose, List.cons_append,
        List.append_assoc]
      exact hread
    · have hopen : Token.nesting [⟨.operator "<", ⟨start, mid⟩⟩] = 1 := rfl
      rw [typeArguments, List.map_map, ← segments_commaLayout h hinside hopen, List.map_map]
      apply List.map_congr_left
      intro span _
      rw [Function.comp_apply, Node.map]
      rfl

end

theorem neat_dotsLayout (first : WrittenName) (names : List WrittenName)
    (hd : ∀ d ∈ (f.chars ++ after).head?, (isAlphanumeric d || d == '_') = false)
    (hf : Neat after f) : Neat after (first.piece :: (dotsLayout names ++ f)) := by
  induction names generalizing first with
  | nil => exact first.neat hd hf
  | cons name names ih =>
    have hdot : Neat after (dot :: name.piece :: (dotsLayout names ++ f)) := by
      apply Neat.operator (c := '.') (by decide) (by decide) _ (ih name)
      rw [chars_cons, List.append_assoc]
      exact name.separate _ '.'
    apply first.neat _ hdot
    intro d he
    cases he
    decide

theorem nested_dotsLayout (names : List WrittenName) (start : Nat) :
    Nested false (tokens start (dotsLayout names)) := by
  induction names generalizing start with
  | nil => exact .nil
  | cons name names ih =>
    have hdot : Lexeme.operator "." ≠ .operator "," := by decide
    exact .cons rfl rfl (.inr hdot) (.cons rfl rfl (.inr nofun) (ih _))

/-- A layout whose last piece is a word, which is no line break. -/
def Layout.EndsInWord (layout : Layout) : Prop :=
  ∃ rest lexeme, layout = rest ++ [.word lexeme] ∧ lexeme.isLineBreak = false

theorem Layout.EndsInWord.append (f : Layout) (h : EndsInWord g) : EndsInWord (f ++ g) := by
  obtain ⟨rest, lexeme, hg, hl⟩ := h
  exact ⟨f ++ rest, lexeme, by rw [hg, List.append_assoc], hl⟩

theorem endsInWord_typesLayout (gap : Nat) (first : Layout) (rest : List Layout) :
    EndsInWord (typesLayout gap (first :: rest)) :=
  ⟨less :: commaLayout gap first rest, .operator ">", rfl, rfl⟩

theorem endsInWord_dotsLayout (first : WrittenName) (names : List WrittenName) :
    EndsInWord (first.piece :: dotsLayout names) := by
  induction names generalizing first with
  | nil => exact ⟨[], _, rfl, rfl⟩
  | cons name names ih => exact (ih name).append [first.piece, dot]

theorem neat_nullableLayout (he : EndsType after) (nullable : Bool) :
    Neat after (nullableLayout nullable) := by
  cases nullable with
  | false => exact .nil
  | true =>
    have hs : ∀ d ∈ [',', '>', ' '], Lexeme.Separate '?' d :=
      List.all_iff_forall_prop.1 (by decide)
    exact .operator (c := '?') (by decide) (by decide) (fun d hd => hs d (he d hd)) .nil

theorem head_nullableLayout (he : EndsType after) (nullable : Bool) :
    ∀ d ∈ ((nullableLayout nullable).chars ++ after).head?, d ∈ ['?', ',', '>', ' '] := by
  intro d hd
  cases nullable with
  | false => exact List.mem_cons_of_mem _ (he d hd)
  | true =>
    cases hd
    exact List.mem_cons_self

theorem head_typesLayout (gap : Nat) (layouts : List Layout)
    (h : ∀ d ∈ (f.chars ++ after).head?, d ∈ ['?', ',', '>', ' ']) :
    ∀ d ∈ ((typesLayout gap layouts ++ f).chars ++ after).head?, d ∈ ['<', '?', ',', '>', ' '] := by
  intro d hd
  cases layouts with
  | nil => exact List.mem_cons_of_mem _ (h d hd)
  | cons first rest =>
    cases hd
    exact List.mem_cons_self

theorem typeLayout_mk (first : WrittenName) (names : List WrittenName)
    (h : ∀ layout ∈ layouts, TypeLayout layout) (gap : Nat) (nullable : Bool) :
    TypeLayout (first.piece :: (dotsLayout names ++
      (typesLayout gap layouts ++ nullableLayout nullable))) where
  neat he := by
    have hgreater : ∀ d ∈ ['?', ',', '>', ' '], Lexeme.Separate '>' d :=
      List.all_iff_forall_prop.1 (by decide)
    have hname : ∀ d ∈ ['<', '?', ',', '>', ' '], (isAlphanumeric d || d == '_') = false :=
      List.all_iff_forall_prop.1 (by decide)
    have hhead := head_nullableLayout he nullable
    have htypes := neat_typesLayout h gap (neat_nullableLayout he nullable)
      fun d hd => hgreater d (hhead d hd)
    exact neat_dotsLayout first names
      (fun d hd => hname d (head_typesLayout gap layouts hhead d hd))
      htypes
  opens := ⟨first, _, rfl⟩
  nested start := by
    have hnullable (offset : Nat) : Nested false (tokens offset (nullableLayout nullable)) := by
      have hs : Lexeme.operator "?" ≠ .operator "," := by decide
      cases nullable with
      | false => exact .nil
      | true => exact .cons rfl rfl (.inr hs) .nil
    have hfirst : Lexeme.identifier first.text ≠ .operator "," := nofun
    apply Nested.cons rfl rfl (.inr hfirst)
    rw [tokens_append, tokens_append]
    exact (nested_dotsLayout names _).append ((nested_typesLayout h gap _).append (hnullable _))
  trimmed := by
    refine ⟨⟨_, _, rfl, rfl⟩, ?_⟩
    cases nullable with
    | true =>
      have hs : EndsInWord [sign "?"] := ⟨[], .operator "?", rfl, rfl⟩
      exact ((hs.append _).append _).append [first.piece]
    | false =>
      rw [nullableLayout, if_neg Bool.false_ne_true, List.append_nil]
      cases layouts with
      | nil =>
        rw [typesLayout, List.append_nil]
        exact endsInWord_dotsLayout first names
      | cons type types =>
        exact ((endsInWord_typesLayout gap type types).append _).append [first.piece]

namespace TypeExpression

theorem typeLayout (gap : Nat) (type : TypeExpression) : TypeLayout (type.layout gap) := by
  induction type using TypeExpression.induction with
  | step first rest arguments nullable ih =>
    rw [layout]
    exact typeLayout_mk first rest (List.forall_mem_map.2 ih) gap nullable

theorem chars_dotsLayout (names : List WrittenName) : (dotsLayout names).chars =
    ((names.map WrittenName.text).map String.toList).flatMap (".".toList ++ ·) := by
  induction names with
  | nil => rfl
  | cons name names ih => simp_all [dotsLayout]

theorem chars_names (first : WrittenName) (rest : List WrittenName) :
    chars (first.piece :: dotsLayout rest) =
      (".".intercalate (first.text :: rest.map WrittenName.text)).toList := by
  rw [String.toList_intercalate, List.map_cons, intercalate_cons, chars_cons, chars_dotsLayout]
  rfl

theorem chars_layout (gap : Nat) (type : TypeExpression) :
    (type.layout gap).chars = (type.print gap).toList := by
  induction type using TypeExpression.induction with
  | step first rest arguments nullable ih =>
    have harguments : (arguments.map (layout gap)).map Layout.text = arguments.map (print gap) := by
      rw [List.map_map]
      exact List.map_congr_left fun type hm => text_eq (ih type hm)
    rw [layout, print, ← List.cons_append, chars_append, chars_names, chars_append,
      chars_typesLayout, harguments]
    cases nullable <;> simp [nullableLayout]

end TypeExpression

end StateDiagram
