import StateDiagram.Proofs.Fronting
import StateDiagram.Proofs.LineBreak
import StateDiagram.Proofs.Spacing

namespace StateDiagram

set_option autoImplicit true

open Layout Text

/-- A run of spaces and line breaks. -/
structure Gap where
  text : String
  blank : text.toList.all [' ', '\n'].contains = true

def Gap.breaks (gap : Gap) : Bool := gap.text.toList.contains '\n'

/-- Names with commas between them, in angle brackets. There is a gap in front of each name, and
one in front of the bracket that closes the list. -/
structure TypeNames where
  first : Gap × Identifier
  more : List (Gap × Identifier)
  beforeClose : Gap

namespace TypeNames

def printNames (sign : String) : List (Gap × Identifier) → String
  | [] => ""
  | (gap, name) :: more => sign ++ gap.text ++ name.text ++ printNames "," more

def print (types : TypeNames) : String :=
  printNames "<" (types.first :: types.more) ++ types.beforeClose.text ++ ">"

def breaks (types : TypeNames) : Bool :=
  (types.first :: types.more).any (·.1.breaks) || types.beforeClose.breaks

end TypeNames

/-- What may stand in front of the lambda of a builder. -/
structure Header where
  beforeDot : Gap
  afterDot : Gap
  types : Option TypeNames

namespace Header

def print (header : Header) : String :=
  Word.stateMachine.text ++ header.beforeDot.text ++ "." ++ header.afterDot.text ++
    Word.create.text ++ (header.types.map TypeNames.print).getD "" ++ " "

/-- Whether a line break stands behind the dot or in the list of types. -/
def hides (header : Header) : Bool := header.afterDot.breaks || header.types.any TypeNames.breaks

end Header

namespace Gap

variable {gap : Gap}

theorem eq_of_mem {c : Char} (h : c ∈ gap.text.toList) : c = ' ' ∨ c = '\n' := by
  have hc := List.all_eq_true.1 gap.blank c h
  simpa using hc

def layout (gap : Gap) : Layout :=
  gap.text.toList.map fun c => if c = '\n' then .word .lineBreak else .space

theorem chars_layout (gap : Gap) : gap.layout.chars = gap.text.toList := by
  have he : ∀ c ∈ gap.text.toList,
      Piece.chars (if c = '\n' then .word .lineBreak else .space) = [c] := by
    intro c hc
    rcases gap.eq_of_mem hc with rfl | rfl <;> rfl
  rw [layout, chars, List.flatMap_map, List.flatMap_congr he, List.flatMap_singleton']

theorem blank_layout (gap : Gap) : gap.layout.Blank := by
  intro piece hm
  obtain ⟨c, _, rfl⟩ := List.mem_map.1 hm
  split
  · exact .inr rfl
  · exact .inl rfl

theorem lineBreak_mem_words : .lineBreak ∈ gap.layout.words ↔ gap.breaks = true := by
  rw [mem_words, layout, List.mem_map, breaks, List.contains_iff_mem]
  constructor
  · rintro ⟨c, hc, he⟩
    split at he
    · next hl => exact hl ▸ hc
    · cases he
  · exact fun hm => ⟨'\n', hm, rfl⟩

theorem tokens_layout (h : gap.breaks = false) (start : Nat) : gap.layout.tokens start = [] := by
  have hw : gap.layout.words = [] := by
    refine List.eq_nil_iff_forall_not_mem.2 fun word hm => ?_
    obtain rfl := gap.blank_layout.words word hm
    rw [lineBreak_mem_words.1 hm] at h
    cases h
  rw [← List.map_eq_nil_iff, map_lexeme_tokens, hw]

theorem exists_lineBreak (hb : gap.breaks = true) (start : Nat) :
    ∃ token more, gap.layout.tokens start = token :: more ∧ token.lexeme = .lineBreak := by
  cases ht : gap.layout.tokens start with
  | nil =>
    have hw := gap.layout.map_lexeme_tokens start
    rw [ht] at hw
    have hm := Gap.lineBreak_mem_words.2 hb
    rw [← hw] at hm
    cases hm
  | cons token more =>
    have hm : token ∈ gap.layout.tokens start := by
      rw [ht]
      exact List.mem_cons_self
    exact ⟨token, more, rfl, gap.blank_layout.lineBreaks token hm⟩

theorem head_append {P : Char → Prop} (gap : Gap) (hs : P ' ') (hl : P '\n') {cs : List Char}
    (h : ∀ c ∈ cs.head?, P c) : ∀ c ∈ (gap.text.toList ++ cs).head?, P c := by
  intro c hc
  cases ht : gap.text.toList with
  | nil =>
    rw [ht] at hc
    exact h c hc
  | cons d ds =>
    rw [ht] at hc
    cases hc
    have hm : c ∈ gap.text.toList := by
      rw [ht]
      exact List.mem_cons_self
    rcases gap.eq_of_mem hm with rfl | rfl
    · exact hs
    · exact hl

end Gap

namespace TypeNames

def namesLayout (sign : String) : List (Gap × Identifier) → Layout
  | [] => []
  | (gap, name) :: more =>
    Layout.sign sign :: (gap.layout ++ name.piece :: namesLayout "," more)

def layout (types : TypeNames) : Layout :=
  namesLayout "<" (types.first :: types.more) ++ (types.beforeClose.layout ++ [greater])

theorem chars_namesLayout (sign : String) (names : List (Gap × Identifier)) :
    (namesLayout sign names).chars = (printNames sign names).toList := by
  induction names generalizing sign with
  | nil => rfl
  | cons entry more ih =>
    simp [namesLayout, printNames, ih, Gap.chars_layout]

theorem chars_layout (types : TypeNames) : types.layout.chars = types.print.toList := by
  simp [layout, print, chars_namesLayout, Gap.chars_layout]

end TypeNames

namespace Header

def typesLayout (header : Header) : Layout := (header.types.map TypeNames.layout).getD []

def layout (header : Header) : Layout :=
  Word.stateMachine.piece :: (header.beforeDot.layout ++ dot :: (header.afterDot.layout ++
    Word.create.piece :: (header.typesLayout ++ [.space])))

theorem chars_layout (header : Header) : header.layout.chars = header.print.toList := by
  have ht : header.typesLayout.chars =
      ((header.types.map TypeNames.print).getD "").toList := by
    rw [typesLayout]
    cases header.types with
    | none => rfl
    | some types => exact types.chars_layout
  simp only [layout, print, chars_cons, chars_append, Identifier.chars_piece, dot_chars,
    space_chars, chars_nil, ht, Gap.chars_layout, String.toList_append, List.append_assoc]
  rfl

end Header

/-- What follows is no part of a name. -/
def EndsWord (cs : List Char) : Prop := ∀ c ∈ cs.head?, (isAlphanumeric c || c == '_') = false

/-- What follows is no part of an operator. -/
def EndsSign (cs : List Char) : Prop := ∀ c ∈ cs.head?, c ∉ Lexeme.operatorCharacters

theorem Layout.Blank.scanned (hb : Layout.Blank f) (after : List Char) : Scanned after f := by
  induction f with
  | nil => exact Neat.nil.scanned
  | cons piece f ih =>
    obtain ⟨hp, hf⟩ := List.forall_mem_cons.1 hb
    obtain ⟨hl, hc⟩ := ih hf
    rcases hp with rfl | rfl
    · exact ⟨hl, by simpa using hc⟩
    · exact ⟨⟨Lexeme.recognized_lineBreak _, hl⟩, by simpa using hc⟩

theorem Identifier.scanned (name : Identifier) (he : EndsWord (chars f ++ after))
    (hf : Scanned after f) : Scanned after (name.piece :: f) where
  lexical := ⟨Lexeme.recognized_identifier name he, hf.lexical⟩
  cr := by
    rw [chars_cons, List.mem_append, not_or]
    exact ⟨name.clean.cr, hf.cr⟩

theorem scanned_sign {c : Char} (hc : c ∈ Lexeme.operatorCharacters) (hg : c ≠ '/')
    (he : EndsSign (chars f ++ after)) (hf : Scanned after f) :
    Scanned after (Layout.sign (String.singleton c) :: f) where
  lexical := ⟨Lexeme.recognized_operator hc hg fun d hd =>
    Lexeme.separate_of_not_mem (he d hd) c, hf.lexical⟩
  cr := by
    rw [chars_cons, sign_chars, String.toList_singleton, List.mem_append, not_or,
      List.mem_singleton]
    refine ⟨?_, hf.cr⟩
    rintro rfl
    exact absurd hc (by decide)

theorem scanned_sign_gap {c : Char} (hc : c ∈ Lexeme.operatorCharacters) (hg : c ≠ '/')
    (gap : Gap) (name : Identifier) (hf : Scanned after (name.piece :: f)) :
    Scanned after (Layout.sign (String.singleton c) :: (gap.layout ++ name.piece :: f)) := by
  refine scanned_sign hc hg ?_ (scanned_append.2 ⟨gap.blank_layout.scanned _, hf⟩)
  rw [chars_append, gap.chars_layout, List.append_assoc, chars_cons, List.append_assoc]
  exact gap.head_append (by decide) (by decide) (name.head_not_mem _)

theorem TypeNames.scanned_namesLayout (names : List (Gap × Identifier)) {sign : String}
    (hs : sign = "<" ∨ sign = ",") (he : EndsWord (chars f ++ after)) (hf : Scanned after f) :
    Scanned after (namesLayout sign names ++ f) := by
  induction names generalizing sign with
  | nil => exact hf
  | cons entry more ih =>
    obtain ⟨gap, name⟩ := entry
    have hname : Scanned after (name.piece :: (namesLayout "," more ++ f)) := by
      refine name.scanned ?_ (ih (.inr rfl))
      cases more with
      | nil => exact he
      | cons =>
        intro c hc
        cases hc
        decide
    rw [namesLayout, List.cons_append, List.append_assoc, List.cons_append]
    rcases hs with rfl | rfl
    · exact scanned_sign_gap (c := '<') (by decide) (by decide) gap name hname
    · exact scanned_sign_gap (c := ',') (by decide) (by decide) gap name hname

theorem TypeNames.scanned (types : TypeNames) (he : EndsSign after) :
    Scanned after types.layout := by
  have hclose : Scanned after [greater] :=
    scanned_sign (c := '>') (by decide) (by decide) he Neat.nil.scanned
  refine scanned_namesLayout _ (.inl rfl) ?_
    (scanned_append.2 ⟨types.beforeClose.blank_layout.scanned _, hclose⟩)
  rw [chars_append, Gap.chars_layout, List.append_assoc]
  refine types.beforeClose.head_append (by decide) (by decide) fun c hc => ?_
  cases hc
  decide

theorem Header.scanned (header : Header) (after : List Char) : Scanned after header.layout := by
  have hspace : Scanned after [.space] := Neat.nil.space.scanned
  have hcreate : Scanned after (Word.create.piece :: (header.typesLayout ++ [.space])) := by
    refine Word.create.scanned ?_ (scanned_append.2 ⟨?_, hspace⟩) <;> rw [typesLayout]
    · cases header.types with
      | none =>
        intro c hc
        cases hc
        decide
      | some types =>
        intro c hc
        cases hc
        decide
    · cases header.types with
      | none => exact Neat.nil.scanned
      | some types =>
        refine types.scanned fun c hc => ?_
        cases hc
        decide
  have hdot := scanned_sign_gap (c := '.') (by decide) (by decide) header.afterDot Word.create
    hcreate
  refine Word.stateMachine.scanned ?_
    (scanned_append.2 ⟨header.beforeDot.blank_layout.scanned _, hdot⟩)
  rw [chars_append, Gap.chars_layout, List.append_assoc]
  refine header.beforeDot.head_append (by decide) (by decide) fun c hc => ?_
  cases hc
  decide

theorem Token.scan_shift (k offset : Nat) (cs : List Char) :
    Token.scan (offset + k) cs = (Token.scan offset cs).map (Token.shift k) := by
  fun_induction Token.scan offset cs with
  | case1 offset cs gap hd =>
    have hg := Trivia.takes_trivia_getD cs
    have hcs : cs = cs.take gap ++ [] := by rw [← hd, List.take_append_drop]
    rw [hd] at hg
    rw [hcs, Token.scan_of_gap hg]
    rfl
  | case2 offset cs gap c rest hd front start stop ih =>
    have hg := Trivia.takes_trivia_getD cs
    have hcs : cs = cs.take gap ++ c :: rest := by rw [← hd, List.take_append_drop]
    rw [hd] at hg
    have hstart : offset + k + byteSize (cs.take gap) = start + k := Nat.add_right_comm ..
    have hstop : start + k + byteSize ((c :: rest).take front.2) = stop + k :=
      Nat.add_right_comm ..
    rw [hcs, Token.scan_of_gap_cons hg, hstart, hstop, ih]
    rfl

theorem Text.normalizeLineEndings_append (h : '\r' ∉ front) (back : List Char) :
    normalizeLineEndings (front ++ back) = front ++ normalizeLineEndings back := by
  induction front with
  | nil => rfl
  | cons c front ih =>
    rw [List.mem_cons, not_or] at h
    rw [List.cons_append, normalizeLineEndings_cons (Ne.symm h.1), ih h.2, List.cons_append]

theorem Source.tokens_append {f : Layout} {back : Source} (h : Lexical back.text f) :
    (Source.append ⟨f.chars⟩ back).tokens =
      f.tokens 0 ++ back.tokens.map (Token.shift f.size) := by
  rw [tokens, append, Token.scan_layout_append h, Token.scan_shift, tokens]

theorem Header.ofString_print (header : Header) (text : String) :
    Source.ofString (header.print ++ text) =
      Source.append ⟨header.layout.chars⟩ (Source.ofString text) := by
  have hcr := (header.scanned []).cr
  rw [header.chars_layout] at hcr ⊢
  rw [Source.ofString, Source.ofString, String.toList_append, normalizeLineEndings_append hcr,
    Source.append]

end StateDiagram
