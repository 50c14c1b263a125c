import StateDiagram.Proofs.ArgumentList
import StateDiagram.Proofs.Concatenation

namespace StateDiagram

set_option autoImplicit true

open Text

/-- The tokens that the texts have on their own, where they stand one behind the other from the
offset on. -/
def Token.inPlace (offset : Nat) : List String → List Token
  | [] => []
  | part :: parts =>
    (tokenize part).map (shift offset) ++ inPlace (offset + byteSize part.toList) parts

/-- The tokens that no bracket hides, where the given brackets are open, inner ones first. -/
def Token.outside (hides : Bracket → Bool) : List Bracket → List Token → List Token
  | _, [] => []
  | opened, token :: tokens =>
    let behind := match token.lexeme with
      | .opening bracket => bracket :: opened
      | .closing _ => opened.tail
      | _ => opened
    if opened.any hides then outside hides behind tokens else token :: outside hides behind tokens

/-- A text that may stand as an argument of a call, perhaps behind a name and an equals sign. It
closes its brackets and has neither a comma nor an angle bracket outside of them, and only in
braces may there be an arrow. -/
structure ArgumentText (text : String) : Prop where
  cr : '\r' ∉ text.toList
  nest : Token.nest [] (Token.tokenize text) = true
  guarded : ∀ token ∈ Token.outside (fun _ => true) [] (Token.tokenize text),
    token.lexeme ≠ .operator "," ∧ token.lexeme ≠ .operator "<"
  arrowless : ∀ token ∈ Token.outside (· == .curly) [] (Token.tokenize text),
    token.lexeme ≠ .operator "->"
  visible : Token.visible (Token.tokenize text) ≠ []
  named : ∀ name, (Token.visible (Token.tokenize text)).map Token.lexeme ≠
    [.identifier name, .operator "="]

def verbatim (text : String) : String :=
  ((Span.ofTokens? (Token.visible (Token.tokenize text))).map (Source.ofString text).slice).getD ""

/-- What is written in the brackets of a call, perhaps with a comma behind the last argument. -/
def argumentParts (trailing : Bool) (arguments : List String) : List String :=
  arguments.intersperse ", " ++ (if trailing then [","] else []) ++ [")"]

section

variable {token : Token} {tokens : List Token} {opened : List Bracket} {hides : Bracket → Bool}

theorem outside_opening (ht : token.lexeme = .opening bracket) :
    Token.outside hides opened (token :: tokens) =
      (if opened.any hides then [] else [token]) ++
        Token.outside hides (bracket :: opened) tokens := by
  rw [Token.outside, ht]
  split <;> rfl

theorem outside_closing (ht : token.lexeme = .closing bracket) :
    Token.outside hides opened (token :: tokens) =
      (if opened.any hides then [] else [token]) ++ Token.outside hides opened.tail tokens := by
  rw [Token.outside, ht]
  split <;> rfl

theorem outside_of_not_isBracket (ht : token.lexeme.isBracket = false) :
    Token.outside hides opened (token :: tokens) =
      (if opened.any hides then [] else [token]) ++ Token.outside hides opened tokens := by
  rw [Token.outside]
  cases hl : token.lexeme with
  | opening bracket | closing bracket =>
    rw [hl] at ht
    cases ht
  | _ => split <;> rfl

theorem Guarded.of_nest (h : Token.nest opened tokens = true)
    (hc : ∀ token ∈ Token.outside (fun _ => true) opened tokens,
      token.lexeme ≠ .operator "," ∧ token.lexeme ≠ .operator "<") : Guarded opened tokens := by
  induction tokens generalizing opened with
  | nil =>
    obtain rfl := List.isEmpty_iff.1 h
    exact .nil
  | cons token tokens ih =>
    cases hb : token.lexeme.isBracket with
    | false =>
      rw [Token.nest_of_not_isBracket hb] at h
      rw [outside_of_not_isBracket hb] at hc
      obtain ⟨hhead, hc⟩ := List.forall_mem_append.1 hc
      refine .plain hb ?_ (ih h hc)
      rintro rfl
      exact hhead token (List.mem_singleton_self _)
    | true =>
      cases ht : token.lexeme with
      | opening bracket =>
        rw [Token.nest_opening ht] at h
        rw [outside_opening ht] at hc
        exact .opening ht (ih h (List.forall_mem_append.1 hc).2)
      | closing bracket =>
        obtain ⟨outer, rfl, hn⟩ := (Token.nest_closing ht).1 h
        rw [outside_closing ht] at hc
        exact .closing ht (ih hn (List.forall_mem_append.1 hc).2)
      | _ =>
        rw [ht] at hb
        cases hb

theorem Guarded.shift (h : Guarded opened tokens) (k : Nat) :
    Guarded opened (tokens.map (Token.shift k)) := by
  induction h with
  | nil => exact .nil
  | opening ht _ ih => exact .opening ht ih
  | closing ht _ ih => exact .closing ht ih
  | plain hb hc _ ih => exact .plain hb hc ih

theorem visible_shift (tokens : List Token) (k : Nat) :
    Token.visible (tokens.map (Token.shift k)) = (Token.visible tokens).map (Token.shift k) := by
  rw [Token.visible, List.filter_map]
  rfl

theorem map_lexeme_shift (tokens : List Token) (k : Nat) :
    (tokens.map (Token.shift k)).map Token.lexeme = tokens.map Token.lexeme := by
  rw [List.map_map]
  rfl

theorem ArgumentText.isArgument {text : String} (h : ArgumentText text) (k : Nat) :
    IsArgument ((Token.tokenize text).map (Token.shift k)) where
  guarded := (Guarded.of_nest h.nest h.guarded).shift k
  visible := by
    rw [visible_shift]
    exact fun he => h.visible (List.map_eq_nil_iff.1 he)
  named name := by
    rw [visible_shift, map_lexeme_shift]
    exact h.named name

end

theorem Source.ofString_of_not_mem {text : String} (h : '\r' ∉ text.toList) :
    Source.ofString text = ⟨text.toList⟩ := by
  rw [Source.ofString, normalizeLineEndings_of_not_mem h]

theorem exists_ofTokens? (h : tokens ≠ []) : ∃ first ∈ tokens, ∃ last ∈ tokens,
    Span.ofTokens? tokens = some ⟨first.span.start, last.span.stop⟩ := by
  obtain ⟨first, rest, rfl⟩ := List.exists_cons_of_ne_nil h
  exact ⟨first, List.mem_cons_self, _, List.getLast_mem h,
    ofTokens?_of_last (List.getLast?_eq_some_getLast h)⟩

theorem tokenize_commaSpace : Token.tokenize ", " = [⟨.operator ",", ⟨0, 1⟩⟩] := by decide +kernel

theorem inPlace_cons {part : String} {lexeme : Lexeme}
    (h : Token.tokenize part = [⟨lexeme, ⟨0, byteSize part.toList⟩⟩]) (offset : Nat)
    (parts : List String) :
    Token.inPlace offset (part :: parts) =
      ⟨lexeme, ⟨offset, offset + byteSize part.toList⟩⟩ ::
        Token.inPlace (offset + byteSize part.toList) parts := by
  have hs : Span.shift offset ⟨0, byteSize part.toList⟩ =
      ⟨offset, offset + byteSize part.toList⟩ := by
    rw [Span.shift, Nat.zero_add, Nat.add_comm]
  rw [Token.inPlace, h, List.map_singleton, Token.shift, hs]
  rfl

theorem inPlace_comma (offset : Nat) (parts : List String) :
    Token.inPlace offset ("," :: parts) =
      ⟨.operator ",", ⟨offset, offset + 1⟩⟩ :: Token.inPlace (offset + 1) parts :=
  inPlace_cons (by decide +kernel) ..

theorem inPlace_round (offset : Nat) (parts : List String) :
    Token.inPlace offset (")" :: parts) =
      ⟨.closing .round, ⟨offset, offset + 1⟩⟩ :: Token.inPlace (offset + 1) parts :=
  inPlace_cons (by decide +kernel) ..

section

variable {source : Source} {node : Outline} {text : String} {k : Nat}

theorem slice_standsAt (h : StandsAt source.text k text.toList) {span : Span}
    (hstart : IsBoundary text.toList span.start) (hstop : IsBoundary text.toList span.stop) :
    source.slice (span.shift k) = Source.slice ⟨text.toList⟩ span := by
  obtain ⟨before, after, he, rfl⟩ := h
  have hs : source = Source.append ⟨before⟩ (Source.append ⟨text.toList⟩ ⟨after⟩) :=
    congrArg Source.mk he
  rw [hs]
  exact (Source.slice_append_right ..).trans
    (Source.slice_append_left hstart hstop.le)

/-- An argument that stands in a source is verbatim what it is on its own. -/
theorem Covering.slice_eq (h : Covering ((Token.tokenize text).map (Token.shift k)) node)
    (ha : ArgumentText text) (hs : StandsAt source.text k text.toList) :
    source.slice node.info = verbatim text := by
  obtain ⟨span, name, expression, rfl, ht⟩ := h
  obtain ⟨first, hf, last, hl, hspan⟩ := exists_ofTokens? ha.visible
  rw [visible_shift, ofTokens?_shift, hspan] at ht
  cases ht
  have hsound := (Source.mk text.toList).sound_tokens.tokens
  have hstart := (hsound first (List.mem_filter.1 hf).1).2
  have hstop := (hsound last (List.mem_filter.1 hl).1).2
  rw [verbatim, hspan, Source.ofString_of_not_mem ha.cr]
  exact slice_standsAt hs hstart.boundary_start hstop.boundary_stop

/-- The tokens are those of the text where it stands in the source. -/
def Source.Has (source : Source) (text : String) (tokens : List Token) : Prop :=
  ∃ k, tokens = (Token.tokenize text).map (Token.shift k) ∧
    StandsAt source.text k text.toList

theorem standsAt_join {cs : List Char} {part : String} {parts : List String} {offset : Nat}
    (h : StandsAt cs offset (String.join (part :: parts)).toList) :
    StandsAt cs offset part.toList ∧
      StandsAt cs (offset + byteSize part.toList) (String.join parts).toList := by
  rw [String.toList_join, List.flatMap_cons, ← String.toList_join] at h
  exact ⟨h.left, h.right⟩

theorem exists_argumentList_last (trailing : Bool) {after : List String} {offset : Nat}
    {argument : List Token} (ha : IsArgument argument)
    (hs : StandsAt source.text offset
      (String.join ((if trailing then [","] else []) ++ [")"] ++ after)).toList) :
    ∃ stop, ArgumentList ⟨.closing .round, ⟨stop, stop + 1⟩⟩ (Token.inPlace (stop + 1) after)
        [argument]
        (argument ++ Token.inPlace offset ((if trailing then [","] else []) ++ [")"] ++ after)) ∧
      StandsAt source.text (stop + 1) (String.join after).toList := by
  cases trailing with
  | false =>
    refine ⟨offset, ?_, (standsAt_join hs).2⟩
    have ht := inPlace_round offset after
    exact ht ▸ .last ha
  | true =>
    refine ⟨offset + 1, ?_, (standsAt_join (standsAt_join hs).2).2⟩
    have ht := inPlace_comma offset (")" :: after)
    rw [inPlace_round] at ht
    exact ht ▸ .more ha rfl .close

theorem exists_argumentList (trailing : Bool) {arguments after : List String} {offset : Nat}
    (hne : arguments ≠ []) (ha : ∀ text ∈ arguments, ArgumentText text)
    (hs : StandsAt source.text offset
      (String.join (argumentParts trailing arguments ++ after)).toList) :
    ∃ (stop : Nat) (tokens : List (List Token)),
      ArgumentList ⟨.closing .round, ⟨stop, stop + 1⟩⟩ (Token.inPlace (stop + 1) after) tokens
        (Token.inPlace offset (argumentParts trailing arguments ++ after)) ∧
      List.Forall₂ source.Has arguments tokens ∧
      StandsAt source.text (stop + 1) (String.join after).toList := by
  induction arguments generalizing offset with
  | nil => exact (hne rfl).elim
  | cons text arguments ih =>
    obtain ⟨htext, ha⟩ := List.forall_mem_cons.1 ha
    have hhas (h : StandsAt source.text offset text.toList) :
        source.Has text ((Token.tokenize text).map (Token.shift offset)) := ⟨offset, rfl, h⟩
    cases arguments with
    | nil =>
      have hparts : argumentParts trailing [text] ++ after =
          text :: ((if trailing then [","] else []) ++ [")"] ++ after) := by
        cases trailing <;> rfl
      rw [hparts] at hs ⊢
      obtain ⟨hs, hback⟩ := standsAt_join hs
      obtain ⟨stop, hlist, hafter⟩ :=
        exists_argumentList_last trailing (htext.isArgument offset) hback
      exact ⟨stop, _, hlist, .cons (hhas hs) .nil, hafter⟩
    | cons second more =>
      have hparts : argumentParts trailing (text :: second :: more) ++ after =
          text :: ", " :: (argumentParts trailing (second :: more) ++ after) := by
        rw [argumentParts, List.intersperse_cons_cons]
        rfl
      rw [hparts] at hs ⊢
      obtain ⟨hs, hback⟩ := standsAt_join hs
      obtain ⟨-, hback⟩ := standsAt_join hback
      obtain ⟨stop, tokens, hlist, hall, hafter⟩ := ih (List.cons_ne_nil _ _) ha hback
      refine ⟨stop, _ :: tokens, ?_, .cons (hhas hs) hall, hafter⟩
      rw [Token.inPlace, Token.inPlace, tokenize_commaSpace]
      exact .more (htext.isArgument offset) rfl hlist

end

end StateDiagram
