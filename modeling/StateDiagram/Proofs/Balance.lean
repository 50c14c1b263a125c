import StateDiagram.Proofs.Extent
import StateDiagram.Proofs.Sealing

namespace StateDiagram

set_option autoImplicit true

variable {source : Source}

/-- Whether the lexeme is part of a statement, and not between two of them. -/
def Lexeme.isCode : Lexeme → Bool
  | .lineBreak | .operator ";" => false
  | _ => true

/-- The brackets that are open behind the lexeme because of it. -/
def Lexeme.opens : Lexeme → List Bracket
  | .opening bracket => [bracket]
  | _ => []

def Token.code (tokens : List Token) : List Token := tokens.filter (·.lexeme.isCode)

theorem Lexeme.isCode_of_starts {lexeme : Lexeme} (h : Setting.statement.Starts lexeme) :
    lexeme.isCode = true := by
  rw [isCode.eq_def]
  split
  · exact (h.1 rfl).elim
  · exact (h.2.1 rfl).elim
  · rfl

theorem Lexeme.isCode_of_skipped {lexeme : Lexeme}
    (h : lexeme = .lineBreak ∨ lexeme = Setting.statement.separator) : lexeme.isCode = false := by
  rcases h with rfl | rfl <;> rfl

theorem Lexeme.isBracket_of_skipped (setting : Setting) {lexeme : Lexeme}
    (h : lexeme = .lineBreak ∨ lexeme = setting.separator) : lexeme.isBracket = false := by
  rcases h with rfl | rfl
  · rfl
  · cases setting <;> rfl

theorem Lexeme.opens_eq_nil {lexeme : Lexeme}
    (h : lexeme.isLiteral = true ∨ lexeme.isSymbol = true) : lexeme.opens = [] := by
  cases lexeme with
  | opening => rcases h with h | h <;> cases h
  | _ => rfl

namespace Token

variable {token : Token} {tokens front back : List Token} {opened outer : List Bracket}

/-- Tokens that close the given brackets leave the others open. -/
theorem nest_append (h : nest opened front = true) (outer : List Bracket) (back : List Token) :
    nest (opened ++ outer) (front ++ back) = nest outer back := by
  induction front generalizing opened with
  | nil =>
    rw [nest, List.isEmpty_iff] at h
    rw [h]
    rfl
  | cons token front ih =>
    rw [List.cons_append]
    cases ht : token.lexeme with
    | opening bracket =>
      rw [nest_opening ht] at h ⊢
      exact ih h
    | closing bracket =>
      obtain ⟨inner, rfl, hi⟩ := (nest_closing ht).1 h
      exact (nest_closing_cons ht).trans (ih hi)
    | _ =>
      have hb : token.lexeme.isBracket = false := by rw [ht]; rfl
      rw [nest_of_not_isBracket hb] at h ⊢
      exact ih h

theorem exists_nest (h : nest opened (front ++ back) = true) :
    ∃ opened, nest opened back = true := by
  induction front generalizing opened with
  | nil => exact ⟨opened, h⟩
  | cons token front ih =>
    rw [List.cons_append] at h
    cases ht : token.lexeme with
    | opening bracket => exact ih (nest_opening ht ▸ h)
    | closing bracket =>
      obtain ⟨outer, _, h⟩ := (nest_closing ht).1 h
      exact ih h
    | _ => exact ih (nest_of_not_isBracket (by rw [ht]; rfl) ▸ h)

theorem nest_plain (h : ∀ token ∈ tokens, token.lexeme.isBracket = false) :
    nest [] tokens = true := by
  induction tokens with
  | nil => rfl
  | cons token tokens ih =>
    obtain ⟨ht, h⟩ := List.forall_mem_cons.1 h
    rw [nest_of_not_isBracket ht, ih h]

theorem nest_cons (ht : token.lexeme.isClosing = false)
    (hn : nest token.lexeme.opens tokens = true) : nest [] (token :: tokens) = true := by
  cases hl : token.lexeme with
  | opening bracket =>
    rw [hl] at hn
    rwa [nest_opening hl]
  | closing bracket =>
    rw [hl] at ht
    cases ht
  | _ =>
    rw [hl] at hn
    rwa [nest_of_not_isBracket (by rw [hl]; rfl)]

theorem code_append (tokens more : List Token) : code (tokens ++ more) = code tokens ++ code more :=
  List.filter_append ..

theorem code_cons (h : token.lexeme.isCode = true) :
    code (token :: tokens) = token :: code tokens :=
  List.filter_cons_of_pos h

theorem code_skip (h : token.lexeme.isCode = false) : code (token :: tokens) = code tokens :=
  List.filter_cons_of_neg (by rw [h]; exact Bool.false_ne_true)

end Token

/-- The trees start with the first and end with the last of the tokens that are code. -/
structure Trims (tokens : List Token) (nodes : List Outline) : Prop where
  start_eq : nodes.head?.map (·.info.start) = (Token.code tokens).head?.map (·.span.start)
  stop_eq : nodes.getLast?.map (·.info.stop) = (Token.code tokens).getLast?.map (·.span.stop)

namespace Trims

variable {tokens more : List Token} {nodes others : List Outline} {token : Token}

theorem nil : Trims [] [] := ⟨rfl, rfl⟩

theorem append (h : Trims tokens nodes) (hm : Trims more others) :
    Trims (tokens ++ more) (nodes ++ others) where
  start_eq := by
    rw [Token.code_append, List.head?_append, List.head?_append, Option.map_or, Option.map_or,
      h.start_eq, hm.start_eq]
  stop_eq := by
    rw [Token.code_append, List.getLast?_append, List.getLast?_append, Option.map_or,
      Option.map_or, h.stop_eq, hm.stop_eq]

theorem skip (ht : token.lexeme.isCode = false) (h : Trims tokens nodes) :
    Trims (token :: tokens) nodes := by
  have hcode : Token.code (token :: tokens) = Token.code tokens := Token.code_skip ht
  exact ⟨hcode ▸ h.start_eq, hcode ▸ h.stop_eq⟩

theorem collapse (h : Trims tokens nodes) : Trims tokens (StateDiagram.collapse nodes).toList := by
  match nodes with
  | [] | [_] => exact h
  | first :: second :: rest =>
    refine ⟨h.start_eq, ?_⟩
    rw [← h.stop_eq, List.getLast?_cons_cons,
      List.getLast?_eq_some_getLast (List.cons_ne_nil second rest)]
    rfl

theorem single {node : Outline} (hs : node.info.start = token.span.start)
    (hf : token.lexeme.isCode = true) (hl : (token :: tokens).getLast? = some last)
    (hc : last.lexeme.isCode = true) (he : node.info.stop = last.span.stop) :
    Trims (token :: tokens) [node] where
  start_eq := by
    rw [Token.code_cons hf, List.head?_cons, List.head?_cons, Option.map_some, Option.map_some, hs]
  stop_eq := by
    obtain ⟨front, hfront⟩ := List.getLast?_eq_some_iff.1 hl
    rw [hfront, Token.code_append, Token.code_cons hc, List.getLast?_append, Token.code,
      List.filter_nil, List.getLast?_singleton, List.getLast?_singleton, Option.some_or,
      Option.map_some, Option.map_some, he]

end Trims

/-- The cursor stands in the source, and the tokens ahead close the open brackets. -/
structure Cursor.Poised (source : Source) (opened : List Bracket) (cursor : Cursor) : Prop where
  sound : cursor.Sound source
  nest : Token.nest opened cursor.rest = true

/-- The tokens between the cursors close the given brackets and all that they open, and the last
of them is code, unless there are none. -/
inductive Cursor.Balances (cursor : Cursor) : List Bracket → Cursor → Prop where
  | refl : Balances cursor [] cursor
  | past (passed : List Token) (hr : cursor.rest = passed ++ token :: behind)
      (hn : Token.nest opened (passed ++ [token]) = true) (hc : token.lexeme.isCode = true) :
      Balances cursor opened (.past token behind)

/-- The tokens between the cursors close the given brackets and all that they open. In a statement
the trees are what is read from those of them that are code. -/
def Cursor.Delivers (setting : Setting) (cursor : Cursor) (opened : List Bracket)
    (nodes : List Outline) (next : Cursor) : Prop :=
  ∃ taken, cursor.rest = taken ++ next.rest ∧ Token.nest opened taken = true ∧
    (setting = .statement → Trims taken nodes)

namespace Cursor.Poised

variable {cursor next : Cursor} {token : Token} {rest taken : List Token} {bracket : Bracket}
  {opened outer : List Bracket}

theorem ne_nil (h : cursor.Poised source (bracket :: outer)) : cursor.rest ≠ [] := by
  intro hr
  have hn := h.nest
  rw [hr] at hn
  cases hn

theorem drop (h : cursor.Poised source (opened ++ outer)) (hl : cursor.Leads next)
    (hr : cursor.rest = taken ++ next.rest) (hn : Token.nest opened taken = true) :
    next.Poised source outer := by
  refine ⟨h.sound.leads hl, ?_⟩
  rw [← Token.nest_append hn, ← hr]
  exact h.nest

theorem ahead (h : cursor.Poised source opened) (hl : cursor.Leads next)
    (hr : cursor.rest = taken ++ next.rest) (hn : Token.nest [] taken = true) :
    next.Poised source opened := by
  rw [← List.nil_append opened] at h
  exact h.drop hl hr hn

theorem opening (h : cursor.Poised source opened) (hr : cursor.rest = token :: rest)
    (ht : token.lexeme = .opening bracket) :
    (Cursor.past token rest).Poised source (bracket :: opened) := by
  refine ⟨h.sound.leads (.head hr), ?_⟩
  rw [← Token.nest_opening ht, Cursor.past, ← hr]
  exact h.nest

theorem closing (h : cursor.Poised source opened) (hr : cursor.rest = token :: rest)
    (ht : token.lexeme = .closing bracket) :
    ∃ outer, opened = bracket :: outer ∧ (Cursor.past token rest).Poised source outer := by
  have hn := h.nest
  rw [hr] at hn
  obtain ⟨outer, ho, hn⟩ := (Token.nest_closing ht).1 hn
  exact ⟨outer, ho, h.sound.leads (.head hr), hn⟩

theorem plain (h : cursor.Poised source opened) (hr : cursor.rest = token :: rest)
    (ht : token.lexeme.isBracket = false) : (Cursor.past token rest).Poised source opened := by
  refine ⟨h.sound.leads (.head hr), ?_⟩
  rw [← Token.nest_of_not_isBracket ht, Cursor.past, ← hr]
  exact h.nest

theorem behind (h : cursor.Poised source opened) (hr : cursor.rest = token :: rest)
    (ht : token.lexeme.isClosing = false) :
    (Cursor.past token rest).Poised source (token.lexeme.opens ++ opened) := by
  cases hl : token.lexeme with
  | opening bracket => exact h.opening hr hl
  | closing bracket =>
    rw [hl] at ht
    cases ht
  | _ => exact h.plain hr (by rw [hl]; rfl)

theorem balances (h : cursor.Poised source (opened ++ outer)) (hb : cursor.Balances opened next) :
    next.Poised source outer := by
  cases hb with
  | refl => exact h
  | past passed hr hn => exact h.drop (.past hr) (hr.trans (List.append_cons ..)) hn

end Cursor.Poised

namespace Cursor.Balances

variable {cursor mid next : Cursor} {token : Token} {rest : List Token} {bracket : Bracket}
  {opened : List Bracket}

theorem taken (h : cursor.Balances opened next) :
    ∃ taken, cursor.rest = taken ++ next.rest ∧ Token.nest opened taken = true := by
  cases h with
  | refl => exact ⟨[], rfl, rfl⟩
  | past passed hr hn => exact ⟨_, hr.trans (List.append_cons ..), hn⟩

theorem trans (h : cursor.Balances opened mid) (hn : mid.Balances [] next) :
    cursor.Balances opened next := by
  cases hn with
  | refl => exact h
  | @past token behind _ passed hr hnest hc =>
    obtain ⟨taken, ht, htaken⟩ := h.taken
    refine .past (taken ++ passed) (by rw [ht, hr, List.append_assoc]) ?_ hc
    have happend := Token.nest_append htaken [] (passed ++ [token])
    rw [List.append_nil] at happend
    rw [List.append_assoc, happend, hnest]

theorem prepend (h : mid.Balances (bracket :: opened) next) (front : List Token)
    (hr : cursor.rest = front ++ mid.rest) (hf : Token.nest [] front = true) :
    cursor.Balances (bracket :: opened) next := by
  cases h with
  | past passed hm hn hc =>
    refine .past (front ++ passed) (by rw [hr, hm, List.append_assoc]) ?_ hc
    rw [List.append_assoc]
    exact (Token.nest_append hf _ _).trans hn

theorem opening (hr : cursor.rest = token :: rest) (ht : token.lexeme = .opening bracket)
    (h : (Cursor.past token rest).Balances (bracket :: opened) next) :
    cursor.Balances opened next := by
  cases h with
  | past passed hm hn hc =>
    refine .past (token :: passed) (hr.trans (congrArg (token :: ·) hm)) ?_ hc
    rw [List.cons_append, Token.nest_opening ht]
    exact hn

theorem closing (hr : cursor.rest = token :: rest) (ht : token.lexeme = .closing bracket) :
    cursor.Balances [bracket] (.past token rest) :=
  .past [] hr ((Token.nest_closing ht).2 ⟨[], rfl, rfl⟩) (by rw [ht]; rfl)

theorem trims {node : Outline} {taken : List Token}
    (h : (Cursor.past token rest).Balances opened next)
    (hc : token.lexeme.isCode = true) (hs : node.info.start = token.span.start)
    (he : node.info.stop = next.previousEnd) (hr : rest = taken ++ next.rest) :
    Trims (token :: taken) [node] := by
  cases h with
  | refl =>
    have hnil : taken = [] := List.self_eq_append_left.1 hr
    subst hnil
    exact .single hs hc rfl hc he
  | @past last behind _ passed hm hn hlast =>
    have happend : passed ++ [last] ++ behind = taken ++ behind := by
      rw [← List.append_cons]
      exact hm.symm.trans hr
    have htaken := List.append_cancel_right happend
    refine .single hs hc ?_ hlast he
    rw [← htaken, ← List.cons_append, List.getLast?_concat]

end Cursor.Balances

namespace Cursor.Delivers

variable {cursor mid next : Cursor} {token : Token} {rest : List Token} {setting : Setting}
  {opened : List Bracket} {nodes others : List Outline}

theorem nil (setting : Setting) (cursor : Cursor) : cursor.Delivers setting [] [] cursor :=
  ⟨[], rfl, rfl, fun _ => .nil⟩

theorem append (h : cursor.Delivers setting [] nodes mid)
    (hn : mid.Delivers setting opened others next) :
    cursor.Delivers setting opened (nodes ++ others) next := by
  obtain ⟨taken, hr, ht, htrims⟩ := h
  obtain ⟨more, hm, hmore, hothers⟩ := hn
  refine ⟨taken ++ more, ?_, ?_, fun hs => (htrims hs).append (hothers hs)⟩
  · rw [hr, hm, List.append_assoc]
  · exact (Token.nest_append ht opened more).trans hmore

theorem collapse (h : cursor.Delivers setting opened nodes next) :
    cursor.Delivers setting opened (StateDiagram.collapse nodes).toList next := by
  obtain ⟨taken, hr, ht, htrims⟩ := h
  exact ⟨taken, hr, ht, fun hs => (htrims hs).collapse⟩

theorem skip (hr : cursor.rest = token :: rest)
    (ht : token.lexeme = .lineBreak ∨ token.lexeme = Setting.statement.separator)
    (h : (Cursor.past token rest).Delivers setting opened nodes next) :
    cursor.Delivers setting opened nodes next := by
  obtain ⟨taken, hm, hn, htrims⟩ := h
  refine ⟨token :: taken, hr.trans (congrArg (token :: ·) hm), ?_, fun hs => ?_⟩
  · rwa [Token.nest_of_not_isBracket (Lexeme.isBracket_of_skipped .statement ht)]
  · exact (htrims hs).skip (Lexeme.isCode_of_skipped ht)

theorem item {node : Outline} (hr : cursor.rest = token :: rest)
    (ht : setting.Starts token.lexeme) (hs : node.info.start = token.span.start)
    (hb : (Cursor.past token rest).Balances token.lexeme.opens next)
    (he : node.info.stop = next.previousEnd) : cursor.Delivers setting [] [node] next := by
  obtain ⟨taken, hm, hn⟩ := hb.taken
  refine ⟨token :: taken, hr.trans (congrArg (token :: ·) hm), Token.nest_cons ht.2.2 hn, ?_⟩
  rintro rfl
  exact hb.trims (Lexeme.isCode_of_starts ht) hs he hm

theorem stray (hr : cursor.rest = token :: rest) (ht : token.lexeme = .closing bracket)
    (h : (Cursor.past token rest).Delivers .statement opened nodes next) :
    cursor.Delivers .statement (bracket :: opened) (.token token.span :: nodes) next := by
  obtain ⟨taken, hm, hn, htrims⟩ := h
  refine ⟨token :: taken, hr.trans (congrArg (token :: ·) hm), ?_, fun hs => ?_⟩
  · rwa [Token.nest_closing_cons ht]
  · have hc : token.lexeme.isCode = true := by
      rw [ht]
      rfl
    have hlast : [token].getLast? = some token := rfl
    exact (Trims.single rfl hc hlast hc rfl).append (htrims hs)

end Cursor.Delivers

end StateDiagram
