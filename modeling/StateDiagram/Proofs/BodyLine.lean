import StateDiagram.Proofs.Printing
import StateDiagram.Proofs.Row

namespace StateDiagram

set_option autoImplicit true

open Layout Text

/-- A line in the body of a builder: a statement of the builder language, or host code. -/
inductive BodyLine where
  | initial (name : Identifier)
  | state (name : Identifier)
  /-- A value that is a number. -/
  | value (name : Identifier) (number : Numeral)
  /-- A call of a function that is no statement of a builder. -/
  | call (callee : Identifier) (text : PlainText)
      (foreign : callee.text ≠ "initialState" ∧ callee.text ≠ "state")
  /-- A variable without a value; its type has one type argument. -/
  | declaration (name container content : Identifier)
  /-- A value that is a function of the given type. -/
  | function (name : Identifier) (parameters : List Identifier) (result body : Identifier)

namespace BodyLine

def print : BodyLine → String
  | initial name => "initialState(" ++ name.text ++ ")"
  | state name => "state<" ++ name.text ++ "> \x7b \x7d"
  | value name number => "val " ++ name.text ++ " = " ++ number.text
  | call callee text _ => callee.text ++ "(" ++ text.quoted ++ ")"
  | declaration name container content =>
    "lateinit var " ++ name.text ++ ": " ++ container.text ++ "<" ++ content.text ++ ">"
  | function name parameters result body =>
    "val " ++ name.text ++ ": (" ++ ", ".intercalate (parameters.map Identifier.text) ++ ") -> " ++
      result.text ++ " = " ++ body.text

def statement? : BodyLine → Option Statement
  | initial name => some (.initial name.text)
  | state name => some (.state { name := name.text })
  | _ => none

def isDeclaration : BodyLine → Bool
  | declaration _ _ _ => true
  | _ => false

/-- Whether the whole line may stand in the parameters of a lambda. -/
def isParameter : BodyLine → Bool
  | initial _ | declaration _ _ _ => true
  | _ => false

def isFunction : BodyLine → Bool
  | function _ _ _ _ => true
  | _ => false

end BodyLine

/-- The statements of the lines that are not taken in by the line above them. -/
def keptStatements (taken : Bool) : List BodyLine → List Statement
  | [] => []
  | line :: lines =>
    (if taken then [] else line.statement?.toList) ++ keptStatements line.isDeclaration lines

namespace Word

def value : Identifier := ⟨"val", by decide⟩

def mutable : Identifier := ⟨"var", by decide⟩

def lateinit : Identifier := ⟨"lateinit", by decide⟩

end Word

def moreParameters : List Identifier → Layout
  | [] => [closing .round]
  | name :: names => comma :: .space :: name.piece :: moreParameters names

def parametersLayout : List Identifier → Layout
  | [] => [closing .round]
  | name :: names => name.piece :: moreParameters names

def parametersItems : List Identifier → List (Node String)
  | [] => []
  | name :: names => name.tree :: names.flatMap fun name => [operatorTree ",", name.tree]

namespace BodyLine

def emptyState (name : Identifier) : Inscription :=
  (HeadingScript.typed ⟨name, []⟩).inscription Word.state
    ⟨braces [.space], .lambda (Layout.text (braces [.space])) none (.block "" [])⟩

def functionFront (name : Identifier) (parameters : List Identifier) : Layout :=
  Word.value.piece :: .space :: name.piece :: sign ":" :: .space :: opening .round ::
    parametersLayout parameters

def functionBack (result body : Identifier) : Layout :=
  result.piece :: .space :: sign "=" :: .space :: [body.piece]

def row : BodyLine → Row
  | initial name =>
    let script := (StatementScript.initial (.bare ⟨name, []⟩)).inscription 0
    ⟨script.layout, [script.tree], false, some (.initial name.text)⟩
  | state name =>
    ⟨(emptyState name).layout, [(emptyState name).tree], false,
      some (.state { name := name.text })⟩
  | value name number =>
    ⟨Word.value.piece :: .space :: name.piece :: .space :: sign "=" :: .space :: [number.piece],
      [Word.value.tree, name.tree, operatorTree "=", number.tree], false, none⟩
  | call callee text _ =>
    let script := Inscription.call callee [text.piece, closing .round]
      [(NameScript.quoted text).inscription.argument]
    ⟨script.layout, [script.tree], false, none⟩
  | declaration name container content =>
    ⟨Word.lateinit.piece :: .space :: Word.mutable.piece :: .space :: name.piece :: sign ":" ::
        .space :: container.piece :: [less, content.piece, greater],
      [Word.lateinit.tree, Word.mutable.tree, name.tree, operatorTree ":", container.tree,
        operatorTree "<", content.tree, operatorTree ">"], true, none⟩
  | function name parameters result body =>
    ⟨functionFront name parameters ++ .space :: sign "->" :: .space :: functionBack result body,
      [Word.value.tree, name.tree, operatorTree ":",
        .group (Layout.text (opening .round :: parametersLayout parameters))
          (parametersItems parameters),
        operatorTree "->", result.tree, operatorTree "=", body.tree], false, none⟩

end BodyLine

theorem ReadsItems.name (name : Identifier) (width : Nat) (hl : g.Leaves Cursor.EndsExpression)
    (hg : ReadsItems (n + 1) g carried trees) :
    ReadsItems (n + 1) (name.piece :: (List.replicate width .space ++ g)) carried
      (name.tree :: trees) :=
  .cons width (ReadsName.bare name).head.expression rfl ⟨nofun, nofun, rfl⟩ hl hg

theorem ReadsItems.operator {text : String} (hs : Setting.statement.Starts (.operator text))
    (width : Nat) (hl : g.Leaves Cursor.EndsSuffixes) (hg : ReadsItems (n + 1) g carried trees) :
    ReadsItems (n + 1) (sign text :: (List.replicate width .space ++ g)) carried
      (operatorTree text :: trees) :=
  .cons width (readsBefore_operator text) rfl hs hl hg

theorem ReadsItems.expression (h : ReadsExpression n f tree) (hw : f.words = first :: more)
    (hp : first.isPlain = true) : ReadsItems n f false [tree] := by
  have hi := ReadsItems.one h hw (Lexeme.starts_of_isPlain hp _)
    fun stop _ ha => EndsStatement.endsExpression stop ha
  rwa [Lexeme.isCarrying_of_isPlain hp, Bool.and_false] at hi

def ReadsGroup (n : Nat) (layout : Layout) (trees : List (Node String)) : Prop :=
  ∀ ⦃source : Source⦄ ⦃start stop : Nat⦄ (prior : Nat) (after : List Token),
    source.Holds start stop layout →
    ∃ nodes, Derives source n (.groupItems .round ⟨prior, layout.tokens start ++ after⟩ nodes
        ⟨stop, after⟩) ∧
      nodes.map (Node.map source.slice) = trees

theorem ReadsGroup.close : ReadsGroup n [closing .round] [] := by
  intro source start stop prior after hh
  obtain ⟨mid, ht, _, hn⟩ := hh.word
  obtain rfl := hn.nil
  have hd : Derives source n (.groupItems .round
      ⟨prior, ⟨.closing .round, ⟨start, mid⟩⟩ :: after⟩ []
      (if Bracket.round = .round then .past ⟨.closing .round, ⟨start, mid⟩⟩ after
        else ⟨prior, ⟨.closing .round, ⟨start, mid⟩⟩ :: after⟩)) := .groupClose rfl rfl
  rw [if_pos rfl] at hd
  rw [closing, ht]
  exact ⟨[], hd, rfl⟩

theorem ReadsGroup.cons {ends : Cursor → Prop} (width : Nat) (h : ReadsBefore ends n f tree)
    (hw : f.words = first :: more) (hb : first ≠ .lineBreak) (hc : first.isClosing = false)
    (hs : g.Severs ends)
    (hg : ReadsGroup n g trees) :
    ReadsGroup n (f ++ (List.replicate width .space ++ g)) (tree :: trees) := by
  intro source start stop prior after hh
  obtain ⟨mid, hf, hgap, ht⟩ := hh.append
  have hbehind := hgap.spaces
  obtain ⟨nodes, hd, hn⟩ := hg mid after hbehind
  obtain ⟨token, rest, node, hft, _, hi, hnode⟩ := h hf (hs _ mid after)
  obtain ⟨_, _, ht', rfl, _⟩ := Layout.exists_token hw start
  obtain ⟨rfl, rfl⟩ := List.cons.inj (hft.symm.trans ht')
  refine ⟨node :: nodes, ?_, by rw [List.map_cons, hnode.texts, hn]⟩
  rw [ht, tokens_spaces, hft, List.append_assoc, List.cons_append]
  exact .groupItem rfl hb hc hi hd

theorem ReadsGroup.name (name : Identifier) (hs : g.Severs Cursor.EndsExpression)
    (hg : ReadsGroup (n + 1) g trees) : ReadsGroup (n + 1) (name.piece :: g) (name.tree :: trees) :=
  .cons 0 (ReadsName.bare name).head.expression rfl nofun rfl hs hg

theorem readsGroup_moreParameters (names : List Identifier) :
    ReadsGroup (n + 1) (moreParameters names)
      (names.flatMap fun name => [operatorTree ",", name.tree]) ∧
    (moreParameters names).Severs Cursor.EndsExpression := by
  induction names with
  | nil => exact ⟨.close, severs_expression rfl nofun rfl rfl⟩
  | cons name names ih =>
    refine ⟨?_, severs_expression rfl nofun rfl rfl⟩
    have hn := ReadsGroup.name name ih.2 ih.1
    exact .cons 1 (readsBefore_operator ",") rfl nofun rfl (severs_suffixes rfl nofun rfl nofun) hn

theorem readsGroup_parametersLayout (names : List Identifier) :
    ReadsGroup (n + 1) (parametersLayout names) (parametersItems names) := by
  cases names with
  | nil => exact .close
  | cons name names =>
    obtain ⟨hg, hs⟩ := readsGroup_moreParameters (n := n) names
    exact .name name hs hg

theorem ReadsGroup.group (h : ReadsGroup n f trees) :
    ReadsBefore Cursor.EndsSuffixes (n + 2) (opening .round :: f)
      (.group (Layout.text (opening .round :: f)) trees) := by
  intro source start stop after hh he
  obtain ⟨mid, ht, _, hf⟩ := hh.word
  obtain ⟨nodes, hd, hn⟩ := h mid after hf
  refine ⟨_, f.tokens mid, .group ⟨start, stop⟩ nodes, ht, rfl,
    .expression (.brackets rfl nofun (.group hd)) (.noSuffix he.member he.index), rfl, ?_⟩
  rw [Node.map, hh.slice_eq, hn]

namespace BodyLine

theorem readsItems_functionBack (result body : Identifier) :
    ReadsItems (n + 1) (functionBack result body) false
      [result.tree, operatorTree "=", body.tree] := by
  have hb : ReadsItems (n + 1) [body.piece] false [body.tree] :=
    .expression (ReadsName.bare body).head.expression rfl rfl
  exact .name result 1 (leaves_expression rfl nofun rfl rfl)
    (.operator ⟨nofun, by decide, rfl⟩ 1 (leaves_suffixes rfl nofun rfl nofun) hb)

theorem readsItems (line : BodyLine) :
    ReadsItems (n + 3) line.row.layout line.row.carries line.row.items := by
  cases line with
  | initial name =>
    have hr : ReadsValues (n + 2) _ _ := .last (NameScript.readsArgument (.bare ⟨name, []⟩))
    exact .expression (ReadsName.arguments Word.initialState hr).head.expression rfl rfl
  | state name =>
    have hl : ReadsLambda (n + 2) (braces [.space]) _ :=
      .blank (List.forall_mem_singleton.2 (.inl rfl))
    exact .expression
      (HeadingScript.reads (.typed ⟨name, []⟩) Word.state hl).head.expression rfl rfl
  | value name number =>
    have hn : ReadsItems (n + 3) [number.piece] false [number.tree] :=
      .expression (ReadsHead.number number).expression rfl rfl
    exact .name _ 1 (leaves_expression rfl nofun rfl rfl)
      (.name name 1 (leaves_expression rfl nofun rfl rfl)
        (.operator ⟨nofun, by decide, rfl⟩ 1 (leaves_suffixes rfl nofun rfl nofun) hn))
  | call callee text _ =>
    have hr : ReadsValues (n + 2) _ _ := .last (NameScript.readsArgument (.quoted text))
    exact .expression (ReadsName.arguments callee hr).head.expression rfl rfl
  | declaration name container content =>
    have hg : ReadsItems (n + 3) [greater] true [operatorTree ">"] :=
      .one (readsBefore_operator ">") rfl ⟨nofun, by decide, rfl⟩
        fun stop _ ha => EndsStatement.endsSuffixes stop ha
    have ht : ReadsItems (n + 3) (container.piece :: [less, content.piece, greater]) true
        [container.tree, operatorTree "<", content.tree, operatorTree ">"] :=
      .name container 0 (leaves_angle content)
        (.operator ⟨nofun, by decide, rfl⟩ 0 (leaves_suffixes rfl nofun rfl nofun)
          (.name content 0 (leaves_expression rfl nofun rfl rfl) hg))
    exact .name _ 1 (leaves_expression rfl nofun rfl rfl)
      (.name _ 1 (leaves_expression rfl nofun rfl rfl)
        (.name name 0 (leaves_expression rfl nofun rfl rfl)
          (.operator ⟨nofun, by decide, rfl⟩ 1 (leaves_suffixes rfl nofun rfl nofun) ht)))
  | function name parameters result body =>
    have hb : ReadsItems (n + 3) (sign "->" :: .space :: functionBack result body) false
        [operatorTree "->", result.tree, operatorTree "=", body.tree] :=
      .operator ⟨nofun, by decide, rfl⟩ 1 (leaves_suffixes rfl nofun rfl nofun)
        (readsItems_functionBack result body)
    have hl : Layout.Leaves Cursor.EndsSuffixes (sign "->" :: .space :: functionBack result body) :=
      leaves_suffixes rfl nofun rfl nofun
    have hg : ReadsItems (n + 3) _ false (.group _ (parametersItems parameters) :: _) :=
      .cons 1 (readsGroup_parametersLayout parameters).group rfl ⟨nofun, nofun, rfl⟩ hl hb
    exact .name _ 1 (leaves_expression rfl nofun rfl rfl)
      (.name name 0 (leaves_expression rfl nofun rfl rfl)
        (.operator ⟨nofun, by decide, rfl⟩ 1 (leaves_suffixes rfl nofun rfl nofun) hg))

theorem quiet_operatorTree (text : String) : (operatorTree text).Quiet n :=
  .leaf (Node.ofNode?_placed nofun) rfl

theorem quiet_parametersItems (names : List Identifier) :
    ∀ item ∈ parametersItems names, item.Quiet n := by
  cases names with
  | nil => exact List.forall_mem_nil _
  | cons name names =>
    refine List.forall_mem_cons.2 ⟨.identifier name, fun item hm => ?_⟩
    obtain ⟨other, _, hm⟩ := List.mem_flatMap.1 hm
    simp only [List.mem_cons, List.not_mem_nil, or_false] at hm
    rcases hm with rfl | rfl
    · exact quiet_operatorTree ","
    · exact .identifier other

theorem quiet (line : BodyLine) : ∀ item ∈ line.row.items, item.Quiet 3 := by
  have ht (text : String) : (operatorTree text).Quiet 3 := quiet_operatorTree text
  have hi (name : Identifier) : name.tree.Quiet 3 := .identifier name
  have ha (callee : Identifier) (name : NameScript) (layout : Layout) :
      (Inscription.call callee layout [name.inscription.argument]).tree.Quiet 3 :=
    .call [] (List.forall_mem_singleton.2 (.valueArgument name.quiet)) nofun
  cases line with
  | initial name => exact List.forall_mem_singleton.2 (ha Word.initialState (.bare ⟨name, []⟩) _)
  | state name =>
    have hl : (Node.lambda (Layout.text (braces [.space])) none (.block "" [])).Quiet 2 :=
      .lambda (.block (List.forall_mem_nil _))
    exact List.forall_mem_singleton.2 (HeadingScript.quiet (.typed ⟨name, []⟩) Word.state hl)
  | value name number =>
    have hn : number.tree.Quiet 3 := .leaf (Node.ofNode?_placed nofun) rfl
    simp only [row, List.forall_mem_cons]
    exact ⟨hi _, hi _, ht _, hn, List.forall_mem_nil _⟩
  | call callee text _ => exact List.forall_mem_singleton.2 (ha callee (.quoted text) _)
  | declaration name container content =>
    simp only [row, List.forall_mem_cons]
    exact ⟨hi _, hi _, hi _, ht _, hi _, ht _, hi _, ht _, List.forall_mem_nil _⟩
  | function name parameters result body =>
    simp only [row, List.forall_mem_cons]
    exact ⟨hi _, hi _, ht _, .of_children (Node.ofNode?_placed nofun) (quiet_parametersItems _),
      ht _, hi _, ht _, hi _, List.forall_mem_nil _⟩

theorem statement?_foreign {call : BuilderCall} (hi : call.name ≠ "initialState")
    (hs : call.name ≠ "state") : call.statement? limit depth = .ok none := by
  rw [BuilderCall.statement?]
  split
  · next h => exact (hi h).elim
  · next h => exact (hs h).elim
  · rfl

theorem yields (line : BodyLine) (hd : depth + 2 ≤ limit) (hc : line.row.carries = false) :
    Yields limit depth (joined line.row.layout.text line.row.items) line.row.found := by
  cases line with
  | initial name => exact StatementScript.yields 0 (.initial (.bare ⟨name, []⟩)) hd
  | state name =>
    have hs := StateScript.state?_eq ⟨.typed ⟨name, []⟩, [], [], []⟩ (Layout.text (braces [.space]))
      "" hd
    exact .inr ⟨_, BuilderCall.ofNode?_placed .., BuilderCall.statement?_state rfl hs⟩
  | value name number => exact yields_sequence _ _
  | call callee text foreign =>
    exact .inr ⟨_, BuilderCall.ofNode?_placed .., statement?_foreign foreign.1 foreign.2⟩
  | declaration name container content => cases hc
  | function name parameters result body => exact yields_sequence _ _

theorem sound (line : BodyLine) (hd : depth + 2 ≤ limit) : line.row.Sound (n + 3) limit depth where
  reads := line.readsItems
  leading first hf := by cases line <;> cases hf <;> rfl
  quiet := line.quiet
  yields := line.yields hd
  wide hc := by
    cases line with
    | declaration name container content => exact ⟨⟨_, _, _, rfl⟩, rfl⟩
    | _ => cases hc

theorem carries_row (line : BodyLine) : line.row.carries = line.isDeclaration := by
  cases line <;> rfl

theorem found_row (line : BodyLine) : line.row.found = line.statement? := by
  cases line <;> rfl

theorem kept_rows (taken : Bool) (lines : List BodyLine) :
    Row.kept taken (lines.map row) = keptStatements taken lines := by
  induction lines generalizing taken with
  | nil => rfl
  | cons line lines ih =>
    rw [List.map_cons, Row.kept, keptStatements, found_row, carries_row, ih]

theorem chars_parametersLayout (names : List Identifier) :
    (parametersLayout names).chars =
      (", ".intercalate (names.map Identifier.text)).toList ++ [')'] := by
  have hm (names : List Identifier) : (moreParameters names).chars =
      ((names.map Identifier.text).map String.toList).flatMap (", ".toList ++ ·) ++ [')'] := by
    induction names with
    | nil => rfl
    | cons name names ih => rw [moreParameters, chars_cons, chars_cons, chars_cons, ih]; simp
  rw [String.toList_intercalate]
  cases names with
  | nil => rfl
  | cons name names =>
    rw [parametersLayout, chars_cons, hm, List.map_cons, List.map_cons, intercalate_cons,
      List.append_assoc]
    rfl

theorem chars_row (line : BodyLine) : line.row.layout.chars = line.print.toList := by
  have hc (name : Identifier) : Chain.text ⟨name, []⟩ = name.text := rfl
  unfold print
  cases line with
  | initial name =>
    have hn := NameScript.chars_inscription (.bare ⟨name, []⟩)
    rw [NameScript.print, hc] at hn
    simp [row, StatementScript.inscription, Inscription.call, hn, Word.initialState,
      Bracket.opening, Bracket.closing]
  | state name =>
    have hl := HeadingScript.chars_layout (.typed ⟨name, []⟩)
    rw [HeadingScript.print, hc] at hl
    simp [row, emptyState, HeadingScript.inscription, Inscription.heading, hl, chars_braces,
      Word.state]
  | value name number => simp [row, Word.value]
  | call callee text _ => simp [row, Inscription.call, Bracket.opening, Bracket.closing]
  | declaration name container content => simp [row, Word.lateinit, Word.mutable]
  | function name parameters result body =>
    simp [row, Word.value, functionFront, functionBack, chars_parametersLayout, Bracket.opening]

theorem neat_parametersLayout (names : List Identifier) (after : List Char) :
    Neat after (parametersLayout names) := by
  have hm (names : List Identifier) :
      Neat after (moreParameters names) ∧ Delimits ((moreParameters names).chars ++ after) := by
    induction names with
    | nil => exact ⟨.closing .round .nil, .cons (by decide)⟩
    | cons name names ih => exact ⟨.comma (name.neat ih.2 ih.1), .cons (by decide)⟩
  cases names with
  | nil => exact .closing .round .nil
  | cons name names => exact name.neat (hm names).2 (hm names).1

theorem scanned_row (line : BodyLine) : Layout.Scanned ('\n' :: after) line.row.layout := by
  cases line with
  | initial name => exact (StatementScript.closed 0 (.initial (.bare ⟨name, []⟩)) _).scanned
  | state name =>
    have hb : (Inscription.mk (braces [.space]) (emptyState name).tree).Closed :=
      fun after => Inscription.neat_braces Neat.nil.space
    exact (HeadingScript.closed (.typed ⟨name, []⟩) Word.state hb _).scanned
  | value name number =>
    have hn : Neat ('\n' :: after) (sign "=" :: .space :: [number.piece]) :=
      Neat.spaced (c := '=') (by decide) (by decide) (number.neat (.cons (by decide)) .nil)
    have hv := name.neat (.cons (by decide)) hn.space
    exact (Word.value.neat (.cons (by decide)) hv.space).scanned
  | call callee text _ =>
    have ht : Neat ('\n' :: after) [text.piece, closing .round] :=
      text.neat (.cons (by decide)) (.closing .round .nil)
    exact (callee.neat (.cons (by decide)) (.opening .round ht)).scanned
  | declaration name container content =>
    have hc : Neat ('\n' :: after) [content.piece, greater] := by
      refine content.neat (.cons (by decide)) (.greater (fun d hd => ?_) .nil)
      cases hd
      decide
    have hl : Neat ('\n' :: after) [less, content.piece, greater] :=
      content.neat_operator (c := '<') (by decide) (by decide) hc
    have ht := Neat.spaced (c := ':') (by decide) (by decide)
      (container.neat (.cons (by decide)) hl)
    have hn := name.neat (.cons (by decide)) ht
    have hm := Word.mutable.neat (.cons (by decide)) hn.space
    exact (Word.lateinit.neat (.cons (by decide)) hm.space).scanned
  | function name parameters result body =>
    have hb : Neat ('\n' :: after) (functionBack result body) := by
      have hs : Neat ('\n' :: after) (sign "=" :: .space :: [body.piece]) :=
        Neat.spaced (c := '=') (by decide) (by decide) (body.neat (.cons (by decide)) .nil)
      exact result.neat (.cons (by decide)) hs.space
    have hf (after : List Char) : Neat after (functionFront name parameters) := by
      have hp := Neat.opening .round (neat_parametersLayout parameters after)
      have hn := name.neat (.cons (by decide)) (Neat.spaced (c := ':') (by decide) (by decide) hp)
      exact Word.value.neat (.cons (by decide)) hn.space
    have ha : Layout.Scanned ('\n' :: after)
        (.space :: sign "->" :: .space :: functionBack result body) := by
      refine ⟨⟨Lexeme.recognized_arrow _, hb.lexical⟩, ?_⟩
      simpa using hb.cr
    exact scanned_append.2 ⟨(hf _).scanned, ha⟩

end BodyLine

end StateDiagram
