import StateDiagram.Proofs.Body
import StateDiagram.Proofs.Script
import StateDiagram.Proofs.Spacing

namespace StateDiagram

set_option autoImplicit true

open Layout Text

namespace Inscription

def argument (value : Inscription) : Node String := .valueArgument value.layout.text none value.tree

def call (callee : Identifier) (inside : Layout) (values : List (Node String)) : Inscription where
  layout := callee.piece :: opening .round :: inside
  tree := .call (Layout.text (callee.piece :: opening .round :: inside)) callee.tree [] values none

def heading (callee : Identifier) (between : Layout) (types values : List (Node String))
    (body : Inscription) : Inscription where
  layout := callee.piece :: (between ++ .space :: body.layout)
  tree := .call (Layout.text (callee.piece :: (between ++ .space :: body.layout))) callee.tree types
    values (some body.tree)

end Inscription

def NameScript.inscription : NameScript → Inscription
  | quoted plain => ⟨[plain.piece], plain.tree⟩
  | bare chain => chain.inscription

namespace HeadingScript

def layout : HeadingScript → Layout
  | named name => opening .round :: (name.inscription.layout ++ [closing .round])
  | typed chain => less :: (chain.layout ++ [greater])

def types : HeadingScript → List (Node String)
  | named _ => []
  | typed chain => [.typeArgument chain.layout.text]

def values : HeadingScript → List (Node String)
  | named name => [name.inscription.argument]
  | typed _ => []

def inscription (callee : Identifier) (script : HeadingScript) (body : Inscription) : Inscription :=
  .heading callee script.layout script.types script.values body

end HeadingScript

def ArgumentScript.inscription : ArgumentScript → Inscription
  | identifier name => ⟨[name.piece], name.tree⟩
  | number numeral => ⟨[numeral.piece], numeral.tree⟩

def argumentsLayout (first : ArgumentScript) : List ArgumentScript → Layout
  | [] => first.inscription.layout ++ [closing .round]
  | second :: rest => first.inscription.layout ++ comma :: .space :: argumentsLayout second rest

def TargetScript.inscription : TargetScript → Inscription
  | plain name => name.inscription
  | call function first rest =>
    .call function (argumentsLayout first rest)
      ((first :: rest).map fun argument => argument.inscription.argument)

namespace TransitionScript

def movesLayout (script : TransitionScript) : Layout :=
  script.target.inscription.layout ++ match script.sideEffect with
    | none => [closing .round]
    | some name => comma :: .space :: (name.inscription.layout ++ [closing .round])

def move (script : TransitionScript) : Inscription :=
  .call Word.transitionTo script.movesLayout
    (script.target.inscription.argument ::
      (script.sideEffect.map fun name => name.inscription.argument).toList)

def inscription (script : TransitionScript) : Inscription :=
  script.event.inscription Word.on script.move.inline

end TransitionScript

def PlainText.action (callee : Identifier) (plain : PlainText) : Inscription :=
  .heading callee [] [] [] (Inscription.inline ⟨[plain.piece], plain.tree⟩)

namespace StateScript

def inscriptions (script : StateScript) : List Inscription :=
  script.transitions.map TransitionScript.inscription ++
    (script.onEnter.map (PlainText.action Word.onEnter) ++
      script.onExit.map (PlainText.action Word.onExit))

def inscription (width : Nat) (script : StateScript) : Inscription :=
  script.heading.inscription Word.state (.block (List.replicate (width + width) .space)
    (.word .lineBreak :: List.replicate width .space) script.inscriptions)

end StateScript

def StatementScript.inscription (width : Nat) : StatementScript → Inscription
  | initial name =>
    .call Word.initialState (name.inscription.layout ++ [closing .round])
      [name.inscription.argument]
  | state script => script.inscription width

def builderLayout (body : Inscription) : Layout :=
  Word.stateMachine.piece :: dot :: (Inscription.heading Word.create [] [] [] body).layout

namespace MachineScript

def body (width : Nat) (script : MachineScript) : Inscription :=
  .block (List.replicate width .space) [.word .lineBreak]
    (script.statements.map (StatementScript.inscription width))

def layout (width : Nat) (script : MachineScript) : Layout := builderLayout (script.body width)

end MachineScript

theorem intercalate_cons (separator first : List Char) (rest : List (List Char)) :
    separator.intercalate (first :: rest) = first ++ rest.flatMap (separator ++ ·) := by
  induction rest generalizing first with
  | nil => simp [List.intercalate]
  | cons second rest ih => rw [List.intercalate_cons_cons, ih]; simp

namespace Layout

theorem chars_braces (f : Layout) : f.braces.chars = '\x7b' :: (f.chars ++ ['\x7d']) := by
  simp [braces, Bracket.opening, Bracket.closing]

theorem chars_spaces (width : Nat) :
    chars (List.replicate width .space) = (spaces width).toList := by
  rw [spaces, String.toList_ofList]
  induction width with
  | zero => rfl
  | succ width ih => rw [List.replicate_succ, chars_cons, ih]; rfl

theorem chars_stack (width : Nat) (lines : List Layout) :
    (stack (List.replicate width .space) lines).chars =
      (printLines width (lines.map text)).toList := by
  induction lines with
  | nil => rfl
  | cons line lines ih =>
    rw [printLines] at ih
    simp [stack_cons, ih, printLines, chars_spaces, text]

end Layout

@[simp] theorem Chain.chars_layout (chain : Chain) : chain.layout.chars = chain.text.toList := by
  have hr (names : List Identifier) : chars (names.flatMap fun name => [dot, name.piece]) =
      ((names.map Identifier.text).map String.toList).flatMap (".".toList ++ ·) := by
    induction names with
    | nil => rfl
    | cons name names ih => simp_all
  rw [Chain.layout_eq, Chain.text, String.toList_intercalate, List.map_cons, intercalate_cons,
    chars_cons, hr]
  rfl

theorem NameScript.chars_inscription (name : NameScript) :
    name.inscription.layout.chars = name.print.toList := by
  cases name with
  | quoted plain => exact List.append_nil _
  | bare chain => exact chain.chars_layout

theorem HeadingScript.chars_layout (script : HeadingScript) :
    script.layout.chars = script.print.toList := by
  cases script with
  | named name =>
    simp [layout, print, name.chars_inscription, Bracket.opening, Bracket.closing]
  | typed chain => simp [layout, print]

theorem ArgumentScript.chars_inscription (script : ArgumentScript) :
    script.inscription.layout.chars = script.text.toList := by
  cases script <;> exact List.append_nil _

theorem chars_argumentsLayout (first : ArgumentScript) (rest : List ArgumentScript) :
    (argumentsLayout first rest).chars =
      (", ".intercalate (first.text :: rest.map ArgumentScript.text) ++ ")").toList := by
  induction rest generalizing first with
  | nil => simp [argumentsLayout, first.chars_inscription, Bracket.closing]
  | cons second rest ih =>
    rw [List.map_cons, String.intercalate_cons_cons]
    simp [argumentsLayout, first.chars_inscription, ih]

theorem TargetScript.chars_inscription (script : TargetScript) :
    script.inscription.layout.chars = script.print.toList := by
  cases script with
  | plain name => exact name.chars_inscription
  | call function first rest =>
    simp [inscription, print, Inscription.call, chars_argumentsLayout, Bracket.opening]

theorem Inscription.chars_inline (line : Inscription) :
    line.inline.layout.chars = "\x7b ".toList ++ (line.layout.chars ++ " \x7d".toList) := by
  simp [inline, chars_braces]

theorem TransitionScript.chars_move (script : TransitionScript) :
    script.move.layout.chars = "transitionTo(".toList ++ script.movesLayout.chars := by
  simp [move, Inscription.call, Word.transitionTo, Bracket.opening]

theorem TransitionScript.chars_inscription (script : TransitionScript) :
    script.inscription.layout.chars = script.print.toList := by
  obtain ⟨event, target, sideEffect⟩ := script
  cases sideEffect <;>
    simp [inscription, HeadingScript.inscription, Inscription.heading, Inscription.chars_inline,
      chars_move, movesLayout, print, event.chars_layout, target.chars_inscription,
      NameScript.chars_inscription, Word.on, Bracket.closing]

theorem PlainText.chars_action (callee : Identifier) (plain : PlainText) :
    (plain.action callee).layout.chars =
      (callee.text ++ " \x7b " ++ plain.quoted ++ " \x7d").toList := by
  simp [action, Inscription.heading, Inscription.chars_inline]

theorem Layout.text_eq {f : Layout} {text : String} (h : f.chars = text.toList) :
    f.text = text := by
  rw [Layout.text, h, String.ofList_toList]

theorem Inscription.chars_block (width : Nat) (trail : Layout) (lines : List Inscription) :
    (block (List.replicate width .space) trail lines).layout.chars =
      "\x7b".toList ++ ((printLines width (lines.map (·.layout.text))).toList ++
        (trail.chars ++ "\x7d".toList)) := by
  rw [block, chars_braces, chars_append, chars_stack, List.map_map, List.append_assoc]
  rfl

theorem StateScript.text_inscriptions (script : StateScript) :
    script.inscriptions.map (·.layout.text) = script.lines := by
  have ht (scripts : List TransitionScript) :
      (scripts.map TransitionScript.inscription).map (·.layout.text) =
        scripts.map TransitionScript.print := by
    rw [List.map_map]
    exact List.map_congr_left fun script _ => text_eq script.chars_inscription
  have ha (callee : Identifier) (plains : List PlainText) :
      (plains.map (PlainText.action callee)).map (·.layout.text) =
        plains.map fun plain => callee.text ++ " \x7b " ++ plain.quoted ++ " \x7d" := by
    rw [List.map_map]
    exact List.map_congr_left fun plain _ => text_eq (plain.chars_action callee)
  rw [inscriptions, List.map_append, List.map_append, ht, ha, ha]
  rfl

theorem StateScript.chars_inscription (width : Nat) (script : StateScript) :
    (script.inscription width).layout.chars = (script.print width).toList := by
  rw [inscription, HeadingScript.inscription, Inscription.heading, chars_cons, chars_append,
    chars_cons, script.heading.chars_layout, Inscription.chars_block, script.text_inscriptions,
    chars_cons, chars_spaces]
  simp [print, Word.state]

theorem StatementScript.chars_inscription (width : Nat) (script : StatementScript) :
    (script.inscription width).layout.chars = (script.print width).toList := by
  cases script with
  | initial name =>
    simp [inscription, print, Inscription.call, name.chars_inscription, Word.initialState,
      Bracket.opening, Bracket.closing]
  | state script => exact script.chars_inscription width

theorem chars_builderLayout (body : Inscription) :
    (builderLayout body).chars = "StateMachine.create ".toList ++ body.layout.chars := by
  have hs : "StateMachine.create ".toList =
      Word.stateMachine.piece.chars ++ (dot.chars ++ "create ".toList) := rfl
  have hc : (Inscription.heading Word.create [] [] [] body).layout.chars =
      "create ".toList ++ body.layout.chars := by
    rw [Inscription.heading, chars_cons, chars_append, chars_cons]
    simp [Word.create]
  rw [builderLayout, chars_cons, chars_cons, hc, hs, List.append_assoc, List.append_assoc]

theorem MachineScript.chars_layout (width : Nat) (script : MachineScript) :
    (script.layout width).chars = (script.print width).toList := by
  have ht : (script.statements.map (StatementScript.inscription width)).map (·.layout.text) =
      script.statements.map (StatementScript.print width) := by
    rw [List.map_map]
    exact List.map_congr_left fun script _ => text_eq (script.chars_inscription width)
  have hb : (script.body width).layout.chars =
      "\x7b".toList ++ ((printLines width (script.statements.map
        (StatementScript.print width))).toList ++ ("\n".toList ++ "\x7d".toList)) := by
    rw [body, Inscription.chars_block, ht]
    simp
  have hs : "StateMachine.create \x7b".toList = "StateMachine.create ".toList ++ "\x7b".toList :=
    rfl
  have he : "\n\x7d".toList = "\n".toList ++ "\x7d".toList := rfl
  unfold print
  rw [layout, chars_builderLayout, hb, String.toList_append, String.toList_append, hs, he]
  simp only [List.append_assoc]

theorem chars_core (lines : List Layout) :
    (core [] lines).chars = ("\n".intercalate (lines.map Layout.text)).toList := by
  have hs (lines : List Layout) : chars (stack [] lines) =
      ((lines.map Layout.text).map String.toList).flatMap ("\n".toList ++ ·) := by
    induction lines with
    | nil => rfl
    | cons line lines ih =>
      rw [stack_cons, chars_append, chars_append, ih]
      simp [Layout.text]
  rw [String.toList_intercalate]
  cases lines with
  | nil => rfl
  | cons line lines =>
    have ht : line.text.toList = line.chars := String.toList_ofList
    rw [List.map_cons, List.map_cons, intercalate_cons, core, chars_append, hs, ht]

def machinesLayout (width blank : Nat) (scripts : List MachineScript) : Layout :=
  core [] (scripts.map (MachineScript.layout width)) ++ List.replicate blank (.word .lineBreak)

theorem text_machinesLayout (width blank : Nat) (scripts : List MachineScript) :
    (machinesLayout width blank scripts).text = printMachines width blank scripts := by
  have hb : chars (List.replicate blank (.word .lineBreak)) = List.replicate blank '\n' := by
    induction blank with
    | zero => rfl
    | succ blank ih => rw [List.replicate_succ, chars_cons, ih]; rfl
  have ht : (scripts.map (MachineScript.layout width)).map Layout.text =
      scripts.map (MachineScript.print width) := by
    rw [List.map_map]
    exact List.map_congr_left fun script _ => text_eq (script.chars_layout width)
  refine text_eq ?_
  rw [machinesLayout, printMachines, chars_append, chars_core, ht, hb, String.toList_append,
    String.toList_ofList]

theorem NameScript.neat (name : NameScript) (hd : Delimits after) :
    Neat after name.inscription.layout := by
  cases name with
  | quoted plain => exact plain.neat hd .nil
  | bare chain => exact chain.neat hd

theorem HeadingScript.neat (script : HeadingScript) (hf : Neat after f) :
    Neat after (script.layout ++ .space :: f) := by
  cases script with
  | named name =>
    rw [layout, List.cons_append, List.append_assoc]
    refine .opening .round (neat_append.2 ⟨name.neat ?_, .closing .round hf.space⟩)
    exact .cons (by decide)
  | typed chain =>
    rw [layout, List.cons_append, List.append_assoc]
    have hg : Neat after (greater :: .space :: f) := by
      refine .greater (fun d hd => ?_) hf.space
      cases hd
      decide
    have hc : Neat after (chain.layout ++ (greater :: .space :: f)) :=
      neat_append.2 ⟨chain.neat (.cons (by decide)), hg⟩
    exact chain.neat_operator (c := '<') (by decide) (by decide) hc

theorem ArgumentScript.neat (script : ArgumentScript) (hd : Delimits after) :
    Neat after script.inscription.layout := by
  cases script with
  | identifier name => exact name.neat hd .nil
  | number numeral => exact numeral.neat hd .nil

theorem neat_argumentsLayout (first : ArgumentScript) (rest : List ArgumentScript) :
    Neat after (argumentsLayout first rest) := by
  induction rest generalizing first with
  | nil => exact neat_append.2 ⟨first.neat (.cons (by decide)), .closing .round .nil⟩
  | cons second rest ih => exact neat_append.2 ⟨first.neat (.cons (by decide)), .comma (ih second)⟩

theorem TargetScript.neat (script : TargetScript) (hd : Delimits after) :
    Neat after script.inscription.layout := by
  cases script with
  | plain name => exact name.neat hd
  | call function first rest =>
    exact function.neat (.cons (by decide)) (.opening .round (neat_argumentsLayout first rest))

namespace Inscription

def Closed (line : Inscription) : Prop := ∀ after, Neat after line.layout

theorem Closed.call {inside : Layout} (callee : Identifier) (h : ∀ after, Neat after inside)
    (values : List (Node String)) : Closed (.call callee inside values) :=
  fun after => callee.neat (.cons (by decide)) (.opening .round (h after))

theorem neat_braces (h : Neat ('\x7d' :: after) f) : Neat after f.braces :=
  .opening .curly (neat_append.2 ⟨h, .closing .curly .nil⟩)

theorem Closed.inline {line : Inscription} (h : ∀ after, Neat (' ' :: after) line.layout) :
    line.inline.Closed :=
  fun after => neat_braces (Neat.space (neat_append.2 ⟨h ('\x7d' :: after), Neat.nil.space⟩))

theorem neat_stack {lines : List Inscription} (hg : ∀ after, Neat after gap)
    (ht : ∀ after, Neat after trail) (h : ∀ line ∈ lines, line.Closed) :
    Neat after (stack gap (lines.map layout) ++ trail) := by
  refine neat_append.2 ⟨?_, ht _⟩
  induction lines with
  | nil => exact .nil
  | cons line lines ih =>
    obtain ⟨hl, h⟩ := List.forall_mem_cons.1 h
    rw [List.map_cons, stack_cons, List.cons_append]
    exact .lineBreak (neat_append.2 ⟨hg _, neat_append.2 ⟨hl _, ih h⟩⟩)

theorem Closed.block {lines : List Inscription} (hg : ∀ after, Neat after gap)
    (ht : ∀ after, Neat after trail) (h : ∀ line ∈ lines, line.Closed) :
    (Inscription.block gap trail lines).Closed :=
  fun _ => neat_braces (neat_stack hg ht h)

end Inscription

theorem TransitionScript.closed_move (script : TransitionScript) : script.move.Closed := by
  refine .call _ (fun after => neat_append.2 ?_) _
  cases script.sideEffect with
  | none => exact ⟨script.target.neat (.cons (by decide)), .closing .round .nil⟩
  | some name =>
    refine ⟨script.target.neat (.cons (by decide)), .comma (neat_append.2 ⟨name.neat ?_, ?_⟩)⟩
    · exact .cons (by decide)
    · exact .closing .round .nil

theorem HeadingScript.closed (script : HeadingScript) (callee : Identifier) {body : Inscription}
    (h : body.Closed) : (script.inscription callee body).Closed := by
  refine fun after => callee.neat ?_ (script.neat (h after))
  cases script <;> exact .cons (by decide)

theorem TransitionScript.closed (script : TransitionScript) : script.inscription.Closed :=
  script.event.closed Word.on (.inline fun _ => script.closed_move _)

theorem PlainText.closed_action (callee : Identifier) (plain : PlainText) :
    (plain.action callee).Closed := by
  have hp : (Inscription.mk [plain.piece] plain.tree).inline.Closed :=
    .inline fun after => plain.neat (.cons (by decide)) .nil
  exact fun after => callee.neat (.cons (by decide)) (hp after).space

theorem neat_spaces (width : Nat) (after : List Char) :
    Neat after (List.replicate width .space) := by
  induction width with
  | zero => exact .nil
  | succ width ih => exact ih.space

theorem StateScript.forall_mem_inscriptions (script : StateScript) {p : Inscription → Prop}
    (ht : ∀ transition : TransitionScript, p transition.inscription)
    (hn : ∀ plain : PlainText, p (plain.action Word.onEnter))
    (hx : ∀ plain : PlainText, p (plain.action Word.onExit)) :
    ∀ line ∈ script.inscriptions, p line := by
  intro line hm
  rw [inscriptions, List.mem_append, List.mem_append] at hm
  rcases hm with hm | hm | hm
  · obtain ⟨transition, _, rfl⟩ := List.mem_map.1 hm
    exact ht transition
  · obtain ⟨plain, _, rfl⟩ := List.mem_map.1 hm
    exact hn plain
  · obtain ⟨plain, _, rfl⟩ := List.mem_map.1 hm
    exact hx plain

theorem StateScript.closed_inscriptions (script : StateScript) :
    ∀ line ∈ script.inscriptions, line.Closed :=
  script.forall_mem_inscriptions (·.closed) (·.closed_action Word.onEnter)
    (·.closed_action Word.onExit)

theorem neat_trail (width : Nat) (after : List Char) :
    Neat after (.word .lineBreak :: List.replicate width .space) :=
  (neat_spaces width after).lineBreak

theorem StatementScript.closed (width : Nat) (script : StatementScript) :
    (script.inscription width).Closed := by
  cases script with
  | initial name =>
    refine .call _ (fun after => neat_append.2 ⟨name.neat ?_, .closing .round .nil⟩) _
    exact .cons (by decide)
  | state script =>
    exact script.heading.closed Word.state (.block (neat_spaces _) (neat_trail width)
      script.closed_inscriptions)

theorem Inscription.Closed.neat_builder {body : Inscription} (h : body.Closed) (after : List Char) :
    Neat after (builderLayout body) :=
  Word.stateMachine.neat_dot Word.create (Word.create.neat (.cons (by decide)) (h after).space)

theorem MachineScript.neat (width : Nat) (script : MachineScript) (after : List Char) :
    Neat after (script.layout width) := by
  have hb : (script.body width).Closed := by
    refine .block (neat_spaces width) (neat_trail 0) fun line hm => ?_
    obtain ⟨statement, _, rfl⟩ := List.mem_map.1 hm
    exact statement.closed width
  exact hb.neat_builder after

theorem neat_machinesLayout (width blank : Nat) (scripts : List MachineScript) :
    Neat [] (machinesLayout width blank scripts) := by
  have hb : ∀ after, Neat after (List.replicate blank (.word .lineBreak)) := by
    intro after
    induction blank with
    | zero => exact .nil
    | succ blank ih => exact ih.lineBreak
  have hs (after : List Char) (scripts : List MachineScript) :
      Neat after (stack [] (scripts.map (MachineScript.layout width))) := by
    induction scripts with
    | nil => exact .nil
    | cons script scripts ih =>
      rw [List.map_cons, stack_cons]
      exact .lineBreak (neat_append.2 ⟨.nil, neat_append.2 ⟨script.neat width _, ih⟩⟩)
  refine neat_append.2 ⟨?_, hb []⟩
  cases scripts with
  | nil => exact .nil
  | cons script scripts => exact neat_append.2 ⟨script.neat width _, hs _ scripts⟩

end StateDiagram
