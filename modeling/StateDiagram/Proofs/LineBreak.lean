import StateDiagram.Diagram
import StateDiagram.Proofs.Evaluation
import StateDiagram.Proofs.Verbatim

namespace StateDiagram

open Text

namespace Text

/-- The ways of writing a line break. -/
inductive LineEnding where
  | lf
  | crLf
  | cr
deriving DecidableEq, Repr

def LineEnding.chars : LineEnding → List Char
  | .lf => ['\n']
  | .crLf => ['\r', '\n']
  | .cr => ['\r']

/-- The second text is the first one with each LF written as some line ending. No lone CR may be
written right in front of an LF, since both together would be a single line break. -/
inductive Respells : List Char → List Char → Prop where
  | nil : Respells [] []
  | character {c : Char} {cs written : List Char} (hc : c ≠ '\n') (h : Respells cs written) :
      Respells (c :: cs) (c :: written)
  | lineBreak {cs written : List Char} (ending : LineEnding)
      (hcr : ending = .cr → written.head? ≠ some '\n') (h : Respells cs written) :
      Respells ('\n' :: cs) (ending.chars ++ written)

/-- Replaces each line break by LF in one pass, and takes CR LF for a single one. -/
def replaceLineBreaks : List Char → List Char
  | [] => []
  | '\r' :: '\n' :: cs => '\n' :: replaceLineBreaks cs
  | '\r' :: cs => '\n' :: replaceLineBreaks cs
  | c :: cs => c :: replaceLineBreaks cs

variable {cs written : List Char} {c : Char}

theorem joinCrLf_cons (hc : c = '\r' → cs.head? ≠ some '\n') :
    joinCrLf (c :: cs) = c :: joinCrLf cs := by
  rw [joinCrLf.eq_def]
  split
  · next he => cases he
  · next he =>
    cases he
    exact (hc rfl rfl).elim
  · next he =>
    cases he
    rfl

theorem normalizeLineEndings_cons (hc : c ≠ '\r') :
    normalizeLineEndings (c :: cs) = c :: normalizeLineEndings cs := by
  rw [normalizeLineEndings, joinCrLf_cons fun h => (hc h).elim, List.map_cons, if_neg hc]
  rfl

theorem normalizeLineEndings_cr (h : cs.head? ≠ some '\n') :
    normalizeLineEndings ('\r' :: cs) = '\n' :: normalizeLineEndings cs := by
  rw [normalizeLineEndings, joinCrLf_cons fun _ => h, List.map_cons, if_pos rfl]
  rfl

theorem normalizeLineEndings_crLf (cs : List Char) :
    normalizeLineEndings ('\r' :: '\n' :: cs) = '\n' :: normalizeLineEndings cs := rfl

theorem normalizeLineEndings_eq (cs : List Char) :
    normalizeLineEndings cs = replaceLineBreaks cs := by
  fun_induction replaceLineBreaks cs with
  | case1 => rfl
  | case2 cs ih => rw [normalizeLineEndings_crLf, ih]
  | case3 cs hn ih =>
    rw [normalizeLineEndings_cr, ih]
    intro hh
    obtain ⟨more, rfl⟩ := List.head?_eq_some_iff.1 hh
    exact hn more rfl
  | case4 c cs hn hr ih => rw [normalizeLineEndings_cons hr, ih]

theorem normalizeLineEndings_idem (cs : List Char) :
    normalizeLineEndings (normalizeLineEndings cs) = normalizeLineEndings cs :=
  normalizeLineEndings_of_not_mem (cr_not_mem_normalizeLineEndings cs)

/-- Normalizing takes back every choice of line endings. -/
theorem Respells.normalize (h : Respells cs written) (hr : '\r' ∉ cs) :
    normalizeLineEndings written = cs := by
  induction h with
  | nil => rfl
  | character _ _ ih =>
    rw [List.mem_cons, not_or] at hr
    rw [normalizeLineEndings_cons (Ne.symm hr.1), ih hr.2]
  | @lineBreak cs written ending hcr _ ih =>
    have ih := ih (fun hm => hr (List.mem_cons_of_mem _ hm))
    cases ending with
    | lf => exact (normalizeLineEndings_cons (by decide)).trans (congrArg _ ih)
    | crLf => exact congrArg _ ih
    | cr => exact (normalizeLineEndings_cr (hcr rfl)).trans (congrArg _ ih)

end Text

theorem cr_not_mem_texts {limit : Nat} {source : String} {tree : SyntaxTree}
    (h : SyntaxTree.parse limit source = .ok tree) {text : String} (ht : text ∈ tree.texts) :
    '\r' ∉ text.toList := fun hc =>
  cr_not_mem_normalizeLineEndings source.toList ((Source.infix_of_mem_texts h ht).subset hc)

theorem cr_not_mem_machine {limits : Limits} {source : String} {machines : List Machine}
    (h : extractMachines limits source = .ok machines) {machine : Machine}
    (hm : machine ∈ machines) {text : String} (ht : text ∈ machine.texts) :
    '\r' ∉ text.toList := by
  obtain ⟨tree, hp, h⟩ := bind_eq_ok.1 h
  exact cr_not_mem_texts hp (texts_of_machines h hm ht)

theorem ofString_of_respells {text written : String} (hr : '\r' ∉ text.toList)
    (h : Respells text.toList written.toList) : Source.ofString written = Source.ofString text := by
  rw [Source.ofString, Source.ofString, h.normalize hr, normalizeLineEndings_of_not_mem hr]

/-- The style of line breaks makes no difference to trees, machines and diagrams. Normalizing is
one pass over the source and may be repeated, and no tree and no machine of any source holds
a CR. -/
theorem parse_respelled :
    (∀ text written : String, '\r' ∉ text.toList → Respells text.toList written.toList →
      (∀ limit, SyntaxTree.parse limit written = SyntaxTree.parse limit text) ∧
      (∀ limits, extractMachines limits written = extractMachines limits text) ∧
      ∀ limits fenced, drawMachines limits fenced written = drawMachines limits fenced text) ∧
    ∀ source : String,
      normalizeLineEndings source.toList = replaceLineBreaks source.toList ∧
      normalizeLineEndings (normalizeLineEndings source.toList) =
        normalizeLineEndings source.toList ∧
      (∀ limit tree, SyntaxTree.parse limit source = .ok tree →
        ∀ node ∈ tree.preorder, '\r' ∉ node.info.text.toList) ∧
      ∀ limits machines, extractMachines limits source = .ok machines →
        ∀ machine ∈ machines, ∀ text ∈ machine.texts, '\r' ∉ text.toList := by
  constructor
  · intro text written hr h
    have hs := ofString_of_respells hr h
    have hp (limit : Nat) : SyntaxTree.parse limit written = SyntaxTree.parse limit text := by
      rw [SyntaxTree.parse, SyntaxTree.parse, hs]
    have he (limits : Limits) : extractMachines limits written = extractMachines limits text := by
      rw [extractMachines, extractMachines, hp]
    refine ⟨hp, he, fun limits fenced => ?_⟩
    rw [drawMachines, drawMachines, he]
  · intro source
    refine ⟨normalizeLineEndings_eq _, normalizeLineEndings_idem _, ?_, ?_⟩
    · intro limit tree h node hn
      exact cr_not_mem_texts h (SyntaxTree.mem_texts.2 ⟨node, hn, .inl rfl⟩)
    · intro limits machines h machine hm text ht
      exact cr_not_mem_machine h hm ht

/-- A raw string may hold line breaks of all styles, and a machine takes its names from it. -/
theorem parse_respelled_rawString :
    '\r' ∉ "\"\"\"a\n\nb\"\"\"\n".toList ∧
    Respells "\"\"\"a\n\nb\"\"\"\n".toList "\"\"\"a\n\r\nb\"\"\"\r".toList ∧
    SyntaxTree.parse 1 "\"\"\"a\n\r\nb\"\"\"\r" = SyntaxTree.parse 1 "\"\"\"a\n\nb\"\"\"\n" ∧
    ∃ machine,
      extractMachines {} "StateMachine.create \x7b initialState(\"\"\"a\rb\"\"\")\r \x7d" =
        .ok [machine] ∧ machine.texts = ["a\nb"] ∧ ∀ text ∈ machine.texts, '\r' ∉ text.toList := by
  have hr : '\r' ∉ "\"\"\"a\n\nb\"\"\"\n".toList := by decide
  have quotes {cs written : List Char} (h : Respells cs written) :
      Respells ('\x22' :: '\x22' :: '\x22' :: cs) ('\x22' :: '\x22' :: '\x22' :: written) :=
    .character (by decide) (.character (by decide) (.character (by decide) h))
  have hs : Respells "\"\"\"a\n\nb\"\"\"\n".toList "\"\"\"a\n\r\nb\"\"\"\r".toList :=
    quotes <| .character (by decide) <| .lineBreak .lf (by decide) <|
      .lineBreak .crLf (by decide) <| .character (by decide) <| quotes <|
        .lineBreak .cr (by decide) .nil
  have hm : ((extractMachines {}
      "StateMachine.create \x7b initialState(\"\"\"a\rb\"\"\")\r \x7d").toOption ==
        some [⟨[.initial "a\nb"]⟩]) = true := by decide +kernel
  refine ⟨hr, hs, (parse_respelled.1 _ _ hr hs).1 1, ?_⟩
  cases he : extractMachines {}
      "StateMachine.create \x7b initialState(\"\"\"a\rb\"\"\")\r \x7d" with
  | error fault =>
    rw [he] at hm
    cases hm
  | ok machines =>
    rw [he] at hm
    obtain rfl : machines = [⟨[.initial "a\nb"]⟩] := Option.some.inj (beq_iff_eq.1 hm)
    have hcr := (parse_respelled.2 _).2.2.2 _ _ he
    exact ⟨_, rfl, rfl, hcr _ List.mem_cons_self⟩

end StateDiagram
