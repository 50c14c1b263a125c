import StateDiagram.Proofs.LineBreak
import StateDiagram.Proofs.Running

namespace StateDiagram

set_option autoImplicit true

open Text

namespace Text

theorem occursIn_iff {word cs : List Char} : occursIn word cs = true ↔ word <:+: cs := by
  induction cs with
  | nil => rw [occursIn, List.isEmpty_iff, List.infix_nil]
  | cons c cs ih =>
    rw [occursIn, Bool.or_eq_true, List.isPrefixOf_iff_prefix, ih, List.infix_cons_iff]

theorem occurs_iff {word text : String} : occurs word text = true ↔ word.toList <:+: text.toList :=
  occursIn_iff

theorem occurs_mono {word text larger : String} (hl : text.toList <:+: larger.toList)
    (h : occurs word text = true) : occurs word larger = true :=
  occurs_iff.2 ((occurs_iff.1 h).trans hl)

theorem eq_nil_of_prefix_lineBreak {word cs : List Char} (hw : '\n' ∉ word)
    (h : word <+: '\n' :: cs) : word = [] := by
  rcases List.prefix_cons_iff.1 h with rfl | ⟨more, rfl, _⟩
  · rfl
  · exact (hw List.mem_cons_self).elim

theorem prefix_of_replaceLineBreaks {word cs : List Char} (hw : '\n' ∉ word)
    (h : word <+: replaceLineBreaks cs) : word <+: cs := by
  fun_induction replaceLineBreaks cs generalizing word with
  | case1 => exact h
  | case2 | case3 =>
    rw [eq_nil_of_prefix_lineBreak hw h]
    exact List.nil_prefix
  | case4 c cs _ _ ih =>
    rcases List.prefix_cons_iff.1 h with rfl | ⟨more, rfl, hp⟩
    · exact List.nil_prefix
    · rw [List.mem_cons, not_or] at hw
      exact (List.prefix_cons_inj c).2 (ih hw.2 hp)

/-- A word on a single line stands in a text if it stands in the normalized text. -/
theorem infix_of_normalizeLineEndings {word cs : List Char} (hw : '\n' ∉ word)
    (h : word <:+: normalizeLineEndings cs) : word <:+: cs := by
  rw [normalizeLineEndings_eq] at h
  have hempty {cs more : List Char} (hp : word <+: '\n' :: cs) : word <:+: more := by
    rw [eq_nil_of_prefix_lineBreak hw hp]
    exact List.nil_infix
  fun_induction replaceLineBreaks cs with
  | case1 => exact h
  | case2 cs ih =>
    rcases List.infix_cons_iff.1 h with hp | h
    · exact hempty hp
    · exact (ih h).trans (List.suffix_append ['\r', '\n'] cs).isInfix
  | case3 cs _ ih =>
    rcases List.infix_cons_iff.1 h with hp | h
    · exact hempty hp
    · exact List.infix_cons (ih h)
  | case4 c cs hn hr ih =>
    rcases List.infix_cons_iff.1 h with hp | h
    · have hp : word <+: replaceLineBreaks (c :: cs) := by
        rwa [replaceLineBreaks.eq_4 c cs hn hr]
      exact (prefix_of_replaceLineBreaks hw hp).isInfix
    · exact List.infix_cons (ih h)

end Text

/-- A name in a tree stands in the source as it was written, if it stands on one line. -/
theorem SyntaxTree.occurs_of_hasName {source name : String} {tree node : SyntaxTree}
    (h : parse limit source = .ok tree) (hm : node ∈ tree.preorder)
    (hn : node.hasName name = true) (hl : '\n' ∉ name.toList) : occurs name source = true := by
  obtain ⟨outline, ho, rfl⟩ := Source.parse_eq_ok_iff.1 h
  rw [Node.preorder_map] at hm
  obtain ⟨inner, hi, rfl⟩ := List.mem_map.1 hm
  rw [Node.hasName_map, Node.hasName, beq_iff_eq] at hn
  cases inner with
  | identifier span text =>
    obtain rfl : text = name := Option.some.inj hn
    exact occurs_iff.2 (infix_of_normalizeLineEndings hl (Source.infix_of_identifier ho hi))
  | _ => cases hn

theorem Builder.exists_names {node : SyntaxTree} {builder : Builder}
    (h : ofNode? node = some builder) :
    (∃ receiver ∈ node.preorder, receiver.hasName "StateMachine" = true) ∧
      ∃ callee ∈ node.preorder, callee.hasName "create" = true := by
  cases createdAt h with
  | create hr hc =>
    refine ⟨⟨_, Node.mem_preorder_of_child List.mem_cons_self, hr⟩, _, ?_, hc⟩
    exact Node.mem_preorder_trans
      (Node.mem_preorder_of_child (List.mem_cons_of_mem _ List.mem_cons_self))
      (Node.mem_preorder_of_child List.mem_cons_self)

/-- Extraction finds a machine in the source, or a builder without a body. -/
def FindsBuilder (limits : Limits) (source : String) : Prop :=
  (∃ machines, extractMachines limits source = .ok machines ∧ machines ≠ []) ∨
    ∃ fault, extractMachines limits source = .error fault ∧ fault.isMalformedBuilder = true

theorem FindsBuilder.exists_builder (h : FindsBuilder limits source) :
    ∃ tree, SyntaxTree.parse limits.syntaxDepth source = .ok tree ∧
      ∃ node ∈ tree.preorder, ∃ builder, Builder.ofNode? node = some builder := by
  rw [FindsBuilder, extractMachines] at h
  cases hp : SyntaxTree.parse limits.syntaxDepth source with
  | error fault =>
    rw [hp] at h
    rcases h with ⟨_, ⟨⟩, _⟩ | ⟨_, ⟨⟩, hf⟩
    rw [Source.eq_of_parse hp] at hf
    cases hf
  | ok tree =>
    rw [hp] at h
    change (∃ machines, tree.machines _ = .ok machines ∧ _) ∨
      ∃ fault, tree.machines _ = .error fault ∧ _ at h
    refine ⟨tree, rfl, ?_⟩
    cases hb : tree.builders with
    | cons found more =>
      obtain ⟨node, hn, ho, _⟩ := SyntaxTree.mem_builders.1 (hb ▸ List.mem_cons_self)
      exact ⟨node, hn, found.2, ho⟩
    | nil =>
      -- Without a builder, nothing is found and nothing but the nesting is complained about.
      rcases settles_machinesAt limits.extractionDepth 0 tree with he | ⟨_, he⟩
      · rw [SyntaxTree.machines, he, hb] at h
        rcases h with ⟨_, ⟨⟩, hne⟩ | ⟨_, ⟨⟩, _⟩
        exact (hne rfl).elim
      · rw [SyntaxTree.machines, he] at h
        rcases h with ⟨_, ⟨⟩, _⟩ | ⟨_, ⟨⟩, hf⟩
        cases hf

namespace Detection

variable {source text larger : String}

theorem confidence_of_occurs (hr : occurs "StateMachine" source = true)
    (hc : occurs "create" source = true) :
    confidence source = .certain ∨ confidence source = .likely := by
  rw [confidence, hr, hc, Bool.and_self]
  split
  · exact .inl rfl
  · exact .inr rfl

theorem detects_of_confidence
    (h : confidence source = .certain ∨ confidence source = .likely) : detects source = true := by
  rw [detects]
  rcases h with h | h <;> rw [h] <;> rfl

theorem confidence_of_findsBuilder (h : FindsBuilder limits source) :
    confidence source = .certain ∨ confidence source = .likely := by
  obtain ⟨tree, hp, node, hn, builder, ho⟩ := h.exists_builder
  obtain ⟨⟨receiver, hr, hrn⟩, callee, hc, hcn⟩ := Builder.exists_names ho
  have hreceiver := SyntaxTree.occurs_of_hasName hp (Node.mem_preorder_trans hn hr) hrn (by decide)
  have hcallee := SyntaxTree.occurs_of_hasName hp (Node.mem_preorder_trans hn hc) hcn (by decide)
  exact confidence_of_occurs hreceiver hcallee

theorem likely_le_tenths {confidence : Confidence}
    (h : confidence = .certain ∨ confidence = .likely) :
    Confidence.likely.tenths ≤ confidence.tenths := by
  rcases h with rfl | rfl <;> decide

theorem confidence_mono (hl : text.toList <:+: larger.toList) :
    (confidence text).tenths ≤ (confidence larger).tenths := by
  rw [confidence]
  split
  · next h =>
    have hlarger : confidence larger = .certain := if_pos (occurs_mono hl h)
    exact Nat.le_of_eq (congrArg Confidence.tenths hlarger).symm
  · split
    · next h =>
      obtain ⟨hr, hc⟩ := Bool.and_eq_true_iff.1 h
      exact likely_le_tenths (confidence_of_occurs (occurs_mono hl hr) (occurs_mono hl hc))
    · split
      · next h =>
        have hw : (occurs "initialState" larger || occurs "transitionTo" larger) = true := by
          rw [Bool.or_eq_true] at h ⊢
          exact h.imp (occurs_mono hl) (occurs_mono hl)
        rw [confidence, hw]
        split
        · decide
        · split <;> decide
      · exact Nat.zero_le _

end Detection

namespace CommandLine

theorem detectReport_result {content : String} (h : Detection.detects content = true) :
    (detectReport content).result = .ok none := by
  rw [detectReport, if_pos h]

theorem detect_succeeds {workspace : Workspace} {input : Option String} {content : String}
    (hs : workspace.sourceText input = .ok content) (hd : Detection.detects content = true)
    (environment : Option String) (invocation : Invocation) :
    (runIn workspace environment { invocation with task := .detect input }).1 = 0 := by
  have hprinted := workspace.sourceText_printError (endLines (Workspace.opening environment
    { invocation with task := .detect input })) input
  rw [hs] at hprinted
  rw [Workspace.runIn_eq, Workspace.run_perform_ok hprinted]
  change (Workspace.finish (Workspace.settle _ _ (detectReport content).result)).1 = 0
  rw [detectReport_result hd]
  rfl

end CommandLine

open CommandLine

/-- The cheap look has no false negatives: where extraction finds a machine or a builder without
a body, under any limits, the look at the source as it was written is likely or certain to tell,
and a run of it succeeds on every input that is read as such a source. A text that stands in a
larger one gives no more confidence than the larger one. -/
theorem detects_of_findsBuilder :
    (∀ limits source, FindsBuilder limits source → Detection.detects source = true ∧
      (Detection.confidence source = .certain ∨ Detection.confidence source = .likely)) ∧
    (∀ workspace environment (invocation : Invocation) (source : SourceOptions) content,
      (Workspace.host.readSource source.input).run workspace = (.ok content, workspace) →
      FindsBuilder source.limits content →
      (runIn workspace environment { invocation with task := .detect source.input }).1 = 0) ∧
    ∀ before text after, (Detection.confidence text).tenths ≤
      (Detection.confidence (before ++ text ++ after)).tenths := by
  refine ⟨?_, ?_, ?_⟩
  · intro limits source h
    have hc := Detection.confidence_of_findsBuilder h
    exact ⟨Detection.detects_of_confidence hc, hc⟩
  · intro workspace environment invocation source content hread h
    rw [Workspace.run_readSource] at hread
    have hs : workspace.sourceText source.input = .ok content := (Prod.mk.inj hread).1
    have hc := Detection.confidence_of_findsBuilder h
    exact detect_succeeds hs (Detection.detects_of_confidence hc) environment invocation
  · intro before text after
    apply Detection.confidence_mono
    rw [String.toList_append, String.toList_append]
    exact List.infix_append ..

/-- The names of the builder stand in back quotes and on two lines, with comments between them. -/
def splitSource : String := "`StateMachine` // one\r\r\n/* two */ ?.`create`<S> \x7b \x7d"

/-- A machine whose builder is written in two parts is found, and the look at it is likely. -/
theorem detects_of_findsBuilder_split :
    extractMachines {} splitSource = .ok [⟨[]⟩] ∧ Detection.detects splitSource = true ∧
      (runIn { input := splitSource.toUTF8 } none ⟨true, none, .detect none⟩).1 = 0 ∧
      8 ≤ (Detection.confidence ("a " ++ splitSource ++ " b")).tenths := by
  have hx : extractMachines {} splitSource = .ok [⟨[]⟩] := by decide +kernel
  have hf : FindsBuilder {} splitSource := .inl ⟨_, hx, List.cons_ne_nil _ _⟩
  obtain ⟨hdetects, hruns, hmono⟩ := detects_of_findsBuilder
  obtain ⟨hd, hc⟩ := hdetects {} splitSource hf
  refine ⟨hx, hd, ?_, ?_⟩
  · apply hruns _ none ⟨true, none, .detect none⟩ {} splitSource _ hf
    rw [Workspace.run_readSource]
    exact congrArg (·, _) (decodeText_toUTF8 splitSource)
  · exact Nat.le_trans (Detection.likely_le_tenths hc) (hmono "a " splitSource " b")

end StateDiagram
