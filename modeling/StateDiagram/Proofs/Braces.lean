import StateDiagram.Proofs.Coverage
import StateDiagram.Proofs.Extent

namespace StateDiagram

set_option autoImplicit true

def Lexeme.isCurly : Lexeme → Bool
  | .opening .curly | .closing .curly => true
  | _ => false

namespace Token

/-- The brace that closes the one in front of the tokens; `depth` counts the braces opened since. -/
def closingBrace? (depth : Nat) : List Token → Option Token
  | [] => none
  | token :: rest =>
    if token.lexeme = .opening .curly then closingBrace? (depth + 1) rest
    else if token.lexeme = .closing .curly then
      match depth with
      | 0 => some token
      | depth + 1 => closingBrace? depth rest
    else closingBrace? depth rest

/-- The tokens that the brace in front of them encloses, all of them if it is never closed. -/
def enclosed (depth : Nat) : List Token → List Token
  | [] => []
  | token :: rest =>
    if token.lexeme = .opening .curly then token :: enclosed (depth + 1) rest
    else if token.lexeme = .closing .curly then
      match depth with
      | 0 => []
      | depth + 1 => token :: enclosed depth rest
    else token :: enclosed depth rest

/-- Where the opening braces among the tokens stand. -/
def braceStarts (tokens : List Token) : List Nat :=
  (tokens.filter (·.lexeme = .opening .curly)).map (·.span.start)

variable {token : Token} {depth : Nat} {rest : List Token}

theorem ne_of_not_isCurly (h : token.lexeme.isCurly = false) :
    token.lexeme ≠ .opening .curly ∧ token.lexeme ≠ .closing .curly := by
  constructor <;> intro ht <;> rw [ht] at h <;> cases h

theorem closingBrace?_opening (h : token.lexeme = .opening .curly) :
    closingBrace? depth (token :: rest) = closingBrace? (depth + 1) rest := by
  rw [closingBrace?.eq_def]
  exact if_pos h

theorem closingBrace?_closing (h : token.lexeme = .closing .curly) :
    closingBrace? 0 (token :: rest) = some token := by
  simp [closingBrace?, h]

theorem closingBrace?_closing_succ (h : token.lexeme = .closing .curly) :
    closingBrace? (depth + 1) (token :: rest) = closingBrace? depth rest := by
  simp [closingBrace?, h]

theorem closingBrace?_plain (h : token.lexeme.isCurly = false) :
    closingBrace? depth (token :: rest) = closingBrace? depth rest := by
  obtain ⟨ho, hc⟩ := ne_of_not_isCurly h
  rw [closingBrace?.eq_def]
  exact (if_neg ho).trans (if_neg hc)

theorem enclosed_opening (h : token.lexeme = .opening .curly) :
    enclosed depth (token :: rest) = token :: enclosed (depth + 1) rest := by
  rw [enclosed.eq_def]
  exact if_pos h

theorem enclosed_closing (h : token.lexeme = .closing .curly) :
    enclosed 0 (token :: rest) = [] := by
  simp [enclosed, h]

theorem enclosed_closing_succ (h : token.lexeme = .closing .curly) :
    enclosed (depth + 1) (token :: rest) = token :: enclosed depth rest := by
  simp [enclosed, h]

theorem enclosed_plain (h : token.lexeme.isCurly = false) :
    enclosed depth (token :: rest) = token :: enclosed depth rest := by
  obtain ⟨ho, hc⟩ := ne_of_not_isCurly h
  rw [enclosed.eq_def]
  exact (if_neg ho).trans (if_neg hc)

theorem braceStarts_opening (h : token.lexeme = .opening .curly) :
    braceStarts (token :: rest) = token.span.start :: braceStarts rest := by
  rw [braceStarts, List.filter_cons_of_pos (by simp [h]), List.map_cons, ← braceStarts]

theorem braceStarts_of_ne (h : token.lexeme ≠ .opening .curly) :
    braceStarts (token :: rest) = braceStarts rest := by
  rw [braceStarts, List.filter_cons_of_neg (by simp [h]), ← braceStarts]

end Token

open Token

namespace Node

/-- The lambdas of the tree that stand in no other one. -/
def outerLambdas (node : Node α) : List (Node α) :=
  if node.isLambda then [node]
  else node.children.attach.flatMap fun ⟨child, _⟩ => child.outerLambdas
termination_by sizeOf node
decreasing_by exact sizeOf_lt_of_mem_children ‹_›

/-- The lambdas of the tree, each in front of those in it. -/
def lambdas (node : Node α) : List (Node α) := node.preorder.filter isLambda

def lambdasBelow (node : Node α) : List (Node α) := node.children.flatMap lambdas

theorem outerLambdas_of_lambda {node : Node α} (h : node.isLambda = true) :
    node.outerLambdas = [node] := by
  rw [outerLambdas, if_pos h]

theorem outerLambdas_of_inner {node : Node α} (h : node.isLambda = false) :
    node.outerLambdas = node.children.flatMap outerLambdas := by
  rw [outerLambdas, if_neg (Bool.eq_false_iff.1 h)]
  simp only [List.flatMap_subtype, List.unattach_attach]

theorem lambdas_eq (node : Node α) :
    node.lambdas = (if node.isLambda then [node] else []) ++ node.lambdasBelow := by
  rw [lambdas, preorder_eq, List.filter_cons, List.filter_flatMap, lambdasBelow]
  split <;> rfl

theorem flatMap_outerLambdas (node : Node α) :
    node.outerLambdas.flatMap lambdas = node.lambdas := by
  induction node using Node.induction with
  | step node ih =>
    cases hl : node.isLambda with
    | true => rw [outerLambdas_of_lambda hl, List.flatMap_singleton]
    | false =>
      rw [outerLambdas_of_inner hl, lambdas_eq, hl, List.flatMap_assoc, List.flatMap_congr ih]
      rfl

theorem lambdasBelow_eq (node : Node α) :
    node.lambdasBelow = (node.children.flatMap outerLambdas).flatMap lambdas := by
  rw [lambdasBelow, List.flatMap_assoc]
  exact List.flatMap_congr fun child _ => (flatMap_outerLambdas child).symm

theorem outerLambdas_collapse (nodes : List Outline) :
    (collapse nodes).toList.flatMap outerLambdas = nodes.flatMap outerLambdas :=
  flatMap_collapse (fun _ _ => outerLambdas_of_inner rfl) nodes

theorem outerLambdas_argumentOutline (token : Token) (name : Option String)
    (node : Option Outline) :
    (node.map (argumentOutline token name)).toList.flatMap outerLambdas =
      node.toList.flatMap outerLambdas :=
  flatMap_argumentOutline
    (fun _ _ _ => (outerLambdas_of_inner rfl).trans (List.flatMap_singleton ..)) token name node

end Node

/-- The lambdas are the outer pairs of braces of the tokens up to those behind. Only a brace that
is never closed reaches to the end. -/
inductive Braced : List Token → List Token → List Outline → Prop where
  | nil (tokens : List Token) : Braced tokens tokens []
  | plain {token : Token} {tokens behind : List Token} {nodes : List Outline}
      (ht : token.lexeme.isCurly = false) (h : Braced tokens behind nodes) :
      Braced (token :: tokens) behind nodes
  | closed {brace close : Token} {tokens rest behind : List Token} {node : Outline}
      {nodes : List Outline} (hb : brace.lexeme = .opening .curly) (hl : node.isLambda = true)
      (hi : Braced tokens (close :: rest) (node.children.flatMap Node.outerLambdas))
      (hc : close.lexeme = .closing .curly) (hs : node.info = ⟨brace.span.start, close.span.stop⟩)
      (h : Braced rest behind nodes) : Braced (brace :: tokens) behind (node :: nodes)
  | unclosed {brace : Token} {tokens : List Token} {node : Outline}
      (hb : brace.lexeme = .opening .curly) (hl : node.isLambda = true)
      (hi : Braced tokens [] (node.children.flatMap Node.outerLambdas))
      (hs : node.info.start = brace.span.start)
      (he : ∀ token ∈ tokens, token.span.stop ≤ node.info.stop) :
      Braced (brace :: tokens) [] [node]

/-- The lambda is what the brace in front of the tokens opens. It ends with the brace that closes
this one, or else reaches over all the tokens, and the lambdas in it are those of the braces
enclosed. -/
structure Token.Opens (span : α → Span) (brace : Token) (behind : List Token)
    (lambda : Node α) : Prop where
  isLambda : lambda.isLambda = true
  start_eq : (span lambda.info).start = brace.span.start
  closed : ∀ close, closingBrace? 0 behind = some close →
    (span lambda.info).stop = close.span.stop
  unclosed : closingBrace? 0 behind = none →
    ∀ token ∈ behind, token.span.stop ≤ (span lambda.info).stop
  below : lambda.lambdasBelow.map (fun inner => (span inner.info).start) =
    braceStarts (enclosed 0 behind)

namespace Braced

variable {tokens mid rest behind later : List Token} {first second nodes : List Outline}
  {node : Outline} {brace close : Token}

theorem append (h : Braced tokens mid first) (hs : Braced mid behind second) :
    Braced tokens behind (first ++ second) := by
  induction h with
  | nil => exact hs
  | plain ht _ ih => exact .plain ht (ih hs)
  | closed hb hl hi hc hspan _ _ ih => exact .closed hb hl hi hc hspan (ih hs)
  | unclosed hb hl hi hstart he _ =>
    cases hs
    exact .unclosed hb hl hi hstart he

theorem skip {front : List Token} (hf : ∀ token ∈ front, token.lexeme.isCurly = false)
    (h : Braced tokens behind nodes) : Braced (front ++ tokens) behind nodes := by
  induction front with
  | nil => exact h
  | cons token front ih =>
    obtain ⟨ht, hf⟩ := List.forall_mem_cons.1 hf
    exact .plain ht (ih hf)

/-- What stands behind decides how a brace in front is closed. -/
theorem closingBrace?_eq (h : Braced tokens behind nodes) (depth : Nat) :
    closingBrace? depth tokens = closingBrace? depth behind := by
  induction h generalizing depth with
  | nil => rfl
  | plain ht _ ih => rw [closingBrace?_plain ht, ih]
  | closed hb _ _ hc _ _ ihi ih =>
    rw [closingBrace?_opening hb, ihi, closingBrace?_closing_succ hc, ih]
  | unclosed hb _ _ _ _ ihi =>
    rw [closingBrace?_opening hb, ihi]
    rfl

theorem starts_enclosed (h : Braced tokens behind nodes) (depth : Nat) :
    braceStarts (enclosed depth tokens) =
      (nodes.flatMap Node.lambdas).map (·.info.start) ++ braceStarts (enclosed depth behind) := by
  induction h generalizing depth with
  | nil => rfl
  | plain ht _ ih => rw [enclosed_plain ht, braceStarts_of_ne (ne_of_not_isCurly ht).1, ih]
  | closed hb hl _ hc hs _ ihi ih =>
    have hne : (Lexeme.closing .curly) ≠ .opening .curly := nofun
    rw [enclosed_opening hb, braceStarts_opening hb, ihi, enclosed_closing_succ hc,
      braceStarts_of_ne (hc ▸ hne), ih, List.flatMap_cons, Node.lambdas_eq, hl,
      ← Node.lambdasBelow_eq]
    simp [hs]
  | unclosed hb hl _ hs _ ihi =>
    rw [enclosed_opening hb, braceStarts_opening hb, ihi, List.flatMap_singleton, Node.lambdas_eq,
      hl, ← Node.lambdasBelow_eq]
    simp [hs, enclosed, braceStarts]

theorem suffix_cases {first second : Token} {front back : List Token}
    (hf : first :: front <:+ tokens) (hs : second :: back <:+ tokens) :
    (first = second ∧ front = back) ∨ first :: front <:+ back ∨ second :: back <:+ front := by
  rcases List.suffix_or_suffix_of_suffix hf hs with h | h
  · rcases List.suffix_cons_iff.1 h with he | h
    · exact .inl (List.cons.inj he)
    · exact .inr (.inl h)
  · rcases List.suffix_cons_iff.1 h with he | h
    · obtain ⟨rfl, rfl⟩ := List.cons.inj he
      exact .inl ⟨rfl, rfl⟩
    · exact .inr (.inr h)

theorem not_suffix {token : Token} {tokens later : List Token} (h : token :: later <:+ tokens) :
    ¬ tokens <:+ later := by
  intro hs
  have hl := (h.trans hs).length_le
  rw [List.length_cons] at hl
  omega

theorem suffix (h : Braced tokens behind nodes) : behind <:+ tokens := by
  induction h with
  | nil => exact List.suffix_rfl
  | plain _ _ ih => exact ih.trans (List.suffix_cons ..)
  | closed _ _ _ _ _ _ ihi ih =>
    exact ih.trans ((List.suffix_cons ..).trans (ihi.trans (List.suffix_cons ..)))
  | unclosed => exact List.nil_suffix

theorem opens_closed (hl : node.isLambda = true)
    (hi : Braced tokens (close :: rest) (node.children.flatMap Node.outerLambdas))
    (hc : close.lexeme = .closing .curly)
    (hs : node.info = ⟨brace.span.start, close.span.stop⟩) : brace.Opens id tokens node where
  isLambda := hl
  start_eq := by rw [id, hs]
  closed found hf := by
    rw [hi.closingBrace?_eq, closingBrace?_closing hc] at hf
    cases hf
    rw [id, hs]
  unclosed hn := by
    rw [hi.closingBrace?_eq, closingBrace?_closing hc] at hn
    cases hn
  below := by
    rw [hi.starts_enclosed, enclosed_closing hc, ← Node.lambdasBelow_eq]
    exact (List.append_nil _).symm

theorem opens_unclosed (hl : node.isLambda = true)
    (hi : Braced tokens [] (node.children.flatMap Node.outerLambdas))
    (hs : node.info.start = brace.span.start)
    (he : ∀ token ∈ tokens, token.span.stop ≤ node.info.stop) : brace.Opens id tokens node where
  isLambda := hl
  start_eq := hs
  closed found hf := by
    rw [hi.closingBrace?_eq] at hf
    cases hf
  unclosed _ := he
  below := by
    rw [hi.starts_enclosed, ← Node.lambdasBelow_eq]
    exact (List.append_nil _).symm

/-- Every opening brace opens a lambda. -/
theorem exists_lambda (h : Braced tokens behind nodes) (hm : brace :: later <:+ tokens)
    (hb : behind <:+ later) (ho : brace.lexeme = .opening .curly) :
    ∃ lambda ∈ nodes.flatMap Node.lambdas, brace.Opens id later lambda := by
  induction h generalizing later with
  | nil => exact (not_suffix hm hb).elim
  | plain ht _ ih =>
    rcases List.suffix_cons_iff.1 hm with he | hm
    · cases he
      exact ((ne_of_not_isCurly ht).1 ho).elim
    · exact ih hm hb
  | closed _ hl hi hc hs _ ihi ih =>
    rw [List.flatMap_cons, Node.lambdas_eq, hl, Node.lambdasBelow_eq]
    rcases List.suffix_cons_iff.1 hm with he | hm
    · cases he
      exact ⟨_, by simp, opens_closed hl hi hc hs⟩
    · rcases suffix_cases hm hi.suffix with ⟨he, _⟩ | hbehind | hinside
      · rw [he, hc] at ho
        cases ho
      · obtain ⟨lambda, hmem, hopens⟩ := ih hbehind hb
        exact ⟨lambda, List.mem_append_right _ hmem, hopens⟩
      · obtain ⟨lambda, hmem, hopens⟩ := ihi hm hinside
        exact ⟨lambda, List.mem_append_left _ (List.mem_append_right _ hmem), hopens⟩
  | unclosed _ hl hi hs he ihi =>
    rw [List.flatMap_singleton, Node.lambdas_eq, hl, Node.lambdasBelow_eq]
    rcases List.suffix_cons_iff.1 hm with hh | hm
    · cases hh
      exact ⟨_, by simp, opens_unclosed hl hi hs he⟩
    · obtain ⟨lambda, hmem, hopens⟩ := ihi hm List.nil_suffix
      exact ⟨lambda, List.mem_append_right _ hmem, hopens⟩

/-- Every closing brace closes an opening one. -/
theorem exists_brace (h : Braced tokens behind nodes) (hm : close :: later <:+ tokens)
    (hb : behind <:+ later) (hc : close.lexeme = .closing .curly) :
    ∃ brace inside, brace :: inside <:+ tokens ∧ brace.lexeme = .opening .curly ∧
      closingBrace? 0 inside = some close := by
  induction h generalizing later with
  | nil => exact (not_suffix hm hb).elim
  | plain ht _ ih =>
    rcases List.suffix_cons_iff.1 hm with he | hm
    · cases he
      exact ((ne_of_not_isCurly ht).2 hc).elim
    · obtain ⟨brace, inside, hs, h⟩ := ih hm hb
      exact ⟨brace, inside, hs.trans (List.suffix_cons ..), h⟩
  | @closed brace found tokens rest _ _ _ ho _ hi hf _ _ ihi ih =>
    rcases List.suffix_cons_iff.1 hm with he | hm
    · cases he
      rw [hc] at ho
      cases ho
    · rcases suffix_cases hm hi.suffix with ⟨rfl, _⟩ | hbehind | hinside
      · refine ⟨brace, tokens, List.suffix_rfl, ho, ?_⟩
        rw [hi.closingBrace?_eq, closingBrace?_closing hf]
      · obtain ⟨other, inside, hs, h⟩ := ih hbehind hb
        have hrest : rest <:+ brace :: tokens :=
          (List.suffix_cons ..).trans (hi.suffix.trans (List.suffix_cons ..))
        exact ⟨other, inside, hs.trans hrest, h⟩
      · obtain ⟨other, inside, hs, h⟩ := ihi hm hinside
        exact ⟨other, inside, hs.trans (List.suffix_cons ..), h⟩
  | unclosed ho _ _ _ _ ihi =>
    rcases List.suffix_cons_iff.1 hm with he | hm
    · cases he
      rw [hc] at ho
      cases ho
    · obtain ⟨brace, inside, hs, h⟩ := ihi hm List.nil_suffix
      exact ⟨brace, inside, hs.trans (List.suffix_cons ..), h⟩

end Braced

end StateDiagram
