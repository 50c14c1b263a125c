import StateDiagram.Syntax.Expression
import StateDiagram.Token.Lexer

namespace StateDiagram

inductive Fault where
  | unreadable (problem : String) (location : Location)
  | malformedBuilder (problem : String) (location : Location)
  | nestingTooDeep (limit : Nat)
deriving DecidableEq, Repr

def Location.message (location : Location) : String :=
  s!"line {location.line}, column {location.column}"

def Fault.message : Fault → String
  | .unreadable problem location => s!"Parse error: {problem} at {location.message}"
  | .malformedBuilder problem location =>
    s!"Malformed state machine DSL: {problem} at {location.message}"
  | .nestingTooDeep limit => s!"Nesting too deep: exceeded the limit of {limit} levels"

/-- Whether a builder was found that has no body. -/
def Fault.isMalformedBuilder : Fault → Bool
  | .malformedBuilder _ _ => true
  | _ => false

/-- A tree whose nodes know their places and texts. -/
abbrev SyntaxTree := Node Place

def Source.tokens (source : Source) : List Token := Token.scan 0 source.text

/-- The tree of the whole source, unless it nests deeper than `limit`. -/
def Source.outline? (source : Source) (limit : Nat) : Option Outline :=
  match readStatements (expressionWithin source limit) none ⟨0, source.tokens⟩ with
  | none => none
  | some (statements, _) => some (.file ⟨0, source.size⟩ statements)

def Source.parse (source : Source) (limit : Nat) : Except Fault SyntaxTree :=
  match source.outline? limit with
  | none => .error (.nestingTooDeep limit)
  | some outline => .ok (outline.map source.locate)

theorem Source.parse_eq_ok_iff {source : Source} {limit : Nat} {tree : SyntaxTree} :
    source.parse limit = .ok tree ↔
      ∃ outline, source.outline? limit = some outline ∧ outline.map source.locate = tree := by
  rw [parse]
  cases source.outline? limit <;> simp

theorem Source.eq_of_parse {source : Source} {limit : Nat} {fault : Fault}
    (h : source.parse limit = .error fault) : fault = .nestingTooDeep limit := by
  rw [parse] at h
  split at h <;> cases h
  rfl

/-- Parses a source text; line endings are normalized first. -/
def SyntaxTree.parse (limit : Nat) (text : String) : Except Fault SyntaxTree :=
  (Source.ofString text).parse limit

/-- The content of a string literal, the text of any other node. -/
def SyntaxTree.unquoted : SyntaxTree → String
  | .stringLiteral _ content => content
  | node => node.info.text

end StateDiagram
