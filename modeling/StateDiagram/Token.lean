namespace StateDiagram

/-- A range of byte offsets, its end excluded. -/
structure Span where
  start : Nat
  stop : Nat
deriving DecidableEq, Repr

inductive Bracket where
  | round
  | square
  | curly
deriving DecidableEq, Repr

def Bracket.opening : Bracket → Char
  | .round => '('
  | .square => '['
  | .curly => '{'

def Bracket.closing : Bracket → Char
  | .round => ')'
  | .square => ']'
  | .curly => '}'

/-- What a token is; keywords are identifiers, and every text includes its quotes. -/
inductive Lexeme where
  | lineBreak
  | string (text : String)
  | character (text : String)
  | number (text : String)
  | identifier (text : String)
  | operator (text : String)
  | opening (bracket : Bracket)
  | closing (bracket : Bracket)
  | unknown (text : String)
deriving DecidableEq, Repr

/-- The text that the lexeme stands for. -/
def Lexeme.text : Lexeme → String
  | .lineBreak => "\n"
  | .string text | .character text | .number text | .identifier text | .operator text
  | .unknown text => text
  | .opening bracket => bracket.opening.toString
  | .closing bracket => bracket.closing.toString

structure Token where
  lexeme : Lexeme
  span : Span
deriving DecidableEq, Repr

end StateDiagram
