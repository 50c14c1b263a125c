import StateDiagram.Syntax.Node
import StateDiagram.Token

namespace StateDiagram

/-- The tokens still to be read, and where the token before them ends. -/
structure Cursor where
  previousEnd : Nat
  rest : List Token
deriving Repr

namespace Cursor

/-- The cursor right behind a token. -/
def past (token : Token) (rest : List Token) : Cursor := ⟨token.span.stop, rest⟩

/-- Where the next token starts; `size` is where the source ends. -/
def nextStart (cursor : Cursor) (size : Nat) : Nat :=
  match cursor.rest with
  | [] => size
  | token :: _ => token.span.start

/-- Steps over the next token if it is the given closing bracket. -/
def skipClosing (bracket : Bracket) (cursor : Cursor) : Cursor :=
  match cursor.rest with
  | [] => cursor
  | token :: rest => if token.lexeme = .closing bracket then past token rest else cursor

end Cursor

/-- The span from the first to the last of some tokens. -/
def Span.ofTokens? (tokens : List Token) : Option Span :=
  match tokens, tokens.getLast? with
  | first :: _, some last => some ⟨first.span.start, last.span.stop⟩
  | _, _ => none

def Lexeme.isLineBreak : Lexeme → Bool
  | .lineBreak => true
  | _ => false

def Lexeme.isClosing : Lexeme → Bool
  | .closing _ => true
  | _ => false

/-- A tree whose nodes know their spans only. -/
abbrev Outline := Node Span

/-- Reads on from a token, which is the first of what is read, and the cursor behind it; gives up
where the nesting allowance is used up. -/
abbrev Reader := Token → Cursor → Option (Outline × Cursor)

end StateDiagram
