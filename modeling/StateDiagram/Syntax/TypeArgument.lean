import StateDiagram.Syntax.Cursor

namespace StateDiagram

/-- Operators that may stand in a type, angle brackets aside. -/
def typeOperators : List String := [".", ",", "?", "*", "@", ":"]

/-- The tokens up to the `>` that closes an open list, that token and the tokens behind it;
`depth` counts the angle brackets that have been opened inside the list. -/
def closeAngle (depth : Nat) : List Token → Option (List Token × Token × List Token)
  | [] => none
  | token :: rest =>
    match token.lexeme with
    | .identifier _ => (closeAngle depth rest).map fun found => (token :: found.1, found.2)
    | .operator text =>
      if text = "<" then
        (closeAngle (depth + 1) rest).map fun found => (token :: found.1, found.2)
      else if text = ">" then
        match depth with
        | 0 => some ([], token, rest)
        | depth + 1 => (closeAngle depth rest).map fun found => (token :: found.1, found.2)
      else if typeOperators.contains text then
        (closeAngle depth rest).map fun found => (token :: found.1, found.2)
      else none
    | _ => none

/-- Whether a call's arguments or lambda may start here. -/
def opensCall : List Token → Bool
  | [] => false
  | token :: _ => token.lexeme == .opening .round || token.lexeme == .opening .curly

/-- The tokens of the type argument list at the cursor, and the cursor behind the list. A `<` right
behind a name starts such a list only if the list closes, holds nothing but names and a few
operators, and a call follows; otherwise it is a comparison. -/
def typeArgumentTokens? (cursor : Cursor) : Option (List Token × Cursor) :=
  match cursor.rest with
  | [] => none
  | token :: rest =>
    if token.lexeme = .operator "<" ∧ token.span.start = cursor.previousEnd then
      match closeAngle 0 rest with
      | none => none
      | some (tokens, close, rest) =>
        if opensCall rest then some (tokens, .past close rest) else none
    else none

/-- The parts between the commas that stand outside inner angle brackets. -/
def typeSegments (depth : Nat) : List Token → List (List Token)
  | [] => [[]]
  | token :: rest =>
    if token.lexeme = .operator "," ∧ depth = 0 then [] :: typeSegments 0 rest
    else
      let inner :=
        if token.lexeme = .operator "<" then depth + 1
        else if token.lexeme = .operator ">" then depth - 1
        else depth
      match typeSegments inner rest with
      | [] => [[token]]
      | segment :: segments => (token :: segment) :: segments

/-- Reads a type argument list, if there is one; empty arguments are left out. -/
def readTypeArguments (cursor : Cursor) : List Outline × Cursor :=
  match typeArgumentTokens? cursor with
  | none => ([], cursor)
  | some (tokens, next) =>
    (((typeSegments 0 tokens).filterMap Span.ofTokens?).map .typeArgument, next)

end StateDiagram
