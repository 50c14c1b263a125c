import StateDiagram.Syntax.Cursor

namespace StateDiagram

/-- Operators that carry a statement on to the next line. -/
def carryingOperators : List String := [
  "=", "+=", "-=", "*=", "/=", "%=", "+", "-", "*", "/", "%", "==", "!=", "===", "!==", "<",
  ">", "<=", ">=", "&&", "||", "?:", "->", ".", "?.", "::", "..", ",", ":", "@"
  ]

/-- Operators that carry the previous line's statement on. -/
def leadingOperators : List String := [".", "?.", "?:", "&&", "||"]

def Lexeme.isCarrying : Lexeme → Bool
  | .operator text => carryingOperators.contains text
  | _ => false

def Lexeme.isLeading : Lexeme → Bool
  | .operator text => leadingOperators.contains text
  | _ => false

/-- Whether the first token that is no line break carries on the statement before it. -/
def leadsOn (tokens : List Token) : Bool :=
  match tokens.dropWhile (·.lexeme.isLineBreak) with
  | [] => false
  | token :: _ => token.lexeme.isLeading

/-- What a sequence of expressions is part of. -/
inductive Setting where
  | statement
  | argument
deriving DecidableEq, Repr

/-- The operator at which a sequence ends. -/
def Setting.separator : Setting → Lexeme
  | .statement => .operator ";"
  | .argument => .operator ","

/-- Reads expressions up to the end of a sequence. A line break ends a statement unless the line
before or the line behind carries it on; `carried` says whether the last expression is an operator
that does. -/
def sequenceItems (read : Reader) (setting : Setting) (carried : Bool) (cursor : Cursor) :
    Option (List Outline × Cursor) :=
  match _h : cursor.rest with
  | [] => some ([], cursor)
  | token :: rest =>
    if token.lexeme.isClosing || token.lexeme == setting.separator then some ([], cursor)
    else if token.lexeme.isLineBreak then
      if setting == .argument || carried || leadsOn rest then
        sequenceItems read setting carried (.past token rest)
      else some ([], cursor)
    else
      match read token (.past token rest) with
      | none => none
      | some (item, next) =>
        if _hnext : next.rest.length ≤ rest.length then
          match sequenceItems read setting (item.isToken && token.lexeme.isCarrying) next with
          | none => none
          | some (items, stop) => some (item :: items, stop)
        else some ([item], next)
termination_by cursor.rest.length
decreasing_by
  · simp [_h, Cursor.past]
  · simp [_h]; omega

/-- A single node for a run of expressions, if there are any. -/
def collapse : List Outline → Option Outline
  | [] => none
  | [item] => some item
  | first :: second :: items =>
    let last := (second :: items).getLast (List.cons_ne_nil second items)
    some (.sequence ⟨first.info.start, last.info.stop⟩ (first :: second :: items))

def readSequence (read : Reader) (setting : Setting) (cursor : Cursor) :
    Option (Option Outline × Cursor) :=
  match sequenceItems read setting false cursor with
  | none => none
  | some (items, stop) => some (collapse items, stop)

/-- Reads statements up to the bracket `close`, which is left unread, or to the end. A closing
bracket of another kind is a statement of its own. -/
def readStatements (read : Reader) (close : Option Bracket) (cursor : Cursor) :
    Option (List Outline × Cursor) :=
  match _h : cursor.rest with
  | [] => some ([], cursor)
  | token :: rest =>
    match token.lexeme with
    | .lineBreak | .operator ";" => readStatements read close (.past token rest)
    | .closing bracket =>
      if some bracket = close then some ([], cursor)
      else
        match readStatements read close (.past token rest) with
        | none => none
        | some (more, stop) => some (.token token.span :: more, stop)
    | _ =>
      match readSequence read .statement cursor with
      | none => none
      | some (statement, next) =>
        if _hnext : next.rest.length ≤ rest.length then
          match readStatements read close next with
          | none => none
          | some (more, stop) => some (statement.toList ++ more, stop)
        else some (statement.toList, next)
termination_by cursor.rest.length
decreasing_by
  all_goals simp [_h, Cursor.past]
  omega

end StateDiagram
