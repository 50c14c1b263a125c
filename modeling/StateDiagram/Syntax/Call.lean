import StateDiagram.Syntax.Statement
import StateDiagram.Syntax.TypeArgument

namespace StateDiagram

/-- A name without the back quotes around it. -/
def bareName (text : String) : String :=
  let quote := (· == '\x60')
  String.ofList (((text.toList.dropWhile quote).reverse.dropWhile quote).reverse)

/-- The text between the quotes of a string literal. -/
def stringContent (text : String) : String :=
  let cs := text.toList
  let raw := ['\x22', '\x22', '\x22']
  let quotes := if 6 ≤ cs.length ∧ raw.isPrefixOf cs ∧ raw.isSuffixOf cs then 3 else 1
  String.ofList ((cs.drop quotes).take (cs.length - 2 * quotes))

/-- The readers for what stands inside an expression. -/
structure Interior where
  argument : Reader
  lambda : Reader
  group : Bracket → Reader

/-- The name of a named argument, and the cursor behind its equals sign. -/
def readArgumentName (cursor : Cursor) : Option String × Cursor :=
  match cursor.rest with
  | name :: sign :: rest =>
    match name.lexeme, sign.lexeme with
    | .identifier text, .operator "=" => (some (bareName text), .past sign rest)
    | _, _ => (none, cursor)
  | _ => (none, cursor)

/-- Reads value arguments up to and including the closing bracket. Another closing bracket ends
the list and is left unread. -/
def readValueArguments (read : Reader) (cursor : Cursor) : Option (List Outline × Cursor) :=
  match _h : cursor.rest with
  | [] => some ([], cursor)
  | token :: rest =>
    match token.lexeme with
    | .lineBreak | .operator "," => readValueArguments read (.past token rest)
    | .closing bracket =>
      some ([], if bracket = .round then .past token rest else cursor)
    | _ =>
      let (name, start) := readArgumentName cursor
      match readSequence read .argument start with
      | none => none
      | some (expression, next) =>
        let argument := expression.map fun expression =>
          Node.valueArgument ⟨token.span.start, expression.info.stop⟩ name expression
        if _hnext : next.rest.length ≤ rest.length then
          match readValueArguments read next with
          | none => none
          | some (more, stop) => some (argument.toList ++ more, stop)
        else some (argument.toList, next)
termination_by cursor.rest.length
decreasing_by
  all_goals simp [_h, Cursor.past]
  omega

/-- Reads a parenthesized argument list, if there is one. -/
def readCallArguments (read : Reader) (cursor : Cursor) :
    Option (Option (List Outline) × Cursor) :=
  match cursor.rest with
  | [] => some (none, cursor)
  | token :: rest =>
    if token.lexeme = .opening .round then
      match readValueArguments read (.past token rest) with
      | none => none
      | some (arguments, next) => some (some arguments, next)
    else some (none, cursor)

def readTrailingLambda (read : Reader) (cursor : Cursor) : Option (Option Outline × Cursor) :=
  match cursor.rest with
  | [] => some (none, cursor)
  | token :: rest =>
    if token.lexeme = .opening .curly then
      match read token (.past token rest) with
      | none => none
      | some (lambda, next) => some (some lambda, next)
    else some (none, cursor)

/-- Reads on behind a name, which is a call if type arguments, value arguments or a lambda
follow. -/
def readNamed (interior : Interior) (text : String) (span : Span) (cursor : Cursor) :
    Option (Outline × Cursor) :=
  let callee := Node.identifier span (bareName text)
  let (typeArguments, afterTypes) := readTypeArguments cursor
  match readCallArguments interior.argument afterTypes with
  | none => none
  | some (valueArguments, afterValues) =>
    match readTrailingLambda interior.lambda afterValues with
    | none => none
    | some (lambda, next) =>
      if typeArguments.isEmpty && valueArguments.isNone && lambda.isNone then some (callee, next)
      else
        some (.call ⟨span.start, next.previousEnd⟩ callee typeArguments
          (valueArguments.getD []) lambda, next)

end StateDiagram
