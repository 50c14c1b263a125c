import StateDiagram.Source
import StateDiagram.Syntax.Call

namespace StateDiagram

/-- Operators that may stand in the parameter list of a lambda. -/
def parameterOperators : List String := [",", ":", ".", "<", ">", "?"]

def Lexeme.isParameter : Lexeme → Bool
  | .identifier _ | .lineBreak | .opening .round | .closing .round => true
  | .operator text => parameterOperators.contains text
  | _ => false

/-- Reads the parameters of a lambda up to and including the arrow, if there is one. -/
def readParameters (source : Source) (cursor : Cursor) : Option String × Cursor :=
  match cursor.rest.dropWhile (·.lexeme.isParameter) with
  | [] => (none, cursor)
  | arrow :: rest =>
    if arrow.lexeme = .operator "->" then
      let tokens := cursor.rest.takeWhile (·.lexeme.isParameter)
      let span := Span.ofTokens? (tokens.filter (!·.lexeme.isLineBreak))
      (some ((span.map source.slice).getD ""), .past arrow rest)
    else (none, cursor)

/-- Reads a lambda behind its opening brace. Of brackets only the closing brace ends it. Its block
runs from its first to its last statement. -/
def readLambda (source : Source) (read : Reader) : Reader := fun token cursor =>
  let (parameters, afterParameters) := readParameters source cursor
  match readStatements read (some .curly) afterParameters with
  | none => none
  | some (body, stop) =>
    let bodyStart := (body.head?.map (·.info.start)).getD (stop.nextStart source.size)
    let bodyStop := (body.getLast?.map (·.info.stop)).getD bodyStart
    let next := stop.skipClosing .curly
    some (.lambda ⟨token.span.start, max next.previousEnd bodyStop⟩ parameters
      (.block ⟨bodyStart, bodyStop⟩ body), next)

/-- Reads expressions up to a closing bracket, which is read too if it is the right one. -/
def readGroupItems (read : Reader) (close : Bracket) (cursor : Cursor) :
    Option (List Outline × Cursor) :=
  match _h : cursor.rest with
  | [] => some ([], cursor)
  | token :: rest =>
    match token.lexeme with
    | .lineBreak => readGroupItems read close (.past token rest)
    | .closing bracket => some ([], if bracket = close then .past token rest else cursor)
    | _ =>
      match read token (.past token rest) with
      | none => none
      | some (item, next) =>
        if _hnext : next.rest.length ≤ rest.length then
          match readGroupItems read close next with
          | none => none
          | some (more, stop) => some (item :: more, stop)
        else some ([item], next)
termination_by cursor.rest.length
decreasing_by
  all_goals simp [_h, Cursor.past]
  omega

def readGroup (read : Reader) (bracket : Bracket) : Reader := fun token cursor =>
  match readGroupItems read bracket cursor with
  | none => none
  | some (items, next) => some (.group ⟨token.span.start, next.previousEnd⟩ items, next)

/-- A member that is about to be selected. -/
structure Member where
  safe : Bool
  text : String
  span : Span
  next : Cursor

/-- The member behind a dot, which may stand on a following line. -/
def memberAhead? (cursor : Cursor) : Option Member :=
  match cursor.rest.dropWhile (·.lexeme.isLineBreak) with
  | dot :: name :: rest =>
    match name.lexeme with
    | .identifier text =>
      if dot.lexeme = .operator "." then some ⟨false, text, name.span, .past name rest⟩
      else if dot.lexeme = .operator "?." then some ⟨true, text, name.span, .past name rest⟩
      else none
    | _ => none
  | _ => none

/-- Reads the member accesses and index suffixes behind an expression. An index bracket touches
what it follows. -/
def readSuffixes (interior : Interior) (node : Outline) (cursor : Cursor) :
    Option (Outline × Cursor) :=
  match memberAhead? cursor with
  | some member =>
    match readNamed interior member.text member.span member.next with
    | none => none
    | some (selector, next) =>
      let span : Span := ⟨node.info.start, selector.info.stop⟩
      let access := Node.memberAccess span node selector member.safe
      if _hnext : next.rest.length < cursor.rest.length then readSuffixes interior access next
      else some (access, next)
  | none =>
    match cursor.rest with
    | [] => some (node, cursor)
    | token :: rest =>
      if token.lexeme = .opening .square ∧ token.span.start = cursor.previousEnd then
        match interior.group .square token (.past token rest) with
        | none => none
        | some (index, next) =>
          let indexed := Node.sequence ⟨node.info.start, index.info.stop⟩ [node, index]
          if _hnext : next.rest.length < cursor.rest.length then readSuffixes interior indexed next
          else some (indexed, next)
      else some (node, cursor)
termination_by cursor.rest.length

/-- Reads an expression without its suffixes. -/
def readPrimary (interior : Interior) : Reader := fun token cursor =>
  match token.lexeme with
  | .identifier text => readNamed interior text token.span cursor
  | .opening .curly => interior.lambda token cursor
  | .opening bracket => interior.group bracket token cursor
  | .string text => some (.stringLiteral token.span (stringContent text), cursor)
  | .character _ | .number _ => some (.literal token.span, cursor)
  | _ => some (.token token.span, cursor)

def readExpression (interior : Interior) : Reader := fun token cursor =>
  match readPrimary interior token cursor with
  | none => none
  | some (node, next) => readSuffixes interior node next

mutual

/-- Reads an expression that may nest as deep as the allowance says. -/
def expressionWithin (source : Source) : Nat → Reader
  | 0 => fun _ _ => none
  | allowance + 1 =>
    readExpression {
      argument := expressionWithin source allowance
      lambda := lambdaWithin source allowance
      group := groupWithin source allowance
    }

def lambdaWithin (source : Source) : Nat → Reader
  | 0 => fun _ _ => none
  | allowance + 1 => readLambda source (expressionWithin source allowance)

def groupWithin (source : Source) : Nat → Bracket → Reader
  | 0 => fun _ _ _ => none
  | allowance + 1 => readGroup (expressionWithin source allowance)

end

end StateDiagram
