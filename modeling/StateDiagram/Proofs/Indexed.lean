import StateDiagram.Syntax.Parse

namespace StateDiagram

namespace Text

/-- The text in front of a byte offset and behind it, unless the offset is within a character or
too large. -/
def splitAt? : Nat → List Char → Option (List Char × List Char)
  | 0, cs => some ([], cs)
  | _ + 1, [] => none
  | n + 1, c :: cs =>
    if c.utf8Size ≤ n + 1 then
      match splitAt? (n + 1 - c.utf8Size) cs with
      | none => none
      | some (before, after) => some (c :: before, after)
    else none

/-- The text between two byte offsets that can be split at and stand in order. -/
def slice? (start stop : Nat) (cs : List Char) : Option (List Char) :=
  if start ≤ stop then
    match splitAt? start cs with
    | none => none
    | some (_, behind) => (splitAt? (stop - start) behind).map (·.1)
  else none

/-- Where the lines start behind the line feeds of a text, which starts at the given offset. -/
def linesFrom (offset : Nat) : List Char → List Nat
  | [] => []
  | c :: cs =>
    let next := offset + c.utf8Size
    if c = '\n' then next :: linesFrom next cs else linesFrom next cs

/-- The first index from `low` to `high` at which `p` does not hold, by binary search. -/
def partitionPoint (p : Nat → Bool) (values : List Nat) (low high : Nat) : Nat :=
  if low < high then
    let mid := low + (high - low) / 2
    if values[mid]?.any p then partitionPoint p values (mid + 1) high
    else partitionPoint p values low mid
  else low
termination_by high - low

/-- The text between the quotes of a string literal, sliced by bytes. -/
def content? (cs : List Char) : Option (List Char) :=
  let raw := Lexeme.rawQuotes
  if 6 ≤ byteSize cs ∧ raw.isPrefixOf cs ∧ raw.isSuffixOf cs then slice? 3 (byteSize cs - 3) cs
  else if 2 ≤ byteSize cs then slice? 1 (byteSize cs - 1) cs
  else some cs

end Text

namespace Source

def lineStarts (source : Source) : List Nat := 0 :: Text.linesFrom 0 source.text

def location? (source : Source) (offset : Nat) : Option Location :=
  let starts := source.lineStarts
  let line := Text.partitionPoint (· ≤ offset) starts 0 starts.length
  match starts[line - 1]? with
  | none => none
  | some start => (Text.slice? start offset source.text).map fun front => ⟨line, front.length + 1⟩

def place? (source : Source) (span : Span) : Option Place :=
  match source.location? span.start, Text.slice? span.start span.stop source.text with
  | some location, some text => some ⟨span, location, String.ofList text⟩
  | _, _ => none

end Source

namespace Indexed

/-- Why there is no tree: for a fault of the source, or since the builder crashes. -/
inductive Failure where
  | fault (fault : Fault)
  | crash
deriving DecidableEq, Repr

/-- The index of the next token, and the number of levels that have been entered. -/
structure Position where
  index : Nat
  depth : Nat
deriving DecidableEq, Repr

abbrev Build := StateT Position (Except Failure)

/-- The builders for what stands inside an expression. -/
structure Interior where
  argument : Build SyntaxTree
  lambda : Build SyntaxTree
  group : Bracket → Build SyntaxTree

section

variable (source : Source)

def startOf (index : Nat) : Nat := (source.tokens[index]?.map (·.span.start)).getD source.size

def endBefore : Nat → Nat
  | 0 => 0
  | index + 1 => (source.tokens[index]?.map (·.span.stop)).getD 0

def touches (index : Nat) : Bool :=
  0 < index && startOf source index == endBefore source index

/-- The index of the first token that is no line break. -/
def pastBreaks (index : Nat) : Nat :=
  index + ((source.tokens.drop index).takeWhile (·.lexeme.isLineBreak)).length

def peek : Build (Option Token) := return source.tokens[(← get).index]?

def advance (count : Nat) : Build Unit :=
  modify fun position => { position with index := position.index + count }

def enter (limit : Nat) : Build Unit := do
  let depth := (← get).depth + 1
  modify fun position => { position with depth := depth }
  if limit < depth then throw (.fault (.nestingTooDeep limit))

def leave : Build Unit := do
  match (← get).depth with
  | 0 => throw .crash
  | depth + 1 => modify fun position => { position with depth := depth }

/-- A node at its place, which is looked up and sliced from the text. -/
def node (build : Place → SyntaxTree) (start stop : Nat) : Build SyntaxTree :=
  match source.place? ⟨start, stop⟩ with
  | none => throw .crash
  | some place => return build place

/-- The expressions of a sequence, in at most so many steps. -/
def items (read : Build SyntaxTree) (setting : Setting) (carried : Bool) :
    Nat → Build (List SyntaxTree)
  | 0 => throw .crash
  | steps + 1 => do
    match ← peek source with
    | none => return []
    | some token =>
      if token.lexeme.isClosing || token.lexeme == setting.separator then return []
      else if token.lexeme.isLineBreak then
        let rest := source.tokens.drop ((← get).index + 1)
        if setting == .argument || carried || leadsOn rest then
          advance 1
          items read setting carried steps
        else return []
      else
        let item ← read
        return item :: (← items read setting (item.isToken && token.lexeme.isCarrying) steps)

def sequence (read : Build SyntaxTree) (setting : Setting) : Build (Option SyntaxTree) := do
  match ← items source read setting false (source.tokens.length + 1) with
  | [] => return none
  | [item] => return some item
  | first :: second :: more =>
    let last := (second :: more).getLast (List.cons_ne_nil second more)
    let tree ← node source (.sequence · (first :: second :: more)) first.info.span.start
      last.info.span.stop
    return some tree

def statements (read : Build SyntaxTree) (close : Option Bracket) : Nat → Build (List SyntaxTree)
  | 0 => throw .crash
  | steps + 1 => do
    match ← peek source with
    | none => return []
    | some token =>
      match token.lexeme with
      | .lineBreak | .operator ";" =>
        advance 1
        statements read close steps
      | .closing bracket =>
        if some bracket = close then return []
        else
          advance 1
          let stray ← node source .token token.span.start token.span.stop
          return stray :: (← statements read close steps)
      | _ =>
        let statement ← sequence source read .statement
        return statement.toList ++ (← statements read close steps)

/-- The index of the `>` that closes a list of type arguments. The count of the brackets that are
open must not drop below zero. -/
def closingAngle? (depth index : Nat) : List Token → Except Failure (Option Nat)
  | [] => return none
  | token :: rest =>
    match token.lexeme with
    | .identifier _ => closingAngle? depth (index + 1) rest
    | .operator text =>
      if text = "<" then closingAngle? (depth + 1) (index + 1) rest
      else if text = ">" then
        match depth with
        | 0 => throw .crash
        | 1 => return if opensCall rest then some index else none
        | depth + 1 => closingAngle? depth (index + 1) rest
      else if typeOperators.contains text then closingAngle? depth (index + 1) rest
      else return none
    | _ => return none

def typeArgument (first : Option Nat) (last : Nat) : Build (List SyntaxTree) :=
  match first with
  | none => return []
  | some start => do
    let tree ← node source .typeArgument start last
    return [tree]

/-- The type arguments up to the index `close`. The one that is being read runs from `first`, if
it has begun, to `last`. -/
def segments (close depth : Nat) (first : Option Nat) (last : Nat) :
    Nat → Build (List SyntaxTree)
  | 0 => throw .crash
  | steps + 1 => do
    let index := (← get).index
    if index < close then
      match source.tokens[index]? with
      | none => throw .crash
      | some token =>
        advance 1
        if token.lexeme = .operator "," ∧ depth = 0 then
          let argument ← typeArgument source first last
          return argument ++ (← segments close 0 none last steps)
        else
          let depth := if token.lexeme = .operator "<" then depth + 1
            else if token.lexeme = .operator ">" then depth - 1 else depth
          segments close depth (some (first.getD token.span.start)) token.span.stop steps
    else typeArgument source first last

def typeArguments : Build (List SyntaxTree) := do
  let index := (← get).index
  let opens := source.tokens[index]?.any (·.lexeme == .operator "<")
  if opens && touches source index then
    match ← closingAngle? 0 index (source.tokens.drop index) with
    | none => return []
    | some close =>
      advance 1
      let arguments ← segments source close 0 none 0 (source.tokens.length + 1)
      modify fun position => { position with index := close + 1 }
      return arguments
  else return []

def argumentName : Build (Option String) := do
  let index := (← get).index
  match source.tokens[index]?, source.tokens[index + 1]? with
  | some ⟨.identifier text, _⟩, some ⟨.operator "=", _⟩ =>
    advance 2
    return some (bareName text)
  | _, _ => return none

def valueArgument (read : Build SyntaxTree) : Build (Option SyntaxTree) := do
  let start := startOf source (← get).index
  let name ← argumentName source
  match ← sequence source read .argument with
  | none => return none
  | some expression =>
    let tree ← node source (.valueArgument · name expression) start expression.info.span.stop
    return some tree

def valueArguments (read : Build SyntaxTree) : Nat → Build (List SyntaxTree)
  | 0 => throw .crash
  | steps + 1 => do
    match ← peek source with
    | none => return []
    | some token =>
      match token.lexeme with
      | .lineBreak | .operator "," =>
        advance 1
        valueArguments read steps
      | .closing bracket =>
        if bracket = .round then advance 1
        return []
      | _ =>
        let argument ← valueArgument source read
        return argument.toList ++ (← valueArguments read steps)

def callArguments (read : Build SyntaxTree) : Build (Option (List SyntaxTree)) := do
  match ← peek source with
  | none => return none
  | some token =>
    if token.lexeme = .opening .round then
      advance 1
      let arguments ← valueArguments source read (source.tokens.length + 1)
      return some arguments
    else return none

def trailingLambda (read : Build SyntaxTree) : Build (Option SyntaxTree) := do
  match ← peek source with
  | none => return none
  | some token =>
    if token.lexeme = .opening .curly then
      let lambda ← read
      return some lambda
    else return none

/-- A call or an identifier. What is no identifier would be a node without text. -/
def named (interior : Interior) : Build SyntaxTree := do
  match ← peek source with
  | some ⟨.identifier text, span⟩ =>
    advance 1
    let callee ← node source (.identifier · (bareName text)) span.start span.stop
    let types ← typeArguments source
    let arguments ← callArguments source interior.argument
    let lambda ← trailingLambda source interior.lambda
    if types.isEmpty && arguments.isNone && lambda.isNone then return callee
    else
      node source (.call · callee types (arguments.getD []) lambda) span.start
        (endBefore source (← get).index)
  | other =>
    if other.isSome then advance 1
    let stop := endBefore source (← get).index
    node source .token stop stop

/-- An expression without its suffixes. If no token were left it would be a node without text. -/
def primary (interior : Interior) : Build SyntaxTree := do
  match ← peek source with
  | none => node source .token source.size source.size
  | some token =>
    match token.lexeme with
    | .identifier _ => named source interior
    | .opening .curly => interior.lambda
    | .opening bracket => interior.group bracket
    | .string text =>
      advance 1
      match Text.content? text.toList with
      | none => throw .crash
      | some content =>
        node source (.stringLiteral · (String.ofList content)) token.span.start token.span.stop
    | .character _ | .number _ =>
      advance 1
      node source .literal token.span.start token.span.stop
    | _ =>
      advance 1
      node source .token token.span.start token.span.stop

/-- The index of the dot in front of a member, which may stand on a following line. -/
def memberDot? (index : Nat) : Option Nat :=
  let dot := pastBreaks source index
  match source.tokens[dot]?, source.tokens[dot + 1]? with
  | some ⟨.operator ".", _⟩, some ⟨.identifier _, _⟩ => some dot
  | some ⟨.operator "?.", _⟩, some ⟨.identifier _, _⟩ => some dot
  | _, _ => none

def suffixes (interior : Interior) (tree : SyntaxTree) : Nat → Build SyntaxTree
  | 0 => throw .crash
  | steps + 1 => do
    let index := (← get).index
    match memberDot? source index with
    | some dot =>
      modify fun position => { position with index := dot }
      let safe := (← peek source).any (·.lexeme == .operator "?.")
      advance 1
      let selector ← named source interior
      let access ← node source (.memberAccess · tree selector safe) tree.info.span.start
        selector.info.span.stop
      suffixes interior access steps
    | none =>
      let opens := source.tokens[index]?.any (·.lexeme == .opening .square)
      if opens && touches source index then
        let group ← interior.group .square
        let indexed ← node source (.sequence · [tree, group]) tree.info.span.start
          group.info.span.stop
        suffixes interior indexed steps
      else return tree

def expression (limit : Nat) (interior : Interior) : Build SyntaxTree := do
  enter limit
  let tree ← primary source interior
  let tree ← suffixes source interior tree (source.tokens.length + 1)
  leave
  return tree

def parameters : Build (Option String) := do
  let index := (← get).index
  let arrow := index + ((source.tokens.drop index).takeWhile (·.lexeme.isParameter)).length
  if source.tokens[arrow]?.any (·.lexeme == .operator "->") then
    let first := pastBreaks source index
    modify fun position => { position with index := arrow + 1 }
    if first < arrow then
      let last := (source.tokens.take arrow).reverse.find? (!·.lexeme.isLineBreak)
      let stop := (last.map (·.span.stop)).getD (startOf source first)
      match Text.slice? (startOf source first) stop source.text with
      | none => throw .crash
      | some text => return some (String.ofList text)
    else return some ""
  else return none

def skipClosing (bracket : Bracket) : Build Unit := do
  if (← peek source).any (·.lexeme == .closing bracket) then advance 1

def lambda (limit : Nat) (read : Build SyntaxTree) : Build SyntaxTree := do
  enter limit
  let start := startOf source (← get).index
  advance 1
  let names ← parameters source
  let body ← statements source read (some .curly) (source.tokens.length + 1)
  let bodyStart := (body.head?.map (·.info.span.start)).getD (startOf source (← get).index)
  let bodyStop := (body.getLast?.map (·.info.span.stop)).getD bodyStart
  skipClosing source .curly
  let stop := max (endBefore source (← get).index) bodyStop
  let block ← node source (.block · body) bodyStart bodyStop
  leave
  node source (.lambda · names block) start stop

def groupItems (read : Build SyntaxTree) (close : Bracket) : Nat → Build (List SyntaxTree)
  | 0 => throw .crash
  | steps + 1 => do
    match ← peek source with
    | none => return []
    | some token =>
      match token.lexeme with
      | .lineBreak =>
        advance 1
        groupItems read close steps
      | .closing bracket =>
        if bracket = close then advance 1
        return []
      | _ =>
        let item ← read
        return item :: (← groupItems read close steps)

def group (limit : Nat) (read : Build SyntaxTree) (bracket : Bracket) : Build SyntaxTree := do
  enter limit
  let start := startOf source (← get).index
  advance 1
  let children ← groupItems source read bracket (source.tokens.length + 1)
  let stop := endBefore source (← get).index
  leave
  node source (.group · children) start stop

/-- The builders that may enter as many levels as there are left; no more are ever needed. -/
def interior (limit : Nat) : Nat → Interior
  | 0 => ⟨throw .crash, throw .crash, fun _ => throw .crash⟩
  | levels + 1 =>
    let inner := interior limit levels
    ⟨expression source limit inner, lambda source limit inner.argument,
      group source limit inner.argument⟩

def file (limit : Nat) : Build SyntaxTree := do
  let nodes ← statements source (interior source limit (limit + 1)).argument none
    (source.tokens.length + 1)
  node source (.file · nodes) 0 source.size

end

/-- The tree of a source, and how far the builder has got when it is done. -/
def build (limit : Nat) (source : Source) : Except Failure (SyntaxTree × Position) :=
  (file source limit).run ⟨0, 0⟩

end Indexed

end StateDiagram
