import StateDiagram.Text

namespace StateDiagram

namespace Dialect

def name : String := "kotlin"

def version : String := "0.1.0"

/-- The name of a source that comes from no file. -/
def defaultFileName : String := "main.kt"

/-- Whether a file of this name holds source text. -/
def supports (fileName : String) : Bool :=
  let cs := (Text.lower fileName).toList
  ['.', 'k', 't'].isSuffixOf cs || ['.', 'k', 't', 's'].isSuffixOf cs

end Dialect

/-- How sure the look is, from unlikely to certain. -/
inductive Confidence where
  | none
  | weak
  | likely
  | certain
deriving DecidableEq, Repr

namespace Confidence

/-- The confidence in tenths. -/
def tenths : Confidence → Nat
  | .none => 0
  | .weak => 3
  | .likely => 8
  | .certain => 10

def text (confidence : Confidence) : String :=
  s!"{confidence.tenths / 10}.{confidence.tenths % 10}"

end Confidence

namespace Detection

def builderName : String := "StateMachine.create"

def patterns : List String :=
  [builderName, "initialState", "state", "on", "transitionTo", "dontTransition"]

/-- The builder's name decides; its two halves apart make a builder likely. -/
def confidence (source : String) : Confidence :=
  if Text.occurs builderName source then .certain
  else if Text.occurs "StateMachine" source && Text.occurs "create" source then .likely
  else if Text.occurs "initialState" source || Text.occurs "transitionTo" source then .weak
  else .none

/-- Whether a builder is more likely than not. -/
def detects (source : String) : Bool := 5 < (confidence source).tenths

end Detection

end StateDiagram
