import StateDiagram.Text
import StateDiagram.Token

namespace StateDiagram

structure Location where
  line : Nat
  column : Nat
deriving DecidableEq, Repr

/-- The location right after the given text. -/
def Location.after (before : List Char) : Location where
  line := 1 + before.count '\n'
  column := 1 + (before.reverse.takeWhile (· ≠ '\n')).length

structure Source where
  text : List Char

def Source.ofString (text : String) : Source := ⟨Text.normalizeLineEndings text.toList⟩

namespace Source

def size (source : Source) : Nat := Text.byteSize source.text

/-- The text under a span. -/
def slice (source : Source) (span : Span) : String :=
  String.ofList (Text.slice span.start span.stop source.text)

end Source

/-- A span together with its location and its text. -/
structure Place where
  span : Span
  location : Location
  text : String
deriving DecidableEq, Repr

def Source.locate (source : Source) (span : Span) : Place where
  span := span
  location := .after (Text.takeBytes span.start source.text)
  text := source.slice span

end StateDiagram
