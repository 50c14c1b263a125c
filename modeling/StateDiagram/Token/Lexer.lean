import StateDiagram.Text
import StateDiagram.Text.Numeric
import StateDiagram.Text.Recognizer
import StateDiagram.Token

namespace StateDiagram

open Recognizer Text

namespace Trivia

/-- Spaces, tabs, carriage returns and form feeds, at least one. -/
def inlineWhitespace : Recognizer := repeatedOnce (oneOf [' ', '\t', '\r', '\x0c'])

/-- `//` and the rest of the line. -/
def lineComment : Recognizer := (literal ['/', '/']).andThen (run (· ≠ '\n'))

/-- A closed comment; such comments do not nest. -/
def blockComment : Recognizer := (literal ['/', '*']).andThen (upTo ['*', '/'])

/-- Any amount of blank space and comments. -/
def trivia : Recognizer := repeated (inlineWhitespace.orElse (lineComment.orElse blockComment))

/-- Whether the recognizer takes the whole text. -/
def matchesFully (r : Recognizer) (cs : List Char) : Bool := r cs == some cs.length

end Trivia

namespace Lexeme

/-- A backslash and the character after it. -/
def escape : Recognizer := (literal ['\x5c']).andThen (one fun _ => true)

/-- A template in a string; it closes on its own line. -/
def template : Recognizer :=
  (literal ['$', '{']).andThen
    ((run fun c => c ≠ '}' && c ≠ '\n').andThen (literal ['}']))

def rawQuotes : List Char := ['\x22', '\x22', '\x22']

def rawString : Recognizer := (literal rawQuotes).andThen (upTo rawQuotes)

def plainString : Recognizer :=
  (literal ['\x22']).andThen
    ((repeated (escape.orElse (template.orElse (noneOf ['\x5c', '\x22', '\n'])))).andThen
      (literal ['\x22']))

def stringLiteral : Recognizer := rawString.orElse plainString

def characterLiteral : Recognizer :=
  (literal ['\x27']).andThen
    ((repeatedOnce (escape.orElse (noneOf ['\x5c', '\x27', '\n']))).andThen (literal ['\x27']))

def isWordCharacter (c : Char) : Bool := c.isAlphanum || c == '_'

/-- A digit, letters and digits, and perhaps a fraction. -/
def numberLiteral : Recognizer :=
  (one Char.isDigit).andThen
    ((run isWordCharacter).andThen
      (optional ((literal ['.']).andThen ((one Char.isDigit).andThen (run isWordCharacter)))))

/-- A name between back quotes, on one line. -/
def quotedName : Recognizer :=
  (literal ['\x60']).andThen
    ((run fun c => c ≠ '\x60' && c ≠ '\n').andThen (literal ['\x60']))

def plainName : Recognizer :=
  (one fun c => isAlphabetic c || c == '_').andThen (run fun c => isAlphanumeric c || c == '_')

/-- The operators of more than one character; no operator stands behind one that begins it. -/
def longOperators : List (List Char) := [
  ['=', '=', '='], ['!', '=', '='], ['?', '.'], ['?', ':'], [':', ':'], ['-', '>'], ['!', '!'],
  ['.', '.'], ['=', '='], ['!', '='], ['<', '='], ['>', '='], ['&', '&'], ['|', '|'],
  ['+', '+'], ['-', '-'], ['+', '='], ['-', '='], ['*', '='], ['/', '='], ['%', '=']
  ]

def operatorCharacters : List Char := [
  '+', '-', '*', '/', '%', '<', '>', '=', '!', '?', ':', '.', ',', ';', '@', '&', '|', '^', '~',
  '#', '$'
  ]

def operatorSymbol : Recognizer := (firstLiteral longOperators).orElse (oneOf operatorCharacters)

/-- A class of tokens: how its text is recognized and what it makes of the text. -/
structure Rule where
  recognizer : Recognizer
  lexeme : List Char → Lexeme

/-- The token classes; the first that applies is taken. -/
def rules : List Rule := [
  ⟨literal ['\n'], fun _ => .lineBreak⟩,
  ⟨stringLiteral, fun text => .string (String.ofList text)⟩,
  ⟨characterLiteral, fun text => .character (String.ofList text)⟩,
  ⟨numberLiteral, fun text => .number (String.ofList text)⟩,
  ⟨quotedName.orElse plainName, fun text => .identifier (String.ofList text)⟩,
  ⟨operatorSymbol, fun text => .operator (String.ofList text)⟩,
  ⟨literal ['('], fun _ => .opening .round⟩,
  ⟨literal ['['], fun _ => .opening .square⟩,
  ⟨literal ['{'], fun _ => .opening .curly⟩,
  ⟨literal [')'], fun _ => .closing .round⟩,
  ⟨literal [']'], fun _ => .closing .square⟩,
  ⟨literal ['}'], fun _ => .closing .curly⟩
  ]

/-- The lexeme and length that the first applicable rule gives. -/
def firstMatch (cs : List Char) : List Rule → Option (Lexeme × Nat)
  | [] => none
  | rule :: rules =>
    match rule.recognizer cs with
    | some n => some (rule.lexeme (cs.take n), n)
    | none => firstMatch cs rules

/-- The first lexeme of a nonempty text and the number of its characters. -/
def ofFront (c : Char) (cs : List Char) : Lexeme × Nat :=
  (firstMatch (c :: cs) rules).getD (.unknown c.toString, 1)

theorem firstMatch_pos {cs : List Char} {rules : List Rule}
    (h : ∀ rule ∈ rules, Positive rule.recognizer) {lexeme : Lexeme} {n : Nat}
    (hm : firstMatch cs rules = some (lexeme, n)) : 0 < n := by
  induction rules with
  | nil => cases hm
  | cons rule rules ih =>
    rw [firstMatch] at hm
    split at hm
    · next k hk => cases hm; exact h rule (by simp) cs n hk
    · exact ih (fun r hr => h r (by simp [hr])) hm

theorem rules_positive : ∀ rule ∈ rules, Positive rule.recognizer := by
  simp only [rules, List.mem_cons, List.not_mem_nil, or_false, forall_eq_or_imp, forall_eq]
  have hone (c : Char) : Positive (literal [c]) := .literal (by simp)
  refine ⟨hone _, .orElse (.andThen (.literal (by simp [rawQuotes])) _) (.andThen (hone _) _),
    .andThen (hone _) _, .andThen (.one _) _,
    .orElse (.andThen (hone _) _) (.andThen (.one _) _), .orElse (.firstLiteral ?_) (.one _),
    hone _, hone _, hone _, hone _, hone _, hone _⟩
  decide

theorem ofFront_pos (c : Char) (cs : List Char) : 0 < (ofFront c cs).2 := by
  rw [ofFront]
  cases h : firstMatch (c :: cs) rules with
  | none => exact Nat.one_pos
  | some m => exact firstMatch_pos rules_positive h

end Lexeme

/-- The tokens of a text that starts at the given byte offset. -/
def Token.scan (offset : Nat) (cs : List Char) : List Token :=
  let gap := (Trivia.trivia cs).getD 0
  match _h : cs.drop gap with
  | [] => []
  | c :: rest =>
    let front := Lexeme.ofFront c rest
    let start := offset + byteSize (cs.take gap)
    let stop := start + byteSize ((c :: rest).take front.2)
    ⟨front.1, ⟨start, stop⟩⟩ :: Token.scan stop ((c :: rest).drop front.2)
termination_by cs.length
decreasing_by
  have hpos := Lexeme.ofFront_pos c rest
  have hlen : (c :: rest).length = cs.length - gap := by rw [← _h, List.length_drop]
  simp only [List.length_drop, List.length_cons] at hlen ⊢
  omega

def Token.tokenize (source : String) : List Token := Token.scan 0 source.toList

end StateDiagram
