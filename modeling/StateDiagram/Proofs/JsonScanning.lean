import StateDiagram.Json

namespace StateDiagram.Json

/-- What a JSON text consists of. Numbers and truth values are not among its values here. -/
inductive Sign where
  | null
  | quotation (text : String)
  | comma
  | colon
  | openArray
  | closeArray
  | openObject
  | closeObject
deriving DecidableEq, Repr

/-- A piece of a quotation: a character, or a code unit that stands for one or for half of one. -/
inductive Piece where
  | plain (c : Char)
  | unit (n : Nat)

/-- The characters of a quotation. Of the code units, two halves of a character have to stand
together. -/
def Piece.join : List Piece → Option (List Char)
  | [] => some []
  | .plain c :: rest => (join rest).map (c :: ·)
  | .unit n :: rest =>
    if n.isValidChar then (join rest).map (Char.ofNat n :: ·)
    else match rest with
      | .unit m :: rest =>
        if 0xD800 ≤ n ∧ n < 0xDC00 ∧ 0xDC00 ≤ m ∧ m < 0xE000 then
          (join rest).map (Char.ofNat (0x10000 + 0x400 * (n - 0xD800) + (m - 0xDC00)) :: ·)
        else none
      | _ => none

def isBlank (c : Char) : Bool := c = ' ' || c = '\t' || c = '\n' || c = '\r'

def sign? : Char → Option Sign
  | ',' => some .comma
  | ':' => some .colon
  | '[' => some .openArray
  | ']' => some .closeArray
  | '\x7b' => some .openObject
  | '\x7d' => some .closeObject
  | _ => none

def unescape? : Char → Option Char
  | '\x22' => some '\x22'
  | '\x5c' => some '\x5c'
  | '/' => some '/'
  | 'b' => some '\x08'
  | 'f' => some '\x0c'
  | 'n' => some '\n'
  | 'r' => some '\r'
  | 't' => some '\t'
  | _ => none

def hexValue? (c : Char) : Option Nat :=
  if '0' ≤ c ∧ c ≤ '9' then some (c.toNat - '0'.toNat)
  else if 'a' ≤ c ∧ c ≤ 'f' then some (c.toNat - 'a'.toNat + 10)
  else if 'A' ≤ c ∧ c ≤ 'F' then some (c.toNat - 'A'.toNat + 10)
  else none

/-- The number of some digits, the last first. -/
def hexNumber (digits : List Nat) : Nat := digits.foldr (fun digit number => 16 * number + digit) 0

/-- Where in the text a scanner stands. What it has read of a quotation or of a number stands in
the wrong order, the last first. -/
inductive Position where
  | between
  | word (rest : List Char)
  | quotation (read : List Piece)
  | escape (read : List Piece)
  | number (read : List Piece) (digits : List Nat)

/-- A scanner with the signs it has found, the last first. -/
structure Scanner where
  position : Position := .between
  signs : List Sign := []

def Scanner.step : Scanner → Char → Option Scanner
  | ⟨.between, signs⟩, c =>
    if isBlank c then some ⟨.between, signs⟩
    else if c = '\x22' then some ⟨.quotation [], signs⟩
    else if c = 'n' then some ⟨.word ['u', 'l', 'l'], signs⟩
    else (sign? c).map fun sign => ⟨.between, sign :: signs⟩
  | ⟨.word [], _⟩, _ => none
  | ⟨.word (letter :: rest), signs⟩, c =>
    if c ≠ letter then none
    else if rest = [] then some ⟨.between, .null :: signs⟩
    else some ⟨.word rest, signs⟩
  | ⟨.quotation read, signs⟩, c =>
    if c = '\x22' then
      (Piece.join read.reverse).map fun text => ⟨.between, .quotation (String.ofList text) :: signs⟩
    else if c = '\x5c' then some ⟨.escape read, signs⟩
    else if c.toNat < 32 then none
    else some ⟨.quotation (.plain c :: read), signs⟩
  | ⟨.escape read, signs⟩, c =>
    if c = 'u' then some ⟨.number read [], signs⟩
    else (unescape? c).map fun c => ⟨.quotation (.plain c :: read), signs⟩
  | ⟨.number read digits, signs⟩, c =>
    (hexValue? c).map fun digit =>
      if digits.length = 3 then ⟨.quotation (.unit (hexNumber (digit :: digits)) :: read), signs⟩
      else ⟨.number read (digit :: digits), signs⟩

/-- The signs of a JSON text. -/
def scan (text : List Char) : Option (List Sign) :=
  match text.foldlM Scanner.step {} with
  | some ⟨.between, signs⟩ => some signs.reverse
  | _ => none

mutual

/-- The signs that a value is written with. -/
def signs : Json → List Sign
  | .null => [.null]
  | .string text => [.quotation text]
  | .array [] => [.openArray, .closeArray]
  | .array (item :: items) => .openArray :: (signs item ++ itemSigns items ++ [.closeArray])
  | .object [] => [.openObject, .closeObject]
  | .object ((name, value) :: fields) =>
    .openObject :: (.quotation name :: .colon :: signs value ++ fieldSigns fields ++ [.closeObject])

def itemSigns : List Json → List Sign
  | [] => []
  | item :: items => .comma :: (signs item ++ itemSigns items)

def fieldSigns : List (String × Json) → List Sign
  | [] => []
  | (name, value) :: fields =>
    .comma :: (.quotation name :: .colon :: signs value ++ fieldSigns fields)

end

/-- A text that is scanned as these signs, wherever it stands between others. -/
def Spells (text : List Char) (signs : List Sign) : Prop :=
  ∀ before, text.foldlM Scanner.step ⟨.between, before⟩ =
    some ⟨.between, signs.reverse ++ before⟩

namespace Spells

variable {text more : List Char} {found others : List Sign} {c : Char} {sign : Sign}

theorem nil : Spells [] [] := fun _ => rfl

theorem append (ht : Spells text found) (hm : Spells more others) :
    Spells (text ++ more) (found ++ others) := by
  intro before
  rw [List.foldlM_append, ht, List.reverse_append, List.append_assoc]
  exact hm _

theorem blank (hc : isBlank c = true) (h : Spells text found) : Spells (c :: text) found := by
  intro before
  rw [List.foldlM_cons, Scanner.step, if_pos hc]
  exact h before

theorem blanks (hb : ∀ c ∈ text, isBlank c = true) (h : Spells more found) :
    Spells (text ++ more) found := by
  induction text with
  | nil => exact h
  | cons c text ih =>
    exact (ih fun d hd => hb d (List.mem_cons_of_mem c hd)).blank (hb c List.mem_cons_self)

theorem cons (hs : sign? c = some sign) (h : Spells text found) :
    Spells (c :: text) (sign :: found) := by
  intro before
  have hstep : Scanner.step ⟨.between, before⟩ c = some ⟨.between, sign :: before⟩ := by
    rw [sign?.eq_def] at hs
    split at hs <;> cases hs <;> rfl
  rw [List.foldlM_cons, hstep, List.reverse_cons, List.append_assoc]
  exact h _

theorem null : Spells ['n', 'u', 'l', 'l'] [.null] := fun _ => rfl

end Spells

theorem hexValue?_hexDigit (n : Nat) : hexValue? (hexDigit n) = some (n % 16) := by
  have h : ∀ digit < 16, hexValue? (Nat.digitChar digit) = some digit := by decide
  exact h _ (Nat.mod_lt n (by decide))

theorem join_unit_toNat (c : Char) (rest : List Piece) :
    Piece.join (.unit c.toNat :: rest) = (Piece.join rest).map (c :: ·) := by
  have hc : c.toNat.isValidChar := c.valid
  rw [Piece.join.eq_def]
  change (if c.toNat.isValidChar then _ else _) = _
  rw [if_pos hc, Char.ofNat_toNat]

theorem escape_cases (c : Char) :
    (∃ mark, escape c = ['\x5c', mark] ∧ mark ≠ 'u' ∧ unescape? mark = some c) ∨
    (c.toNat < 32 ∧
      escape c = ['\x5c', 'u', '0', '0', hexDigit (c.toNat / 16), hexDigit c.toNat]) ∨
    (c ≠ '\x22' ∧ c ≠ '\x5c' ∧ ¬ c.toNat < 32 ∧ escape c = [c]) := by
  by_cases hm : c ∈ ['\x22', '\x5c', '\x08', '\t', '\n', '\x0c', '\r']
  · refine .inl ?_
    simp only [List.mem_cons, List.not_mem_nil, or_false] at hm
    rcases hm with rfl | rfl | rfl | rfl | rfl | rfl | rfl <;> exact ⟨_, rfl, by decide, rfl⟩
  · simp only [List.mem_cons, List.not_mem_nil, or_false, not_or] at hm
    obtain ⟨h₁, h₂, h₃, h₄, h₅, h₆, h₇⟩ := hm
    rw [escape, if_neg h₁, if_neg h₂, if_neg h₃, if_neg h₄, if_neg h₅, if_neg h₆, if_neg h₇]
    by_cases hc : c.toNat < 32
    · exact .inr (.inl ⟨hc, if_pos hc⟩)
    · exact .inr (.inr ⟨h₁, h₂, hc, if_neg hc⟩)

theorem exists_piece (c : Char) (read : List Piece) (before : List Sign) :
    ∃ piece, (escape c).foldlM Scanner.step ⟨.quotation read, before⟩ =
      some ⟨.quotation (piece :: read), before⟩ ∧
      ∀ rest, Piece.join (piece :: rest) = (Piece.join rest).map (c :: ·) := by
  rcases escape_cases c with ⟨mark, he, hu, hmark⟩ | ⟨hc, he⟩ | ⟨hq, hb, hc, he⟩
  · refine ⟨.plain c, ?_, fun _ => rfl⟩
    have hstep : Scanner.step ⟨.escape read, before⟩ mark =
        some ⟨.quotation (.plain c :: read), before⟩ := by
      rw [Scanner.step, if_neg hu, hmark]
      rfl
    rw [he]
    change Scanner.step ⟨.escape read, before⟩ mark >>= pure = _
    rw [hstep]
    rfl
  · refine ⟨.unit c.toNat, ?_, join_unit_toNat c⟩
    have hfirst : Scanner.step ⟨.number read [0, 0], before⟩ (hexDigit (c.toNat / 16)) =
        some ⟨.number read [c.toNat / 16 % 16, 0, 0], before⟩ := by
      rw [Scanner.step, hexValue?_hexDigit]
      rfl
    have hn : hexNumber [c.toNat % 16, c.toNat / 16 % 16, 0, 0] = c.toNat := by
      simp only [hexNumber, List.foldr_cons, List.foldr_nil]
      omega
    have hlast : Scanner.step ⟨.number read [c.toNat / 16 % 16, 0, 0], before⟩ (hexDigit c.toNat) =
        some ⟨.quotation (.unit (hexNumber [c.toNat % 16, c.toNat / 16 % 16, 0, 0]) :: read),
          before⟩ := by
      rw [Scanner.step, hexValue?_hexDigit]
      rfl
    rw [he]
    change Scanner.step ⟨.number read [0, 0], before⟩ (hexDigit (c.toNat / 16)) >>= (fun next =>
      next.step (hexDigit c.toNat) >>= pure) = _
    rw [hfirst]
    change Scanner.step _ (hexDigit c.toNat) >>= pure = _
    rw [hlast, hn]
    rfl
  · refine ⟨.plain c, ?_, fun _ => rfl⟩
    have hstep : Scanner.step ⟨.quotation read, before⟩ c =
        some ⟨.quotation (.plain c :: read), before⟩ := by
      rw [Scanner.step, if_neg hq, if_neg hb, if_neg hc]
    rw [he, List.foldlM_cons, hstep]
    rfl

/-- Escaped characters are scanned as pieces that are joined to the characters. -/
theorem exists_pieces (text : List Char) (read : List Piece) (before : List Sign) :
    ∃ pieces, (text.flatMap escape).foldlM Scanner.step ⟨.quotation read, before⟩ =
      some ⟨.quotation (pieces.reverse ++ read), before⟩ ∧ Piece.join pieces = some text := by
  induction text generalizing read with
  | nil => exact ⟨[], rfl, rfl⟩
  | cons c text ih =>
    obtain ⟨piece, hpiece, hjoin⟩ := exists_piece c read before
    obtain ⟨pieces, hpieces, htext⟩ := ih (piece :: read)
    refine ⟨piece :: pieces, ?_, ?_⟩
    · rw [List.flatMap_cons, List.foldlM_append, hpiece, List.reverse_cons, List.append_assoc]
      exact hpieces
    · rw [hjoin, htext]
      rfl

theorem Spells.quoted (text : String) : Spells (quoted text) [.quotation text] := by
  intro before
  obtain ⟨pieces, hpieces, hjoin⟩ := exists_pieces text.toList [] before
  have hclose : Scanner.step ⟨.quotation pieces.reverse, before⟩ '\x22' =
      some ⟨.between, .quotation text :: before⟩ := by
    rw [Scanner.step, if_pos rfl, List.reverse_reverse, hjoin, Option.map_some,
      String.ofList_toList]
  rw [List.append_nil] at hpieces
  rw [Json.quoted, List.foldlM_cons]
  change List.foldlM Scanner.step ⟨.quotation [], before⟩
    (text.toList.flatMap escape ++ ['\x22']) = _
  rw [List.foldlM_append, hpieces]
  change Scanner.step ⟨.quotation pieces.reverse, before⟩ '\x22' >>= pure = _
  rw [hclose]
  rfl

theorem Spells.field {text : List Char} {found : List Sign} (name : String)
    (h : Spells text found) :
    Spells (Json.quoted name ++ ':' :: text) (.quotation name :: .colon :: found) :=
  (Spells.quoted name).append (.cons rfl h)

mutual

theorem Spells.compactChars : ∀ json : Json, Spells json.compactChars json.signs
  | .null => .null
  | .string text => .quoted text
  | .array [] => .cons rfl (.cons rfl .nil)
  | .array (item :: items) => by
    rw [Json.compactChars, signs]
    exact .cons rfl (((Spells.compactChars item).append (.compactItems items)).append
      (.cons rfl .nil))
  | .object [] => .cons rfl (.cons rfl .nil)
  | .object ((name, value) :: fields) => by
    rw [Json.compactChars, signs]
    exact .cons rfl (((Spells.field name (.compactChars value)).append
      (.compactFields fields)).append (.cons rfl .nil))

theorem Spells.compactItems :
    ∀ items : List Json, Spells (Json.compactItems items) (itemSigns items)
  | [] => .nil
  | item :: items => by
    rw [Json.compactItems, itemSigns]
    exact .cons rfl ((Spells.compactChars item).append (.compactItems items))

theorem Spells.compactFields : ∀ fields : List (String × Json),
    Spells (Json.compactFields fields) (fieldSigns fields)
  | [] => .nil
  | (name, value) :: fields => by
    rw [Json.compactFields, fieldSigns]
    exact .cons rfl ((Spells.field name (.compactChars value)).append (.compactFields fields))

end

theorem Spells.newLine {text : List Char} {found : List Sign} (level : Nat)
    (h : Spells text found) : Spells (Json.newLine level ++ text) found := by
  have hspaces : Spells (List.replicate (2 * level) ' ' ++ text) found :=
    Spells.blanks (fun c hc => List.eq_of_mem_replicate hc ▸ rfl) h
  exact .blank rfl hspaces

mutual

theorem Spells.prettyChars : ∀ (level : Nat) (json : Json),
    Spells (json.prettyChars level) json.signs
  | _, .null => .null
  | _, .string text => .quoted text
  | _, .array [] => .cons rfl (.cons rfl .nil)
  | level, .array (item :: items) => by
    rw [Json.prettyChars, signs]
    simp only [List.append_assoc]
    exact .cons rfl (.newLine (level + 1) ((Spells.prettyChars (level + 1) item).append
      ((Spells.prettyItems (level + 1) items).append (.newLine level (.cons rfl .nil)))))
  | _, .object [] => .cons rfl (.cons rfl .nil)
  | level, .object ((name, value) :: fields) => by
    rw [Json.prettyChars, signs]
    simp only [List.append_assoc, List.cons_append, List.nil_append]
    exact .cons rfl (.newLine (level + 1) (.field name (.blank rfl
      ((Spells.prettyChars (level + 1) value).append
        ((Spells.prettyFields (level + 1) fields).append (.newLine level (.cons rfl .nil)))))))

theorem Spells.prettyItems : ∀ (level : Nat) (items : List Json),
    Spells (Json.prettyItems level items) (itemSigns items)
  | _, [] => .nil
  | level, item :: items => by
    rw [Json.prettyItems, itemSigns, List.append_assoc]
    exact .cons rfl (.newLine level ((Spells.prettyChars level item).append
      (.prettyItems level items)))

theorem Spells.prettyFields : ∀ (level : Nat) (fields : List (String × Json)),
    Spells (Json.prettyFields level fields) (fieldSigns fields)
  | _, [] => .nil
  | level, (name, value) :: fields => by
    rw [Json.prettyFields, fieldSigns]
    simp only [List.append_assoc, List.cons_append, List.nil_append]
    exact .cons rfl (.newLine level (.field name (.blank rfl
      ((Spells.prettyChars level value).append (.prettyFields level fields)))))

end

theorem Spells.scan {text blanks : List Char} {found : List Sign} (h : Spells text found)
    (hb : ∀ c ∈ blanks, isBlank c = true) : scan (text ++ blanks) = some found := by
  have hall : Spells (text ++ blanks) (found ++ []) :=
    h.append (List.append_nil blanks ▸ .blanks hb .nil)
  rw [Json.scan, hall, List.append_nil, List.append_nil]
  exact congrArg some (List.reverse_reverse found)

/-- A character may be given by its number, or by those of its halves. -/
example : scan "\"\\u00e9\\ud83d\\ude00\" ,\r null".toList =
    some [.quotation "é😀", .comma, .null] := by decide +kernel

end StateDiagram.Json
