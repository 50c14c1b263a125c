namespace StateDiagram.Text

/-- The number of bytes that the text takes in UTF-8. -/
def byteSize : List Char → Nat
  | [] => 0
  | c :: cs => c.utf8Size + byteSize cs

/-- The characters that lie wholly within the first `n` bytes. -/
def takeBytes : Nat → List Char → List Char
  | _, [] => []
  | n, c :: cs => if c.utf8Size ≤ n then c :: takeBytes (n - c.utf8Size) cs else []

/-- The characters from byte offset `n` on. -/
def dropBytes : Nat → List Char → List Char
  | _, [] => []
  | n, c :: cs => if n = 0 then c :: cs else dropBytes (n - c.utf8Size) cs

/-- The characters between two byte offsets. -/
def slice (start stop : Nat) (cs : List Char) : List Char :=
  takeBytes (stop - start) (dropBytes start cs)

@[simp] theorem byteSize_nil : byteSize [] = 0 := rfl

@[simp] theorem byteSize_cons (c : Char) (cs : List Char) :
    byteSize (c :: cs) = c.utf8Size + byteSize cs := rfl

@[simp] theorem byteSize_append (as bs : List Char) :
    byteSize (as ++ bs) = byteSize as + byteSize bs := by
  induction as with
  | nil => simp
  | cons a as ih => simp [ih, Nat.add_assoc]

theorem dropBytes_zero (cs : List Char) : dropBytes 0 cs = cs := by
  cases cs <;> simp [dropBytes]

theorem takeBytes_byteSize_append (as bs : List Char) :
    takeBytes (byteSize as) (as ++ bs) = as := by
  induction as with
  | nil =>
    cases bs with
    | nil => rfl
    | cons b bs => simp [takeBytes, Nat.not_le.2 b.utf8Size_pos]
  | cons a as ih => simp [takeBytes, ih]

theorem dropBytes_byteSize_append (as bs : List Char) :
    dropBytes (byteSize as) (as ++ bs) = bs := by
  induction as with
  | nil => exact dropBytes_zero bs
  | cons a as ih =>
    have h := a.utf8Size_pos
    simp [dropBytes, Nat.ne_of_gt h, ih]

theorem slice_append (as bs cs : List Char) :
    slice (byteSize as) (byteSize as + byteSize bs) (as ++ (bs ++ cs)) = bs := by
  simp [slice, dropBytes_byteSize_append, takeBytes_byteSize_append]

/-- Turns every CR LF into LF. -/
def joinCrLf : List Char → List Char
  | [] => []
  | '\r' :: '\n' :: cs => '\n' :: joinCrLf cs
  | c :: cs => c :: joinCrLf cs

/-- Turns every CR LF and then every remaining CR into LF. -/
def normalizeLineEndings (cs : List Char) : List Char :=
  (joinCrLf cs).map fun c => if c = '\r' then '\n' else c

theorem cr_not_mem_normalizeLineEndings (cs : List Char) :
    '\r' ∉ normalizeLineEndings cs := by
  simp only [normalizeLineEndings, List.mem_map, not_exists, not_and]
  intro c _
  split <;> simp_all

/-- Whether the word occurs somewhere in the text. -/
def occursIn (word : List Char) : List Char → Bool
  | [] => word.isEmpty
  | c :: cs => word.isPrefixOf (c :: cs) || occursIn word cs

def occurs (word text : String) : Bool := occursIn word.toList text.toList

/-- The lower case of letters whose lower case is a single ASCII letter; other characters are
kept, so the result decides every comparison with an ASCII word. -/
def lowerCharacter (c : Char) : Char := if c = '\u212a' then 'k' else c.toLower

def lower (text : String) : String := text.map lowerCharacter

end StateDiagram.Text
