import StateDiagram.Proofs.JsonScanning

namespace StateDiagram.Json

/-- An array or object that is open, with what has been read of it, the last first. -/
inductive Frame where
  | array (read : List Json)
  | object (read : List (String × Json)) (name : String)

/-- What a reader expects next, or the value that it has just read. -/
inductive Expected where
  | value
  | firstItem
  | firstField
  | field (read : List (String × Json))
  | colon (read : List (String × Json)) (name : String)
  | behind (value : Json)

structure Reader where
  expected : Expected := .value
  frames : List Frame := []

def Reader.begin (frames : List Frame) : Sign → Option Reader
  | .null => some ⟨.behind .null, frames⟩
  | .quotation text => some ⟨.behind (.string text), frames⟩
  | .openArray => some ⟨.firstItem, frames⟩
  | .openObject => some ⟨.firstField, frames⟩
  | .comma | .colon | .closeArray | .closeObject => none

def Reader.step : Reader → Sign → Option Reader
  | ⟨.value, frames⟩, sign => begin frames sign
  | ⟨.firstItem, frames⟩, .closeArray => some ⟨.behind (.array []), frames⟩
  | ⟨.firstItem, frames⟩, sign => begin (.array [] :: frames) sign
  | ⟨.firstField, frames⟩, .closeObject => some ⟨.behind (.object []), frames⟩
  | ⟨.firstField, frames⟩, .quotation name => some ⟨.colon [] name, frames⟩
  | ⟨.field read, frames⟩, .quotation name => some ⟨.colon read name, frames⟩
  | ⟨.colon read name, frames⟩, .colon => some ⟨.value, .object read name :: frames⟩
  | ⟨.behind value, .array read :: frames⟩, .comma => some ⟨.value, .array (value :: read) :: frames⟩
  | ⟨.behind value, .array read :: frames⟩, .closeArray =>
    some ⟨.behind (.array (value :: read).reverse), frames⟩
  | ⟨.behind value, .object read name :: frames⟩, .comma =>
    some ⟨.field ((name, value) :: read), frames⟩
  | ⟨.behind value, .object read name :: frames⟩, .closeObject =>
    some ⟨.behind (.object ((name, value) :: read).reverse), frames⟩
  | _, _ => none

def ofSigns? (signs : List Sign) : Option Json :=
  match signs.foldlM Reader.step {} with
  | some ⟨.behind value, []⟩ => some value
  | _ => none

def decode? (text : String) : Option Json := (scan text.toList).bind ofSigns?

theorem step_firstItem (json : Json) (frames : List Frame) (more : List Sign) :
    (json.signs ++ more).foldlM Reader.step ⟨.firstItem, frames⟩ =
      (json.signs ++ more).foldlM Reader.step ⟨.value, .array [] :: frames⟩ := by
  rcases json with _ | text | ⟨_ | ⟨item, items⟩⟩ | ⟨_ | ⟨⟨name, value⟩, fields⟩⟩ <;>
    rw [signs] <;> rfl

mutual

/-- The signs of a value are read as the value. -/
theorem read_signs : ∀ (json : Json) (frames : List Frame) (more : List Sign),
    (json.signs ++ more).foldlM Reader.step ⟨.value, frames⟩ =
      more.foldlM Reader.step ⟨.behind json, frames⟩
  | .null, _, _ => rfl
  | .string _, _, _ => rfl
  | .array [], _, _ => rfl
  | .array (item :: items), frames, more => by
    rw [signs, List.cons_append, List.append_assoc, List.append_assoc]
    change (item.signs ++ (itemSigns items ++ .closeArray :: more)).foldlM Reader.step
      ⟨.firstItem, frames⟩ = _
    rw [step_firstItem, read_signs item, read_itemSigns items]
    rfl
  | .object [], _, _ => rfl
  | .object ((name, value) :: fields), frames, more => by
    rw [signs, List.cons_append, List.append_assoc, List.append_assoc]
    change (value.signs ++ (fieldSigns fields ++ .closeObject :: more)).foldlM Reader.step
      ⟨.value, .object [] name :: frames⟩ = _
    rw [read_signs value, read_fieldSigns fields]
    rfl

theorem read_itemSigns : ∀ (items : List Json) (value : Json) (read : List Json)
    (frames : List Frame) (more : List Sign),
    (itemSigns items ++ .closeArray :: more).foldlM Reader.step
        ⟨.behind value, .array read :: frames⟩ =
      more.foldlM Reader.step ⟨.behind (.array (read.reverse ++ value :: items)), frames⟩
  | [], value, read, frames, more => by
    rw [← List.reverse_cons]
    rfl
  | item :: items, value, read, frames, more => by
    rw [itemSigns, List.cons_append, List.append_assoc]
    change (item.signs ++ (itemSigns items ++ .closeArray :: more)).foldlM Reader.step
      ⟨.value, .array (value :: read) :: frames⟩ = _
    rw [read_signs item, read_itemSigns items, List.reverse_cons, ← List.append_cons]

theorem read_fieldSigns : ∀ (fields : List (String × Json)) (name : String) (value : Json)
    (read : List (String × Json)) (frames : List Frame) (more : List Sign),
    (fieldSigns fields ++ .closeObject :: more).foldlM Reader.step
        ⟨.behind value, .object read name :: frames⟩ =
      more.foldlM Reader.step
        ⟨.behind (.object (read.reverse ++ (name, value) :: fields)), frames⟩
  | [], name, value, read, frames, more => by
    rw [← List.reverse_cons]
    rfl
  | (next, item) :: fields, name, value, read, frames, more => by
    rw [fieldSigns, List.cons_append, List.append_assoc]
    change (item.signs ++ (fieldSigns fields ++ .closeObject :: more)).foldlM Reader.step
      ⟨.value, .object ((name, value) :: read) next :: frames⟩ = _
    rw [read_signs item, read_fieldSigns fields, List.reverse_cons, ← List.append_cons]

end

theorem ofSigns?_signs (json : Json) : ofSigns? json.signs = some json := by
  have hread := read_signs json [] []
  rw [List.append_nil] at hread
  rw [ofSigns?, hread]
  rfl

theorem decode?_of_spells {json : Json} {text blanks : List Char} (h : Spells text json.signs)
    (hb : ∀ c ∈ blanks, isBlank c = true) :
    decode? (String.ofList text ++ String.ofList blanks) = some json := by
  rw [decode?, String.toList_append, String.toList_ofList, String.toList_ofList, h.scan hb]
  exact ofSigns?_signs json

end StateDiagram.Json
