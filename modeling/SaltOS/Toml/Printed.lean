import SaltOS.Toml.Tables

/-!
# Lines printed with `%s`

`salt_buf_printf` of `key = "%s"` escapes nothing, and prints no line at all
when the text is too long for an `int`.
-/

namespace SaltOS.Toml

/-- A `printf` of `key = "%s"`. -/
def printString (key : String) (text : Bytes) : Bytes :=
  bufPrintf (ascii key ++ ascii " = \"" ++ text ++ ascii "\"\n")

/-- A `printf` of `key = %d`, `key = %lld` or `key = %llu`. -/
def printNumber (key : String) (digits : Bytes) : Bytes :=
  bufPrintf (ascii key ++ ascii " = " ++ digits ++ [10])

/-- The line of a string is short enough to be printed. -/
def FitsLine (key : String) (text : Bytes) : Prop :=
  (ascii key).length + text.length + 6 < 2 ^ 31

instance (key : String) (text : Bytes) : Decidable (FitsLine key text) :=
  inferInstanceAs (Decidable (_ < _))

/-- What the parser reads where a text stands between quotes as it is. -/
def spelled (text : Bytes) : Bytes :=
  match parseBasicString ⟨text ++ [34], 0, 0⟩ with
  | .ok (value, _) => value
  | .error _ => []

theorem Spells.spelled_eq {text source : Bytes} (spells : Spells text source) :
    spelled text = cstr source := by
  rw [spelled, parseBasicString_spelled spells]

theorem PlainText.spelled_eq {text : Bytes} (plain : PlainText text)
    (noNul : 0 ∉ text) : spelled text = text := by
  rw [plain.spells.spelled_eq, cstr_eq_self noNul]

/-- The field of a text that is printed as it is. -/
def quotedField (key : String) (text : Bytes) : Field where
  key := key
  value := some (quoted text, .str (spelled text))

/-- The field of a text that is printed unless it is too long. -/
def printedField (key : String) (text : Bytes) : Field where
  key := key
  value := if FitsLine key text then some (quoted text, .str (spelled text))
    else none

theorem printedField_lines (key : String) (text : Bytes) :
    (printedField key text).lines =
      if FitsLine key text then (quotedField key text).lines else [] := by
  unfold printedField
  split <;> rfl

theorem printString_eq (key : String) (text : Bytes) :
    printString key text =
      (printedField key text).lines.flatMap Line.emit := by
  have length : (ascii key ++ ascii " = \"" ++ text ++
      ascii "\"\n").length = (ascii key).length + text.length + 6 := by
    simp only [List.length_append]
    have before : (ascii " = \"").length = 4 := rfl
    have behind : (ascii "\"\n").length = 2 := rfl
    omega
  rw [printString, bufPrintf, length]
  change (if FitsLine key text then _ else []) = _
  by_cases fits : FitsLine key text
  · simp [printedField, Field.lines, fits, Line.emit, quoted, ascii]
  · simp [printedField, Field.lines, fits]

/-- The field of a number. -/
def numberField (key : String) (digits : Bytes) (number : Int) : Field where
  key := key
  value := some (digits, .int number)

theorem printNumber_eq {key : String} {digits : Bytes} (number : Int)
    (fits : (ascii key).length + digits.length + 4 < 2 ^ 31) :
    printNumber key digits =
      (numberField key digits number).lines.flatMap Line.emit := by
  have length : (ascii key ++ ascii " = " ++ digits ++ [10]).length =
      (ascii key).length + digits.length + 4 := by
    have before : (ascii " = ").length = 3 := rfl
    simp only [List.length_append, List.length_singleton]
    omega
  rw [printNumber, bufPrintf_eq (length ▸ fits)]
  simp [numberField, Field.lines, Line.emit]

section

variable {key : String} {text : Bytes}

theorem printedField_value (key : String) (text : Bytes) :
    ((printedField key text).value.map Prod.snd).bind asString =
      if FitsLine key text then some (spelled text) else none := by
  unfold printedField
  split <;> rfl

/-- What is read back of a printed text. -/
theorem stringAt_printedField {fields : List Field}
    (distinct : (fields.map fun field => ascii field.key).Nodup)
    (member : printedField key text ∈ fields)
    (segment : Segment (ascii key)) :
    stringAt (linesNode (recordLines fields)) key =
      if FitsLine key text then some (spelled text) else none := by
  rw [← printedField_value]
  exact stringAt_record distinct member segment

variable {next : UInt8} {fuel : Nat}

/-- A text that spells something stands on a line that is read. -/
theorem quotedField_ok (bare : BareKey (ascii key))
    (spells : ∃ source, Spells text source) :
    ∀ line ∈ (quotedField key text).lines, line.Ok next (fuel + 1) := by
  obtain ⟨source, isSpelled⟩ := spells
  apply Field.lines_ok bare
  rw [isSpelled.spelled_eq]
  exact readsValue_spelled isSpelled

/-- A text without quotes is read or makes the parse fail. -/
theorem quotedField_decided (bare : BareKey (ascii key))
    (noQuote : 34 ∉ text) :
    ∀ line ∈ (quotedField key text).lines,
      line.Decided next (fuel + 1) := by
  intro line member
  rcases spells_or_fails noQuote with spells | fails
  · exact .inl (quotedField_ok bare spells line member)
  · obtain rfl : line = ⟨ascii key, quoted text, .str (spelled text)⟩ := by
      simpa [quotedField, Field.lines] using member
    exact .inr ⟨bare, failsValue_quoted noQuote fails⟩

/-- A line without quotes that is read spells something. -/
theorem spells_of_quoted_ok (noQuote : 34 ∉ text)
    (ok : ∀ line ∈ (quotedField key text).lines,
      line.Ok next (fuel + 1)) : ∃ source, Spells text source := by
  rcases spells_or_fails noQuote with spells | fails
  · exact spells
  · have isOk := ok ⟨ascii key, quoted text, .str (spelled text)⟩
      (by simp [quotedField, Field.lines])
    exact absurd (failsValue_quoted noQuote fails) isOk.not_fails

theorem printedField_ok (bare : BareKey (ascii key))
    (spells : FitsLine key text → ∃ source, Spells text source) :
    ∀ line ∈ (printedField key text).lines, line.Ok next (fuel + 1) := by
  rw [printedField_lines]
  split
  · rename_i fits
    exact quotedField_ok bare (spells fits)
  · simp

theorem printedField_decided (bare : BareKey (ascii key))
    (noQuote : 34 ∉ text) :
    ∀ line ∈ (printedField key text).lines,
      line.Decided next (fuel + 1) := by
  rw [printedField_lines]
  split
  · exact quotedField_decided bare noQuote
  · simp

theorem spells_of_ok (noQuote : 34 ∉ text) (fits : FitsLine key text)
    (ok : ∀ line ∈ (printedField key text).lines,
      line.Ok next (fuel + 1)) : ∃ source, Spells text source := by
  rw [printedField_lines, if_pos fits] at ok
  exact spells_of_quoted_ok noQuote ok

/-- A text without quotes that is read as itself is plain. -/
theorem plain_of_spelled (spells : ∃ source, Spells text source)
    (same : spelled text = text) : PlainText text := by
  obtain ⟨source, isSpelled⟩ := spells
  exact isSpelled.plain_of_eq (isSpelled.spelled_eq.symm.trans same)

end

/-! ## Fields that may be missing -/

/-- The field of a text that is not always there. -/
def optionalField (key : String) (text : Option Bytes) : Field where
  key := key
  value := text.bind fun text => (quotedField key text).value

theorem optionalField_lines (key : String) (text : Option Bytes) :
    (optionalField key text).lines =
      text.elim [] fun text => (quotedField key text).lines := by
  cases text <;> rfl

/-- The field of a list of texts that are printed as they are; an empty list
is left out. -/
def itemsField (key : String) (items : List Bytes) : Field where
  key := key
  value :=
    if items = [] then none
    else some ([91] ++ quotedItems items ++ [93],
      .arr (items.map fun item => .str (spelled item)))

section

variable {next : UInt8} {fuel : Nat} {key : String} {items : List Bytes}

theorem readsValue_spelled_items
    (spells : ∀ item ∈ items, ∃ source, Spells item source)
    (enough : items.length + 1 < fuel) :
    ReadsValue next fuel ([91] ++ quotedItems items ++ [93])
      (.arr (items.map fun item => .str (spelled item))) := by
  have sources : ∃ sources, List.Forall₂ Spells items sources ∧
      (items.map fun item => Node.str (spelled item)) =
        sources.map fun source => .str (cstr source) := by
    clear enough
    induction items with
    | nil => exact ⟨[], .nil, rfl⟩
    | cons item items induction =>
        obtain ⟨source, isSpelled⟩ := spells item List.mem_cons_self
        obtain ⟨sources, areSpelled, same⟩ := induction
          fun other member => spells other (List.mem_cons_of_mem _ member)
        refine ⟨source :: sources, .cons isSpelled areSpelled, ?_⟩
        rw [List.map_cons, List.map_cons, same, isSpelled.spelled_eq]
  obtain ⟨sources, areSpelled, same⟩ := sources
  rw [same]
  exact readsValue_spelledItems areSpelled
    (areSpelled.length_eq ▸ enough)

theorem mem_itemsField {line : Line} :
    line ∈ (itemsField key items).lines ↔ items ≠ [] ∧
      line = ⟨ascii key, [91] ++ quotedItems items ++ [93],
        .arr (items.map fun item => .str (spelled item))⟩ := by
  unfold itemsField Field.lines
  by_cases empty : items = []
  · simp [empty]
  · simp [empty]

theorem itemsField_ok (bare : BareKey (ascii key))
    (spells : ∀ item ∈ items, ∃ source, Spells item source)
    (enough : items.length + 1 < fuel) :
    ∀ line ∈ (itemsField key items).lines, line.Ok next fuel := by
  intro line member
  obtain ⟨-, rfl⟩ := mem_itemsField.mp member
  exact ⟨bare, readsValue_spelled_items spells enough⟩

/-- Texts without quotes and backslashes are read, or make the parse
fail. -/
theorem itemsField_decided (bare : BareKey (ascii key))
    (noQuote : ∀ item ∈ items, 34 ∉ item)
    (noSlash : ∀ item ∈ items, 92 ∉ item)
    (enough : items.length + 1 < fuel) :
    ∀ line ∈ (itemsField key items).lines, line.Decided next fuel := by
  intro line member
  rcases items_spell_or_fail noQuote noSlash enough with plain | fails
  · exact .inl (itemsField_ok bare
      (fun item inItems => ⟨item, (plain item inItems).spells⟩) enough
      line member)
  · obtain ⟨-, rfl⟩ := mem_itemsField.mp member
    exact .inr ⟨bare, fails⟩

theorem plain_of_items_ok (noQuote : ∀ item ∈ items, 34 ∉ item)
    (noSlash : ∀ item ∈ items, 92 ∉ item)
    (enough : items.length + 1 < fuel)
    (ok : ∀ line ∈ (itemsField key items).lines, line.Ok next fuel) :
    ∀ item ∈ items, PlainText item := by
  rcases items_spell_or_fail noQuote noSlash enough with plain | fails
  · exact plain
  · intro item member
    have isOk := ok _ (mem_itemsField.mpr
      ⟨List.ne_nil_of_mem member, rfl⟩)
    exact absurd fails isOk.not_fails

end

/-! ## Records of printed fields -/

/-- What stands under a key of a record: a text that may be missing, a number,
or a list of texts that is left out when it is empty. -/
inductive Slot where
  | text (key : String) (text : Option Bytes)
  | number (key : String) (digits : Bytes) (value : Int)
  | items (key : String) (items : List Bytes)

def Slot.key : Slot → String
  | .text key _ => key
  | .number key _ _ => key
  | .items key _ => key

def Slot.field : Slot → Field
  | .text key content => optionalField key content
  | .number key digits value => numberField key digits value
  | .items key list => itemsField key list

def Slot.texts : Slot → List Bytes
  | .text _ content => content.toList
  | _ => []

def Slot.lists : Slot → List (List Bytes)
  | .items _ list => [list]
  | _ => []

@[simp] theorem Slot.field_key (slot : Slot) : slot.field.key = slot.key := by
  cases slot <;> rfl

/-- The keys need no quotes, and the numbers are numerals. -/
structure WellKeyed (slots : List Slot) : Prop where
  bare : ∀ slot ∈ slots, BareKey (ascii slot.key)
  numbers : ∀ key digits value, .number key digits value ∈ slots →
    IntText digits value

def slotLines (slots : List Slot) : List Line :=
  recordLines (slots.map Slot.field)

theorem mem_slotLines {slots : List Slot} {line : Line} :
    line ∈ slotLines slots ↔ ∃ slot ∈ slots, line ∈ slot.field.lines := by
  simp [slotLines, mem_recordLines]

theorem slotLines_append (slots others : List Slot) :
    slotLines (slots ++ others) = slotLines slots ++ slotLines others := by
  simp [slotLines, recordLines]

theorem key_of_mem_slotLines {slots : List Slot} {key : Bytes}
    (member : key ∈ (slotLines slots).map Line.key) :
    key ∈ slots.map fun slot => ascii slot.key := by
  have inKeys := (keys_recordLines (slots.map Slot.field)).subset member
  simpa [List.map_map, Function.comp_def] using inKeys

section

variable {next : UInt8} {fuel : Nat} {slots : List Slot}

/-- Texts that spell something stand on lines that are read. -/
theorem slots_ok (keyed : WellKeyed slots)
    (texts : ∀ text ∈ slots.flatMap Slot.texts,
      ∃ source, Spells text source)
    (lists : ∀ items ∈ slots.flatMap Slot.lists,
      (∀ item ∈ items, ∃ source, Spells item source) ∧
        items.length + 1 < fuel + 1) :
    ∀ line ∈ slotLines slots, line.Ok next (fuel + 1) := by
  intro line member
  obtain ⟨slot, inSlots, isLine⟩ := mem_slotLines.mp member
  have bare := keyed.bare slot inSlots
  cases slot with
  | text key text =>
      cases text with
      | none => simp [Slot.field, optionalField_lines] at isLine
      | some text =>
          have spells := texts text
            (List.mem_flatMap.mpr ⟨_, inSlots, List.mem_singleton_self text⟩)
          exact quotedField_ok bare spells line isLine
  | number key digits value =>
      exact Field.lines_ok bare
        (readsValue_int (keyed.numbers _ _ _ inSlots)) line isLine
  | items key items =>
      have spells := lists items
        (List.mem_flatMap.mpr ⟨_, inSlots, List.mem_singleton_self items⟩)
      exact itemsField_ok bare spells.1 spells.2 line isLine

/-- Texts without quotes, in lists also without backslashes, are read or make
the parse fail. -/
theorem slots_decided (keyed : WellKeyed slots)
    (texts : ∀ text ∈ slots.flatMap Slot.texts, 34 ∉ text)
    (lists : ∀ items ∈ slots.flatMap Slot.lists,
      (∀ item ∈ items, 34 ∉ item ∧ 92 ∉ item) ∧
        items.length + 1 < fuel + 1) :
    ∀ line ∈ slotLines slots, line.Decided next (fuel + 1) := by
  intro line member
  obtain ⟨slot, inSlots, isLine⟩ := mem_slotLines.mp member
  have bare := keyed.bare slot inSlots
  cases slot with
  | text key text =>
      cases text with
      | none => simp [Slot.field, optionalField_lines] at isLine
      | some text =>
          have noQuote := texts text
            (List.mem_flatMap.mpr ⟨_, inSlots, List.mem_singleton_self text⟩)
          exact quotedField_decided bare noQuote line isLine
  | number key digits value =>
      exact .inl (Field.lines_ok bare
        (readsValue_int (keyed.numbers _ _ _ inSlots)) line isLine)
  | items key items =>
      have plain := lists items
        (List.mem_flatMap.mpr ⟨_, inSlots, List.mem_singleton_self items⟩)
      exact itemsField_decided bare
        (fun item inItems => (plain.1 item inItems).1)
        (fun item inItems => (plain.1 item inItems).2) plain.2 line isLine

/-- Texts without quotes on lines that are read spell something. -/
theorem spells_of_slots_ok
    (texts : ∀ text ∈ slots.flatMap Slot.texts, 34 ∉ text)
    (ok : ∀ line ∈ slotLines slots, line.Ok next (fuel + 1)) :
    ∀ text ∈ slots.flatMap Slot.texts, ∃ source, Spells text source := by
  intro text member
  obtain ⟨slot, inSlots, inTexts⟩ := List.mem_flatMap.mp member
  cases slot with
  | text key content =>
      obtain rfl : content = some text := Option.mem_toList.mp inTexts
      exact spells_of_quoted_ok (texts text member) fun line isLine =>
        ok line (mem_slotLines.mpr ⟨_, inSlots, isLine⟩)
  | number key digits value => cases inTexts
  | items key items => cases inTexts

theorem plain_of_slots_ok
    (lists : ∀ items ∈ slots.flatMap Slot.lists,
      (∀ item ∈ items, 34 ∉ item ∧ 92 ∉ item) ∧
        items.length + 1 < fuel + 1)
    (ok : ∀ line ∈ slotLines slots, line.Ok next (fuel + 1)) :
    ∀ items ∈ slots.flatMap Slot.lists, ∀ item ∈ items, PlainText item := by
  intro items member
  obtain ⟨slot, inSlots, inLists⟩ := List.mem_flatMap.mp member
  have plain := lists items member
  cases slot with
  | text key content => cases inLists
  | number key digits value => cases inLists
  | items key others =>
      obtain rfl := List.mem_singleton.mp inLists
      exact plain_of_items_ok (fun item inItems => (plain.1 item inItems).1)
        (fun item inItems => (plain.1 item inItems).2) plain.2
        fun line isLine => ok line (mem_slotLines.mpr ⟨_, inSlots, isLine⟩)

/-- Under the key of a text stands what it spells. -/
theorem stringAt_slots {key : String} {text : Option Bytes}
    (distinct : (slots.map fun slot => ascii slot.key).Nodup)
    (member : .text key text ∈ slots) (segment : Segment (ascii key)) :
    stringAt (linesNode (slotLines slots)) key = text.map spelled := by
  have keys : ((slots.map Slot.field).map fun field =>
      ascii field.key).Nodup := by
    simpa [List.map_map, Function.comp_def] using distinct
  have inFields : (⟨key, (optionalField key text).value⟩ : Field) ∈
      slots.map Slot.field := List.mem_map_of_mem member
  rw [slotLines, stringAt_record keys inFields segment]
  cases text <;> rfl

theorem intAt_slots {key : String} {digits : Bytes} {value : Int}
    (fallback : Int)
    (distinct : (slots.map fun slot => ascii slot.key).Nodup)
    (member : .number key digits value ∈ slots)
    (segment : Segment (ascii key)) :
    intAt (linesNode (slotLines slots)) key fallback = value := by
  have keys : ((slots.map Slot.field).map fun field =>
      ascii field.key).Nodup := by
    simpa [List.map_map, Function.comp_def] using distinct
  exact intAt_record keys fallback (List.mem_map_of_mem member) segment

/-- Other lines behind a record hide none of its texts. -/
theorem stringAt_append {key : String} {lines others : List Line}
    (differ : ascii key ∉ others.map Line.key)
    (segment : Segment (ascii key)) :
    stringAt (linesNode (lines ++ others)) key =
      stringAt (linesNode lines) key := by
  have whole : setLines [] (lines ++ others) =
      setLines (setLines [] lines) others := List.foldl_append
  rw [stringAt, stringAt, linesNode, linesNode, getPath_bare segment,
    getPath_bare segment, whole, tableGet_setLines_other differ]

end

end SaltOS.Toml
