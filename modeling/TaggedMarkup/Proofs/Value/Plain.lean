import TaggedMarkup.Value.Basic

/-!
# The plain form of values

Two values that look alike may still hold different elements: each element carries the **stamp** of
its construction. The *plain form* of a value forgets every stamp in it, so two values have the
same structure exactly if their plain forms are equal. Components, pending values and sequences stay
what they are, since they are equal only to themselves.

Nothing that is read off a value but the stamps themselves sees the difference: not its kind, its
string form, nor the element type that it denotes.
-/

namespace TaggedMarkup

namespace Value

mutual

/-- The value without the stamps of its elements. -/
def plain : Value → Value
  | list members => list (plainAll members)
  | element ⟨_, type, props, children, raw⟩ =>
    element ⟨0, type, plainEntries props, plainAll children, raw⟩
  | object entries => object (plainEntries entries)
  | value => value

/-- The plain forms of values. -/
def plainAll : List Value → List Value
  | [] => []
  | value :: rest => plain value :: plainAll rest

/-- Entries with the plain forms of their values. -/
def plainEntries : List (String × Value) → List (String × Value)
  | [] => []
  | (key, value) :: rest => (key, plain value) :: plainEntries rest

end

theorem plainAll_eq_map (values : List Value) : plainAll values = values.map plain := by
  induction values with
  | nil => rfl
  | cons value rest ih => rw [plainAll, ih, List.map_cons]

theorem plainEntries_eq_map (entries : List (String × Value)) :
    plainEntries entries = entries.map fun entry => (entry.1, plain entry.2) := by
  induction entries with
  | nil => rfl
  | cons entry rest ih =>
    obtain ⟨key, value⟩ := entry
    rw [plainEntries, ih, List.map_cons]

theorem plainAll_append (values more : List Value) :
    plainAll (values ++ more) = plainAll values ++ plainAll more := by
  simp only [plainAll_eq_map, List.map_append]

@[simp] theorem typeName_plain (value : Value) : (plain value).typeName = value.typeName := by
  cases value <;> simp only [plain, typeName]

@[simp] theorem isNullish_plain (value : Value) : (plain value).isNullish = value.isNullish := by
  cases value <;> simp only [plain, isNullish]

theorem toElementType_plain (value : Value) :
    (plain value).toElementType = value.toElementType := by
  cases value <;> simp only [plain, toElementType, typeName]

mutual

/-- The string form does not show stamps. -/
theorem text_plain : ∀ value : Value, text (plain value) = text value
  | list members => by rw [plain, text, text, memberTexts_plainAll members]
  | undefined | null | bool _ | number _ | str _ | sequence _ | pending _ | component _ => rfl
  | element _ | object _ => by simp only [plain, text]

theorem memberTexts_plainAll : ∀ members : List Value,
    memberTexts (plainAll members) = memberTexts members
  | [] => rfl
  | member :: rest => by
    rw [plainAll, memberTexts, memberTexts, isNullish_plain, text_plain member,
      memberTexts_plainAll rest]

end

mutual

/-- A plain form is its own plain form. -/
theorem plain_plain : ∀ value : Value, plain (plain value) = plain value
  | list members => by rw [plain, plain, plainAll_plainAll members]
  | undefined | null | bool _ | number _ | str _ | sequence _ | pending _ | component _ => rfl
  | element ⟨_, _, props, children, _⟩ => by
    rw [plain, plain, plainEntries_plainEntries props, plainAll_plainAll children]
  | object entries => by rw [plain, plain, plainEntries_plainEntries entries]

theorem plainAll_plainAll : ∀ values : List Value, plainAll (plainAll values) = plainAll values
  | [] => rfl
  | value :: rest => by rw [plainAll, plainAll, plain_plain value, plainAll_plainAll rest]

theorem plainEntries_plainEntries : ∀ entries : List (String × Value),
    plainEntries (plainEntries entries) = plainEntries entries
  | [] => rfl
  | (_, value) :: rest => by
    rw [plainEntries, plainEntries, plain_plain value, plainEntries_plainEntries rest]

end

end Value

namespace Entries

open Value

/-- What stands at a key is plain in plain entries. -/
theorem get?_plainEntries (key : String) (entries : Props) :
    get? key (plainEntries entries) = (get? key entries).map plain := by
  induction entries with
  | nil => rfl
  | cons entry rest ih =>
    obtain ⟨k, value⟩ := entry
    by_cases h : k = key
    · simp only [plainEntries, get?, h, if_true, Option.map_some]
    · simp only [plainEntries, get?, h, if_false, ih]

theorem plainEntries_put (key : String) (value : Value) (entries : Props) :
    plainEntries (put key value entries) = put key (plain value) (plainEntries entries) := by
  induction entries with
  | nil => rfl
  | cons entry rest ih =>
    obtain ⟨k, old⟩ := entry
    by_cases h : k = key
    · simp only [put, plainEntries, h, if_true]
    · simp only [put, plainEntries, h, if_false, ih]

theorem plainEntries_merge (entries more : Props) :
    plainEntries (merge entries more) = merge (plainEntries entries) (plainEntries more) := by
  induction more generalizing entries with
  | nil => rfl
  | cons entry rest ih =>
    obtain ⟨key, value⟩ := entry
    have hput : plainEntries (merge entries ((key, value) :: rest)) =
        plainEntries (merge (put key value entries) rest) := rfl
    rw [hput, ih, plainEntries_put]
    rfl

end Entries

end TaggedMarkup
