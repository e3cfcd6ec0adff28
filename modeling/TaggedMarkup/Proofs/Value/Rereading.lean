import TaggedMarkup.Proofs.Value.Json
import TaggedMarkup.Value.Equality

/-!
# JSON comes back from JSON

A value that comes back from its JSON form has that JSON form again, whatever got lost on the way
(`toJson_reread`): what is omitted from maps, or is `null`, the first time is so the second time, an element's
map is the map that it comes back as, and a number is written as an integer again or as a fraction again.

Nothing is lost of **data**, that is, of what JSON is made of: it comes back equal to itself
(`equals_reread`). The one thing that is not the same is the sign of a zero, which does not count.
-/

namespace TaggedMarkup

/-! ## Numbers -/

namespace Double

variable {d : Double}

/-- **A finite number comes back as it is**, unless it is a zero: that comes back without a sign. Which of the
two encodings it has does not matter. -/
theorem reread_finite (h : d.isFinite = true) :
    Value.reread (.number d) = .number d ∨
      d.isZero = true ∧ d.toJson = .int 0 ∧ Value.reread (.number d) = .number zero := by
  rw [Value.reread, Value.toJson, toJson, if_pos h]
  cases hint : d.toInt? with
  | none => exact .inl rfl
  | some n =>
    dsimp only
    split
    · rename_i hsmall
      by_cases hzero : n = 0
      · subst hzero
        exact .inr ⟨isZero_of_toInt? hint, rfl, rfl⟩
      · exact .inl (congrArg Value.number (ofInt_toInt? hint hzero hsmall))
    · exact .inl rfl

theorem toJson_zero : zero.toJson = .int 0 := by
  have hsignificand : zero.significand = 0 := by decide
  have hint : zero.toInt? = some 0 := by
    simp only [toInt?, magnitude, hsignificand, Nat.zero_mul, Nat.zero_mod, Nat.zero_div]
    decide
  rw [toJson, if_pos (by decide), hint]
  rfl

/-- The two zeros are equal. -/
theorem equals_zero (h : d.isZero = true) : zero.equals d = true := by
  have hnumber : d.isNaN = false := by
    rw [isZero, beq_iff_eq] at h
    rw [isNaN, exponentField, h]
    rfl
  have hzero : zero.isZero = true := by decide
  rw [equals, hnumber, hzero, h, Bool.and_self, Bool.or_true]
  rfl

theorem equals_self (h : d.isFinite = true) : d.equals d = true := by
  have hnumber : d.isNaN = false := by
    rw [isFinite, bne, Bool.not_eq_true'] at h
    rw [isNaN, h, Bool.false_and]
  rw [equals, hnumber, beq_self_eq_true]
  rfl

end Double

namespace Value

/-! ## Stability -/

mutual

/-- Every map in the value has each key once, as all maps have. -/
def isKeyed : Value → Bool
  | list members => isKeyedAll members
  | element ⟨_, _, props, children, _⟩ =>
    decide (Entries.keys props).Nodup && isKeyedEntries props && isKeyedAll children
  | object entries => decide (Entries.keys entries).Nodup && isKeyedEntries entries
  | _ => true

def isKeyedAll : List Value → Bool
  | [] => true
  | value :: rest => isKeyed value && isKeyedAll rest

def isKeyedEntries : List (String × Value) → Bool
  | [] => true
  | (_, value) :: rest => isKeyed value && isKeyedEntries rest

end

/-- What has a JSON form of its own in a map comes back as something that has. -/
theorem isOmitted_reread {value : Value} (h : value.isOmitted = false) : value.reread.isOmitted = false := by
  cases value with
  | undefined | component => cases h
  | null | bool | str | list | sequence | pending | element | object => rfl
  | number d =>
    rw [reread, toJson, Double.toJson]
    split
    · split
      · split <;> rfl
      · rfl
    · rfl

theorem toJson_reread_number (d : Double) : (reread (number d)).toJson = (number d).toJson := by
  cases hfinite : d.isFinite with
  | false =>
    rw [reread, toJson, Double.toJson, hfinite]
    rfl
  | true =>
    rcases Double.reread_finite hfinite with hsame | ⟨-, hjson, hzero⟩
    · rw [hsame]
    · rw [hzero, toJson, toJson, hjson, Double.toJson_zero]

theorem entriesToJson_append (entries more : Props) :
    entriesToJson (entries ++ more) = entriesToJson entries ++ entriesToJson more := by
  induction entries with
  | nil => rfl
  | cons entry rest ih =>
    obtain ⟨key, value⟩ := entry
    rw [List.cons_append, entriesToJson, entriesToJson, ih]
    split
    · rfl
    · rfl

mutual

/-- **The JSON form is stable**: what comes back of a value has the JSON form of the value. -/
theorem toJson_reread : ∀ {value : Value}, value.isKeyed = true → value.reread.toJson = value.toJson
  | undefined, _ | null, _ | bool _, _ | str _, _ | component _, _ | sequence _, _ | pending _, _ => rfl
  | number d, _ => toJson_reread_number d
  | list members, h => by
    rw [reread_list, toJson, toJson, membersToJson_reread h]
  | object entries, h => by
    rw [isKeyed, Bool.and_eq_true, decide_eq_true_eq] at h
    rw [reread_object h.1, toJson, toJson, entriesToJson_reread h.2]
  | element ⟨stamp, type, props, children, raw⟩, h => by
    simp only [isKeyed, Bool.and_eq_true, decide_eq_true_eq] at h
    have htype : entriesToJson (typeEntries type) = typeEntry type := by cases type <;> rfl
    have hraw : entriesToJson (rawEntries raw) =
        if raw then [("skipStringEscape", .bool true)] else [] := by cases raw <;> rfl
    have hmiddle : entriesToJson
        [("props", object (rereadEntries props)), ("children", list (children.map reread))] =
        [("props", .obj (entriesToJson props)), ("children", .arr (membersToJson children))] := by
      rw [← entriesToJson_reread h.1.2, ← membersToJson_reread h.2]
      rfl
    rw [reread_element h.1.1, toJson, toJson, recordEntries, entriesToJson_append, entriesToJson_append, htype,
      hmiddle, hraw]

theorem membersToJson_reread : ∀ {values : List Value}, isKeyedAll values = true →
    membersToJson (values.map reread) = membersToJson values
  | [], _ => rfl
  | value :: rest, h => by
    rw [isKeyedAll, Bool.and_eq_true] at h
    rw [List.map_cons, membersToJson, membersToJson, toJson_reread h.1, membersToJson_reread h.2]

theorem entriesToJson_reread : ∀ {entries : Props}, isKeyedEntries entries = true →
    entriesToJson (rereadEntries entries) = entriesToJson entries
  | [], _ => rfl
  | (key, value) :: rest, h => by
    rw [isKeyedEntries, Bool.and_eq_true] at h
    have hrest := entriesToJson_reread h.2
    rw [rereadEntries] at hrest ⊢
    rw [List.filter_cons, entriesToJson]
    cases homitted : value.isOmitted with
    | true => exact hrest
    | false =>
      rw [Bool.not_false, if_pos rfl, List.map_cons, entriesToJson, if_neg Bool.false_ne_true, hrest,
        isOmitted_reread homitted, if_neg Bool.false_ne_true, toJson_reread h.1]

end

/-! ## Data -/

mutual

/-- The value is made of what JSON is made of, and its numbers are finite. -/
def isData : Value → Bool
  | null | bool _ | str _ => true
  | number d => d.isFinite
  | list members => isDataAll members
  | object entries => isDataEntries entries
  | undefined | component _ | sequence _ | pending _ | element _ => false

def isDataAll : List Value → Bool
  | [] => true
  | value :: rest => isData value && isDataAll rest

def isDataEntries : List (String × Value) → Bool
  | [] => true
  | (_, value) :: rest => isData value && isDataEntries rest

end

/-- Nothing is omitted from data. -/
theorem rereadEntries_of_isData {entries : Props} (h : isDataEntries entries = true) :
    rereadEntries entries = entries.map fun entry => (entry.1, entry.2.reread) := by
  induction entries with
  | nil => rfl
  | cons entry rest ih =>
    obtain ⟨key, value⟩ := entry
    rw [isDataEntries, Bool.and_eq_true] at h
    have hkept : value.isOmitted = false := by
      cases value with
      | undefined | component => cases h.1
      | _ => rfl
    have hrest := ih h.2
    rw [rereadEntries] at hrest ⊢
    rw [List.filter_cons, hkept, Bool.not_false, if_pos rfl, List.map_cons, List.map_cons, hrest]

/-- An entry that stands behind others with other keys is found. -/
theorem get?_of_nodup {before after : Props} {key : String} {value : Value}
    (h : (Entries.keys (before ++ (key, value) :: after)).Nodup) :
    Entries.get? key (before ++ (key, value) :: after) = some value := by
  induction before with
  | nil => exact if_pos rfl
  | cons entry rest ih =>
    obtain ⟨k, v⟩ := entry
    obtain ⟨hnew, hrest⟩ := List.nodup_cons.mp h
    have hthere : key ∈ Entries.keys (rest ++ (key, value) :: after) :=
      List.mem_map.mpr ⟨(key, value), List.mem_append_right rest List.mem_cons_self, rfl⟩
    have hne : k ≠ key := fun hk => hnew (hk ▸ hthere)
    rw [List.cons_append, Entries.get?, if_neg hne]
    exact ih hrest

mutual

/-- **Data comes back equal to itself.** -/
theorem equals_reread : ∀ {value : Value}, value.isKeyed = true → value.isData = true →
    value.reread.equals value = true
  | null, _, _ => rfl
  | bool b, _, _ => beq_self_eq_true b
  | str s, _, _ => beq_self_eq_true s
  | number d, _, h => by
    rcases Double.reread_finite h with hsame | ⟨hzero, -, hback⟩
    · rw [hsame]
      exact Double.equals_self h
    · rw [hback]
      exact Double.equals_zero hzero
  | list members, hkeyed, h => by
    rw [reread_list]
    exact listEquals_reread hkeyed h
  | object entries, hkeyed, h => by
    rw [isKeyed, Bool.and_eq_true, decide_eq_true_eq] at hkeyed
    have hback := rereadEntries_of_isData h
    rw [reread_object hkeyed.1, equals, hback, List.length_map, beq_self_eq_true, Bool.true_and, ← hback]
    exact entriesWithin_reread [] hkeyed.1 hkeyed.2 h
  | undefined, _, h | component _, _, h | sequence _, _, h | pending _, _, h | element _, _, h => by cases h

theorem listEquals_reread : ∀ {values : List Value}, isKeyedAll values = true → isDataAll values = true →
    listEquals (values.map reread) values = true
  | [], _, _ => rfl
  | value :: rest, hkeyed, h => by
    rw [isKeyedAll, Bool.and_eq_true] at hkeyed
    rw [isDataAll, Bool.and_eq_true] at h
    rw [List.map_cons, listEquals, equals_reread hkeyed.1 h.1, listEquals_reread hkeyed.2 h.2]
    rfl

/-- Each entry finds its own. The induction is on the entries that are left, while those before them are still
looked at. -/
theorem entriesWithin_reread : ∀ (before : Props) {after : Props}, (Entries.keys (before ++ after)).Nodup →
    isKeyedEntries after = true → isDataEntries after = true →
      entriesWithin (rereadEntries after) (before ++ after) = true
  | _, [], _, _, _ => rfl
  | before, (key, value) :: rest, hnodup, hkeyed, h => by
    have hback := rereadEntries_of_isData h
    rw [isKeyedEntries, Bool.and_eq_true] at hkeyed
    rw [isDataEntries, Bool.and_eq_true] at h
    have hmoved : before ++ (key, value) :: rest = (before ++ [(key, value)]) ++ rest := by
      rw [List.append_assoc, List.singleton_append]
    have hrest := entriesWithin_reread (before ++ [(key, value)]) (hmoved ▸ hnodup) hkeyed.2 h.2
    rw [← hmoved, rereadEntries_of_isData h.2] at hrest
    rw [hback, List.map_cons, entriesWithin, get?_of_nodup hnodup, hrest, Bool.and_true]
    exact equals_reread hkeyed.1 h.1

end

/-- **The JSON form is stable, and loses only what JSON cannot say.** What comes back of a value has the JSON
form of the value, whatever the value is made of. What comes back of data is equal to it; in particular every
finite number comes back, and but for the sign of a zero it is the same one. -/
theorem reread_stable (value : Value) (hkeyed : value.isKeyed = true) :
    (ofJson value.toJson).toJson = value.toJson ∧
      (value.isData = true → (ofJson value.toJson).equals value = true) ∧
      ∀ d : Double, d.isFinite = true →
        ∃ d' : Double, ofJson (number d).toJson = number d' ∧ d'.equals d = true ∧
          (d.isZero = false → d' = d) := by
  refine ⟨toJson_reread hkeyed, equals_reread hkeyed, fun d hfinite => ?_⟩
  rcases Double.reread_finite hfinite with hsame | ⟨hzero, -, hback⟩
  · exact ⟨d, hsame, Double.equals_self hfinite, fun _ => rfl⟩
  · exact ⟨_, hback, Double.equals_zero hzero, fun hnonzero => nomatch hzero.symm.trans hnonzero⟩

/-- Each kind of value that JSON cannot say, in each place where it can stand, and an element. -/
def unsayable : Value :=
  let made : Component := ⟨0, "made"⟩
  .list [.undefined, .component made, .pending 0, .sequence 0, .number ⟨0x7FF0000000000000⟩,
    .object [("left", .undefined), ("out", .component made), ("kept", .null)],
    .element ⟨7, .tag "p", [("a", .undefined), ("b", .pending 1)], [.undefined, .component made], true⟩,
    .element ⟨8, .component made, [], [], false⟩]

/-- Numbers on both sides of `2 ^ 53`, and a zero with a sign. -/
def boundary : Value :=
  .object [("below", .number ⟨0x433FFFFFFFFFFFFF⟩), ("at", .number ⟨0xC340000000000000⟩),
    ("zero", .number ⟨0x8000000000000000⟩), ("part", .list [.number ⟨0x3FB999999999999A⟩, .bool true, .null])]

theorem reread_stable_boundary :
    unsayable.isKeyed = true ∧ unsayable.isData = false ∧
      (ofJson unsayable.toJson).toJson = unsayable.toJson ∧
      boundary.isKeyed = true ∧ boundary.isData = true ∧
      (ofJson boundary.toJson).toJson = boundary.toJson ∧
      (ofJson boundary.toJson).equals boundary = true := by
  have hunsayable : unsayable.isKeyed = true := by decide
  have hkeyed : boundary.isKeyed = true := by decide
  have hdata : boundary.isData = true := by decide
  obtain ⟨hstable, hequal, -⟩ := reread_stable boundary hkeyed
  exact ⟨hunsayable, rfl, (reread_stable unsayable hunsayable).1, hkeyed, hdata, hstable, hequal hdata⟩

end Value

end TaggedMarkup
