/-!
# Entries

Maps from strings that remember **the order in which their keys first came**: lists of pairs, each
key once. Putting a key that is there already changes its value and keeps its place.
-/

namespace TaggedMarkup.Entries

variable {α : Type}

/-- The value at a key. -/
def get? (key : String) : List (String × α) → Option α
  | [] => none
  | (k, v) :: rest => if k = key then some v else get? key rest

/-- The keys, in the order in which they came. -/
def keys (entries : List (String × α)) : List String := entries.map (·.1)

/-- The key is there. -/
def contains (key : String) (entries : List (String × α)) : Bool :=
  entries.any fun entry => entry.1 = key

/-- Set the value at a key: in its place if it is there, at the end otherwise. -/
def put (key : String) (value : α) : List (String × α) → List (String × α)
  | [] => [(key, value)]
  | (k, v) :: rest => if k = key then (k, value) :: rest else (k, v) :: put key value rest

/-- Put every entry of `more`, one after the other. -/
def merge (entries more : List (String × α)) : List (String × α) :=
  more.foldl (fun acc entry => put entry.1 entry.2 acc) entries

/-- The map that a list of pairs describes: a repeated key keeps its first place and takes its last
value. -/
def ofList (pairs : List (String × α)) : List (String × α) := merge [] pairs

/-- What was put at a key is there. -/
@[simp] theorem get?_put_self (key : String) (value : α) (entries : List (String × α)) :
    get? key (put key value entries) = some value := by
  induction entries with
  | nil => simp [put, get?]
  | cons entry rest ih =>
    obtain ⟨k, v⟩ := entry
    by_cases h : k = key <;> simp [put, get?, h, ih]

/-- The other keys keep their values. -/
theorem get?_put_of_ne {key other : String} (h : other ≠ key) (value : α)
    (entries : List (String × α)) : get? other (put key value entries) = get? other entries := by
  induction entries with
  | nil => simp [put, get?, h.symm]
  | cons entry rest ih =>
    obtain ⟨k, v⟩ := entry
    by_cases hk : k = key
    · subst hk
      simp [put, get?, h.symm]
    · simp [put, get?, hk, ih]

/-- A new key comes last; an old one stays where it is. -/
theorem keys_put (key : String) (value : α) (entries : List (String × α)) :
    keys (put key value entries) = if key ∈ keys entries then keys entries
      else keys entries ++ [key] := by
  induction entries with
  | nil => simp [put, keys]
  | cons entry rest ih =>
    obtain ⟨k, v⟩ := entry
    by_cases hk : k = key
    · simp [put, keys, hk]
    · have hk' : key ≠ k := fun h => hk h.symm
      simp only [keys] at ih
      by_cases hm : key ∈ rest.map (·.1) <;> simp [put, keys, hk, hk', hm, ih]

end TaggedMarkup.Entries
