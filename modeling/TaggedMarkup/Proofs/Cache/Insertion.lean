import TaggedMarkup.Proofs.Cache.Policy

/-!
# What an insertion does

An insertion sweeps what has expired. Then, if the cache is full of live entries and its key is not
among them, exactly one of them leaves: the one that goes before all others by the policy. Nothing
else that is alive leaves, so there are never more entries than fit. Lookups never show an entry that
has expired; only `remove` hands out what has not been swept.

Together with the register, which answers every run alike, this is the whole **policy** of a cache
(`performAll_keepsPolicy`).
-/

namespace TaggedMarkup.Cache

variable {κ ν : Type} [DecidableEq κ]

/-! ## Never too many -/

/-- There are not more entries than fit. -/
def IsBounded (c : Cache κ ν) : Prop := ∀ limit, c.capacity = some limit → c.size ≤ limit

omit [DecidableEq κ] in
theorem IsBounded.mono {c d : Cache κ ν} (h : c.IsBounded) (hcapacity : d.capacity = c.capacity)
    (hsize : d.size ≤ c.size) : d.IsBounded :=
  fun limit hlimit => Nat.le_trans hsize (h limit (hcapacity ▸ hlimit))

theorem size_erase_le (key : κ) (c : Cache κ ν) : (c.erase key).size ≤ c.size :=
  List.length_filter_le _ _

theorem size_erase_lt {c : Cache κ ν} {e : CacheEntry κ ν} (he : e ∈ c.entries) :
    (c.erase e.key).size < c.size :=
  List.length_filter_lt_length_iff_exists.mpr ⟨e, he, by simp⟩

@[simp] theorem capacity_makeRoom (key : κ) (c : Cache κ ν) :
    (c.makeRoom key).capacity = c.capacity := by
  unfold makeRoom evict
  split
  · split
    · split <;> rfl
    · rfl
  · rfl

/-- Where room was made for a key, one more entry fits. -/
theorem size_makeRoom_lt {c : Cache κ ν} (h : c.IsBounded) {limit : Nat}
    (hcapacity : c.capacity = some limit) (hlimit : limit ≠ 0) (key : κ) :
    ((c.makeRoom key).erase key).size < limit := by
  have hle := h limit hcapacity
  rw [makeRoom, hcapacity]
  dsimp only
  by_cases hroom : limit ≤ c.size ∧ c.find? key = none
  · rw [if_pos hroom, evict]
    cases hv : CacheEntry.victim? c.eviction c.entries with
    | none =>
      -- a cache that is full has an entry to evict
      have hempty : c.size = 0 := by
        rw [size, CacheEntry.victim?_eq_none.mp hv, List.length_nil]
      omega
    | some e =>
      have hlt := size_erase_lt (CacheEntry.mem_of_victim? hv)
      exact Nat.lt_of_lt_of_le (Nat.lt_of_le_of_lt (size_erase_le key _) hlt) hle
  · rw [if_neg hroom]
    cases hfound : c.find? key with
    | none =>
      have hlt : c.size < limit := Nat.lt_of_not_le fun hfull => hroom ⟨hfull, hfound⟩
      exact Nat.lt_of_le_of_lt (size_erase_le key c) hlt
    | some e =>
      have hkey : e.key = key := by simpa using List.find?_some hfound
      exact hkey ▸ Nat.lt_of_lt_of_le (size_erase_lt (List.mem_of_find?_eq_some hfound)) hle

theorem IsBounded.insertFor {c : Cache κ ν} (h : c.IsBounded) (now : Nat) (lifetime : Option Nat)
    (key : κ) (value : ν) : (c.insertFor now lifetime key value).2.IsBounded := by
  have hswept : (c.sweep now).IsBounded := h.mono rfl (List.length_filter_le _ _)
  unfold Cache.insertFor
  dsimp only
  split
  · exact hswept
  · rename_i hzero
    intro limit hlimit
    have hcapacity : (c.sweep now).capacity = some limit := (capacity_makeRoom key _) ▸ hlimit
    have hlt := size_makeRoom_lt hswept hcapacity (fun h0 => hzero (h0 ▸ hcapacity)) key
    simpa [size] using Nat.succ_le_of_lt hlt

theorem IsBounded.perform {c : Cache κ ν} (h : c.IsBounded) (now : Nat) (request : Request κ ν) :
    (c.perform now request).2.IsBounded := by
  cases request with
  | insert key value => exact h.insertFor now c.lifetime key value
  | insertFor lifetime key value => exact h.insertFor now lifetime key value
  | peek key | contains key => exact h
  | remove key => exact h.mono rfl (size_erase_le key c)
  | retain keep => exact h.mono rfl (List.length_filter_le _ _)
  | clear => exact h.mono rfl (Nat.zero_le _)
  | get key =>
    simp only [Cache.perform, Cache.get]
    split
    · split
      · exact h.mono rfl (size_erase_le key c)
      · exact h.mono rfl (Nat.le_of_eq (List.length_map _))
    · exact h

theorem IsBounded.performAll {shuffle : Nat → List (CacheEntry κ ν) → List (CacheEntry κ ν)}
    (hshuffle : ∀ left entries, (shuffle left entries).Perm entries)
    (requests : List (Nat × Request κ ν)) {c : Cache κ ν} (h : c.IsBounded) :
    (c.performAll shuffle requests).2.IsBounded := by
  induction requests generalizing c with
  | nil => exact h
  | cons request rest ih =>
    obtain ⟨now, request⟩ := request
    have hshuffled : ({ c with entries := shuffle rest.length c.entries } : Cache κ ν).IsBounded :=
      h.mono rfl (Nat.le_of_eq (hshuffle _ _).length_eq)
    exact ih (hshuffled.perform now request)

/-! ## What is shown -/

/-- A lookup that is counted shows the same as one that is not. -/
theorem get_eq_peek (now : Nat) (key : κ) (c : Cache κ ν) : (c.get now key).1 = c.peek now key := by
  unfold get peek
  split
  · split <;> rfl
  · rfl

/-- After an insertion at a key, from a cache that was swept: which entry had to leave, if any. -/
structure Admits (key : κ) (swept after : Cache κ ν) (leaving : Option (CacheEntry κ ν)) : Prop where
  /-- one leaves exactly if all places are taken and none of them by the key -/
  leaves : leaving.isSome = true ↔
    (∃ limit, swept.capacity = some limit ∧ limit ≤ swept.size) ∧ swept.find? key = none
  /-- it goes before all others -/
  first : ∀ e ∈ leaving, CacheEntry.IsFirst swept.eviction swept.entries e
  /-- the entries at other keys stay, but for this one -/
  others : ∀ e : CacheEntry κ ν, e.key ≠ key → (e ∈ after.entries ↔ e ∈ swept.entries ∧ e ∉ leaving)

end TaggedMarkup.Cache
