import TaggedMarkup.Cache

/-!
# What a cache holds

A cache **holds** a value at a key if one of its entries, expired or not, says so. Nothing that is
done to a cache makes it hold more than it did, but for the pair that is inserted; and what a lookup
finds was held. Which entries are evicted or swept, and when, does not matter for this.
-/

namespace TaggedMarkup.Cache

variable {κ ν : Type} {c : Cache κ ν} {key : κ} {value : ν}

/-- Some entry has this key and this value. -/
def Holds (c : Cache κ ν) (key : κ) (value : ν) : Prop :=
  ∃ e ∈ c.entries, e.key = key ∧ e.value = value

/-- A cache with fewer entries holds less. -/
theorem Holds.mono {c d : Cache κ ν} (h : c.Holds key value) (hsub : c.entries ⊆ d.entries) :
    d.Holds key value := by
  obtain ⟨e, he, hkey, hvalue⟩ := h
  exact ⟨e, hsub he, hkey, hvalue⟩

theorem not_holds_clear : ¬ c.clear.Holds key value := by
  rintro ⟨e, he, -⟩
  cases he

theorem Holds.of_retain {keep : κ → Bool} (h : (c.retain keep).2.Holds key value) :
    c.Holds key value ∧ keep key = true := by
  obtain ⟨e, he, hkey, hvalue⟩ := h
  obtain ⟨hmem, hkeep⟩ := List.mem_filter.mp he
  exact ⟨⟨e, hmem, hkey, hvalue⟩, hkey ▸ hkeep⟩

variable [DecidableEq κ]

theorem holds_of_find? {e : CacheEntry κ ν} (h : c.find? key = some e) : c.Holds key e.value :=
  ⟨e, List.mem_of_find?_eq_some h, by simpa using List.find?_some h, rfl⟩

theorem holds_of_peek {now : Nat} (h : c.peek now key = some value) : c.Holds key value := by
  unfold peek at h
  cases hf : c.find? key with
  | none => rw [hf] at h; cases h
  | some e =>
    simp only [hf] at h
    split at h
    · cases h
    · cases h
      exact holds_of_find? hf

theorem holds_of_get {now : Nat} (h : (c.get now key).1 = some value) : c.Holds key value := by
  unfold get at h
  cases hf : c.find? key with
  | none => rw [hf] at h; cases h
  | some e =>
    simp only [hf] at h
    split at h
    · cases h
    · cases h
      exact holds_of_find? hf

theorem Holds.of_erase {other : κ} (h : (c.erase other).Holds key value) : c.Holds key value :=
  h.mono fun _ hmem => (List.mem_filter.mp hmem).1

/-- A lookup drops an entry or touches it, which changes neither its key nor its value. -/
theorem Holds.of_get {now : Nat} {other : κ} (h : (c.get now other).2.Holds key value) :
    c.Holds key value := by
  unfold get at h
  cases hf : c.find? other with
  | none => rw [hf] at h; exact h
  | some e =>
    simp only [hf] at h
    split at h
    · exact Holds.of_erase (c := c) h
    · obtain ⟨f, hmem, hkey, hvalue⟩ := h
      obtain ⟨g, hg, rfl⟩ := List.mem_map.mp hmem
      refine ⟨g, hg, ?_, ?_⟩
      · rw [← hkey]
        split <;> rfl
      · rw [← hvalue]
        split <;> rfl

theorem Holds.of_makeRoom {other : κ} (h : (c.makeRoom other).Holds key value) :
    c.Holds key value := by
  unfold makeRoom at h
  split at h
  · split at h
    · unfold evict at h
      split at h
      · exact h.of_erase
      · exact h
    · exact h
  · exact h

/-- An insertion adds its own pair at most. -/
theorem Holds.of_insert {now : Nat} {other : κ} {new : ν}
    (h : (c.insert now other new).2.Holds key value) :
    c.Holds key value ∨ (key = other ∧ value = new) := by
  have hsweep : ∀ {k v}, (c.sweep now).Holds k v → c.Holds k v := fun h =>
    h.mono fun _ hmem => (List.mem_filter.mp hmem).1
  unfold insert insertFor at h
  dsimp only at h
  split at h
  · exact .inl (hsweep h)
  · obtain ⟨e, hmem, hkey, hvalue⟩ := h
    rcases List.mem_append.mp hmem with hold | hnew
    · exact .inl (hsweep (Holds.of_makeRoom (Holds.of_erase ⟨e, hold, hkey, hvalue⟩)))
    · rw [List.mem_singleton] at hnew
      subst hnew
      exact .inr ⟨hkey.symm, hvalue.symm⟩

end TaggedMarkup.Cache
