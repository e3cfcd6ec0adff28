import Mathlib.Data.List.Nodup
import Mathlib.Data.List.Pairwise
import Mathlib.Data.List.Perm.Basic
import TaggedMarkup.Proofs.Cache.Contents
import TaggedMarkup.Proofs.Cache.Register

/-!
# Caches keep their policy

A cache **mirrors** a register if the order of its last-use stamps is the order of use of the register,
and the order of its insertion stamps is the register's order of age. Since every stamp is given out
once, both orders are strict, whatever order the entries themselves are in; so the entry that makes
room is the one that the register finds at the front.

Each request is answered alike by both and keeps the mirror (`Mirrors.perform`), so whole runs are
answered alike (`Mirrors.performAll`).
-/

namespace TaggedMarkup

variable {κ ν : Type}

namespace CacheEntry

/-- What a register knows of an entry. -/
def item (e : CacheEntry κ ν) : Item κ ν := ⟨e.key, e.value, e.deadline, e.hits⟩

@[simp] theorem key_item (e : CacheEntry κ ν) : e.item.key = e.key := rfl

@[simp] theorem hits_item (e : CacheEntry κ ν) : e.item.hits = e.hits := rfl

@[simp] theorem value_item (e : CacheEntry κ ν) : e.item.value = e.value := rfl

@[simp] theorem isExpired_item (now : Nat) (e : CacheEntry κ ν) :
    e.item.isExpired now = e.isExpired now := rfl

/-! ## Who makes room -/

/-- The entry goes before every other one in the list. -/
def IsFirst (eviction : Eviction) (entries : List (CacheEntry κ ν)) (e : CacheEntry κ ν) : Prop :=
  e ∈ entries ∧ ∀ f ∈ entries, f ≠ e → e.goesBefore eviction f = true

/-- Different entries have different stamps. -/
def Stamped (entries : List (CacheEntry κ ν)) : Prop :=
  ∀ e ∈ entries, ∀ f ∈ entries, e ≠ f → e.touched ≠ f.touched ∧ e.inserted ≠ f.inserted

theorem goesBefore_trans {eviction : Eviction} {a b c : CacheEntry κ ν}
    (hab : a.goesBefore eviction b = true) (hbc : b.goesBefore eviction c = true) :
    a.goesBefore eviction c = true := by
  cases eviction <;> simp [goesBefore] at * <;> omega

theorem goesBefore_of_not {eviction : Eviction} {a b : CacheEntry κ ν}
    (hstamps : a.touched ≠ b.touched ∧ a.inserted ≠ b.inserted)
    (h : ¬ a.goesBefore eviction b = true) : b.goesBefore eviction a = true := by
  cases eviction <;> simp [goesBefore] at * <;> omega

theorem victim?_eq_none {eviction : Eviction} {entries : List (CacheEntry κ ν)} :
    victim? eviction entries = none ↔ entries = [] := by
  cases entries with
  | nil => simp [victim?]
  | cons e rest =>
    simp only [victim?, reduceCtorEq, iff_false]
    cases victim? eviction rest <;> simp

theorem mem_of_victim? {eviction : Eviction} {entries : List (CacheEntry κ ν)}
    {e : CacheEntry κ ν} (h : victim? eviction entries = some e) : e ∈ entries := by
  induction entries generalizing e with
  | nil => cases h
  | cons head rest ih =>
    rw [victim?] at h
    cases hv : victim? eviction rest with
    | none =>
      obtain rfl : head = e := by simpa [hv] using h
      exact List.mem_cons_self
    | some first =>
      simp only [hv, Option.some.injEq] at h
      split at h
      · exact List.mem_cons_of_mem _ (h ▸ ih hv)
      · exact h ▸ List.mem_cons_self

/-- Where no two stamps are the same, the entry that makes room goes before every other one. -/
theorem isFirst_of_victim? {eviction : Eviction} {entries : List (CacheEntry κ ν)}
    {e : CacheEntry κ ν} (hstamped : Stamped entries) (h : victim? eviction entries = some e) :
    IsFirst eviction entries e := by
  induction entries generalizing e with
  | nil => cases h
  | cons head rest ih =>
    have hrest : Stamped rest := fun a ha b hb =>
      hstamped a (List.mem_cons_of_mem _ ha) b (List.mem_cons_of_mem _ hb)
    rw [victim?] at h
    cases hv : victim? eviction rest with
    | none =>
      obtain rfl := victim?_eq_none.mp hv
      obtain rfl : head = e := by simpa [hv] using h
      refine ⟨List.mem_singleton_self _, fun f hf hne => ?_⟩
      exact absurd (List.mem_singleton.mp hf) hne
    | some first =>
      obtain ⟨hmem, hfirst⟩ := ih hrest hv
      simp only [hv, Option.some.injEq] at h
      by_cases hbefore : first.goesBefore eviction head = true
      · -- the first of the rest goes before the head as well
        obtain rfl : first = e := by simpa [hbefore] using h
        refine ⟨List.mem_cons_of_mem _ hmem, fun f hf hne => ?_⟩
        rcases List.mem_cons.mp hf with rfl | hf
        · exact hbefore
        · exact hfirst f hf hne
      · -- the head goes before the first of the rest, and so before all of it
        obtain rfl : head = e := by simpa [hbefore] using h
        refine ⟨List.mem_cons_self, fun f hf hne => ?_⟩
        have hf : f ∈ rest := (List.mem_cons.mp hf).resolve_left hne
        by_cases heq : first = head
        · exact heq ▸ hfirst f hf (heq ▸ hne)
        · have hhead : head.goesBefore eviction first = true :=
            goesBefore_of_not
              (hstamped first (List.mem_cons_of_mem _ hmem) head List.mem_cons_self heq) hbefore
          by_cases hff : f = first
          · exact hff ▸ hhead
          · exact goesBefore_trans hhead (hfirst f hf hff)

end CacheEntry

namespace Cache

/-! ## Mirrors -/

/-- The register tells the cache without stamps. -/
structure Mirrors (c : Cache κ ν) (r : Register κ ν) : Prop where
  byUse : ∃ entries : List (CacheEntry κ ν), entries.Perm c.entries ∧
    entries.Pairwise (·.touched < ·.touched) ∧ r.byUse = entries.map CacheEntry.item
  byAge : ∃ entries : List (CacheEntry κ ν), entries.Perm c.entries ∧
    entries.Pairwise (·.inserted < ·.inserted) ∧ r.byAge = entries.map (·.key)
  nodup : (c.entries.map (·.key)).Nodup
  /-- every stamp was given out -/
  given : ∀ e ∈ c.entries, e.touched ≤ c.tick ∧ e.inserted ≤ c.tick
  capacity : r.capacity = c.capacity
  lifetime : r.lifetime = c.lifetime
  eviction : r.eviction = c.eviction
  hits : r.hits = c.hits
  misses : r.misses = c.misses

namespace Mirrors

variable {c : Cache κ ν} {r : Register κ ν}

/-- The order of the entries themselves does not matter. -/
theorem shuffle (h : c.Mirrors r) {entries : List (CacheEntry κ ν)}
    (hperm : entries.Perm c.entries) : ({ c with entries } : Cache κ ν).Mirrors r where
  byUse := by
    obtain ⟨es, hes, hrest⟩ := h.byUse
    exact ⟨es, hes.trans hperm.symm, hrest⟩
  byAge := by
    obtain ⟨es, hes, hrest⟩ := h.byAge
    exact ⟨es, hes.trans hperm.symm, hrest⟩
  nodup := (hperm.map _).nodup_iff.mpr h.nodup
  given e he := h.given e (hperm.mem_iff.mp he)
  capacity := h.capacity
  lifetime := h.lifetime
  eviction := h.eviction
  hits := h.hits
  misses := h.misses

theorem stamped (h : c.Mirrors r) : CacheEntry.Stamped c.entries := by
  obtain ⟨us, hus, huse, -⟩ := h.byUse
  obtain ⟨as, has, hage, -⟩ := h.byAge
  have hne {stamp : CacheEntry κ ν → Nat} {es : List (CacheEntry κ ν)}
      (hes : es.Pairwise fun e f => stamp e < stamp f) {e f : CacheEntry κ ν} (he : e ∈ es)
      (hf : f ∈ es) (hef : e ≠ f) : stamp e ≠ stamp f := by
    have : Std.Symm fun e f => stamp e ≠ stamp f := ⟨fun _ _ => Ne.symm⟩
    exact (hes.imp fun hlt => Nat.ne_of_lt hlt).forall he hf hef
  intro e he f hf hef
  exact ⟨hne huse (hus.mem_iff.mpr he) (hus.mem_iff.mpr hf) hef,
    hne hage (has.mem_iff.mpr he) (has.mem_iff.mpr hf) hef⟩

theorem length_byUse (h : c.Mirrors r) : r.byUse.length = c.size := by
  obtain ⟨es, hes, -, huse⟩ := h.byUse
  rw [huse, List.length_map, hes.length_eq, size]

/-- What goes before every other entry stands at the front of the order of its stamps. -/
theorem eq_cons_of_first {stamp : CacheEntry κ ν → Nat} {es : List (CacheEntry κ ν)}
    (hes : es.Pairwise fun e f => stamp e < stamp f) {e : CacheEntry κ ν} (he : e ∈ es)
    (hfirst : ∀ f ∈ es, f ≠ e → stamp e < stamp f) : ∃ rest, es = e :: rest := by
  cases es with
  | nil => cases he
  | cons head rest =>
    rcases List.mem_cons.mp he with rfl | hmem
    · exact ⟨rest, rfl⟩
    · have hlt := List.rel_of_pairwise_cons hes hmem
      have hne : head ≠ e := fun heq => Nat.lt_irrefl _ (heq ▸ hlt)
      exact absurd (hfirst head List.mem_cons_self hne) (Nat.lt_asymm hlt)

/-- Both let the same entry make room. -/
theorem next?_eq (h : c.Mirrors r) :
    r.next? = (CacheEntry.victim? c.eviction c.entries).map (·.key) := by
  obtain ⟨us, hus, husorted, huse⟩ := h.byUse
  obtain ⟨as, has, hasorted, hage⟩ := h.byAge
  cases hv : CacheEntry.victim? c.eviction c.entries with
  | none =>
    have hentries := CacheEntry.victim?_eq_none.mp hv
    obtain rfl := List.perm_nil.mp (hentries ▸ hus)
    obtain rfl := List.perm_nil.mp (hentries ▸ has)
    cases he : r.eviction <;> simp [Register.next?, he, huse, hage]
  | some e =>
    obtain ⟨hmem, hfirst⟩ := CacheEntry.isFirst_of_victim? h.stamped hv
    have heu : e ∈ us := hus.mem_iff.mpr hmem
    rw [← h.eviction] at hfirst
    -- the entry goes before all others, so it is the first one in the order that counts
    cases hev : r.eviction with
    | leastRecent =>
      obtain ⟨rest, rfl⟩ := eq_cons_of_first husorted heu fun f hf hne => by
        simpa [hev, CacheEntry.goesBefore] using hfirst f (hus.mem_iff.mp hf) hne
      simp [Register.next?, hev, huse]
    | firstIn =>
      obtain ⟨rest, rfl⟩ := eq_cons_of_first hasorted (has.mem_iff.mpr hmem) fun f hf hne => by
        simpa [hev, CacheEntry.goesBefore] using hfirst f (has.mem_iff.mp hf) hne
      simp [Register.next?, hev, hage]
    | leastFrequent =>
      have hbefore : ∀ f ∈ us, f ≠ e →
          e.hits < f.hits ∨ e.hits = f.hits ∧ e.touched < f.touched := fun f hf hne => by
        simpa [hev, CacheEntry.goesBefore] using hfirst f (hus.mem_iff.mp hf) hne
      have hfound : us.find? (fun f => us.all fun g => f.hits ≤ g.hits) = some e := by
        obtain ⟨before, after, rfl⟩ := List.append_of_mem heu
        refine List.find?_eq_some_iff_append.mpr ⟨?_, before, after, rfl, fun f hf => ?_⟩
        · simp only [List.all_eq_true, decide_eq_true_eq]
          intro g hg
          by_cases hne : g = e
          · exact hne ▸ Nat.le_refl _
          · rcases hbefore g hg hne with hlt | ⟨heq, -⟩ <;> omega
        · -- whoever was used before it has more hits
          have hlt := (List.pairwise_append.mp husorted).2.2 f hf e List.mem_cons_self
          have hne : f ≠ e := fun heq => Nat.lt_irrefl _ (heq ▸ hlt)
          have hmore : e.hits < f.hits := by
            rcases hbefore f (List.mem_append_left _ hf) hne with hlt' | ⟨-, hlt'⟩ <;> omega
          simp only [Bool.not_eq_true', List.all_eq_false]
          exact ⟨e, heu, by simpa using hmore⟩
      rw [Register.next?, hev, huse, List.find?_map]
      have hsame : ((fun i : Item κ ν => (us.map CacheEntry.item).all fun j => i.hits ≤ j.hits) ∘
          CacheEntry.item) = fun f => us.all fun g => f.hits ≤ g.hits := by
        funext f
        exact List.all_map
      simp only [hsame, hfound, Option.map_some, CacheEntry.key_item]

/-! ## Entries by their keys -/

variable [DecidableEq κ]

/-- Where every key is there once, an entry is found by its key. -/
theorem find?_eq_some_iff (hnodup : (c.entries.map (·.key)).Nodup) {key : κ}
    {e : CacheEntry κ ν} : c.find? key = some e ↔ e ∈ c.entries ∧ e.key = key := by
  constructor
  · intro h
    exact ⟨List.mem_of_find?_eq_some h, by simpa using List.find?_some h⟩
  · rintro ⟨hmem, rfl⟩
    cases hfound : c.find? e.key with
    | none => simpa using List.find?_eq_none.mp hfound e hmem
    | some f =>
      have hkey : f.key = e.key := by simpa using List.find?_some hfound
      rw [List.inj_on_of_nodup_map hnodup (List.mem_of_find?_eq_some hfound) hmem hkey]

theorem find?_eq_none_iff {key : κ} :
    c.find? key = none ↔ ∀ e ∈ c.entries, e.key ≠ key := by
  simp [find?, List.find?_eq_none]

/-- Both find the same at a key. -/
theorem find?_eq (h : c.Mirrors r) (key : κ) : r.find? key = (c.find? key).map (·.item) := by
  obtain ⟨es, hes, -, huse⟩ := h.byUse
  have hfind : ({ c with entries := es } : Cache κ ν).find? key = c.find? key := by
    refine Option.ext fun e => ?_
    rw [find?_eq_some_iff (h.shuffle hes).nodup, find?_eq_some_iff h.nodup, hes.mem_iff]
  rw [← hfind, Register.find?, huse, List.find?_map]
  rfl

/-- Dropping entries by what the register knows of them. -/
theorem keepOnly (h : c.Mirrors r) (keep : Item κ ν → Bool) :
    ({ c with entries := c.entries.filter fun e => keep e.item } : Cache κ ν).Mirrors
      (r.keepOnly keep) where
  byUse := by
    obtain ⟨es, hes, hsorted, huse⟩ := h.byUse
    refine ⟨es.filter fun e => keep e.item, hes.filter _, hsorted.filter _, ?_⟩
    rw [Register.keepOnly, huse, List.filter_map]
    rfl
  byAge := by
    obtain ⟨us, hus, -, huse⟩ := h.byUse
    obtain ⟨es, hes, hsorted, hage⟩ := h.byAge
    refine ⟨es.filter fun e => keep e.item, hes.filter _, hsorted.filter _, ?_⟩
    rw [Register.keepOnly, hage, List.filter_map]
    refine congrArg _ (List.filter_congr fun e he => ?_)
    have hmem : e ∈ us := hus.mem_iff.mpr (hes.mem_iff.mp he)
    -- a key is left in the order of use exactly if its own entry is kept
    have hiff : e.key ∈ (r.byUse.filter keep).map (·.key) ↔ keep e.item = true := by
      rw [huse]
      constructor
      · simp only [List.mem_map, List.mem_filter]
        rintro ⟨_, ⟨⟨u, hu, rfl⟩, hkeep⟩, hkey⟩
        obtain rfl : u = e :=
          List.inj_on_of_nodup_map h.nodup (hus.mem_iff.mp hu) (hus.mem_iff.mp hmem) hkey
        exact hkeep
      · intro hkeep
        exact List.mem_map.mpr
          ⟨e.item, List.mem_filter.mpr ⟨List.mem_map.mpr ⟨e, hmem, rfl⟩, hkeep⟩, rfl⟩
    simp [hiff]
  nodup := h.nodup.sublist (List.filter_sublist.map _)
  given e he := h.given e (List.mem_filter.mp he).1
  capacity := h.capacity
  lifetime := h.lifetime
  eviction := h.eviction
  hits := h.hits
  misses := h.misses

theorem erase (h : c.Mirrors r) (key : κ) : (c.erase key).Mirrors (r.erase key) :=
  h.keepOnly fun i => i.key ≠ key

theorem sweep (h : c.Mirrors r) (now : Nat) : (c.sweep now).Mirrors (r.sweep now) :=
  h.keepOnly fun i => !i.isExpired now

theorem evict (h : c.Mirrors r) : c.evict.Mirrors r.evict := by
  have hnext := h.next?_eq
  unfold Cache.evict Register.evict
  cases hv : CacheEntry.victim? c.eviction c.entries with
  | none =>
    rw [hv] at hnext
    simpa [hnext] using h
  | some e =>
    rw [hv] at hnext
    simpa [hnext] using h.erase e.key

/-! ## Requests -/

omit [DecidableEq κ] in
/-- An entry with a new key and the next stamp goes to the back of both orders. -/
theorem enter (h : c.Mirrors r) {e : CacheEntry κ ν} (hkey : ∀ f ∈ c.entries, f.key ≠ e.key)
    (htouched : e.touched = c.tick + 1) (hinserted : e.inserted = c.tick + 1) :
    ({ c with entries := c.entries ++ [e], tick := c.tick + 1 } : Cache κ ν).Mirrors
      (r.enter e.item) where
  byUse := by
    obtain ⟨es, hes, hsorted, huse⟩ := h.byUse
    refine ⟨es ++ [e], hes.append_right _, ?_, by simp [Register.enter, huse]⟩
    refine List.pairwise_append.mpr ⟨hsorted, List.pairwise_singleton _ _, ?_⟩
    -- no stamp given so far is as late as the next one
    intro f hf g hg
    have hle := (h.given f (hes.mem_iff.mp hf)).1
    rw [List.mem_singleton.mp hg]
    omega
  byAge := by
    obtain ⟨es, hes, hsorted, hage⟩ := h.byAge
    refine ⟨es ++ [e], hes.append_right _, ?_, by simp [Register.enter, hage]⟩
    refine List.pairwise_append.mpr ⟨hsorted, List.pairwise_singleton _ _, ?_⟩
    intro f hf g hg
    have hle := (h.given f (hes.mem_iff.mp hf)).2
    rw [List.mem_singleton.mp hg]
    omega
  nodup := by
    rw [List.map_append, List.nodup_append]
    refine ⟨h.nodup, List.nodup_singleton _, ?_⟩
    rintro k hk l hl rfl
    obtain ⟨f, hf, rfl⟩ := List.mem_map.mp hk
    exact hkey f hf (List.mem_singleton.mp hl)
  given f hf := by
    rcases List.mem_append.mp hf with hf | hf
    · have hle := h.given f hf
      constructor <;> dsimp only <;> omega
    · rw [List.mem_singleton.mp hf]
      exact ⟨Nat.le_of_eq htouched, Nat.le_of_eq hinserted⟩
  capacity := h.capacity
  lifetime := h.lifetime
  eviction := h.eviction
  hits := h.hits
  misses := h.misses

omit [DecidableEq κ] in
/-- A miss takes a stamp and is counted. -/
theorem miss (h : c.Mirrors r) :
    ({ c with tick := c.tick + 1, misses := c.misses + 1 } : Cache κ ν).Mirrors
      { r with misses := r.misses + 1 } where
  byUse := h.byUse
  byAge := h.byAge
  nodup := h.nodup
  given e he := by
    have hle := h.given e he
    constructor <;> dsimp only <;> omega
  capacity := h.capacity
  lifetime := h.lifetime
  eviction := h.eviction
  hits := h.hits
  misses := congrArg (· + 1) h.misses

theorem makeRoom (h : c.Mirrors r) (key : κ) :
    (c.makeRoom key).Mirrors (if r.isFull && (r.find? key).isNone then r.evict else r) := by
  have hroom : c.makeRoom key = if r.isFull && (r.find? key).isNone then c.evict else c := by
    rw [Cache.makeRoom, Register.isFull, h.capacity, h.length_byUse, h.find?_eq]
    cases c.capacity <;> simp
  rw [hroom]
  split
  · exact h.evict
  · exact h

/-- Making room for a key changes nothing at the key. -/
theorem find?_makeRoom (key : κ) (c : Cache κ ν) : (c.makeRoom key).find? key = c.find? key := by
  unfold Cache.makeRoom
  split
  · split
    · rename_i hroom
      rw [hroom.2, find?_eq_none_iff]
      intro e he
      refine find?_eq_none_iff.mp hroom.2 e ?_
      unfold Cache.evict at he
      split at he
      · exact (List.mem_filter.mp he).1
      · exact he
    · rfl
  · rfl

/-- An insertion returns the same and keeps the mirror. -/
theorem insertFor (h : c.Mirrors r) (now : Nat) (lifetime : Option Nat) (key : κ) (value : ν) :
    (c.insertFor now lifetime key value).1 = (r.insertFor now lifetime key value).1 ∧
      (c.insertFor now lifetime key value).2.Mirrors (r.insertFor now lifetime key value).2 := by
  have hswept := h.sweep now
  unfold Cache.insertFor Register.insertFor
  dsimp only
  rw [hswept.capacity]
  split
  · exact ⟨rfl, hswept⟩
  · have hold : (((c.sweep now).makeRoom key).find? key).map (·.value) =
        ((r.sweep now).find? key).map (·.value) := by
      rw [find?_makeRoom, hswept.find?_eq, Option.map_map]
      rfl
    have hroom := hswept.makeRoom key
    rw [← Option.isNone_map (f := (·.value))] at hroom
    exact ⟨hold, (hroom.erase key).enter (fun f hf => by simpa using (List.mem_filter.mp hf).2)
      rfl rfl⟩

/-- A hit goes to the back of the order of use and keeps its place in the order of age. -/
theorem hit (h : c.Mirrors r) {e : CacheEntry κ ν} (hmem : e ∈ c.entries) :
    ({ c with
        entries := c.entries.map fun f => if f.key = e.key then f.touch (c.tick + 1) else f
        tick := c.tick + 1
        hits := c.hits + 1 } : Cache κ ν).Mirrors
      { r with
        byUse := (r.byUse.filter fun j => j.key ≠ e.key) ++ [(e.touch (c.tick + 1)).item]
        hits := r.hits + 1 } := by
  let touch (f : CacheEntry κ ν) := if f.key = e.key then f.touch (c.tick + 1) else f
  have hkeys : ∀ f, (touch f).key = f.key := by
    intro f
    dsimp only [touch]
    split <;> rfl
  have hinserted : ∀ f, (touch f).inserted = f.inserted := by
    intro f
    dsimp only [touch]
    split <;> rfl
  have htouched : ∀ f, (touch f).touched = c.tick + 1 ∨ (touch f).touched = f.touched := by
    intro f
    dsimp only [touch]
    split
    · exact .inl rfl
    · exact .inr rfl
  refine ⟨?_, ?_, ?_, ?_, h.capacity, h.lifetime, h.eviction, congrArg (· + 1) h.hits, h.misses⟩
  · obtain ⟨es, hes, hsorted, huse⟩ := h.byUse
    obtain ⟨before, after, rfl⟩ := List.append_of_mem (hes.mem_iff.mpr hmem)
    -- every other entry has another key, so it passes and is not touched
    have hothers : ∀ f ∈ before ++ after, f.key ≠ e.key := by
      intro f hf heq
      have hnodup := ((List.perm_middle.symm.trans hes).map (·.key)).nodup_iff.mpr h.nodup
      rw [List.map_cons, List.nodup_cons] at hnodup
      exact hnodup.1 (List.mem_map.mpr ⟨f, hf, heq⟩)
    have hkept : (before ++ after).map touch = before ++ after :=
      (List.map_congr_left fun f hf => if_neg (hothers f hf)).trans (List.map_id _)
    refine ⟨before ++ after ++ [e.touch (c.tick + 1)], ?_, ?_, ?_⟩
    · have hperm := (hes.symm.trans List.perm_middle).map touch
      have he : touch e = e.touch (c.tick + 1) := if_pos rfl
      rw [List.map_cons, hkept, he] at hperm
      exact ((List.perm_append_singleton _ _).trans hperm.symm)
    · have hsub : (before ++ after).Sublist (before ++ e :: after) :=
        List.Sublist.append_left (List.sublist_cons_self _ _) _
      refine List.pairwise_append.mpr ⟨hsorted.sublist hsub, List.pairwise_singleton _ _, ?_⟩
      intro f hf g hg
      have hle := (h.given f (hes.mem_iff.mp (hsub.subset hf))).1
      rw [List.mem_singleton.mp hg]
      exact Nat.lt_succ_of_le hle
    · have hpass : (before ++ e :: after).filter (fun f => f.key ≠ e.key) = before ++ after := by
        rw [List.filter_append, List.filter_cons_of_neg (by simp), ← List.filter_append]
        exact List.filter_eq_self.mpr fun f hf => by simpa using hothers f hf
      rw [huse, List.filter_map, List.map_append, ← hpass]
      rfl
  · obtain ⟨es, hes, hsorted, hage⟩ := h.byAge
    refine ⟨es.map touch, hes.map touch, List.pairwise_map.mpr (hsorted.imp ?_), ?_⟩
    · intro f g hlt
      rwa [hinserted, hinserted]
    · rw [hage, List.map_map]
      exact List.map_congr_left fun f _ => (hkeys f).symm
  · rw [List.map_map]
    exact (List.map_congr_left fun f _ => hkeys f).symm ▸ h.nodup
  · rintro f hf
    obtain ⟨g, hg, rfl⟩ := List.mem_map.mp hf
    have hle := h.given g hg
    have htick := htouched g
    have hsame := hinserted g
    dsimp only [touch] at htick hsame ⊢
    omega

/-- A lookup finds the same and keeps the mirror. -/
theorem get (h : c.Mirrors r) (now : Nat) (key : κ) :
    (c.get now key).1 = (r.get now key).1 ∧ (c.get now key).2.Mirrors (r.get now key).2 := by
  unfold Cache.get Register.get
  rw [h.find?_eq]
  cases hfound : c.find? key with
  | none =>
    exact ⟨rfl, h.miss⟩
  | some e =>
    obtain ⟨hmem, rfl⟩ := (find?_eq_some_iff h.nodup).mp hfound
    dsimp only [Option.map_some]
    rw [CacheEntry.isExpired_item]
    split
    · exact ⟨rfl, (h.erase e.key).miss⟩
    · exact ⟨rfl, h.hit hmem⟩

theorem peek_eq (h : c.Mirrors r) (now : Nat) (key : κ) : c.peek now key = r.peek now key := by
  unfold Cache.peek Register.peek
  rw [h.find?_eq]
  cases c.find? key <;> rfl

/-- **A request is answered alike** and keeps the mirror. -/
theorem perform (h : c.Mirrors r) (now : Nat) (request : Request κ ν) :
    (c.perform now request).1 = (r.perform now request).1 ∧
      (c.perform now request).2.Mirrors (r.perform now request).2 := by
  cases request with
  | insert key value =>
    obtain ⟨hold, hafter⟩ := h.insertFor now c.lifetime key value
    refine ⟨congrArg Reply.value ?_, ?_⟩
    · rw [h.lifetime]
      exact hold
    · simp only [Register.perform, h.lifetime]
      exact hafter
  | insertFor lifetime key value =>
    obtain ⟨hold, hafter⟩ := h.insertFor now lifetime key value
    exact ⟨congrArg Reply.value hold, hafter⟩
  | get key =>
    obtain ⟨hfound, hafter⟩ := h.get now key
    exact ⟨congrArg Reply.value hfound, hafter⟩
  | peek key => exact ⟨congrArg Reply.value (h.peek_eq now key), h⟩
  | contains key =>
    exact ⟨congrArg (fun found => Reply.present (Option.isSome found)) (h.peek_eq now key), h⟩
  | remove key =>
    refine ⟨congrArg Reply.value ?_, h.erase key⟩
    rw [h.find?_eq, Option.map_map]
    rfl
  | retain keep =>
    have hleft := h.keepOnly fun i => keep i.key
    refine ⟨congrArg Reply.count ?_, hleft⟩
    rw [h.length_byUse, hleft.length_byUse]
    rfl
  | clear =>
    exact ⟨rfl, ⟨[], .refl _, .nil, rfl⟩, ⟨[], .refl _, .nil, rfl⟩, List.nodup_nil,
      fun _ he => absurd he List.not_mem_nil, h.capacity, h.lifetime, h.eviction, rfl, rfl⟩

/-- Runs are answered alike, whatever order the entries are gone through in. -/
theorem performAll {shuffle : Nat → List (CacheEntry κ ν) → List (CacheEntry κ ν)}
    (hshuffle : ∀ left entries, (shuffle left entries).Perm entries)
    (requests : List (Nat × Request κ ν)) (h : c.Mirrors r) :
    (c.performAll shuffle requests).1 = (r.performAll requests).1 ∧
      (c.performAll shuffle requests).2.Mirrors (r.performAll requests).2 := by
  induction requests generalizing c r with
  | nil => exact ⟨rfl, h⟩
  | cons request rest ih =>
    obtain ⟨now, request⟩ := request
    obtain ⟨hreply, hafter⟩ := (h.shuffle (hshuffle rest.length _)).perform now request
    obtain ⟨hreadouts, hlast⟩ := ih hafter
    refine ⟨?_, hlast⟩
    simp only [Cache.performAll, Register.performAll, hreply, hreadouts, hafter.length_byUse,
      hafter.hits, hafter.misses]

end Mirrors

end Cache

end TaggedMarkup
