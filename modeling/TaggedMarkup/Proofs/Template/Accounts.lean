import TaggedMarkup.Proofs.Cache.Insertion
import TaggedMarkup.Proofs.Template.Lifetime

/-!
# The accounts of a shared cache

Any number of bindings share one cache. Each use of a template looks it up there, and what it finds is
noted: the **history** of the cache is the list of lookups since it was cleared. A lookup that finds nothing
compiles the template and stores it, between two operations of the cache, the second of which looks again
without counting.

Whatever the capacity, the lifetime and the eviction are, the cache agrees with its history
(`Cache.Accounts`): each lookup is counted once, each miss compiles once, and what is held at a key is what
the latest miss at this key has given. Without capacity and lifetime nothing leaves but what is cleared or
goes with its binding, so no key is missed twice (`Workshop.Lasting`).

What an errand does to the cache is said once (`Workshop.Turn`), and all invariants are derived from it.
-/

namespace TaggedMarkup

variable {σ : Type}

/-! ## Histories -/

/-- One lookup in a cache of templates. -/
structure Lookup where
  key : TemplateKey
  /-- the cache has found a template -/
  found : Bool
  /-- the template that was given -/
  serial : Nat
  /-- the number of templates that were compiled -/
  compilations : Nat
  deriving DecidableEq, Repr

/-- The latest lookup at the key that has found nothing has given this template. -/
def LastMiss (history : List Lookup) (key : TemplateKey) (serial : Nat) : Prop :=
  ∃ earlier l later, history = earlier ++ l :: later ∧ l.key = key ∧ l.found = false ∧
    l.serial = serial ∧ ∀ m ∈ later, m.key = key → m.found = true

section LastMiss

variable {history : List Lookup} {l : Lookup}

theorem LastMiss.concat {key : TemplateKey} {serial : Nat} (h : LastMiss history key serial)
    (hl : l.key = key → l.found = true) : LastMiss (history ++ [l]) key serial := by
  obtain ⟨earlier, first, later, rfl, hkey, hfound, hserial, hlater⟩ := h
  refine ⟨earlier, first, later ++ [l], by rw [List.append_assoc, List.cons_append], hkey, hfound, hserial,
    fun m hm => ?_⟩
  rcases List.mem_append.mp hm with hold | hnew
  · exact hlater m hold
  · exact List.mem_singleton.mp hnew ▸ hl

theorem lastMiss_concat (hfound : l.found = false) : LastMiss (history ++ [l]) l.key l.serial :=
  ⟨history, l, [], rfl, rfl, hfound, rfl, nofun⟩

end LastMiss

/-- Where each miss compiles once, the compilations are the misses. -/
theorem sum_compilations {history : List Lookup} (h : ∀ l ∈ history, l.compilations = (!l.found).toNat) :
    (history.map (·.compilations)).sum = history.countP (!·.found) := by
  induction history with
  | nil => rfl
  | cons l rest ih =>
    rw [List.forall_mem_cons] at h
    rw [List.map_cons, List.sum_cons, ih h.2, h.1, List.countP_cons, Nat.add_comm]
    cases l.found <;> rfl

/-! ## The cache and its history -/

namespace Cache

section Counts

variable {κ ν : Type} [DecidableEq κ]

/-- A lookup is counted once, and says which way. -/
theorem counts_get (now : Nat) (key : κ) (c : Cache κ ν) :
    (c.get now key).2.hits = c.hits + (c.get now key).1.isSome.toNat ∧
      (c.get now key).2.misses = c.misses + (!(c.get now key).1.isSome).toNat := by
  unfold get
  split
  · split <;> exact ⟨rfl, rfl⟩
  · exact ⟨rfl, rfl⟩

/-- An insertion is not counted. -/
theorem counts_insert (now : Nat) (key : κ) (value : ν) (c : Cache κ ν) :
    (c.insert now key value).2.hits = c.hits ∧ (c.insert now key value).2.misses = c.misses := by
  have hroom : ∀ d : Cache κ ν, (d.makeRoom key).hits = d.hits ∧ (d.makeRoom key).misses = d.misses := by
    intro d
    unfold makeRoom evict
    repeat' split
    all_goals exact ⟨rfl, rfl⟩
  unfold insert insertFor
  dsimp only
  split
  · exact ⟨rfl, rfl⟩
  · exact hroom (c.sweep now)

theorem capacity_get (now : Nat) (key : κ) (c : Cache κ ν) : (c.get now key).2.capacity = c.capacity := by
  unfold get
  split
  · split <;> rfl
  · rfl

theorem capacity_insert (now : Nat) (key : κ) (value : ν) (c : Cache κ ν) :
    (c.insert now key value).2.capacity = c.capacity := by
  unfold insert insertFor
  dsimp only
  split
  · rfl
  · exact capacity_makeRoom key _

/-- After a lookup that has found nothing, the key is not there. -/
theorem not_holds_of_get {now : Nat} {key : κ} {c d : Cache κ ν} (h : c.get now key = (none, d))
    (value : ν) : ¬ d.Holds key value := by
  rintro ⟨e, he, hkey, -⟩
  unfold get at h
  split at h
  · split at h
    · cases h
      exact of_decide_eq_true (List.mem_filter.mp he).2 hkey
    · cases h
  · rename_i hnone
    cases h
    exact Mirrors.find?_eq_none_iff.mp hnone e he hkey

end Counts

/-- The counts of the cache are those of the history of its lookups. -/
structure Counted (capacity : Option Nat) (history : List Lookup) (c : TemplateCache) : Prop where
  mirrored : ∃ r, c.Mirrors r
  capacity : c.capacity = capacity
  bounded : c.IsBounded
  hits : c.hits = history.countP (·.found)
  misses : c.misses = history.countP (!·.found)
  /-- a miss compiles once, and a hit does not -/
  compiled : ∀ l ∈ history, l.compilations = (!l.found).toNat

/-- The cache agrees with the history of its lookups. -/
structure Accounts (capacity : Option Nat) (history : List Lookup) (c : TemplateCache) : Prop
    extends Counted capacity history c where
  /-- what is held is what the latest miss has given -/
  held : ∀ key serial, c.Holds key serial → LastMiss history key serial
  /-- so is what a hit gives -/
  given : ∀ before l after, history = before ++ l :: after → l.found = true →
    LastMiss before l.key l.serial

variable {capacity : Option Nat} {history : List Lookup} {c d : TemplateCache} {l : Lookup}

namespace Counted

theorem get (h : c.Counted capacity history) (now : Nat)
    (hfound : l.found = (c.get now l.key).1.isSome) (hcompiled : l.compilations = (!l.found).toNat) :
    (c.get now l.key).2.Counted capacity (history ++ [l]) := by
  obtain ⟨r, hr⟩ := h.mirrored
  obtain ⟨hhits, hmisses⟩ := c.counts_get now l.key
  refine ⟨⟨_, (hr.get now l.key).2⟩, (c.capacity_get now l.key).trans h.capacity,
    h.bounded.perform now (.get l.key), ?_, ?_, fun m hm => ?_⟩
  · rw [hhits, h.hits, ← hfound, List.countP_append, List.countP_singleton]
    cases l.found <;> rfl
  · rw [hmisses, h.misses, ← hfound, List.countP_append, List.countP_singleton]
    cases l.found <;> rfl
  · rcases List.mem_append.mp hm with hold | hnew
    · exact h.compiled m hold
    · exact List.mem_singleton.mp hnew ▸ hcompiled

/-- An insertion has to find room. -/
theorem insert (h : c.Counted capacity history) (now : Nat) (key : TemplateKey) (serial : Nat) :
    (c.insert now key serial).2.Counted capacity history := by
  obtain ⟨r, hr⟩ := h.mirrored
  obtain ⟨hhits, hmisses⟩ := c.counts_insert now key serial
  exact ⟨⟨_, (hr.perform now (.insert key serial)).2⟩,
    (c.capacity_insert now key serial).trans h.capacity, h.bounded.perform now (.insert key serial),
    hhits.trans h.hits, hmisses.trans h.misses, h.compiled⟩

theorem clear (h : c.Counted capacity history) : c.clear.Counted capacity [] := by
  obtain ⟨r, hr⟩ := h.mirrored
  exact ⟨⟨_, (hr.perform 0 .clear).2⟩, h.capacity, h.bounded.perform 0 .clear, rfl, rfl, nofun⟩

theorem retain (h : c.Counted capacity history) (keep : TemplateKey → Bool) :
    (c.retain keep).2.Counted capacity history := by
  obtain ⟨r, hr⟩ := h.mirrored
  exact ⟨⟨_, (hr.perform 0 (.retain keep)).2⟩, h.capacity, h.bounded.perform 0 (.retain keep), h.hits,
    h.misses, h.compiled⟩

theorem compilations (h : c.Counted capacity history) :
    c.stats.misses = (history.map (·.compilations)).sum :=
  h.misses.trans (sum_compilations h.compiled).symm

/-- There are as many entries as keys. -/
theorem entries (h : c.Counted capacity history) :
    ∃ keys : Finset TemplateKey, (∀ key, key ∈ keys ↔ (c.find? key).isSome = true) ∧
      c.stats.entries = keys.card := by
  obtain ⟨r, hr⟩ := h.mirrored
  refine ⟨(c.entries.map (·.key)).toFinset, fun key => ?_, ?_⟩
  · rw [List.mem_toFinset, find?, List.find?_isSome]
    simp only [List.mem_map, decide_eq_true_eq]
  · rw [List.toFinset_card_of_nodup hr.nodup, List.length_map]
    rfl

end Counted

namespace Accounts

/-- A new cache has no history. -/
theorem new (capacity lifetime : Option Nat) (eviction : Eviction) :
    ({ capacity, lifetime, eviction } : TemplateCache).Accounts capacity [] := by
  have hmirrors : ({ capacity, lifetime, eviction } : TemplateCache).Mirrors
      { capacity, lifetime, eviction } :=
    ⟨⟨[], .refl _, .nil, rfl⟩, ⟨[], .refl _, .nil, rfl⟩, List.nodup_nil, nofun, rfl, rfl, rfl, rfl, rfl⟩
  refine ⟨⟨⟨_, hmirrors⟩, rfl, fun limit _ => Nat.zero_le limit, rfl, rfl, nofun⟩, ?_, ?_⟩
  · rintro key serial ⟨e, he, -⟩
    cases he
  · exact fun before l _ heq => absurd (heq ▸ List.mem_append_right before (List.mem_cons_self ..))
      (List.not_mem_nil (a := l))

/-- One more lookup keeps what is said of the hits before it. -/
theorem given_concat (h : c.Accounts capacity history)
    (hl : l.found = true → LastMiss history l.key l.serial) (before : List Lookup) (m : Lookup)
    (after : List Lookup) (heq : history ++ [l] = before ++ m :: after) (hm : m.found = true) :
    LastMiss before m.key m.serial := by
  rcases List.eq_nil_or_concat' after with rfl | ⟨more, last, rfl⟩
  · obtain ⟨rfl, hlast⟩ := List.append_inj' heq rfl
    obtain rfl := List.head_eq_of_cons_eq hlast
    exact hl hm
  · rw [← List.cons_append, ← List.append_assoc] at heq
    exact h.given before m more (List.append_inj' heq rfl).1 hm

/-- A hit gives what is held. -/
theorem found (h : c.Accounts capacity history) {now : Nat} (hfound : l.found = true)
    (hnone : l.compilations = 0) (hget : c.get now l.key = (some l.serial, d)) :
    d.Accounts capacity (history ++ [l]) := by
  obtain rfl : (c.get now l.key).2 = d := congrArg Prod.snd hget
  have hserial : (c.get now l.key).1 = some l.serial := congrArg Prod.fst hget
  have hcounted := h.toCounted.get (l := l) now (by rw [hserial, hfound]; rfl)
    (by rw [hnone, hfound]; rfl)
  exact ⟨hcounted, fun key serial hholds => (h.held key serial hholds.of_get).concat fun _ => hfound,
    h.given_concat fun _ => h.held _ _ (holds_of_get hserial)⟩

/-- A miss stores what it gives, and it is the latest miss at its key. -/
theorem missed (h : c.Accounts capacity history) {now : Nat} (hmissed : l.found = false)
    (hone : l.compilations = 1) (hget : c.get now l.key = (none, d)) :
    (d.insert now l.key l.serial).2.Accounts capacity (history ++ [l]) := by
  obtain rfl : (c.get now l.key).2 = d := congrArg Prod.snd hget
  have hnone : (c.get now l.key).1 = none := congrArg Prod.fst hget
  have hcounted := h.toCounted.get (l := l) now (by rw [hnone, hmissed]; rfl)
    (by rw [hone, hmissed]; rfl)
  refine ⟨hcounted.insert now l.key l.serial, fun key serial hholds => ?_,
    h.given_concat fun hfound => absurd (hmissed.symm.trans hfound) nofun⟩
  rcases hholds.of_insert with hold | ⟨rfl, rfl⟩
  · -- the key itself is no longer there
    have hne : l.key ≠ key := fun hkey => not_holds_of_get hget serial (hkey ▸ hold)
    exact (h.held key serial hold.of_get).concat fun hkey => absurd hkey hne
  · exact lastMiss_concat hmissed

/-- Clearing starts a new history. -/
theorem clear (h : c.Accounts capacity history) : c.clear.Accounts capacity [] :=
  ⟨h.toCounted.clear, fun _ _ hholds => absurd hholds not_holds_clear,
    fun before l _ heq => absurd (heq ▸ List.mem_append_right before (List.mem_cons_self ..))
      (List.not_mem_nil (a := l))⟩

/-- What leaves does not change the history. -/
theorem retain (h : c.Accounts capacity history) (keep : TemplateKey → Bool) :
    (c.retain keep).2.Accounts capacity history :=
  ⟨h.toCounted.retain keep, fun key serial hholds => h.held key serial hholds.of_retain.1, h.given⟩

end Accounts

/-! ## Caches that keep everything -/

section Lasting

variable {κ ν : Type} [DecidableEq κ] {c : Cache κ ν} {key : κ} {value : ν}

/-- Neither capacity nor lifetime makes an entry leave. -/
structure IsLasting (c : Cache κ ν) : Prop where
  capacity : c.capacity = none
  lifetime : c.lifetime = none
  deadlines : ∀ e ∈ c.entries, e.deadline = none

namespace IsLasting

omit [DecidableEq κ] in
theorem isExpired (h : c.IsLasting) {e : CacheEntry κ ν} (he : e ∈ c.entries) (now : Nat) :
    e.isExpired now = false := by
  rw [CacheEntry.isExpired, h.deadlines e he]

omit [DecidableEq κ] in
theorem of_subset {d : Cache κ ν} (h : c.IsLasting) (hcapacity : d.capacity = c.capacity)
    (hlifetime : d.lifetime = c.lifetime) (hentries : d.entries ⊆ c.entries) : d.IsLasting :=
  ⟨hcapacity.trans h.capacity, hlifetime.trans h.lifetime, fun e he => h.deadlines e (hentries he)⟩

/-- What is held is found. -/
theorem isSome_get (h : c.IsLasting) (hholds : c.Holds key value) (now : Nat) :
    (c.get now key).1.isSome = true := by
  obtain ⟨e, he, hkey, -⟩ := hholds
  rw [get_eq_peek, peek]
  cases hfound : c.find? key with
  | none => exact absurd hkey (Mirrors.find?_eq_none_iff.mp hfound e he)
  | some f =>
    have hlive := h.isExpired (List.mem_of_find?_eq_some hfound) now
    simp only [hlive]
    rfl

/-- A lookup touches at most. -/
theorem get (h : c.IsLasting) (now : Nat) (key : κ) :
    (c.get now key).2.IsLasting ∧
      ∀ other value, c.Holds other value → (c.get now key).2.Holds other value := by
  unfold Cache.get
  cases hfound : c.find? key with
  | none => exact ⟨⟨h.capacity, h.lifetime, h.deadlines⟩, fun _ _ hholds => hholds⟩
  | some f =>
    have hlive := h.isExpired (List.mem_of_find?_eq_some hfound) now
    simp only [hlive]
    refine ⟨⟨h.capacity, h.lifetime, fun e he => ?_⟩, ?_⟩
    · obtain ⟨g, hg, rfl⟩ := List.mem_map.mp he
      have hdeadline := h.deadlines g hg
      split <;> exact hdeadline
    · rintro other value ⟨e, he, rfl, rfl⟩
      refine ⟨_, List.mem_map_of_mem he, ?_, ?_⟩ <;> split <;> rfl

/-- An insertion replaces at most what is at its own key. -/
theorem insert (h : c.IsLasting) (now : Nat) (key : κ) (value : ν) :
    (c.insert now key value).2.IsLasting ∧ (c.insert now key value).2.Holds key value ∧
      ∀ other old, other ≠ key → c.Holds other old → (c.insert now key value).2.Holds other old := by
  have hswept : c.sweep now = c := by
    have hentries : (c.entries.filter fun e => !e.isExpired now) = c.entries :=
      List.filter_eq_self.mpr fun e he => by rw [h.isExpired he now, Bool.not_false]
    rw [sweep, hentries]
  have hzero : c.capacity ≠ some 0 := h.capacity ▸ (Option.some_ne_none 0).symm
  have hroom : c.makeRoom key = c := by rw [makeRoom, h.capacity]
  simp only [Cache.insert, insertFor, hswept, if_neg hzero, hroom]
  refine ⟨⟨h.capacity, h.lifetime, fun e he => ?_⟩, ?_, ?_⟩
  · rcases List.mem_append.mp he with hold | hnew
    · exact h.deadlines e (List.mem_filter.mp hold).1
    · rw [List.mem_singleton.mp hnew, h.lifetime, Option.map_none]
  · exact ⟨_, List.mem_append_right _ (List.mem_singleton.mpr rfl), rfl, rfl⟩
  · rintro other old hne ⟨e, he, rfl, rfl⟩
    exact ⟨e, List.mem_append_left _ (List.mem_filter.mpr ⟨he, decide_eq_true hne⟩), rfl, rfl⟩

end IsLasting

end Lasting

end Cache

/-! ## Errands -/

/-- All bindings share the first cache, and use it. -/
def Errand.Shares : Errand σ → Prop
  | bind _ cache config => cache = 0 ∧ config.cacheMode = .normal
  | _ => True

namespace Workshop

/-- What a use of a template looks up, and what it comes to. -/
def lookup? (s : Workshop σ) (errand : Errand σ) (host : σ) : Option Lookup :=
  match errand with
  | .call binding statics _ | .compiled binding statics => some {
      key := ⟨binding, statics.id⟩
      found := ((s.cache 0).get s.age ⟨binding, statics.id⟩).1.isSome
      serial := (s.compiledFor binding statics).1
      compilations := (s.perform errand host).2.2.templates.length - s.templates.length }
  | _ => none

/-- The history after an errand: one lookup more, or none after the cache is cleared. -/
def noted (s : Workshop σ) (history : List Lookup) (errand : Errand σ) (host : σ) : List Lookup :=
  match errand with
  | .clear 0 => []
  | _ => history ++ (s.lookup? errand host).toList

/-- There is a cache, and all bindings share it. -/
structure IsShared (s : Workshop σ) : Prop where
  there : s.caches ≠ []
  bound : ∀ b ∈ s.bindings, b.cache = 0 ∧ b.config.cacheMode = .normal

/-- What an errand does to the shared cache and its history. -/
inductive Turn (s t : Workshop σ) (history : List Lookup) : List Lookup → Prop where
  /-- a template is looked up and found -/
  | found (l : Lookup) (hpossible : 0 < s.handles l.key.binding) (hfound : l.found = true)
      (hnone : l.compilations = 0)
      (hget : (s.cache 0).get s.age l.key = (some l.serial, t.cache 0)) : Turn s t history (history ++ [l])
  /-- a template is looked up, compiled and stored -/
  | missed (l : Lookup) (c : TemplateCache) (hpossible : 0 < s.handles l.key.binding)
      (hmissed : l.found = false) (hone : l.compilations = 1)
      (hget : (s.cache 0).get s.age l.key = (none, c))
      (hinsert : t.cache 0 = (c.insert s.age l.key l.serial).2) : Turn s t history (history ++ [l])
  | cleared (hclear : t.cache 0 = (s.cache 0).clear) : Turn s t history []
  /-- the last handle takes the entries of its binding along -/
  | left (binding : Nat) (hleft : t.handles binding = 0)
      (hretain : t.cache 0 = ((s.cache 0).retain fun key => key.binding ≠ binding).2) :
      Turn s t history history
  | kept (hkept : t.cache 0 = s.cache 0) : Turn s t history history

variable {s t : Workshop σ}

/-- Without a lookup the history stays. -/
theorem Turn.quiet {history : List Lookup} (h : Turn s t history history) :
    Turn s t history (history ++ (none : Option Lookup).toList) := by
  rw [Option.toList_none, List.append_nil]
  exact h

theorem cache_of_set {c : TemplateCache} (h : s.caches ≠ []) (hcaches : t.caches = s.caches.set 0 c) :
    t.cache 0 = c := by
  rw [Workshop.cache, hcaches]
  cases hs : s.caches with
  | nil => exact absurd hs h
  | cons first rest => rfl

namespace IsShared

variable {binding : Nat} {statics : Statics}

/-- Where a template is found, nothing is compiled. -/
theorem compiledFor_found (h : s.IsShared) {b : Binding σ} (hb : s.bindings[binding]? = some b)
    {serial : Nat} {c : TemplateCache}
    (hget : (s.cache 0).get s.age ⟨binding, statics.id⟩ = (some serial, c)) :
    s.compiledFor binding statics = (serial, [], { s with caches := s.caches.set 0 c }) := by
  obtain ⟨hcache, hmode⟩ := h.bound b (List.mem_of_getElem? hb)
  simp only [compiledFor, hb, hmode, hcache, obtain, hget]

/-- Where none is found, one is compiled, and the second look finds none either. -/
theorem compiledFor_missed (h : s.IsShared) {b : Binding σ} (hb : s.bindings[binding]? = some b)
    {c : TemplateCache} (hget : (s.cache 0).get s.age ⟨binding, statics.id⟩ = (none, c)) :
    (s.compiledFor binding statics).1 = s.templates.length ∧
      (s.compiledFor binding statics).2.2.templates.length = s.templates.length + 1 ∧
      (s.compiledFor binding statics).2.2.caches =
        s.caches.set 0 (c.insert s.age ⟨binding, statics.id⟩ s.templates.length).2 := by
  obtain ⟨hcache, hmode⟩ := h.bound b (List.mem_of_getElem? hb)
  have hthere : ∀ templates : List Compiled, ({ s with
      caches := s.caches.set 0 c, templates } : Workshop σ).cache 0 = c := fun _ => cache_of_set h.there rfl
  have hpeek : c.peek s.age ⟨binding, statics.id⟩ = none := by
    refine Option.eq_none_iff_forall_ne_some.mpr fun serial hserial => ?_
    exact Cache.not_holds_of_get hget serial (Cache.holds_of_peek hserial)
  simp only [compiledFor, hb, hmode, hcache, obtain, hget, compile, hthere, hpeek]
  exact ⟨trivial, List.length_append, List.set_set ..⟩

/-- A use of a template turns the cache once, whatever else it does. -/
theorem turn_lookup (h : s.IsShared) (statics : Statics) (history : List Lookup)
    (hpossible : 0 < s.handles binding)
    (hcaches : t.caches = (s.compiledFor binding statics).2.2.caches)
    (hlength : t.templates.length = (s.compiledFor binding statics).2.2.templates.length) :
    t.caches ≠ [] ∧ Turn s t history (history ++ [{
      key := ⟨binding, statics.id⟩
      found := ((s.cache 0).get s.age ⟨binding, statics.id⟩).1.isSome
      serial := (s.compiledFor binding statics).1
      compilations := t.templates.length - s.templates.length }]) := by
  obtain ⟨b, hb, -⟩ := exists_of_handles hpossible
  have hset : ∀ c : TemplateCache, s.caches.set 0 c ≠ [] := fun c hnil =>
    h.there (List.length_eq_zero_iff.mp (List.length_set.symm.trans (congrArg List.length hnil)))
  cases hget : (s.cache 0).get s.age ⟨binding, statics.id⟩ with
  | mk found c =>
    cases found with
    | some serial =>
      have hcompiled := h.compiledFor_found hb hget
      rw [hcompiled] at hcaches hlength
      refine ⟨hcaches ▸ hset c, .found _ hpossible rfl (Nat.sub_eq_zero_of_le hlength.le) ?_⟩
      rw [hcompiled, cache_of_set h.there hcaches]
      exact hget
    | none =>
      obtain ⟨hserial, hgrown, hstored⟩ := h.compiledFor_missed hb hget
      rw [hgrown] at hlength
      rw [hstored] at hcaches
      refine ⟨hcaches ▸ hset _, .missed _ c hpossible rfl (Nat.sub_eq_of_eq_add' hlength) hget ?_⟩
      rw [hserial]
      exact cache_of_set h.there hcaches

end IsShared

/-- A handle that is given back is one less. -/
theorem bindings_release {binding : Nat} {b : Binding σ} (hb : s.bindings[binding]? = some b) :
    (s.release binding).2.bindings = s.bindings.set binding { b with handles := b.handles - 1 } := by
  simp only [Workshop.release, hb]
  split <;> rfl

namespace IsShared

/-- Giving a handle back turns the cache only if it is the last one. -/
theorem turn_release (h : s.IsShared) (history : List Lookup) {binding : Nat}
    (hpossible : 0 < s.handles binding) :
    (s.release binding).2.IsShared ∧ Turn s (s.release binding).2 history history := by
  obtain ⟨b, hb, hhandles⟩ := exists_of_handles hpossible
  have hshared := h.bound b (List.mem_of_getElem? hb)
  have hbound : ∀ b' ∈ (s.release binding).2.bindings, b'.cache = 0 ∧ b'.config.cacheMode = .normal := by
    intro b' hb'
    rw [bindings_release hb] at hb'
    rcases List.mem_or_eq_of_mem_set hb' with hold | rfl
    · exact h.bound b' hold
    · exact hshared
  by_cases hlast : b.handles = 1
  · have hcaches := caches_release_last hb hlast
    rw [hshared.1, ← set_cache] at hcaches
    refine ⟨⟨fun hnil => ?_, hbound⟩, .left binding ?_ (cache_of_set h.there hcaches)⟩
    · rw [hcaches] at hnil
      exact h.there (List.length_eq_zero_iff.mp (List.length_set.symm.trans (congrArg List.length hnil)))
    · rw [handles, bindings_release hb, List.getElem?_set_self (List.getElem?_eq_some_iff.mp hb).1]
      exact Nat.sub_eq_zero_of_le hlast.le
  · have hcaches := caches_release hb (by omega)
    exact ⟨⟨hcaches ▸ h.there, hbound⟩, .kept (cache_of_caches hcaches 0)⟩

/-- **One errand.** The shared cache is turned as its history says. -/
theorem turn (h : s.IsShared) {errand : Errand σ} (hshares : errand.Shares)
    (hpossible : errand.IsPossible s) (host : σ) (history : List Lookup) :
    (s.perform errand host).2.2.IsShared ∧
      Turn s (s.perform errand host).2.2 history (s.noted history errand host) := by
  cases errand with
  | addCache capacity lifetime eviction =>
    have hcache : (s.addCache { capacity, lifetime, eviction }).2.cache 0 = s.cache 0 := by
      have hlt : 0 < s.caches.length := List.length_pos_iff.mpr h.there
      simp only [Workshop.cache, addCache, List.getD_eq_getElem?_getD, List.getElem?_append_left hlt]
    exact ⟨⟨List.append_ne_nil_of_left_ne_nil h.there _, h.bound⟩, .quiet (.kept hcache)⟩
  | bind factory cache config =>
    refine ⟨⟨h.there, fun b hb => ?_⟩, .quiet (.kept rfl)⟩
    rcases List.mem_append.mp hb with hold | hnew
    · exact h.bound b hold
    · exact List.mem_singleton.mp hnew ▸ hshares
  | clone binding =>
    refine ⟨⟨h.there, fun b hb => ?_⟩, .quiet (.kept rfl)⟩
    obtain ⟨n, hn⟩ := List.mem_iff_getElem?.mp hb
    simp only [perform, hold, List.getElem?_modify, Option.map_eq_map, Option.map_eq_some_iff] at hn
    obtain ⟨b', hb', rfl⟩ := hn
    have hbound := h.bound b' (List.mem_of_getElem? hb')
    split <;> exact hbound
  | compiled binding statics =>
    obtain ⟨hthere, hturn⟩ := h.turn_lookup (t := (s.compiledFor binding statics).2.2) statics history
      hpossible rfl rfl
    exact ⟨⟨hthere, fun b hb => h.bound b (bindings_compiledFor s binding statics ▸ hb)⟩, hturn⟩
  | call binding statics values =>
    obtain ⟨b, hb, -⟩ := exists_of_handles hpossible
    obtain ⟨templates, hafter, hlength⟩ := perform_call hb statics values host
    obtain ⟨hthere, hturn⟩ := h.turn_lookup
      (t := (s.perform (.call binding statics values) host).2.2) statics history hpossible
      (hafter ▸ rfl) (hafter ▸ hlength)
    refine ⟨⟨hthere, fun b hb => h.bound b ?_⟩, hturn⟩
    rw [hafter] at hb
    exact bindings_compiledFor s binding statics ▸ hb
  | clear cache =>
    have hset : ∀ c : TemplateCache, s.caches.set cache c ≠ [] := fun c hnil =>
      h.there (List.length_eq_zero_iff.mp (List.length_set.symm.trans (congrArg List.length hnil)))
    refine ⟨⟨hset _, h.bound⟩, ?_⟩
    cases cache with
    | zero => exact .cleared (cache_of_set h.there rfl)
    | succ n =>
      refine .quiet (.kept ?_)
      simp only [perform, clear, Workshop.cache, List.getD_eq_getElem?_getD,
        List.getElem?_set_ne (Nat.succ_ne_zero n)]
  | drop binding =>
    obtain ⟨hshared, hturn⟩ := h.turn_release history hpossible
    exact ⟨hshared, hturn.quiet⟩
  | wait time => exact ⟨⟨h.there, h.bound⟩, .quiet (.kept rfl)⟩

end IsShared

/-! ## Runs -/

section Runs

variable {capacity : Option Nat} {history after : List Lookup}

/-- The shared cache keeps everything, and no key has been missed twice. -/
structure Lasting (history : List Lookup) (s : Workshop σ) : Prop where
  lasting : (s.cache 0).IsLasting
  known : ∀ l ∈ history, l.key.binding < s.bindings.length
  /-- what was looked up is held as long as there is a handle on the binding -/
  held : ∀ l ∈ history, 0 < s.handles l.key.binding → ∃ serial, (s.cache 0).Holds l.key serial
  once : ∀ key, history.countP (fun l => l.key = key ∧ l.found = false) ≤ 1

/-- A binding with a handle is known. -/
theorem lt_of_handles {binding : Nat} (h : 0 < s.handles binding) : binding < s.bindings.length := by
  obtain ⟨b, hb, -⟩ := exists_of_handles h
  exact (List.getElem?_eq_some_iff.mp hb).1

/-- A lookup lasts if what it has given is held, and nothing else has left. -/
theorem Lasting.concat {l : Lookup} (h : s.Lasting history) (hpossible : 0 < s.handles l.key.binding)
    (hlength : s.bindings.length ≤ t.bindings.length)
    (hhandles : ∀ binding < s.bindings.length, 0 < t.handles binding → 0 < s.handles binding)
    (hlasting : (t.cache 0).IsLasting) (hgiven : (t.cache 0).Holds l.key l.serial)
    (hothers : ∀ m ∈ history, ∀ serial, (s.cache 0).Holds m.key serial → (t.cache 0).Holds m.key serial)
    (honce : l.found = false → ∀ m ∈ history, m.key ≠ l.key) : t.Lasting (history ++ [l]) := by
  refine ⟨hlasting, List.forall_mem_append.mpr ⟨fun m hm => ?_, List.forall_mem_singleton.mpr ?_⟩,
    List.forall_mem_append.mpr ⟨fun m hm hpositive => ?_, List.forall_mem_singleton.mpr fun _ => ?_⟩,
    fun key => ?_⟩
  · exact Nat.lt_of_lt_of_le (h.known m hm) hlength
  · exact Nat.lt_of_lt_of_le (lt_of_handles hpossible) hlength
  · obtain ⟨serial, hholds⟩ := h.held m hm (hhandles _ (h.known m hm) hpositive)
    exact ⟨serial, hothers m hm serial hholds⟩
  · exact ⟨l.serial, hgiven⟩
  · rw [List.countP_append, List.countP_singleton]
    by_cases hmiss : l.key = key ∧ l.found = false
    · have hzero : history.countP (fun m => m.key = key ∧ m.found = false) = 0 :=
        List.countP_eq_zero.mpr fun m hm hboth =>
          honce hmiss.2 m hm ((of_decide_eq_true hboth).1.trans hmiss.1.symm)
      rw [hzero, if_pos (decide_eq_true hmiss)]
    · rw [if_neg fun hboth => hmiss (of_decide_eq_true hboth)]
      exact h.once key

/-- A turn of a lasting cache finds what has been looked up before. -/
theorem Turn.lasting (hturn : Turn s t history after) (h : s.Lasting history)
    (hlength : s.bindings.length ≤ t.bindings.length)
    (hhandles : ∀ binding < s.bindings.length, 0 < t.handles binding → 0 < s.handles binding) :
    t.Lasting after := by
  have hknown : ∀ l ∈ history, l.key.binding < t.bindings.length := fun l hl =>
    Nat.lt_of_lt_of_le (h.known l hl) hlength
  have hheld : ∀ l ∈ history, 0 < t.handles l.key.binding → ∃ serial, (s.cache 0).Holds l.key serial :=
    fun l hl hpositive => h.held l hl (hhandles _ (h.known l hl) hpositive)
  cases hturn with
  | found l hpossible hfound _ hget =>
    obtain ⟨hlasting, hkeeps⟩ := h.lasting.get s.age l.key
    have hserial := Cache.holds_of_get (congrArg Prod.fst hget)
    rw [hget] at hlasting hkeeps
    exact h.concat hpossible hlength hhandles hlasting (hkeeps _ _ hserial)
      (fun m _ serial hholds => hkeeps _ _ hholds) fun hmiss => nomatch hfound.symm.trans hmiss
  | missed l c hpossible _ _ hget hinsert =>
    obtain ⟨hlasting, hkeeps⟩ := h.lasting.get s.age l.key
    rw [hget] at hlasting hkeeps
    obtain ⟨hafter, hnew, hothers⟩ := hlasting.insert s.age l.key l.serial
    rw [← hinsert] at hafter hnew hothers
    -- the key is new, or it would have been found
    have hfresh : ∀ m ∈ history, m.key ≠ l.key := by
      intro m hm hkey
      obtain ⟨serial, hholds⟩ := h.held m hm (hkey ▸ hpossible)
      have hsome := h.lasting.isSome_get hholds s.age
      rw [hkey, hget] at hsome
      cases hsome
    exact h.concat hpossible hlength hhandles hafter hnew
      (fun m hm serial hholds => hothers _ _ (hfresh m hm) (hkeeps _ _ hholds)) fun _ => hfresh
  | cleared hclear =>
    exact ⟨hclear ▸ h.lasting.of_subset rfl rfl (List.nil_subset _), nofun, nofun, fun _ => Nat.zero_le 1⟩
  | left binding hleft hretain =>
    refine ⟨hretain ▸ h.lasting.of_subset rfl rfl (List.filter_subset_self _), hknown,
      fun l hl hpositive => ?_, h.once⟩
    obtain ⟨serial, e, he, hkey, hserial⟩ := hheld l hl hpositive
    have hstays : e.key.binding ≠ binding := fun heq => by
      rw [← hkey, heq, hleft] at hpositive
      exact Nat.lt_irrefl 0 hpositive
    rw [hretain]
    exact ⟨serial, e, List.mem_filter.mpr ⟨he, decide_eq_true hstays⟩, hkey, hserial⟩
  | kept hkept => exact ⟨hkept ▸ h.lasting, hknown, hkept ▸ hheld, h.once⟩

end Runs

end Workshop

end TaggedMarkup
