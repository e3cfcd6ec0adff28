import Mathlib
import TaggedMarkup.Proofs.Template.Transparency

/-!
# Entries live as long as their binding

A compiled template is cached for one binding, and what is folded in it was built by that binding's
factory. So it has to leave the cache when the binding goes, and not before.

In a run, an errand that uses a binding is **possible** only while there is a handle on the binding.
The invariant of possible runs is that the caches are **tended**: each entry of a cache belongs to a
binding that is bound to this cache, that caches at all, and on which there is a handle. It holds
because a lookup adds entries for its own binding only, and because the last handle takes the entries
of its binding along. Since they are in the binding's own cache, no other cache has to be searched.
-/

namespace TaggedMarkup

variable {σ : Type}

/-- The cache without the entries of one binding. Whatever stays is as it was, and so are the counts. -/
def Cache.without (binding : Nat) (c : TemplateCache) : TemplateCache :=
  { c with entries := c.entries.filter fun e => e.key.binding ≠ binding }

/-- The number of handles on a binding. There is none on a binding that is not there. -/
def Workshop.handles (s : Workshop σ) (binding : Nat) : Nat :=
  match s.bindings[binding]? with
  | some b => b.handles
  | none => 0

/-- There is a handle on the binding that the errand uses. -/
def Errand.IsPossible (s : Workshop σ) : Errand σ → Prop
  | clone binding | call binding _ _ | compiled binding _ | drop binding => 0 < s.handles binding
  | _ => True

instance (s : Workshop σ) : (errand : Errand σ) → Decidable (errand.IsPossible s)
  | .clone binding | .call binding _ _ | .compiled binding _ | .drop binding =>
    inferInstanceAs (Decidable (0 < s.handles binding))
  | .addCache _ _ _ | .bind _ _ _ | .clear _ | .wait _ => inferInstanceAs (Decidable True)

namespace Workshop

/-! ## Runs, watched -/

/-- Each errand of the run is possible when its turn comes. -/
def IsPossibleAll : List (Errand σ) → σ → Workshop σ → Prop
  | [], _, _ => True
  | errand :: rest, host, s =>
    errand.IsPossible s ∧
      IsPossibleAll rest (s.perform errand host).2.1 (s.perform errand host).2.2

instance decidableIsPossibleAll : (errands : List (Errand σ)) → (host : σ) → (s : Workshop σ) →
    Decidable (s.IsPossibleAll errands host)
  | [], _, _ => inferInstanceAs (Decidable True)
  | errand :: rest, host, s =>
    let _ := decidableIsPossibleAll rest (s.perform errand host).2.1 (s.perform errand host).2.2
    inferInstanceAs (Decidable (errand.IsPossible s ∧ IsPossibleAll rest _ _))

/-- The workshop at each moment of a run, before the first errand and after each. -/
def moments : List (Errand σ) → σ → Workshop σ → List (Workshop σ)
  | [], _, s => [s]
  | errand :: rest, host, s =>
    s :: moments rest (s.perform errand host).2.1 (s.perform errand host).2.2

/-- The number that an errand gives out, if it makes a binding. -/
def issuedBy (s : Workshop σ) : Errand σ → List Nat
  | .bind factory cache config => [(s.bind { factory, cache, config }).1]
  | _ => []

/-- The numbers that a run gives out, in order. -/
def issued : List (Errand σ) → σ → Workshop σ → List Nat
  | [], _, _ => []
  | errand :: rest, host, s =>
    s.issuedBy errand ++ issued rest (s.perform errand host).2.1 (s.perform errand host).2.2

/-- The binding is bound to the cache, it caches, and there is a handle on it. -/
def Owns (s : Workshop σ) (cache binding : Nat) : Prop :=
  ∃ b, s.bindings[binding]? = some b ∧ b.cache = cache ∧ b.config.cacheMode = .normal ∧ 0 < b.handles

/-- Every entry of every cache belongs to a binding that owns entries there. -/
def Tended (s : Workshop σ) : Prop :=
  ∀ cache, ∀ e ∈ (s.cache cache).entries, s.Owns cache e.key.binding

variable {s t : Workshop σ}

/-! ## Caches and bindings -/

/-- A binding with a handle is there. -/
theorem exists_of_handles {binding : Nat} (h : 0 < s.handles binding) :
    ∃ b, s.bindings[binding]? = some b ∧ 0 < b.handles := by
  simp only [handles] at h
  split at h
  · exact ⟨_, ‹_›, h⟩
  · cases h

theorem cache_of_caches (h : t.caches = s.caches) (cache : Nat) : t.cache cache = s.cache cache := by
  simp only [Workshop.cache, h]

/-- After one cache is replaced, each cache is the old one, or it is the one replaced. -/
theorem cache_set (s : Workshop σ) (cache other : Nat) (c : TemplateCache) :
    ({ s with caches := s.caches.set cache c } : Workshop σ).cache other = s.cache other ∨
      other = cache ∧ ({ s with caches := s.caches.set cache c } : Workshop σ).cache other = c := by
  by_cases h : cache = other ∧ other < s.caches.length
  · obtain ⟨rfl, hlt⟩ := h
    refine .inr ⟨rfl, ?_⟩
    simp only [Workshop.cache, List.getD_eq_getElem?_getD, List.getElem?_set_self hlt, Option.getD_some]
  · refine .inl ?_
    simp only [Workshop.cache, List.getD_eq_getElem?_getD, List.getElem?_set]
    split
    · rename_i heq
      have hge : s.caches[other]? = none :=
        List.getElem?_eq_none (Nat.le_of_not_lt fun hlt => h ⟨heq, hlt⟩)
      rw [if_neg fun hlt => h ⟨heq, heq ▸ hlt⟩, hge]
    · rfl

/-- A cache that is replaced by what is made of it is modified. -/
theorem set_cache (s : Workshop σ) (cache : Nat) (f : TemplateCache → TemplateCache) :
    s.caches.set cache (f (s.cache cache)) = s.caches.modify cache f := by
  refine List.ext_getElem? fun n => ?_
  simp only [List.getElem?_set, List.getElem?_modify, Workshop.cache, List.getD_eq_getElem?_getD]
  by_cases hn : cache = n
  · subst hn
    cases hc : s.caches[cache]? with
    | none => simp [List.getElem?_eq_none_iff.mp hc]
    | some c => simp [(List.getElem?_eq_some_iff.mp hc).1]
  · simp [hn]

/-- Bindings that stay, and lose no handle, own what they owned. -/
theorem Owns.mono {cache binding : Nat} (h : s.Owns cache binding)
    (hstay : ∀ b, s.bindings[binding]? = some b → 0 < b.handles →
      ∃ b', t.bindings[binding]? = some b' ∧ b'.cache = b.cache ∧ b'.config = b.config ∧
        0 < b'.handles) : t.Owns cache binding := by
  obtain ⟨b, hb, hcache, hmode, hhandles⟩ := h
  obtain ⟨b', hb', hcache', hconfig', hhandles'⟩ := hstay b hb hhandles
  exact ⟨b', hb', hcache'.trans hcache, hconfig' ▸ hmode, hhandles'⟩

theorem Owns.of_bindings {cache binding : Nat} (h : s.Owns cache binding)
    (hbindings : t.bindings = s.bindings) : t.Owns cache binding :=
  h.mono fun b hb hhandles => ⟨b, hbindings ▸ hb, rfl, rfl, hhandles⟩

/-- What has no more entries, and the same bindings, is as tended. -/
theorem Tended.of_subset (h : s.Tended) (hbindings : t.bindings = s.bindings)
    (hentries : ∀ cache, ∀ e ∈ (t.cache cache).entries, ∃ f ∈ (s.cache cache).entries,
      f.key = e.key) : t.Tended := by
  intro cache e he
  obtain ⟨f, hf, hkey⟩ := hentries cache e he
  exact hkey ▸ (h cache f hf).of_bindings hbindings

theorem Tended.of_eq (h : s.Tended) (hcaches : t.caches = s.caches)
    (hbindings : t.bindings = s.bindings) : t.Tended :=
  h.of_subset hbindings fun cache e he => ⟨e, cache_of_caches hcaches cache ▸ he, rfl⟩

/-- Replacing a cache tends it if the new entries are owned. -/
theorem Tended.set {cache : Nat} {c : TemplateCache} (h : s.Tended)
    (hc : ∀ e ∈ c.entries, s.Owns cache e.key.binding) :
    ({ s with caches := s.caches.set cache c } : Workshop σ).Tended := by
  intro other e he
  rcases cache_set s cache other c with hold | ⟨rfl, hnew⟩
  · rw [hold] at he
    exact (h other e he).of_bindings rfl
  · rw [hnew] at he
    exact (hc e he).of_bindings rfl

/-- Entries that a cache holds are owned. -/
theorem Tended.owns {cache : Nat} {key : TemplateKey} {serial : Nat} (h : s.Tended)
    (hholds : (s.cache cache).Holds key serial) : s.Owns cache key.binding := by
  obtain ⟨e, he, rfl, -⟩ := hholds
  exact h cache e he

/-! ## Errands -/

theorem Tended.addCache (h : s.Tended) {c : TemplateCache} (hc : c.entries = []) :
    (s.addCache c).2.Tended := by
  refine h.of_subset rfl fun cache e he => ?_
  simp only [Workshop.cache, Workshop.addCache, List.getD_eq_getElem?_getD] at he ⊢
  by_cases hlt : cache < s.caches.length
  · rw [List.getElem?_append_left hlt] at he
    exact ⟨e, he, rfl⟩
  · -- a new cache has no entry, nor has one that is not there
    rw [List.getElem?_append_right (Nat.le_of_not_lt hlt)] at he
    cases hn : [c][cache - s.caches.length]? with
    | none =>
      rw [hn] at he
      cases he
    | some d =>
      rw [hn, Option.getD_some, List.mem_singleton.mp (List.mem_of_getElem? hn), hc] at he
      cases he

theorem Tended.bind (h : s.Tended) (b : Binding σ) : (s.bind b).2.Tended := by
  intro cache e he
  refine (h cache e he).mono fun b' hb' hhandles => ⟨b', ?_, rfl, rfl, hhandles⟩
  exact List.getElem?_append_left (List.getElem?_eq_some_iff.mp hb').1 ▸ hb'

theorem Tended.hold (h : s.Tended) (binding : Nat) : (s.hold binding).Tended := by
  intro cache e he
  refine (h cache e he).mono fun b hb hhandles => ?_
  simp only [Workshop.hold, List.getElem?_modify, hb, Option.map_eq_map, Option.map_some]
  refine ⟨_, rfl, ?_⟩
  split
  · exact ⟨rfl, rfl, Nat.succ_pos _⟩
  · exact ⟨rfl, rfl, hhandles⟩

theorem Tended.clear (h : s.Tended) (cache : Nat) : (s.clear cache).Tended :=
  h.set fun _ he => by cases he

theorem Tended.compile (h : s.Tended) (parts : List String) : (s.compile parts).2.2.Tended :=
  h.of_eq rfl rfl

/-- A lookup adds an entry for its own binding only. -/
theorem Tended.obtain (h : s.Tended) {cache : Nat} {key : TemplateKey}
    (howns : s.Owns cache key.binding) (parts : List String) :
    (s.obtain cache key (·.compile parts)).2.2.Tended := by
  have hlookup : ({ s with
      caches := s.caches.set cache ((s.cache cache).get s.age key).2 } : Workshop σ).Tended :=
    h.set fun e he => h.owns (Cache.Holds.of_get ⟨e, he, rfl, rfl⟩)
  simp only [Workshop.obtain]
  split
  · exact hlookup
  · have hcompile := hlookup.compile parts
    split
    · exact hcompile
    · refine hcompile.set fun e he => ?_
      have hheld : Cache.Holds _ e.key e.value := ⟨e, he, rfl, rfl⟩
      rcases hheld.of_insert with hold | ⟨hkey, -⟩
      · exact hcompile.owns hold
      · rw [hkey]
        exact howns.of_bindings rfl

theorem Tended.compiledFor (h : s.Tended) {binding : Nat} (statics : Statics)
    (hpossible : 0 < s.handles binding) :
    (s.compiledFor binding statics).2.2.Tended := by
  obtain ⟨b, hb, hhandles⟩ := exists_of_handles hpossible
  simp only [Workshop.compiledFor, hb]
  cases hmode : b.config.cacheMode with
  | none => exact h.compile statics.parts
  | normal => exact h.obtain ⟨b, hb, rfl, hmode, hhandles⟩ statics.parts

/-- Evaluation leaves caches and bindings alone. -/
theorem Tended.call (h : s.Tended) {binding : Nat} (statics : Statics) (values : List Value)
    (host : σ) (hpossible : 0 < s.handles binding) :
    (s.call binding statics values host).2.2.2.Tended := by
  have hcompiled := h.compiledFor statics hpossible
  obtain ⟨b, hb, -⟩ := exists_of_handles hpossible
  simp only [Workshop.call, hb]
  exact hcompiled.of_eq rfl rfl

/-! ## Giving handles back -/

/-- Any handle but the last leaves the caches alone. -/
theorem caches_release {binding : Nat} {b : Binding σ} (hb : s.bindings[binding]? = some b)
    (hmore : 1 < b.handles) : (s.release binding).2.caches = s.caches := by
  simp only [Workshop.release, hb, if_neg (Nat.ne_of_gt hmore)]

/-- The last handle takes the entries of its binding out of the binding's cache, and nothing else. -/
theorem caches_release_last {binding : Nat} {b : Binding σ} (hb : s.bindings[binding]? = some b)
    (hlast : b.handles = 1) :
    (s.release binding).2.caches = s.caches.modify b.cache (Cache.without binding) := by
  simp only [Workshop.release, hb, if_pos hlast]
  exact set_cache s b.cache (Cache.without binding)

/-- In tended caches, the last handle leaves no entry of its binding anywhere. -/
theorem Tended.ne_of_release_last (h : s.Tended) {binding : Nat} {b : Binding σ}
    (hb : s.bindings[binding]? = some b) (hlast : b.handles = 1) (cache : Nat) :
    ∀ e ∈ ((s.release binding).2.cache cache).entries,
      e ∈ (s.cache cache).entries ∧ e.key.binding ≠ binding := by
  intro e he
  simp only [Workshop.cache, caches_release_last hb hlast, List.getD_eq_getElem?_getD,
    List.getElem?_modify] at he ⊢
  cases hc : s.caches[cache]? with
  | none =>
    rw [hc] at he
    cases he
  | some c =>
    rw [hc] at he
    by_cases hown : b.cache = cache
    · have hmem : e ∈ (c.without binding).entries := by simpa [hown] using he
      obtain ⟨hold, hne⟩ := List.mem_filter.mp hmem
      exact ⟨hold, of_decide_eq_true hne⟩
    · have hmem : e ∈ c.entries := by simpa [hown] using he
      refine ⟨hmem, fun heq => ?_⟩
      -- an entry of the binding would be in its own cache
      have hcache : s.cache cache = c := by
        simp only [Workshop.cache, List.getD_eq_getElem?_getD, hc, Option.getD_some]
      obtain ⟨b', hb', hcache', -⟩ := h cache e (hcache.symm ▸ hmem)
      rw [heq, hb] at hb'
      cases hb'
      exact hown hcache'

theorem Tended.release (h : s.Tended) {binding : Nat}
    (hpossible : 0 < s.handles binding) :
    (s.release binding).2.Tended := by
  obtain ⟨b, hb, hhandles⟩ := exists_of_handles hpossible
  have hbindings : (s.release binding).2.bindings =
      s.bindings.set binding { b with handles := b.handles - 1 } := by
    simp only [Workshop.release, hb]
    split <;> rfl
  by_cases hlast : b.handles = 1
  · intro cache e he
    obtain ⟨hold, hne⟩ := h.ne_of_release_last hb hlast cache e he
    refine (h cache e hold).mono fun b' hb' hhandles' => ⟨b', ?_, rfl, rfl, hhandles'⟩
    rw [hbindings, List.getElem?_set_ne (Ne.symm hne), hb']
  · have hmore : 1 < b.handles := by omega
    intro cache e he
    rw [cache_of_caches (caches_release hb hmore)] at he
    refine (h cache e he).mono fun b' hb' hhandles' => ?_
    rw [hbindings, List.getElem?_set]
    split
    · rename_i heq
      rw [if_pos (List.getElem?_eq_some_iff.mp hb).1]
      rw [← heq, hb] at hb'
      cases hb'
      exact ⟨_, rfl, rfl, rfl, Nat.sub_pos_of_lt hmore⟩
    · exact ⟨b', hb', rfl, rfl, hhandles'⟩

/-! ## Runs -/

/-- A possible errand leaves the caches tended. -/
theorem Tended.perform (h : s.Tended) {errand : Errand σ} (hpossible : errand.IsPossible s) (host : σ) :
    (s.perform errand host).2.2.Tended := by
  cases errand with
  | addCache capacity lifetime eviction => exact h.addCache rfl
  | bind factory cache config => exact h.bind _
  | clone binding => exact h.hold binding
  | call binding statics values => exact h.call statics values host hpossible
  | compiled binding statics => exact h.compiledFor statics hpossible
  | clear cache => exact h.clear cache
  | drop binding => exact h.release hpossible
  | wait time => exact h.of_eq rfl rfl

theorem Tended.moments {errands : List (Errand σ)} (h : s.Tended) {host : σ}
    (hpossible : s.IsPossibleAll errands host) : ∀ t ∈ s.moments errands host, t.Tended := by
  induction errands generalizing s host with
  | nil =>
    intro t ht
    exact List.mem_singleton.mp ht ▸ h
  | cons errand rest ih =>
    intro t ht
    rcases List.mem_cons.mp ht with rfl | ht
    · exact h
    · exact ih (h.perform hpossible.1 host) hpossible.2 t ht

theorem tended_opening : (opening : Workshop σ).Tended := fun _ _ he => by cases he

/-- Compiling and evaluating keep the bindings. -/
theorem bindings_compiledFor (s : Workshop σ) (binding : Nat) (statics : Statics) :
    (s.compiledFor binding statics).2.2.bindings = s.bindings := by
  simp only [Workshop.compiledFor, Workshop.obtain]
  repeat' split
  all_goals rfl

/-- A call evaluates what it was given, which leaves caches and bindings alone. -/
theorem perform_call {binding : Nat} {b : Binding σ} (hb : s.bindings[binding]? = some b) (statics : Statics)
    (values : List Value) (host : σ) :
    ∃ templates, (s.perform (.call binding statics values) host).2.2 =
        { (s.compiledFor binding statics).2.2 with templates } ∧
      templates.length = (s.compiledFor binding statics).2.2.templates.length := by
  simp only [Workshop.perform, Workshop.call, hb]
  exact ⟨_, rfl, List.length_set⟩

/-- The bindings grow by those that are made. -/
theorem length_bindings_perform (s : Workshop σ) (errand : Errand σ) (host : σ) :
    (s.perform errand host).2.2.bindings.length = s.bindings.length + (s.issuedBy errand).length := by
  cases errand with
  | addCache | clear | wait => rfl
  | bind factory cache config => exact List.length_append
  | clone binding => exact List.length_modify ..
  | compiled binding statics => exact congrArg List.length (bindings_compiledFor s binding statics)
  | call binding statics values =>
    have hbindings := bindings_compiledFor s binding statics
    simp only [Workshop.perform, Workshop.call, issuedBy, List.length_nil, Nat.add_zero]
    split
    · exact congrArg List.length hbindings
    · rfl
  | drop binding =>
    have hfactories := congrArg List.length (factories_release (s := s) binding)
    simp only [factories, List.length_map] at hfactories
    exact hfactories

/-- The numbers that a run gives out count up from the number of bindings there are. -/
theorem issued_eq_range' (errands : List (Errand σ)) (host : σ) (s : Workshop σ) :
    ∃ count, issued errands host s = List.range' s.bindings.length count := by
  induction errands generalizing host s with
  | nil => exact ⟨0, rfl⟩
  | cons errand rest ih =>
    obtain ⟨count, hrest⟩ := ih (s.perform errand host).2.1 (s.perform errand host).2.2
    rw [length_bindings_perform] at hrest
    rw [issued, hrest]
    cases errand with
    | bind factory cache config => exact ⟨count + 1, List.range'_succ.symm⟩
    | _ => exact ⟨count, rfl⟩

/-- **Entries live as long as their binding.** At every moment of a possible run each entry belongs to
a binding that is bound to its cache, that caches, and on which there is a handle. A handle that is
given back changes no cache, unless it is the last one on its binding: then it takes exactly the
entries of the binding out of the binding's cache, and there are no others anywhere. No two bindings
that the run makes have the same number. -/
theorem moments_tended (errands : List (Errand σ)) (host : σ)
    (hpossible : opening.IsPossibleAll errands host) :
    (∀ s ∈ opening.moments errands host, s.Tended ∧
      ∀ (binding : Nat) (b : Binding σ) (host : σ), s.bindings[binding]? = some b →
        (1 < b.handles → (s.perform (.drop binding) host).2.2.caches = s.caches) ∧
        (b.handles = 1 →
          (s.perform (.drop binding) host).2.2.caches =
            s.caches.modify b.cache (Cache.without binding) ∧
          ∀ cache, ∀ e ∈ ((s.perform (.drop binding) host).2.2.cache cache).entries,
            e.key.binding ≠ binding)) ∧
    (issued errands host opening).Nodup := by
  refine ⟨fun s hs => ?_, ?_⟩
  · have htended : s.Tended := tended_opening.moments hpossible s hs
    refine ⟨htended, fun binding b host hb => ⟨fun hmore => caches_release hb hmore, ?_⟩⟩
    intro hlast
    exact ⟨caches_release_last hb hlast, fun cache e he =>
      (htended.ne_of_release_last hb hlast cache e he).2⟩
  · obtain ⟨count, hissued⟩ := issued_eq_range' errands host opening
    rw [hissued]
    exact List.nodup_range'

/-- Two bindings share a small cache, and a third has its own. There are two handles on the first, and
both are given back while the others go on. -/
def tenancy : List (Errand Bench) :=
  let row : Statics := ⟨"row", ["<p>", "</p>"]⟩
  let cell : Statics := ⟨"cell", ["<i>y</i>"]⟩
  [.addCache (some 2) (some 9) .leastRecent, .addCache none none .firstIn,
    .bind Factory.element 0 {}, .bind Factory.element 0 {}, .bind Factory.element 1 {}, .clone 0,
    .call 0 row [.null], .call 1 row [.null], .call 2 cell [], .drop 0, .call 0 cell [], .wait 4,
    .drop 0, .compiled 1 cell, .clear 1, .drop 2]

/-- The entries of both caches, by binding, at each moment of the run. -/
theorem moments_tended_tenancy :
    opening.IsPossibleAll tenancy {} ∧
      (opening.moments tenancy {}).map (fun s =>
        s.caches.map fun c => c.entries.map (·.key.binding)) =
        [[], [[]], [[], []], [[], []], [[], []], [[], []], [[], []], [[0], []], [[0, 1], []],
          [[0, 1], [2]], [[0, 1], [2]], [[1, 0], [2]], [[1, 0], [2]], [[1], [2]], [[1, 1], [2]],
          [[1, 1], []], [[1, 1], []]] ∧
      (∀ s ∈ opening.moments tenancy {}, s.Tended) ∧ (issued tenancy {} opening).Nodup := by
  have hpossible : opening.IsPossibleAll tenancy {} := of_decide_eq_true (by cbv)
  obtain ⟨hmoments, hissued⟩ := moments_tended tenancy {} hpossible
  exact ⟨hpossible, by cbv, fun s hs => (hmoments s hs).1, hissued⟩

end Workshop

end TaggedMarkup
