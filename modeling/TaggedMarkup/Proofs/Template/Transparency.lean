import TaggedMarkup.Proofs.Cache.Contents
import TaggedMarkup.Proofs.Template.Folding
import TaggedMarkup.Template.Workshop

/-!
# Caches do not show

A run of a workshop makes caches and bindings, uses templates, and clears caches and releases
bindings as it goes, while time passes. Beside it stands the run **afresh**, which has neither
caches nor kept values: each call compiles the parts and evaluates them with the factory of its
binding.

The main statement is that both give the same structures, call by call, if one identity always
stands for the same parts and the factories are pure. The invariant says of every pair that some
cache holds that the template was compiled from the parts of its identity and that what is folded in
it is sound for the factory of its binding; and that a template is held for one binding only, so no
other factory's values get into it.
-/

namespace TaggedMarkup

open Value

/-- What can be done with a workshop. -/
inductive Errand (σ : Type) where
  | addCache (capacity lifetime : Option Nat) (eviction : Eviction)
  | bind (factory : Factory σ) (cache : Nat) (config : TemplateConfig)
  /-- take one more handle on a binding -/
  | clone (binding : Nat)
  | call (binding : Nat) (statics : Statics) (values : List Value)
  /-- ask for the compiled form only -/
  | compiled (binding : Nat) (statics : Statics)
  | clear (cache : Nat)
  /-- give one handle on a binding back -/
  | drop (binding : Nat)
  | wait (time : Nat)

namespace Errand

variable {σ : Type}

/-- The identity of a template stands for its parts, and factories are pure. -/
def Fair (partsOf : String → List String) : Errand σ → Prop
  | bind factory _ _ => factory.IsPure
  | call _ statics _ | compiled _ statics => statics.parts = partsOf statics.id
  | _ => True

/-- The value of a template that is compiled and evaluated for this use only. -/
def valueAfresh (factory : Factory σ) (statics : Statics) (values : List Value) (host : σ) : Value :=
  let setting : Setting σ := { template := 0, factory, fold := false, values }
  (setting.evaluate (Template.compile statics.parts) [] host).1

/-- The factories that are bound afterwards. -/
def bound : Errand σ → List (Factory σ) → List (Factory σ)
  | bind factory _ _, factories => factories ++ [factory]
  | _, factories => factories

/-- The value of a call that uses nothing but the factory of its binding. -/
def resultAfresh (host : σ) (factories : List (Factory σ)) : Errand σ → Option Value
  | call binding statics values =>
    some (match factories[binding]? with
      | some factory => valueAfresh factory statics values host
      | none => .undefined)
  | _ => none

/-- The values of the calls of a run without caches, given the factories that are bound already. -/
def valuesAfresh (host : σ) : List (Factory σ) → List (Errand σ) → List Value
  | _, [] => []
  | factories, errand :: rest =>
    (errand.resultAfresh host factories).toList ++ valuesAfresh host (errand.bound factories) rest

end Errand

namespace Workshop

variable {σ : Type}

/-- A workshop without caches and bindings. The first cache that is added is the shared one. -/
def opening : Workshop σ := { caches := [] }

/-- Run one errand. A call gives a value. -/
def perform : Errand σ → σ → Workshop σ → Option Value × σ × Workshop σ
  | .addCache capacity lifetime eviction, host, s =>
    (none, host, (s.addCache { capacity, lifetime, eviction }).2)
  | .bind factory cache config, host, s => (none, host, (s.bind { factory, cache, config }).2)
  | .clone binding, host, s => (none, host, s.hold binding)
  | .call binding statics values, host, s =>
    let (value, host, _, s) := s.call binding statics values host
    (some value, host, s)
  | .compiled binding statics, host, s => (none, host, (s.compiledFor binding statics).2.2)
  | .clear cache, host, s => (none, host, s.clear cache)
  | .drop binding, host, s => (none, host, (s.release binding).2)
  | .wait time, host, s => (none, host, s.wait time)

/-- Run errands, one after the other. The values of the calls come out in order. -/
def performAll : List (Errand σ) → σ → Workshop σ → List Value × σ × Workshop σ
  | [], host, s => ([], host, s)
  | errand :: rest, host, s =>
    let (value, host, s) := s.perform errand host
    let (values, host, s) := s.performAll rest host
    (value.toList ++ values, host, s)

/-- The factories that are bound, by the number of their binding. -/
def factories (s : Workshop σ) : List (Factory σ) := s.bindings.map (·.factory)

/-! ## The invariant -/

/-- Some cache holds the template with this serial number at this key. -/
def Holding (s : Workshop σ) (key : TemplateKey) (serial : Nat) : Prop :=
  ∃ c ∈ s.caches, c.Holds key serial

/-- The template with this serial number is what its key says, and what is folded in it is sound for
the factory of the binding. -/
def KeptFor (partsOf : String → List String) (s : Workshop σ) (key : TemplateKey) (serial : Nat) :
    Prop :=
  ∃ b c, s.bindings[key.binding]? = some b ∧ s.templates[serial]? = some c ∧
    c.template = Template.compile (partsOf key.id) ∧
    Setting.FoldsSound b.factory (Op.blocksOfAll c.template.root) c.folds

/-- Whatever the caches hold may be used. -/
structure Sound (partsOf : String → List String) (s : Workshop σ) : Prop where
  pure : ∀ b ∈ s.bindings, b.factory.IsPure
  kept : ∀ {key serial}, s.Holding key serial → s.KeptFor partsOf key serial
  /-- no two bindings share a template -/
  owned : ∀ {key key' serial}, s.Holding key serial → s.Holding key' serial →
    key.binding = key'.binding

variable {partsOf : String → List String} {s : Workshop σ}

theorem holding_of_cache {cache : Nat} {key : TemplateKey} {serial : Nat}
    (h : (s.cache cache).Holds key serial) : s.Holding key serial := by
  unfold Workshop.cache at h
  rw [List.getD_eq_getElem?_getD] at h
  cases hc : s.caches[cache]? with
  | none =>
    rw [hc] at h
    obtain ⟨e, he, -⟩ := h
    cases he
  | some c =>
    rw [hc] at h
    exact ⟨c, List.mem_of_getElem? hc, h⟩

/-- After one cache is replaced, what is held was held before or is held by the new cache. -/
theorem Holding.of_set {cache : Nat} {d : TemplateCache} {key : TemplateKey} {serial : Nat}
    (h : ({ s with caches := s.caches.set cache d } : Workshop σ).Holding key serial) :
    s.Holding key serial ∨ d.Holds key serial := by
  obtain ⟨c, hc, hholds⟩ := h
  rcases List.mem_or_eq_of_mem_set hc with hold | rfl
  · exact .inl ⟨c, hold, hholds⟩
  · exact .inr hholds

/-- Templates and factories that stay where they are keep what was right. -/
theorem KeptFor.mono {t : Workshop σ} {key : TemplateKey} {serial : Nat}
    (h : s.KeptFor partsOf key serial)
    (hbindings : ∀ (n : Nat) (b : Binding σ), s.bindings[n]? = some b →
      ∃ b', t.bindings[n]? = some b' ∧ b'.factory = b.factory)
    (htemplates : ∀ (n : Nat) (c : Compiled), s.templates[n]? = some c → t.templates[n]? = some c) :
    t.KeptFor partsOf key serial := by
  obtain ⟨b, c, hb, hc, hcompiled, hfolds⟩ := h
  obtain ⟨b', hb', hfactory⟩ := hbindings _ _ hb
  exact ⟨b', c, hb', htemplates _ _ hc, hcompiled, hfactory ▸ hfolds⟩

/-- Whatever has the same bindings keeps their factories. -/
theorem factories_of_eq {t : Workshop σ} (h : t.bindings = s.bindings) (n : Nat) (b : Binding σ)
    (hb : s.bindings[n]? = some b) : ∃ b', t.bindings[n]? = some b' ∧ b'.factory = b.factory := by
  rw [h]
  exact ⟨b, hb, rfl⟩

/-- A workshop that holds less, with the same templates and bindings, is as sound. -/
theorem Sound.of_holding {t : Workshop σ} (h : s.Sound partsOf) (hbindings : t.bindings = s.bindings)
    (htemplates : t.templates = s.templates)
    (hholding : ∀ {key serial}, t.Holding key serial → s.Holding key serial) :
    t.Sound partsOf where
  pure := hbindings.symm ▸ h.pure
  kept hh := (h.kept (hholding hh)).mono (factories_of_eq hbindings)
    (fun _ _ hc => htemplates.symm ▸ hc)
  owned hh hh' := h.owned (hholding hh) (hholding hh')

/-- Held templates exist. -/
theorem Sound.lt_of_holding (h : s.Sound partsOf) {key : TemplateKey} {serial : Nat}
    (hh : s.Holding key serial) : serial < s.templates.length := by
  obtain ⟨-, c, -, hc, -⟩ := h.kept hh
  exact (List.getElem?_eq_some_iff.mp hc).1

/-! ## Getting a compiled template -/

/-- A template was got for a key: it may be used there, and no other binding has it. -/
structure Got (partsOf : String → List String) (s : Workshop σ) (key : TemplateKey) (serial : Nat)
    (t : Workshop σ) : Prop where
  sound : t.Sound partsOf
  kept : t.KeptFor partsOf key serial
  owned : ∀ {key'}, t.Holding key' serial → key'.binding = key.binding
  bindings : t.bindings = s.bindings

theorem Sound.compile (h : s.Sound partsOf) (parts : List String) :
    (s.compile parts).2.2.Sound partsOf where
  pure := h.pure
  kept hh := (h.kept hh).mono (factories_of_eq rfl)
    (fun _ _ hc => List.getElem?_append_left (List.getElem?_eq_some_iff.mp hc).1 ▸ hc)
  owned hh hh' := h.owned hh hh'

theorem Sound.got_compile (h : s.Sound partsOf) {key : TemplateKey} {b : Binding σ}
    (hb : s.bindings[key.binding]? = some b) :
    s.Got partsOf key (s.compile (partsOf key.id)).1 (s.compile (partsOf key.id)).2.2 where
  sound := h.compile _
  kept := ⟨b, ⟨Template.compile (partsOf key.id), []⟩, hb, List.getElem?_concat_length, rfl,
    Setting.foldsSound_nil _ _⟩
  owned hh := absurd (h.lt_of_holding hh) (Nat.lt_irrefl _)
  bindings := rfl

/-- What a cache holds at the key was got already. -/
theorem Sound.got_held (h : s.Sound partsOf) {key : TemplateKey} {serial : Nat}
    (hh : s.Holding key serial) : s.Got partsOf key serial s :=
  ⟨h, h.kept hh, fun hh' => h.owned hh' hh, rfl⟩

/-- A template that no binding has may be put into a cache. -/
theorem Got.insert {t : Workshop σ} {key : TemplateKey} {serial : Nat}
    (h : s.Got partsOf key serial t) (hnew : ∀ {key'}, ¬ t.Holding key' serial) (cache : Nat) :
    s.Got partsOf key serial
      { t with caches := t.caches.set cache ((t.cache cache).insert t.age key serial).2 } := by
  have hholding : ∀ {key' serial'}, ({ t with
      caches := t.caches.set cache ((t.cache cache).insert t.age key serial).2 } :
        Workshop σ).Holding key' serial' →
      t.Holding key' serial' ∨ (key' = key ∧ serial' = serial) := by
    intro key' serial' hh
    rcases hh.of_set with hold | hinserted
    · exact .inl hold
    · exact (hinserted.of_insert).imp_left holding_of_cache
  refine ⟨⟨h.sound.pure, ?_, ?_⟩, h.kept, ?_, h.bindings⟩
  · intro key' serial' hh
    rcases hholding hh with hold | ⟨rfl, rfl⟩
    · exact h.sound.kept hold
    · exact h.kept
  · intro key' key'' serial' hh hh'
    rcases hholding hh with hold | ⟨rfl, rfl⟩
    · rcases hholding hh' with hold' | ⟨rfl, rfl⟩
      · exact h.sound.owned hold hold'
      · exact absurd hold hnew
    · rcases hholding hh' with hold' | ⟨rfl, -⟩
      · exact absurd hold' hnew
      · rfl
  · intro key' hh
    rcases hholding hh with hold | ⟨rfl, -⟩
    · exact h.owned hold
    · rfl

theorem Sound.got_obtain (h : s.Sound partsOf) {key : TemplateKey} {b : Binding σ}
    (hb : s.bindings[key.binding]? = some b) (cache : Nat) :
    let r := s.obtain cache key (·.compile (partsOf key.id))
    s.Got partsOf key r.1 r.2.2 := by
  -- the lookup changes what the cache counts, and may drop an entry
  have hlookup : ({ s with
      caches := s.caches.set cache ((s.cache cache).get s.age key).2 } : Workshop σ).Sound
        partsOf := by
    refine h.of_holding rfl rfl fun hh => ?_
    rcases hh.of_set with hold | hgot
    · exact hold
    · exact holding_of_cache hgot.of_get
  unfold Workshop.obtain
  dsimp only
  cases hf : ((s.cache cache).get s.age key).1 with
  | some serial =>
    have hh : s.Holding key serial := holding_of_cache (Cache.holds_of_get hf)
    refine ⟨hlookup, (h.kept hh).mono (factories_of_eq rfl) (fun _ _ hc => hc), ?_, rfl⟩
    intro key' hh'
    rcases hh'.of_set with hold | hgot
    · exact h.owned hold hh
    · exact h.owned (holding_of_cache hgot.of_get) hh
  | none =>
    dsimp only
    have hcompile := hlookup.got_compile hb
    split
    · rename_i first hpeek
      have hfirst := hcompile.sound.got_held (holding_of_cache (Cache.holds_of_peek hpeek))
      exact ⟨hfirst.sound, hfirst.kept, hfirst.owned, rfl⟩
    · have hnew : ∀ {key'}, ¬ Workshop.Holding _ key' _ := fun hh =>
        absurd (hlookup.lt_of_holding hh) (Nat.lt_irrefl _)
      have hinsert := hcompile.insert hnew cache
      exact ⟨hinsert.sound, hinsert.kept, hinsert.owned, rfl⟩

theorem Sound.got_compiledFor (h : s.Sound partsOf) {binding : Nat} {b : Binding σ}
    (hb : s.bindings[binding]? = some b) {statics : Statics}
    (hparts : statics.parts = partsOf statics.id) :
    let r := s.compiledFor binding statics
    s.Got partsOf ⟨binding, statics.id⟩ r.1 r.2.2 := by
  unfold Workshop.compiledFor
  rw [hb, hparts]
  dsimp only
  cases b.config.cacheMode with
  | none => exact h.got_compile hb
  | normal => exact h.got_obtain hb b.cache

/-! ## Evaluating it -/

/-- With a template that was got, the value is the one afresh, and whatever is folded is sound for the
binding that has the template. -/
theorem Got.evaluate {t : Workshop σ} {key : TemplateKey} {serial : Nat} {b : Binding σ}
    (h : s.Got partsOf key serial t) (hb : s.bindings[key.binding]? = some b) (statics : Statics)
    (hparts : statics.parts = partsOf key.id) (values : List Value) (host host' : σ) :
    let r := t.evaluate b.factory b.config.fold serial values host
    r.1.plain = (Errand.valueAfresh b.factory statics values host').plain ∧
      r.2.2.2.Sound partsOf ∧ r.2.2.2.bindings = s.bindings := by
  obtain ⟨b', c, hb', hc, hcompiled, hfolds⟩ := h.kept
  rw [h.bindings, hb] at hb'
  cases hb'
  have hpure : b.factory.IsPure := h.sound.pure b (h.bindings ▸ List.mem_of_getElem? hb)
  have hserial : t.compiled serial = c := by
    rw [Workshop.compiled, List.getD_eq_getElem?_getD, hc, Option.getD_some]
  have hnodup : (Op.numbersOfAll c.template.root).Nodup :=
    hcompiled ▸ Template.nodup_numbers_compile _
  obtain ⟨hvalue, hkept⟩ := Setting.evaluate_folding
    (s := { template := serial, factory := b.factory, fold := b.config.fold, values })
    (t := { template := 0, factory := b.factory, fold := false, values })
    hpure ⟨rfl, rfl, rfl⟩ hnodup hfolds host host'
  unfold Workshop.evaluate
  rw [hserial]
  refine ⟨?_, ⟨h.sound.pure, ?_, h.sound.owned⟩, h.bindings⟩
  · rw [Errand.valueAfresh, hparts, ← hcompiled]
    exact hvalue
  · intro key' serial' hh
    obtain ⟨b', c', hb', hc', hcompiled', hfolds'⟩ := h.sound.kept hh
    by_cases hs : serial' = serial
    · -- every key that leads to this template has the same binding
      subst hs
      rw [h.owned hh, h.bindings, hb] at hb'
      cases hb'
      rw [hc] at hc'
      cases hc'
      refine ⟨b, _, ?_, List.getElem?_set_self (List.getElem?_eq_some_iff.mp hc).1, hcompiled', hkept⟩
      rw [h.owned hh, h.bindings, hb]
    · exact ⟨b', c', hb', by rw [List.getElem?_set_ne (Ne.symm hs)]; exact hc', hcompiled', hfolds'⟩

theorem Sound.call (h : s.Sound partsOf) {binding : Nat} {statics : Statics}
    (hparts : statics.parts = partsOf statics.id) (values : List Value) (host host' : σ) :
    let r := s.call binding statics values host
    some r.1.plain =
        ((Errand.call binding statics values).resultAfresh host' s.factories).map plain ∧
      r.2.2.2.Sound partsOf ∧ r.2.2.2.bindings = s.bindings := by
  unfold Workshop.call
  rw [Errand.resultAfresh, Option.map_some, factories, List.getElem?_map]
  cases hb : s.bindings[binding]? with
  | none => exact ⟨rfl, h, rfl⟩
  | some b =>
    have hgot := h.got_compiledFor hb hparts
    obtain ⟨hvalue, hsound, hbindings⟩ := hgot.evaluate hb statics hparts values host host'
    exact ⟨congrArg some hvalue, hsound, hbindings⟩

/-- Asking for the compiled form is the first half of a call. -/
theorem Sound.compiledFor (h : s.Sound partsOf) (binding : Nat) {statics : Statics}
    (hparts : statics.parts = partsOf statics.id) :
    (s.compiledFor binding statics).2.2.Sound partsOf ∧
      (s.compiledFor binding statics).2.2.bindings = s.bindings := by
  cases hb : s.bindings[binding]? with
  | none =>
    unfold Workshop.compiledFor
    rw [hb]
    exact ⟨h.compile _, rfl⟩
  | some b =>
    have hgot := h.got_compiledFor hb hparts
    exact ⟨hgot.sound, hgot.bindings⟩

/-! ## Everything else -/

theorem Sound.addCache (h : s.Sound partsOf) {c : TemplateCache} (hc : c.entries = []) :
    (s.addCache c).2.Sound partsOf := by
  refine h.of_holding rfl rfl ?_
  rintro key serial ⟨d, hd, hholds⟩
  rcases List.mem_append.mp hd with hold | hnew
  · exact ⟨d, hold, hholds⟩
  · -- a new cache holds nothing
    rw [List.mem_singleton] at hnew
    obtain ⟨e, he, -⟩ := hholds
    rw [hnew, hc] at he
    cases he

theorem Sound.bind (h : s.Sound partsOf) {b : Binding σ} (hpure : b.factory.IsPure) :
    (s.bind b).2.Sound partsOf where
  pure b' hb' := by
    rcases List.mem_append.mp hb' with hold | hnew
    · exact h.pure b' hold
    · rw [List.mem_singleton] at hnew
      exact hnew ▸ hpure
  kept hh := by
    refine (h.kept hh).mono ?_ fun _ _ hc => hc
    intro n b' hb'
    exact ⟨b', List.getElem?_append_left (List.getElem?_eq_some_iff.mp hb').1 ▸ hb', rfl⟩
  owned hh hh' := h.owned hh hh'

/-- Only the factories of bindings matter. -/
theorem Sound.rebind (h : s.Sound partsOf) {bindings : List (Binding σ)}
    (hsame : bindings.map (·.factory) = s.factories) :
    ({ s with bindings } : Workshop σ).Sound partsOf where
  pure b hb := by
    have hmem : b.factory ∈ s.factories := hsame ▸ List.mem_map_of_mem hb
    obtain ⟨b', hb', hfactory⟩ := List.mem_map.mp hmem
    exact hfactory ▸ h.pure b' hb'
  kept hh := by
    refine (h.kept hh).mono ?_ fun _ _ hc => hc
    intro n b hb
    have hn := congrArg (·[n]?) hsame
    simp only [factories, List.getElem?_map, hb, Option.map_some, Option.map_eq_some_iff] at hn
    exact hn
  owned hh hh' := h.owned hh hh'

@[simp] theorem factories_hold (binding : Nat) : (s.hold binding).factories = s.factories := by
  refine List.ext_getElem? fun n => ?_
  simp only [factories, Workshop.hold, List.getElem?_map, List.getElem?_modify]
  cases s.bindings[n]? with
  | none => rfl
  | some b =>
    simp only [Option.map_eq_map, Option.map_some]
    split <;> rfl

theorem Sound.hold (h : s.Sound partsOf) (binding : Nat) : (s.hold binding).Sound partsOf :=
  h.rebind (factories_hold binding)

theorem Sound.purge (h : s.Sound partsOf) (cache binding : Nat) :
    (s.purge cache binding).2.2.Sound partsOf := by
  refine h.of_holding rfl rfl fun {key serial} hh => ?_
  rcases hh.of_set with hold | hkept
  · exact hold
  · have hleft : ((s.cache cache).retain fun key => key.binding ≠ binding).2.Holds key serial := hkept
    exact holding_of_cache hleft.of_retain.1

theorem factories_set {binding : Nat} {b : Binding σ} (hb : s.bindings[binding]? = some b)
    (c : Binding σ) (hfactory : c.factory = b.factory) :
    (s.bindings.set binding c).map (·.factory) = s.factories := by
  refine List.ext_getElem? fun n => ?_
  rw [factories, List.getElem?_map, List.getElem?_map, List.getElem?_set]
  split
  · subst n
    rw [hb, if_pos (List.getElem?_eq_some_iff.mp hb).1, Option.map_some, Option.map_some, hfactory]
  · rfl

@[simp] theorem factories_release (binding : Nat) :
    (s.release binding).2.factories = s.factories := by
  unfold Workshop.release
  cases hb : s.bindings[binding]? with
  | none => rfl
  | some b =>
    dsimp only
    split <;> exact factories_set hb _ rfl

theorem Sound.release (h : s.Sound partsOf) (binding : Nat) : (s.release binding).2.Sound partsOf := by
  unfold Workshop.release
  cases hb : s.bindings[binding]? with
  | none => exact h
  | some b =>
    have hgiven := h.rebind (factories_set hb { b with handles := b.handles - 1 } rfl)
    dsimp only
    split
    · exact hgiven.purge b.cache binding
    · exact hgiven

theorem Sound.clear (h : s.Sound partsOf) (cache : Nat) : (s.clear cache).Sound partsOf := by
  refine h.of_holding rfl rfl fun hh => ?_
  rcases hh.of_set with hold | hcleared
  · exact hold
  · exact absurd hcleared Cache.not_holds_clear

/-! ## Runs -/

/-- One errand gives the value that it gives afresh, and leaves the workshop sound. -/
theorem Sound.perform (h : s.Sound partsOf) {errand : Errand σ} (hfair : errand.Fair partsOf)
    (host host' : σ) :
    let r := s.perform errand host
    r.1.map plain = (errand.resultAfresh host' s.factories).map plain ∧
      r.2.2.Sound partsOf ∧ r.2.2.factories = errand.bound s.factories := by
  cases errand with
  | addCache capacity lifetime eviction => exact ⟨rfl, h.addCache rfl, rfl⟩
  | bind factory cache config =>
    refine ⟨rfl, h.bind hfair, ?_⟩
    exact List.map_append
  | clone binding => exact ⟨rfl, h.hold binding, factories_hold binding⟩
  | call binding statics values =>
    obtain ⟨hvalue, hsound, hbindings⟩ := h.call hfair values host host'
    exact ⟨hvalue, hsound, congrArg (List.map _) hbindings⟩
  | compiled binding statics =>
    obtain ⟨hsound, hbindings⟩ := h.compiledFor binding hfair
    exact ⟨rfl, hsound, congrArg (List.map _) hbindings⟩
  | clear cache => exact ⟨rfl, h.clear cache, rfl⟩
  | drop binding => exact ⟨rfl, h.release binding, factories_release binding⟩
  | wait time => exact ⟨rfl, h.of_holding rfl rfl id, rfl⟩

theorem Sound.performAll {errands : List (Errand σ)} (h : s.Sound partsOf)
    (hfair : ∀ errand ∈ errands, errand.Fair partsOf) (host host' : σ) :
    (s.performAll errands host).1.map plain =
      (Errand.valuesAfresh host' s.factories errands).map plain := by
  induction errands generalizing s host with
  | nil => rfl
  | cons errand rest ih =>
    rw [List.forall_mem_cons] at hfair
    obtain ⟨hvalue, hsound, hfactories⟩ := h.perform hfair.1 host host'
    rw [Workshop.performAll, Errand.valuesAfresh, List.map_append, List.map_append, ih hsound hfair.2,
      hfactories]
    congr 1
    rw [← Option.toList_map, ← Option.toList_map, hvalue]

end Workshop

namespace Workshop

end Workshop

end TaggedMarkup
