import Mathlib
import TaggedMarkup.Proofs.Template.Lifetime

/-!
# Identities by content

Parts that are identified by their content have for an identity each part with its length before it. No
digit is a colon, so the length ends at the first colon, and it says where the part ends. An identity can
therefore be taken apart from the front, whatever the parts look like, and no two lists of parts share one
(`Statics.contentId_inj`).

A compiled template is given again only at the identity at which it was compiled. So in a run whose templates
are all identified by content, a template is never given for other parts than those it was compiled from, and
what one use folds is folded for uses of the same parts.
-/

namespace TaggedMarkup

/-! ## Taking an identity apart -/

namespace Statics

/-- The length stands before the first colon. -/
theorem digits_append_inj {m n : Nat} {rest rest' : List Char}
    (h : Nat.toDigits 10 m ++ ':' :: rest = Nat.toDigits 10 n ++ ':' :: rest') : m = n ∧ rest = rest' := by
  have htake : ∀ (k : Nat) (tail : List Char),
      (Nat.toDigits 10 k ++ ':' :: tail).takeWhile Char.isDigit = Nat.toDigits 10 k := by
    intro k tail
    have hdigits : ∀ c ∈ Nat.toDigits 10 k, c.isDigit = true := fun c hc =>
      Nat.isDigit_of_mem_toDigits (by decide) (by decide) hc
    rw [List.takeWhile_append_of_pos hdigits, List.takeWhile_cons_of_neg (by decide), List.append_nil]
  have hdigits : Nat.toDigits 10 m = Nat.toDigits 10 n := by
    rw [← htake m rest, h, htake n rest']
  rw [hdigits] at h
  refine ⟨?_, (List.cons_injective (List.append_cancel_left h))⟩
  calc m = Nat.ofDigitChars 10 (Nat.toDigits 10 m) 0 := Nat.ofDigitChars_ten_toDigits.symm
    _ = Nat.ofDigitChars 10 (Nat.toDigits 10 n) 0 := by rw [hdigits]
    _ = n := Nat.ofDigitChars_ten_toDigits

/-- Texts of one length in bytes, with something behind them, are told apart. -/
theorem append_inj_of_utf8ByteSize {s t rest rest' : String} (hsize : s.utf8ByteSize = t.utf8ByteSize)
    (h : s ++ rest = t ++ rest') : s = t ∧ rest = rest' := by
  have hbytes : s.toByteArray ++ rest.toByteArray = t.toByteArray ++ rest'.toByteArray := by
    rw [← String.toByteArray_append, ← String.toByteArray_append, h]
  obtain ⟨hfirst, hrest⟩ := (ByteArray.append_eq_append_iff_of_size_eq_left hsize).mp hbytes
  exact ⟨String.toByteArray_inj.mp hfirst, String.toByteArray_inj.mp hrest⟩

theorem toList_contentId_cons (part : String) (parts : List String) :
    (contentId (part :: parts)).toList =
      Nat.toDigits 10 part.utf8ByteSize ++ ':' :: (part ++ contentId parts).toList := by
  simp [contentId, String.join_cons]

theorem contentId_cons_ne_nil (part : String) (parts : List String) : contentId (part :: parts) ≠ "" := by
  intro h
  have hempty := congrArg String.toList h
  rw [toList_contentId_cons] at hempty
  exact List.append_ne_nil_of_right_ne_nil _ (List.cons_ne_nil _ _) hempty

/-- **No two lists of parts have one identity.** -/
theorem contentId_inj {parts parts' : List String} : contentId parts = contentId parts' ↔ parts = parts' := by
  refine ⟨fun h => ?_, fun h => h ▸ rfl⟩
  induction parts generalizing parts' with
  | nil =>
    cases parts' with
    | nil => rfl
    | cons part' rest' => exact absurd h.symm (contentId_cons_ne_nil part' rest')
  | cons part rest ih =>
    cases parts' with
    | nil => exact absurd h (contentId_cons_ne_nil part rest)
    | cons part' rest' =>
      have hchars := congrArg String.toList h
      rw [toList_contentId_cons, toList_contentId_cons] at hchars
      obtain ⟨hsize, hbehind⟩ := digits_append_inj hchars
      obtain ⟨hpart, hrest⟩ := append_inj_of_utf8ByteSize hsize (String.toList_inj.mp hbehind)
      rw [hpart, ih hrest]

end Statics

/-! ## Uses -/

variable {σ : Type}

/-- Whatever template the errand uses is identified by its content. -/
def Errand.IsByContent : Errand σ → Prop
  | call _ statics _ | compiled _ statics => statics = .ofParts statics.parts
  | _ => True

/-- One use of a template: the parts that were asked for, and the compiled template that was given. -/
structure Usage where
  parts : List String
  /-- the number of the compiled template, in which what is folded is kept -/
  serial : Nat
  deriving DecidableEq, Repr

namespace Workshop

/-- The use that an errand makes of a template. Without its binding, a call makes none. -/
def usage? (s : Workshop σ) : Errand σ → Option Usage
  | .call binding statics _ =>
    (s.bindings[binding]?).map fun _ => ⟨statics.parts, (s.compiledFor binding statics).1⟩
  | .compiled binding statics => some ⟨statics.parts, (s.compiledFor binding statics).1⟩
  | _ => none

/-- The uses that a run makes of templates, in order. -/
def usages : List (Errand σ) → σ → Workshop σ → List Usage
  | [], _, _ => []
  | errand :: rest, host, s =>
    (s.usage? errand).toList ++ usages rest (s.perform errand host).2.1 (s.perform errand host).2.2

/-- Every template that was given was compiled, and for one list of parts. A cache holds it at the identity
of these parts. -/
structure Attributed (before : List Usage) (s : Workshop σ) : Prop where
  compiled : ∀ u ∈ before, u.serial < s.templates.length
  parts : ∀ u ∈ before, ∀ v ∈ before, u.serial = v.serial → u.parts = v.parts
  held : ∀ key serial, s.Holding key serial →
    ∃ u ∈ before, u.serial = serial ∧ key.id = Statics.contentId u.parts

variable {s t : Workshop σ} {before : List Usage}

/-- Where no cache holds more, nothing changes. -/
theorem Attributed.of_holding (h : s.Attributed before) (hlength : s.templates.length ≤ t.templates.length)
    (hholding : ∀ {key serial}, t.Holding key serial → s.Holding key serial) : t.Attributed before where
  compiled u hu := Nat.lt_of_lt_of_le (h.compiled u hu) hlength
  parts := h.parts
  held _ _ hh := h.held _ _ (hholding hh)

/-! ## What an errand makes the caches hold -/

theorem templates_release (s : Workshop σ) (binding : Nat) :
    (s.release binding).2.templates = s.templates := by
  unfold Workshop.release
  split
  · dsimp only
    split <;> rfl
  · rfl

/-- What is compiled comes behind the templates that there are. -/
theorem templates_compiledFor (s : Workshop σ) (binding : Nat) (statics : Statics) :
    ∃ more, (s.compiledFor binding statics).2.2.templates = s.templates ++ more := by
  simp only [Workshop.compiledFor, Workshop.obtain]
  repeat' split
  all_goals first | exact ⟨_, rfl⟩ | exact ⟨[], (List.append_nil _).symm⟩

theorem holding_release {binding : Nat} {key : TemplateKey} {serial : Nat}
    (h : (s.release binding).2.Holding key serial) : s.Holding key serial := by
  unfold Workshop.release at h
  split at h
  · rename_i b _
    dsimp only at h
    split at h
    · rcases Holding.of_set h with hold | hkept
      · exact hold
      · have hleft : ((s.cache b.cache).retain fun key => key.binding ≠ binding).2.Holds key serial := hkept
        exact holding_of_cache hleft.of_retain.1
    · exact h
  · exact h

/-- How a template is given: it was held at the key, or it has just been compiled. Only at this key may
it be held afterwards. -/
structure Given (s : Workshop σ) (key : TemplateKey) (serial : Nat) (t : Workshop σ) : Prop where
  source : s.Holding key serial ∨ serial = s.templates.length ∧ s.templates.length < t.templates.length
  length : s.templates.length ≤ t.templates.length
  holding : ∀ {key' serial'}, t.Holding key' serial' →
    s.Holding key' serial' ∨ key' = key ∧ serial' = serial

theorem given_compile (key : TemplateKey) (parts : List String) :
    s.Given key (s.compile parts).1 (s.compile parts).2.2 where
  source := .inr ⟨rfl, List.length_append ▸ Nat.lt_succ_self _⟩
  length := List.length_append ▸ Nat.le_succ _
  holding hh := .inl hh

theorem given_obtain (cache : Nat) (key : TemplateKey) (parts : List String) :
    s.Given key (s.obtain cache key (·.compile parts)).1 (s.obtain cache key (·.compile parts)).2.2 := by
  -- the lookup makes no cache hold more
  have hlookup : ∀ {key' serial'}, ({ s with
      caches := s.caches.set cache ((s.cache cache).get s.age key).2 } : Workshop σ).Holding key' serial' →
      s.Holding key' serial' := by
    intro key' serial' hh
    rcases hh.of_set with hold | hgot
    · exact hold
    · exact holding_of_cache hgot.of_get
  unfold Workshop.obtain
  dsimp only
  cases hf : ((s.cache cache).get s.age key).1 with
  | some serial =>
    exact ⟨.inl (holding_of_cache (Cache.holds_of_get hf)), Nat.le_refl _, fun hh => .inl (hlookup hh)⟩
  | none =>
    have hcompiled := given_compile (s := { s with
      caches := s.caches.set cache ((s.cache cache).get s.age key).2 }) key parts
    dsimp only
    split
    · rename_i first hpeek
      exact ⟨.inl (hlookup (holding_of_cache (Cache.holds_of_peek hpeek))), hcompiled.length,
        fun hh => .inl (hlookup hh)⟩
    · refine ⟨.inr ⟨rfl, List.length_append ▸ Nat.lt_succ_self _⟩, hcompiled.length, fun hh => ?_⟩
      rcases hh.of_set with hold | hinserted
      · exact .inl (hlookup hold)
      · exact hinserted.of_insert.imp_left fun hcached => hlookup (holding_of_cache hcached)

theorem given_compiledFor (s : Workshop σ) (binding : Nat) (statics : Statics) :
    s.Given ⟨binding, statics.id⟩ (s.compiledFor binding statics).1 (s.compiledFor binding statics).2.2 := by
  unfold Workshop.compiledFor
  split
  · split
    · exact given_compile _ _
    · exact given_obtain _ _ _
  · exact given_compile _ _

/-- A template that is given at the identity of its parts belongs to them. -/
theorem Attributed.given (h : s.Attributed before) {key : TemplateKey} {u : Usage}
    (hgiven : s.Given key u.serial t) (hkey : key.id = Statics.contentId u.parts) :
    t.Attributed (before ++ [u]) := by
  -- whatever was given under this number before was given for these parts
  have hsame : ∀ v ∈ before, v.serial = u.serial → v.parts = u.parts := by
    intro v hv hserial
    rcases hgiven.source with hheld | ⟨hnew, -⟩
    · obtain ⟨w, hw, hws, hwid⟩ := h.held _ _ hheld
      rw [h.parts v hv w hw (hserial.trans hws.symm)]
      exact Statics.contentId_inj.mp (hwid.symm.trans hkey)
    · exact absurd (h.compiled v hv) (hserial.trans hnew ▸ Nat.lt_irrefl _)
  refine ⟨?_, ?_, ?_⟩
  · intro v hv
    rcases List.mem_append.mp hv with hv | hv
    · exact Nat.lt_of_lt_of_le (h.compiled v hv) hgiven.length
    · rw [List.mem_singleton.mp hv]
      rcases hgiven.source with hheld | ⟨hnew, hless⟩
      · obtain ⟨w, hw, hws, -⟩ := h.held _ _ hheld
        exact hws ▸ Nat.lt_of_lt_of_le (h.compiled w hw) hgiven.length
      · exact hnew ▸ hless
  · intro v hv w hw hserial
    rcases List.mem_append.mp hv with hv | hv <;> rcases List.mem_append.mp hw with hw | hw
    · exact h.parts v hv w hw hserial
    · rw [List.mem_singleton.mp hw] at hserial ⊢
      exact hsame v hv hserial
    · rw [List.mem_singleton.mp hv] at hserial ⊢
      exact (hsame w hw hserial.symm).symm
    · rw [List.mem_singleton.mp hv, List.mem_singleton.mp hw]
  · intro key' serial' hh
    rcases hgiven.holding hh with hold | ⟨rfl, rfl⟩
    · obtain ⟨v, hv, hserial, hid⟩ := h.held _ _ hold
      exact ⟨v, List.mem_append_left _ hv, hserial, hid⟩
    · exact ⟨u, List.mem_append_right _ (List.mem_singleton.mpr rfl), rfl, hkey⟩

/-! ## Runs -/

theorem Attributed.perform (h : s.Attributed before) {errand : Errand σ} (hcontent : errand.IsByContent)
    (host : σ) : (s.perform errand host).2.2.Attributed (before ++ (s.usage? errand).toList) := by
  have hquiet : ∀ {t : Workshop σ}, s.usage? errand = none → s.templates.length ≤ t.templates.length →
      (∀ {key serial}, t.Holding key serial → s.Holding key serial) →
      t.Attributed (before ++ (s.usage? errand).toList) := by
    intro t hnone hlength hholding
    rw [hnone, Option.toList_none, List.append_nil]
    exact h.of_holding hlength hholding
  cases errand with
  | addCache capacity lifetime eviction =>
    refine hquiet rfl (Nat.le_refl _) ?_
    rintro key serial ⟨c, hc, hholds⟩
    rcases List.mem_append.mp hc with hold | hnew
    · exact ⟨c, hold, hholds⟩
    · obtain ⟨e, he, -⟩ := List.mem_singleton.mp hnew ▸ hholds
      cases he
  | bind factory cache config => exact hquiet rfl (Nat.le_refl _) id
  | clone binding => exact hquiet rfl (Nat.le_refl _) id
  | wait time => exact hquiet rfl (Nat.le_refl _) id
  | clear cache =>
    refine hquiet rfl (Nat.le_refl _) fun hh => ?_
    rcases hh.of_set with hold | hcleared
    · exact hold
    · exact absurd hcleared Cache.not_holds_clear
  | drop binding => exact hquiet rfl (templates_release s binding ▸ Nat.le_refl _) holding_release
  | compiled binding statics =>
    exact h.given (u := ⟨statics.parts, (s.compiledFor binding statics).1⟩) (given_compiledFor s binding statics)
      (congrArg Statics.id hcontent)
  | call binding statics values =>
    cases hb : s.bindings[binding]? with
    | none =>
      have hnone : s.usage? (.call binding statics values) = none := by rw [usage?, hb, Option.map_none]
      have hsame : (s.perform (.call binding statics values) host).2.2 = s := by
        simp only [Workshop.perform, Workshop.call, hb]
      rw [hsame]
      exact hquiet hnone (Nat.le_refl _) id
    | some b =>
      have husage : s.usage? (.call binding statics values) =
          some ⟨statics.parts, (s.compiledFor binding statics).1⟩ := by rw [usage?, hb, Option.map_some]
      have hgiven := h.given (u := ⟨statics.parts, (s.compiledFor binding statics).1⟩)
        (given_compiledFor s binding statics) (congrArg Statics.id hcontent)
      obtain ⟨templates, hafter, hlength⟩ := perform_call hb statics values host
      rw [husage, hafter, Option.toList_some]
      -- evaluation changes templates, and neither their number nor the caches
      exact hgiven.of_holding (Nat.le_of_eq hlength.symm) id

theorem attributed_performAll (h : s.Attributed before) {errands : List (Errand σ)}
    (hcontent : ∀ errand ∈ errands, errand.IsByContent) (host : σ) :
    ((s.performAll errands host).2.2).Attributed (before ++ s.usages errands host) := by
  induction errands generalizing s before host with
  | nil => exact (List.append_nil before).symm ▸ h
  | cons errand rest ih =>
    rw [List.forall_mem_cons] at hcontent
    rw [usages, ← List.append_assoc]
    exact ih (h.perform hcontent.1 host) hcontent.2 _

/-- What a use folds, it folds in the template that it was given. -/
theorem compiled_perform {errand : Errand σ} {serial : Nat} (hserial : serial < s.templates.length)
    (hother : ∀ u, s.usage? errand = some u → u.serial ≠ serial) (host : σ) :
    (s.perform errand host).2.2.compiled serial = s.compiled serial := by
  have hcompiledFor : ∀ binding statics,
      (s.compiledFor binding statics).2.2.compiled serial = s.compiled serial := by
    intro binding statics
    obtain ⟨more, hmore⟩ := templates_compiledFor s binding statics
    rw [Workshop.compiled, hmore, List.getD_append _ _ _ _ hserial, Workshop.compiled]
  cases errand with
  | addCache | bind | clone | clear | wait => rfl
  | drop binding =>
    have htemplates : (s.perform (.drop binding) host).2.2.templates = s.templates :=
      templates_release s binding
    rw [Workshop.compiled, Workshop.compiled, htemplates]
  | compiled binding statics => exact hcompiledFor binding statics
  | call binding statics values =>
    cases hb : s.bindings[binding]? with
    | none => simp only [Workshop.perform, Workshop.call, hb]
    | some b =>
      have hne := hother ⟨statics.parts, (s.compiledFor binding statics).1⟩ (by rw [usage?, hb, Option.map_some])
      rw [← hcompiledFor binding statics]
      simp only [Workshop.perform, Workshop.call, hb, Workshop.evaluate, Workshop.compiled,
        List.getD_eq_getElem?_getD, List.getElem?_set_ne hne]

theorem attributed_opening : (opening : Workshop σ).Attributed [] where
  compiled _ hu := absurd hu List.not_mem_nil
  parts _ hu := absurd hu List.not_mem_nil
  held := by
    rintro key serial ⟨c, hc, -⟩
    cases hc

/-- **Content keys never collide.** Two lists of parts have one identity only if they are the same list. In a
run whose templates are identified by content, a compiled template is given for one list of parts only,
whatever is cached, evicted, expired or purged; and an errand leaves every template as it was, with all that
is folded in it, but for the one that it was given. -/
theorem usages_byContent (errands : List (Errand σ)) (hcontent : ∀ errand ∈ errands, errand.IsByContent)
    (host : σ) :
    (∀ parts parts' : List String,
      (Statics.ofParts parts).id = (Statics.ofParts parts').id ↔ parts = parts') ∧
    (∀ u ∈ opening.usages errands host, ∀ v ∈ opening.usages errands host,
      u.serial = v.serial → u.parts = v.parts) ∧
    ∀ s ∈ opening.moments errands host, ∀ errand ∈ errands, ∀ (host : σ) (serial : Nat),
      serial < s.templates.length → (∀ u, s.usage? errand = some u → u.serial ≠ serial) →
        (s.perform errand host).2.2.compiled serial = s.compiled serial :=
  ⟨fun _ _ => Statics.contentId_inj,
    (attributed_performAll attributed_opening hcontent host).parts,
    fun _ _ _ _ host _ hserial hother => compiled_perform hserial hother host⟩

/-- Lists of parts that look alike once they are written one after the other, at two bindings that share a
cache. -/
def lookalikes : List (Errand Bench) :=
  [.addCache none none .leastRecent, .bind Factory.element 0 {}, .bind Factory.element 0 {},
    .call 0 (.ofParts ["1:a", ""]) [.null], .call 0 (.ofParts ["", "1:a"]) [.null],
    .call 1 (.ofParts ["1:a", ""]) [.null], .call 0 (.ofParts []) [], .call 0 (.ofParts [""]) [],
    .compiled 0 (.ofParts ["é"]), .compiled 0 (.ofParts ["1:a", ""])]

theorem usages_byContent_lookalikes :
    (∀ errand ∈ lookalikes, errand.IsByContent) ∧
      opening.usages lookalikes {} =
        [⟨["1:a", ""], 0⟩, ⟨["", "1:a"], 1⟩, ⟨["1:a", ""], 2⟩, ⟨[], 3⟩, ⟨[""], 4⟩, ⟨["é"], 5⟩,
          ⟨["1:a", ""], 0⟩] ∧
      (Statics.ofParts ["1:a", ""]).id ≠ (Statics.ofParts ["", "1:a"]).id := by
  have hcontent : ∀ errand ∈ lookalikes, errand.IsByContent := by
    simp [lookalikes, Errand.IsByContent, Statics.ofParts]
  obtain ⟨hinj, -, -⟩ := usages_byContent lookalikes hcontent {}
  exact ⟨hcontent, by cbv, fun h => nomatch (hinj _ _).mp h⟩

end Workshop

end TaggedMarkup
