import TaggedMarkup.Proofs.Template.Numbering
import TaggedMarkup.Proofs.Value.Plain
import TaggedMarkup.Template.Factory

/-!
# Folding does not show

An evaluation that folds, on a template in which values have been kept before, is compared with one
**afresh**: nothing kept, nothing looked up. For a pure factory the two build the same structure.

* A factory is **pure** if what it builds and the flags it leaves depend on the structure of its tag,
  props and children and on the flags it is given, and if it never makes an element static that is not.
* A value is **frozen** at an element if every build of that element afresh has its structure and is
  static. Kept values are sound if each is frozen at the element whose number it has.
* If flags say that an element depends on nothing, then its build is the same for all values of the
  fields (`Setting.build_static`). So whatever is kept is frozen at its element, and stays sound.
-/

namespace TaggedMarkup

open Value

/-! ## Pure factories -/

/-- What a factory builds depends on the structure of what it is given only, and it treats nothing as
static that depends on a field. -/
structure Factory.IsPure {σ : Type} (f : Factory σ) : Prop where
  /-- the place and the state of the host do not matter, nor do stamps -/
  alike : ∀ {node node' : Node} {tag tag' : Value} {props props' : Option Props}
    {children children' : List Value} (host host' : σ),
    node.flags = node'.flags → tag.plain = tag'.plain →
    props.map plainEntries = props'.map plainEntries → plainAll children = plainAll children' →
    (f node tag props children host).1.plain = (f node' tag' props' children' host').1.plain ∧
      (f node tag props children host).2.1 = (f node' tag' props' children' host').2.1
  /-- an element that is static in the end was static -/
  keepsDynamic : ∀ (node : Node) (tag : Value) (props : Option Props) (children : List Value)
    (host : σ), (f node tag props children host).2.1.isStatic = true → node.flags.isStatic = true

/-! ## Drafts that look alike -/

namespace Draft

/-- Two drafts have the same structure and the same flags. -/
structure Alike (d e : Draft) : Prop where
  tag : d.tag.plain = e.tag.plain
  props : d.props.map plainEntries = e.props.map plainEntries
  children : plainAll d.children = plainAll e.children
  flags : d.flags = e.flags

variable {d e : Draft}

theorem Alike.refl (d : Draft) : Alike d d := ⟨rfl, rfl, rfl, rfl⟩

/-- Props that are not stated yet are empty. -/
theorem Alike.entries (h : Alike d e) :
    plainEntries (d.props.getD []) = plainEntries (e.props.getD []) := by
  have hprops := h.props
  cases hd : d.props with
  | none =>
    cases he : e.props with
    | none => rfl
    | some _ => simp [hd, he] at hprops
  | some _ =>
    cases he : e.props with
    | none => simp [hd, he] at hprops
    | some _ => simpa [hd, he] using hprops

theorem Alike.setTag (h : Alike d e) (value : Value) : Alike (d.setTag value) (e.setTag value) :=
  ⟨rfl, h.props, h.children, h.flags⟩

theorem Alike.setProp (h : Alike d e) (name : String) (value : Value) :
    Alike (d.setProp name value) (e.setProp name value) := by
  refine ⟨h.tag, ?_, h.children, h.flags⟩
  simp only [Draft.setProp, Option.map_some, Entries.plainEntries_put, h.entries]

theorem Alike.appendProp (h : Alike d e) (name : String) (value : Value) :
    Alike (d.appendProp name value) (e.appendProp name value) := by
  refine ⟨h.tag, ?_, h.children, h.flags⟩
  -- the old values look alike, so their string forms are equal
  have hold : ((Entries.get? name (d.props.getD [])).getD .undefined).text =
      ((Entries.get? name (e.props.getD [])).getD .undefined).text := by
    have hget := Entries.get?_plainEntries name (d.props.getD [])
    rw [h.entries, Entries.get?_plainEntries] at hget
    cases hd : Entries.get? name (d.props.getD []) with
    | none =>
      rw [hd, Option.map_none, Option.map_eq_none_iff] at hget
      rw [hget]
    | some old =>
      rw [hd, Option.map_some, Option.map_eq_some_iff] at hget
      obtain ⟨other, hother, hplain⟩ := hget
      rw [hother, Option.getD_some, Option.getD_some, ← text_plain old, ← hplain, text_plain]
  simp only [Draft.appendProp, Option.map_some, Entries.plainEntries_put, h.entries, hold]

theorem Alike.spreadProps (h : Alike d e) (value : Value) :
    Alike (d.spreadProps value) (e.spreadProps value) := by
  unfold Draft.spreadProps
  cases value with
  | object entries =>
    refine ⟨h.tag, ?_, h.children, h.flags⟩
    simp only [Option.map_some, Entries.plainEntries_merge, h.entries]
  | _ => exact ⟨h.tag, congrArg some h.entries, h.children, h.flags⟩

theorem Alike.addChild (h : Alike d e) {value other : Value} (hv : value.plain = other.plain) :
    Alike (d.addChild value) (e.addChild other) := by
  refine ⟨h.tag, h.props, ?_, h.flags⟩
  simp only [Draft.addChild, plainAll_append, h.children, plainAll, hv]

theorem Alike.markOwn (h : Alike d e) (dynamic : Bool) :
    Alike (d.markOwn dynamic) (e.markOwn dynamic) := by
  refine ⟨h.tag, h.props, h.children, ?_⟩
  simp only [Draft.markOwn, h.flags]

theorem Alike.markChildren (h : Alike d e) (dynamic : Bool) :
    Alike (d.markChildren dynamic) (e.markChildren dynamic) := by
  refine ⟨h.tag, h.props, h.children, ?_⟩
  simp only [Draft.markChildren, h.flags]

/-- A mark that leaves a draft static marks nothing. -/
theorem isStatic_markOwn (d : Draft) (dynamic : Bool) :
    (d.markOwn dynamic).flags.isStatic = (d.flags.isStatic && !dynamic) := by
  obtain ⟨_, _, _, own, children⟩ := d
  cases own <;> cases children <;> cases dynamic <;> rfl

theorem isStatic_markChildren (d : Draft) (dynamic : Bool) :
    (d.markChildren dynamic).flags.isStatic = (d.flags.isStatic && !dynamic) := by
  obtain ⟨_, _, _, own, children⟩ := d
  cases own <;> cases children <;> cases dynamic <;> rfl

@[simp] theorem flags_spreadProps (d : Draft) (value : Value) :
    (d.spreadProps value).flags = d.flags := by
  unfold Draft.spreadProps
  cases value <;> rfl

end Draft

/-- The element factory is pure: it stamps what it builds with the state of the host, and only that. -/
theorem Factory.element_isPure : Factory.element.IsPure where
  alike {node node' tag tag' props props' children children'} host host' hflags htag hprops
      hchildren := by
    refine ⟨?_, hflags⟩
    have htype : tag.toElementType = tag'.toElementType := by
      rw [← toElementType_plain tag, htag, toElementType_plain]
    have hentries : plainEntries (props.getD []) = plainEntries (props'.getD []) :=
      Draft.Alike.entries (d := ⟨tag, props, children, {}⟩) (e := ⟨tag', props', children', {}⟩)
        ⟨htag, hprops, hchildren, rfl⟩
    simp only [element, Bench.build, plain, htype, hentries, hchildren]
  keepsDynamic _ _ _ _ _ h := h

@[simp] theorem Pass.folds_noteSpread {σ : Type} (p : Pass σ) (value : Value) :
    (p.noteSpread value).folds = p.folds := by
  cases value <;> rfl

namespace Setting

variable {σ : Type}

/-! ## Instructions in a row -/

theorem runAll_cons (s : Setting σ) (op : Op) (rest : List Op) (d : Draft) (p : Pass σ) :
    s.runAll (op :: rest) d p = s.runAll rest (s.run op d p).1 (s.run op d p).2 := rfl

theorem runAll_append (s : Setting σ) (ops more : List Op) (d : Draft) (p : Pass σ) :
    s.runAll (ops ++ more) d p = s.runAll more (s.runAll ops d p).1 (s.runAll ops d p).2 := by
  induction ops generalizing d p with
  | nil => rfl
  | cons op rest ih => exact ih _ _

/-! ## Building one element -/

/-- Build an element that is not kept: its value, the flags that the factory left, and what changed. -/
def build (s : Setting σ) (block : Nat) (body : List Op) (p : Pass σ) : Value × Flags × Pass σ :=
  let (child, p) := s.runAll body .element p
  let (value, flags, host) :=
    s.factory ⟨s.template, block, child.flags⟩ child.tag child.props child.children p.host
  (value, flags, { p with host })

theorem run_element_kept (s : Setting σ) {block : Nat} (body : List Op) (d : Draft) {p : Pass σ}
    {value : Value} (h : p.folds.lookup block = some value) :
    s.run (.element block body) d p = (d.addChild value, p) := by
  rw [run, h]

theorem run_element_built (s : Setting σ) {block : Nat} (body : List Op) (d : Draft) {p : Pass σ}
    (h : p.folds.lookup block = none) :
    s.run (.element block body) d p =
      if (s.build block body p).2.1.isStatic then
        (d.addChild (s.build block body p).1,
          if s.fold then (s.build block body p).2.2.keep block (s.build block body p).1
          else (s.build block body p).2.2)
      else
        ((d.addChild (s.build block body p).1).markChildren true, (s.build block body p).2.2) := by
  rw [run, h]
  rfl

@[simp] theorem folds_build (s : Setting σ) (block : Nat) (body : List Op) (p : Pass σ) :
    (s.build block body p).2.2.folds = (s.runAll body .element p).2.folds := rfl

/-- An instruction that leaves the draft static found it static. -/
theorem isStatic_of_run (s : Setting σ) (op : Op) (d : Draft) (p : Pass σ)
    (h : (s.run op d p).1.flags.isStatic = true) : d.flags.isStatic = true := by
  cases op with
  | tag operand | set name operand | append name operand =>
    rw [run, Draft.isStatic_markOwn, Bool.and_eq_true] at h
    exact h.1
  | spread index =>
    rw [run, Draft.isStatic_markOwn, Draft.flags_spreadProps, Bool.and_eq_true] at h
    exact h.1
  | child operand =>
    rw [run, Draft.isStatic_markChildren, Bool.and_eq_true] at h
    exact h.1
  | element block body =>
    cases hl : p.folds.lookup block with
    | some value =>
      rw [run_element_kept s body d hl] at h
      exact h
    | none =>
      rw [run_element_built s body d hl] at h
      split at h
      · exact h
      · rw [Draft.isStatic_markChildren, Bool.and_eq_true] at h
        exact h.1

theorem isStatic_of_runAll (s : Setting σ) (ops : List Op) (d : Draft) (p : Pass σ)
    (h : (s.runAll ops d p).1.flags.isStatic = true) : d.flags.isStatic = true := by
  induction ops generalizing d p with
  | nil => exact h
  | cons op rest ih =>
    rw [runAll] at h
    exact isStatic_of_run s op d p (ih _ _ h)

/-! ## Evaluation afresh -/

mutual

/-- Without folding, nothing is ever kept. -/
theorem folds_run_afresh {s : Setting σ} (hs : s.fold = false) :
    ∀ (op : Op) (d : Draft) (p : Pass σ), p.folds = [] → (s.run op d p).2.folds = []
  | .tag _, _, _, hp | .set _ _, _, _, hp | .append _ _, _, _, hp | .child _, _, _, hp => by
    rw [run]
    exact hp
  | .spread index, _, p, hp => by
    rw [run, Pass.folds_noteSpread]
    exact hp
  | .element block body, d, p, hp => by
    have hlookup : p.folds.lookup block = none := by rw [hp, List.lookup_nil]
    rw [run_element_built s body d hlookup, hs]
    have hbody := folds_runAll_afresh hs body .element p hp
    split <;> exact hbody

theorem folds_runAll_afresh {s : Setting σ} (hs : s.fold = false) :
    ∀ (ops : List Op) (d : Draft) (p : Pass σ), p.folds = [] → (s.runAll ops d p).2.folds = []
  | [], _, _, hp => hp
  | op :: rest, d, p, hp => by
    rw [runAll]
    exact folds_runAll_afresh hs rest _ _ (folds_run_afresh hs op d p hp)

end

/-! ## Static elements do not depend on the fields

Two evaluations afresh, with the same factory and **any** two lists of values. The induction is on the
instructions; at an element the flags of the body are static because the factory treats nothing as
static that is not. -/

section Independence

variable {s t : Setting σ}

/-- Elements whose bodies look alike are built alike. -/
theorem build_alike_of_body (hpure : s.factory.IsPure) (hfactory : t.factory = s.factory)
    (block : Nat) {body : List Op} {p q : Pass σ}
    (hbody : Draft.Alike (s.runAll body .element p).1 (t.runAll body .element q).1) :
    (s.build block body p).1.plain = (t.build block body q).1.plain ∧
      (s.build block body p).2.1 = (t.build block body q).2.1 := by
  unfold build
  rw [hfactory]
  exact hpure.alike _ _ hbody.flags hbody.tag hbody.props hbody.children

mutual

theorem run_static (hpure : s.factory.IsPure) (hfactory : t.factory = s.factory)
    (hs : s.fold = false) (ht : t.fold = false) :
    ∀ (op : Op) {d e : Draft} {p q : Pass σ}, p.folds = [] → q.folds = [] → Draft.Alike d e →
      (s.run op d p).1.flags.isStatic = true → Draft.Alike (s.run op d p).1 (t.run op e q).1
  | .tag (.fixed value), _, _, _, _, _, _, hd, _ => (hd.setTag value).markOwn false
  | .set name (.fixed value), _, _, _, _, _, _, hd, _ => (hd.setProp name value).markOwn false
  | .append name (.fixed value), _, _, _, _, _, _, hd, _ => (hd.appendProp name value).markOwn false
  | .child (.fixed value), _, _, _, _, _, _, hd, _ => (hd.addChild rfl).markChildren false
  | .tag (.field _), _, _, _, _, _, _, _, h | .set _ (.field _), _, _, _, _, _, _, _, h
  | .append _ (.field _), _, _, _, _, _, _, _, h | .spread _, _, _, _, _, _, _, _, h => by
    -- a field makes the element dynamic
    rw [run, Draft.isStatic_markOwn, Bool.and_eq_true] at h
    cases h.2
  | .child (.field _), _, _, _, _, _, _, _, h => by
    rw [run, Draft.isStatic_markChildren, Bool.and_eq_true] at h
    cases h.2
  | .element block body, d, e, p, q, hp, hq, hd, h => by
    have hplookup : p.folds.lookup block = none := by rw [hp, List.lookup_nil]
    have hqlookup : q.folds.lookup block = none := by rw [hq, List.lookup_nil]
    rw [run_element_built s body d hplookup] at h ⊢
    rw [run_element_built t body e hqlookup]
    by_cases hstatic : (s.build block body p).2.1.isStatic = true
    · have hbody := runAll_static hpure hfactory hs ht body hp hq (.refl .element)
        (hpure.keepsDynamic _ _ _ _ _ hstatic)
      obtain ⟨hvalue, hflags⟩ := build_alike_of_body hpure hfactory block hbody
      rw [if_pos hstatic, ← hflags, if_pos hstatic]
      exact hd.addChild hvalue
    · rw [if_neg hstatic, Draft.isStatic_markChildren, Bool.and_eq_true] at h
      cases h.2

theorem runAll_static (hpure : s.factory.IsPure) (hfactory : t.factory = s.factory)
    (hs : s.fold = false) (ht : t.fold = false) :
    ∀ (ops : List Op) {d e : Draft} {p q : Pass σ}, p.folds = [] → q.folds = [] → Draft.Alike d e →
      (s.runAll ops d p).1.flags.isStatic = true →
      Draft.Alike (s.runAll ops d p).1 (t.runAll ops e q).1
  | [], _, _, _, _, _, _, hd, _ => hd
  | op :: rest, d, e, p, q, hp, hq, hd, h => by
    rw [runAll] at h ⊢
    rw [runAll]
    have hop := isStatic_of_runAll s rest _ _ h
    exact runAll_static hpure hfactory hs ht rest (folds_run_afresh hs op d p hp)
      (folds_run_afresh ht op e q hq) (run_static hpure hfactory hs ht op hp hq hd hop) h

end

/-- An element that one build afresh finds static is the same in every other. -/
theorem build_static (hpure : s.factory.IsPure) (hfactory : t.factory = s.factory)
    (hs : s.fold = false) (ht : t.fold = false) {block : Nat} {body : List Op} {p q : Pass σ}
    (hp : p.folds = []) (hq : q.folds = []) (h : (s.build block body p).2.1.isStatic = true) :
    (t.build block body q).1.plain = (s.build block body p).1.plain ∧
      (t.build block body q).2.1.isStatic = true := by
  have hbody := runAll_static hpure hfactory hs ht body hp hq (.refl .element)
    (hpure.keepsDynamic _ _ _ _ _ h)
  obtain ⟨hvalue, hflags⟩ := build_alike_of_body hpure hfactory block hbody
  exact ⟨hvalue.symm, hflags ▸ h⟩

end Independence

/-! ## Kept values -/

/-- Every build of the element afresh is static and has the structure of the value. -/
def Frozen (f : Factory σ) (block : Nat) (body : List Op) (value : Value) : Prop :=
  ∀ (s : Setting σ) (p : Pass σ), s.factory = f → s.fold = false → p.folds = [] →
    (s.build block body p).1.plain = value.plain ∧ (s.build block body p).2.1.isStatic = true

/-- What is kept for elements with these blocks is frozen there. -/
def FoldsSound (f : Factory σ) (blocks : List (Nat × List Op)) (folds : Folds) : Prop :=
  ∀ (block : Nat) (body : List Op) (value : Value), (block, body) ∈ blocks →
    folds.lookup block = some value → Frozen f block body value

theorem foldsSound_nil (f : Factory σ) (blocks : List (Nat × List Op)) : FoldsSound f blocks [] :=
  fun _ _ _ _ h => by cases h

/-- One number stands for one body. -/
theorem body_unique {blocks : List (Nat × List Op)} (hnodup : (blocks.map (·.1)).Nodup)
    {block : Nat} {body body' : List Op} (h : (block, body) ∈ blocks)
    (h' : (block, body') ∈ blocks) : body = body' :=
  congrArg Prod.snd (List.inj_on_of_nodup_map hnodup h h' rfl)

/-- If every kept value is right for its element, one more may be kept that is right for its own. -/
theorem forall_lookup_cons {blocks : List (Nat × List Op)} {folds : Folds}
    {IsRight : Nat → List Op → Value → Prop}
    (h : ∀ (block : Nat) (body : List Op) (value : Value), (block, body) ∈ blocks →
      folds.lookup block = some value → IsRight block body value)
    (hnodup : (blocks.map (·.1)).Nodup) {block : Nat} {body : List Op} {value : Value}
    (hmem : (block, body) ∈ blocks) (hright : IsRight block body value) :
    ∀ (block' : Nat) (body' : List Op) (value' : Value), (block', body') ∈ blocks →
      List.lookup block' ((block, value) :: folds) = some value' → IsRight block' body' value' := by
  intro block' body' value' hmem' hlookup
  by_cases hb : block' = block
  · subst hb
    rw [List.lookup_cons, beq_self_eq_true] at hlookup
    cases hlookup
    rw [body_unique hnodup hmem' hmem]
    exact hright
  · rw [List.lookup_cons, beq_false_of_ne hb] at hlookup
    exact h block' body' value' hmem' hlookup

theorem FoldsSound.keep {f : Factory σ} {blocks : List (Nat × List Op)} {folds : Folds}
    (h : FoldsSound f blocks folds) (hnodup : (blocks.map (·.1)).Nodup) {block : Nat}
    {body : List Op} {value : Value} (hmem : (block, body) ∈ blocks)
    (hfrozen : Frozen f block body value) : FoldsSound f blocks ((block, value) :: folds) :=
  forall_lookup_cons h hnodup hmem hfrozen

/-! ## Evaluation with what is kept

The left run looks kept values up and may keep more; the right one is afresh, with the same values of
the fields. -/

/-- A setting for the same use that keeps nothing. -/
structure Afresh (t s : Setting σ) : Prop where
  factory : t.factory = s.factory
  values : t.values = s.values
  fold : t.fold = false

section Folding

variable {s t : Setting σ} {blocks : List (Nat × List Op)}

mutual

theorem run_folding (hpure : s.factory.IsPure) (ht : t.Afresh s)
    (hnodup : (blocks.map (·.1)).Nodup) :
    ∀ (op : Op) {d e : Draft} {p q : Pass σ}, op.blocks ⊆ blocks →
      FoldsSound s.factory blocks p.folds → q.folds = [] → Draft.Alike d e →
      Draft.Alike (s.run op d p).1 (t.run op e q).1 ∧
        FoldsSound s.factory blocks (s.run op d p).2.folds
  | .tag _, _, _, _, _, _, hp, _, hd => by
    rw [run, run, ht.values]
    exact ⟨(hd.setTag _).markOwn _, hp⟩
  | .set _ _, _, _, _, _, _, hp, _, hd => by
    rw [run, run, ht.values]
    exact ⟨(hd.setProp _ _).markOwn _, hp⟩
  | .append _ _, _, _, _, _, _, hp, _, hd => by
    rw [run, run, ht.values]
    exact ⟨(hd.appendProp _ _).markOwn _, hp⟩
  | .child _, _, _, _, _, _, hp, _, hd => by
    rw [run, run, ht.values]
    exact ⟨(hd.addChild rfl).markChildren _, hp⟩
  | .spread index, _, _, p, _, _, hp, _, hd => by
    have hfolds := p.folds_noteSpread ((Operand.field index).value s.values)
    rw [run, run, ht.values]
    exact ⟨(hd.spreadProps _).markOwn _, hfolds ▸ hp⟩
  | .element block body, d, e, p, q, hsub, hp, hq, hd => by
    have hmem : (block, body) ∈ blocks := hsub (List.mem_cons_self ..)
    have hinner : Op.blocksOfAll body ⊆ blocks := fun _ h => hsub (List.mem_cons_of_mem _ h)
    have hqlookup : q.folds.lookup block = none := by rw [hq, List.lookup_nil]
    rw [run_element_built t body e hqlookup]
    cases hl : p.folds.lookup block with
    | some value =>
      -- the kept value is what the build afresh gives
      obtain ⟨hvalue, hstatic⟩ := hp block body value hmem hl t q ht.factory ht.fold hq
      rw [run_element_kept s body d hl, if_pos hstatic]
      exact ⟨hd.addChild hvalue.symm, hp⟩
    | none =>
      obtain ⟨hbody, hfolds⟩ := runAll_folding hpure ht hnodup body hinner hp hq (.refl .element)
      obtain ⟨hvalue, hflags⟩ := build_alike_of_body hpure ht.factory block hbody
      rw [run_element_built s body d hl, hflags]
      by_cases hstatic : (t.build block body q).2.1.isStatic = true
      · rw [if_pos hstatic, if_pos hstatic]
        refine ⟨hd.addChild hvalue, ?_⟩
        have hfrozen : Frozen s.factory block body (s.build block body p).1 := by
          intro u r hfactory hu hr
          rw [hvalue]
          exact build_static (ht.factory ▸ hpure) (hfactory.trans ht.factory.symm) ht.fold hu hq hr
            hstatic
        split
        · exact hfolds.keep hnodup hmem hfrozen
        · exact hfolds
      · rw [if_neg hstatic, if_neg hstatic]
        exact ⟨(hd.addChild hvalue).markChildren true, hfolds⟩

theorem runAll_folding (hpure : s.factory.IsPure) (ht : t.Afresh s)
    (hnodup : (blocks.map (·.1)).Nodup) :
    ∀ (ops : List Op) {d e : Draft} {p q : Pass σ}, Op.blocksOfAll ops ⊆ blocks →
      FoldsSound s.factory blocks p.folds → q.folds = [] → Draft.Alike d e →
      Draft.Alike (s.runAll ops d p).1 (t.runAll ops e q).1 ∧
        FoldsSound s.factory blocks (s.runAll ops d p).2.folds
  | [], _, _, _, _, _, hp, _, hd => ⟨hd, hp⟩
  | op :: rest, d, e, p, q, hsub, hp, hq, hd => by
    rw [Op.blocksOfAll, List.append_subset] at hsub
    obtain ⟨hop, hfolds⟩ := run_folding hpure ht hnodup op hsub.1 hp hq hd
    rw [runAll, runAll]
    exact runAll_folding hpure ht hnodup rest hsub.2 hfolds
      (folds_run_afresh ht.fold op e q hq) hop

end

end Folding

theorem plain_ofRoots (roots : List Value) :
    (ofRoots roots).plain = ofRoots (plainAll roots) := by
  match roots with
  | [] => rfl
  | [root] => rfl
  | _ :: _ :: _ => rfl

/-- What has been kept in a template does not show in an evaluation, and stays sound. -/
theorem evaluate_folding {s t : Setting σ} (hpure : s.factory.IsPure) (ht : t.Afresh s)
    {template : Template} (hnodup : (Op.numbersOfAll template.root).Nodup) {folds : Folds}
    (hfolds : FoldsSound s.factory (Op.blocksOfAll template.root) folds) (host host' : σ) :
    (s.evaluate template folds host).1.plain = (t.evaluate template [] host').1.plain ∧
      FoldsSound s.factory (Op.blocksOfAll template.root)
        (s.evaluate template folds host).2.folds := by
  obtain ⟨hdraft, hkept⟩ := runAll_folding hpure ht hnodup template.root (List.Subset.refl _)
    (p := { folds, host }) (q := { folds := [], host := host' }) hfolds rfl (.refl .root)
  refine ⟨?_, hkept⟩
  unfold evaluate
  rw [plain_ofRoots, plain_ofRoots, hdraft.children]

end Setting

end TaggedMarkup
