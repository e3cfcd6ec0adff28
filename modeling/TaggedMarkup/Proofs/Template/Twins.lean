import TaggedMarkup.Host.World
import TaggedMarkup.Proofs.Template.Folding
import TaggedMarkup.Proofs.Template.Literals
import TaggedMarkup.Proofs.Value.Twins

/-!
# Templates give twins

Two workshops that have come the same way, but for what the values were called, have the same templates,
caches and bindings, and have kept twins. A template that both use with twins gives twins, and leaves them
like that: both carry out the same instructions, and find the same elements kept.
-/

namespace TaggedMarkup

variable {ρ σ : Renaming}

/-- A literal is its own twin. -/
theorem Value.IsLiteral.twin {value : Value} (h : value.IsLiteral) : Value.Twin ρ value value := by
  cases h with
  | str text => exact .str text
  | flag => exact .bool true

/-! ## Drafts -/

/-- The same element in work, but for twins. -/
structure Draft.Twin (ρ : Renaming) (d e : Draft) : Prop where
  tag : Value.Twin ρ d.tag e.tag
  props : Option.Rel (Entries.Twin ρ) d.props e.props
  children : List.Forall₂ (Value.Twin ρ) d.children e.children
  flags : d.flags = e.flags

namespace Draft.Twin

variable {d e : Draft} {x y : Value}

theorem element : Draft.Twin ρ .element .element := ⟨.str "", .none, .nil, rfl⟩

theorem root : Draft.Twin ρ .root .root := ⟨.undefined, .none, .nil, rfl⟩

theorem entries (h : Draft.Twin ρ d e) : Entries.Twin ρ (d.props.getD []) (e.props.getD []) := by
  have hprops := h.props
  generalize d.props = a, e.props = b at hprops
  cases hprops with
  | none => exact .nil
  | some hentries => exact hentries

theorem setTag (h : Draft.Twin ρ d e) (hxy : Value.Twin ρ x y) :
    Draft.Twin ρ (d.setTag x) (e.setTag y) := ⟨hxy, h.props, h.children, h.flags⟩

theorem setProp (h : Draft.Twin ρ d e) (name : String) (hxy : Value.Twin ρ x y) :
    Draft.Twin ρ (d.setProp name x) (e.setProp name y) :=
  ⟨h.tag, .some (h.entries.put name hxy), h.children, h.flags⟩

theorem appendProp (h : Draft.Twin ρ d e) (name : String) (hxy : Value.Twin ρ x y) :
    Draft.Twin ρ (d.appendProp name x) (e.appendProp name y) := by
  have hold : ((Entries.get? name (d.props.getD [])).getD .undefined).text =
      ((Entries.get? name (e.props.getD [])).getD .undefined).text := by
    have hget := h.entries.get? name
    generalize Entries.get? name (d.props.getD []) = a, Entries.get? name (e.props.getD []) = b at hget
    cases hget with
    | none => rfl
    | some hxy => exact hxy.text
  refine ⟨h.tag, ?_, h.children, h.flags⟩
  unfold Draft.appendProp
  dsimp only
  rw [hold, hxy.text]
  exact .some (h.entries.put name (.str _))

theorem spreadProps (h : Draft.Twin ρ d e) (hxy : Value.Twin ρ x y) :
    Draft.Twin ρ (d.spreadProps x) (e.spreadProps y) := by
  cases hxy with
  | object hentries => exact ⟨h.tag, .some (h.entries.merge hentries), h.children, h.flags⟩
  | _ => exact ⟨h.tag, .some h.entries, h.children, h.flags⟩

theorem addChild (h : Draft.Twin ρ d e) (hxy : Value.Twin ρ x y) :
    Draft.Twin ρ (d.addChild x) (e.addChild y) :=
  ⟨h.tag, h.props, Value.Twin.append h.children (.cons hxy .nil), h.flags⟩

theorem markOwn (h : Draft.Twin ρ d e) (dynamic : Bool) :
    Draft.Twin ρ (d.markOwn dynamic) (e.markOwn dynamic) :=
  ⟨h.tag, h.props, h.children, by rw [Draft.markOwn, Draft.markOwn, h.flags]⟩

theorem markChildren (h : Draft.Twin ρ d e) (dynamic : Bool) :
    Draft.Twin ρ (d.markChildren dynamic) (e.markChildren dynamic) :=
  ⟨h.tag, h.props, h.children, by rw [Draft.markChildren, Draft.markChildren, h.flags]⟩

end Draft.Twin

/-! ## Evaluation -/

/-- Twins are kept for the same elements. -/
def Folds.Twin (ρ : Renaming) : Folds → Folds → Prop :=
  List.Forall₂ fun a b => a.1 = b.1 ∧ Value.Twin ρ a.2 b.2

theorem Folds.Twin.lookup {folds folds' : Folds} (h : Folds.Twin ρ folds folds') (block : Nat) :
    Option.Rel (Value.Twin ρ) (folds.lookup block) (folds'.lookup block) := by
  induction h with
  | nil => exact .none
  | @cons a b rest rest' hab _ ih =>
    obtain ⟨key, x⟩ := a
    obtain ⟨key', y⟩ := b
    obtain ⟨rfl, hxy⟩ := hab
    rw [List.lookup_cons, List.lookup_cons]
    dsimp only
    split
    · exact .some hxy
    · exact ih

/-- Two evaluations of the same template with the default factory and twins. -/
structure Setting.Twin (ρ : Renaming) (s t : Setting Bench) : Prop where
  factory : s.factory = Factory.element
  factory' : t.factory = Factory.element
  fold : s.fold = t.fold
  values : List.Forall₂ (Value.Twin ρ) s.values t.values

namespace Setting.Twin

variable {s t : Setting Bench} {d e : Draft} {p q : Pass Bench}

theorem value (h : Setting.Twin ρ s t) {operand : Operand} (hoperand : operand.IsLiteral) :
    Value.Twin ρ (operand.value s.values) (operand.value t.values) := by
  cases hoperand with
  | fixed hvalue => exact hvalue.twin
  | field index => exact Value.Twin.getD h.values index

/-- What the factory builds from twins. -/
theorem built (h : Setting.Twin ρ s t) (hd : Draft.Twin ρ d e) (block : Nat) (host host' : Bench) :
    let a := s.factory ⟨s.template, block, d.flags⟩ d.tag d.props d.children host
    let b := t.factory ⟨t.template, block, e.flags⟩ e.tag e.props e.children host'
    Value.Twin ρ a.1 b.1 ∧ a.2.1 = b.2.1 := by
  rw [h.factory, h.factory']
  exact ⟨.element hd.tag.toElementType rfl hd.entries hd.children, hd.flags⟩

mutual

theorem run (h : Setting.Twin ρ s t) : ∀ {op : Op} {d e : Draft} {p q : Pass Bench}, op.IsLiteral →
    Draft.Twin ρ d e → Folds.Twin ρ p.folds q.folds →
      Draft.Twin ρ (s.run op d p).1 (t.run op e q).1 ∧
        Folds.Twin ρ (s.run op d p).2.folds (t.run op e q).2.folds
  | .tag operand, _, _, _, _, .tag hop, hd, hp => ⟨(hd.setTag (h.value hop)).markOwn _, hp⟩
  | .set name operand, _, _, _, _, .set hop, hd, hp => ⟨(hd.setProp name (h.value hop)).markOwn _, hp⟩
  | .append name operand, _, _, _, _, .append hop, hd, hp =>
    ⟨(hd.appendProp name (h.value hop)).markOwn _, hp⟩
  | .child operand, _, _, _, _, .child hop, hd, hp => ⟨(hd.addChild (h.value hop)).markChildren _, hp⟩
  | .spread index, _, _, p, q, _, hd, hp => by
    have hvalue := h.value (.field index)
    refine ⟨(hd.spreadProps hvalue).markOwn true, ?_⟩
    rw [Setting.run, Setting.run, Pass.folds_noteSpread, Pass.folds_noteSpread]
    exact hp
  | .element block body, d, e, p, q, .element hbody, hd, hp => by
    have hlookup := hp.lookup block
    rw [Setting.run, Setting.run]
    generalize p.folds.lookup block = a, q.folds.lookup block = b at hlookup
    cases hlookup with
    | some hxy => exact ⟨hd.addChild hxy, hp⟩
    | none =>
      obtain ⟨hchild, hfolds⟩ := runAll h hbody .element hp
      dsimp only
      obtain ⟨hvalue, hflags⟩ := h.built hchild block (s.runAll body .element p).2.host
        (t.runAll body .element q).2.host
      rw [hflags, h.fold]
      split
      · refine ⟨hd.addChild hvalue, ?_⟩
        split
        · exact .cons ⟨rfl, hvalue⟩ hfolds
        · exact hfolds
      · exact ⟨(hd.addChild hvalue).markChildren true, hfolds⟩

theorem runAll (h : Setting.Twin ρ s t) : ∀ {ops : List Op} {d e : Draft} {p q : Pass Bench},
    (∀ op ∈ ops, op.IsLiteral) → Draft.Twin ρ d e → Folds.Twin ρ p.folds q.folds →
      Draft.Twin ρ (s.runAll ops d p).1 (t.runAll ops e q).1 ∧
        Folds.Twin ρ (s.runAll ops d p).2.folds (t.runAll ops e q).2.folds
  | [], _, _, _, _, _, hd, hp => ⟨hd, hp⟩
  | op :: rest, d, e, p, q, hops, hd, hp => by
    rw [List.forall_mem_cons] at hops
    obtain ⟨hd', hp'⟩ := run h hops.1 hd hp
    rw [Setting.runAll, Setting.runAll]
    exact runAll h hops.2 hd' hp'

end

theorem ofRoots {xs ys : List Value} (h : List.Forall₂ (Value.Twin ρ) xs ys) :
    Value.Twin ρ (Setting.ofRoots xs) (Setting.ofRoots ys) := by
  match h with
  | .nil => exact .undefined
  | .cons hxy .nil => exact hxy
  | .cons hxy (.cons hmore hrest) => exact .list (.cons hxy (.cons hmore hrest))

theorem evaluate (h : Setting.Twin ρ s t) {template : Template}
    (hliteral : ∀ op ∈ template.root, op.IsLiteral) {folds folds' : Folds}
    (hfolds : Folds.Twin ρ folds folds') (host host' : Bench) :
    Value.Twin ρ (s.evaluate template folds host).1 (t.evaluate template folds' host').1 ∧
      Folds.Twin ρ (s.evaluate template folds host).2.folds
        (t.evaluate template folds' host').2.folds := by
  obtain ⟨hd, hp⟩ := h.runAll (p := ⟨folds, [], host⟩) (q := ⟨folds', [], host'⟩) hliteral .root hfolds
  exact ⟨ofRoots hd.children, hp⟩

end Setting.Twin

/-! ## Workshops -/

/-- The same template, which states literals only, with twins kept. -/
structure Compiled.Twin (ρ : Renaming) (c d : Compiled) : Prop where
  template : c.template = d.template
  literal : ∀ op ∈ c.template.root, op.IsLiteral
  folds : Folds.Twin ρ c.folds d.folds

theorem Folds.Twin.mono {folds folds' : Folds} (hρ : ρ <+: σ) (h : Folds.Twin ρ folds folds') :
    Folds.Twin σ folds folds' :=
  List.Forall₂.imp (fun _ _ hab => ⟨hab.1, hab.2.mono hρ⟩) h

/-- Two workshops that differ in what they have kept, by twins. The default binding has the default
factory. -/
structure Workshop.Twin (ρ : Renaming) (s t : Workshop Bench) : Prop where
  templates : List.Forall₂ (Compiled.Twin ρ) s.templates t.templates
  caches : s.caches = t.caches
  bindings : s.bindings = t.bindings
  age : s.age = t.age
  default : ∀ b, s.bindings[0]? = some b → b.factory = Factory.element

namespace Workshop.Twin

variable {s t : Workshop Bench}

theorem mono (hρ : ρ <+: σ) (h : Workshop.Twin ρ s t) : Workshop.Twin σ s t where
  templates := h.templates.imp fun _ _ hcd => ⟨hcd.template, hcd.literal, hcd.folds.mono hρ⟩
  caches := h.caches
  bindings := h.bindings
  age := h.age
  default := h.default

theorem compiled (h : Workshop.Twin ρ s t) (serial : Nat) :
    Compiled.Twin ρ (s.compiled serial) (t.compiled serial) := by
  have hget : ∀ {cs ds : List Compiled}, List.Forall₂ (Compiled.Twin ρ) cs ds →
      ∀ n, Compiled.Twin ρ (cs.getD n .empty) (ds.getD n .empty) := by
    intro cs ds hcs
    induction hcs with
    | nil => exact fun _ => ⟨rfl, nofun, .nil⟩
    | cons hcd _ ih =>
      intro n
      cases n with
      | zero => exact hcd
      | succ n => exact ih n
  exact hget h.templates serial

/-- The two come to the same number, with twins. -/
def Agree (ρ : Renaming) (a b : Nat × List Report × Workshop Bench) : Prop :=
  a.1 = b.1 ∧ a.2.1 = b.2.1 ∧ Workshop.Twin ρ a.2.2 b.2.2

theorem compile (h : Workshop.Twin ρ s t) (parts : List String) :
    Agree ρ (s.compile parts) (t.compile parts) := by
  refine ⟨h.templates.length_eq, rfl, ?_, h.caches, h.bindings, h.age, h.default⟩
  exact List.rel_append h.templates (.cons ⟨rfl, Template.isLiteral_compile parts, .nil⟩ .nil)

/-- Caches do not look at what is kept. -/
theorem setCache (h : Workshop.Twin ρ s t) (cache : Nat) (c : TemplateCache) :
    Workshop.Twin ρ { s with caches := s.caches.set cache c }
      { t with caches := t.caches.set cache c } :=
  ⟨h.templates, congrArg (·.set cache c) h.caches, h.bindings, h.age, h.default⟩

theorem cache (h : Workshop.Twin ρ s t) (cache : Nat) : s.cache cache = t.cache cache := by
  rw [Workshop.cache, Workshop.cache, h.caches]

/-- What was made gets into the cache, unless something got there first. -/
theorem shelve {a b : Nat × List Report × Workshop Bench} (h : Agree ρ a b) (cache : Nat)
    (key : TemplateKey) :
    let shelved (a : Nat × List Report × Workshop Bench) :=
      match (a.2.2.cache cache).peek a.2.2.age key with
      | some first => (first, a.2.1, a.2.2)
      | none => (a.1, a.2.1, { a.2.2 with
          caches := a.2.2.caches.set cache ((a.2.2.cache cache).insert a.2.2.age key a.1).2 })
    Agree ρ (shelved a) (shelved b) := by
  obtain ⟨serial, reports, s⟩ := a
  obtain ⟨_, _, t⟩ := b
  obtain ⟨rfl, rfl, hst⟩ := h
  dsimp only at hst ⊢
  rw [← hst.cache cache, ← hst.age]
  split
  · exact ⟨rfl, rfl, hst⟩
  · refine ⟨rfl, rfl, hst.templates, ?_, hst.bindings, rfl, hst.default⟩
    dsimp only
    rw [hst.caches]

theorem obtain (h : Workshop.Twin ρ s t) (cache : Nat) (key : TemplateKey) (parts : List String) :
    Agree ρ (s.obtain cache key (·.compile parts)) (t.obtain cache key (·.compile parts)) := by
  have hfound : (t.cache cache).get t.age key = (s.cache cache).get s.age key := by
    rw [h.cache, h.age]
  have hlooked := h.setCache cache ((s.cache cache).get s.age key).2
  unfold Workshop.obtain
  rw [hfound]
  dsimp only
  split
  · exact ⟨rfl, rfl, hlooked⟩
  · exact shelve (hlooked.compile parts) cache key

theorem compiledFor (h : Workshop.Twin ρ s t) (binding : Nat) (statics : Statics) :
    Agree ρ (s.compiledFor binding statics) (t.compiledFor binding statics) := by
  unfold Workshop.compiledFor
  rw [← h.bindings]
  split
  · split
    · exact h.compile _
    · exact h.obtain _ _ _
  · exact h.compile _

theorem set {cs ds : List Compiled} (h : List.Forall₂ (Compiled.Twin ρ) cs ds) {c d : Compiled}
    (hcd : Compiled.Twin ρ c d) (serial : Nat) :
    List.Forall₂ (Compiled.Twin ρ) (cs.set serial c) (ds.set serial d) := by
  induction h generalizing serial with
  | nil => exact .nil
  | cons hold hrest ih =>
    cases serial with
    | zero => exact .cons hcd hrest
    | succ serial => exact .cons hold (ih serial)

theorem evaluate (h : Workshop.Twin ρ s t) (fold : Bool) (serial : Nat) {values values' : List Value}
    (hvalues : List.Forall₂ (Value.Twin ρ) values values') (host host' : Bench) :
    let a := s.evaluate Factory.element fold serial values host
    let b := t.evaluate Factory.element fold serial values' host'
    Value.Twin ρ a.1 b.1 ∧ Workshop.Twin ρ a.2.2.2 b.2.2.2 := by
  have hcompiled := h.compiled serial
  have hsetting : Setting.Twin ρ ⟨serial, Factory.element, fold, values⟩
      ⟨serial, Factory.element, fold, values'⟩ := ⟨rfl, rfl, rfl, hvalues⟩
  obtain ⟨hvalue, hfolds⟩ := hsetting.evaluate hcompiled.literal hcompiled.folds host host'
  unfold Workshop.evaluate
  dsimp only
  rw [← hcompiled.template]
  generalize Setting.evaluate _ _ (s.compiled serial).folds host = a,
    Setting.evaluate _ _ (t.compiled serial).folds host' = b at hvalue hfolds ⊢
  have hkept : Compiled.Twin ρ ⟨(s.compiled serial).template, a.2.folds⟩
      ⟨(s.compiled serial).template, b.2.folds⟩ := ⟨rfl, hcompiled.literal, hfolds⟩
  exact ⟨hvalue, set h.templates hkept serial, h.caches, h.bindings, h.age, h.default⟩

/-- A use of a template with the default binding. -/
theorem call (h : Workshop.Twin ρ s t) (statics : Statics) {values values' : List Value}
    (hvalues : List.Forall₂ (Value.Twin ρ) values values') (host host' : Bench) :
    let a := s.call 0 statics values host
    let b := t.call 0 statics values' host'
    Value.Twin ρ a.1 b.1 ∧ Workshop.Twin ρ a.2.2.2 b.2.2.2 := by
  unfold Workshop.call
  rw [← h.bindings]
  cases hb : s.bindings[0]? with
  | none => exact ⟨.undefined, h⟩
  | some b =>
    obtain ⟨hserial, -, hcompiled⟩ := h.compiledFor 0 statics
    dsimp only
    rw [← hserial, h.default b hb]
    exact hcompiled.evaluate _ _ hvalues host host'

end Workshop.Twin

end TaggedMarkup
