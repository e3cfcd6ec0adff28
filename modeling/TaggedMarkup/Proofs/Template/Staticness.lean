import Mathlib
import TaggedMarkup.Proofs.Template.Handovers

/-!
# Flags say what an element depends on

What an element depends on can be read off its instructions alone (`Op.dependence`): its own flag is
set if a field is its tag or goes into its props, its children's flag if a field is a child or occurs
anywhere below.

The main statement is about a factory that leaves the flags as they are and gives the same structure
for the same structure. Whatever has been evaluated before, with any values, with or without folding,
it is handed exactly these flags; and two such evaluations hand it the same tag and props where the own
flag is clear, and the same children where the children's flag is clear.

The path of an evaluation depends on what is kept. So each run is compared with a **bare** one, without
kept values and without fields: what is kept for an element is right if the element is static and every
bare build of it has the structure that is kept. Static elements are built as in the bare run, so
whatever is folded is right again.
-/

namespace TaggedMarkup

open Value

variable {σ : Type}

/-! ## The analysis -/

namespace Flags

/-- Depend on what either depends on. -/
def join (f g : Flags) : Flags := ⟨f.own || g.own, f.children || g.children⟩

@[simp] theorem join_none (f : Flags) : f.join {} = f := by
  simp only [join, Bool.or_false]

@[simp] theorem none_join (f : Flags) : Flags.join {} f = f := rfl

theorem join_assoc (f g h : Flags) : (f.join g).join h = f.join (g.join h) := by
  simp only [join, Bool.or_assoc]

/-- What depends on nothing has clear flags. -/
theorem eq_none_of_isStatic {f : Flags} (h : f.isStatic = true) : f = {} := by
  obtain ⟨own, children⟩ := f
  cases own <;> cases children <;> simp [isStatic] at h ⊢

end Flags

namespace Op

/-- A field is the tag of the element, or goes into its props. -/
def fillsOwn : Op → Bool
  | tag operand | set _ operand | append _ operand => operand.isField
  | spread _ => true
  | child _ | element _ _ => false

/-- A field is a child of the element. -/
def fillsChild : Op → Bool
  | child operand => operand.isField
  | _ => false

/-- A field occurs in the block itself. -/
def holdsField (body : List Op) : Bool := body.any fillsOwn || body.any fillsChild

/-- What an element depends on: its tag and props on the fields in them, its children on the fields
among them and on those in the blocks below. -/
def dependence (body : List Op) : Flags where
  own := body.any fillsOwn
  children := body.any fillsChild || (blocksOfAll body).any fun block => holdsField block.2

@[simp] theorem dependence_nil : dependence [] = {} := rfl

theorem dependence_cons (op : Op) (rest : List Op) :
    dependence (op :: rest) = (dependence [op]).join (dependence rest) := by
  simp only [dependence, Flags.join, blocksOfAll, List.any_cons, List.any_nil, Bool.or_false,
    List.append_nil, List.any_append, Bool.or_assoc, Bool.or_left_comm]

/-- An element is static exactly if no field occurs in it or below. -/
theorem isStatic_dependence (body : List Op) : (dependence body).isStatic =
    !(holdsField body || (blocksOfAll body).any fun block => holdsField block.2) := by
  simp only [dependence, Flags.isStatic, holdsField, Bool.not_or, Bool.and_assoc]

theorem dependence_element (block : Nat) (body : List Op) :
    dependence [element block body] = ⟨false, !(dependence body).isStatic⟩ := by
  rw [isStatic_dependence, Bool.not_not]
  simp only [dependence, blocksOfAll, blocks, fillsOwn, fillsChild, List.any_cons, List.any_nil,
    Bool.or_false, Bool.false_or, List.append_nil]

/-- What holds a dynamic element is dynamic. -/
theorem isStatic_of_mem {body inner : List Op} {block : Nat}
    (h : (dependence body).isStatic = true) (hmem : (block, inner) ∈ blocksOfAll body) :
    (dependence inner).isStatic = true := by
  simp only [isStatic_dependence, Bool.not_eq_true', Bool.or_eq_false_iff, List.any_eq_false] at h ⊢
  exact ⟨Bool.eq_false_iff.mpr (h.2 _ hmem),
    fun below hbelow => h.2 below (blocksOfAll_subset_blocksOfAll hmem hbelow)⟩

theorem dependence_of_isStatic (block : Nat) {body : List Op}
    (h : (dependence body).isStatic = true) : dependence [element block body] = {} := by
  rw [dependence_element, h]
  rfl

theorem dependence_of_not_isStatic (block : Nat) {body : List Op}
    (h : ¬ (dependence body).isStatic = true) : dependence [element block body] = ⟨false, true⟩ := by
  rw [dependence_element, Bool.eq_false_iff.mpr h]
  rfl

end Op

/-! ## Factories that leave the flags -/

/-- What the factory builds at a place has the same structure whenever it is given the same structure,
whatever the state of its host. -/
def Factory.IsDetermined (f : Factory σ) : Prop :=
  ∀ (node : Node) {tag tag' : Value} {props props' : Option Props} {children children' : List Value}
    (host host' : σ), tag.plain = tag'.plain → props.map plainEntries = props'.map plainEntries →
    plainAll children = plainAll children' →
    (f node tag props children host).1.plain = (f node tag' props' children' host').1.plain

/-- The factory leaves the flags as it finds them. -/
def Factory.LeavesFlags (f : Factory σ) : Prop :=
  ∀ (node : Node) (tag : Value) (props : Option Props) (children : List Value) (host : σ),
    (f node tag props children host).2.1 = node.flags

theorem Factory.IsPure.isDetermined {f : Factory σ} (h : f.IsPure) : f.IsDetermined :=
  fun _ _ _ _ _ _ _ host host' htag hprops hchildren => (h.alike host host' rfl htag hprops hchildren).1

theorem Factory.element_leavesFlags : Factory.element.LeavesFlags := fun _ _ _ _ _ => rfl

namespace Draft

@[simp] theorem flags_markOwn (d : Draft) (dynamic : Bool) :
    (d.markOwn dynamic).flags = d.flags.join ⟨dynamic, false⟩ := by
  simp only [markOwn, Flags.join, Bool.or_false]

@[simp] theorem flags_markChildren (d : Draft) (dynamic : Bool) :
    (d.markChildren dynamic).flags = d.flags.join ⟨false, dynamic⟩ := by
  simp only [markChildren, Flags.join, Bool.or_false]

@[simp] theorem children_spreadProps (d : Draft) (value : Value) :
    (d.spreadProps value).children = d.children := by
  cases value <;> rfl

@[simp] theorem tag_spreadProps (d : Draft) (value : Value) : (d.spreadProps value).tag = d.tag := by
  cases value <;> rfl

end Draft

namespace Setting

/-! ## Tag and props

They are made by the instructions of the element itself, so neither what is kept nor what is built
below matters for them. -/

section Own

variable {s t : Setting σ}

/-- An element instruction adds a child and changes nothing else but the flags. -/
theorem own_run_element (s : Setting σ) (block : Nat) (body : List Op) (d : Draft) (p : Pass σ) :
    (s.run (.element block body) d p).1.tag = d.tag ∧
      (s.run (.element block body) d p).1.props = d.props := by
  cases hl : p.folds.lookup block with
  | some value =>
    rw [run_element_kept s body d hl]
    exact ⟨rfl, rfl⟩
  | none =>
    rw [run_element_built s body d hl]
    split <;> exact ⟨rfl, rfl⟩

/-- Without a field for them, an instruction does the same to the tag and the props in every use. -/
theorem own_run {op : Op} (h : op.fillsOwn = false) {d e : Draft} (p q : Pass σ)
    (htag : d.tag = e.tag) (hprops : d.props = e.props) :
    (s.run op d p).1.tag = (t.run op e q).1.tag ∧
      (s.run op d p).1.props = (t.run op e q).1.props := by
  cases op with
  | tag operand =>
    cases operand with
    | fixed value => simp only [run, Draft.setTag, Draft.markOwn, Operand.value, hprops, and_self]
    | field index => cases h
  | set name operand =>
    cases operand with
    | fixed value =>
      simp only [run, Draft.setProp, Draft.markOwn, Operand.value, htag, hprops, and_self]
    | field index => cases h
  | append name operand =>
    cases operand with
    | fixed value =>
      simp only [run, Draft.appendProp, Draft.markOwn, Operand.value, htag, hprops, and_self]
    | field index => cases h
  | spread index => cases h
  | child operand => simp only [run, Draft.addChild, Draft.markChildren, htag, hprops, and_self]
  | element block body =>
    obtain ⟨hs, hs'⟩ := own_run_element s block body d p
    obtain ⟨ht, ht'⟩ := own_run_element t block body e q
    exact ⟨hs.trans (htag.trans ht.symm), hs'.trans (hprops.trans ht'.symm)⟩

theorem own_runAll {ops : List Op} (h : ops.any Op.fillsOwn = false) {d e : Draft} (p q : Pass σ)
    (htag : d.tag = e.tag) (hprops : d.props = e.props) :
    (s.runAll ops d p).1.tag = (t.runAll ops e q).1.tag ∧
      (s.runAll ops d p).1.props = (t.runAll ops e q).1.props := by
  induction ops generalizing d e p q with
  | nil => exact ⟨htag, hprops⟩
  | cons op rest ih =>
    rw [List.any_cons, Bool.or_eq_false_iff] at h
    obtain ⟨htag, hprops⟩ := own_run (s := s) (t := t) h.1 p q htag hprops
    rw [runAll, runAll]
    exact ih h.2 _ _ htag hprops

end Own

/-! ## Kept values that are right -/

/-- The use of a template without folding and without values. -/
def bare (s : Setting σ) : Setting σ := { s with fold := false, values := [] }

/-- The element is static, and every bare build of it has the structure of the value. -/
def Settles (s : Setting σ) (block : Nat) (body : List Op) (value : Value) : Prop :=
  (Op.dependence body).isStatic = true ∧
    ∀ q : Pass σ, q.folds = [] → (s.bare.build block body q).1.plain = value.plain

/-- What is kept for elements with these blocks is right. -/
def Keeps (s : Setting σ) (blocks : List (Nat × List Op)) (folds : Folds) : Prop :=
  ∀ (block : Nat) (body : List Op) (value : Value), (block, body) ∈ blocks →
    folds.lookup block = some value → s.Settles block body value

theorem keeps_nil (s : Setting σ) (blocks : List (Nat × List Op)) : s.Keeps blocks [] :=
  fun _ _ _ _ h => by cases h

/-- A run does to a draft what its instructions say, as far as this can be told without the values. -/
structure Follows (s : Setting σ) (blocks : List (Nat × List Op)) (dependence : Flags) (d e : Draft)
    (result bareResult : Draft × Pass σ) : Prop where
  flags : result.1.flags = d.flags.join dependence
  kept : s.Keeps blocks result.2.folds
  children : dependence.children = false → plainAll d.children = plainAll e.children →
    plainAll result.1.children = plainAll bareResult.1.children

section Runs

variable {blocks : List (Nat × List Op)}

/-- An instruction that keeps nothing and adds no child follows if its flags do. -/
theorem follows_of_folds {s : Setting σ} {op : Op} {d e : Draft} {p q : Pass σ}
    (hp : s.Keeps blocks p.folds)
    (hflags : (s.run op d p).1.flags = d.flags.join (Op.dependence [op]))
    (hfolds : (s.run op d p).2.folds = p.folds)
    (hs : (s.run op d p).1.children = d.children)
    (hbare : (s.bare.run op e q).1.children = e.children) :
    s.Follows blocks (Op.dependence [op]) d e (s.run op d p) (s.bare.run op e q) := by
  refine ⟨hflags, hfolds ▸ hp, fun _ hchildren => ?_⟩
  rw [hs, hbare]
  exact hchildren

/-- A factory that leaves the flags leaves those of the body. -/
theorem flags_build {s : Setting σ} (hleaves : s.factory.LeavesFlags) (block : Nat) (body : List Op)
    (p : Pass σ) : (s.build block body p).2.1 = (s.runAll body .element p).1.flags :=
  hleaves ..

/-- A static element is built as in every bare run. -/
theorem plain_build {s : Setting σ} (hdetermined : s.factory.IsDetermined) (block : Nat)
    {body : List Op} {p q : Pass σ} (hstatic : (Op.dependence body).isStatic = true)
    (hs : s.Follows blocks (Op.dependence body) .element .element (s.runAll body .element p)
      (s.bare.runAll body .element q))
    (hbare : s.bare.Follows blocks (Op.dependence body) .element .element
      (s.bare.runAll body .element q) (s.bare.runAll body .element q)) :
    (s.build block body p).1.plain = (s.bare.build block body q).1.plain := by
  have hnone : Op.dependence body = {} := Flags.eq_none_of_isStatic hstatic
  have hown : body.any Op.fillsOwn = false := congrArg Flags.own hnone
  have hflags : (s.runAll body .element p).1.flags = (s.bare.runAll body .element q).1.flags :=
    hs.flags.trans hbare.flags.symm
  obtain ⟨htag, hprops⟩ := own_runAll (s := s) (t := s.bare) hown (d := .element) p q rfl rfl
  have hchildren := hs.children (congrArg Flags.children hnone) rfl
  simp only [build, hflags]
  exact hdetermined _ _ _ (congrArg plain htag) (congrArg (Option.map plainEntries) hprops) hchildren

mutual

theorem follows_run (hnodup : (blocks.map (·.1)).Nodup) : ∀ (op : Op) {s : Setting σ},
    s.factory.IsDetermined → s.factory.LeavesFlags → ∀ {d e : Draft} {p q : Pass σ},
    op.blocks ⊆ blocks → s.Keeps blocks p.folds → q.folds = [] →
    s.Follows blocks (Op.dependence [op]) d e (s.run op d p) (s.bare.run op e q)
  | .tag operand, s, _, _, d, e, p, q, _, hp, _ => by
    refine follows_of_folds hp ?_ rfl rfl rfl
    cases operand <;> simp [run, Draft.setTag, Op.dependence, Op.fillsOwn, Op.fillsChild,
      Op.blocksOfAll, Op.blocks]
  | .set name operand, s, _, _, d, e, p, q, _, hp, _ => by
    refine follows_of_folds hp ?_ rfl rfl rfl
    cases operand <;> simp [run, Draft.setProp, Op.dependence, Op.fillsOwn, Op.fillsChild,
      Op.blocksOfAll, Op.blocks]
  | .append name operand, s, _, _, d, e, p, q, _, hp, _ => by
    refine follows_of_folds hp ?_ rfl rfl rfl
    cases operand <;> simp [run, Draft.appendProp, Op.dependence, Op.fillsOwn, Op.fillsChild,
      Op.blocksOfAll, Op.blocks]
  | .spread index, s, _, _, d, e, p, q, _, hp, _ => by
    refine follows_of_folds hp ?_ ?_ ?_ ?_ <;>
      simp [run, Draft.markOwn, Op.dependence, Op.fillsOwn, Op.fillsChild, Op.blocksOfAll, Op.blocks,
        Flags.join]
  | .child operand, s, _, _, d, e, p, q, _, hp, _ => by
    refine ⟨?_, hp, fun hclear hchildren => ?_⟩
    · cases operand <;> simp [run, Draft.addChild, Op.dependence, Op.fillsOwn, Op.fillsChild,
        Op.blocksOfAll, Op.blocks]
    · cases operand with
      | fixed value =>
        simp only [run, Draft.addChild, Draft.markChildren, plainAll_append, hchildren, Operand.value]
      | field index => cases hclear
  | .element block body, s, hdetermined, hleaves, d, e, p, q, hsub, hp, hq => by
    have hmem : (block, body) ∈ blocks := hsub (List.mem_cons_self ..)
    have hinner : Op.blocksOfAll body ⊆ blocks := fun _ h => hsub (List.mem_cons_of_mem _ h)
    have hbare : ∀ r : Pass σ, r.folds = [] → s.bare.Follows blocks (Op.dependence body) .element
        .element (s.bare.runAll body .element r) (s.bare.runAll body .element r) := fun r hr =>
      follows_runAll hnodup body (s := s.bare) hdetermined hleaves hinner
        (hr ▸ keeps_nil s.bare blocks) hr
    have hbareFlags : (s.bare.build block body q).2.1 = Op.dependence body :=
      (flags_build (s := s.bare) hleaves block body q).trans (hbare q hq).flags
    have hqlookup : q.folds.lookup block = none := by rw [hq, List.lookup_nil]
    rw [run_element_built s.bare body e hqlookup, hbareFlags]
    cases hl : p.folds.lookup block with
    | some value =>
      -- what is kept is static, and what the bare run builds
      obtain ⟨hstatic, hvalue⟩ := hp block body value hmem hl
      rw [run_element_kept s body d hl, if_pos hstatic, Op.dependence_of_isStatic block hstatic]
      refine ⟨(Flags.join_none _).symm, hp, fun _ hchildren => ?_⟩
      simp only [Draft.addChild, plainAll_append, plainAll, hchildren, hvalue q hq]
    | none =>
      have hbody : ∀ r : Pass σ, r.folds = [] → s.Follows blocks (Op.dependence body) .element .element
          (s.runAll body .element p) (s.bare.runAll body .element r) := fun r hr =>
        follows_runAll hnodup body hdetermined hleaves hinner hp hr
      have hflags : (s.build block body p).2.1 = Op.dependence body :=
        (flags_build hleaves block body p).trans (hbody q hq).flags
      have hkept : s.Keeps blocks (s.build block body p).2.2.folds := (hbody q hq).kept
      rw [run_element_built s body d hl, hflags]
      by_cases hstatic : (Op.dependence body).isStatic = true
      · have hvalue : ∀ r : Pass σ, r.folds = [] →
            (s.build block body p).1.plain = (s.bare.build block body r).1.plain := fun r hr =>
          plain_build hdetermined block hstatic (hbody r hr) (hbare r hr)
        rw [if_pos hstatic, if_pos hstatic, Op.dependence_of_isStatic block hstatic]
        refine ⟨(Flags.join_none _).symm, ?_, fun _ hchildren => ?_⟩
        · split
          · exact forall_lookup_cons hkept hnodup hmem ⟨hstatic, fun r hr => (hvalue r hr).symm⟩
          · exact hkept
        · simp only [Draft.addChild, plainAll_append, plainAll, hchildren, hvalue q hq]
      · rw [if_neg hstatic, Op.dependence_of_not_isStatic block hstatic]
        exact ⟨Draft.flags_markChildren _ _, hkept, fun hclear => by cases hclear⟩

theorem follows_runAll (hnodup : (blocks.map (·.1)).Nodup) : ∀ (ops : List Op) {s : Setting σ},
    s.factory.IsDetermined → s.factory.LeavesFlags → ∀ {d e : Draft} {p q : Pass σ},
    Op.blocksOfAll ops ⊆ blocks → s.Keeps blocks p.folds → q.folds = [] →
    s.Follows blocks (Op.dependence ops) d e (s.runAll ops d p) (s.bare.runAll ops e q)
  | [], _, _, _, _, _, _, _, _, hp, _ =>
    ⟨(Flags.join_none _).symm, hp, fun _ hchildren => hchildren⟩
  | op :: rest, s, hdetermined, hleaves, d, e, p, q, hsub, hp, hq => by
    rw [Op.blocksOfAll, List.append_subset] at hsub
    have hop := follows_run hnodup op hdetermined hleaves (d := d) (e := e) hsub.1 hp hq
    have hrest := follows_runAll hnodup rest hdetermined hleaves
      (d := (s.run op d p).1) (e := (s.bare.run op e q).1) hsub.2 hop.kept
      (folds_run_afresh (s := s.bare) rfl op e q hq)
    rw [runAll, runAll, Op.dependence_cons]
    refine ⟨?_, hrest.kept, fun hclear hchildren => ?_⟩
    · rw [hrest.flags, hop.flags, Flags.join_assoc]
    · obtain ⟨hfirst, hlater⟩ := Bool.or_eq_false_iff.mp hclear
      exact hrest.children hlater (hop.children hfirst hchildren)

end

end Runs

/-! ## Handovers -/

/-- A handover tells what the draft is that the body has made, after kept values that are right. -/
def Tells (s : Setting σ) (blocks : List (Nat × List Op)) (c : Handover) : Prop :=
  ∃ block body, (block, body) ∈ blocks ∧ ∃ p : Pass σ, s.Keeps blocks p.folds ∧
    c = s.handover block (s.runAll body .element p).1

section Told

variable {s : Setting σ} {blocks : List (Nat × List Op)}

mutual

theorem tells_of_mem_handed (hnodup : (blocks.map (·.1)).Nodup)
    (hdetermined : s.factory.IsDetermined) (hleaves : s.factory.LeavesFlags) :
    ∀ (op : Op) {p : Pass σ}, op.blocks ⊆ blocks → s.Keeps blocks p.folds →
      ∀ c ∈ s.handed op p, s.Tells blocks c
  | .tag _, _, _, _, _, hc | .set _ _, _, _, _, _, hc | .append _ _, _, _, _, _, hc
  | .spread _, _, _, _, _, hc | .child _, _, _, _, _, hc => by
    rw [handed] at hc
    · cases hc
    · nofun
  | .element block body, p, hsub, hp, c, hc => by
    have hmem : (block, body) ∈ blocks := hsub (List.mem_cons_self ..)
    have hinner : Op.blocksOfAll body ⊆ blocks := fun _ h => hsub (List.mem_cons_of_mem _ h)
    cases hl : p.folds.lookup block with
    | some value =>
      rw [handed_kept s body hl] at hc
      cases hc
    | none =>
      rw [handed_built s body hl] at hc
      rcases List.mem_append.mp hc with hc | hc
      · exact tells_of_mem_handedAll hnodup hdetermined hleaves body hinner hp c hc
      · exact ⟨block, body, hmem, p, hp, List.mem_singleton.mp hc⟩

theorem tells_of_mem_handedAll (hnodup : (blocks.map (·.1)).Nodup)
    (hdetermined : s.factory.IsDetermined) (hleaves : s.factory.LeavesFlags) :
    ∀ (ops : List Op) {d : Draft} {p : Pass σ}, Op.blocksOfAll ops ⊆ blocks →
      s.Keeps blocks p.folds → ∀ c ∈ s.handedAll ops d p, s.Tells blocks c
  | [], _, _, _, _, _, hc => by cases hc
  | op :: rest, d, p, hsub, hp, c, hc => by
    rw [Op.blocksOfAll, List.append_subset] at hsub
    rcases List.mem_append.mp hc with hc | hc
    · exact tells_of_mem_handed hnodup hdetermined hleaves op hsub.1 hp c hc
    · have hop := follows_run hnodup op hdetermined hleaves (d := d) (e := d)
        (q := { folds := [], host := p.host }) hsub.1 hp rfl
      exact tells_of_mem_handedAll hnodup hdetermined hleaves rest hsub.2 hop.kept c hc

end

mutual

/-- What is kept is static, so a dynamic element is handed over, and so is each that it stands in. -/
theorem exists_mem_handed (hnodup : (blocks.map (·.1)).Nodup)
    (hdetermined : s.factory.IsDetermined) (hleaves : s.factory.LeavesFlags) {block : Nat}
    {body : List Op} (hdynamic : ¬ (Op.dependence body).isStatic = true) :
    ∀ (op : Op) {p : Pass σ}, op.blocks ⊆ blocks → s.Keeps blocks p.folds →
      (block, body) ∈ op.blocks → ∃ c ∈ s.handed op p, c.node.block = block
  | .tag _, _, _, _, h | .set _ _, _, _, _, h | .append _ _, _, _, _, h | .spread _, _, _, _, h
  | .child _, _, _, _, h => by cases h
  | .element outer inner, p, hsub, hp, h => by
    have hmem : (outer, inner) ∈ blocks := hsub (List.mem_cons_self ..)
    have hinner : Op.blocksOfAll inner ⊆ blocks := fun _ h => hsub (List.mem_cons_of_mem _ h)
    have houter : ¬ (Op.dependence inner).isStatic = true := by
      rcases List.mem_cons.mp h with heq | hbelow
      · obtain ⟨-, rfl⟩ := Prod.mk.inj heq
        exact hdynamic
      · exact fun hstatic => hdynamic (Op.isStatic_of_mem hstatic hbelow)
    have hl : p.folds.lookup outer = none := by
      cases hl : p.folds.lookup outer with
      | none => rfl
      | some value => exact absurd (hp outer inner value hmem hl).1 houter
    rw [handed_built s inner hl]
    rcases List.mem_cons.mp h with heq | hbelow
    · obtain ⟨rfl, -⟩ := Prod.mk.inj heq
      exact ⟨_, List.mem_append_right _ (List.mem_singleton_self _), rfl⟩
    · obtain ⟨c, hc, hblock⟩ :=
        exists_mem_handedAll hnodup hdetermined hleaves hdynamic inner (d := .element) hinner hp hbelow
      exact ⟨c, List.mem_append_left _ hc, hblock⟩

theorem exists_mem_handedAll (hnodup : (blocks.map (·.1)).Nodup)
    (hdetermined : s.factory.IsDetermined) (hleaves : s.factory.LeavesFlags) {block : Nat}
    {body : List Op} (hdynamic : ¬ (Op.dependence body).isStatic = true) :
    ∀ (ops : List Op) {d : Draft} {p : Pass σ}, Op.blocksOfAll ops ⊆ blocks →
      s.Keeps blocks p.folds → (block, body) ∈ Op.blocksOfAll ops →
      ∃ c ∈ s.handedAll ops d p, c.node.block = block
  | [], _, _, _, _, h => by cases h
  | op :: rest, d, p, hsub, hp, h => by
    rw [Op.blocksOfAll, List.append_subset] at hsub
    rcases List.mem_append.mp h with hop | hrest
    · obtain ⟨c, hc, hblock⟩ :=
        exists_mem_handed hnodup hdetermined hleaves hdynamic op hsub.1 hp hop
      exact ⟨c, List.mem_append_left _ hc, hblock⟩
    · have hkept := (follows_run hnodup op hdetermined hleaves (d := d) (e := d)
        (q := { folds := [], host := p.host }) hsub.1 hp rfl).kept
      obtain ⟨c, hc, hblock⟩ :=
        exists_mem_handedAll hnodup hdetermined hleaves hdynamic rest hsub.2 hkept hrest
      exact ⟨c, List.mem_append_right _ hc, hblock⟩

end

/-- The flags of a handover are those of the analysis. -/
theorem Tells.flags (hnodup : (blocks.map (·.1)).Nodup) (hdetermined : s.factory.IsDetermined)
    (hleaves : s.factory.LeavesFlags) (hinner : ∀ {block : Nat} {body : List Op},
      (block, body) ∈ blocks → Op.blocksOfAll body ⊆ blocks) {c : Handover} (h : s.Tells blocks c) :
    ∃ body, (c.node.block, body) ∈ blocks ∧ c.node.flags = Op.dependence body := by
  obtain ⟨block, body, hmem, p, hp, rfl⟩ := h
  have hbody := follows_runAll hnodup body hdetermined hleaves (d := .element) (e := .element)
    (q := { folds := [], host := p.host }) (hinner hmem) hp rfl
  exact ⟨body, hmem, hbody.flags⟩

/-- Two uses of a template by one factory hand over the same, as far as the flags are clear. -/
theorem Tells.agree {t : Setting σ} (htemplate : t.template = s.template)
    (hfactory : t.factory = s.factory) (hnodup : (blocks.map (·.1)).Nodup)
    (hdetermined : s.factory.IsDetermined) (hleaves : s.factory.LeavesFlags)
    (hinner : ∀ {block : Nat} {body : List Op}, (block, body) ∈ blocks →
      Op.blocksOfAll body ⊆ blocks) {c c' : Handover} (h : s.Tells blocks c)
    (h' : t.Tells blocks c') (hblock : c'.node.block = c.node.block) :
    (c.node.flags.own = false → c'.tag = c.tag ∧ c'.props = c.props) ∧
      (c.node.flags.children = false → plainAll c'.children = plainAll c.children) := by
  have hbare : t.bare = s.bare := by simp only [bare, htemplate, hfactory]
  obtain ⟨block, body, hmem, p, hp, rfl⟩ := h
  obtain ⟨block', body', hmem', p', hp', rfl⟩ := h'
  obtain rfl : block' = block := hblock
  obtain rfl : body' = body := body_unique hnodup hmem' hmem
  have hs := follows_runAll hnodup body' hdetermined hleaves (d := .element) (e := .element)
    (q := { folds := [], host := p.host }) (hinner hmem) hp rfl
  have ht := follows_runAll hnodup body' (s := t) (hfactory ▸ hdetermined) (hfactory ▸ hleaves)
    (d := .element) (e := .element) (q := { folds := [], host := p.host }) (hinner hmem) hp' rfl
  have hflags : (s.handover block' (s.runAll body' .element p).1).node.flags =
      Op.dependence body' := hs.flags
  rw [hflags]
  refine ⟨fun hown => own_runAll hown p' p rfl rfl, fun hchildren => ?_⟩
  -- both give the children of the bare run
  have htchildren := ht.children hchildren rfl
  rw [hbare] at htchildren
  exact htchildren.trans (hs.children hchildren rfl).symm

end Told

end Setting

/-! ## Uses of a template -/

/-- An evaluation of a template by some factory, after others by the same factory: each has its values
and folds or does not. -/
structure Use where
  past : List (Bool × List Value) := []
  fold : Bool := true
  values : List Value

namespace Use

/-- What is kept after evaluations, one after the other, and the state of the host then. -/
def keptAfter (serial : Nat) (f : Factory σ) (t : Template) :
    List (Bool × List Value) → Folds → σ → Folds × σ
  | [], folds, host => (folds, host)
  | (fold, values) :: past, folds, host =>
    let (_, p) := (Setting.mk serial f fold values).evaluate t folds host
    keptAfter serial f t past p.folds p.host

/-- What the factory is handed in this use of a template. -/
def handovers (serial : Nat) (f : Factory σ) (t : Template) (host : σ) (u : Use) : List Handover :=
  let (folds, host) := keptAfter serial f t u.past [] host
  (Setting.mk serial f u.fold u.values).handovers t folds host

section Kept

variable {f : Factory σ} {t : Template}

/-- Evaluations keep what is right. -/
theorem keeps_keptAfter (serial : Nat) (hnodup : (Op.numbersOfAll t.root).Nodup)
    (hdetermined : f.IsDetermined) (hleaves : f.LeavesFlags) (fold : Bool) (values : List Value)
    (past : List (Bool × List Value)) {folds : Folds} (host : σ)
    (h : (Setting.mk serial f fold values).Keeps (Op.blocksOfAll t.root) folds) :
    (Setting.mk serial f fold values).Keeps (Op.blocksOfAll t.root)
      (keptAfter serial f t past folds host).1 := by
  induction past generalizing folds host with
  | nil => exact h
  | cons evaluation past ih =>
    obtain ⟨fold', values'⟩ := evaluation
    have hrun := Setting.follows_runAll hnodup t.root (s := ⟨serial, f, fold', values'⟩) hdetermined
      hleaves (d := .root) (e := .root) (p := { folds, host }) (q := { folds := [], host })
      (List.Subset.refl _) h rfl
    exact ih _ hrun.kept

/-- Whatever a use hands over tells a draft of one of the template's elements. -/
theorem tells_handovers (serial : Nat) (hnodup : (Op.numbersOfAll t.root).Nodup)
    (hdetermined : f.IsDetermined) (hleaves : f.LeavesFlags) (host : σ) (u : Use) :
    ∀ c ∈ u.handovers serial f t host,
      (Setting.mk serial f u.fold u.values).Tells (Op.blocksOfAll t.root) c := by
  intro c hc
  have hkept := keeps_keptAfter serial hnodup hdetermined hleaves u.fold u.values u.past host
    (Setting.keeps_nil _ _)
  simp only [handovers, Setting.handovers_eq] at hc
  exact Setting.tells_of_mem_handedAll hnodup hdetermined hleaves t.root (List.Subset.refl _) hkept c hc

end Kept

/-- **Flags are exact and sound.** Let a factory leave the flags and give the same structure for the
same structure. In each use of a compiled template it is handed the flags of the analysis with each
element, and every element that depends on something is handed to it. Any two uses hand it the same
tag and props for an element whose own flag is clear, and the same children for an element whose
children's flag is clear. -/
theorem handovers_exact {f : Factory σ} (hdetermined : f.IsDetermined) (hleaves : f.LeavesFlags)
    (parts : List String) (serial : Nat) (u u' : Use) (host host' : σ) :
    let t := Template.compile parts
    (∀ c ∈ u.handovers serial f t host,
      ∃ body, (c.node.block, body) ∈ Op.blocksOfAll t.root ∧ c.node.flags = Op.dependence body) ∧
    (∀ block body, (block, body) ∈ Op.blocksOfAll t.root → ¬ (Op.dependence body).isStatic = true →
      ∃ c ∈ u.handovers serial f t host, c.node.block = block) ∧
    ∀ c ∈ u.handovers serial f t host, ∀ c' ∈ u'.handovers serial f t host',
      c'.node.block = c.node.block →
        (c.node.flags.own = false → c'.tag = c.tag ∧ c'.props = c.props) ∧
        (c.node.flags.children = false → plainAll c'.children = plainAll c.children) := by
  intro t
  have hnodup : (Op.numbersOfAll t.root).Nodup := Template.nodup_numbers_compile parts
  have hinner : ∀ {block : Nat} {body : List Op}, (block, body) ∈ Op.blocksOfAll t.root →
      Op.blocksOfAll body ⊆ Op.blocksOfAll t.root := Op.blocksOfAll_subset_blocksOfAll
  have htells := tells_handovers serial hnodup hdetermined hleaves host u
  have htells' := tells_handovers serial hnodup hdetermined hleaves host' u'
  refine ⟨fun c hc => (htells c hc).flags hnodup hdetermined hleaves hinner,
    fun block body hmem hdynamic => ?_, fun c hc c' hc' hblock => ?_⟩
  · have hkept := keeps_keptAfter serial hnodup hdetermined hleaves u.fold u.values u.past host
      (Setting.keeps_nil _ _)
    simp only [handovers, Setting.handovers_eq]
    exact Setting.exists_mem_handedAll hnodup hdetermined hleaves hdynamic t.root
      (List.Subset.refl _) hkept hmem
  · exact Setting.Tells.agree (s := ⟨serial, f, u.fold, u.values⟩)
      (t := ⟨serial, f, u'.fold, u'.values⟩) rfl rfl hnodup hdetermined hleaves hinner (htells c hc)
      (htells' c' hc') hblock

/-- An element with a class that is given, beside a static one and one with a child that is given. -/
def page : List String := ["<div class=", "><b>x</b><p id=q>", "</p></div>"]

/-- The static element is built in the first use only. In the second, the element `p` has the same tag
and props although the values have changed. -/
theorem handovers_exact_page :
    let t := Template.compile page
    let first : Use := { values := [.str "a", .str "b"] }
    let second : Use := { past := [(true, [.str "a", .str "b"])], values := [.null, .list []] }
    Factory.element.IsDetermined ∧ Factory.element.LeavesFlags ∧
      (first.handovers 7 Factory.element t {}).map (fun c => (c.node.block, c.node.flags)) =
        [(2, ⟨false, false⟩), (3, ⟨false, true⟩), (1, ⟨true, true⟩)] ∧
      (second.handovers 7 Factory.element t {}).map (fun c => (c.node.block, c.node.flags)) =
        [(3, ⟨false, true⟩), (1, ⟨true, true⟩)] ∧
      ∀ c ∈ first.handovers 7 Factory.element t {}, ∀ c' ∈ second.handovers 7 Factory.element t {},
        c'.node.block = c.node.block → c.node.flags.own = false → c'.tag = c.tag ∧ c'.props = c.props := by
  intro t first second
  have hdetermined := Factory.element_isPure.isDetermined
  have hleaves := Factory.element_leavesFlags
  obtain ⟨-, -, hagree⟩ := handovers_exact hdetermined hleaves page 7 first second {} {}
  exact ⟨hdetermined, hleaves, by cbv, by cbv, fun c hc c' hc' hblock =>
    (hagree c hc c' hc' hblock).1⟩

end Use

end TaggedMarkup
