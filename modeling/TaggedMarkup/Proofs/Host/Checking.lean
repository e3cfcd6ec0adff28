import Mathlib.Data.List.Forall2
import TaggedMarkup.Proofs.Render.Asking

/-!
# What checking accepts

The table that a check goes by: which **roots** a value has, which roots are rejected and with which
error (`Checked.rootError?`), and what becomes of the others (`Checked.Form`). A check fails with the
error of the first root that is rejected; otherwise every root gets its form.

Checking makes elements and pending values, and changes nothing that is there: the world has **grown**.
-/

namespace TaggedMarkup

namespace Value

/-- What is checked one by one: the members of a list, those of the lists in it among them, or else the
value itself. -/
def roots : Value → List Value
  | list members => splice members
  | value => [value]

/-- The members of a list, or else the value itself. -/
def members : Value → List Value
  | list members => members
  | value => [value]

end Value

namespace Checked

/-- The error for the root, if it is rejected. -/
def rootError? : Value → Option Error
  | .list _ => some .unexpectedNestedArray
  | .bool true => some (kindError "boolean")
  | .component _ => some (kindError "function")
  | .sequence _ => some (typeError "undefined")
  | .element e => if hasUsableType e.type then none else some (typeError e.type.typeName)
  | .object map =>
    let e := Element.ofEntries 0 map
    if hasUsableType e.type then none else some (typeError e.type.typeName)
  | .undefined | .null | .bool false | .number _ | .str _ | .pending _ => none

/-- What becomes of a root that is accepted. -/
inductive Form : Value → Value → Prop
  | undefined : Form .undefined (.str "")
  | null : Form .null (.str "")
  | false : Form (.bool false) (.str "")
  | number (d : Double) : Form (.number d) (.str d.text)
  | str (s : String) : Form (.str s) (.str s)
  | element {e : Element} (stamp : Nat) : hasUsableType e.type →
    Form (.element e) (.element { e with stamp, children := Value.splice e.children })
  | object {map : Props} (stamp : Nat) : hasUsableType (Element.ofEntries stamp map).type →
    Form (.object map) (.element { Element.ofEntries stamp map with
      children := Value.splice (Element.ofEntries stamp map).children })
  | pending (source pending : Nat) : Form (.pending source) (.pending pending)

/-- No form is a list. -/
theorem Form.not_isList {x y : Value} (h : Form x y) : y.isList = Bool.false := by
  cases h <;> rfl

end Checked

/-! ## The world grows -/

/-- What came of it. -/
def Stage.outcome? : Stage → Option Outcome
  | done outcome => some outcome
  | _ => none

namespace World

/-- What a pending value does once it is awaited. -/
def job? (pending : Nat) (w : World) : Option Job := w.pendings[pending]?.map (·.job)

theorem lt_size_of_job? {w : World} {pending : Nat} {job : Job} (h : w.job? pending = some job) :
    pending < w.pendings.size := by
  obtain ⟨cell, hcell, -⟩ := Option.map_eq_some_iff.mp h
  exact lt_size_of_getElem? hcell

theorem job?_of_getElem? {w : World} {pending : Nat} {cell : PendingCell}
    (h : w.pendings[pending]? = some cell) : w.job? pending = some cell.job := by
  rw [job?, h, Option.map_some]

theorem peek_of_getElem? {w : World} {pending : Nat} {cell : PendingCell}
    (h : w.pendings[pending]? = some cell) :
    w.peek pending = cell.stage.outcome? := by
  obtain ⟨label, job, stage, waiters⟩ := cell
  rw [peek, h]
  cases stage <;> rfl

/-- Jobs and outcomes are seen. -/
theorem job?_seen (w : World) (pending : Nat) : w.seen.job? pending = w.job? pending := by
  rw [job?, job?, seen_getElem?, Option.map_map]
  rfl

theorem peek_seen (w : World) (pending : Nat) : w.seen.peek pending = w.peek pending := by
  unfold peek
  rw [seen_getElem?]
  cases w.pendings[pending]? with
  | none => rfl
  | some cell =>
    obtain ⟨label, job, stage, waiters⟩ := cell
    cases stage <;> rfl

/-- The pending values that there are keep their jobs. -/
structure Lasts (w v : World) : Prop where
  job? : ∀ {pending : Nat} {job : Job}, w.job? pending = some job → v.job? pending = some job
  size : w.pendings.size ≤ v.pendings.size

/-- There may be more pending values, but nothing has come of any. -/
structure Grown (w v : World) : Prop extends Lasts w v where
  peek : ∀ (pending : Nat), v.peek pending = w.peek pending

theorem Lasts.refl (w : World) : Lasts w w := ⟨id, Nat.le_refl _⟩

theorem Lasts.trans {u v w : World} (h : Lasts w v) (h' : Lasts v u) : Lasts w u where
  job? hjob := h'.job? (h.job? hjob)
  size := Nat.le_trans h.size h'.size

namespace Grown

variable {u v w : World}

theorem refl (w : World) : Grown w w := ⟨.refl w, fun _ => rfl⟩

theorem trans (h : Grown w v) (h' : Grown v u) : Grown w u where
  toLasts := h.toLasts.trans h'.toLasts
  peek pending := (h'.peek pending).trans (h.peek pending)

theorem of_pendings (h : v.pendings = w.pendings) : Grown w v where
  job? hjob := by
    rw [World.job?, h]
    exact hjob
  peek pending := by rw [World.peek, World.peek, h]
  size := Nat.le_of_eq (congrArg Array.size h.symm)

theorem of_seen (h : v.seen = w.seen) : Grown w v where
  job? hjob := by
    rw [← job?_seen, h, job?_seen]
    exact hjob
  peek pending := by rw [← peek_seen, h, peek_seen]
  size := by
    have hsize := congrArg (fun w => w.pendings.size) h
    simp only [seen, Array.size_map] at hsize
    exact Nat.le_of_eq hsize.symm

theorem newPending (label : Option String) (job : Job) (w : World) :
    Grown w (w.newPending { label, job }).2 where
  job? {pending _} hjob := by
    have hlt := lt_size_of_job? hjob
    rw [World.job?, World.newPending, Array.getElem?_push, if_neg (Nat.ne_of_lt hlt)]
    exact hjob
  peek pending := by
    rw [World.peek, World.peek, World.newPending, Array.getElem?_push]
    by_cases hnew : pending = w.pendings.size
    · rw [if_pos hnew, hnew, Array.getElem?_eq_none (Nat.le_refl _)]
    · rw [if_neg hnew]
  size := by
    rw [World.newPending, Array.size_push]
    exact Nat.le_succ _

/-- Host code awaits nothing. -/
theorem run (a : Action) (w : World) : Grown w (a.run w).2 := by
  refine a.run_stable (P := Grown w) ⟨?_, ?_, ?_, ?_, ?_⟩ (.refl w)
  · exact fun _ _ h => h.trans (.of_pendings rfl)
  · exact fun _ h => h.trans (.of_pendings rfl)
  · exact fun _ _ h => h.trans (.of_pendings rfl)
  · exact fun label job h => h.trans (newPending label job _)
  · exact fun _ _ h => h.trans (.of_pendings rfl)

end Grown

/-- Two worlds that differ in bookkeeping, the clock, the log and stamps only. -/
structure Same (w v : World) : Prop where
  names : v.names = w.names
  components : v.components = w.components
  sequences : v.sequences = w.sequences
  workshop : v.workshop = w.workshop
  job? : ∀ n, v.job? n = w.job? n
  peek : ∀ n, v.peek n = w.peek n
  size : v.pendings.size = w.pendings.size

namespace Same

variable {u v w : World}

theorem refl (w : World) : Same w w := ⟨rfl, rfl, rfl, rfl, fun _ => rfl, fun _ => rfl, rfl⟩

theorem trans (h : Same w v) (h' : Same v u) : Same w u where
  names := h'.names.trans h.names
  components := h'.components.trans h.components
  sequences := h'.sequences.trans h.sequences
  workshop := h'.workshop.trans h.workshop
  job? n := (h'.job? n).trans (h.job? n)
  peek n := (h'.peek n).trans (h.peek n)
  size := h'.size.trans h.size

theorem symm (h : Same w v) : Same v w :=
  ⟨h.names.symm, h.components.symm, h.sequences.symm, h.workshop.symm, fun n => (h.job? n).symm,
    fun n => (h.peek n).symm, h.size.symm⟩

theorem grown (h : Same w v) : Grown w v :=
  ⟨⟨fun hjob => (h.job? _).trans hjob, Nat.le_of_eq h.size.symm⟩, h.peek⟩

/-- What is not seen does not matter. -/
theorem of_seen (h : v.seen = w.seen) : Same w v where
  names := show v.seen.names = w.seen.names by rw [h]
  components := show v.seen.components = w.seen.components by rw [h]
  sequences := show v.seen.sequences = w.seen.sequences by rw [h]
  workshop := show v.seen.workshop = w.seen.workshop by rw [h]
  job? n := by rw [← job?_seen, h, job?_seen]
  peek n := by rw [← peek_seen, h, peek_seen]
  size := by
    have hsize := congrArg (fun w => w.pendings.size) h
    simpa only [seen, Array.size_map] using hsize

theorem seen (w : World) : Same w w.seen where
  names := rfl
  components := rfl
  sequences := rfl
  workshop := rfl
  job? n := job?_seen w n
  peek n := peek_seen w n
  size := by rw [World.seen, Array.size_map]

theorem note (event : Event) (w : World) : Same w (w.note event) :=
  ⟨rfl, rfl, rfl, rfl, fun _ => rfl, fun _ => rfl, rfl⟩

theorem noteAll (reports : List Report) (w : World) : Same w (w.noteAll reports) := by
  unfold World.noteAll
  induction reports generalizing w with
  | nil => exact .refl w
  | cons report rest ih => exact (Same.note _ w).trans (ih _)

theorem newElement (type : ElementType) (props : Props) (children : List Value) (raw : Bool)
    (w : World) : Same w (w.newElement type props children raw).2 :=
  ⟨rfl, rfl, rfl, rfl, fun _ => rfl, fun _ => rfl, rfl⟩

theorem sleepUntil (moment : Nat) (w : World) : Same w (w.sleepUntil moment) :=
  ⟨rfl, rfl, rfl, rfl, fun _ => rfl, fun _ => rfl, rfl⟩

end Same

theorem job?_newPending (label : Option String) (job : Job) (w : World) :
    (w.newPending { label, job }).2.job? w.pendings.size = some job := by
  rw [job?, newPending, Array.getElem?_push, if_pos rfl, Option.map_some]

/-- The one is the checked form of the other, and if it is a pending value then one with this job, made
when there were that many or more. -/
def IsFormOf (w : World) (base : Nat) (x y : Value) : Prop :=
  Checked.Form x y ∧ ∀ source pending, x = .pending source → y = .pending pending →
    base ≤ pending ∧ w.job? pending = some (.checking source)

theorem IsFormOf.grown {w v : World} {base : Nat} {x y : Value} (h : w.IsFormOf base x y)
    (hgrown : Grown w v) : v.IsFormOf base x y := by
  refine ⟨h.1, fun source pending hx hy => ?_⟩
  obtain ⟨hbase, hjob⟩ := h.2 source pending hx hy
  exact ⟨hbase, hgrown.job? hjob⟩

/-- What is no pending value has no job. -/
theorem IsFormOf.of_form {w : World} {base : Nat} {x y : Value} (h : Checked.Form x y)
    (hx : ∀ source, x ≠ .pending source) : w.IsFormOf base x y :=
  ⟨h, fun source _ hsource => absurd hsource (hx source)⟩

end World

/-! ## Checks -/

namespace Checked

open World (Grown IsFormOf)

variable {base : Nat} {w : World}

/-- The check comes to an element like this one but for the stamp. -/
theorem run_built (e : Element) (next : Value → Action) (w : World) :
    ∃ stamp u, (Action.element e.type e.props (Value.splice e.children) e.raw next).run w =
      (next (.element { e with stamp, children := Value.splice e.children })).run u ∧ World.Same w u :=
  ⟨_, _, rfl, .newElement e.type e.props (Value.splice e.children) e.raw w⟩

theorem splice_eq_self {values : List Value} (h : ¬values.any Value.isList) :
    Value.splice values = values := by
  induction values with
  | nil => rfl
  | cons value rest ih =>
    simp only [List.any_cons, Bool.or_eq_true, not_or] at h
    cases value with
    | list members => exact absurd rfl h.1
    | _ => exact congrArg (_ :: ·) (ih h.2)

/-- The check of what is accepted, unless it is a pending value, changes nothing. -/
theorem root_same {x : Value} (hx : rootError? x = none) (hpending : ∀ source, x ≠ .pending source)
    (next : Value → Action) (w : World) :
    ∃ y u, (root x next).run w = (next y).run u ∧ World.Same w u ∧ Form x y := by
  cases x with
  | undefined => exact ⟨_, _, rfl, .refl w, .undefined⟩
  | null => exact ⟨_, _, rfl, .refl w, .null⟩
  | number d => exact ⟨_, _, rfl, .refl w, .number d⟩
  | str s => exact ⟨_, _, rfl, .refl w, .str s⟩
  | bool b =>
    cases b with
    | true => cases hx
    | false => exact ⟨_, _, rfl, .refl w, .false⟩
  | pending source => exact absurd rfl (hpending source)
  | element e =>
    by_cases husable : hasUsableType e.type = true
    · rw [root, element, if_pos husable]
      by_cases hlists : e.children.any Value.isList = true
      · rw [if_pos hlists]
        obtain ⟨stamp, u, hrun, hsame⟩ := run_built e next w
        exact ⟨_, u, hrun, hsame, .element stamp husable⟩
      · rw [if_neg hlists]
        have hform := Form.element (e := e) e.stamp husable
        rw [splice_eq_self hlists] at hform
        exact ⟨_, w, rfl, .refl w, hform⟩
    · rw [rootError?, if_neg husable] at hx
      cases hx
  | object map =>
    by_cases husable : hasUsableType (Element.ofEntries 0 map).type = true
    · rw [root, entries, if_pos husable]
      obtain ⟨stamp, u, hrun, hsame⟩ := run_built (Element.ofEntries 0 map) next w
      exact ⟨_, u, hrun, hsame, .object stamp husable⟩
    · rw [rootError?, if_neg husable] at hx
      cases hx
  | list | sequence | component => cases hx

/-- What is rejected ends the check. -/
theorem root_rejected {x : Value} {error : Error} (hx : rootError? x = some error)
    (next : Value → Action) (w : World) : (root x next).run w = (.error error, w) := by
  cases x with
  | undefined | null | number | str | pending => cases hx
  | bool b =>
    cases b with
    | true =>
      cases hx
      rfl
    | false => cases hx
  | element e =>
    by_cases husable : hasUsableType e.type = true
    · rw [rootError?, if_pos husable] at hx
      cases hx
    · rw [rootError?, if_neg husable] at hx
      cases hx
      rw [root, element, if_neg husable]
      rfl
  | object map =>
    by_cases husable : hasUsableType (Element.ofEntries 0 map).type = true
    · rw [rootError?, if_pos husable] at hx
      cases hx
    · rw [rootError?, if_neg husable] at hx
      cases hx
      rw [root, entries, if_neg husable]
      rfl
  | list | sequence | component =>
    cases hx
    rfl

/-- A check goes on with the form of a root that is accepted, and rejects every other one. -/
theorem root_run (x : Value) (next : Value → Action) (hbase : base ≤ w.pendings.size) :
    match rootError? x with
    | some error => (root x next).run w = (.error error, w)
    | none => ∃ y u, (root x next).run w = (next y).run u ∧ Grown w u ∧ u.IsFormOf base x y := by
  cases hx : rootError? x with
  | some error => exact root_rejected hx next w
  | none =>
    by_cases hpending : ∃ source, x = .pending source
    · obtain ⟨source, rfl⟩ := hpending
      refine ⟨_, _, rfl, .newPending none (.checking source) w, .pending _ _, ?_⟩
      rintro _ _ ⟨⟩ ⟨⟩
      exact ⟨hbase, World.job?_newPending none (.checking source) w⟩
    · have hnot : ∀ source, x ≠ .pending source := fun source h => hpending ⟨source, h⟩
      obtain ⟨y, u, hrun, hsame, hform⟩ := root_same hx hnot next w
      exact ⟨y, u, hrun, hsame.grown, .of_form hform hnot⟩

/-- The first error ends the check of roots; without one every root gets its form. -/
theorem roots_run (xs : List Value) (next : List Value → Action) (hbase : base ≤ w.pendings.size) :
    match xs.findSome? rootError? with
    | some error => ∃ u, (roots xs next).run w = (.error error, u)
    | none => ∃ ys u, (roots xs next).run w = (next ys).run u ∧ Grown w u ∧
      List.Forall₂ (u.IsFormOf base) xs ys := by
  induction xs generalizing next w with
  | nil => exact ⟨[], w, rfl, .refl w, .nil⟩
  | cons x rest ih =>
    have hroot := root_run (w := w) x (fun checked => roots rest fun more => next (checked :: more))
      hbase
    rw [List.findSome?_cons]
    cases hx : rootError? x with
    | some error =>
      rw [hx] at hroot
      exact ⟨w, hroot⟩
    | none =>
      rw [hx] at hroot
      obtain ⟨y, u, hrun, hgrown, hy⟩ := hroot
      have hrest := ih (fun more => next (y :: more)) (Nat.le_trans hbase hgrown.size)
      dsimp only
      cases hr : rest.findSome? rootError? with
      | some error =>
        rw [hr] at hrest
        obtain ⟨v, hfail⟩ := hrest
        exact ⟨v, hrun.trans hfail⟩
      | none =>
        rw [hr] at hrest
        obtain ⟨ys, v, hmore, hgrown', hys⟩ := hrest
        exact ⟨y :: ys, v, hrun.trans hmore, hgrown.trans hgrown', .cons (hy.grown hgrown') hys⟩

/-- What a check of the result of a template comes to. -/
theorem result_run (r : Value) (hbase : base ≤ w.pendings.size) :
    match r.roots.findSome? rootError? with
    | some error => ∃ u, (result r .give).run w = (.error error, u)
    | none => ∃ y u, (result r .give).run w = (.ok y, u) ∧ Grown w u ∧ y.isList = r.isList ∧
      List.Forall₂ (u.IsFormOf base) r.roots y.members := by
  by_cases hlist : ∃ members, r = .list members
  · obtain ⟨members, rfl⟩ := hlist
    have hroots := roots_run (w := w) (Value.splice members) (fun checked => .give (.list checked))
      hbase
    rw [Value.roots, result]
    cases hr : (Value.splice members).findSome? rootError? with
    | some error =>
      rw [hr] at hroots
      exact hroots
    | none =>
      rw [hr] at hroots
      obtain ⟨ys, u, hrun, hgrown, hys⟩ := hroots
      exact ⟨_, u, hrun, hgrown, rfl, hys⟩
  · have hroot := root_run (w := w) r .give hbase
    have hresult : result r .give = root r .give := by
      cases r with
      | list members => exact absurd ⟨members, rfl⟩ hlist
      | _ => rfl
    have hsame : r.roots = [r] := by
      cases r with
      | list members => exact absurd ⟨members, rfl⟩ hlist
      | _ => rfl
    have hnot : r.isList = false := by
      cases r with
      | list members => exact absurd ⟨members, rfl⟩ hlist
      | _ => rfl
    rw [hresult, hsame, List.findSome?_singleton]
    cases hr : rootError? r with
    | some error =>
      rw [hr] at hroot
      exact ⟨w, hroot⟩
    | none =>
      rw [hr] at hroot
      obtain ⟨y, u, hrun, hgrown, hy⟩ := hroot
      have hy' : y.members = [y] := by
        have := hy.1.not_isList
        cases y with
        | list => cases this
        | _ => rfl
      refine ⟨y, u, hrun, hgrown, hy.1.not_isList.trans hnot.symm, ?_⟩
      rw [hy']
      exact .cons hy .nil

end Checked

end TaggedMarkup
