import TaggedMarkup.Proofs.Render.Checks
import TaggedMarkup.Proofs.Template.Twins

/-!
# Host code does the same in twin worlds

Two worlds are **twins** under a renaming of pending values if they hold the same things but for twins; what
only concerns the clock, the log and who waits where may differ, and the second world may have pending values
of its own besides. Code is its own twin if it does not look at numbers and stamps, and at no other pending
values than those there are: then it does the same in both worlds, and leaves twins. What the two make then
may get other numbers, so that the renaming grows.

The relation on code looks **ahead**: what code goes on to do with a value has to be the same for twins under
every renaming that the one in question may have grown to by then.
-/

namespace TaggedMarkup

/-- Code that does the same with twins. -/
inductive Action.Twin : Renaming → Action → Action → Prop
  | give {ρ : Renaming} {x y : Value} : Value.Twin ρ x y → Twin ρ (.give x) (.give y)
  | fail {ρ : Renaming} (error : Error) : Twin ρ (.fail error) (.fail error)
  | named {ρ : Renaming} (name : String) {next next' : Value → Action} :
    (∀ σ x y, ρ <+: σ → Value.Twin σ x y → Twin σ (next x) (next' y)) →
      Twin ρ (.named name next) (.named name next')
  | element {ρ : Renaming} {type : ElementType} {props props' : Props}
    {children children' : List Value} {raw : Bool} {next next' : Value → Action} :
    Entries.Twin ρ props props' → List.Forall₂ (Value.Twin ρ) children children' →
      (∀ σ x y, ρ <+: σ → Value.Twin σ x y → Twin σ (next x) (next' y)) →
        Twin ρ (.element type props children raw next) (.element type props' children' raw next')
  | component {ρ : Renaming} {name : String} {label label' : Option String}
    {keeps keeps' : List Value} {body body' : Props → List Value → Action}
    {next next' : Value → Action} :
    (∀ σ props props' children children', ρ <+: σ → Entries.Twin σ props props' →
      List.Forall₂ (Value.Twin σ) children children' →
        Twin σ (body props children) (body' props' children')) →
      (∀ σ x y, ρ <+: σ → Value.Twin σ x y → Twin σ (next x) (next' y)) →
        Twin ρ (.component name label keeps body next) (.component name label' keeps' body' next')
  | pending {ρ : Renaming} {label label' : Option String} {delay delay' : Nat}
    {keeps keeps' : List Value} {body body' : Action} {next next' : Value → Action} :
    Twin ρ body body' → (∀ σ x y, ρ <+: σ → Value.Twin σ x y → Twin σ (next x) (next' y)) →
      Twin ρ (.pending label delay keeps body next) (.pending label' delay' keeps' body' next')
  | sequence {ρ : Renaming} {label label' : Option String} {members members' : List (Nat × Value)}
    {next next' : Value → Action} :
    List.Forall₂ (fun a b => Value.Twin ρ a.2 b.2) members members' →
      (∀ σ x y, ρ <+: σ → Value.Twin σ x y → Twin σ (next x) (next' y)) →
        Twin ρ (.sequence label members next) (.sequence label' members' next')
  | template {ρ : Renaming} (statics : Statics) {values values' : List Value}
    {next next' : Value → Action} : List.Forall₂ (Value.Twin ρ) values values' →
      (∀ σ x y, ρ <+: σ → Value.Twin σ x y → Twin σ (next x) (next' y)) →
        Twin ρ (.template statics values next) (.template statics values' next')
  | checking {ρ : Renaming} {source source' : Nat} {next next' : Value → Action} :
    ρ[source]? = some source' →
      (∀ σ x y, ρ <+: σ → Value.Twin σ x y → Twin σ (next x) (next' y)) →
        Twin ρ (.checking source next) (.checking source' next')

/-- An outcome that is the same but for twins. -/
inductive Outcome.Twin (ρ : Renaming) : Outcome → Outcome → Prop
  | ok {x y : Value} : Value.Twin ρ x y → Outcome.Twin ρ (.ok x) (.ok y)
  | error (error : Error) : Outcome.Twin ρ (.error error) (.error error)

/-- The same work, but for twins. -/
inductive Job.Twin (ρ : Renaming) : Job → Job → Prop
  | after {delay delay' : Nat} {keeps keeps' : List Value} {body body' : Action} :
    Action.Twin ρ body body' → Job.Twin ρ (.after delay keeps body) (.after delay' keeps' body')
  | checking {source source' : Nat} : ρ[source]? = some source' →
    Job.Twin ρ (.checking source) (.checking source')

/-- Components that do the same with twins, now and later. -/
def ComponentCell.Twin (ρ : Renaming) (c d : ComponentCell) : Prop :=
  ∀ σ props props' children children', ρ <+: σ → Entries.Twin σ props props' →
    List.Forall₂ (Value.Twin σ) children children' →
      Action.Twin σ (c.body props children) (d.body props' children')

/-- Sequences with twins for members, both of them taken or neither. -/
structure SequenceCell.Twin (ρ : Renaming) (c d : SequenceCell) : Prop where
  members : List.Forall₂ (fun a b => Value.Twin ρ a.2 b.2) c.members d.members
  taken : c.taken = d.taken

variable {ρ σ τ : Renaming}

/-! ## The renaming grows -/

theorem Action.Twin.mono (hρ : ρ <+: σ) {a b : Action} (h : Action.Twin ρ a b) :
    Action.Twin σ a b := by
  induction h generalizing σ with
  | give hxy => exact .give (hxy.mono hρ)
  | fail error => exact .fail error
  | named name hnext _ => exact .named name fun τ x y hτ => hnext τ x y (hρ.trans hτ)
  | element hprops hchildren hnext _ =>
    exact .element (hprops.mono hρ) (Value.Twin.monoAll hρ hchildren) fun τ x y hτ =>
      hnext τ x y (hρ.trans hτ)
  | component hbody hnext _ _ =>
    exact .component (fun τ props props' children children' hτ =>
      hbody τ props props' children children' (hρ.trans hτ)) fun τ x y hτ =>
        hnext τ x y (hρ.trans hτ)
  | pending _ hnext ih _ => exact .pending (ih hρ) fun τ x y hτ => hnext τ x y (hρ.trans hτ)
  | sequence hmembers hnext _ =>
    exact .sequence (hmembers.imp fun _ _ hab => hab.mono hρ) fun τ x y hτ =>
      hnext τ x y (hρ.trans hτ)
  | template statics hvalues hnext _ =>
    exact .template statics (Value.Twin.monoAll hρ hvalues) fun τ x y hτ =>
      hnext τ x y (hρ.trans hτ)
  | checking hsource hnext _ =>
    exact .checking (Renaming.grow hρ hsource) fun τ x y hτ => hnext τ x y (hρ.trans hτ)

theorem Outcome.Twin.mono (hρ : ρ <+: σ) {o o' : Outcome} (h : Outcome.Twin ρ o o') :
    Outcome.Twin σ o o' := by
  cases h with
  | ok hxy => exact .ok (hxy.mono hρ)
  | error error => exact .error error

theorem Job.Twin.mono (hρ : ρ <+: σ) {job job' : Job} (h : Job.Twin ρ job job') :
    Job.Twin σ job job' := by
  cases h with
  | after hbody => exact .after (hbody.mono hρ)
  | checking hsource => exact .checking (Renaming.grow hρ hsource)

theorem ComponentCell.Twin.mono (hρ : ρ <+: σ) {c d : ComponentCell} (h : ComponentCell.Twin ρ c d) :
    ComponentCell.Twin σ c d :=
  fun τ props props' children children' hτ => h τ props props' children children' (hρ.trans hτ)

theorem SequenceCell.Twin.mono (hρ : ρ <+: σ) {c d : SequenceCell} (h : SequenceCell.Twin ρ c d) :
    SequenceCell.Twin σ c d :=
  ⟨h.members.imp fun _ _ hab => hab.mono hρ, h.taken⟩

/-! ## Twin worlds -/

namespace World

/-- The one is the checked form of the other, and if it is a pending value then one with this job, that is
no twin. -/
def IsOwnForm (ρ : Renaming) (v : World) (x y : Value) : Prop :=
  Checked.Form x y ∧ ∀ source pending, x = .pending source → y = .pending pending →
    pending ∉ ρ ∧ v.job? pending = some (.checking source)

/-- The second world has gone on, and the renaming has grown by pending values that it made since. -/
structure Onward (ρ : Renaming) (v : World) (σ : Renaming) (v' : World) : Prop where
  pre : ρ <+: σ
  fresh : ∀ q ∈ σ, q ∈ ρ ∨ v.pendings.size ≤ q
  lasts : Lasts v v'

namespace Onward

theorem refl (ρ : Renaming) (v : World) : Onward ρ v ρ v := ⟨List.prefix_refl ρ, fun _ => .inl, .refl v⟩

theorem trans {u v w : World} (h : Onward ρ w σ v) (h' : Onward σ v τ u) : Onward ρ w τ u where
  pre := h.pre.trans h'.pre
  fresh q hq := (h'.fresh q hq).elim (h.fresh q) fun hfresh => .inr (Nat.le_trans h.lasts.size hfresh)
  lasts := h.lasts.trans h'.lasts

theorem of_lasts {v u : World} (h : Lasts v u) : Onward ρ v ρ u := ⟨List.prefix_refl ρ, fun _ => .inl, h⟩

end Onward

/-- The same world, but for twins. The second one may have checked forms of its own, which are answered in
the way of checks. -/
structure Twin (ρ : Renaming) (w v : World) : Prop where
  names : Entries.Twin ρ w.names v.names
  components : ∀ n : Nat, Option.Rel (ComponentCell.Twin ρ) w.components[n]? v.components[n]?
  sequences : ∀ n : Nat, Option.Rel (SequenceCell.Twin ρ) w.sequences[n]? v.sequences[n]?
  workshop : Workshop.Twin ρ w.workshop v.workshop
  length : ρ.length = w.pendings.size
  sorted : ρ.Pairwise (· < ·)
  below : ∀ q ∈ ρ, q < v.pendings.size
  jobs : ∀ {p q : Nat}, ρ[p]? = some q → Option.Rel (Job.Twin ρ) (w.job? p) (v.job? q)
  outcomes : ∀ {p q : Nat}, ρ[p]? = some q → Option.Rel (Outcome.Twin ρ) (w.peek p) (v.peek q)
  order : v.InOrder
  own : ∀ {q source : Nat} {answer : Outcome}, q ∉ ρ → v.job? q = some (.checking source) →
    v.peek q = some answer → ∃ outcome, v.peek source = some outcome ∧
      Checked.Answers (v.IsOwnForm ρ) outcome answer

theorem IsOwnForm.of_form {v : World} {x y : Value} (h : Checked.Form x y)
    (hx : ∀ source, x ≠ .pending source) : v.IsOwnForm ρ x y :=
  ⟨h, fun source _ hsource => absurd hsource (hx source)⟩

theorem IsOwnForm.onward {u v : World} {x y : Value} (h : v.IsOwnForm ρ x y) (hon : Onward ρ v σ u) :
    u.IsOwnForm σ x y := by
  refine ⟨h.1, fun source pending hx hy => ?_⟩
  obtain ⟨hnot, hjob⟩ := h.2 source pending hx hy
  refine ⟨fun hmem => ?_, hon.lasts.job? hjob⟩
  rcases hon.fresh _ hmem with hold | hfresh
  · exact hnot hold
  · exact absurd (lt_size_of_job? hjob) (Nat.not_lt.mpr hfresh)

theorem rel_mono {α β : Type} {r s : α → β → Prop} (hrs : ∀ a b, r a b → s a b) {x : Option α}
    {y : Option β} (h : Option.Rel r x y) : Option.Rel s x y := by
  cases h with
  | none => exact .none
  | some hab => exact .some (hrs _ _ hab)

theorem size_eq_of_rel {α β : Type} {r : α → β → Prop} {as : Array α} {bs : Array β}
    (h : ∀ n : Nat, Option.Rel r as[n]? bs[n]?) : as.size = bs.size := by
  have hle : ∀ n : Nat, as[n]? = none ↔ bs[n]? = none := fun n => by
    have hn := h n
    generalize as[n]? = a, bs[n]? = b at hn
    cases hn <;> simp
  simp only [Array.getElem?_eq_none_iff] at hle
  have := hle as.size
  have := hle bs.size
  omega

theorem rel_push {α β : Type} {r : α → β → Prop} {as : Array α} {bs : Array β}
    (h : ∀ n : Nat, Option.Rel r as[n]? bs[n]?) {a : α} {b : β} (hab : r a b) (n : Nat) :
    Option.Rel r (as.push a)[n]? (bs.push b)[n]? := by
  rw [Array.getElem?_push, Array.getElem?_push, size_eq_of_rel h]
  split
  · exact .some hab
  · exact h n

theorem rel_modify {α β : Type} {r : α → β → Prop} {as : Array α} {bs : Array β}
    (h : ∀ n : Nat, Option.Rel r as[n]? bs[n]?) {f : α → α} {g : β → β}
    (hfg : ∀ a b, r a b → r (f a) (g b)) (m n : Nat) :
    Option.Rel r (as.modify m f)[n]? (bs.modify m g)[n]? := by
  have hn := h n
  rw [Array.getElem?_modify, Array.getElem?_modify]
  split
  · generalize as[n]? = a, bs[n]? = b at hn
    cases hn with
    | none => exact .none
    | some hab => exact .some (hfg _ _ hab)
  · exact hn

namespace Twin

variable {u u' v w : World}

/-- What differs in nothing that twins look at may take the place of twins. -/
theorem congr (h : Twin ρ w v) (hw : Same w u) (hv : Same v u') : Twin ρ u u' where
  names := by
    rw [hw.names, hv.names]
    exact h.names
  components := by
    rw [hw.components, hv.components]
    exact h.components
  sequences := by
    rw [hw.sequences, hv.sequences]
    exact h.sequences
  workshop := by
    rw [hw.workshop, hv.workshop]
    exact h.workshop
  length := h.length.trans hw.size.symm
  sorted := h.sorted
  below q hq := hv.size ▸ h.below q hq
  jobs hpq := by
    rw [hw.job?, hv.job?]
    exact h.jobs hpq
  outcomes hpq := by
    rw [hw.peek, hv.peek]
    exact h.outcomes hpq
  order p q hjob := h.order ((hv.job? p).symm.trans hjob)
  own {q source answer} hq hjob hpeek := by
    rw [hv.job?] at hjob
    rw [hv.peek] at hpeek
    obtain ⟨outcome, houtcome, hanswers⟩ := h.own hq hjob hpeek
    refine ⟨outcome, (hv.peek source).trans houtcome, hanswers.imp fun hxy => ?_⟩
    exact hxy.onward (.of_lasts hv.grown.toLasts)

theorem lt_size (h : Twin ρ w v) {p q : Nat} (hpq : ρ[p]? = some q) :
    p < w.pendings.size ∧ q < v.pendings.size :=
  ⟨h.length ▸ (List.getElem?_eq_some_iff.mp hpq).1, h.below q (List.mem_of_getElem? hpq)⟩

/-- Earlier ones are earlier in the other world. -/
theorem lt_iff (h : Twin ρ w v) {p q p' q' : Nat} (hpq : ρ[p]? = some q) (hpq' : ρ[p']? = some q') :
    p < p' ↔ q < q' := by
  obtain ⟨hp, rfl⟩ := List.getElem?_eq_some_iff.mp hpq
  obtain ⟨hp', rfl⟩ := List.getElem?_eq_some_iff.mp hpq'
  have hsorted := List.pairwise_iff_getElem.mp h.sorted
  rcases Nat.lt_trichotomy p p' with hlt | rfl | hlt
  · exact iff_of_true hlt (hsorted p p' hp hp' hlt)
  · exact iff_of_false (Nat.lt_irrefl _) (Nat.lt_irrefl _)
  · exact iff_of_false (Nat.lt_asymm hlt) (Nat.lt_asymm (hsorted p' p hp' hp hlt))

theorem inj (h : Twin ρ w v) {p p' q : Nat} (hpq : ρ[p]? = some q) (hpq' : ρ[p']? = some q) :
    p = p' := by
  have := h.lt_iff hpq hpq'
  have := h.lt_iff hpq' hpq
  omega

theorem named (h : Twin ρ w v) (name : String) : Value.Twin ρ (w.named name) (v.named name) := by
  have hget := h.names.get? name
  unfold World.named
  generalize Entries.get? name w.names = a, Entries.get? name v.names = b at hget
  cases hget with
  | none => exact .undefined
  | some hxy => exact hxy

/-! ## Making things -/

theorem newElement (h : Twin ρ w v) {type : ElementType} {props props' : Props}
    {children children' : List Value} {raw : Bool} (hprops : Entries.Twin ρ props props')
    (hchildren : List.Forall₂ (Value.Twin ρ) children children') :
    Value.Twin ρ (w.newElement type props children raw).1 (v.newElement type props' children' raw).1 ∧
      Twin ρ (w.newElement type props children raw).2 (v.newElement type props' children' raw).2 :=
  ⟨.element rfl rfl hprops hchildren, h.congr (.newElement ..) (.newElement ..)⟩

theorem newComponent (h : Twin ρ w v) (name : String) {c d : ComponentCell}
    (hcd : ComponentCell.Twin ρ c d) :
    Value.Twin ρ (w.newComponent name c).1 (v.newComponent name d).1 ∧
      Twin ρ (w.newComponent name c).2 (v.newComponent name d).2 := by
  constructor
  · unfold World.newComponent
    rw [size_eq_of_rel h.components]
    exact .component _
  · exact { h with components := rel_push h.components hcd }

theorem newSequence (h : Twin ρ w v) {c d : SequenceCell} (hcd : SequenceCell.Twin ρ c d) :
    Value.Twin ρ (w.newSequence c).1 (v.newSequence d).1 ∧
      Twin ρ (w.newSequence c).2 (v.newSequence d).2 := by
  constructor
  · unfold World.newSequence
    rw [size_eq_of_rel h.sequences]
    exact .sequence _
  · exact { h with sequences := rel_push h.sequences hcd }

theorem useTemplate (h : Twin ρ w v) (statics : Statics) {values values' : List Value}
    (hvalues : List.Forall₂ (Value.Twin ρ) values values') :
    Value.Twin ρ (w.useTemplate 0 statics values).1 (v.useTemplate 0 statics values').1 ∧
      Twin ρ (w.useTemplate 0 statics values).2 (v.useTemplate 0 statics values').2 := by
  obtain ⟨hvalue, hworkshop⟩ := h.workshop.call statics hvalues w.bench v.bench
  unfold World.useTemplate
  refine ⟨hvalue, ?_⟩
  have hused : Twin ρ { w with
      bench := (w.workshop.call 0 statics values w.bench).2.1
      workshop := (w.workshop.call 0 statics values w.bench).2.2.2 } { v with
      bench := (v.workshop.call 0 statics values' v.bench).2.1
      workshop := (v.workshop.call 0 statics values' v.bench).2.2.2 } := { h with workshop := hworkshop }
  exact hused.congr (.noteAll _ _) (.noteAll _ _)

theorem lasts_useTemplate (binding : Nat) (statics : Statics) (values : List Value) (w : World) :
    Lasts w (w.useTemplate binding statics values).2 := by
  have hused := Grown.of_pendings (w := w) (v := { w with
    bench := (w.workshop.call binding statics values w.bench).2.1
    workshop := (w.workshop.call binding statics values w.bench).2.2.2 }) rfl
  exact hused.toLasts.trans (Same.noteAll _ _).grown.toLasts

theorem job?_newPending_of_ne (label : Option String) (job : Job) {n : Nat}
    (hn : n ≠ w.pendings.size) : (w.newPending { label, job }).2.job? n = w.job? n := by
  rw [job?, job?, World.newPending, Array.getElem?_push, if_neg hn]

theorem inOrder_newPending (h : v.InOrder) (label : Option String) {job : Job}
    (hjob : ∀ source, job = .checking source → source < v.pendings.size) :
    (v.newPending { label, job }).2.InOrder := by
  intro pending source hsource
  by_cases hnew : pending = v.pendings.size
  · subst hnew
    rw [job?_newPending, Option.some.injEq] at hsource
    exact hjob source hsource
  · rw [job?_newPending_of_ne label job hnew] at hsource
    exact h hsource

/-- The renaming grows by what is made. -/
theorem newPending (h : Twin ρ w v) (label label' : Option String) {job job' : Job}
    (hjob : Job.Twin ρ job job') :
    Onward ρ v (ρ ++ [v.pendings.size]) (v.newPending { label := label', job := job' }).2 ∧
      Value.Twin (ρ ++ [v.pendings.size]) (w.newPending { label, job }).1
        (v.newPending { label := label', job := job' }).1 ∧
      Twin (ρ ++ [v.pendings.size]) (w.newPending { label, job }).2
        (v.newPending { label := label', job := job' }).2 := by
  have hpre : ρ <+: ρ ++ [v.pendings.size] := List.prefix_append _ _
  have hnew : (ρ ++ [v.pendings.size])[w.pendings.size]? = some v.pendings.size := by
    rw [← h.length, List.getElem?_concat_length]
  have hcases : ∀ {p q : Nat}, (ρ ++ [v.pendings.size])[p]? = some q →
      ρ[p]? = some q ∨ (p = w.pendings.size ∧ q = v.pendings.size) := by
    intro p q hpq
    rw [List.getElem?_append, h.length] at hpq
    split at hpq
    · exact .inl hpq
    · rw [List.getElem?_singleton] at hpq
      split at hpq
      · cases hpq
        exact .inr ⟨by omega, rfl⟩
      · cases hpq
  have hfresh : ∀ q ∈ ρ ++ [v.pendings.size], q ∈ ρ ∨ v.pendings.size ≤ q := fun q hq =>
    (List.mem_append.mp hq).imp id fun hmem => Nat.le_of_eq (List.mem_singleton.mp hmem).symm
  have hgrown := Grown.newPending label' job' v
  have hon := Onward.mk hpre hfresh hgrown.toLasts
  refine ⟨hon, .pending hnew, ?_⟩
  exact {
    names := h.names.mono hpre
    components := fun n => rel_mono (fun _ _ hcd => hcd.mono hpre) (h.components n)
    sequences := fun n => rel_mono (fun _ _ hcd => hcd.mono hpre) (h.sequences n)
    workshop := h.workshop.mono hpre
    length := by
      rw [List.length_append, h.length, World.newPending, Array.size_push]
      rfl
    sorted := List.pairwise_append.mpr ⟨h.sorted, List.pairwise_singleton _ _, fun q hq q' hq' =>
      List.mem_singleton.mp hq' ▸ h.below q hq⟩
    below := fun q hq => by
      rw [World.newPending, Array.size_push]
      rcases List.mem_append.mp hq with hold | hnew
      · exact Nat.lt_succ_of_lt (h.below q hold)
      · exact Nat.lt_succ_of_le (Nat.le_of_eq (List.mem_singleton.mp hnew))
    jobs := fun {p q} hpq => by
      rcases hcases hpq with hold | ⟨rfl, rfl⟩
      · obtain ⟨hp, hq⟩ := h.lt_size hold
        rw [job?_newPending_of_ne label job (Nat.ne_of_lt hp),
          job?_newPending_of_ne label' job' (Nat.ne_of_lt hq)]
        exact rel_mono (fun _ _ hjobs => hjobs.mono hpre) (h.jobs hold)
      · rw [job?_newPending, job?_newPending]
        exact .some (hjob.mono hpre)
    outcomes := fun {p q} hpq => by
      rw [(Grown.newPending label job w).peek, hgrown.peek]
      rcases hcases hpq with hold | ⟨rfl, rfl⟩
      · exact rel_mono (fun _ _ houtcomes => houtcomes.mono hpre) (h.outcomes hold)
      · rw [peek, peek, Array.getElem?_eq_none (Nat.le_refl _),
          Array.getElem?_eq_none (Nat.le_refl _)]
        exact .none
    order := inOrder_newPending h.order label' fun source hsource => by
      cases hjob with
      | after => cases hsource
      | checking hpq =>
        cases hsource
        exact (h.lt_size hpq).2
    own := fun {q source answer} hq hjob hpeek => by
      rw [List.mem_append, List.mem_singleton, not_or] at hq
      rw [job?_newPending_of_ne label' job' hq.2] at hjob
      rw [hgrown.peek] at hpeek
      obtain ⟨outcome, houtcome, hanswers⟩ := h.own hq.1 hjob hpeek
      exact ⟨outcome, (hgrown.peek source).trans houtcome, hanswers.imp fun hxy =>
        hxy.onward hon⟩ }

end Twin

end World

/-! ## Running code -/

/-- Code that does the same with twins does so in twin worlds, and leaves twins. -/
theorem Action.Twin.run {a b : Action} (h : Action.Twin ρ a b) {w v : World} (hwv : World.Twin ρ w v) :
    ∃ σ, World.Onward ρ v σ (b.run v).2 ∧ Outcome.Twin σ (a.run w).1 (b.run v).1 ∧
      World.Twin σ (a.run w).2 (b.run v).2 := by
  induction h generalizing w v with
  | give hxy => exact ⟨_, .refl .., .ok hxy, hwv⟩
  | fail error => exact ⟨_, .refl .., .error error, hwv⟩
  | named name _ ih => exact ih _ _ _ (List.prefix_refl _) (hwv.named name) hwv
  | element hprops hchildren _ ih =>
    obtain ⟨hxy, hmade⟩ := hwv.newElement hprops hchildren
    obtain ⟨σ, hon, hend⟩ := ih _ _ _ (List.prefix_refl _) hxy hmade
    exact ⟨σ, (World.Onward.of_lasts (World.Same.newElement ..).grown.toLasts).trans hon, hend⟩
  | @component ρ name label label' keeps keeps' body body' _ _ hbody _ _ ih =>
    obtain ⟨hxy, hmade⟩ := hwv.newComponent name (c := ⟨label, keeps, body⟩)
      (d := ⟨label', keeps', body'⟩) hbody
    obtain ⟨σ, hon, hend⟩ := ih _ _ _ (List.prefix_refl _) hxy hmade
    have hgrown : World.Grown v (v.newComponent name ⟨label', keeps', body'⟩).2 := .of_pendings rfl
    exact ⟨σ, (World.Onward.of_lasts hgrown.toLasts).trans hon, hend⟩
  | pending hbody _ _ ih =>
    obtain ⟨hnew, hxy, hmade⟩ := hwv.newPending _ _ (.after hbody)
    obtain ⟨σ, hon, hend⟩ := ih _ _ _ hnew.pre hxy hmade
    exact ⟨σ, hnew.trans hon, hend⟩
  | @sequence ρ label label' members members' _ _ hmembers _ ih =>
    obtain ⟨hxy, hmade⟩ := hwv.newSequence (c := { label, members })
      (d := { label := label', members := members' }) ⟨hmembers, rfl⟩
    obtain ⟨σ, hon, hend⟩ := ih _ _ _ (List.prefix_refl _) hxy hmade
    have hgrown : World.Grown v (v.newSequence { label := label', members := members' }).2 :=
      .of_pendings rfl
    exact ⟨σ, (World.Onward.of_lasts hgrown.toLasts).trans hon, hend⟩
  | template statics hvalues _ ih =>
    obtain ⟨hxy, hmade⟩ := hwv.useTemplate statics hvalues
    obtain ⟨σ, hon, hend⟩ := ih _ _ _ (List.prefix_refl _) hxy hmade
    exact ⟨σ, (World.Onward.of_lasts (World.Twin.lasts_useTemplate ..)).trans hon, hend⟩
  | checking hsource _ ih =>
    obtain ⟨hnew, hxy, hmade⟩ := hwv.newPending none none (.checking hsource)
    obtain ⟨σ, hon, hend⟩ := ih _ _ _ hnew.pre hxy hmade
    exact ⟨σ, hnew.trans hon, hend⟩

end TaggedMarkup
