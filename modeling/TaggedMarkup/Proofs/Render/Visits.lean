import TaggedMarkup.Proofs.Host.Twins

/-!
# Visits

A visit that comes to an end with some fuel comes to the same end with more (`Visit.item_succ`), and lists in
lists are visited like their members (`Visit.each_splice`). What has come of pending values by then stays
(`Visit.Keeps.item`).
-/

namespace TaggedMarkup

namespace World

/-- Every outcome that was there is still there. -/
def Remembers (w v : World) : Prop :=
  ∀ ⦃pending : Nat⦄ ⦃o : Outcome⦄, w.peek pending = some o → v.peek pending = some o

namespace Remembers

variable {u v w : World}

theorem refl (w : World) : w.Remembers w := fun _ _ => id

theorem trans (h : w.Remembers v) (h' : v.Remembers u) : w.Remembers u := fun _ _ hpeek => h' (h hpeek)

theorem of_grown (h : Grown w v) : w.Remembers v := fun _ _ hpeek => (h.peek _).trans hpeek

end Remembers

variable {v w : World} {p : Nat}

/-! ## Awaiting -/

theorem exists_cell {job : Job} (h : w.job? p = some job) :
    ∃ cell, w.pendings[p]? = some cell ∧ cell.job = job := Option.map_eq_some_iff.mp h

theorem outcome_done {o : Outcome} (h : w.peek p = some o) (depth : Nat) :
    w.outcome (depth + 1) p = some (o, w) := by
  unfold peek at h
  rw [outcome]
  cases hcell : w.pendings[p]? with
  | none =>
    rw [hcell] at h
    cases h
  | some cell =>
    rw [hcell] at h
    obtain ⟨label, job, stage, waiters⟩ := cell
    cases stage <;> cases h
    rfl

theorem noteStart_same (p : Nat) (cell : PendingCell) (w : World) : Same w (w.noteStart p cell) := by
  unfold noteStart
  split
  · exact .note _ w
  · exact .refl w

/-- What waits for the clock runs its code, later. -/
theorem outcome_after {delay : Nat} {keeps : List Value} {body : Action}
    (hjob : w.job? p = some (.after delay keeps body)) (hopen : w.peek p = none) (depth : Nat) :
    ∃ u label, Same w u ∧ w.outcome (depth + 1) p = some (u.finish p label body) := by
  obtain ⟨cell, hcell, hjob⟩ := exists_cell hjob
  rw [peek_of_getElem? hcell] at hopen
  refine ⟨_, cell.label, (noteStart_same p cell w).trans (.sleepUntil
    (cell.stage.deadline ((w.noteStart p cell).clock + delay)) _), ?_⟩
  rw [outcome, hcell]
  obtain ⟨label, job, stage, waiters⟩ := cell
  cases hjob
  cases stage with
  | done o => cases hopen
  | _ => rfl

/-- A checked form waits for what it checks. -/
theorem outcome_checking {source : Nat} (hjob : w.job? p = some (.checking source))
    (hopen : w.peek p = none) (depth : Nat) :
    ∃ u label, Same w u ∧ w.outcome (depth + 1) p = if source < p then
      (u.outcome depth source).map fun r => r.2.finish p label (checkedBody r.1) else none := by
  obtain ⟨cell, hcell, hjob⟩ := exists_cell hjob
  rw [peek_of_getElem? hcell] at hopen
  refine ⟨_, cell.label, noteStart_same p cell w, ?_⟩
  rw [outcome, hcell]
  obtain ⟨label, job, stage, waiters⟩ := cell
  cases hjob
  cases stage with
  | done o => cases hopen
  | _ =>
    dsimp only
    split
    · cases outcome depth source _ <;> rfl
    · rfl

/-- The outcome is there now, and nothing else has changed. -/
theorem peek_done {pending : Nat} (h : pending < w.pendings.size) (o : Outcome) (n : Nat) :
    (w.modifyPending pending fun cell => { cell with stage := .done o }).peek n =
      if n = pending then some o else w.peek n := by
  split
  · rename_i heq
    rw [heq, peek_setStage h]
    rfl
  · rename_i hne
    exact peek_modifyPending_of_ne hne _ w

/-- What comes of awaiting a pending value: its outcome is there, and nothing has come of later ones. -/
structure Awaited (p : Nat) (w : World) (r : Outcome × World) : Prop where
  lasts : Lasts w r.2
  passed : Passed p w r.2
  there : p < w.pendings.size → r.2.peek p = some r.1

theorem awaited_finish (hopen : w.peek p = none) (label : Option String) (body : Action) :
    Awaited p w (w.finish p label body) := by
  have hgrown : Grown w (body.run (w.note (.finished p label))).2 :=
    .trans (.of_pendings (v := w.note (.finished p label)) rfl) (.run body _)
  have hopen' := (hgrown.peek p).trans hopen
  refine ⟨hgrown.toLasts.trans (.setStage ..), (Passed.of_grown hgrown).trans (.of_ne hopen' ?_), ?_⟩
  · exact fun n hne => peek_modifyPending_of_ne hne _ _
  · intro hp
    exact (peek_done (Nat.lt_of_lt_of_le hp hgrown.size) _ p).trans (if_pos rfl)

theorem Awaited.after {source : Nat} {r : Outcome × World} (h : Awaited p v r)
    (hlasts : Lasts w v) (hpassed : Passed source w v) (hle : source ≤ p) : Awaited p w r where
  lasts := hlasts.trans h.lasts
  passed := (hpassed.weaken hle).trans h.passed
  there hp := h.there (Nat.lt_of_lt_of_le hp hlasts.size)

theorem awaited_outcome {depth : Nat} {r : Outcome × World} (ho : w.outcome depth p = some r) :
    Awaited p w r := by
  induction depth generalizing p w r with
  | zero => cases ho
  | succ depth ih =>
    cases hpeek : w.peek p with
    | some o =>
      rw [outcome_done hpeek] at ho
      cases ho
      exact ⟨.refl w, .of_grown (.refl w), fun _ => hpeek⟩
    | none =>
      cases hcell : w.pendings[p]? with
      | none =>
        rw [outcome, hcell] at ho
        cases ho
        refine ⟨.refl w, .of_grown (.refl w), fun hp => ?_⟩
        rw [Array.getElem?_eq_getElem hp] at hcell
        cases hcell
      | some cell =>
        have hjob := job?_of_getElem? hcell
        cases hkind : cell.job with
        | after delay keeps body =>
          rw [hkind] at hjob
          obtain ⟨u, label, hu, hrun⟩ := outcome_after hjob hpeek depth
          rw [hrun] at ho
          cases ho
          exact (awaited_finish ((hu.peek p).trans hpeek) label body).after hu.grown.toLasts
            (.of_grown hu.grown) (Nat.le_refl p)
        | checking source =>
          rw [hkind] at hjob
          obtain ⟨u, label, hu, hrun⟩ := outcome_checking hjob hpeek depth
          rw [hrun] at ho
          split at ho
          · rename_i hlt
            obtain ⟨⟨o, v⟩, hsource, rfl⟩ := Option.map_eq_some_iff.mp ho
            have hawaited := ih hsource
            have hopen : v.peek p = none :=
              (hawaited.passed.later hlt).trans ((hu.peek p).trans hpeek)
            exact ((awaited_finish hopen label (checkedBody o)).after hawaited.lasts hawaited.passed
              (Nat.le_of_lt hlt)).after hu.grown.toLasts (.of_grown hu.grown) (Nat.le_refl p)
          · cases ho

/-- In order, every pending value comes to an outcome. -/
theorem InOrder.exists_outcome (h : w.InOrder) (hp : p < w.pendings.size) {depth : Nat}
    (hdepth : p < depth) : ∃ r, w.outcome depth p = some r := by
  induction depth generalizing p w with
  | zero => cases hdepth
  | succ depth ih =>
    cases hpeek : w.peek p with
    | some o => exact ⟨_, outcome_done hpeek depth⟩
    | none =>
      have hjob : w.job? p = some w.pendings[p].job := job?_of_getElem? (Array.getElem?_eq_getElem hp)
      generalize w.pendings[p].job = job at hjob
      cases job with
      | after delay keeps body =>
        obtain ⟨u, label, -, hrun⟩ := outcome_after hjob hpeek depth
        exact ⟨_, hrun⟩
      | checking source =>
        have hlt := h hjob
        obtain ⟨u, label, hu, hrun⟩ := outcome_checking hjob hpeek depth
        have horder : u.InOrder := fun _ _ hjob => h ((hu.job? _).symm.trans hjob)
        obtain ⟨r, hr⟩ := ih horder (hu.size ▸ Nat.lt_trans hlt hp) (by omega)
        rw [if_pos hlt, hr] at hrun
        exact ⟨_, hrun⟩

end World

namespace Visit

variable {α β : Type}

/-! ## More fuel -/

/-- The second visit does what the first one does, wherever that one comes to an end. -/
def Below (m m' : Visit α) : Prop :=
  ∀ ⦃w : World⦄ ⦃r : List Fragment × Except Error α × World⦄, m w = some r → m' w = some r

namespace Below

theorem refl (m : Visit α) : Below m m := fun _ _ => id

theorem bind {m m' : Visit α} {f f' : α → Visit β} (h : Below m m') (hf : ∀ a, Below (f a) (f' a)) :
    Below (m >>= f) (m' >>= f') := by
  intro w r hvisit
  change andThen m f w = _ at hvisit
  change andThen m' f' w = _
  unfold andThen at hvisit ⊢
  cases hm : m w with
  | none =>
    rw [hm] at hvisit
    cases hvisit
  | some first =>
    rw [hm] at hvisit
    rw [h hm]
    obtain ⟨fragments, result, u⟩ := first
    cases result with
    | error error => exact hvisit
    | ok a =>
      dsimp only at hvisit ⊢
      cases hnext : f a u with
      | none =>
        rw [hnext] at hvisit
        cases hvisit
      | some second =>
        rw [hnext] at hvisit
        rw [hf a hnext]
        exact hvisit

theorem each {visit visit' : α → Visit Unit} (h : ∀ a, Below (visit a) (visit' a)) (as : List α) :
    Below (Visit.each visit as) (Visit.each visit' as) := by
  induction as with
  | nil => exact refl _
  | cons a rest ih => exact bind (h a) fun _ => ih

section

variable {visit visit' : Value → Visit Unit} (h : ∀ x, Below (visit x) (visit' x))
include h

theorem tag (name : String) (e : Element) : Below (Visit.tag visit name e) (Visit.tag visit' name e) := by
  unfold Visit.tag
  split
  · exact refl _
  · split
    · exact bind (refl _) fun _ => bind (refl _) fun _ => bind (refl _) fun _ =>
        bind (each h e.children) fun _ => refl _
    · exact refl _

theorem component (c : Component) (e : Element) :
    Below (Visit.component visit c e) (Visit.component visit' c e) := by
  refine bind (refl _) fun _ => bind (refl _) fun value => ?_
  unfold called
  split
  · exact refl _
  · exact h value

theorem element (e : Element) : Below (Visit.element visit e) (Visit.element visit' e) := by
  unfold Visit.element
  split
  · exact refl _
  · exact each h e.children
  · exact tag h _ e
  · exact component h _ e
  · exact refl _

theorem drawn (sequence : Nat) (label : Option String) (index : Nat) (members : List (Nat × Value)) :
    Below (Visit.drawn visit sequence label index members)
      (Visit.drawn visit' sequence label index members) := by
  induction members generalizing index with
  | nil => exact refl _
  | cons member rest ih =>
    exact bind (refl _) fun _ => bind (refl _) fun _ => bind (h member.2) fun _ => ih (index + 1)

theorem sequence (cell : Nat) : Below (Visit.sequence visit cell) (Visit.sequence visit' cell) := by
  refine bind (refl _) fun taken => ?_
  cases taken with
  | none => exact refl _
  | some taken => exact drawn h cell taken.1 0 taken.2

end

end Below

/-- With more fuel, a visit that came to an end does so again. -/
theorem item_succ (fuel : Nat) (x : Value) : Below (item fuel x) (item (fuel + 1) x) := by
  induction fuel generalizing x with
  | zero => exact fun _ _ hvisit => by cases hvisit
  | succ fuel ih =>
    cases x with
    | undefined | null | str | number | bool | component => exact .refl _
    | list members => exact .each ih members
    | sequence cell => exact .sequence ih cell
    | pending p => exact .bind (.refl _) ih
    | element e => exact .element ih e
    | object entries =>
      rw [item, item]
      split
      · exact .element ih _
      · exact .refl _

/-! ## Lists in lists -/

/-- Where the members of lists in a list are visited in the place of these lists, so may the lists be. -/
theorem each_splice (fuel : Nat) (xs : List Value) :
    Below (each (item fuel) (Value.splice xs)) (each (item (fuel + 1)) xs) := by
  induction xs with
  | nil => exact .refl _
  | cons x rest ih =>
    cases x with
    | list members =>
      change Below (each (item fuel) (members ++ Value.splice rest)) _
      rw [each_append]
      exact .bind (.refl _) fun _ => ih
    | _ => exact .bind (item_succ fuel _) fun _ => ih

/-! ## What stays -/

/-- Outcomes that were there before the visit still are. -/
def Keeps (m : Visit α) : Prop :=
  ∀ ⦃w v : World⦄ ⦃fragments : List Fragment⦄ ⦃result : Except Error α⦄,
    m w = some (fragments, result, v) → w.Remembers v

namespace Keeps

theorem done (a : α) : Keeps (done a) := by
  intro w v fragments result hvisit
  cases hvisit
  exact .refl w

theorem fail (error : Error) : Keeps (fail (α := α) error) := by
  intro w v fragments result hvisit
  cases hvisit
  exact .refl w

theorem emit (text : String) : Keeps (emit text) := by
  intro w v fragments result hvisit
  cases hvisit
  exact .refl w

theorem act {f : World → α × World} (h : ∀ w : World, w.Remembers (f w).2) : Keeps (act f) := by
  intro w v fragments result hvisit
  cases hvisit
  exact h w

theorem bind {m : Visit α} {f : α → Visit β} (h : Keeps m) (hf : ∀ a, Keeps (f a)) :
    Keeps (m >>= f) := by
  intro w v fragments result hvisit
  change andThen m f w = _ at hvisit
  unfold andThen at hvisit
  split at hvisit
  · cases hvisit
  · rename_i hm
    cases hvisit
    exact h hm
  · rename_i hm
    split at hvisit
    · cases hvisit
    · rename_i hnext
      cases hvisit
      exact (h hm).trans (hf _ hnext)

theorem each {visit : α → Visit Unit} (h : ∀ x, Keeps (visit x)) (xs : List α) :
    Keeps (each visit xs) := by
  induction xs with
  | nil => exact done _
  | cons x rest ih => exact bind (h x) fun _ => ih

theorem ofOutcome (o : Outcome) : Keeps (ofOutcome o) := by
  cases o with
  | ok x => exact done x
  | error error => exact fail error

theorem awaited (p : Nat) : Keeps (awaited p) := by
  intro w v fragments result hvisit
  unfold Visit.awaited at hvisit
  cases ho : w.outcome (p + 1) p with
  | none =>
    rw [ho] at hvisit
    cases hvisit
  | some first =>
    rw [ho] at hvisit
    have hkept : w.Remembers first.2 := fun _ _ => (World.awaited_outcome ho).passed.kept
    exact hkept.trans (ofOutcome _ hvisit)

theorem note (event : Event) : Keeps (note event) := act fun _ => .of_grown (.of_pendings rfl)

theorem prop (name : String) (value : Value) : Keeps (prop name value) := by
  unfold Visit.prop
  split
  · exact done _
  · split
    · exact fail _
    · split
      · exact emit _
      · exact note _

theorem markup (value : Value) : Keeps (markup value) := by
  unfold Visit.markup
  split
  · exact emit _
  · exact fail _

section

variable {visit : Value → Visit Unit} (h : ∀ x, Keeps (visit x))
include h

theorem tag (name : String) (e : Element) : Keeps (tag visit name e) := by
  have hprops := each (fun p : String × Value => prop p.1 p.2) e.props
  unfold Visit.tag
  split
  · exact bind (emit _) fun _ => bind hprops fun _ => emit _
  · split
    · exact bind (emit _) fun _ => bind hprops fun _ => bind (emit _) fun _ =>
        bind (each h e.children) fun _ => emit _
    · exact fail _

theorem called (raw : Bool) (value : Value) : Keeps (called visit raw value) := by
  unfold Visit.called
  split
  · split
    · exact bind (awaited _) markup
    · exact markup _
  · exact h value

theorem component (c : Component) (e : Element) : Keeps (component visit c e) := by
  refine bind (act fun w => ?_) fun o => bind (ofOutcome o) fun value => called h e.raw value
  unfold World.callComponent
  split
  · rename_i cell _
    have hnoted : World.Grown w (w.note (.called c.cell cell.label)) := .of_pendings rfl
    exact .of_grown (hnoted.trans (.run _ _))
  · exact .refl w

theorem element (e : Element) : Keeps (element visit e) := by
  unfold Visit.element
  split
  · exact fail _
  · exact each h e.children
  · exact tag h _ e
  · exact component h _ e
  · exact fail _

theorem drawn (sequence : Nat) (label : Option String) (index : Nat) (members : List (Nat × Value)) :
    Keeps (drawn visit sequence label index members) := by
  induction members generalizing index with
  | nil => exact done _
  | cons member rest ih =>
    exact bind (act fun _ => .of_grown (.of_pendings rfl)) fun _ => bind (note _) fun _ =>
      bind (h member.2) fun _ => ih (index + 1)

theorem sequence (cell : Nat) : Keeps (sequence visit cell) := by
  refine bind (act fun w => ?_) fun taken => ?_
  · unfold take
    split
    · exact .refl w
    · split
      · exact .refl w
      · exact .of_grown (.of_pendings rfl)
  · cases taken with
    | none => exact done _
    | some taken => exact drawn h cell taken.1 0 taken.2

end

theorem item (fuel : Nat) (x : Value) : Keeps (item fuel x) := by
  induction fuel generalizing x with
  | zero => exact fun _ _ _ _ hvisit => by cases hvisit
  | succ fuel ih =>
    cases x with
    | undefined | null | str | number => exact emit _
    | bool | component => exact fail _
    | list members => exact each ih members
    | sequence cell => exact sequence ih cell
    | pending p => exact bind (awaited p) ih
    | element e => exact element ih e
    | object entries =>
      rw [Visit.item]
      split
      · exact element ih _
      · exact fail _

end Keeps

end Visit

end TaggedMarkup
