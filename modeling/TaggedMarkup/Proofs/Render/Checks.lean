import Mathlib
import TaggedMarkup.Proofs.Host.Checking
import TaggedMarkup.Proofs.Render.Preserved

/-!
# What comes of checks

Awaiting the checked form of a pending value awaits the pending value itself, and checks what comes of
it. So whenever there is an answer, it is the checked form of an outcome that is there, or its error; and
if it is a pending value once more, the same holds of that one, to any depth.

A pending value is made before its checked form (`World.InOrder`), so awaiting goes from later ones to
earlier ones and changes none but those it comes through.
-/

namespace TaggedMarkup

namespace Checked

/-- An answer is what the check of an outcome comes to, where `accepts` tells the forms of values. -/
inductive Answers (accepts : Value → Value → Prop) : Outcome → Outcome → Prop
  | failed (error : Error) : Answers accepts (.error error) (.error error)
  | rejected {x : Value} {error : Error} : rootError? x = some error →
    Answers accepts (.ok x) (.error error)
  | accepted {x y : Value} : accepts x y → Answers accepts (.ok x) (.ok y)

theorem Answers.imp {accepts accepts' : Value → Value → Prop} {outcome answer : Outcome}
    (h : Answers accepts outcome answer) (himp : ∀ {x y : Value}, accepts x y → accepts' x y) :
    Answers accepts' outcome answer := by
  cases h with
  | failed error => exact .failed error
  | rejected h => exact .rejected h
  | accepted h => exact .accepted (himp h)

/-- The code that runs when an outcome is there comes to the answer. -/
theorem answers_run (outcome : Outcome) {base : Nat} {w : World} (hbase : base ≤ w.pendings.size) :
    let r := (World.checkedBody outcome).run w
    Answers (r.2.IsFormOf base) outcome r.1 := by
  cases outcome with
  | error error => exact .failed error
  | ok x =>
    have hroot := root_run (w := w) x .give hbase
    dsimp only [World.checkedBody]
    cases hx : rootError? x with
    | some error =>
      rw [hx] at hroot
      rw [hroot]
      exact .rejected hx
    | none =>
      rw [hx] at hroot
      obtain ⟨y, u, hrun, -, hy⟩ := hroot
      rw [hrun]
      exact .accepted hy

end Checked

namespace World

/-- Every checked form was made after the pending value that it checks. -/
def InOrder (w : World) : Prop :=
  ∀ ⦃pending source : Nat⦄, w.job? pending = some (.checking source) → source < pending

/-- The cell comes after what it checks. -/
def PendingCell.isAfter (pending : Nat) (cell : PendingCell) : Bool :=
  match cell.job with
  | .checking source => source < pending
  | .after .. => true

theorem inOrder_iff (w : World) :
    w.InOrder ↔ ∀ pending (h : pending < w.pendings.size),
      PendingCell.isAfter pending w.pendings[pending] := by
  constructor
  · intro horder pending h
    unfold PendingCell.isAfter
    split
    · rename_i source hjob
      refine decide_eq_true (horder ?_)
      rw [job?_of_getElem? (Array.getElem?_eq_getElem h), hjob]
    · rfl
  · intro hafter pending source hjob
    have hlt := lt_size_of_job? hjob
    have hcell := hafter pending hlt
    rw [job?_of_getElem? (Array.getElem?_eq_getElem hlt), Option.some.injEq] at hjob
    rw [PendingCell.isAfter, hjob] at hcell
    exact of_decide_eq_true hcell

instance (w : World) : Decidable w.InOrder := decidable_of_iff _ (inOrder_iff w).symm

theorem InOrder.before {w v : World} (h : v.InOrder) (hlasts : Lasts w v) : w.InOrder :=
  fun _ _ hjob => h (hlasts.job? hjob)

/-- Whatever came of checks, of those made when there were `base` pending values or more, is the
answer to an outcome that is there. -/
structure Answered (base : Nat) (w : World) : Prop where
  size : base ≤ w.pendings.size
  answers : ∀ {pending source : Nat} {answer : Outcome}, base ≤ pending →
    w.job? pending = some (.checking source) → w.peek pending = some answer →
      ∃ outcome, w.peek source = some outcome ∧ Checked.Answers (w.IsFormOf base) outcome answer

theorem IsFormOf.lasts {w v : World} {base : Nat} {x y : Value} (h : w.IsFormOf base x y)
    (hlasts : Lasts w v) : v.IsFormOf base x y := by
  refine ⟨h.1, fun source pending hx hy => ?_⟩
  obtain ⟨hbase, hjob⟩ := h.2 source pending hx hy
  exact ⟨hbase, hlasts.job? hjob⟩

variable {base : Nat} {u v w : World}

theorem exists_job_of_peek {pending : Nat} {answer : Outcome} (h : w.peek pending = some answer) :
    ∃ job, w.job? pending = some job := by
  unfold peek at h
  cases hcell : w.pendings[pending]? with
  | none =>
    rw [hcell] at h
    cases h
  | some cell => exact ⟨cell.job, job?_of_getElem? hcell⟩

theorem Answered.grown (h : w.Answered base) (hgrown : Grown w v) : v.Answered base where
  size := Nat.le_trans h.size hgrown.size
  answers {pending source answer} hbase hjob hpeek := by
    rw [hgrown.peek] at hpeek
    obtain ⟨job, hjob'⟩ := exists_job_of_peek hpeek
    have hsame : job = .checking source :=
      Option.some.inj ((hgrown.job? hjob').symm.trans hjob)
    rw [hsame] at hjob'
    obtain ⟨outcome, houtcome, hanswers⟩ := h.answers hbase hjob' hpeek
    exact ⟨outcome, (hgrown.peek source).trans houtcome,
      hanswers.imp fun hxy => hxy.lasts hgrown.toLasts⟩

/-! ## Changes of one cell -/

theorem job?_setStage (pending : Nat) (stage : Stage) (n : Nat) (w : World) :
    (w.modifyPending pending fun cell => { cell with stage }).job? n = w.job? n := by
  rw [job?, job?, modifyPending, Array.getElem?_modify]
  split
  · cases w.pendings[n]? <;> rfl
  · rfl

theorem Lasts.setStage (pending : Nat) (stage : Stage) (w : World) :
    Lasts w (w.modifyPending pending fun cell => { cell with stage }) where
  job? hjob := (job?_setStage pending stage _ w).trans hjob
  size := Nat.le_of_eq Array.size_modify.symm

theorem peek_modifyPending_of_ne {pending n : Nat} (hne : n ≠ pending) (f : PendingCell → PendingCell)
    (w : World) : (w.modifyPending pending f).peek n = w.peek n := by
  rw [peek, peek, modifyPending, Array.getElem?_modify, if_neg (Ne.symm hne)]

theorem peek_setStage {pending : Nat} {stage : Stage} (h : pending < w.pendings.size) :
    (w.modifyPending pending fun cell => { cell with stage }).peek pending = stage.outcome? := by
  have hcell : (w.modifyPending pending fun cell => { cell with stage }).pendings[pending]? =
      some { w.pendings[pending] with stage } := by
    rw [modifyPending, Array.getElem?_modify, if_pos rfl, Array.getElem?_eq_getElem h]
    rfl
  rw [peek_of_getElem? hcell]

/-- The answer is there now, and nothing else has changed. -/
theorem peek_settle {pending : Nat} (h : pending < w.pendings.size) (outcome : Outcome) (n : Nat) :
    (w.settle pending outcome).peek n = if n = pending then some outcome else w.peek n := by
  have hsize : pending < w.seen.pendings.size := by
    rw [seen, Array.size_map]
    exact h
  rw [← peek_seen, seen_settle]
  split
  · rename_i heq
    rw [heq, peek_setStage hsize]
    rfl
  · rename_i hne
    rw [peek_modifyPending_of_ne hne, peek_seen]

theorem Lasts.settle (pending : Nat) (outcome : Outcome) (w : World) :
    Lasts w (w.settle pending outcome) := by
  have hseen : Lasts w.seen (w.settle pending outcome).seen := by
    rw [seen_settle]
    exact .setStage pending _ w.seen
  refine ⟨fun hjob => ?_, ?_⟩
  · rw [← job?_seen] at hjob ⊢
    exact hseen.job? hjob
  · have hsize := hseen.size
    simpa only [seen, Array.size_map] using hsize

theorem Lasts.conclude (pending : Nat) (label : Option String) (body : Action) (w : World) :
    Lasts w (w.conclude pending label body).2 :=
  have hnote : Grown w (w.note (.finished pending label)) := .of_pendings (w := w) rfl
  hnote.toLasts.trans ((Grown.run body _).toLasts.trans (.settle pending _ _))

theorem same_seatedAt (waiter : Waiter) (pending : Nat) (own : Option Nat) (cell : PendingCell)
    (w : World) : Same w (w.seatedAt waiter pending own cell).2 := by
  have hnote : Same w (w.noteStart pending cell) := by
    unfold noteStart
    split
    · exact .note _ w
    · exact .refl w
  refine hnote.trans (.of_seen ?_)
  rw [seen_seatedAt, noteStart_seen]

theorem grown_seatedAt (waiter : Waiter) (pending : Nat) (own : Option Nat) (cell : PendingCell)
    (w : World) : Grown w (w.seatedAt waiter pending own cell).2 := (same_seatedAt ..).grown

/-! ## Awaiting -/

theorem askStable_lasts (w : World) : AskStable (Lasts w) where
  started {v} pending label h := by
    have hnote : Grown v (v.note (.started pending label)) := .of_pendings rfl
    exact h.trans hnote.toLasts
  seated pending waiters h := by
    refine h.trans (Grown.of_seen (seen_modifyPending_hidden _ (fun cell => ?_) pending)).toLasts
    rfl
  staged pending stage _ h := h.trans (.setStage pending stage _)
  timer delay waiter h := h.trans (Grown.of_seen (seen_setTimer _ delay waiter)).toLasts
  concluded pending label body h := h.trans (.conclude pending label body _)

theorem Lasts.ask (depth : Nat) (waiter : Waiter) (pending : Nat) (own : Option Nat) (w : World) :
    Lasts w (w.ask depth waiter pending own).2 :=
  (askStable_lasts w).ask (.refl w) depth waiter pending own

/-- What has an outcome keeps it, and nothing has come of the pending values after this one. -/
structure Passed (pending : Nat) (w v : World) : Prop where
  kept : ∀ {n : Nat} {outcome : Outcome}, w.peek n = some outcome → v.peek n = some outcome
  later : ∀ {n : Nat}, pending < n → v.peek n = w.peek n

namespace Passed

variable {pending : Nat}

theorem of_grown (h : Grown w v) : Passed pending w v where
  kept hpeek := (h.peek _).trans hpeek
  later _ := h.peek _

theorem trans (h : Passed pending w v) (h' : Passed pending v u) : Passed pending w u where
  kept hpeek := h'.kept (h.kept hpeek)
  later hlater := (h'.later hlater).trans (h.later hlater)

theorem weaken {source : Nat} (h : Passed source w v) (hle : source ≤ pending) : Passed pending w v where
  kept := h.kept
  later hlater := h.later (Nat.lt_of_le_of_lt hle hlater)

/-- Only this pending value changes, and it had no outcome. -/
theorem of_ne (hopen : w.peek pending = none) (h : ∀ n, n ≠ pending → v.peek n = w.peek n) :
    Passed pending w v where
  kept {n outcome} hpeek := by
    by_cases heq : n = pending
    · rw [heq, hopen] at hpeek
      cases hpeek
    · exact (h n heq).trans hpeek
  later hlater := h _ (Nat.ne_of_gt hlater)

end Passed

/-- A pending value with no outcome changes its stage, still without an outcome. -/
theorem Grown.setStage {pending : Nat} {stage : Stage} (hopen : w.peek pending = none)
    (hstage : stage.outcome? = none) :
    Grown w (w.modifyPending pending fun cell => { cell with stage }) where
  toLasts := .setStage pending stage w
  peek n := by
    by_cases heq : n = pending
    · subst heq
      rw [hopen]
      by_cases hlt : n < w.pendings.size
      · rw [peek_setStage hlt, hstage]
      · have hnone := Array.getElem?_eq_none (Nat.le_of_not_lt hlt)
        simp only [World.peek, World.modifyPending, Array.getElem?_modify, hnone, Option.map_none,
          ite_self]
    · exact peek_modifyPending_of_ne heq _ w

/-- The end of a pending value keeps everything answered, if it ends with the right answer. -/
theorem Answered.settle {pending : Nat} {answer : Outcome} (h : w.Answered base)
    (hsize : pending < w.pendings.size) (hopen : w.peek pending = none)
    (hanswer : ∀ source, w.job? pending = some (.checking source) →
      ∃ outcome, w.peek source = some outcome ∧
        Checked.Answers (w.IsFormOf base) outcome answer) :
    (w.settle pending answer).Answered base := by
  have hlasts := Lasts.settle pending answer w
  have hjob? : ∀ n, (w.settle pending answer).job? n = w.job? n := by
    intro n
    rw [← job?_seen, seen_settle, job?_setStage, job?_seen]
  have hpassed : Passed pending w (w.settle pending answer) :=
    .of_ne hopen fun n hne => by rw [peek_settle hsize, if_neg hne]
  refine ⟨Nat.le_trans h.size hlasts.size, fun {n source given} hbase hjob hpeek => ?_⟩
  have hthere : ∃ outcome, w.peek source = some outcome ∧
      Checked.Answers (w.IsFormOf base) outcome given := by
    rw [hjob?] at hjob
    rw [peek_settle hsize] at hpeek
    split at hpeek
    · rename_i heq
      cases hpeek
      rw [heq] at hjob
      exact hanswer source hjob
    · exact h.answers hbase hjob hpeek
  obtain ⟨outcome, houtcome, hanswers⟩ := hthere
  exact ⟨outcome, hpassed.kept houtcome, hanswers.imp fun hxy => hxy.lasts hlasts⟩

/-- What asking does to answers. -/
structure Asked (base pending : Nat) (w : World) (r : Answer × World) : Prop where
  passed : Passed pending w r.2
  answered : w.Answered base → r.2.Answered base
  ready : ∀ outcome, r.1 = .ready outcome → r.2.peek pending = some outcome

theorem Asked.after {pending : Nat} {r : Answer × World} (h : Asked base pending v r)
    (hpassed : Passed pending w v) (hanswered : w.Answered base → v.Answered base) :
    Asked base pending w r where
  passed := hpassed.trans h.passed
  answered hw := h.answered (hanswered hw)
  ready := h.ready

/-- There is no answer yet, and there is none to any other pending value that there was not before. -/
theorem Asked.notYet {pending : Nat} (h : Grown w v) (seat : Nat) :
    Asked base pending w (.notYet seat, v) where
  passed := .of_grown h
  answered hw := hw.grown h
  ready _ hready := by cases hready

/-- A pending value with no outcome ends. -/
theorem asked_conclude {pending : Nat} (label : Option String) (body : Action)
    (hsize : pending < w.pendings.size) (hopen : w.peek pending = none)
    (hbody : ∀ source, w.job? pending = some (.checking source) →
      ∃ outcome, w.peek source = some outcome ∧ body = checkedBody outcome) :
    Asked base pending w
      (.ready (w.conclude pending label body).1, (w.conclude pending label body).2) := by
  let u := (body.run (w.note (.finished pending label))).2
  let answer := (body.run (w.note (.finished pending label))).1
  have hnote : Grown w (w.note (.finished pending label)) := .of_pendings (w := w) rfl
  have hgrown : Grown w u := hnote.trans (.run body _)
  have husize : pending < u.pendings.size := Nat.lt_of_lt_of_le hsize hgrown.size
  have huopen : u.peek pending = none := (hgrown.peek pending).trans hopen
  have hpassed : Passed pending u (u.settle pending answer) :=
    .of_ne huopen fun n hne => by rw [peek_settle husize, if_neg hne]
  refine ⟨(Passed.of_grown hgrown).trans hpassed, fun hw => ?_, fun outcome hready => ?_⟩
  · refine (hw.grown hgrown).settle husize huopen fun source hjob => ?_
    obtain ⟨job, hcell⟩ : ∃ job, w.job? pending = some job := by
      rw [job?, Array.getElem?_eq_getElem hsize]
      exact ⟨_, rfl⟩
    have hsame : job = .checking source :=
      Option.some.inj ((hgrown.job? hcell).symm.trans hjob)
    obtain ⟨outcome, houtcome, rfl⟩ := hbody source (hsame ▸ hcell)
    exact ⟨outcome, (hgrown.peek source).trans houtcome,
      Checked.answers_run outcome (w := w.note (.finished pending label)) hw.size⟩
  · cases hready
    exact (peek_settle husize answer pending).trans (if_pos rfl)

section Asking

variable {pending : Nat} {cell : PendingCell}

/-- A pending value that was asked, and has no outcome, has not got one by being asked. -/
theorem peek_seatedAt (hcell : w.pendings[pending]? = some cell) (hopen : ∀ o, cell.stage ≠ .done o)
    (waiter : Waiter) (own : Option Nat) :
    (w.seatedAt waiter pending own cell).2.peek pending = none := by
  rw [(grown_seatedAt waiter pending own cell w).peek, peek_of_getElem? hcell]
  cases hstage : cell.stage with
  | done o => exact absurd hstage (hopen o)
  | _ => rfl

/-- Asking a pending value that waits for the clock. -/
theorem asked_after {depth delay : Nat} {keeps : List Value} {body : Action}
    (hcell : w.pendings[pending]? = some cell) (hopen : ∀ o, cell.stage ≠ .done o)
    (hjob : cell.job = .after delay keeps body) (waiter : Waiter) (own : Option Nat) :
    Asked base pending w (w.ask (depth + 1) waiter pending own) := by
  have hseated := grown_seatedAt waiter pending own cell w
  have hpeek := peek_seatedAt hcell hopen waiter own
  have hsize := Nat.lt_of_lt_of_le (lt_size_of_getElem? hcell) hseated.size
  rw [ask_open hcell hopen, hjob]
  dsimp only
  split
  · refine (asked_conclude cell.label body hsize hpeek fun source hsource => ?_).after
      (.of_grown hseated) fun hw => hw.grown hseated
    rw [hseated.job? (job?_of_getElem? hcell), hjob] at hsource
    cases hsource
  · have htimer : Grown (w.seatedAt waiter pending own cell).2
        ((w.seatedAt waiter pending own cell).2.startTimer delay pending cell.stage) :=
      .of_seen (seen_startTimer ..)
    exact .notYet (hseated.trans (htimer.trans
      (.setStage ((htimer.peek pending).trans hpeek) rfl))) _

/-- Asking a pending value that waits for another one. -/
theorem asked_checking {depth source : Nat} (hcell : w.pendings[pending]? = some cell)
    (hopen : ∀ o, cell.stage ≠ .done o) (hjob : cell.job = .checking source)
    (waiter : Waiter) (own : Option Nat)
    (horder : (w.ask (depth + 1) waiter pending own).2.InOrder)
    (ih : ∀ {u : World} (own : Option Nat), source < pending → source < u.pendings.size →
      (u.ask depth (.pending pending) source own).2.InOrder →
      Asked base source u (u.ask depth (.pending pending) source own)) :
    Asked base pending w (w.ask (depth + 1) waiter pending own) := by
  have hlt : source < pending := by
    refine (horder.before (.ask _ waiter pending own w)) ?_
    rw [job?_of_getElem? hcell, hjob]
  have hseated := grown_seatedAt waiter pending own cell w
  have hpeek := peek_seatedAt hcell hopen waiter own
  have hsize := Nat.lt_of_lt_of_le (lt_size_of_getElem? hcell) hseated.size
  have hjob' := hseated.job? (job?_of_getElem? hcell)
  rw [ask_open hcell hopen, hjob] at horder ⊢
  dsimp only at horder ⊢
  generalize (w.seatedAt waiter pending own cell).2 = u at *
  have hsource := ih (u := u) (Stage.seat? cell.stage) hlt (Nat.lt_trans hlt hsize)
  have hlasts := Lasts.ask depth (.pending pending) source (Stage.seat? cell.stage) u
  generalize u.ask depth (.pending pending) source (Stage.seat? cell.stage) = r at *
  obtain ⟨answer, v⟩ := r
  cases answer with
  | ready outcome =>
    have hasked := hsource (horder.before (.conclude pending cell.label (checkedBody outcome) v))
    refine (asked_conclude cell.label (checkedBody outcome) (Nat.lt_of_lt_of_le hsize hlasts.size)
      ((hasked.passed.later hlt).trans hpeek) fun source' hsource' => ?_).after
      ((Passed.of_grown hseated).trans (hasked.passed.weaken (Nat.le_of_lt hlt)))
      fun hw => hasked.answered (hw.grown hseated)
    rw [hlasts.job? hjob', hjob] at hsource'
    cases hsource'
    exact ⟨outcome, hasked.ready outcome rfl, rfl⟩
  | notYet seat =>
    have hasked := hsource (horder.before (.setStage pending _ v))
    exact (Asked.notYet (.setStage ((hasked.passed.later hlt).trans hpeek) rfl) _).after
      ((Passed.of_grown hseated).trans (hasked.passed.weaken (Nat.le_of_lt hlt)))
      fun hw => hasked.answered (hw.grown hseated)

end Asking

/-- Asking keeps everything answered. The pending values that it comes through are earlier and
earlier. -/
theorem asked_ask {depth pending : Nat} (hdepth : pending < depth) (waiter : Waiter)
    (own : Option Nat) (horder : (w.ask depth waiter pending own).2.InOrder)
    (hsize : pending < w.pendings.size) :
    Asked base pending w (w.ask depth waiter pending own) := by
  induction depth generalizing w waiter pending own with
  | zero => cases hdepth
  | succ depth ih =>
    have hcell : w.pendings[pending]? = some w.pendings[pending] := Array.getElem?_eq_getElem hsize
    generalize w.pendings[pending] = cell at hcell
    by_cases hdone : ∃ o, cell.stage = .done o
    · obtain ⟨o, ho⟩ := hdone
      have hask : w.ask (depth + 1) waiter pending own = (.ready o, w) := by
        rw [ask, hcell]
        simp only [ho]
      rw [hask]
      refine ⟨.of_grown (.refl w), id, fun outcome hready => ?_⟩
      cases hready
      rw [peek_of_getElem? hcell, ho]
      rfl
    · have hopen : ∀ o, cell.stage ≠ .done o := fun o ho => hdone ⟨o, ho⟩
      cases hjob : cell.job with
      | after delay keeps body => exact asked_after hcell hopen hjob waiter own
      | checking source =>
        refine asked_checking hcell hopen hjob waiter own horder fun own hlt hsize horder => ?_
        exact ih (by omega) _ own horder hsize

/-! ## Histories -/

theorem same_advance (h : w.advance? = some v) : Same w v := by
  obtain ⟨deadline, -, hseen⟩ := seen_advance h
  have hclock : Same w (w.sleepUntil deadline) := ⟨rfl, rfl, rfl, rfl, fun _ => rfl, fun _ => rfl, rfl⟩
  exact hclock.trans (.of_seen hseen)

theorem grown_advance (h : w.advance? = some v) : Grown w v := (same_advance h).grown

/-- Nothing is written down while time passes. -/
theorem log_advance (h : w.advance? = some v) : v.log = w.log := by
  obtain ⟨deadline, -, hseen⟩ := seen_advance h
  rw [← seen_log, hseen, seen_log]
  rfl

/-- The world lasts, and everything is answered as far as checked forms come after what they check. -/
structure Checks (base : Nat) (w v : World) : Prop extends Lasts w v where
  answered : v.InOrder → v.Answered base

theorem Checks.grown (h : Checks base w v) (hgrown : Grown v u) : Checks base w u where
  toLasts := h.toLasts.trans hgrown.toLasts
  answered horder := (h.answered (horder.before hgrown.toLasts)).grown hgrown

theorem Checks.await (h : Checks base w v) (waiter : Waiter) (pending : Nat) (own : Option Nat) :
    Checks base w (v.await waiter pending own).2 := by
  have hlasts := Lasts.ask (pending + 1) waiter pending own v
  refine ⟨h.toLasts.trans hlasts, fun horder => ?_⟩
  have hanswered := h.answered (horder.before hlasts)
  by_cases hsize : pending < v.pendings.size
  · exact (asked_ask (Nat.lt_succ_self _) waiter own horder hsize).answered hanswered
  · -- there is nothing to ask
    have hnone := Array.getElem?_eq_none (Nat.le_of_not_lt hsize)
    rw [World.await, World.ask, hnone]
    exact hanswered

/-- Renders keep everything answered. -/
theorem preserved_checks (base : Nat) (w : World) : Preserved (Checks base w) where
  hidden h hseen _ := h.grown (.of_seen hseen)
  aside h hpendings _ _ := h.grown (.of_pendings hpendings)
  run a h := h.grown (.run a _)
  setTimer delay waiter h := h.grown (.of_seen (seen_setTimer _ delay waiter))
  await waiter pending own h := h.await waiter pending own
  advance h hv := h.grown (grown_advance hv)

/-- At first there are no checked forms. -/
theorem answered_size (w : World) : w.Answered w.pendings.size where
  size := Nat.le_refl _
  answers hbase hjob _ := absurd (lt_size_of_job? hjob) (Nat.not_lt.mpr hbase)

/-- The one is the checked form of the other, down to this depth of pending values: whatever comes of a
checked form is the answer to what came of the pending value itself. -/
def IsChecked (w : World) : Nat → Value → Value → Prop
  | 0, x, y => Checked.Form x y
  | depth + 1, x, y => Checked.Form x y ∧
    ∀ source pending answer, x = .pending source → y = .pending pending →
      w.peek pending = some answer →
        ∃ outcome, w.peek source = some outcome ∧
          Checked.Answers (w.IsChecked depth) outcome answer

theorem IsFormOf.isChecked {x y : Value} (h : v.IsFormOf base x y) (hanswered : v.Answered base)
    (depth : Nat) : v.IsChecked depth x y := by
  induction depth generalizing x y with
  | zero => exact h.1
  | succ depth ih =>
    refine ⟨h.1, fun source pending answer hx hy hpeek => ?_⟩
    obtain ⟨hbase, hjob⟩ := h.2 source pending hx hy
    obtain ⟨outcome, houtcome, hanswers⟩ := hanswered.answers hbase hjob hpeek
    exact ⟨outcome, houtcome, hanswers.imp fun hxy => ih hxy⟩

/-- As soon as the pending value itself has an outcome, its checked form is there for whoever asks. -/
theorem await_checked {pending source : Nat} {outcome : Outcome}
    (hjob : w.job? pending = some (.checking source)) (hlt : source < pending)
    (houtcome : w.peek source = some outcome) (waiter : Waiter) (own : Option Nat) :
    ∃ answer, (w.await waiter pending own).1 = .ready answer := by
  obtain ⟨cell, hcell, hjob⟩ := Option.map_eq_some_iff.mp hjob
  by_cases hdone : ∃ o, cell.stage = .done o
  · obtain ⟨o, ho⟩ := hdone
    rw [await, ask, hcell]
    simp only [ho]
    exact ⟨o, rfl⟩
  · rw [await, ask_open hcell fun o ho => hdone ⟨o, ho⟩, hjob]
    dsimp only
    have hpeek := (grown_seatedAt waiter pending own cell w).peek source
    rw [houtcome] at hpeek
    generalize (w.seatedAt waiter pending own cell).2 = u at hpeek ⊢
    -- the source is done, so that asking it changes nothing
    have hask : u.ask pending (.pending pending) source (Stage.seat? cell.stage) =
        (.ready outcome, u) := by
      obtain ⟨depth, rfl⟩ := Nat.exists_eq_add_one_of_ne_zero (Nat.ne_of_gt (Nat.zero_lt_of_lt hlt))
      unfold peek at hpeek
      rw [ask]
      cases hsource : u.pendings[source]? with
      | none =>
        rw [hsource] at hpeek
        cases hpeek
      | some c =>
        obtain ⟨label, job, stage, waiters⟩ := c
        rw [hsource] at hpeek
        cases stage <;> cases hpeek
        rfl
    rw [hask]
    exact ⟨_, rfl⟩

end World

/-! ## Checked templates -/

/-- A checked template fails exactly if one of the roots of what the template comes to is rejected, with the
error of the first one. Otherwise every root is in checked form, and whatever is awaited, rendered or made
afterwards, so is what comes of pending values. -/
theorem Checked.template_run (w : World) (statics : Statics) (values : List Value) :
    let r := (w.useTemplate 0 statics values).1
    let checked := (Checked.template statics values .give).run w
    (∀ error, checked.1 = .error error ↔ r.roots.findSome? rootError? = some error) ∧
      ∀ y, checked.1 = .ok y → y.isList = r.isList ∧ List.Forall₂ Form r.roots y.members ∧
        ∀ v, checked.2.Leads v → v.InOrder →
          ∀ depth, List.Forall₂ (v.IsChecked depth) r.roots y.members := by
  intro r checked
  have hrun : checked = (result r .give).run (w.useTemplate 0 statics values).2 := rfl
  have hresult := result_run (w := (w.useTemplate 0 statics values).2) r (Nat.le_refl _)
  cases hr : r.roots.findSome? rootError? with
  | some error =>
    rw [hr] at hresult
    obtain ⟨u, hfail⟩ := hresult
    rw [hrun, hfail]
    refine ⟨fun e => ⟨fun h => ?_, fun h => ?_⟩, fun y h => by cases h⟩ <;> cases h <;> rfl
  | none =>
    rw [hr] at hresult
    obtain ⟨y, u, hgive, hgrown, hlist, hforms⟩ := hresult
    rw [hrun, hgive]
    refine ⟨fun e => ⟨fun h => (by cases h), fun h => (by cases h)⟩, ?_⟩
    rintro _ ⟨⟩
    refine ⟨hlist, hforms.imp fun x y h => h.1, fun v hleads horder depth => ?_⟩
    have hstart : World.Checks (w.useTemplate 0 statics values).2.pendings.size u u :=
      ⟨.refl u, fun _ => (World.answered_size _).grown hgrown⟩
    have hchecks := (World.preserved_checks _ u).leads hleads hstart
    exact hforms.imp fun x y h =>
      (h.lasts hchecks.toLasts).isChecked (hchecks.answered horder) depth

/-- A pending value, the second one in its world, that comes to another one, which comes to `false`. -/
def twofold : World :=
  ((Action.pending none 0 [] (.give (.bool false)) fun inner =>
    .pending none 0 [inner] (.give inner) .give).run {}).2

/-- Its checked form comes to another checked form, and that one to no text. -/
theorem Checked.template_run_twofold :
    ∃ r u v, (Checked.template ⟨"", ["", ""]⟩ [.pending 1] .give).run twofold = (.ok (.pending 2), r) ∧
      r.resolve 2 2 = some (.ok (.pending 3), u) ∧ u.resolve 2 3 = some (.ok (.str ""), v) ∧
      v.IsChecked 3 (.pending 1) (.pending 2) := by
  have hrun : ∃ r u v,
      (Checked.template ⟨"", ["", ""]⟩ [.pending 1] .give).run twofold = (.ok (.pending 2), r) ∧
      r.resolve 2 2 = some (.ok (.pending 3), u) ∧ u.resolve 2 3 = some (.ok (.str ""), v) ∧
      v.InOrder := ⟨_, _, _, by cbv, by cbv, by cbv, of_decide_eq_true (by cbv)⟩
  obtain ⟨r, u, v, hanswer, hfirst, hsecond, horder⟩ := hrun
  refine ⟨r, u, v, hanswer, hfirst, hsecond, ?_⟩
  obtain ⟨-, hok⟩ := Checked.template_run twofold ⟨"", ["", ""]⟩ [.pending 1]
  rw [hanswer] at hok
  obtain ⟨-, -, hchecked⟩ := hok (.pending 2) rfl
  have hroots := hchecked v ((World.Leads.refl.resolve hfirst).resolve hsecond) horder 3
  have hvalue : (twofold.useTemplate 0 ⟨"", ["", ""]⟩ [.pending 1]).1 = .pending 1 := by cbv
  rw [hvalue] at hroots
  exact (List.forall₂_cons.mp hroots).1

end TaggedMarkup
