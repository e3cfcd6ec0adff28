import TaggedMarkup.Proofs.Render.Alarms
import TaggedMarkup.Proofs.Render.Planned

/-!
# The ledger is kept

While a plan is rendered, the ledger **tallies** with the world (`World.Tallies`): the moment noted for a pending
value is the one for which it waits or has waited, and nothing is noted for one that was not started. Whoever asks
a pending value starts the one at the base of its chain of sources, if nobody did before; there is an answer as
soon as the moment noted for that one has come, and not before (`World.Tallies.ask`).
-/

namespace TaggedMarkup

/-- What is noted for the pending value, and what was noted before all, is right. -/
def PendingCell.Tallies (clock : Nat) (given moment : Option Nat) (c : PendingCell) : Prop :=
  match c.job, c.stage with
  | .after delay _ _, .waiting m => moment = some m ∧ (m ≤ clock + delay ∨ given = some m)
  | .after .., .done _ => ∃ m ≤ clock, moment = some m
  | .after .., _ => moment = none
  | .checking _, _ => True

theorem Stage.eq_done {stage : Stage} {outcome : Outcome} (h : stage.outcome? = some outcome) :
    stage = .done outcome := by
  cases stage <;> cases h
  rfl

namespace World

/-- The ledger tallies with the world. -/
structure Tallies (given : Origin → Option Nat) (w : World) (origins : List Origin) (l : Ledger) : Prop where
  registers : w.Registers origins
  answered : w.Answered 0
  cell : ∀ {pending : Nat} {origin : Origin} {cell : PendingCell}, origins[pending]? = some origin →
    w.seen.pendings[pending]? = some cell → cell.Tallies w.clock (given origin) (l.moments origin)
  unknown : ∀ origin ∉ origins, l.moments origin = none
  called : ∀ {site k : Nat}, .called site k ∈ origins → site ∈ l.sites

variable {given : Origin → Option Nat} {w v : World} {origins more : List Origin} {l l' : Ledger}
  {pending base delay : Nat} {origin : Origin}

/-- What is passed by, or was told right, keeps the ledger right. -/
theorem Tallies.changes (h : w.Tallies given origins l) (hregisters : v.Registers more) (hanswered : v.Answered 0)
    (hfront : origins <+: more) (hclock : v.clock = w.clock)
    (hcell : ∀ n o, more[n]? = some o → (PassesBy n w v ∧ l'.moments o = l.moments o) ∨
      ∀ cell, v.seen.pendings[n]? = some cell → cell.Tallies v.clock (given o) (l'.moments o))
    (hunknown : ∀ o ∉ more, l'.moments o = none) (hcalled : ∀ {site k : Nat}, .called site k ∈ more →
      site ∈ l'.sites) : v.Tallies given more l' where
  registers := hregisters
  answered := hanswered
  cell {n o cell} ho hn := by
    rcases hcell n o ho with ⟨hpassed, hmoment⟩ | hself
    · rw [hmoment, hclock]
      cases hold : w.seen.pendings[n]? with
      | some cell' =>
        cases hn.symm.trans (hpassed.cell hold)
        have hsize : n < origins.length := by
          rw [h.registers.length]
          rw [seen_getElem?, Option.map_eq_some_iff] at hold
          obtain ⟨c, hc, -⟩ := hold
          exact lt_size_of_getElem? hc
        have ho' : origins[n]? = some o := by
          obtain ⟨rest, rfl⟩ := hfront
          rwa [List.getElem?_append_left hsize] at ho
        exact h.cell ho' hold
      | none =>
        -- it is new, and so is its origin
        have hfresh := hpassed.fresh hold cell hn
        have hnew : o ∉ origins := by
          intro hmem
          obtain ⟨k, hk, hget⟩ := List.getElem_of_mem hmem
          have hk' : more[k]? = some o :=
            Origin.getElem?_of_prefix hfront ((List.getElem?_eq_getElem hk).trans (congrArg some hget))
          rw [hregisters.eq_of_getElem? ho hk'] at hold
          rw [seen_getElem?, Option.map_eq_none_iff, Array.getElem?_eq_none_iff, ← h.registers.length] at hold
          omega
        rw [PendingCell.Tallies, hfresh, h.unknown o hnew]
        split <;> trivial
    · exact hself cell hn
  unknown := hunknown
  called := hcalled

/-- What is not seen, what is written down and what becomes of sequences has nothing to do with it. -/
theorem Tallies.same (h : w.Tallies given origins l) (hcells : v.seen.pendings = w.seen.pendings)
    (hclock : v.clock = w.clock) : v.Tallies given origins l := by
  have hpeek : ∀ n, v.peek n = w.peek n := by
    intro n
    rw [← peek_seen, ← peek_seen w, peek, peek, hcells]
  have hjob : ∀ n, v.job? n = w.job? n := by
    intro n
    rw [← job?_seen, ← job?_seen w, job?, job?, hcells]
  have hsize : v.pendings.size = w.pendings.size := by
    have hseen := congrArg Array.size hcells
    rwa [seen, seen, Array.size_map, Array.size_map] at hseen
  have hgrown : Grown w v := ⟨⟨fun hw => (hjob _).trans hw, hsize.ge⟩, hpeek⟩
  refine ⟨h.registers.grown hgrown hsize, h.answered.grown hgrown, fun ho hn => ?_, h.unknown, h.called⟩
  rw [hcells] at hn
  rw [hclock]
  exact h.cell ho hn

theorem Tallies.hidden (h : w.Tallies given origins l) (hseen : v.seen = w.seen) : v.Tallies given origins l :=
  h.same (by rw [hseen]) (clock_of_seen hseen)

/-- A call that was not made before is made. -/
theorem Tallies.callComponent {site : Nat} (h : w.Tallies given origins l) (hsite : site ∉ l.sites)
    (component : Component) (props : Props) (children : List Value) :
    (w.callComponent component props children).2.Tallies given
      (Origin.grow (.called site) (w.callComponent component props children).2.pendings.size origins)
      (l.make site) := by
  have hgrown := Becomes.grown_callComponent component props children w
  have hclock := (kept_callComponent component props children w).clock
  have hnew : ∀ k, .called site k ∉ origins := fun k hmem => hsite (h.called hmem)
  refine h.changes (h.registers.called hgrown hnew) (h.answered.grown hgrown) Origin.prefix_grow hclock
    (fun _ _ _ => .inl ⟨.callComponent component props children w, rfl⟩)
    (fun o ho => h.unknown o fun hmem => ho (Origin.mem_grow.mpr (.inl hmem))) fun {site' k} hmem => ?_
  rcases Origin.mem_grow.mp hmem with hold | ⟨k', -, heq⟩
  · exact List.mem_cons_of_mem _ (h.called hold)
  · cases heq
    exact List.mem_cons_self

/-- Time passes. -/
theorem Tallies.advance (h : w.Tallies given origins l) (hadvance : w.advance? = some v) :
    v.Tallies given origins l := by
  obtain ⟨deadline, -, hseen⟩ := seen_advance hadvance
  have hclock : (w.sleepUntil deadline).Tallies given origins l := by
    have hpendings : Grown w (w.sleepUntil deadline) := .of_pendings rfl
    refine ⟨h.registers.grown hpendings rfl, h.answered.grown hpendings, fun {n o cell} ho hn => ?_, h.unknown,
      h.called⟩
    have hold := h.cell ho hn
    have hlater : w.clock ≤ max w.clock deadline := Nat.le_max_left ..
    obtain ⟨label, job, stage, waiters⟩ := cell
    cases job with
    | checking source => trivial
    | after delay keeps body =>
      cases stage with
      | waiting m =>
        exact ⟨hold.1, hold.2.imp (fun hle => Nat.le_trans hle (Nat.add_le_add_right hlater _)) id⟩
      | done outcome =>
        obtain ⟨m, hm, hmoment⟩ := hold
        exact ⟨m, Nat.le_trans hm hlater, hmoment⟩
      | unstarted | seated | gone => exact hold
  exact hclock.hidden hseen

/-! ## Asking -/

namespace Hinges

theorem lasts (h : w.Hinges origins pending base origin delay) (hlasts : Lasts w v) (hfront : origins <+: more) :
    v.Hinges more pending base origin delay := by
  induction h with
  | clock horigin hjob => exact .clock (Origin.getElem?_of_prefix hfront horigin) (hlasts.job? hjob)
  | source hjob _ ih => exact .source (hlasts.job? hjob) ih

theorem origin_eq (h : w.Hinges origins pending base origin delay) : origins[base]? = some origin := by
  induction h with
  | clock horigin => exact horigin
  | source _ _ ih => exact ih

theorem job (h : w.Hinges origins pending base origin delay) :
    ∃ keeps body, w.job? base = some (.after delay keeps body) := by
  induction h with
  | clock _ hjob => exact ⟨_, _, hjob⟩
  | source _ _ ih => exact ih

theorem awaits (h : w.Hinges origins pending base origin delay) : w.Awaits pending base := by
  induction h with
  | clock => exact .refl _
  | source hjob _ ih => exact .source hjob ih

/-- Whatever else is asked on the way checks outcomes. -/
theorem eq_base (h : w.Hinges origins pending base origin delay) {n other : Nat} {keeps : List Value}
    {body : Action}
    (hawaits : w.Awaits pending n) (hjob : w.job? n = some (.after other keeps body)) : n = base := by
  induction h with
  | clock _ hafter =>
    cases hawaits with
    | refl => rfl
    | source hchecking => cases hchecking.symm.trans hafter
  | source hchecking _ ih =>
    cases hawaits with
    | refl => cases hjob.symm.trans hchecking
    | source hsame hrest =>
      cases hsame.symm.trans hchecking
      exact ih hrest

/-- Where something has come of a pending value, something has come of its base. -/
theorem answers (h : w.Hinges origins pending base origin delay) (hanswered : w.Answered 0) {outcome : Outcome}
    (hpeek : w.peek pending = some outcome) : ∃ o, w.peek base = some o := by
  induction h generalizing outcome with
  | clock => exact ⟨outcome, hpeek⟩
  | source hjob _ ih =>
    obtain ⟨earlier, hearlier, -⟩ := hanswered.answers (Nat.zero_le _) hjob hpeek
    exact ih hearlier

end Hinges

/-- What whoever asks is told, where this was the cell of the base: there is an answer if the moment has come for
which the base waits, or would wait from now on, and if not, the base waits for it. -/
inductive BaseTells (clock delay base : Nat) (cell : PendingCell) : Answer × World → Prop
  | ready {outcome o : Outcome} {v : World} : v.peek base = some o →
    ((∃ o, cell.stage = .done o) ∨ cell.stage.deadline (clock + delay) ≤ clock) →
      BaseTells clock delay base cell (.ready outcome, v)
  | notYet {seat : Nat} {v : World} {c : PendingCell} : (∀ o, cell.stage ≠ .done o) →
    clock < cell.stage.deadline (clock + delay) → v.seen.pendings[base]? = some c → c.job = cell.job →
      c.stage = .waiting (cell.stage.deadline (clock + delay)) →
        BaseTells clock delay base cell (.notYet seat, v)

namespace BaseTells

variable {clock : Nat} {cell asked : PendingCell} {depth : Nat}

/-- A pending value that checks the answer ends. -/
theorem conclude {outcome r : Outcome} (h : BaseTells clock delay base cell (.ready outcome, v))
    (hne : pending ≠ base) (hpending : pending < v.pendings.size) (label : Option String) (body : Action) :
    BaseTells clock delay base cell (.ready r, (v.conclude pending label body).2) := by
  cases h with
  | ready hpeek hcome => exact .ready (by rw [peek_conclude hpending, if_neg (Ne.symm hne), hpeek]) hcome

/-- A pending value that would check the answer goes on waiting. -/
theorem setStage {seat other : Nat} (h : BaseTells clock delay base cell (.notYet seat, v)) (hne : pending ≠ base)
    (stage : Stage) :
    BaseTells clock delay base cell (.notYet other, v.modifyPending pending fun cell => { cell with stage }) := by
  cases h with
  | notYet hnone hlater hc hjob hstage =>
    exact .notYet hnone hlater ((PassesBy.setStage hne stage v).cell hc) hjob hstage

/-- Something has come already of the one that is asked. -/
theorem of_done (h : w.Hinges origins pending base origin delay) (hanswered : w.Answered 0)
    (hcell : w.pendings[base]? = some cell) (hasked : w.pendings[pending]? = some asked) {o : Outcome}
    (hdone : asked.stage = .done o) (waiter : Waiter) (own : Option Nat) :
    BaseTells w.clock delay base cell (w.ask (depth + 1) waiter pending own) := by
  have hask : w.ask (depth + 1) waiter pending own = (.ready o, w) := by
    rw [World.ask, hasked]
    simp only [hdone]
  have hpeek : w.peek pending = some o := by
    rw [peek_of_getElem? hasked, hdone]
    rfl
  obtain ⟨o', ho'⟩ := h.answers hanswered hpeek
  rw [hask]
  refine .ready ho' (.inl ⟨o', ?_⟩)
  rw [peek_of_getElem? hcell] at ho'
  exact Stage.eq_done ho'

/-- The base itself is asked. -/
theorem of_base {keeps : List Value} {body : Action} (hcell : w.pendings[base]? = some cell)
    (hjob : cell.job = .after delay keeps body) (hopen : ∀ o, cell.stage ≠ .done o) (waiter : Waiter)
    (own : Option Nat) : BaseTells w.clock delay base cell (w.ask (depth + 1) waiter base own) := by
  obtain ⟨c, hc, hsame, -⟩ := exists_seated hcell waiter own
  rw [ask_open hcell hopen, hjob]
  dsimp only
  split
  · rename_i hpast
    have hpeek := (peek_conclude (lt_size_of_getElem? hc) cell.label body base).trans (if_pos rfl)
    exact .ready hpeek (.inr hpast)
  · rename_i hlater
    have hstart : ((w.seatedAt waiter base own cell).2.startTimer delay base
        cell.stage).pendings[base]? = some c := by
      rw [startTimer.eq_def]
      split <;> exact hc
    refine .notYet (c := { c.seen with stage := .waiting (cell.stage.deadline (w.clock + delay)) }) hopen
      (Nat.lt_of_not_le hlater) ?_ hsame rfl
    rw [seen_getElem?, getElem?_modifyPending_self _ hstart]
    rfl

end BaseTells

/-- Whoever asks is told what the base tells. -/
theorem Hinges.ask {depth : Nat} {cell : PendingCell} (h : w.Hinges origins pending base origin delay)
    (waiter : Waiter) (own : Option Nat) (hdepth : pending < depth)
    (horder : (w.ask depth waiter pending own).2.InOrder) (hanswered : w.Answered 0)
    (hcell : w.pendings[base]? = some cell) :
    BaseTells w.clock delay base cell (w.ask depth waiter pending own) := by
  induction depth generalizing w pending waiter own with
  | zero => cases hdepth
  | succ depth ih =>
    obtain ⟨asked, hthere⟩ : ∃ asked, w.pendings[pending]? = some asked :=
      ⟨_, Array.getElem?_eq_getElem h.lt_size⟩
    by_cases hdone : ∃ o, asked.stage = .done o
    · obtain ⟨o, ho⟩ := hdone
      exact .of_done h hanswered hcell hthere ho waiter own
    have hopen : ∀ o, asked.stage ≠ .done o := fun o ho => hdone ⟨o, ho⟩
    cases h with
    | clock horigin hjob =>
      cases hcell.symm.trans hthere
      rw [job?_of_getElem? hcell, Option.some.injEq] at hjob
      exact .of_base hcell hjob hopen waiter own
    | @source _ source _ _ _ hjob hsource =>
      rw [job?_of_getElem? hthere, Option.some.injEq] at hjob
      have hjob' := (Lasts.ask (depth + 1) waiter pending own w).job? (job?_of_getElem? hthere)
      rw [hjob] at hjob'
      have hlt : source < pending := horder hjob'
      have hne : pending ≠ base := by
        have hle := (hsource.awaits.lasts (Lasts.ask (depth + 1) waiter pending own w)).le horder
        omega
      have hcell' : (w.seatedAt waiter pending own asked).2.pendings[base]? = some cell := by
        rw [World.seatedAt]
        dsimp only
        rw [getElem?_noteStart, getElem?_modifyPending, if_neg hne, hcell]
      rw [ask_open hthere hopen, hjob] at horder ⊢
      dsimp only at horder ⊢
      have hseated := grown_seatedAt waiter pending own asked w
      have hsource' := hsource.lasts hseated.toLasts (List.prefix_refl _)
      have hsize := hseated.size.trans (Lasts.ask depth (.pending pending) source (Stage.seat? asked.stage)
        (w.seatedAt waiter pending own asked).2).size
      have hask := fun horder => ih hsource' (.pending pending) (Stage.seat? asked.stage)
        (by omega) horder (hanswered.grown hseated) hcell'
      rw [clock_seatedAt waiter pending own asked w] at hask
      generalize (w.seatedAt waiter pending own asked).2.ask depth (.pending pending) source
        (Stage.seat? asked.stage) = r at horder hask hsize ⊢
      obtain ⟨answer, v⟩ := r
      cases answer with
      | ready outcome =>
        have hpending : pending < v.pendings.size := Nat.lt_of_lt_of_le (lt_size_of_getElem? hthere) hsize
        exact (hask (horder.before (.conclude ..))).conclude hne hpending ..
      | notYet seat => exact (hask (horder.before (.setStage ..))).setStage hne _

/-- The moment at which there is an answer from the pending value, if it is asked now. -/
structure ComesAt (clock delay moment : Nat) (cell : PendingCell) : Prop where
  done : (∃ o, cell.stage = .done o) → moment ≤ clock
  waits : (∀ o, cell.stage ≠ .done o) → moment = cell.stage.deadline (clock + delay)

/-- It is the moment noted, or one has to wait from now on. -/
theorem exists_comesAt {clock delay : Nat} {keeps : List Value} {body : Action} {given moment : Option Nat}
    {cell : PendingCell} (hjob : cell.job = .after delay keeps body)
    (h : cell.seen.Tallies clock given moment) :
    ∃ m, ComesAt clock delay m cell ∧
      (moment = some m ∧ (m ≤ clock + delay ∨ given = some m) ∨ moment = none ∧ m = clock + delay) := by
  obtain ⟨label, job, stage, waiters⟩ := cell
  cases hjob
  cases stage with
  | done outcome =>
    obtain ⟨m, hm, hmoment⟩ := h
    exact ⟨m, ⟨fun _ => hm, fun hnone => absurd rfl (hnone outcome)⟩,
      .inl ⟨hmoment, .inl (Nat.le_add_right_of_le hm)⟩⟩
  | waiting m => exact ⟨m, ⟨nofun, fun _ => rfl⟩, .inl h⟩
  | unstarted | seated | gone => exact ⟨clock + delay, ⟨nofun, fun _ => rfl⟩, .inr ⟨h, rfl⟩⟩

namespace BaseTells

variable {clock moment : Nat} {cell c : PendingCell} {r : Answer × World}

/-- There is an answer if the moment has come. -/
theorem answer (h : BaseTells clock delay base cell r) (hmoment : ComesAt clock delay moment cell) :
    moment ≤ clock ∧ (∃ outcome, r.1 = .ready outcome) ∨ clock < moment ∧ ∃ seat, r.1 = .notYet seat := by
  cases h with
  | ready hpeek hcome =>
    refine .inl ⟨?_, _, rfl⟩
    by_cases hover : ∃ o, cell.stage = .done o
    · exact hmoment.done hover
    · rw [hmoment.waits fun o ho => hover ⟨o, ho⟩]
      exact hcome.resolve_left hover
  | notYet hnone hlater hc hjob hstage => exact .inr ⟨(hmoment.waits hnone).symm ▸ hlater, _, rfl⟩

/-- The base waits for the moment, or it has come. -/
theorem tallies (h : BaseTells clock delay base cell r) (hmoment : ComesAt clock delay moment cell)
    {keeps : List Value} {body : Action} {given : Option Nat} (hdue : moment ≤ clock + delay ∨ given = some moment)
    (hc : r.2.seen.pendings[base]? = some c) (hjob : c.job = .after delay keeps body) :
    c.Tallies clock given (some moment) := by
  have hanswer := h.answer hmoment
  rw [PendingCell.Tallies, hjob]
  cases h with
  | ready hpeek hcome =>
    rw [← peek_seen, peek_of_getElem? hc] at hpeek
    obtain ⟨hpast, -⟩ | ⟨-, seat, hnot⟩ := hanswer
    · rw [Stage.eq_done hpeek]
      exact ⟨moment, hpast, rfl⟩
    · cases hnot
  | notYet hnone hlater hc' hjob' hstage =>
    cases hc.symm.trans hc'
    rw [hstage, ← hmoment.waits hnone]
    exact ⟨rfl, hdue⟩

end BaseTells

/-- The moment stands in the ledger, or is noted there now. -/
theorem exists_noted {clock m : Nat}
    (hmoment : l.moments origin = some m ∧ (m ≤ clock + delay ∨ given origin = some m) ∨
      l.moments origin = none ∧ m = clock + delay) :
    ∃ l' : Ledger, (l.moments origin = some m ∧ (m ≤ clock + delay ∨ given origin = some m) ∧ l' = l ∨
        l.moments origin = none ∧ m = clock + delay ∧ l' = l.start origin m) ∧
      l'.moments origin = some m ∧ (∀ o ≠ origin, l'.moments o = l.moments o) ∧ l'.sites = l.sites := by
  rcases hmoment with ⟨hsome, hle⟩ | ⟨hnone, hm⟩
  · exact ⟨l, .inl ⟨hsome, hle, rfl⟩, hsome, fun _ _ => rfl, rfl⟩
  · exact ⟨l.start origin m, .inr ⟨hnone, hm, rfl⟩, Ledger.moments_start_self ..,
      fun _ => Ledger.moments_start_of_ne, rfl⟩

/-- Whoever asks waits for the moment that is noted for the base, or the base is started and its moment noted. -/
theorem Tallies.ask (h : w.Tallies given origins l) (hhinges : w.Hinges origins pending base origin delay)
    (waiter : Waiter) (own : Option Nat) (horder : (w.await waiter pending own).2.InOrder) :
    ∃ m l', (l.moments origin = some m ∧ (m ≤ w.clock + delay ∨ given origin = some m) ∧ l' = l ∨
        l.moments origin = none ∧ m = w.clock + delay ∧ l' = l.start origin m) ∧
      (w.await waiter pending own).2.Tallies given (w.askOrigins (pending + 1) waiter pending own origins) l' ∧
      (m ≤ w.clock ∧ (∃ outcome, (w.await waiter pending own).1 = .ready outcome) ∨
        w.clock < m ∧ ∃ seat, (w.await waiter pending own).1 = .notYet seat) := by
  obtain ⟨keeps, body, hjob⟩ := hhinges.job
  obtain ⟨cell, hcell, hafter⟩ := Option.map_eq_some_iff.mp hjob
  have hseen : w.seen.pendings[base]? = some cell.seen := by rw [seen_getElem?, hcell, Option.map_some]
  obtain ⟨m, hcomes, hmoment⟩ := exists_comesAt hafter (h.cell hhinges.origin_eq hseen)
  have hdue : m ≤ w.clock + delay ∨ given origin = some m := by
    rcases hmoment with ⟨-, hle⟩ | ⟨-, hm⟩
    · exact hle
    · exact .inl hm.le
  obtain ⟨l', hl', hnoted, hothers, hsites⟩ := exists_noted hmoment
  rw [World.await] at horder ⊢
  have hanswered := (asked_ask (Nat.lt_succ_self _) waiter own horder hhinges.lt_size).answered h.answered
  have htells := hhinges.ask waiter own (Nat.lt_succ_self _) horder h.answered hcell
  have hfront := prefix_askOrigins (pending + 1) waiter pending own w origins
  have hregisters := h.registers.ask (p := pending) (pending + 1) waiter own horder
  have hlasts := Lasts.ask (pending + 1) waiter pending own w
  have hclock : (w.ask (pending + 1) waiter pending own).2.clock = w.clock := clock_ask ..
  have hthere := hhinges.lasts hlasts hfront
  refine ⟨m, l', hl', h.changes hregisters hanswered hfront hclock (fun n o ho => ?_) (fun o ho => ?_)
    (fun hmem => ?_), htells.answer hcomes⟩
  · by_cases hbase : n = base
    · subst hbase
      cases ho.symm.trans hthere.origin_eq
      refine .inr fun c hc => ?_
      have hafter' := hlasts.job? hjob
      rw [← job?_seen, job?_of_getElem? hc, Option.some.injEq] at hafter'
      rw [hnoted, hclock]
      exact htells.tallies hcomes hdue hc hafter'
    · -- any other one is passed by, or checks an outcome
      have hne : o ≠ origin := by
        rintro rfl
        exact hbase (hregisters.eq_of_getElem? ho hthere.origin_eq)
      by_cases hawaits : (w.ask (pending + 1) waiter pending own).2.Awaits pending n
      · refine .inr fun c hc => ?_
        have hchecks : ∃ source, c.job = .checking source := by
          cases hcase : c.job with
          | checking source => exact ⟨source, rfl⟩
          | after other keeps body =>
            have hafter' := job?_of_getElem? hc
            rw [job?_seen, hcase] at hafter'
            exact absurd (hthere.eq_base hawaits hafter') hbase
        obtain ⟨source, hchecks⟩ := hchecks
        rw [PendingCell.Tallies, hchecks]
        trivial
      · exact .inl ⟨passesBy_ask _ _ _ hawaits, hothers o hne⟩
  · have hne : o ≠ origin := by
      rintro rfl
      exact ho (List.mem_of_getElem? hthere.origin_eq)
    rw [hothers o hne]
    exact h.unknown o fun hmem => ho (hfront.subset hmem)
  · rw [hsites]
    rcases mem_askOrigins hmem with hold | ⟨source, k, heq⟩
    · exact h.called hold
    · cases heq

end World

end TaggedMarkup
