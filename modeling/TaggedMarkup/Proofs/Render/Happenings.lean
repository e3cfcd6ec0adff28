import Mathlib.Algebra.BigOperators.Group.Finset.Basic
import Mathlib.Algebra.Order.Group.Multiset
import Mathlib.Tactic.Abel
import TaggedMarkup.Proofs.Render.Origins

/-!
# What happens

Of what is written down while things are rendered, some depends on how many members are rendered ahead: the
times, the way of members through windows, and the numbers of what is made on the way. What is left of an event
without them is a **happening** (`Event.happening?`).

What happens at one place of what is rendered happens once: a component is called, a member is drawn, a prop is
dropped. A pending value may be reached at several places, and is started and finished once. So its happenings are
counted by its life: the milestones written down and those to come make up those that were to come
(`World.LivesOn`).
-/

namespace TaggedMarkup

/-- Something that happened, whenever it did. -/
inductive Happening where
  | called (label : Option String)
  | started (label : Option String)
  | finished (label : Option String)
  /-- the member with this number was drawn -/
  | drawn (label : Option String) (index : Nat)
  | droppedProp (name typeName : String)
  deriving DecidableEq, Repr

/-- A milestone in the life of a pending value with this label. -/
def Milestone.happening (label : Option String) : Milestone → Happening
  | started => .started label
  | finished => .finished label

namespace Event

/-- What happened, if the event concerns what is rendered. -/
def happening? : Event → Option Happening
  | called _ label => some (.called label)
  | started _ label => some (.started label)
  | finished _ label => some (.finished label)
  | drawn _ label index => some (.drawn label index)
  | droppedProp name typeName => some (.droppedProp name typeName)
  | reported _ | entered .. | began .. | left .. => none

/-- What happened at one place of what is rendered. -/
def once? : Event → Option Happening
  | called _ label => some (.called label)
  | drawn _ label index => some (.drawn label index)
  | droppedProp name typeName => some (.droppedProp name typeName)
  | started .. | finished .. | reported _ | entered .. | began .. | left .. => none

/-- The pending value that has come to a milestone, with its label. -/
def pending? : Event → Option (Nat × Option String)
  | started pending label | finished pending label => some (pending, label)
  | _ => none

theorem exists_milestone? {event : Event} {p : Nat} {label : Option String} (h : event.pending? = some (p, label)) :
    ∃ m, event.milestone? p = some m := by
  cases event with
  | started | finished =>
    cases h
    exact ⟨_, if_pos rfl⟩
  | _ => cases h

/-- What is told of a log, if so much is told of each event. -/
def tally (told : Event → Option Happening) (log : List (Nat × Event)) : Multiset Happening :=
  Multiset.ofList (log.filterMap fun entry => told entry.2)

variable {told : Event → Option Happening} {log more : List (Nat × Event)} {p time : Nat} {event : Event}
  {label : Option String}

theorem tally_append : tally told (log ++ more) = tally told log + tally told more := by
  rw [tally, List.filterMap_append]
  rfl

theorem tally_cons : tally told ((time, event) :: log) = Multiset.ofList (told event).toList + tally told log := by
  rw [tally, List.filterMap_cons]
  dsimp only
  cases told event <;> rfl

/-- What happened in the life of a pending value that has this label. -/
def inLife (p : Nat) (label : Option String) (log : List (Nat × Event)) : Multiset Happening :=
  Multiset.ofList ((life p log).map fun entry => entry.2.happening label)

theorem inLife_cons : inLife p label ((time, event) :: log) =
    Multiset.ofList ((event.milestone? p).map (Milestone.happening label)).toList + inLife p label log := by
  rw [inLife, life_cons]
  cases event.milestone? p <;> rfl

variable {size : Nat} {labels : Nat → Option String}

/-- An event is one that happens at one place, or one in the life of one pending value. -/
theorem happening?_eq (h : ∀ p label, event.pending? = some (p, label) → p < size ∧ labels p = label) :
    Multiset.ofList event.happening?.toList = Multiset.ofList event.once?.toList +
      ∑ p ∈ Finset.range size, Multiset.ofList ((event.milestone? p).map (Milestone.happening (labels p))).toList := by
  have hlife : ∀ q m, (∀ p, event.milestone? p = if q = p then some m else none) → q < size →
      ∑ p ∈ Finset.range size, Multiset.ofList ((event.milestone? p).map (Milestone.happening (labels p))).toList =
        {m.happening (labels q)} := by
    intro q m hmilestone hq
    rw [Finset.sum_eq_single_of_mem q (Finset.mem_range.mpr hq) fun p _ hne => ?_]
    · rw [hmilestone, if_pos rfl]
      rfl
    · rw [hmilestone, if_neg (Ne.symm hne)]
      rfl
  cases event with
  | started q label | finished q label =>
    obtain ⟨hq, rfl⟩ := h q label rfl
    rw [hlife q _ (fun _ => rfl) hq]
    rfl
  | _ =>
    refine Eq.trans ?_ (congrArg (_ + ·) (Finset.sum_eq_zero fun _ _ => rfl).symm)
    exact (add_zero _).symm

/-- What happened is what happened at one place each, and what happened in the lives of pending values. -/
theorem tally_happening (h : ∀ entry ∈ log, ∀ p label, entry.2.pending? = some (p, label) →
    p < size ∧ labels p = label) : tally happening? log =
      tally once? log + ∑ p ∈ Finset.range size, inLife p (labels p) log := by
  induction log with
  | nil =>
    refine Eq.trans ?_ (congrArg (_ + ·) (Finset.sum_eq_zero fun _ _ => rfl).symm)
    exact (add_zero _).symm
  | cons entry log ih =>
    obtain ⟨time, event⟩ := entry
    obtain ⟨hfirst, hrest⟩ := List.forall_mem_cons.mp h
    simp only [tally_cons, inLife_cons, Finset.sum_add_distrib, ih hrest, happening?_eq hfirst]
    abel

end Event

namespace World

open Event (life life_append life_cons)

/-- What happened since the log had `mark` entries, the latest first. -/
def happenings (mark : Nat) (w : World) : List Happening := (w.since mark).filterMap fun entry => entry.2.happening?

/-- The label of a pending value. -/
def pendingLabel? (p : Nat) (w : World) : Option (Option String) := w.pendings[p]?.map (·.label)

variable {p q : Nat} {w v u : World} {label : Option String}

theorem pendingLabel?_of_getElem? {cell : PendingCell} (h : w.pendings[p]? = some cell) :
    w.pendingLabel? p = some cell.label := by rw [pendingLabel?, h, Option.map_some]

theorem pendingLabel?_seen (p : Nat) (w : World) : w.seen.pendingLabel? p = w.pendingLabel? p := by
  rw [pendingLabel?, pendingLabel?, seen_getElem?, Option.map_map]
  rfl

/-! ## Milestones -/

/-- These milestones in the life of the pending value were written down, in this order. -/
structure Marks (p : Nat) (w v : World) (marks : List Milestone) : Prop where
  log : ∃ new, v.log = new ++ w.log ∧ ((life p new).map (·.2)).reverse = marks ∧
    ∀ entry ∈ new, ∀ label, entry.2.pending? = some (p, label) → v.pendingLabel? p = some label
  label : ∀ {label : Option String}, w.pendingLabel? p = some label → v.pendingLabel? p = some label

namespace Marks

variable {marks more : List Milestone}

theorem trans (h : Marks p w v marks) (h' : Marks p v u more) : Marks p w u (marks ++ more) where
  log := by
    obtain ⟨new, hnew, hmarks, hlabel⟩ := h.log
    obtain ⟨last, hlast, hmore, hlabel'⟩ := h'.log
    refine ⟨last ++ new, by rw [hlast, hnew, List.append_assoc], ?_, fun entry hentry label hp => ?_⟩
    · rw [life_append, List.map_append, List.reverse_append, hmarks, hmore]
    · rcases List.mem_append.mp hentry with hmem | hmem
      · exact hlabel' entry hmem label hp
      · exact h'.label (hlabel entry hmem label hp)
  label hp := h'.label (h.label hp)

theorem of_passesBy (h : PassesBy p w v) : Marks p w v [] where
  log := by
    obtain ⟨new, hnew, hnone⟩ := h.log
    refine ⟨new, hnew, by rw [hnone]; rfl, fun entry hentry label hp => ?_⟩
    obtain ⟨m, hm⟩ := Event.exists_milestone? hp
    have hnot := List.filterMap_eq_nil_iff.mp hnone entry hentry
    rw [hm] at hnot
    cases hnot
  label hp := by
    rw [← pendingLabel?_seen, pendingLabel?, Option.map_eq_some_iff] at hp ⊢
    obtain ⟨cell, hcell, heq⟩ := hp
    exact ⟨cell, h.cell hcell, heq⟩

/-- What the pending value has come to is written down. -/
theorem note {event : Event} {m : Milestone} (h : event.milestone? p = some m)
    (hlabel : ∀ label, event.pending? = some (p, label) → w.pendingLabel? p = some label) :
    Marks p w (w.note event) [m] where
  log := by
    refine ⟨[(w.clock, event)], rfl, ?_, fun entry hentry label hp => ?_⟩
    · rw [life_cons, h]
      rfl
    · rw [List.mem_singleton.mp hentry] at hp
      exact hlabel label hp
  label hp := hp

/-- Nothing was written down. -/
theorem of_cells (hlog : v.log = w.log) (hlabel : v.pendingLabel? p = w.pendingLabel? p) : Marks p w v [] where
  log := ⟨[], hlog, rfl, nofun⟩
  label hp := hlabel.trans hp

end Marks

end World

/-- The milestones that are to come. -/
def Stage.toCome : Stage → List Milestone
  | unstarted => [.started, .finished]
  | done _ => []
  | _ => [.finished]

theorem Stage.toCome_seen (stage : Stage) : stage.seen.toCome = stage.toCome := by cases stage <;> rfl

namespace World

open Event (life life_append life_cons)

variable {p q : Nat} {w v u : World} {label : Option String}

/-- The milestones that are to come in the life of a pending value, whether it is there already or not. -/
def toCome (p : Nat) (w : World) : List Milestone :=
  match w.pendings[p]? with
  | some cell => cell.stage.toCome
  | none => [.started, .finished]

theorem toCome_of_getElem? {cell : PendingCell} (h : w.pendings[p]? = some cell) : w.toCome p = cell.stage.toCome := by
  rw [toCome, h]

theorem toCome_seen (p : Nat) (w : World) : w.seen.toCome p = w.toCome p := by
  rw [toCome, toCome, seen_getElem?]
  cases w.pendings[p]? with
  | none => rfl
  | some cell => exact cell.stage.toCome_seen

/-- Nothing is to come of what has an outcome, and of nothing else. -/
theorem toCome_eq_nil_iff : w.toCome p = [] ↔ ∃ outcome, w.peek p = some outcome := by
  rw [toCome, peek]
  cases w.pendings[p]? with
  | none => simp
  | some cell =>
    obtain ⟨label, job, stage, waiters⟩ := cell
    cases stage <;> simp [Stage.toCome]

theorem PassesBy.toCome_eq (h : PassesBy p w v) : v.toCome p = w.toCome p := by
  rw [← toCome_seen, ← toCome_seen p w]
  cases hcell : w.seen.pendings[p]? with
  | some cell => rw [toCome_of_getElem? (h.cell hcell), toCome_of_getElem? hcell]
  | none =>
    rw [toCome.eq_def p w.seen, hcell]
    cases hv : v.seen.pendings[p]? with
    | none => rw [toCome, hv]
    | some cell =>
      rw [toCome_of_getElem? hv, h.fresh hcell cell hv]
      rfl

/-- The life of the pending value goes on: what was to come has come, or is still to come. -/
def LivesOn (p : Nat) (w v : World) : Prop := ∃ marks, Marks p w v marks ∧ w.toCome p = marks ++ v.toCome p

namespace LivesOn

theorem of_passesBy (h : PassesBy p w v) : LivesOn p w v := ⟨[], .of_passesBy h, h.toCome_eq.symm⟩

theorem refl (p : Nat) (w : World) : LivesOn p w w := of_passesBy (.refl w)

theorem trans (h : LivesOn p w v) (h' : LivesOn p v u) : LivesOn p w u := by
  obtain ⟨marks, hmarks, heq⟩ := h
  obtain ⟨more, hmore, heq'⟩ := h'
  exact ⟨marks ++ more, hmarks.trans hmore, by rw [heq, heq', List.append_assoc]⟩

theorem kept (h : LivesOn p w v) (hp : w.pendingLabel? p = some label) : v.pendingLabel? p = some label := by
  obtain ⟨marks, hmarks, -⟩ := h
  exact hmarks.label hp

/-- What is over stays over. -/
theorem ended (h : LivesOn p w v) (hp : w.toCome p = []) : v.toCome p = [] := by
  obtain ⟨marks, -, heq⟩ := h
  exact (List.append_eq_nil_iff.mp (heq.symm.trans hp)).2

/-- Where as much is to come as before, nothing has come. -/
theorem marks_eq_nil {marks : List Milestone} (hsame : v.toCome p = w.toCome p)
    (heq : w.toCome p = marks ++ v.toCome p) : marks = [] := by
  rw [hsame] at heq
  exact List.eq_nil_of_length_eq_zero (by have := congrArg List.length heq; rw [List.length_append] at this; omega)

end LivesOn

/-- The asker has taken a seat, and the pending value is started unless it was before. -/
theorem marks_seatedAt {cell : PendingCell} (hcell : w.pendings[p]? = some cell) (waiter : Waiter)
    (own : Option Nat) : Marks p w (w.seatedAt waiter p own cell).2
      (if cell.stage.toCome = [.started, .finished] then [.started] else []) := by
  have hlabel : w.pendingLabel? p = some cell.label := pendingLabel?_of_getElem? hcell
  have hseated : ∀ waiters : Seats, Marks p w (w.modifyPending p fun cell => { cell with waiters }) [] := by
    refine fun waiters => .of_cells rfl ?_
    rw [pendingLabel?, getElem?_modifyPending_self _ hcell, hlabel]
    rfl
  rw [seatedAt]
  dsimp only
  rw [noteStart]
  have hnote : ∀ {u : World}, Marks p w u [] → Marks p u (u.note (.started p cell.label)) [.started] := by
    intro u hu
    refine .note (if_pos rfl) fun label hp => ?_
    cases hp
    exact hu.label hlabel
  cases cell.stage with
  | unstarted => exact (hseated _).trans (hnote (hseated _))
  | waiting | seated | gone | done => exact hseated _

/-- It goes on waiting. -/
theorem marks_setStage (h : p < w.pendings.size) (stage : Stage) :
    Marks p w (w.modifyPending p fun cell => { cell with stage }) [] ∧
      (w.modifyPending p fun cell => { cell with stage }).toCome p = stage.toCome := by
  have hcell := getElem?_modifyPending_self (fun cell => { cell with stage }) (Array.getElem?_eq_getElem h)
  refine ⟨.of_cells rfl ?_, toCome_of_getElem? hcell⟩
  rw [pendingLabel?_of_getElem? hcell, pendingLabel?_of_getElem? (Array.getElem?_eq_getElem h)]

/-- It ends. -/
theorem marks_conclude (hlabel : w.pendingLabel? p = some label) (body : Action) :
    Marks p w (w.conclude p label body).2 [.finished] ∧ (w.conclude p label body).2.toCome p = [] := by
  have hnote : Marks p w (w.note (.finished p label)) [.finished] := by
    refine .note (if_pos rfl) fun other hp => ?_
    cases hp
    exact hlabel
  have hrun : PassesBy p (w.note (.finished p label)) (body.run (w.note (.finished p label))).2 := .run body _
  have hmarks := hnote.trans (.of_passesBy hrun)
  have hthere : p < w.pendings.size := by
    obtain ⟨cell, hcell, -⟩ := Option.map_eq_some_iff.mp hlabel
    exact lt_size_of_getElem? hcell
  refine ⟨?_, toCome_eq_nil_iff.mpr ⟨_, (peek_conclude hthere label body p).trans (if_pos rfl)⟩⟩
  rw [conclude]
  generalize body.run (w.note (.finished p label)) = r at hrun hmarks ⊢
  have hsize : p < r.2.pendings.size := Nat.lt_of_lt_of_le hthere hrun.size
  refine hmarks.trans (.of_cells ?_ ?_)
  · rw [← seen_log, seen_settle]
    rfl
  · have hcell : r.2.seen.pendings[p]? = some r.2.pendings[p].seen := by
      rw [seen_getElem?, Array.getElem?_eq_getElem hsize, Option.map_some]
    rw [← pendingLabel?_seen, seen_settle, pendingLabel?_of_getElem? (getElem?_modifyPending_self _ hcell),
      ← pendingLabel?_seen, pendingLabel?_of_getElem? hcell]

/-- Its own life goes on when a pending value is asked. -/
theorem livesOn_ask_self {cell : PendingCell} (hcell : w.pendings[p]? = some cell)
    (hopen : ∀ o, cell.stage ≠ .done o) (depth : Nat) (waiter : Waiter) (own : Option Nat)
    (horder : (w.ask (depth + 1) waiter p own).2.InOrder) : LivesOn p w (w.ask (depth + 1) waiter p own).2 := by
  have hbefore := horder.before (lasts_of_sourceAsked hcell hopen depth waiter own)
  have hpassed := passesBy_sourceAsked hcell hbefore
  have hmarks := (marks_seatedAt hcell waiter own).trans (.of_passesBy hpassed)
  rw [List.append_nil] at hmarks
  have hlabel := hmarks.label (pendingLabel?_of_getElem? hcell)
  have hstart : ∀ {later : List Milestone}, later = [.finished] → w.toCome p =
      (if cell.stage.toCome = [.started, .finished] then [.started] else []) ++ later := by
    rintro later rfl
    rw [toCome_of_getElem? hcell]
    cases hstage : cell.stage with
    | done o => exact absurd hstage (hopen o)
    | _ => rfl
  obtain ⟨body, hends⟩ | ⟨u, stage, hseen, hnone, hstarted, hwaits⟩ := ask_ends_or_waits hcell hopen depth waiter own
  · rw [hends]
    obtain ⟨hfinished, hover⟩ := marks_conclude hlabel body
    refine ⟨_, hmarks.trans hfinished, ?_⟩
    rw [hover, List.append_nil]
    exact hstart rfl
  · rw [hwaits]
    have hsize : p < u.pendings.size := by
      have hsame := congrArg (fun w : World => w.pendings.size) hseen
      simp only [seen, Array.size_map] at hsame
      rw [hsame]
      exact Nat.lt_of_lt_of_le (lt_size_of_getElem? hcell) (lasts_sourceAsked depth waiter p own cell w).size
    obtain ⟨hstaged, hlater⟩ := marks_setStage hsize stage
    have hall := hmarks.trans ((Marks.of_passesBy (.of_seen hseen)).trans hstaged)
    refine ⟨_, hall, ?_⟩
    rw [hlater, List.nil_append, List.append_nil]
    refine hstart ?_
    cases stage with
    | unstarted => exact absurd rfl hstarted
    | done => cases hnone
    | _ => rfl

/-- Whichever pending value is asked, lives go on. -/
theorem livesOn_ask (depth : Nat) (waiter : Waiter) (q : Nat) (own : Option Nat) (w : World)
    (horder : (w.ask depth waiter q own).2.InOrder) : LivesOn p w (w.ask depth waiter q own).2 := by
  induction depth generalizing waiter q own w with
  | zero => exact .refl p w
  | succ depth ih =>
    obtain hclosed | ⟨cell, hcell, -, hopen⟩ := w.cases_open q
    · rw [(ask_closed [] hclosed).1]
      exact .refl p w
    by_cases hself : q = p
    · subst hself
      exact livesOn_ask_self hcell hopen depth waiter own horder
    -- another one is asked, which may come to ask this one
    have hbefore := horder.before (lasts_of_sourceAsked hcell hopen depth waiter own)
    have hseated : LivesOn p w (w.seatedAt waiter q own cell).2 := .of_passesBy (.seatedAt hself waiter own cell w)
    have hsource : LivesOn p w (w.sourceAsked depth waiter q own cell) := by
      rw [sourceAsked] at hbefore ⊢
      cases hjob : cell.job with
      | after delay keeps body => exact hseated
      | checking source =>
        rw [hjob] at hbefore
        exact hseated.trans (ih _ _ _ _ hbefore)
    obtain ⟨body, hends⟩ | ⟨u, stage, hseen, -, -, hwaits⟩ := ask_ends_or_waits hcell hopen depth waiter own
    · rw [hends]
      exact hsource.trans (.of_passesBy (.conclude hself cell.label body _))
    · rw [hwaits]
      exact hsource.trans (.of_passesBy ((PassesBy.of_seen hseen).trans (.setStage hself stage u)))

end World

end TaggedMarkup
