import TaggedMarkup.Proofs.Render.Lives
import TaggedMarkup.Proofs.Render.Meanwhile

/-!
# Where pending values come from

Pending values are numbered in the order in which they are made, so the numbers depend on what else is
rendered meanwhile. What does not is their **origin**: a pending value was there before, or it is one of those
that a certain call made, or one of those that were made at the end of another one.

A world becomes another one **on record** (`World.Records`) if the origins of the pending values are written
down as they are made. As long as no call is made twice, no two pending values have the same origin
(`World.Registers`).
-/

namespace TaggedMarkup

/-- Where a pending value comes from. -/
inductive Origin where
  /-- it was there before -/
  | given (pending : Nat)
  /-- it is the `k`th that the call made -/
  | called (call k : Nat)
  /-- it is the `k`th that was made when the one from there ended -/
  | ended (source : Origin) (k : Nat)
  deriving DecidableEq

namespace Origin

variable {origins more : List Origin} {made : Nat → Origin} {size : Nat} {origin : Origin}

/-- The origins of all pending values when there are `size` of them, if those that are new were made one after
the other. -/
def grow (made : Nat → Origin) (size : Nat) (origins : List Origin) : List Origin :=
  origins ++ (List.range (size - origins.length)).map made

theorem length_grow (h : origins.length ≤ size) : (grow made size origins).length = size := by
  rw [grow, List.length_append, List.length_map, List.length_range]
  omega

theorem prefix_grow : origins <+: grow made size origins := List.prefix_append ..

theorem grow_eq_self (h : size ≤ origins.length) : grow made size origins = origins := by
  rw [grow, Nat.sub_eq_zero_of_le h]
  exact List.append_nil _

theorem mem_grow : origin ∈ grow made size origins ↔
    origin ∈ origins ∨ ∃ k < size - origins.length, made k = origin := by
  simp only [grow, List.mem_append, List.mem_map, List.mem_range]

theorem nodup_grow (h : origins.Nodup) (hmade : made.Injective) (hnew : ∀ k, made k ∉ origins) :
    (grow made size origins).Nodup := by
  refine List.nodup_append.mpr ⟨h, List.nodup_range.map hmade, ?_⟩
  rintro origin hold _ hmade rfl
  obtain ⟨k, -, rfl⟩ := List.mem_map.mp hmade
  exact hnew k hold

/-- Those that were there keep their origins. -/
theorem getElem?_of_prefix (h : origins <+: more) {p : Nat} (hp : origins[p]? = some origin) :
    more[p]? = some origin := by
  obtain ⟨rest, rfl⟩ := h
  rw [List.getElem?_append_left (List.getElem?_eq_some_iff.mp hp).1, hp]

end Origin

namespace World

variable {w v u : World} {origins more : List Origin} {p : Nat}

/-! ## Origins in the course of asking -/

/-- The origins of all pending values after one is asked. Those that are made on the way are made at the end of
the one asked, or of one that it waits for. -/
def askOrigins : Nat → Waiter → Nat → Option Nat → World → List Origin → List Origin
  | 0, _, _, _, _, origins => origins
  | depth + 1, waiter, pending, own, w, origins =>
    match w.pendings[pending]?, w.peek pending, origins[pending]? with
    | some cell, none, some origin =>
      Origin.grow (.ended origin) (w.ask (depth + 1) waiter pending own).2.pendings.size <|
        match cell.job with
        | .after .. => origins
        | .checking source =>
          askOrigins depth (.pending pending) source (Stage.seat? cell.stage)
            (w.seatedAt waiter pending own cell).2 origins
    | _, _, _ => origins

/-- What has an outcome, or is not there, is asked to no effect. -/
theorem ask_closed (origins : List Origin) {depth : Nat} {waiter : Waiter} {own : Option Nat}
    (h : w.pendings[p]? = none ∨ ∃ outcome, w.peek p = some outcome) :
    (w.ask depth waiter p own).2 = w ∧ w.askOrigins depth waiter p own origins = origins := by
  cases depth with
  | zero => exact ⟨rfl, rfl⟩
  | succ depth =>
    rw [ask, askOrigins]
    cases hcell : w.pendings[p]? with
    | none => exact ⟨rfl, rfl⟩
    | some cell =>
      obtain hnone | ⟨outcome, houtcome⟩ := h
      · cases hcell.symm.trans hnone
      · rw [houtcome]
        rw [peek_of_getElem? hcell] at houtcome
        obtain ⟨label, job, stage, waiters⟩ := cell
        cases stage <;> cases houtcome
        exact ⟨rfl, rfl⟩

/-- What is open has a cell without an outcome. -/
theorem cases_open (w : World) (p : Nat) :
    (w.pendings[p]? = none ∨ ∃ outcome, w.peek p = some outcome) ∨
      ∃ cell, w.pendings[p]? = some cell ∧ w.peek p = none ∧ ∀ o, cell.stage ≠ .done o := by
  cases hcell : w.pendings[p]? with
  | none => exact .inl (.inl rfl)
  | some cell =>
    cases hpeek : w.peek p with
    | some outcome => exact .inl (.inr ⟨outcome, rfl⟩)
    | none =>
      refine .inr ⟨cell, rfl, rfl, fun o ho => ?_⟩
      rw [peek_of_getElem? hcell, ho] at hpeek
      cases hpeek

theorem size_conclude (label : Option String) (body : Action) (w : World) :
    w.pendings.size ≤ (w.conclude p label body).2.pendings.size := (Lasts.conclude p label body w).size

/-- The end of a pending value is its outcome, and nothing else comes of it. -/
theorem peek_conclude (h : p < w.pendings.size) (label : Option String) (body : Action) (n : Nat) :
    (w.conclude p label body).2.peek n = if n = p then some (w.conclude p label body).1 else w.peek n := by
  have hrun : Grown w (body.run (w.note (.finished p label))).2 :=
    (Same.note _ w).grown.trans (.run body _)
  rw [conclude, ← hrun.peek n]
  exact peek_settle (Nat.lt_of_lt_of_le h hrun.size) _ n

/-- The asker has a seat, and if the pending value checks another one, that one was asked. -/
def sourceAsked (depth : Nat) (waiter : Waiter) (pending : Nat) (own : Option Nat) (cell : PendingCell)
    (w : World) : World :=
  let v := (w.seatedAt waiter pending own cell).2
  match cell.job with
  | .after .. => v
  | .checking source => (v.ask depth (.pending pending) source (Stage.seat? cell.stage)).2

/-- The origins of all pending values then. -/
def sourceOrigins (depth : Nat) (waiter : Waiter) (pending : Nat) (own : Option Nat) (cell : PendingCell)
    (w : World) (origins : List Origin) : List Origin :=
  match cell.job with
  | .after .. => origins
  | .checking source => (w.seatedAt waiter pending own cell).2.askOrigins depth (.pending pending) source
    (Stage.seat? cell.stage) origins

section Open

variable {depth : Nat} {waiter : Waiter} {own : Option Nat} {cell : PendingCell} {origin : Origin}

theorem askOrigins_open (hcell : w.pendings[p]? = some cell) (hopen : w.peek p = none)
    (horigin : origins[p]? = some origin) : w.askOrigins (depth + 1) waiter p own origins =
      Origin.grow (.ended origin) (w.ask (depth + 1) waiter p own).2.pendings.size
        (w.sourceOrigins depth waiter p own cell origins) := by
  rw [askOrigins, hcell, hopen, horigin]
  rfl

/-- An open pending value that is asked ends, or goes on waiting. -/
theorem ask_ends_or_waits (hcell : w.pendings[p]? = some cell) (hopen : ∀ o, cell.stage ≠ .done o)
    (depth : Nat) (waiter : Waiter) (own : Option Nat) :
    (∃ body, (w.ask (depth + 1) waiter p own).2 =
        ((w.sourceAsked depth waiter p own cell).conclude p cell.label body).2) ∨
      ∃ (u : World) (stage : Stage), u.seen = (w.sourceAsked depth waiter p own cell).seen ∧
        stage.outcome? = none ∧ stage ≠ .unstarted ∧
          (w.ask (depth + 1) waiter p own).2 = u.modifyPending p fun cell => { cell with stage } := by
  rw [ask_open hcell hopen, sourceAsked]
  cases cell.job with
  | after delay keeps body =>
    dsimp only
    split
    · exact .inl ⟨body, rfl⟩
    · exact .inr ⟨_, .waiting _, seen_startTimer .., rfl, nofun, rfl⟩
  | checking source =>
    dsimp only
    split
    · rename_i outcome v hask
      rw [hask]
      exact .inl ⟨checkedBody outcome, rfl⟩
    · rename_i seat v hask
      rw [hask]
      exact .inr ⟨v, .seated seat, rfl, rfl, nofun, rfl⟩

/-- What comes after the one that it checks was asked. -/
theorem lasts_of_sourceAsked (hcell : w.pendings[p]? = some cell) (hopen : ∀ o, cell.stage ≠ .done o)
    (depth : Nat) (waiter : Waiter) (own : Option Nat) :
    Lasts (w.sourceAsked depth waiter p own cell) (w.ask (depth + 1) waiter p own).2 := by
  obtain ⟨body, hends⟩ | ⟨u, stage, hseen, -, -, hwaits⟩ := ask_ends_or_waits hcell hopen depth waiter own
  · rw [hends]
    exact .conclude ..
  · rw [hwaits]
    exact (Grown.of_seen hseen).toLasts.trans (.setStage ..)

end Open

theorem prefix_askOrigins (depth : Nat) (waiter : Waiter) (p : Nat) (own : Option Nat) (w : World)
    (origins : List Origin) : origins <+: w.askOrigins depth waiter p own origins := by
  induction depth generalizing waiter p own w with
  | zero => exact List.prefix_refl _
  | succ depth ih =>
    rw [askOrigins]
    split
    · refine List.IsPrefix.trans ?_ Origin.prefix_grow
      split
      · exact List.prefix_refl _
      · exact ih ..
    · exact List.prefix_refl _

/-- What is made on the way is made at the end of a pending value. -/
theorem mem_askOrigins {depth : Nat} {waiter : Waiter} {own : Option Nat} {origin : Origin}
    (h : origin ∈ w.askOrigins depth waiter p own origins) :
    origin ∈ origins ∨ ∃ source k, origin = .ended source k := by
  induction depth generalizing waiter p own w with
  | zero => exact .inl h
  | succ depth ih =>
    rw [askOrigins] at h
    split at h
    · rcases Origin.mem_grow.mp h with hold | ⟨k, -, rfl⟩
      · split at hold
        · exact .inl hold
        · exact ih hold
      · exact .inr ⟨_, k, rfl⟩
    · exact .inl h

theorem prefix_sourceOrigins (depth : Nat) (waiter : Waiter) (p : Nat) (own : Option Nat) (cell : PendingCell)
    (w : World) (origins : List Origin) : origins <+: w.sourceOrigins depth waiter p own cell origins := by
  rw [sourceOrigins]
  split
  · exact List.prefix_refl _
  · exact prefix_askOrigins ..

theorem lasts_sourceAsked (depth : Nat) (waiter : Waiter) (p : Nat) (own : Option Nat) (cell : PendingCell)
    (w : World) : Lasts w (w.sourceAsked depth waiter p own cell) := by
  have hseated := (grown_seatedAt waiter p own cell w).toLasts
  rw [sourceAsked]
  split
  · exact hseated
  · exact hseated.trans (.ask ..)

/-- A pending value waits for one that was made before it, so nothing happens to it meanwhile. -/
theorem passesBy_sourceAsked {depth : Nat} {waiter : Waiter} {own : Option Nat} {cell : PendingCell}
    (hcell : w.pendings[p]? = some cell) (horder : (w.sourceAsked depth waiter p own cell).InOrder) :
    PassesBy p (w.seatedAt waiter p own cell).2 (w.sourceAsked depth waiter p own cell) := by
  have hjob := (lasts_sourceAsked depth waiter p own cell w).job? (job?_of_getElem? hcell)
  rw [sourceAsked] at horder hjob ⊢
  cases hchecks : cell.job with
  | after delay keeps body => exact .refl _
  | checking source =>
    rw [hchecks] at horder hjob
    refine passesBy_ask _ _ _ fun hawaits => ?_
    exact Nat.lt_irrefl _ (Nat.lt_of_lt_of_le (horder hjob) (hawaits.le horder))

/-- Nothing happens to the outcome of what is passed by. -/
theorem PassesBy.peek_eq (h : PassesBy p w v) (hsize : p < w.pendings.size) : v.peek p = w.peek p := by
  have hcell : w.seen.pendings[p]? = some w.pendings[p].seen := by
    rw [seen_getElem?, Array.getElem?_eq_getElem hsize, Option.map_some]
  rw [← peek_seen, ← peek_seen w, peek_of_getElem? hcell, peek_of_getElem? (h.cell hcell)]

theorem peek_sourceAsked {depth : Nat} {waiter : Waiter} {own : Option Nat} {cell : PendingCell}
    (hcell : w.pendings[p]? = some cell) (horder : (w.sourceAsked depth waiter p own cell).InOrder) :
    (w.sourceAsked depth waiter p own cell).peek p = w.peek p := by
  have hseated := grown_seatedAt waiter p own cell w
  have hsize := Nat.lt_of_lt_of_le (lt_size_of_getElem? hcell) hseated.size
  rw [(passesBy_sourceAsked hcell horder).peek_eq hsize, hseated.peek]

/-! ## On record -/

/-- Every pending value has an origin of its own, and those that were made at the end of another one are there
after it. -/
structure Registers (w : World) (origins : List Origin) : Prop where
  length : origins.length = w.pendings.size
  nodup : origins.Nodup
  ended : ∀ {origin : Origin} {k : Nat}, .ended origin k ∈ origins →
    ∃ p outcome, origins[p]? = some origin ∧ w.peek p = some outcome

namespace Registers

theorem exists_origin (h : w.Registers origins) (hp : p < w.pendings.size) :
    ∃ origin, origins[p]? = some origin :=
  ⟨_, List.getElem?_eq_getElem (h.length.symm ▸ hp)⟩

theorem eq_of_getElem? (h : w.Registers origins) {n m : Nat} {origin : Origin} (hn : origins[n]? = some origin)
    (hm : origins[m]? = some origin) : n = m :=
  (List.getElem?_inj (List.getElem?_eq_some_iff.mp hn).1 h.nodup).mp (hn.trans hm.symm)

/-- Nothing came of any pending value, and there are no more. -/
theorem grown (h : w.Registers origins) (hv : Grown w v) (hsize : v.pendings.size = w.pendings.size) :
    v.Registers origins where
  length := h.length.trans hsize.symm
  nodup := h.nodup
  ended hmem := by
    obtain ⟨p, outcome, horigin, hpeek⟩ := h.ended hmem
    exact ⟨p, outcome, horigin, (hv.peek p).trans hpeek⟩

/-- An open pending value ends. -/
theorem conclude (h : w.Registers origins) {origin : Origin} (horigin : origins[p]? = some origin)
    (hopen : w.peek p = none) (label : Option String) (body : Action) :
    (w.conclude p label body).2.Registers
      (Origin.grow (.ended origin) (w.conclude p label body).2.pendings.size origins) := by
  have hsize : origins.length ≤ (w.conclude p label body).2.pendings.size :=
    h.length ▸ size_conclude label body w
  have hp : p < w.pendings.size := h.length ▸ (List.getElem?_eq_some_iff.mp horigin).1
  have hnone : ∀ k, .ended origin k ∉ origins := by
    intro k hmem
    obtain ⟨q, outcome, hq, hpeek⟩ := h.ended hmem
    cases h.eq_of_getElem? hq horigin
    cases hopen.symm.trans hpeek
  refine ⟨Origin.length_grow hsize, Origin.nodup_grow h.nodup (fun _ _ heq => Origin.ended.inj heq |>.2) hnone, ?_⟩
  intro source k hmem
  rcases Origin.mem_grow.mp hmem with hold | ⟨_, -, heq⟩
  · obtain ⟨q, outcome, hq, hpeek⟩ := h.ended hold
    refine ⟨q, outcome, Origin.getElem?_of_prefix Origin.prefix_grow hq, ?_⟩
    rw [peek_conclude hp, if_neg, hpeek]
    rintro rfl
    cases hopen.symm.trans hpeek
  · cases heq
    exact ⟨p, _, Origin.getElem?_of_prefix Origin.prefix_grow horigin, by rw [peek_conclude hp, if_pos rfl]⟩

/-- A call that was not made before makes pending values. -/
theorem called (h : w.Registers origins) (hv : Grown w v) {call : Nat} (hnew : ∀ k, .called call k ∉ origins) :
    v.Registers (Origin.grow (.called call) v.pendings.size origins) where
  length := Origin.length_grow (h.length.trans_le hv.size)
  nodup := Origin.nodup_grow h.nodup (fun _ _ heq => Origin.called.inj heq |>.2) hnew
  ended hmem := by
    rcases Origin.mem_grow.mp hmem with hold | ⟨_, -, heq⟩
    · obtain ⟨p, outcome, hp, hpeek⟩ := h.ended hold
      exact ⟨p, outcome, Origin.getElem?_of_prefix Origin.prefix_grow hp, (hv.peek p).trans hpeek⟩
    · cases heq

/-- Asking keeps the record: whatever ends was open before. -/
theorem ask (h : w.Registers origins) (depth : Nat) (waiter : Waiter) (own : Option Nat)
    (horder : (w.ask depth waiter p own).2.InOrder) :
    (w.ask depth waiter p own).2.Registers (w.askOrigins depth waiter p own origins) := by
  induction depth generalizing waiter p own w with
  | zero => exact h
  | succ depth ih =>
    obtain hclosed | ⟨cell, hcell, hpeek, hopen⟩ := w.cases_open p
    · obtain ⟨hask, horigins⟩ := ask_closed origins hclosed
      rw [hask, horigins]
      exact h
    · obtain ⟨origin, horigin⟩ := h.exists_origin (lt_size_of_getElem? hcell)
      have hbefore := horder.before (lasts_of_sourceAsked hcell hopen depth waiter own)
      have hasked : (w.sourceAsked depth waiter p own cell).Registers
          (w.sourceOrigins depth waiter p own cell origins) := by
        have hseated := h.grown (grown_seatedAt waiter p own cell w) (same_seatedAt waiter p own cell w).size
        rw [sourceAsked] at hbefore ⊢
        rw [sourceOrigins]
        cases hjob : cell.job with
        | after delay keeps body => exact hseated
        | checking source =>
          rw [hjob] at hbefore
          exact ih hseated _ _ hbefore
      have hnone := (peek_sourceAsked hcell hbefore).trans hpeek
      have horigin' := Origin.getElem?_of_prefix (prefix_sourceOrigins depth waiter p own cell w origins) horigin
      rw [askOrigins_open hcell hpeek horigin]
      obtain ⟨body, hends⟩ | ⟨u, stage, hseen, hstage, -, hwaits⟩ := ask_ends_or_waits hcell hopen depth waiter own
      · rw [hends]
        exact hasked.conclude horigin' hnone cell.label body
      · have hu : Grown (w.sourceAsked depth waiter p own cell) u := .of_seen hseen
        have hsize : (w.ask (depth + 1) waiter p own).2.pendings.size =
            (w.sourceAsked depth waiter p own cell).pendings.size := by
          rw [hwaits, modifyPending, Array.size_modify]
          exact (Same.of_seen hseen).size
        have hstaged : Grown u (u.modifyPending p fun cell => { cell with stage }) :=
          .setStage ((hu.peek p).trans hnone) hstage
        have hgrown := hu.trans hstaged
        rw [← hwaits] at hgrown
        rw [Origin.grow_eq_self (hasked.length.trans hsize.symm).ge]
        exact hasked.grown hgrown hsize

end Registers

/-- The world may have come to this while things were rendered in it, and the pending values there come from
here. -/
inductive Records (w : World) (origins : List Origin) : World → List Origin → Prop
  | refl : Records w origins w origins
  /-- the books are changed: tasks, windows, waiters, timers -/
  | hidden {v u : World} {more : List Origin} : Records w origins v more → u.seen = v.seen →
    Records w origins u more
  | noted {v : World} {more : List Origin} (event : Event) : Records w origins v more →
    Records w origins (v.note event) more
  | called {v : World} {more : List Origin} (call : Nat) (component : Component) (props : Props)
    (children : List Value) : Records w origins v more →
      Records w origins (v.callComponent component props children).2
        (Origin.grow (.called call) (v.callComponent component props children).2.pendings.size more)
  | took {v : World} {more : List Origin} (sequence : Nat) : Records w origins v more →
    Records w origins (Render.take sequence v).2 more
  | asked {v : World} {more : List Origin} (waiter : Waiter) (pending : Nat) (own : Option Nat) :
    Records w origins v more → Records w origins (v.await waiter pending own).2
      (v.askOrigins (pending + 1) waiter pending own more)
  | passed {v u : World} {more : List Origin} : Records w origins v more → v.advance? = some u →
    Records w origins u more

namespace Records

variable {rest : List Origin}

theorem trans (h : Records w origins v more) (h' : Records v more u rest) : Records w origins u rest := by
  induction h' with
  | refl => exact h
  | hidden _ hseen ih => exact ih.hidden hseen
  | noted event _ ih => exact ih.noted event
  | called call component props children _ ih => exact ih.called call component props children
  | took sequence _ ih => exact ih.took sequence
  | asked waiter pending own _ ih => exact ih.asked waiter pending own
  | passed _ hadvance ih => exact ih.passed hadvance

theorem becomes (h : Records w origins v more) : w.Becomes v := by
  induction h with
  | refl => exact .refl
  | hidden _ hseen ih => exact ih.hidden hseen
  | noted event _ ih => exact ih.noted event
  | called _ component props children _ ih => exact ih.called component props children
  | took sequence _ ih => exact ih.took sequence
  | asked waiter pending own _ ih => exact ih.asked waiter pending own
  | passed _ hadvance ih => exact ih.passed hadvance

/-- Origins are written down for good. -/
theorem isPrefix (h : Records w origins v more) : origins <+: more := by
  induction h with
  | refl => exact List.prefix_refl _
  | hidden | noted | took | passed => assumption
  | called _ _ _ _ _ ih => exact ih.trans Origin.prefix_grow
  | asked _ _ _ _ ih => exact ih.trans (prefix_askOrigins ..)

end Records

end World

end TaggedMarkup
