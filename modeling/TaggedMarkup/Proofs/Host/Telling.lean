import TaggedMarkup.Proofs.Host.Tasks

/-!
# Telling

Somebody who waits at a pending value, or a task that waits for its turn, goes on only after it was
**told** to. Telling leaves nobody out (`tells_wake`): whoever loses its place among those to be told has
been told by then, and so has everybody who was waiting for that. When a task is told, so is the task that
renders the list it is a member of.
-/

namespace Option.Rel

variable {α : Type} {r : α → α → Prop} {x y z : Option α} {a b : α}

theorem comp (htrans : ∀ {a b c : α}, r a b → r b c → r a c) (h : Rel r x y) (h' : Rel r y z) :
    Rel r x z := by
  cases h with
  | none =>
    cases h'
    exact .none
  | some hab =>
    cases h' with
    | some hbc => exact .some (htrans hab hbc)

theorem exists_some (h : Rel r x y) (hx : x = .some a) : ∃ b, y = .some b ∧ r a b := by
  subst hx
  cases h with
  | some hab => exact ⟨_, rfl, hab⟩

theorem some_exists (h : Rel r x y) (hy : y = .some b) : ∃ a, x = .some a ∧ r a b := by
  subst hy
  cases h with
  | some hab => exact ⟨_, rfl, hab⟩

theorem eq_none (h : Rel r x y) (hx : x = .none) : y = .none := by
  subst hx
  cases h
  rfl

end Option.Rel

namespace TaggedMarkup

/-- The task is to have another turn, or needs none. -/
def TaskCell.isTold (c : TaskCell) : Bool :=
  c.ended || if c.window.isSome then c.queued else c.woken

namespace World

/-- The seats at a pending value. -/
def seatsAt (pending : Nat) (w : World) : Seats :=
  match w.pendings[pending]? with
  | some cell => cell.waiters
  | none => {}

/-- The waiter in this seat is still to be told. -/
def Untold (w : World) (pending seat : Nat) (waiter : Waiter) : Prop :=
  (w.seatsAt pending).seats[seat]? = some (some waiter)

/-- The waiter was told, and so were all who wait for it. -/
def Told (w : World) : Waiter → Prop
  | .task task => ∀ cell, w.tasks[task]? = some cell → cell.isTold = true
  | .pending pending => ∀ seat waiter, ¬w.Untold pending seat waiter

/-- The task that renders the list in which the task is a member. -/
def owner? (task : Nat) (w : World) : Option Nat :=
  (w.tasks[task]?.bind TaskCell.window).bind fun window => w.windows[window]?.map WindowCell.owner

/-- A task that is to have a turn in its window stands in the queue there, once. -/
def Lined (w : World) (task : Nat) : Prop :=
  ∀ (cell : TaskCell) (window : Nat) (frame : WindowCell), w.tasks[task]? = some cell →
    cell.window = some window → w.windows[window]? = some frame → frame.queue.count task = cell.queued.toNat

/-- A task is made after the task that renders its list. -/
def Rooted (w : World) : Prop :=
  ∀ (task : Nat) (cell : TaskCell) (window : Nat), w.tasks[task]? = some cell →
    cell.window = some window → ∃ frame, w.windows[window]? = some frame ∧ frame.owner < task

/-- A pending value is made after those at which it waits. -/
def Forward (w : World) : Prop :=
  ∀ pending seat later, w.Untold pending seat (.pending later) → pending < later

variable {w v u : World}

theorem untold_iff {pending seat : Nat} {waiter : Waiter} :
    w.Untold pending seat waiter ↔
      ∃ cell, w.pendings[pending]? = some cell ∧ cell.waiters.seats[seat]? = some (some waiter) := by
  unfold Untold seatsAt
  cases w.pendings[pending]? with
  | none => simp
  | some cell => simp

theorem owner?_eq_some {task owner : Nat} :
    w.owner? task = some owner ↔ ∃ cell window frame, w.tasks[task]? = some cell ∧
      cell.window = some window ∧ w.windows[window]? = some frame ∧ frame.owner = owner := by
  simp only [owner?, Option.bind_eq_some_iff, Option.map_eq_some_iff]
  constructor
  · rintro ⟨window, ⟨cell, hcell, hwindow⟩, frame, hframe, howner⟩
    exact ⟨cell, window, frame, hcell, hwindow, hframe, howner⟩
  · rintro ⟨cell, window, frame, hcell, hwindow, hframe, howner⟩
    exact ⟨window, ⟨cell, hcell, hwindow⟩, frame, hframe, howner⟩

theorem Rooted.owner_lt (h : w.Rooted) {task owner : Nat} (howner : w.owner? task = some owner) :
    owner < task := by
  obtain ⟨cell, window, frame, hcell, hwindow, hframe, rfl⟩ := owner?_eq_some.mp howner
  obtain ⟨frame', hframe', hlt⟩ := h task cell window hcell hwindow
  rw [hframe] at hframe'
  cases hframe'
  exact hlt

/-! ## What telling changes -/

end World

/-- Some who were waiting at a pending value have been told. -/
structure PendingCell.Eased (c c' : PendingCell) : Prop where
  job : c'.job = c.job
  stage : c'.stage = c.stage
  vacant : c'.waiters.vacant = c.waiters.vacant
  length : c'.waiters.seats.length = c.waiters.seats.length
  seat : ∀ (seat : Nat) (waiter : Waiter), c'.waiters.seats[seat]? = some (some waiter) →
    c.waiters.seats[seat]? = some (some waiter)

/-- A task may have been told. -/
structure TaskCell.Roused (c c' : TaskCell) : Prop where
  window : c'.window = c.window
  ended : c'.ended = c.ended
  queued : c.queued = true → c'.queued = true
  woken : c.woken = true → c'.woken = true

/-- More tasks may have queued up. -/
structure WindowCell.Joined (f f' : WindowCell) : Prop where
  owner : f'.owner = f.owner
  recent : f'.recent = f.recent

theorem PendingCell.Eased.refl (c : PendingCell) : c.Eased c := ⟨rfl, rfl, rfl, rfl, fun _ _ h => h⟩

theorem PendingCell.Eased.trans {c c' c'' : PendingCell} (h : c.Eased c') (h' : c'.Eased c'') :
    c.Eased c'' where
  job := h'.job.trans h.job
  stage := h'.stage.trans h.stage
  vacant := h'.vacant.trans h.vacant
  length := h'.length.trans h.length
  seat _ _ hseat := h.seat _ _ (h'.seat _ _ hseat)

theorem TaskCell.Roused.refl (c : TaskCell) : c.Roused c := ⟨rfl, rfl, id, id⟩

theorem TaskCell.Roused.trans {c c' c'' : TaskCell} (h : c.Roused c') (h' : c'.Roused c'') :
    c.Roused c'' where
  window := h'.window.trans h.window
  ended := h'.ended.trans h.ended
  queued hq := h'.queued (h.queued hq)
  woken hw := h'.woken (h.woken hw)

theorem TaskCell.Roused.isTold {c c' : TaskCell} (h : c.Roused c') (htold : c.isTold = true) :
    c'.isTold = true := by
  have hqueued := h.queued
  have hwoken := h.woken
  unfold TaskCell.isTold at htold ⊢
  rw [h.ended, h.window]
  cases hended : c.ended with
  | true => rfl
  | false =>
    rw [hended] at htold
    cases hsome : c.window.isSome with
    | true => simpa using hqueued (by simpa [hsome] using htold)
    | false => simpa using hwoken (by simpa [hsome] using htold)

theorem WindowCell.Joined.refl (f : WindowCell) : f.Joined f := ⟨rfl, rfl⟩

theorem WindowCell.Joined.trans {f f' f'' : WindowCell} (h : f.Joined f') (h' : f'.Joined f'') :
    f.Joined f'' := ⟨h'.owner.trans h.owner, h'.recent.trans h.recent⟩

namespace World

variable {w v u : World}

/-- Telling moves no task to another window. -/
theorem owner?_of_rel (htask : ∀ n : Nat, Option.Rel TaskCell.Roused w.tasks[n]? v.tasks[n]?)
    (hwindow : ∀ n : Nat, Option.Rel WindowCell.Joined w.windows[n]? v.windows[n]?) (task : Nat) :
    v.owner? task = w.owner? task := by
  unfold World.owner?
  cases hw : w.tasks[task]? with
  | none =>
    have hv := htask task
    rw [hw] at hv
    cases hv' : v.tasks[task]? with
    | none => rfl
    | some c' =>
      rw [hv'] at hv
      cases hv
  | some c =>
    obtain ⟨c', hc', hroused⟩ := (htask task).exists_some hw
    rw [hc', Option.bind_some, Option.bind_some, hroused.window]
    cases c.window with
    | none => rfl
    | some window =>
      have hframe := hwindow window
      rw [Option.bind_some, Option.bind_some]
      cases hf : w.windows[window]? with
      | none =>
        rw [hf] at hframe
        cases hf' : v.windows[window]? with
        | none => rfl
        | some f' =>
          rw [hf'] at hframe
          cases hframe
      | some f =>
        obtain ⟨f', hf', hjoined⟩ := hframe.exists_some hf
        rw [hf', Option.map_some, Option.map_some, hjoined.owner]

/-- From one world to another one, waiters were told, and nobody was left out. -/
structure Tells (w v : World) : Prop where
  seen : v.seen = w.seen
  timers : v.timers = w.timers
  pending : ∀ n : Nat, Option.Rel PendingCell.Eased w.pendings[n]? v.pendings[n]?
  task : ∀ n : Nat, Option.Rel TaskCell.Roused w.tasks[n]? v.tasks[n]?
  window : ∀ n : Nat, Option.Rel WindowCell.Joined w.windows[n]? v.windows[n]?
  lined : ∀ task, w.Lined task → v.Lined task
  untold : ∀ pending seat waiter, w.Untold pending seat waiter →
    v.Untold pending seat waiter ∨ v.Told waiter
  owned : ∀ task owner, w.owner? task = some owner → v.Told (.task task) →
    w.Told (.task task) ∨ v.Told (.task owner)

namespace Tells

theorem refl (w : World) : Tells w w where
  seen := rfl
  timers := rfl
  pending n := by
    cases w.pendings[n]? with
    | none => exact .none
    | some c => exact .some (.refl c)
  task n := by
    cases w.tasks[n]? with
    | none => exact .none
    | some c => exact .some (.refl c)
  window n := by
    cases w.windows[n]? with
    | none => exact .none
    | some f => exact .some (.refl f)
  lined _ h := h
  untold _ _ _ h := .inl h
  owned _ _ _ h := .inl h

/-- Nobody sits down by being told. -/
theorem of_untold (h : Tells w v) {pending seat : Nat} {waiter : Waiter}
    (huntold : v.Untold pending seat waiter) : w.Untold pending seat waiter := by
  obtain ⟨c', hc', hseat⟩ := untold_iff.mp huntold
  obtain ⟨c, hc, heased⟩ := (h.pending pending).some_exists hc'
  exact untold_iff.mpr ⟨c, hc, heased.seat _ _ hseat⟩

theorem told (h : Tells w v) {waiter : Waiter} (htold : w.Told waiter) : v.Told waiter := by
  cases waiter with
  | task task =>
    intro c' hc'
    obtain ⟨c, hc, hroused⟩ := (h.task task).some_exists hc'
    exact hroused.isTold (htold c hc)
  | pending pending => exact fun seat waiter huntold => htold seat waiter (h.of_untold huntold)

theorem owner? (h : Tells w v) (task : Nat) : v.owner? task = w.owner? task :=
  owner?_of_rel h.task h.window task

theorem trans (h : Tells w v) (h' : Tells v u) : Tells w u where
  seen := h'.seen.trans h.seen
  timers := h'.timers.trans h.timers
  pending n := (h.pending n).comp PendingCell.Eased.trans (h'.pending n)
  task n := (h.task n).comp TaskCell.Roused.trans (h'.task n)
  window n := (h.window n).comp WindowCell.Joined.trans (h'.window n)
  lined n hn := h'.lined n (h.lined n hn)
  untold pending seat waiter huntold := by
    rcases h.untold pending seat waiter huntold with hstill | htold
    · exact h'.untold pending seat waiter hstill
    · exact .inr (h'.told htold)
  owned task owner howner htold := by
    rcases h'.owned task owner ((h.owner? task).trans howner) htold with hbefore | hafter
    · exact (h.owned task owner howner hbefore).imp id h'.told
    · exact .inr hafter

theorem rooted (h : Tells w v) (hw : w.Rooted) : v.Rooted := by
  intro task c' window hc' hwindow
  obtain ⟨c, hc, hroused⟩ := (h.task task).some_exists hc'
  obtain ⟨f, hf, hlt⟩ := hw task c window hc (hroused.window.symm.trans hwindow)
  obtain ⟨f', hf', hjoined⟩ := (h.window window).exists_some hf
  exact ⟨f', hf', by rwa [hjoined.owner]⟩

theorem forward (h : Tells w v) (hw : w.Forward) : v.Forward :=
  fun pending seat later huntold => hw pending seat later (h.of_untold huntold)

theorem size_pendings (h : Tells w v) : v.pendings.size = w.pendings.size := by
  have hsize := congrArg (fun w => w.pendings.size) h.seen
  simpa [World.seen] using hsize

end Tells

/-! ## Telling one after the other -/

theorem tells_foldl {f : World → Waiter → World} {P : World → Prop} (waiters : List Waiter)
    (hw : P w) (hP : ∀ {w v : World}, Tells w v → P w → P v)
    (hf : ∀ {w : World} (waiter : Waiter), waiter ∈ waiters → P w → Tells w (f w waiter) ∧ (f w waiter).Told waiter) :
    Tells w (waiters.foldl f w) ∧ ∀ waiter ∈ waiters, (waiters.foldl f w).Told waiter := by
  induction waiters generalizing w with
  | nil => exact ⟨.refl w, by simp⟩
  | cons waiter rest ih =>
    obtain ⟨htells, htold⟩ := hf waiter List.mem_cons_self hw
    obtain ⟨hrest, hall⟩ := ih (hP htells hw) fun other hother =>
      hf other (List.mem_cons_of_mem _ hother)
    refine ⟨htells.trans hrest, fun other hother => ?_⟩
    rcases List.mem_cons.mp hother with rfl | hother
    · exact hrest.told htold
    · exact hall other hother

/-! ## Telling a task -/

theorem getElem?_modifyTask (task : Nat) (f : TaskCell → TaskCell) (w : World) (n : Nat) :
    (w.modifyTask task f).tasks[n]? = if task = n then w.tasks[n]?.map f else w.tasks[n]? :=
  Array.getElem?_modify

theorem getElem?_modifyWindow (window : Nat) (f : WindowCell → WindowCell) (w : World) (n : Nat) :
    (w.modifyWindow window f).windows[n]? =
      if window = n then w.windows[n]?.map f else w.windows[n]? := Array.getElem?_modify

theorem getElem?_modifyPending (pending : Nat) (f : PendingCell → PendingCell) (w : World) (n : Nat) :
    (w.modifyPending pending f).pendings[n]? =
      if pending = n then w.pendings[n]?.map f else w.pendings[n]? := Array.getElem?_modify

/-- A change of one cell. -/
theorem rel_of_modify {α : Type} {r : α → α → Prop} (hrefl : ∀ a, r a a) {x y : Option α} {f : α → α}
    {p : Prop} [Decidable p] (hy : y = if p then x.map f else x)
    (hf : ∀ a, x = some a → p → r a (f a)) : Option.Rel r x y := by
  subst hy
  cases x with
  | none => split <;> exact .none
  | some a =>
    split
    · rename_i hp
      exact .some (hf a rfl hp)
    · exact .some (hrefl a)

/-- A task writes down that it was told. -/
theorem tells_woken (task : Nat) (w : World) :
    Tells w (w.modifyTask task fun cell => { cell with woken := true }) where
  seen := rfl
  timers := rfl
  pending n := (Tells.refl w).pending n
  task n := rel_of_modify TaskCell.Roused.refl (getElem?_modifyTask task _ w n)
    fun _ _ _ => ⟨rfl, rfl, id, fun _ => rfl⟩
  window n := (Tells.refl w).window n
  lined n hn c' window frame hc' hwindow hframe := by
    rw [getElem?_modifyTask] at hc'
    split at hc'
    · obtain ⟨c, hc, rfl⟩ := Option.map_eq_some_iff.mp hc'
      exact hn c window frame hc hwindow hframe
    · exact hn c' window frame hc' hwindow hframe
  untold _ _ _ h := .inl h
  owned n owner howner htold := by
    refine .inl fun c hc => ?_
    obtain ⟨c', window, frame, hc', hwindow, -, -⟩ := owner?_eq_some.mp howner
    rw [hc] at hc'
    cases hc'
    have hself := getElem?_modifyTask task (fun cell => { cell with woken := true }) w n
    rw [hc] at hself
    split at hself
    · -- in a window, only those that are queued up have a turn
      have hnew := htold _ hself
      rw [TaskCell.isTold, hwindow] at hnew ⊢
      exact hnew
    · exact htold _ hself

section Enqueue

variable (task window : Nat) (w)

theorem getElem?_tasks_enqueue (n : Nat) : (w.enqueue task window).tasks[n]? =
    if task = n then w.tasks[n]?.map (fun cell => { cell with queued := true }) else w.tasks[n]? :=
  getElem?_modifyTask task _ w n

theorem getElem?_windows_enqueue (n : Nat) : (w.enqueue task window).windows[n]? =
    if window = n then w.windows[n]?.map (fun cell => { cell with queue := cell.queue ++ [task] })
    else w.windows[n]? := getElem?_modifyWindow window _ _ n

theorem roused_enqueue (n : Nat) :
    Option.Rel TaskCell.Roused w.tasks[n]? (w.enqueue task window).tasks[n]? :=
  rel_of_modify TaskCell.Roused.refl (w.getElem?_tasks_enqueue task window n)
    fun _ _ _ => ⟨rfl, rfl, fun _ => rfl, id⟩

theorem joined_enqueue (n : Nat) :
    Option.Rel WindowCell.Joined w.windows[n]? (w.enqueue task window).windows[n]? :=
  rel_of_modify WindowCell.Joined.refl (w.getElem?_windows_enqueue task window n)
    fun _ _ _ => ⟨rfl, rfl⟩

variable {task window w}

theorem Rooted.enqueue (h : w.Rooted) : (w.enqueue task window).Rooted := by
  intro n c' window' hc' hwindow'
  obtain ⟨c, hc, hroused⟩ := (w.roused_enqueue task window n).some_exists hc'
  obtain ⟨f, hf, hlt⟩ := h n c window' hc (hroused.window.symm.trans hwindow')
  obtain ⟨f', hf', hjoined⟩ := (w.joined_enqueue task window window').exists_some hf
  exact ⟨f', hf', by rwa [hjoined.owner]⟩

variable {cell : TaskCell} {frame : WindowCell}

theorem lined_enqueue (hcell : w.tasks[task]? = some cell) (hwindow : cell.window = some window)
    (hframe : w.windows[window]? = some frame) (hqueued : cell.queued = false) {n : Nat}
    (hn : w.Lined n) : (w.enqueue task window).Lined n := by
  intro c' window' frame' hc' hwindow' hframe'
  rw [getElem?_tasks_enqueue] at hc'
  rw [getElem?_windows_enqueue] at hframe'
  split at hc'
  · rename_i hsame
    subst hsame
    rw [hcell, Option.map_some, Option.some.injEq] at hc'
    subst hc'
    have hsame : window = window' := Option.some.inj (hwindow.symm.trans hwindow')
    subst hsame
    rw [if_pos rfl, hframe, Option.map_some, Option.some.injEq] at hframe'
    subst hframe'
    have hcount := hn cell window frame hcell hwindow hframe
    rw [hqueued] at hcount
    rw [List.count_append, hcount]
    simp
  · rename_i hne
    split at hframe'
    · obtain ⟨frame'', hframe'', rfl⟩ := Option.map_eq_some_iff.mp hframe'
      rw [List.count_append, hn c' window' frame'' hc' hwindow' hframe'',
        List.count_singleton, beq_false_of_ne hne]
      simp
    · exact hn c' window' frame' hc' hwindow' hframe'

/-- A task queues up. That is telling it if the task that renders the list is told as well. -/
theorem tells_enqueue (hcell : w.tasks[task]? = some cell) (hwindow : cell.window = some window)
    (hframe : w.windows[window]? = some frame) (hqueued : cell.queued = false)
    (h : Tells (w.enqueue task window) v) (howner : v.Told (.task frame.owner)) : Tells w v where
  seen := h.seen
  timers := h.timers
  pending := h.pending
  task n := (w.roused_enqueue task window n).comp TaskCell.Roused.trans (h.task n)
  window n := (w.joined_enqueue task window n).comp WindowCell.Joined.trans (h.window n)
  lined n hn := h.lined n (lined_enqueue hcell hwindow hframe hqueued hn)
  untold := h.untold
  owned n owner hn htold := by
    obtain ⟨c, window', frame', hc, hwindow', hframe', rfl⟩ := owner?_eq_some.mp hn
    by_cases hsame : task = n
    · subst hsame
      rw [hcell, Option.some.injEq] at hc
      subst hc
      have hsame : window = window' := Option.some.inj (hwindow.symm.trans hwindow')
      subst hsame
      rw [hframe, Option.some.injEq] at hframe'
      subst hframe'
      exact .inr howner
    · have hself : (w.enqueue task window).tasks[n]? = some c := by
        rw [getElem?_tasks_enqueue, if_neg hsame, hc]
      obtain ⟨frame'', hframe'', hjoined⟩ := (w.joined_enqueue task window window').exists_some hframe'
      have howner' : (w.enqueue task window).owner? n = some frame'.owner :=
        owner?_eq_some.mpr ⟨c, window', frame'', hself, hwindow', hframe'', hjoined.owner⟩
      refine (h.owned n frame'.owner howner' htold).imp (fun hbefore c' hc' => ?_) id
      rw [hc] at hc'
      cases hc'
      exact hbefore c hself

end Enqueue

section Call

variable {pending : Nat} {cell : PendingCell}

theorem seats_call (s : Seats) (seat : Nat) (waiter : Waiter) :
    s.call.2.seats[seat]? ≠ some (some waiter) := by
  rw [Seats.call, List.getElem?_map]
  cases s.seats[seat]? <;> simp

theorem eased_call (hcell : w.pendings[pending]? = some cell) (n : Nat) :
    Option.Rel PendingCell.Eased w.pendings[n]?
      (w.modifyPending pending fun c => { c with waiters := cell.waiters.call.2 }).pendings[n]? := by
  refine rel_of_modify PendingCell.Eased.refl (getElem?_modifyPending pending _ w n) fun c hc hn => ?_
  subst hn
  rw [hcell, Option.some.injEq] at hc
  subst hc
  exact ⟨rfl, rfl, rfl, List.length_map _,
    fun seat waiter hseat => absurd hseat (seats_call _ seat waiter)⟩

/-- The waiters at a pending value lose their places. That is telling if each of them is told. -/
theorem tells_call (hcell : w.pendings[pending]? = some cell)
    (h : Tells (w.modifyPending pending fun c => { c with waiters := cell.waiters.call.2 }) v)
    (hwaiters : ∀ waiter ∈ cell.waiters.call.1, v.Told waiter) :
    Tells w v ∧ v.Told (.pending pending) := by
  have hpendings := getElem?_modifyPending pending
    (fun c => { c with waiters := cell.waiters.call.2 }) w
  have hseen : (w.modifyPending pending fun c => { c with waiters := cell.waiters.call.2 }).seen =
      w.seen := by
    refine seen_modifyPending_hidden w (fun c => ?_) pending
    rfl
  refine ⟨⟨h.seen.trans hseen, h.timers,
    fun n => (eased_call hcell n).comp PendingCell.Eased.trans (h.pending n), h.task, h.window, h.lined,
    fun n seat waiter huntold => ?_, h.owned⟩, h.told fun seat waiter huntold => ?_⟩
  · obtain ⟨c, hc, hseat⟩ := untold_iff.mp huntold
    by_cases hn : pending = n
    · subst hn
      rw [hcell, Option.some.injEq] at hc
      subst hc
      exact .inr (hwaiters waiter (List.mem_filterMap.mpr ⟨_, List.mem_of_getElem? hseat, rfl⟩))
    · exact h.untold n seat waiter (untold_iff.mpr ⟨c, by rw [hpendings, if_neg hn, hc], hseat⟩)
  · obtain ⟨c, hc, hseat⟩ := untold_iff.mp huntold
    rw [hpendings, if_pos rfl, hcell, Option.map_some, Option.some.injEq] at hc
    subst hc
    exact seats_call cell.waiters seat waiter hseat

end Call

/-! ## Word gets through -/

/-- How far word may have to travel from a waiter. -/
def hops (w : World) : Waiter → Nat
  | .task task => min task w.tasks.size
  | .pending pending => w.tasks.size + (w.pendings.size - pending)

theorem Tells.size_tasks (h : Tells w v) : v.tasks.size = w.tasks.size := by
  refine Nat.le_antisymm ?_ ?_
  · have hnone := (h.task _).eq_none (Array.getElem?_eq_none (Nat.le_refl w.tasks.size))
    exact Array.getElem?_eq_none_iff.mp hnone
  · refine Nat.le_of_not_lt fun hlt => ?_
    obtain ⟨c', hc', -⟩ := (h.task _).exists_some (Array.getElem?_eq_getElem hlt)
    exact Nat.lt_irrefl _ (Array.getElem?_eq_some_iff.mp hc').1

theorem Tells.hops (h : Tells w v) (waiter : Waiter) : v.hops waiter = w.hops waiter := by
  cases waiter with
  | task task => rw [World.hops, World.hops, h.size_tasks]
  | pending pending => rw [World.hops, World.hops, h.size_tasks, h.size_pendings]

theorem told_of_isTold {task : Nat} {cell : TaskCell} (hcell : w.tasks[task]? = some cell)
    (htold : cell.isTold = true) : w.Told (.task task) := by
  intro c hc
  rw [hcell, Option.some.injEq] at hc
  rwa [← hc]

/-- Word gets to a waiter, and to all who wait for it. -/
theorem tells_tell {depth : Nat} {waiter : Waiter} (hroot : w.Rooted) (hforward : w.Forward)
    (hdepth : w.hops waiter < depth) :
    Tells w (w.tell depth waiter) ∧ (w.tell depth waiter).Told waiter := by
  induction depth generalizing waiter w with
  | zero => cases hdepth
  | succ depth ih =>
    cases waiter with
    | task task =>
      rw [tell]
      cases hcell : w.tasks[task]? with
      | none =>
        refine ⟨.refl w, fun c hc => ?_⟩
        rw [hcell] at hc
        cases hc
      | some cell =>
        dsimp only
        split
        · rename_i hended
          exact ⟨.refl w, told_of_isTold hcell (by rw [TaskCell.isTold, hended, Bool.true_or])⟩
        · have hwoken := tells_woken task w
          have hself := getElem?_modifyTask task (fun cell => { cell with woken := true }) w task
          rw [if_pos rfl, hcell, Option.map_some] at hself
          generalize w.modifyTask task (fun cell => { cell with woken := true }) = u at hwoken hself
          cases hwindow : cell.window with
          | none =>
            refine ⟨hwoken, told_of_isTold hself ?_⟩
            rw [TaskCell.isTold, hwindow]
            exact Bool.or_true _
          | some window =>
            dsimp only
            split
            · rename_i hqueued
              refine ⟨hwoken, told_of_isTold hself ?_⟩
              rw [TaskCell.isTold, hwindow, hqueued]
              exact Bool.or_true _
            · rename_i hqueued
              have hrooted := hwoken.rooted hroot
              obtain ⟨frame, hframe, hlt⟩ := hrooted task _ window hself hwindow
              have hjoined := u.getElem?_windows_enqueue task window window
              rw [if_pos rfl, hframe, Option.map_some] at hjoined
              have hlined := u.getElem?_tasks_enqueue task window task
              rw [if_pos rfl, hself, Option.map_some] at hlined
              rw [hjoined]
              -- the task that renders the list was made before
              have hhops : (u.enqueue task window).hops (.task frame.owner) < depth := by
                have hbound := (Array.getElem?_eq_some_iff.mp hcell).1
                have hsize : (u.enqueue task window).tasks.size = w.tasks.size :=
                  (size_tasks_modifyTask ..).trans hwoken.size_tasks
                rw [World.hops] at hdepth ⊢
                rw [hsize]
                omega
              obtain ⟨htells, htold⟩ := ih hrooted.enqueue (hwoken.forward hforward) hhops
              refine ⟨hwoken.trans (tells_enqueue hself hwindow hframe (Bool.eq_false_iff.mpr hqueued)
                htells htold), htells.told (told_of_isTold hlined ?_)⟩
              rw [TaskCell.isTold, hwindow]
              exact Bool.or_true _
    | pending pending =>
      rw [tell]
      cases hcell : w.pendings[pending]? with
      | none =>
        refine ⟨.refl w, fun seat waiter huntold => ?_⟩
        obtain ⟨c, hc, -⟩ := untold_iff.mp huntold
        rw [hcell] at hc
        cases hc
      | some cell =>
        dsimp only
        have hbound := (Array.getElem?_eq_some_iff.mp hcell).1
        let u := w.modifyPending pending fun c => { c with waiters := cell.waiters.call.2 }
        have hsize : u.pendings.size = w.pendings.size := Array.size_modify
        have hu : u.Forward := by
          intro n seat later huntold
          obtain ⟨c', hc', hseat⟩ := untold_iff.mp huntold
          obtain ⟨c, hc, heased⟩ := (eased_call hcell n).some_exists hc'
          exact hforward n seat later (untold_iff.mpr ⟨c, hc, heased.seat seat _ hseat⟩)
        have hhops : ∀ waiter, u.hops waiter = w.hops waiter := by
          intro waiter
          cases waiter with
          | task task => rfl
          | pending n => rw [World.hops, World.hops, hsize]; rfl
        -- whoever waits here was made later, or is a task
        have hnear : ∀ waiter ∈ cell.waiters.call.1, w.hops waiter < depth := by
          intro waiter hwaiter
          obtain ⟨_, hseat, rfl : _ = some waiter⟩ := List.mem_filterMap.mp hwaiter
          obtain ⟨n, hn⟩ := List.mem_iff_getElem?.mp hseat
          have huntold : w.Untold pending n waiter := untold_iff.mpr ⟨cell, hcell, hn⟩
          cases waiter with
          | task task =>
            simp only [World.hops] at hdepth ⊢
            omega
          | pending later =>
            have hlater := hforward pending n later huntold
            simp only [World.hops] at hdepth ⊢
            omega
        obtain ⟨htells, htold⟩ := tells_foldl (w := u) (f := fun w waiter => w.tell depth waiter)
          (P := fun v => v.Rooted ∧ v.Forward ∧ ∀ waiter, v.hops waiter = w.hops waiter)
          cell.waiters.call.1 ⟨hroot, hu, hhops⟩
          (fun h hP => ⟨h.rooted hP.1, h.forward hP.2.1,
            fun waiter => (h.hops waiter).trans (hP.2.2 waiter)⟩)
          fun waiter hwaiter hP => ih hP.1 hP.2.1 (by rw [hP.2.2]; exact hnear waiter hwaiter)
        exact tells_call hcell htells htold

/-- Waking tells. -/
theorem tells_wake (hroot : w.Rooted) (hforward : w.Forward) (waiter : Waiter) :
    Tells w (w.wake waiter) ∧ (w.wake waiter).Told waiter := by
  refine tells_tell hroot hforward ?_
  cases waiter with
  | task task =>
    rw [hops]
    omega
  | pending pending =>
    rw [hops]
    omega

end World

end TaggedMarkup
