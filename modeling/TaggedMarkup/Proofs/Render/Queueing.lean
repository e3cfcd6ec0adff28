import TaggedMarkup.Proofs.Render.Standing

/-!
# Members queue up

A member that is drawn queues up in its window, is called up for a turn, and is entered among those that had
one, or ends. All this concerns the task of the member alone, and leaves the books balanced. Whatever becomes
of a member in its turn, the task that renders the list stands as it did, with the member in its place
(`Stands.replaced`).
-/

namespace TaggedMarkup

/-- Whoever is not found is no member in work. -/
theorem LineupOf.find?_eq_none {l : Lineup} {task : Nat} (h : l.find? task = none) :
    ∀ member ∈ l.members, member.isTask task = false := by
  intro member hmember
  unfold find? at h
  split at h
  · cases h
  · rename_i hnone
    cases hfind : l.members.find? (Member.isTask task) with
    | none => exact Bool.eq_false_iff.mpr (List.find?_eq_none.mp hfind member hmember)
    | some found =>
      cases found with
      | running number fragments stack => exact absurd hfind (hnone number fragments stack)
      | finished | failed =>
        have htask := List.find?_some hfind
        cases htask

/-- Members that are in work stay while others are drawn. -/
theorem LineupOf.members_draw_ne_nil {l : Lineup} (h : l.members ≠ []) (owner room : Nat) (w : World) :
    (l.draw owner room w).1.members ≠ [] := by
  induction room generalizing l w with
  | zero => exact h
  | succ room ih =>
    rw [draw]
    split
    · exact ih (by simp) _
    · exact h

namespace World

variable {w v u : World} {σ τ : Seating} {E X : Nat → Prop} {task window : Nat}

/-! ## What changes tasks and windows only -/

theorem Balanced.of_pendings (h : w.Balanced σ E) (hclock : v.clock = w.clock) (htimers : v.timers = w.timers)
    (hpendings : v.pendings = w.pendings) (hrooted : v.Rooted)
    (hrecent : ∀ (n : Nat) (frame : WindowCell), v.windows[n]? = some frame → frame.recent.Nodup ∧
      (∀ task ∈ frame.recent, task < v.tasks.size) ∧ ∀ task ∈ frame.queue, task < v.tasks.size) :
    v.Balanced σ E := by
  obtain ⟨clock, log, names, kept, components, pendings, sequences, forsaken, timers, tasks, windows, bench,
    workshop⟩ := v
  dsimp only at hclock htimers hpendings
  subst hclock htimers hpendings
  exact { h with rooted := hrooted, recent := hrecent }

/-- Nobody but the tasks in `X` is changed or moved in a queue. -/
theorem Respects.of_pendings (hclock : v.clock = w.clock) (htimers : v.timers = w.timers)
    (hpendings : v.pendings = w.pendings) (hroot : w.Rooted)
    (htask : ∀ (n : Nat) (cell : TaskCell), w.tasks[n]? = some cell →
      ∃ cell', v.tasks[n]? = some cell' ∧ cell'.window = cell.window ∧ (¬X n → cell' = cell))
    (hwindow : ∀ (n : Nat) (frame : WindowCell), w.windows[n]? = some frame →
      ∃ frame', v.windows[n]? = some frame' ∧ frame'.owner = frame.owner ∧
        ∀ (k : Nat) (cell : TaskCell), w.tasks[k]? = some cell → cell.window = some n → ¬X k →
          frame'.queue.count k = frame.queue.count k) : w.Respects X v where
  task n cell hcell := by
    obtain ⟨cell', hcell', hsame, hX⟩ := htask n cell hcell
    exact ⟨cell', hcell', hsame, fun hn => hX hn ▸ .refl cell⟩
  window n frame hframe := by
    obtain ⟨frame', hframe', howner, -⟩ := hwindow n frame hframe
    exact ⟨frame', hframe', howner⟩
  lined n hn hX hlined := by
    intro cell' window' frame' hcell' hwindow' hframe'
    have hcell := Array.getElem?_eq_getElem hn
    obtain ⟨_, hcell'', hsame, heq⟩ := htask n _ hcell
    cases hcell'.symm.trans hcell''
    rw [heq hX] at hwindow' ⊢
    obtain ⟨frame, hframe, -⟩ := hroot n _ window' hcell hwindow'
    obtain ⟨_, hframe'', -, hcount⟩ := hwindow window' frame hframe
    cases hframe'.symm.trans hframe''
    rw [hcount n _ hcell hwindow' hX]
    exact hlined _ window' frame hcell hwindow' hframe
  untold pending seat n _ _ huntold := by
    refine .inl ?_
    rw [Untold, seatsAt, hpendings]
    exact huntold
  timer deadline n _ _ htimer := .inl (htimers ▸ htimer)
  clock := Nat.le_of_eq hclock.symm
  owned n owner hX howner htold := by
    refine .inl fun cell hcell => ?_
    obtain ⟨cell', hcell', -, heq⟩ := htask n cell hcell
    rw [← heq hX]
    exact htold cell' hcell'

theorem Rooted.of_windows (h : w.Rooted)
    (htask : ∀ (n : Nat) (cell' : TaskCell), v.tasks[n]? = some cell' →
      ∃ cell, w.tasks[n]? = some cell ∧ cell'.window = cell.window)
    (hwindow : ∀ (n : Nat) (frame : WindowCell), w.windows[n]? = some frame →
      ∃ frame', v.windows[n]? = some frame' ∧ frame'.owner = frame.owner) : v.Rooted := by
  intro n cell' window hcell' hsome
  obtain ⟨cell, hcell, hsame⟩ := htask n cell' hcell'
  obtain ⟨frame, hframe, hlt⟩ := h n cell window hcell (hsame.symm.trans hsome)
  obtain ⟨frame', hframe', howner⟩ := hwindow window frame hframe
  exact ⟨frame', hframe', howner ▸ hlt⟩

/-- A task that is changed keeps its window. -/
theorem exists_modifyTask {f : TaskCell → TaskCell} (hf : ∀ cell, (f cell).window = cell.window) (n : Nat)
    (cell : TaskCell) (hcell : w.tasks[n]? = some cell) :
    ∃ cell', (w.modifyTask task f).tasks[n]? = some cell' ∧ cell'.window = cell.window ∧
      (¬n = task → cell' = cell) := by
  rw [getElem?_modifyTask]
  by_cases hn : task = n
  · rw [if_pos hn, hcell]
    exact ⟨f cell, rfl, hf cell, fun hne => absurd hn.symm hne⟩
  · rw [if_neg hn, hcell]
    exact ⟨cell, rfl, rfl, fun _ => rfl⟩

theorem exists_of_modifyTask {f : TaskCell → TaskCell} (hf : ∀ cell, (f cell).window = cell.window) (n : Nat)
    (cell' : TaskCell) (hcell' : (w.modifyTask task f).tasks[n]? = some cell') :
    ∃ cell, w.tasks[n]? = some cell ∧ cell'.window = cell.window := by
  rw [getElem?_modifyTask] at hcell'
  split at hcell'
  · obtain ⟨cell, hcell, rfl⟩ := Option.map_eq_some_iff.mp hcell'
    exact ⟨cell, hcell, hf cell⟩
  · exact ⟨cell', hcell', rfl⟩

/-! ## Called up for a turn -/

theorem dequeue?_eq_none (h : w.dequeue? window = none) {frame : WindowCell}
    (hframe : w.windows[window]? = some frame) : frame.queue = [] := by
  unfold dequeue? at h
  rw [hframe] at h
  dsimp only at h
  split at h
  · cases h
  · assumption

/-- Everything in the windows is as before, but for the queue of this one. -/
theorem exists_dequeued {frame : WindowCell} {queue : List Nat} (hframe : w.windows[window]? = some frame)
    (hqueue : frame.queue = task :: queue) (n : Nat) (frame₀ : WindowCell)
    (hframe₀ : w.windows[n]? = some frame₀) :
    ∃ frame', (w.modifyWindow window fun cell => { cell with queue }).windows[n]? = some frame' ∧
      frame'.owner = frame₀.owner ∧ frame'.recent = frame₀.recent ∧
        (∀ k ∈ frame'.queue, k ∈ frame₀.queue) ∧
          ∀ k, ¬(k = task ∧ n = window) → frame'.queue.count k = frame₀.queue.count k := by
  rw [getElem?_modifyWindow]
  by_cases hn : window = n
  · subst hn
    rw [hframe, Option.some.injEq] at hframe₀
    subst hframe₀
    rw [if_pos rfl, hframe]
    refine ⟨_, rfl, rfl, rfl, fun k hk => hqueue ▸ List.mem_cons_of_mem _ hk, fun k hk => ?_⟩
    have hne : task ≠ k := fun heq => hk ⟨heq.symm, rfl⟩
    rw [hqueue, List.count_cons_of_ne hne]
  · rw [if_neg hn, hframe₀]
    exact ⟨frame₀, rfl, rfl, rfl, fun _ => id, fun _ _ => rfl⟩

/-- Taking a task off the queue of its window keeps the books, and concerns that task alone. -/
theorem Balanced.dequeue (h : w.Balanced σ E) (hdequeue : w.dequeue? window = some (task, u)) :
    u.Balanced σ E ∧
      w.Respects (fun n => n = task ∧ ∃ cell, w.tasks[n]? = some cell ∧ cell.window = some window) u := by
  obtain ⟨frame, queue, hframe, hqueue, rfl⟩ := dequeue?_eq_some hdequeue
  have hwindows := exists_dequeued hframe hqueue
  constructor
  · refine h.of_pendings rfl rfl rfl (h.rooted.of_windows (fun n cell hcell => ⟨cell, hcell, rfl⟩) ?_) ?_
    · intro n frame₀ hframe₀
      obtain ⟨frame', hframe', howner, -⟩ := hwindows n frame₀ hframe₀
      exact ⟨frame', hframe', howner⟩
    · intro n frame' hframe'
      rw [getElem?_modifyWindow] at hframe'
      split at hframe'
      · rename_i hn
        subst hn
        rw [hframe] at hframe'
        cases hframe'
        obtain ⟨hnodup, hrecent, hbound⟩ := h.recent window frame hframe
        exact ⟨hnodup, hrecent, fun k hk => hbound k (hqueue ▸ List.mem_cons_of_mem _ hk)⟩
      · exact h.recent n frame' hframe'
  · refine .of_pendings rfl rfl rfl h.rooted (fun n cell hcell => ⟨cell, hcell, rfl, fun _ => rfl⟩) ?_
    intro n frame₀ hframe₀
    obtain ⟨frame', hframe', howner, -, -, hcount⟩ := hwindows n frame₀ hframe₀
    refine ⟨frame', hframe', howner, fun k cell hcell hwindow hk => hcount k fun hboth => hk ?_⟩
    exact ⟨hboth.1, cell, hcell, hboth.2 ▸ hwindow⟩

/-- So does the beginning of its turn. -/
theorem Balanced.beginTurn (h : w.Balanced σ E) (task : Nat) :
    (w.beginTurn task).Balanced σ E ∧ w.Respects (· = task) (w.beginTurn task) := by
  have hkeeps : ∀ cell : TaskCell, ({ cell with queued := false, woken := false } : TaskCell).window =
      cell.window := fun _ => rfl
  constructor
  · refine h.of_pendings rfl rfl rfl ?_ fun n frame hframe => ?_
    · exact h.rooted.of_windows (exists_of_modifyTask hkeeps) fun n frame hframe => ⟨frame, hframe, rfl⟩
    · rw [size_tasks_beginTurn]
      exact h.recent n frame hframe
  · refine .of_pendings rfl rfl rfl h.rooted (exists_modifyTask hkeeps) fun n frame hframe => ?_
    exact ⟨frame, hframe, rfl, fun _ _ _ _ _ => rfl⟩

/-! ## After a turn -/

theorem exists_modifyWindow (w : World) (window : Nat) (f : WindowCell → WindowCell)
    (hf : ∀ frame, (f frame).owner = frame.owner ∧ (f frame).queue = frame.queue) (n : Nat) (frame : WindowCell)
    (hframe : w.windows[n]? = some frame) :
    ∃ frame', (w.modifyWindow window f).windows[n]? = some frame' ∧ frame'.owner = frame.owner ∧
      frame'.queue = frame.queue := by
  rw [getElem?_modifyWindow]
  split
  · rw [hframe]
    exact ⟨f frame, rfl, hf frame⟩
  · exact ⟨frame, hframe, rfl, rfl⟩

/-- A list of tasks in another order, or without one. -/
theorem Balanced.recent_modifyWindow (h : w.Balanced σ E) {f : WindowCell → WindowCell}
    (hf : ∀ frame, w.windows[window]? = some frame → (f frame).queue = frame.queue ∧ (f frame).recent.Nodup ∧
      ∀ k ∈ (f frame).recent, k < w.tasks.size) (n : Nat) (frame : WindowCell)
    (hframe : (w.modifyWindow window f).windows[n]? = some frame) : frame.recent.Nodup ∧
      (∀ k ∈ frame.recent, k < w.tasks.size) ∧ ∀ k ∈ frame.queue, k < w.tasks.size := by
  rw [getElem?_modifyWindow] at hframe
  split at hframe
  · rename_i hn
    subst hn
    obtain ⟨frame₀, hframe₀, rfl⟩ := Option.map_eq_some_iff.mp hframe
    obtain ⟨hqueue, hnodup, hrecent⟩ := hf frame₀ hframe₀
    exact ⟨hnodup, hrecent, hqueue ▸ (h.recent window frame₀ hframe₀).2.2⟩
  · exact h.recent n frame hframe

/-- That a member had a turn concerns nobody. -/
theorem Balanced.suspend (h : w.Balanced σ E) (window : Nat) (htask : task < w.tasks.size) :
    (w.suspend window task).Balanced σ E ∧ w.Respects X (w.suspend window task) := by
  have hwindows := w.exists_modifyWindow window
    (fun cell => { cell with recent := task :: cell.recent.erase task }) fun _ => ⟨rfl, rfl⟩
  constructor
  · refine h.of_pendings rfl rfl rfl (h.rooted.of_windows (fun n cell hcell => ⟨cell, hcell, rfl⟩) ?_)
      (h.recent_modifyWindow fun frame hframe => ?_)
    · intro n frame hframe
      obtain ⟨frame', hframe', howner, -⟩ := hwindows n frame hframe
      exact ⟨frame', hframe', howner⟩
    · obtain ⟨hnodup, hrecent, -⟩ := h.recent window frame hframe
      refine ⟨rfl, List.nodup_cons.mpr ⟨hnodup.not_mem_erase, hnodup.erase task⟩,
        List.forall_mem_cons.mpr ⟨htask, fun k hk => hrecent k (List.mem_of_mem_erase hk)⟩⟩
  · refine .of_pendings rfl rfl rfl h.rooted (fun n cell hcell => ⟨cell, hcell, rfl, fun _ => rfl⟩) ?_
    intro n frame hframe
    obtain ⟨frame', hframe', howner, hqueue⟩ := hwindows n frame hframe
    exact ⟨frame', hframe', howner, fun _ _ _ _ _ => by rw [hqueue]⟩

/-- That it ended concerns nobody else. -/
theorem Balanced.retire (h : w.Balanced σ E) (window task : Nat) :
    (w.retire window task).Balanced σ E ∧ w.Respects (· = task) (w.retire window task) := by
  have hkeeps : ∀ cell : TaskCell, ({ cell with ended := true } : TaskCell).window = cell.window :=
    fun _ => rfl
  have hwindows := w.exists_modifyWindow window
    (fun cell => { cell with recent := cell.recent.erase task }) fun _ => ⟨rfl, rfl⟩
  constructor
  · refine h.of_pendings rfl rfl rfl (h.rooted.of_windows (exists_of_modifyTask hkeeps) ?_) ?_
    · intro n frame hframe
      obtain ⟨frame', hframe', howner, -⟩ := hwindows n frame hframe
      exact ⟨frame', hframe', howner⟩
    · rw [size_tasks_retire]
      refine h.recent_modifyWindow fun frame hframe => ?_
      obtain ⟨hnodup, hrecent, -⟩ := h.recent window frame hframe
      exact ⟨rfl, hnodup.erase task, fun k hk => hrecent k (List.mem_of_mem_erase hk)⟩
  · refine .of_pendings rfl rfl rfl h.rooted (exists_modifyTask hkeeps) fun n frame hframe => ?_
    obtain ⟨frame', hframe', howner, hqueue⟩ := hwindows n frame hframe
    exact ⟨frame', hframe', howner, fun _ _ _ _ _ => by rw [hqueue]⟩

/-! ## A new member -/

section Enlist

variable {number : Nat} {frame : WindowCell}

theorem getElem?_tasks_enlist (n : Nat) : (w.enlist window number).2.tasks[n]? =
    if n = w.tasks.size then some { window := some window, queued := true } else w.tasks[n]? :=
  Array.getElem?_push ..

theorem getElem?_windows_enlist (n : Nat) : (w.enlist window number).2.windows[n]? =
    if window = n then w.windows[n]?.map fun cell =>
      { cell with queue := cell.queue ++ [w.tasks.size], recent := w.tasks.size :: cell.recent }
    else w.windows[n]? := getElem?_modifyWindow window _ _ n

/-- A new member concerns nobody, and queues up. -/
theorem Balanced.enlist (h : w.Balanced σ E) (hframe : w.windows[window]? = some frame)
    (howner : frame.owner < w.tasks.size) (number : Nat) :
    (w.enlist window number).2.Balanced σ E ∧ w.Respects X (w.enlist window number).2 ∧
      (w.enlist window number).2.Lined w.tasks.size := by
  have hsize : (w.enlist window number).2.tasks.size = w.tasks.size + 1 := Array.size_push ..
  have hold : ∀ {n : Nat} {cell : TaskCell}, w.tasks[n]? = some cell → n ≠ w.tasks.size :=
    fun hcell => Nat.ne_of_lt (Array.getElem?_eq_some_iff.mp hcell).1
  have hwindows : ∀ (n : Nat) (f : WindowCell), w.windows[n]? = some f →
      ∃ f', (w.enlist window number).2.windows[n]? = some f' ∧ f'.owner = f.owner := by
    intro n f hf
    rw [getElem?_windows_enlist]
    split
    · rw [hf]
      exact ⟨_, rfl, rfl⟩
    · exact ⟨f, hf, rfl⟩
  refine ⟨h.of_pendings rfl rfl rfl ?_ ?_, .of_pendings rfl rfl rfl h.rooted ?_ ?_, ?_⟩
  · intro n cell window' hcell hsome
    rw [getElem?_tasks_enlist] at hcell
    split at hcell
    · rename_i hn
      cases hcell
      cases hsome
      obtain ⟨f', hf', hsame⟩ := hwindows window frame hframe
      exact ⟨f', hf', by rw [hsame, hn]; exact howner⟩
    · obtain ⟨f, hf, hlt⟩ := h.rooted n cell window' hcell hsome
      obtain ⟨f', hf', hsame⟩ := hwindows window' f hf
      exact ⟨f', hf', hsame ▸ hlt⟩
  · intro n f' hf'
    rw [hsize]
    rw [getElem?_windows_enlist] at hf'
    split at hf'
    · obtain ⟨f, hf, rfl⟩ := Option.map_eq_some_iff.mp hf'
      obtain ⟨hnodup, hrecent, hqueue⟩ := h.recent n f hf
      refine ⟨List.nodup_cons.mpr ⟨fun hmem => Nat.lt_irrefl _ (hrecent _ hmem), hnodup⟩,
        List.forall_mem_cons.mpr ⟨Nat.lt_succ_self _, fun k hk => Nat.lt_succ_of_lt (hrecent k hk)⟩, ?_⟩
      refine List.forall_mem_append.mpr ⟨fun k hk => Nat.lt_succ_of_lt (hqueue k hk), ?_⟩
      exact List.forall_mem_singleton.mpr (Nat.lt_succ_self _)
    · obtain ⟨hnodup, hrecent, hqueue⟩ := h.recent n f' hf'
      exact ⟨hnodup, fun k hk => Nat.lt_succ_of_lt (hrecent k hk), fun k hk => Nat.lt_succ_of_lt (hqueue k hk)⟩
  · intro n cell hcell
    refine ⟨cell, ?_, rfl, fun _ => rfl⟩
    rw [getElem?_tasks_enlist, if_neg (hold hcell), hcell]
  · intro n f hf
    rw [getElem?_windows_enlist]
    split
    · rw [hf]
      refine ⟨_, rfl, rfl, fun k cell hcell _ _ => ?_⟩
      rw [List.count_append, List.count_singleton, beq_false_of_ne (Ne.symm (hold hcell))]
      rfl
    · exact ⟨f, hf, rfl, fun _ _ _ _ _ => rfl⟩
  · intro cell window' f' hcell hsome hf'
    rw [getElem?_tasks_enlist, if_pos rfl] at hcell
    cases hcell
    cases hsome
    rw [getElem?_windows_enlist, if_pos rfl, hframe] at hf'
    cases hf'
    have hnone : frame.queue.count w.tasks.size = 0 :=
      List.count_eq_zero.mpr fun hmem => Nat.lt_irrefl _ ((h.recent window frame hframe).2.2 _ hmem)
    rw [List.count_append, hnone, List.count_singleton_self]
    rfl

end Enlist

/-! ## Members and the list -/

namespace Stands

variable {owner n : Nat} {l : Lineup} {before after : List Member} {fragments : List String}
  {stack : List Work} {out : Output} {effort : Nat}

/-- What is known of a member in work. -/
theorem member (h : w.Stands σ owner [.ahead l])
    (hmembers : l.members = before ++ .running task fragments stack :: after) :
    Member.Poised w σ l.window (.running task fragments stack) ∧ w.owner? task = some owner := by
  obtain ⟨⟨hwindow, -, -, hall⟩, -⟩ := h.poised.of_not_passing rfl
  have hmember := Member.poisedAll_iff.mp hall (.running task fragments stack)
    (hmembers ▸ List.mem_append_right _ List.mem_cons_self)
  exact ⟨hmember, hmember.owner? hwindow⟩

/-- A member that is called up for a turn stands with its stack, and was told to go on. -/
theorem calledUp (h : w.Stands σ owner [.ahead l]) (hdequeue : w.dequeue? l.window = some (task, u))
    (hmembers : l.members = before ++ .running task fragments stack :: after) :
    (u.beginTurn task).Stands σ task stack ∧ Moves w (u.beginTurn task) σ σ task ∧
      w.Told (.task task) ∧ ¬(u.beginTurn task).Told (.task task) ∧
        ∀ k, k ≠ task → (u.beginTurn task).Told (.task k) → w.Told (.task k) := by
  obtain ⟨⟨⟨cell, hcell, hsame, hended⟩, hlined, hstack, -⟩, howner⟩ := h.member hmembers
  obtain ⟨hu, hrespects⟩ := h.balanced.dequeue hdequeue
  obtain ⟨hv, hrespects'⟩ := hu.beginTurn task
  obtain ⟨frame, queue, hframe, hqueue, rfl⟩ := dequeue?_eq_some hdequeue
  -- it stands in the queue once
  have hcount := hlined cell l.window frame hcell hsame hframe
  rw [hqueue, List.count_cons_self] at hcount
  have hqueued : cell.queued = true := by
    cases hq : cell.queued with
    | true => rfl
    | false =>
      rw [hq] at hcount
      cases hcount
  have hself : (((w.modifyWindow l.window fun cell => { cell with queue }).beginTurn task).tasks[task]?) =
      some { cell with queued := false, woken := false } := by
    rw [World.beginTurn, getElem?_modifyTask, if_pos rfl]
    exact congrArg _ hcell
  have hmoves : Moves w ((w.modifyWindow l.window fun cell => { cell with queue }).beginTurn task) σ σ task := by
    have hfirst : Moves w (w.modifyWindow l.window fun cell => { cell with queue }) σ σ task :=
      ⟨hrespects.mono fun n _ hn => hn.1 ▸ .refl, fun _ _ _ => rfl⟩
    exact hfirst.trans ⟨hrespects'.mono fun n _ hn => hn ▸ .refl, fun _ _ _ => rfl⟩ h.balanced.rooted
  refine ⟨⟨hv, ⟨_, hself, hended⟩, ?_, ?_⟩, hmoves, told_of_isTold hcell ?_, fun htold => ?_, fun k hk htold => ?_⟩
  · intro cell' window' frame' hcell' hwindow' hframe'
    cases hself.symm.trans hcell'
    cases hsame.symm.trans hwindow'
    have hnew := getElem?_modifyWindow l.window (fun cell => { cell with queue }) w l.window
    rw [if_pos rfl, hframe] at hnew
    cases hnew.symm.trans hframe'
    rw [hqueued, Bool.toNat_true] at hcount
    exact Nat.succ.inj hcount
  · refine (hstack.carried hrespects h.balanced.rooted (fun _ _ _ => rfl) rfl (fun _ hf => hf) ?_).carried
      hrespects' hu.rooted (fun _ _ _ => rfl) rfl (fun _ hf => hf) fun n _ hne => hne
    exact fun n _ hne hn => hne hn.1
  · rw [TaskCell.isTold, hsame, hqueued]
    exact Bool.or_true _
  · have htold' := htold _ hself
    rw [TaskCell.isTold, hended, hsame] at htold'
    cases htold'
  · intro c hc
    refine htold c ?_
    rw [World.beginTurn, getElem?_modifyTask, if_neg (Ne.symm hk)]
    exact hc

/-- The task that renders a list stands if its members do, and nothing was done for the task itself. -/
theorem relisted (h : w.Stands σ owner [.ahead l]) (hv : w.Respects X v) (hX : ¬X owner)
    (hbalanced : v.Balanced τ fun _ => False) {l' : Lineup} (hsame : l'.window = l.window)
    (htimed : l'.feed.IsTimed v owner) (hnodup : (Member.tasks l'.members).Nodup)
    (hmembers : Member.PoisedAll v τ l.window l'.members) : v.Stands τ owner [.ahead l'] where
  balanced := hbalanced
  alive := by
    obtain ⟨cell, hcell, hended⟩ := h.alive
    obtain ⟨cell', hcell', -, hroused⟩ := hv.task owner cell hcell
    exact ⟨cell', hcell', (hroused hX).ended.trans hended⟩
  lined := hv.lined owner h.lt_size hX h.lined
  poised := by
    obtain ⟨⟨⟨frame, hframe, howner⟩, -⟩, -⟩ := h.poised.of_not_passing rfl
    obtain ⟨frame', hframe', hframeOwner⟩ := hv.window l.window frame hframe
    exact .inl ⟨⟨⟨frame', hsame ▸ hframe', hframeOwner.trans howner⟩, htimed, hnodup,
      hsame ▸ hmembers⟩, nofun⟩

/-- Whatever was done for a member, the list stands with what became of it in its place. -/
theorem replaced (h : w.Stands σ owner [.ahead l])
    (hmembers : l.members = before ++ .running task fragments stack :: after)
    (hmoves : Moves w v σ τ task) (hbalanced : v.Balanced τ fun _ => False) {member : Member}
    (hmember : member.Poised v τ l.window) (hnumber : member.task? = some task ∨ member.task? = none) :
    v.Stands τ owner [.ahead (l.replace task member)] ∧ Moves w v σ τ owner := by
  have hroot := h.balanced.rooted
  obtain ⟨-, howner⟩ := h.member hmembers
  have hlt := hroot.owner_lt howner
  have habove : ¬w.Under task owner := fun hunder => Nat.not_le.mpr hlt (hunder.le hroot)
  obtain ⟨⟨hwindow, htimed, hnodup, hall⟩, -⟩ := h.poised.of_not_passing rfl
  have hothers : ∀ other ∈ before ++ after, other.Poised v τ l.window := by
    intro other hother
    have hin : other ∈ l.members := by
      rw [hmembers]
      exact (List.mem_append.mp hother).elim (List.mem_append_left _)
        fun hafter => List.mem_append_right _ (List.mem_cons_of_mem _ hafter)
    have hpoised := Member.poisedAll_iff.mp hall other hin
    refine hpoised.carried hmoves.respects hroot hmoves.seating hwindow fun m hm n hn hunder => ?_
    -- members of the same list have no tasks in common
    cases other with
    | running number texts works =>
      cases hm
      obtain rfl : m = task :=
        World.Under.of_siblings hroot (hpoised.owner? hwindow) howner hn hunder
      rw [hmembers, Member.tasks, List.filterMap_append, List.filterMap_cons] at hnodup
      obtain ⟨-, hafter, hbefore⟩ := List.nodup_append.mp hnodup
      rcases List.mem_append.mp hother with hmem | hmem
      · exact hbefore _ (List.mem_filterMap.mpr ⟨_, hmem, rfl⟩) _ List.mem_cons_self rfl
      · exact (List.nodup_cons.mp hafter).1 (List.mem_filterMap.mpr ⟨_, hmem, rfl⟩)
    | finished | failed => cases hm
  have hmoves' : Moves w v σ τ owner :=
    ⟨hmoves.respects.of_under (.member howner .refl),
      fun n hn hunder => hmoves.seating n hn fun hn' => hunder (.trans (.member howner .refl) hn')⟩
  refine ⟨h.relisted hmoves.respects habove hbalanced rfl (htimed.respected hmoves.respects h.lt_size habove)
    ?_ ?_, hmoves'⟩
  · rw [LineupOf.members_replace hnodup hmembers]
    rw [hmembers, Member.tasks, List.filterMap_append, List.filterMap_cons] at hnodup
    rw [Member.tasks, List.filterMap_append, List.filterMap_cons]
    rcases hnumber with hsome | hnone
    · rw [hsome]
      exact hnodup
    · rw [hnone]
      exact hnodup.sublist ((List.sublist_cons_self _ _).append_left _)
  · rw [LineupOf.members_replace hnodup hmembers, Member.poisedAll_iff]
    intro other hother
    rcases List.mem_append.mp hother with hmem | hmem
    · exact hothers other (List.mem_append_left _ hmem)
    · rcases List.mem_cons.mp hmem with rfl | hmem
      · exact hmember
      · exact hothers other (List.mem_append_right _ hmem)

/-- A task that is none of the members is taken off the queue. -/
theorem dequeued (h : w.Stands σ owner [.ahead l]) (hdequeue : w.dequeue? l.window = some (task, u))
    (hfind : l.find? task = none) : u.Stands σ owner [.ahead l] ∧ Moves w u σ σ owner := by
  have hroot := h.balanced.rooted
  obtain ⟨hu, hrespects⟩ := h.balanced.dequeue hdequeue
  obtain ⟨⟨hwindow, htimed, hnodup, hall⟩, -⟩ := h.poised.of_not_passing rfl
  have howner : ∀ n, (n = task ∧ ∃ cell, w.tasks[n]? = some cell ∧ cell.window = some l.window) →
      w.owner? n = some owner := by
    rintro n ⟨-, cell, hcell, hsome⟩
    obtain ⟨frame, hframe, hframeOwner⟩ := hwindow
    exact owner?_eq_some.mpr ⟨cell, l.window, frame, hcell, hsome, hframe, hframeOwner⟩
  have hself : ¬(owner = task ∧ ∃ cell, w.tasks[owner]? = some cell ∧ cell.window = some l.window) :=
    fun hX => Nat.lt_irrefl _ (hroot.owner_lt (howner owner hX))
  refine ⟨h.relisted hrespects hself hu rfl (htimed.respected hrespects h.lt_size hself) hnodup ?_,
    hrespects.mono fun n _ hX => .member (howner n hX) .refl, fun _ _ _ => rfl⟩
  refine Member.poisedAll_iff.mpr fun member hmember => ?_
  have hpoised := Member.poisedAll_iff.mp hall member hmember
  refine hpoised.carried hrespects hroot (fun _ _ _ => rfl) hwindow fun m hm n hn hX => ?_
  cases member with
  | running number fragments stack =>
    cases hm
    have hsame : m = task :=
      (World.Under.of_siblings hroot (hpoised.owner? hwindow) (howner n hX) hn .refl).trans hX.1
    have hnone := LineupOf.find?_eq_none hfind _ hmember
    rw [Member.isTask, hsame, beq_self_eq_true] at hnone
    cases hnone
  | finished | failed => cases hm

/-- The task that renders the list is told to go on, and those over it, but nobody else. -/
theorem wake {stack : List Work} (h : w.Stands σ task stack) :
    (w.wake (.task task)).Stands σ task stack ∧ Moves w (w.wake (.task task)) σ σ task ∧
      (w.wake (.task task)).Told (.task task) ∧ (w.wake (.task task)).timers = w.timers ∧
        ∀ k, (w.wake (.task task)).Told (.task k) → w.Told (.task k) ∨ w.Under k task := by
  obtain ⟨htells, htold⟩ := tells_wake h.balanced.rooted h.balanced.forward (.task task)
  have hbalanced := h.balanced.tells htells (calm_wake (.task task) w)
  exact ⟨h.carried (.of_tells htells) hbalanced, .of_respects (.of_tells htells) σ task, htold,
    htells.timers, fun k => told_wake⟩

/-! ## Drawing -/

/-- A member that is drawn is ready for its first turn. -/
theorem enlist (h : w.Stands σ owner [.ahead l]) (value : Value) {feed : Feed}
    (hdeadline : feed.deadline = none) :
    let number := l.feed.index
    let member : Member := .running w.tasks.size [] [.note (.began l.window number), .item value]
    (w.enlist l.window number).2.Stands σ owner
        [.ahead { l with feed, members := l.members ++ [member] }] ∧
      Moves w (w.enlist l.window number).2 σ σ owner := by
  intro number member
  obtain ⟨⟨⟨frame, hframe, howner⟩, -, hnodup, hall⟩, -⟩ := h.poised.of_not_passing rfl
  obtain ⟨hbalanced, hrespects, hlined⟩ := h.balanced.enlist (X := fun _ => False) hframe
    (howner ▸ h.lt_size) number
  have hcell : (w.enlist l.window number).2.tasks[w.tasks.size]? =
      some { window := some l.window, queued := true } := by
    rw [getElem?_tasks_enlist, if_pos rfl]
  have hold : ∀ k ∈ Member.tasks l.members, k < w.tasks.size := by
    intro k hk
    obtain ⟨fragments, stack, hmember⟩ := Member.mem_tasks.mp hk
    exact lt_size_of_owner? ((Member.poisedAll_iff.mp hall _ hmember).owner? ⟨frame, hframe, howner⟩)
  refine ⟨h.relisted hrespects id hbalanced rfl ?_ ?_ ?_, .of_respects hrespects σ owner⟩
  · intro deadline hsome
    rw [hdeadline] at hsome
    cases hsome
  · rw [Member.tasks, List.filterMap_append]
    refine List.nodup_append.mpr ⟨hnodup, List.nodup_singleton _, fun k hk m hm heq => ?_⟩
    obtain rfl := List.mem_singleton.mp hm
    exact Nat.lt_irrefl _ (heq ▸ hold k hk)
  · refine Member.poisedAll_iff.mpr fun other hother => ?_
    rcases List.mem_append.mp hother with hother | hother
    · exact (Member.poisedAll_iff.mp hall other hother).carried hrespects h.balanced.rooted
        (fun _ _ _ => rfl) ⟨frame, hframe, howner⟩ fun _ _ _ _ => id
    · rw [List.mem_singleton.mp hother]
      exact ⟨⟨_, hcell, rfl, rfl⟩, hlined, Work.poisedAll_of_not_busy (by simp [Work.isBusy]),
        .inl (told_of_isTold hcell rfl)⟩

/-- Members are drawn as long as they are ready. If none is in work afterwards, there are none left or the
next one is expected. -/
theorem draw (h : w.Stands σ owner [.ahead l]) (hyields : (Work.ahead l).Yields n w out effort)
    {room : Nat} (hroom : n - l.members.length = room) :
    (l.draw owner room w).2.Stands σ owner [.ahead (l.draw owner room w).1] ∧
      Moves w (l.draw owner room w).2 σ σ owner ∧
        (∃ less ≤ effort, (Work.ahead (l.draw owner room w).1).Yields n (l.draw owner room w).2 out less ∧
          (less < effort ∨ l.draw owner room w = (l, w))) ∧
          (0 < room → (l.draw owner room w).1.members = [] → (l.draw owner room w).1.feed.members = [] ∨
            (l.draw owner room w).1.feed.Expected (l.draw owner room w).2 owner) ∧
          ∀ deadline, (l.draw owner room w).1.feed.deadline = some deadline →
            (l.draw owner room w).2.clock < deadline := by
  induction room generalizing l w effort with
  | zero =>
    refine ⟨h, .refl w σ owner, ⟨effort, Nat.le_refl _, hyields, .inr rfl⟩, nofun, fun deadline hdeadline => ?_⟩
    -- without room for it, the next member has no moment
    obtain ⟨⟨-, hfits⟩, -⟩ := hyields
    have hless := (hfits (Option.isSome_iff_exists.mpr ⟨deadline, hdeadline⟩)).1
    exact absurd (Nat.sub_eq_zero_iff_le.mp hroom) (Nat.not_le.mpr hless)
  | succ room ih =>
    obtain ⟨⟨hwindow, htimed, hnodup, hall⟩, -⟩ := h.poised.of_not_passing rfl
    cases hdraw : l.feed.draw owner w with
    | mk drawn next =>
      obtain ⟨feed, u⟩ := next
      have hextends := Extends.draw hdraw
      have hbecomes := Becomes.draw hdraw
      have hrespects : w.Respects (fun _ => False) u := .of_extends hextends h.balanced.rooted
      have hu := h.carried hrespects (h.balanced.extends hextends)
      have hmoves : Moves w u σ σ owner := .of_respects hrespects σ owner
      rw [LineupOf.draw, hdraw]
      cases drawn with
      | member value =>
        dsimp only
        rcases Feed.draw_cases hdraw with ⟨heq, -⟩ | ⟨delay, _, rest, hmembers, heq, hfeed, -⟩ | ⟨heq, -⟩
        · cases heq
        · cases heq
          have hleft : feed.members = rest := by rw [hfeed]
          have hready : feed.deadline = none := by rw [hfeed]
          obtain ⟨hstands, hmoves'⟩ := hu.enlist value hready
          obtain ⟨less, hlt, hless⟩ := (hyields.becomes hbecomes).drawn hmembers hleft hready u.tasks.size
            (.began l.window l.feed.index)
          have henlisted : u.Becomes (u.enlist l.window l.feed.index).2 :=
            .hidden (.noted (.entered l.window l.feed.index) .refl) rfl
          obtain ⟨hafter, hmoves'', ⟨less', hle, hless', -⟩, hempty, hlater⟩ := ih hstands (hless.becomes henlisted)
            (by rw [List.length_append, List.length_singleton]; omega)
          refine ⟨hafter, (hmoves.trans hmoves' h.balanced.rooted).trans hmoves'' h.balanced.rooted,
            ⟨less', by omega, hless', .inl (by omega)⟩, fun _ hnone => ?_, hlater⟩
          exact absurd hnone (LineupOf.members_draw_ne_nil (by simp) _ _ _)
        · cases heq
      | notYet =>
        obtain ⟨htimed', hexpected⟩ := Feed.expected_of_draw hdraw htimed
        refine ⟨hu.relisted (X := fun _ => False) (.refl u) id hu.balanced rfl htimed' hnodup ?_, hmoves, ?_,
          fun _ _ => .inr hexpected, fun _ => Feed.lt_deadline_of_draw hdraw⟩
        · obtain ⟨⟨-, -, -, hall'⟩, -⟩ := hu.poised.of_not_passing rfl
          exact hall'
        · rcases Feed.draw_notYet hdraw with ⟨rfl, rfl, -⟩ | ⟨hnone, delay, rfl, rfl⟩
          · exact ⟨effort, Nat.le_refl _, hyields, .inr rfl⟩
          · obtain ⟨less, hlt, hless⟩ := hyields.timed hnone (by omega) (Feed.members_ne_nil_of_draw hdraw)
              (w.clock + delay)
            exact ⟨less, Nat.le_of_lt hlt, hless.becomes hbecomes, .inl hlt⟩
      | exhausted =>
        rcases Feed.draw_cases hdraw with ⟨-, hnone, rfl, rfl⟩ | ⟨_, _, _, -, heq, -⟩ | ⟨heq, -⟩
        · refine ⟨h, .refl _ σ owner, ⟨effort, Nat.le_refl _, hyields, .inr rfl⟩, fun _ _ => .inl hnone,
            fun deadline hdeadline => ?_⟩
          obtain ⟨⟨-, hfits⟩, -⟩ := hyields
          exact absurd hnone (hfits (Option.isSome_iff_exists.mpr ⟨deadline, hdeadline⟩)).2
        · cases heq
        · cases heq

end Stands

end World

end TaggedMarkup
