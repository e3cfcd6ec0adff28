import TaggedMarkup.Proofs.Host.OnTime
import TaggedMarkup.Proofs.Render.Fuel
import TaggedMarkup.Proofs.Render.Lineups
import TaggedMarkup.Proofs.Render.Turning

/-!
# Stacks that flow

A stack **flows** (`Render.Flows`) if it gives fragment after fragment until it ends, without an error and
without waiting. A piece of work **passes** (`Work.Passes`) if a stack that flows still does with the piece
on top.

Lists pass if their members do, with any number of them rendered ahead (`Work.passes_members`). The members
queue up in their order; each gets through in its first turn, so that the first one can always come out. Work
inside a member opens windows of its own and **upholds** those that there are (`World.Upholds`).
-/

namespace TaggedMarkup

namespace World

/-- No task is lost, and this many windows stay as they are. -/
structure Upholds (bound : Nat) (w v : World) : Prop where
  tasks : w.tasks.size ≤ v.tasks.size
  windows : ∀ n < bound, v.windows[n]? = w.windows[n]?

namespace Upholds

variable {bound more : Nat} {u v w : World}

theorem refl (bound : Nat) (w : World) : Upholds bound w w := ⟨Nat.le_refl _, fun _ _ => rfl⟩

theorem trans (h : Upholds bound w v) (h' : Upholds bound v u) : Upholds bound w u where
  tasks := Nat.le_trans h.tasks h'.tasks
  windows n hn := (h'.windows n hn).trans (h.windows n hn)

theorem weaken (h : Upholds more w v) (hle : bound ≤ more) : Upholds bound w v where
  tasks := h.tasks
  windows n hn := h.windows n (Nat.lt_of_lt_of_le hn hle)

theorem of_windows (h : v.windows = w.windows) (htasks : w.tasks.size ≤ v.tasks.size) :
    Upholds bound w v where
  tasks := htasks
  windows _ _ := by rw [h]

/-- The windows are still there. -/
theorem size (h : Upholds bound w v) (hbound : bound ≤ w.windows.size) : bound ≤ v.windows.size := by
  cases bound with
  | zero => exact Nat.zero_le _
  | succ n =>
    have hlast := h.windows n (Nat.lt_succ_self n)
    rw [Array.getElem?_eq_getElem hbound] at hlast
    exact (Array.getElem?_eq_some_iff.mp hlast).1

theorem modifyWindow {window : Nat} (hbound : bound ≤ window) (f : WindowCell → WindowCell) (w : World) :
    Upholds bound w (w.modifyWindow window f) where
  tasks := Nat.le_refl _
  windows n hn := by
    rw [World.modifyWindow, Array.getElem?_modify,
      if_neg (Nat.ne_of_gt (Nat.lt_of_lt_of_le hn hbound))]

theorem modifyTask (task : Nat) (f : TaskCell → TaskCell) (w : World) :
    Upholds bound w (w.modifyTask task f) :=
  .of_windows rfl (Nat.le_of_eq (size_tasks_modifyTask ..).symm)

theorem tidied (held : List Value) (w : World) : Upholds bound w (w.tidied held) :=
  .of_windows (windows_tidied w held) (Nat.le_of_eq (congrArg Array.size (tasks_tidied w held)).symm)

end Upholds

end World

/-! ## Stacks that flow -/

namespace Render

variable {ahead task fuel : Nat} {around : List Surrounding} {stack rest : List Work} {w v : World}

/-- The stack gives fragments until it ends, and upholds this many windows meanwhile. Between two fragments
tasks may change, but no windows. -/
inductive Flows (ahead bound : Nat) (around : List Surrounding) (task : Nat) : List Work → World → Prop
  | ended {stack rest : List Work} {w v : World} {fuel : Nat}
    (hturn : turn ahead fuel around task stack w = some (.ended, rest, v)) (hv : World.Upholds bound w v) :
      Flows ahead bound around task stack w
  | fragment {stack rest : List Work} {w v : World} {fuel : Nat} {text : String}
    (hturn : turn ahead fuel around task stack w = some (.fragment text, rest, v))
    (hv : World.Upholds bound w v)
    (hrest : ∀ u : World, u.windows = v.windows → u.tasks.size = v.tasks.size →
      Flows ahead bound around task rest u) : Flows ahead bound around task stack w

namespace Flows

variable {bound : Nat}

/-- A turn that goes on like another one. -/
theorem of_turn {stack' : List Work} {w' : World} (enough : Nat)
    (h : ∀ fuel ≥ enough, turn ahead (fuel + 1) around task stack w =
      turn ahead fuel around task stack' w')
    (hw : World.Upholds bound w w') (hflows : Flows ahead bound around task stack' w') :
    Flows ahead bound around task stack w := by
  have hagain : ∀ {fuel : Nat} {r : Turn × List Work × World},
      turn ahead fuel around task stack' w' = some r →
        turn ahead (max enough fuel + 1) around task stack w = some r := fun hturn =>
    (h _ (Nat.le_max_left ..)).trans (turn_mono (Nat.le_max_right ..) hturn)
  cases hflows with
  | ended hturn hv => exact .ended (hagain hturn) (hw.trans hv)
  | fragment hturn hv hrest => exact .fragment (hagain hturn) (hw.trans hv) hrest

theorem nil (w : World) : Flows ahead bound around task [] w := by
  have hturn : turn ahead 1 around task [] w = some (.ended, [], w) := by rw [turn]
  exact .ended hturn (.refl bound w)

/-- A member in work that flows gets through in one turn. -/
theorem member (h : Flows ahead bound around task stack w) :
    ∃ enough texts v, World.Upholds bound w v ∧ ∀ fuel ≥ enough, ∀ fragments : List String,
      memberTurn ahead fuel around task fragments stack w =
        some (.finished (fragments.reverse ++ texts), v) := by
  induction h with
  | @ended stack rest w v enough hturn hv =>
    refine ⟨enough + 1, [], v, hv, fun fuel hfuel fragments => ?_⟩
    obtain ⟨fuel, rfl⟩ := Nat.exists_eq_add_one_of_ne_zero (Nat.ne_of_gt (Nat.zero_lt_of_lt hfuel))
    rw [memberTurn, turn_mono (Nat.le_of_succ_le_succ hfuel) hturn, List.append_nil]
  | @fragment stack rest w v enough text hturn hv _ ih =>
    obtain ⟨enough', texts, u, hu, hmember⟩ := ih v rfl rfl
    refine ⟨max enough enough' + 1, text :: texts, u, hv.trans hu, fun fuel hfuel fragments => ?_⟩
    obtain ⟨fuel, rfl⟩ := Nat.exists_eq_add_one_of_ne_zero (Nat.ne_of_gt (Nat.zero_lt_of_lt hfuel))
    have hle := Nat.le_of_succ_le_succ hfuel
    rw [memberTurn, turn_mono (Nat.le_trans (Nat.le_max_left ..) hle) hturn]
    dsimp only
    rw [hmember fuel (Nat.le_trans (Nat.le_max_right ..) hle), List.reverse_cons, List.append_assoc]
    rfl

end Flows

end Render

/-! ## Work that passes -/

/-- A stack that flows does so with the piece of work on top, as long as the windows that there are stay as
they are. -/
structure Work.Passes (ahead : Nat) (work : Work) : Prop where
  flows : ∀ {bound task : Nat} {around : List Surrounding} {rest : List Work} {w : World},
    bound ≤ w.windows.size →
      (∀ v, World.Upholds w.windows.size w v → Render.Flows ahead bound around task rest v) →
        Render.Flows ahead bound around task (work :: rest) w

namespace Work

open Render (Flows)
open World (Upholds)

variable {ahead bound task : Nat} {around : List Surrounding} {rest : List Work} {work : Work} {w : World}

/-- Pieces of work that pass do so one after the other. -/
theorem passes_append {works : List Work} (h : ∀ work ∈ works, work.Passes ahead)
    (hbound : bound ≤ w.windows.size)
    (hrest : ∀ v, Upholds w.windows.size w v → Flows ahead bound around task rest v) :
    Flows ahead bound around task (works ++ rest) w := by
  induction works generalizing w with
  | nil => exact hrest w (.refl _ w)
  | cons work works ih =>
    obtain ⟨hwork, hworks⟩ := List.forall_mem_cons.mp h
    refine hwork.flows hbound fun v hv => ih hworks (Nat.le_trans hbound (hv.size (Nat.le_refl _))) ?_
    intro u hu
    exact hrest u (hv.trans (hu.weaken (hv.size (Nat.le_refl _))))

theorem passes_emit (text : String) : (emit text).Passes ahead := by
  constructor
  intro bound task around rest w _ hrest
  have hturn : Render.turn ahead 1 around task (.emit text :: rest) w = some (.fragment text, rest, w) := by
    rw [Render.turn]
  exact .fragment hturn (.refl bound w) fun u hwindows hsize =>
    hrest u (.of_windows hwindows (Nat.le_of_eq hsize.symm))

/-- A step on the way, after which the stack flows. -/
theorem flows_step (hstepped : work.isStepped = true) {works : List Work} {u : World}
    (hstep : work.step ahead task w = (.next works, u)) (hu : Upholds bound w u)
    (h : ∀ held, Flows ahead bound around task (works ++ rest) (u.tidied held)) :
    Flows ahead bound around task (work :: rest) w :=
  Flows.of_turn 0 (fun _ _ => Render.turn_step hstepped hstep) (hu.trans (.tidied _ u)) (h _)

/-- A piece of work that comes to what passes, and opens no window. -/
theorem passes_step (hstepped : work.isStepped = true)
    (h : ∀ (task : Nat) (w : World), ∃ works u, work.step ahead task w = (.next works, u) ∧
      u.windows = w.windows ∧ u.tasks = w.tasks ∧ ∀ piece ∈ works, piece.Passes ahead) :
    work.Passes ahead := by
  constructor
  intro bound task around rest w hbound hrest
  obtain ⟨works, u, hstep, hwindows, htasks, hworks⟩ := h task w
  have hu : ∀ {bound : Nat}, Upholds bound w u :=
    .of_windows hwindows (Nat.le_of_eq (congrArg Array.size htasks).symm)
  refine flows_step hstepped hstep hu fun held => passes_append hworks ?_ fun v hv => hrest v ?_
  · rwa [World.windows_tidied, hwindows]
  · rw [World.windows_tidied, hwindows] at hv
    exact (hu.trans (.tidied held u)).trans hv

theorem passes_note (event : Event) : (note event).Passes ahead :=
  passes_step rfl fun _ w => ⟨[], w.note event, rfl, rfl, rfl, nofun⟩

end Work

/-! ## Windows -/

/-- All of the values are ready to be drawn from it. -/
structure Feed.IsReady (f : Feed) (values : List Value) : Prop where
  origin : f.origin = none
  deadline : f.deadline = none
  members : f.members = values.map fun value => (0, value)

theorem Feed.isReady_ofList (values : List Value) : (ofList values).IsReady values := ⟨rfl, rfl, rfl⟩

theorem Feed.IsReady.draw_nil {f : Feed} (h : f.IsReady []) (task : Nat) (w : World) :
    f.draw task w = (.exhausted, f, w) := by
  rw [Feed.draw.eq_def, h.members]
  rfl

theorem Feed.IsReady.draw_cons {f : Feed} {value : Value} {rest : List Value}
    (h : f.IsReady (value :: rest)) (task : Nat) (w : World) :
    ∃ f', f.draw task w = (.member value, f', w) ∧ f'.IsReady rest := by
  obtain ⟨origin, index, members, deadline⟩ := f
  obtain ⟨rfl, rfl, rfl⟩ := h
  exact ⟨⟨none, index + 1, rest.map fun value => (0, value), none⟩, rfl, rfl, rfl, rfl⟩

/-- A member that has been drawn: its task, its number and its value. -/
structure Start where
  task : Nat
  number : Nat
  value : Value

/-- The member, before its first turn. -/
def Start.member (window : Nat) (start : Start) : Member :=
  .running start.task [] [.note (.began window start.number), .item start.value]

namespace LineupOf

open World (Upholds)

/-- The members in the window are these, none of which has had a turn, and they queue up in their order. -/
structure Queues (l : Lineup) (w : World) (starts : List Start) : Prop where
  members : l.members = starts.map (Start.member l.window)
  queue : ∃ cell, w.windows[l.window]? = some cell ∧ cell.queue = starts.map (·.task)
  below : ∀ start ∈ starts, start.task < w.tasks.size
  nodup : (starts.map (·.task)).Nodup

variable {bound : Nat} {l : Lineup} {w : World} {starts : List Start} {values : List Value}

theorem Queues.window_lt (h : l.Queues w starts) : l.window < w.windows.size := by
  obtain ⟨cell, hcell, -⟩ := h.queue
  exact (Array.getElem?_eq_some_iff.mp hcell).1

theorem Queues.upheld (h : l.Queues w starts) {v : World} (hv : Upholds bound w v)
    (hbound : l.window < bound) : l.Queues v starts where
  members := h.members
  queue := by
    obtain ⟨cell, hcell, hqueue⟩ := h.queue
    exact ⟨cell, (hv.windows _ hbound).trans hcell, hqueue⟩
  below start hstart := Nat.lt_of_lt_of_le (h.below start hstart) hv.tasks
  nodup := h.nodup

/-- A member that is drawn queues up behind the others. -/
theorem Queues.enlist (h : l.Queues w starts) (number : Nat) (value : Value) (feed : Feed) :
    Queues { l with feed, members := l.members ++
        [.running (w.enlist l.window number).1 [] [.note (.began l.window number), .item value]] }
      (w.enlist l.window number).2 (starts ++ [⟨w.tasks.size, number, value⟩]) where
  members := by
    rw [List.map_append, h.members]
    rfl
  queue := by
    obtain ⟨cell, hcell, hqueue⟩ := h.queue
    refine ⟨{ cell with
      queue := cell.queue ++ [w.tasks.size], recent := w.tasks.size :: cell.recent }, ?_, ?_⟩
    · change (w.windows.modify l.window _)[l.window]? = _
      rw [Array.getElem?_modify, if_pos rfl, hcell]
      rfl
    · rw [List.map_append, ← hqueue]
      rfl
  below start hstart := by
    have hsize : (w.enlist l.window number).2.tasks.size = w.tasks.size + 1 := Array.size_push _
    rw [hsize]
    rcases List.mem_append.mp hstart with hold | hnew
    · exact Nat.lt_succ_of_lt (h.below start hold)
    · rw [List.mem_singleton.mp hnew]
      exact Nat.lt_succ_self _
  nodup := by
    rw [List.map_append, List.nodup_append]
    refine ⟨h.nodup, List.pairwise_singleton _ _, fun task htask other hother heq => ?_⟩
    obtain ⟨start, hstart, rfl⟩ := List.mem_map.mp htask
    rw [List.map_singleton, List.mem_singleton] at hother
    exact Nat.ne_of_lt (h.below start hstart) (heq.trans hother)

theorem upholds_enlist {window : Nat} (hbound : bound ≤ window) (number : Nat) (w : World) :
    Upholds bound w (w.enlist window number).2 := by
  have hstarted : Upholds bound w ((w.note (.entered window number)).newTask
      { window := some window, queued := true }).2 :=
    .of_windows rfl (Nat.le_of_lt (Nat.lt_of_lt_of_eq (Nat.lt_succ_self _) (Array.size_push _).symm))
  exact hstarted.trans (.modifyWindow hbound _ _)

/-- As many members are drawn as there is room for. -/
theorem Queues.draw (h : l.Queues w starts) (hfeed : l.feed.IsReady values) (hbound : bound ≤ l.window)
    (owner room : Nat) :
    ∃ l' v more left, l.draw owner room w = (l', v) ∧ l'.window = l.window ∧ l'.Queues v (starts ++ more) ∧
      l'.feed.IsReady left ∧ more.map (·.value) ++ left = values ∧ (0 < room → more = [] → left = []) ∧
        Upholds bound w v := by
  induction room generalizing l w starts values with
  | zero =>
    refine ⟨l, w, [], values, rfl, rfl, ?_, hfeed, rfl, fun hroom => ?_, .refl bound w⟩
    · rwa [List.append_nil]
    · exact absurd hroom (Nat.lt_irrefl 0)
  | succ room ih =>
    cases values with
    | nil =>
      refine ⟨l, w, [], [], ?_, rfl, ?_, hfeed, rfl, fun _ _ => rfl, .refl bound w⟩
      · rw [LineupOf.draw, hfeed.draw_nil]
      · rwa [List.append_nil]
    | cons value values =>
      obtain ⟨feed, hdraw, hready⟩ := hfeed.draw_cons owner w
      obtain ⟨l', v, more, left, hdrawn, hwindow, hqueues, hleft, hvalues, -, hv⟩ :=
        ih (h.enlist l.feed.index value feed) hready hbound
      refine ⟨l', v, ⟨w.tasks.size, l.feed.index, value⟩ :: more, left, ?_, hwindow, ?_, hleft, ?_, ?_, ?_⟩
      · rw [LineupOf.draw, hdraw]
        exact hdrawn
      · rwa [List.append_assoc] at hqueues
      · rw [List.map_cons, List.cons_append, hvalues]
      · exact fun _ hnone => absurd hnone (List.cons_ne_nil _ _)
      · exact (upholds_enlist hbound _ w).trans hv

/-- The first one in the queue is the first member. -/
theorem Queues.dequeue {first : Start} {others : List Start} (h : l.Queues w (first :: others)) :
    ∃ v, w.dequeue? l.window = some (first.task, v) ∧
      l.find? first.task = some ([], [.note (.began l.window first.number), .item first.value]) ∧
        (∃ cell, v.windows[l.window]? = some cell ∧ cell.queue = others.map (·.task)) ∧
          v.tasks = w.tasks ∧ v.windows.size = w.windows.size ∧
            ∀ bound ≤ l.window, Upholds bound w v := by
  obtain ⟨cell, hcell, hqueue⟩ := h.queue
  refine ⟨w.modifyWindow l.window fun cell => { cell with queue := others.map (·.task) }, ?_, ?_,
    ⟨{ cell with queue := others.map (·.task) }, ?_, rfl⟩, rfl, Array.size_modify,
    fun bound hbound => .modifyWindow hbound _ w⟩
  · rw [World.dequeue?, hcell]
    dsimp only
    rw [hqueue]
    rfl
  · rw [find?, h.members, List.map_cons, Start.member, List.find?_cons_of_pos (by simp [Member.isTask])]
  · change (w.windows.modify l.window _)[l.window]? = _
    rw [Array.getElem?_modify, if_pos rfl, hcell]
    rfl

/-- When the first member is through, it comes out, and the others move up. -/
theorem Queues.replace {first : Start} {others : List Start} (h : l.Queues w (first :: others))
    (texts : List String) : ∃ number, (l.replace first.task (.finished texts)).front? =
      some (.through number texts, { l with members := others.map (Start.member l.window) }) := by
  have hmembers : (l.replace first.task (.finished texts)).members =
      .finished texts :: others.map (Start.member l.window) := by
    have hsplit : l.members = [] ++ .running first.task []
        [.note (.began l.window first.number), .item first.value] :: others.map (Start.member l.window) :=
      h.members
    have htasks : Member.tasks l.members = (first :: others).map (·.task) := by
      rw [h.members, Member.tasks, List.filterMap_map]
      exact congrFun List.filterMap_eq_map _
    exact members_replace (htasks ▸ h.nodup) hsplit _
  rw [front?, hmembers]
  exact ⟨_, rfl⟩

/-- A window with nothing left in it has ended. -/
theorem Queues.turn_nil (h : l.Queues w []) (hfeed : l.feed.IsReady []) {ahead owner : Nat}
    {l' : Lineup} {v : World} (hfill : l'.fill ahead owner v = (l, w)) (around : List Surrounding)
    (rest : List Work) (fuel : Nat) :
    Render.windowTurn ahead (fuel + 2) around owner rest l' v = some (.ended, l, w) := by
  obtain ⟨cell, hcell, hqueue⟩ := h.queue
  have hfront : l.front? = none := by rw [front?, h.members]; rfl
  have hdequeue : w.dequeue? l.window = none := by
    rw [World.dequeue?, hcell]
    dsimp only
    rw [hqueue]
    rfl
  have hover : l.isOver = true := by rw [isOver, h.members, hfeed.members]; rfl
  rw [Render.windowTurn, hfill]
  dsimp only
  rw [hfront]
  dsimp only
  rw [Render.workOff, hdequeue]
  dsimp only
  rw [if_pos hover]

/-- In a turn of a window that is full, the first member gets through. -/
theorem Queues.turn_cons {first : Start} {others : List Start} (h : l.Queues w (first :: others))
    {ahead owner : Nat} {l' : Lineup} {v : World} (hfill : l'.fill ahead owner v = (l, w))
    (hbound : bound ≤ l.window) (hpasses : (Work.item first.value).Passes ahead)
    (around : List Surrounding) (rest : List Work) :
    ∃ enough number texts u, l.window < u.windows.size ∧ Upholds bound w u ∧
      Queues { l with members := others.map (Start.member l.window) } u others ∧
        ∀ fuel ≥ enough, Render.windowTurn ahead fuel around owner rest l' v =
          some (.through number texts, { l with members := others.map (Start.member l.window) }, u) := by
  obtain ⟨w', hdequeue, hfind, ⟨cell, hcell, hqueue⟩, htasks, hsize, hw'⟩ := h.dequeue
  let within : List Surrounding := ⟨first.task, l, rest⟩ :: around
  have hflows : Render.Flows ahead w'.windows.size within first.task
      ([.note (.began l.window first.number), .item first.value] ++ []) (w'.beginTurn first.task) := by
    refine Work.passes_append ?_ (Nat.le_refl _) fun u _ => .nil u
    exact List.forall_mem_cons.mpr ⟨Work.passes_note _, List.forall_mem_singleton.mpr hpasses⟩
  obtain ⟨enough, texts, u, hu, hmember⟩ := hflows.member
  obtain ⟨number, hfront⟩ := h.replace texts
  have hbegun : ∀ {bound : Nat}, Upholds bound w' (w'.beginTurn first.task) := .modifyTask ..
  have hturned : Upholds w'.windows.size w' u := hbegun.trans hu
  have hretired : ∀ bound ≤ l.window, Upholds bound u (u.retire l.window first.task) := fun bound hle =>
    (World.Upholds.modifyTask ..).trans (.modifyWindow hle _ _)
  have hwindow : l.window < w'.windows.size := hsize ▸ h.window_lt
  have hafter : Upholds bound w (u.retire l.window first.task) :=
    ((hw' bound hbound).trans (hturned.weaken (Nat.le_of_lt (Nat.lt_of_le_of_lt hbound hwindow)))).trans
      (hretired bound hbound)
  refine ⟨enough + 2, number, texts, u.retire l.window first.task, ?_, hafter, ⟨rfl, ?_, ?_, ?_⟩, ?_⟩
  · have hthere := Nat.lt_of_lt_of_le hwindow (hturned.size (Nat.le_refl _))
    exact Nat.lt_of_lt_of_eq hthere Array.size_modify.symm
  · refine ⟨{ cell with recent := cell.recent.erase first.task }, ?_, hqueue⟩
    change (u.windows.modify l.window _)[l.window]? = _
    rw [Array.getElem?_modify, if_pos rfl, hturned.windows _ hwindow, hcell]
    rfl
  · intro start hstart
    exact Nat.lt_of_lt_of_le (h.below start (List.mem_cons_of_mem _ hstart)) hafter.tasks
  · exact (List.nodup_cons.mp h.nodup).2
  · intro fuel hfuel
    obtain ⟨fuel, rfl⟩ := Nat.exists_eq_add_of_le' hfuel
    have hrunning : l.front? = none := by rw [front?, h.members]; rfl
    rw [show fuel + (enough + 2) = fuel + enough + 1 + 1 from rfl, Render.windowTurn, hfill]
    dsimp only
    rw [hrunning]
    dsimp only
    rw [Render.workOff, hdequeue]
    dsimp only
    rw [hfind]
    dsimp only
    have hgot := hmember (fuel + enough) (Nat.le_add_left ..) []
    rw [List.append_nil] at hgot
    rw [hgot]
    dsimp only [List.reverse_nil, List.nil_append]
    rw [hfront]
    rfl

end LineupOf

/-! ## Lists -/

namespace Work

open Render (Flows)
open World (Upholds)

variable {ahead bound task : Nat} {around : List Surrounding} {rest : List Work} {w : World}

/-- A list that is rendered ahead flows, member by member. -/
theorem flows_ahead {base : Nat} (hahead : 0 < ahead) {l : Lineup} {starts : List Start}
    {values : List Value} (hstarts : ∀ start ∈ starts, (item start.value).Passes ahead)
    (hvalues : ∀ value ∈ values, (item value).Passes ahead) (hl : l.Queues w starts)
    (hfeed : l.feed.IsReady values) (hbase : base ≤ bound) (hbound : bound ≤ l.window)
    (hrest : ∀ v, Upholds bound w v → Flows ahead base around task rest v) :
    Flows ahead base around task (.ahead l :: rest) w := by
  generalize hcount : starts.length + values.length = count
  induction count using Nat.strongRecOn generalizing l w starts values with
  | ind count ih =>
    obtain ⟨l', v, more, left, hfill, hwindow, hl', hleft, hsplit, hroom, hv⟩ :=
      hl.draw hfeed hbound task (ahead - l.members.length)
    cases hall : starts ++ more with
    | nil =>
      obtain ⟨rfl, rfl⟩ := List.append_eq_nil_iff.mp hall
      rw [hl.members] at hroom
      obtain rfl := hroom hahead rfl
      have htidied : Upholds bound w
          (v.tidied (heldByAll rest ++ around.flatMap Surrounding.held)) := hv.trans (.tidied _ v)
      refine Flows.of_turn 2 (fun fuel hfuel => ?_) (htidied.weaken hbase) (hrest _ htidied)
      obtain ⟨fuel, rfl⟩ := Nat.exists_eq_add_of_le' hfuel
      rw [Render.turn, hl'.turn_nil hleft hfill]
    | cons first others =>
      rw [hall] at hl'
      have hfirst : ∀ start ∈ first :: others, (item start.value).Passes ahead := by
        rw [← hall]
        refine List.forall_mem_append.mpr ⟨hstarts, fun start hstart => hvalues _ ?_⟩
        rw [← hsplit]
        exact List.mem_append_left _ (List.mem_map_of_mem hstart)
      obtain ⟨hone, hothers⟩ := List.forall_mem_cons.mp hfirst
      obtain ⟨enough, number, texts, u, hsize, hu, hnext, hturn⟩ :=
        hl'.turn_cons hfill (hwindow ▸ hbound) hone around rest
      let through : List Work := texts.map .emit ++ [.note (.left l'.window number)]
      have hthrough : ∀ piece ∈ through, piece.Passes ahead := by
        refine List.forall_mem_append.mpr ⟨fun piece hpiece => ?_,
          List.forall_mem_singleton.mpr (passes_note _)⟩
        obtain ⟨text, -, rfl⟩ := List.mem_map.mp hpiece
        exact passes_emit text
      have hwu := hv.trans hu
      have hwindows : bound ≤ u.windows.size := Nat.le_of_lt (Nat.lt_of_le_of_lt (hwindow ▸ hbound) hsize)
      let next : Lineup := { l' with members := others.map (Start.member l'.window) }
      have hgoes : Flows ahead base around task (through ++ .ahead next :: rest) u := by
        refine passes_append hthrough (Nat.le_trans hbase hwindows) fun x hx => ?_
        have hless : others.length + left.length < count := by
          have hlength := congrArg List.length hall
          have hsum := congrArg List.length hsplit
          simp only [List.length_append, List.length_cons, List.length_map] at hlength hsum
          omega
        have hux : Upholds bound u x := hx.weaken hwindows
        refine ih _ hless hothers (fun value hvalue => hvalues value ?_) (hnext.upheld hx hsize) hleft
          (hwindow ▸ hbound) (fun y hy => hrest y ((hwu.trans hux).trans hy)) rfl
        rw [← hsplit]
        exact List.mem_append_right _ hvalue
      refine Flows.of_turn enough (fun fuel hfuel => ?_) (hwu.weaken hbase) hgoes
      rw [Render.turn, hturn fuel hfuel]

/-- The members of a list pass together if each of them does. -/
theorem passes_members {work : Work} (hstepped : work.isStepped = true) {values kept : List Value}
    (hstep : ∀ (task : Nat) (w : World), work.step ahead task w =
      (.next (Render.members ahead task values kept w).1, (Render.members ahead task values kept w).2))
    (hvalues : ∀ value ∈ values, (item value).Passes ahead) : work.Passes ahead := by
  constructor
  intro bound task around rest w hbound hrest
  have hnext := hstep task w
  by_cases hone : ahead ≤ 1
  · rw [Render.members, if_pos hone] at hnext
    have hitems : ∀ piece ∈ values.map item, piece.Passes ahead := by
      intro piece hpiece
      obtain ⟨value, hvalue, rfl⟩ := List.mem_map.mp hpiece
      exact hvalues value hvalue
    refine flows_step hstepped hnext (.refl bound w) fun held => passes_append hitems ?_ fun v hv => ?_
    · rwa [World.windows_tidied]
    · rw [World.windows_tidied] at hv
      exact hrest v ((Upholds.tidied held w).trans hv)
  · rw [Render.members, if_neg hone, Render.feed, if_neg hone] at hnext
    let u := (w.newWindow task).2
    have hu : Upholds w.windows.size w u := by
      refine ⟨Nat.le_refl _, fun n hn => ?_⟩
      change (w.windows.push _)[n]? = _
      rw [Array.getElem?_push, if_neg (Nat.ne_of_lt hn)]
    refine flows_step hstepped hnext (hu.weaken hbound) fun held => ?_
    have hopened : LineupOf.Queues ⟨w.windows.size, .ofList values, kept, []⟩ (u.tidied held) [] := by
      refine ⟨rfl, ⟨{ owner := task }, ?_, rfl⟩, List.forall_mem_nil _, .nil⟩
      rw [World.windows_tidied]
      exact Array.getElem?_push_size
    have hnone : ∀ start ∈ ([] : List Start), (item start.value).Passes ahead :=
      fun _ hstart => absurd hstart List.not_mem_nil
    exact flows_ahead (Nat.lt_trans Nat.zero_lt_one (Nat.lt_of_not_le hone)) hnone hvalues hopened
      (Feed.isReady_ofList values) hbound (Nat.le_refl _)
      fun v hv => hrest v ((hu.trans (.tidied held u)).trans hv)

theorem passes_children (e : Element) (h : ∀ child ∈ e.children, (item child).Passes ahead) :
    (children e).Passes ahead := by
  have hstep : ∀ (task : Nat) (w : World), (children e).step ahead task w =
      (.next (Render.members ahead task e.children [.element e] w).1,
        (Render.members ahead task e.children [.element e] w).2) := fun _ _ => rfl
  exact passes_members rfl hstep h

end Work

end TaggedMarkup
