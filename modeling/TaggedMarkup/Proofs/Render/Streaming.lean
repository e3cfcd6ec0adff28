import TaggedMarkup.Proofs.Markup.Windows
import TaggedMarkup.Proofs.Render.Ending

/-!
# What a render delivers

Between two fragments a render stands ready with a stack that yields the rest of its output
(`RenderStream.Ready`). Whenever it is asked, something comes out (`RenderStream.await_fares`): a render that
can only wait has a timer to wait for, time passes, and every wait takes effort, a timer, or somebody off those
who were told.

So a render delivers all of its output, or fails with the first error there (`RenderStream.drain_go_fares`), with
any number of members rendered ahead.
-/

namespace TaggedMarkup

variable {task effort : Nat} {w v : World} {σ τ : Seating} {stack : List Work} {out last : Output}

/-! ## Turns of a render -/

/-- The turn of a render begins. -/
theorem World.Stands.beginTurn (h : w.Stands σ task stack)
    (hwindow : ∃ cell, w.tasks[task]? = some cell ∧ cell.window = none) :
    (w.beginTurn task).Stands σ task stack ∧ ¬(w.beginTurn task).Told (.task task) ∧
      Work.alertsOfAll (w.beginTurn task) stack ≤ Work.alertsOfAll w stack := by
  obtain ⟨hbalanced, hrespects⟩ := h.balanced.beginTurn task
  obtain ⟨cell, hcell, hnone⟩ := hwindow
  obtain ⟨_, hsame, hended⟩ := h.alive
  cases hcell.symm.trans hsame
  have hself : (w.beginTurn task).tasks[task]? = some { cell with queued := false, woken := false } := by
    rw [World.beginTurn, getElem?_modifyTask, if_pos rfl, hcell]
    rfl
  refine ⟨⟨hbalanced, ⟨_, hself, hended⟩, ?_, ?_⟩, fun htold => ?_, ?_⟩
  · intro cell' window frame hcell' hwindow
    cases hself.symm.trans hcell'
    cases hnone.symm.trans hwindow
  · exact h.poised.carried hrespects h.balanced.rooted (fun _ _ _ => rfl) rfl (fun _ hf => hf) fun k _ hne => hne
  · have htold' := htold _ hself
    rw [TaskCell.isTold, hended, hnone] at htold'
    cases htold'
  · refine Work.alertsOfAll_le h.balanced.rooted (fun k _ hne htold c hc => htold c ?_) h.poised
    rw [World.beginTurn, getElem?_modifyTask, if_neg (Ne.symm hne), hc]

/-- A render is told when it is woken. -/
theorem World.isWoken_iff (halive : ∃ cell, w.tasks[task]? = some cell ∧ cell.ended = false)
    (hwindow : ∃ cell, w.tasks[task]? = some cell ∧ cell.window = none) :
    w.isWoken task = true ↔ w.Told (.task task) := by
  obtain ⟨cell, hcell, hended⟩ := halive
  obtain ⟨_, hsame, hnone⟩ := hwindow
  cases hcell.symm.trans hsame
  have hisTold : cell.isTold = cell.woken := by
    rw [TaskCell.isTold, hended, hnone]
    rfl
  rw [World.isWoken, hcell]
  constructor
  · intro hwoken
    exact told_of_isTold hcell (hisTold.trans hwoken)
  · intro htold
    exact hisTold.symm.trans (htold cell hcell)

namespace RenderStream

/-- The render stands ready for a turn, with this output to come. -/
structure Ready (s : RenderStream) (w : World) (σ : Seating) (out : Output) (effort : Nat) : Prop where
  ready : w.Ready s.config.concurrency σ s.task s.stack [] out effort
  root : ∃ cell, w.tasks[s.task]? = some cell ∧ cell.window = none

/-- What comes out of a render. -/
inductive Fares (s : RenderStream) (out : Output) (effort : Nat) : Delivery → RenderStream → World → Prop
  | fragment {text : String} {rest : List Work} {v : World} {τ : Seating} {last : Output} {less : Nat} :
    Ready { s with stack := rest } v τ last less → out = .ok text :: last → less < effort →
      Fares s out effort (.fragment text) { s with stack := rest } v
  | failed {error : Error} {rest : List Work} {v : World} :
    out.error? = some error → (s.config.concurrency ≤ 1 → ∃ last, out = .error error :: last) →
      Fares s out effort (.failed error) { s with stack := rest } v
  | ended {v : World} : out = [] → Fares s out effort .ended { s with stack := [] } v

variable {s : RenderStream}

theorem Fares.mono {less : Nat} {rest : List Work} {d : Delivery} {s' : RenderStream}
    (h : Fares { s with stack := rest } out less d s' v) (hle : less ≤ effort) : s.Fares out effort d s' v := by
  cases h with
  | fragment hready hout hless => exact .fragment hready hout (Nat.lt_of_lt_of_le hless hle)
  | failed herror hfirst => exact .failed herror hfirst
  | ended hout => exact .ended hout

/-- With more fuel, the same comes out. -/
theorem await_mono {fuel more : Nat} (hle : fuel ≤ more) {r : Delivery × RenderStream × World}
    (h : s.await fuel w = some r) : s.await more w = some r := by
  induction hle with
  | refl => exact h
  | step _ ih => exact await_succ_fuel ih

/-- Time passes. -/
theorem Ready.advance (h : s.Ready w σ out effort) (htimers : w.timers ≠ []) :
    ∃ v, w.advance? = some v ∧ s.Ready v σ out effort ∧ v.timers.length < w.timers.length := by
  obtain ⟨v, hadvance, hbalanced, hrespects, hlength⟩ := h.ready.stands.balanced.advance htimers
  refine ⟨v, hadvance, ⟨⟨h.ready.stands.carried hrespects hbalanced, h.ready.tasked.mono hrespects.size,
    h.ready.clean.passed hadvance, h.ready.yields.becomes (.passed .refl hadvance)⟩, ?_⟩, hlength⟩
  obtain ⟨cell, hcell, hnone⟩ := h.root
  obtain ⟨cell', hcell', hsame, -⟩ := hrespects.task s.task cell hcell
  exact ⟨cell', hcell', hsame.trans hnone⟩

/-- A render that goes on, but was not told, waits for a timer, and time passes. -/
theorem Ready.waits (h : s.Ready w σ out effort) (hgoes : w.GoesOn s.task s.stack)
    (hwoken : ¬w.isWoken s.task = true) :
    Work.Waits w s.task s.stack ∧
      ∃ v, w.advance? = some v ∧ s.Ready v σ out effort ∧ v.timers.length < w.timers.length := by
  have htold : ¬w.Told (.task s.task) :=
    fun htold => hwoken ((World.isWoken_iff h.ready.stands.alive h.root).mpr htold)
  have hwaits := hgoes.resolve_left htold
  exact ⟨hwaits, h.advance (hwaits.timers_ne_nil h.ready.stands.balanced h.ready.stands.poised)⟩

/-- The turn of a render begins. -/
theorem Ready.beginTurn (h : s.Ready w σ out effort) : Ready s (w.beginTurn s.task) σ out effort := by
  obtain ⟨hstands, -, -⟩ := h.ready.stands.beginTurn h.root
  have hsize := World.size_tasks_beginTurn w s.task
  have hseen := World.seen_beginTurn w s.task
  refine ⟨⟨hstands, hsize ▸ h.ready.tasked, h.ready.clean.hidden hseen,
    h.ready.yields.becomes (.hidden .refl hseen)⟩, ?_⟩
  obtain ⟨cell, hcell, hnone⟩ := h.root
  refine ⟨{ cell with queued := false, woken := false }, ?_, hnone⟩
  rw [World.beginTurn, World.getElem?_modifyTask, if_pos rfl, hcell]
  rfl

/-- A render stays on its own. -/
theorem Ready.root_moves (h : s.Ready w σ out effort) (hmoves : World.Moves w v σ τ s.task) :
    ∃ cell, v.tasks[s.task]? = some cell ∧ cell.window = none := by
  obtain ⟨cell, hcell, hnone⟩ := h.root
  obtain ⟨cell', hv, hsame, -⟩ := hmoves.respects.task s.task _ hcell
  exact ⟨cell', hv, hsame.trans hnone⟩

/-- Whenever a render is asked, something comes out. -/
theorem await_fares (h : s.Ready w σ out effort) :
    ∃ fuel d s' v, s.await fuel w = some (d, s', v) ∧ s.Fares out effort d s' v := by
  induction effort using Nat.strong_induction_on generalizing s w σ with
  | _ effort ihEffort =>
    generalize htimers : w.timers.length = timers
    induction timers using Nat.strong_induction_on generalizing s w σ with
    | _ timers ihTimers =>
      generalize halerts : Work.alertsOfAll w s.stack = alerts
      induction alerts using Nat.strong_induction_on generalizing s w σ with
      | _ alerts ihAlerts =>
        obtain ⟨-, hreset, hfewer⟩ := h.ready.stands.beginTurn h.root
        have hbegun := h.beginTurn
        have hturn : ∃ fuel t rest v, Render.turn s.config.concurrency fuel [] s.task s.stack
            (w.beginTurn s.task) = some (t, rest, v) ∧
              t.Fares s.config.concurrency (w.beginTurn s.task) σ s.task s.stack [] out effort rest v :=
          Render.turn_fares _ _ [] hbegun.ready
        obtain ⟨fuel, t, rest, v, heq, hfares⟩ := hturn
        cases hfares with
        | @fragment text _ _ _ _ _ hready hmoves hout hless =>
          refine ⟨fuel + 1, .fragment text, { s with stack := rest }, v, ?_,
            .fragment ⟨hready, hbegun.root_moves hmoves⟩ hout hless⟩
          rw [await, heq]
        | @failed error _ _ _ hstands hmoves herror hfirst =>
          refine ⟨fuel + 1, .failed error, { s with stack := rest }, v, ?_, .failed herror hfirst⟩
          rw [await, heq]
        | ended hstands hmoves hout =>
          refine ⟨fuel + 1, .ended, { s with stack := [] }, v, ?_, .ended hout⟩
          rw [await, heq]
        | @blocked rest v τ less hready hmoves hgoes hle hprogress =>
          have hwindow := hbegun.root_moves hmoves
          have hnext : Ready { s with stack := rest } v τ out less := ⟨hready, hwindow⟩
          by_cases hwoken : v.isWoken s.task = true
          · -- it was told in its turn
            have hrest : ∃ fuel' d s' u, await fuel' { s with stack := rest } v = some (d, s', u) ∧
                Fares { s with stack := rest } out less d s' u := by
              rcases Nat.lt_or_eq_of_le hle with hless | rfl
              · exact ihEffort less hless hnext
              · have hidle := hprogress.resolve_left (Nat.lt_irrefl _)
                refine ihAlerts _ ?_ hnext ((congrArg List.length hidle.timers).trans htimers) rfl
                have htold := (World.isWoken_iff hready.stands.alive hwindow).mp hwoken
                have hone := World.alert_of_told htold hready.stands.lt_size
                have hzero := World.alert_of_not_told hreset
                have hfew := hidle.alerts
                change Work.alertsOfAll v rest < alerts
                omega
            obtain ⟨fuel', d, s', u, heq', hfares⟩ := hrest
            refine ⟨max fuel fuel' + 1, d, s', u, ?_, hfares.mono hle⟩
            rw [await, Render.turn_mono (Nat.le_max_left ..) heq]
            dsimp only
            rw [if_pos hwoken]
            exact await_mono (Nat.le_max_right ..) heq'
          · -- it waits for a timer
            obtain ⟨-, u, hadvance, hlater, hfewer⟩ := hnext.waits hgoes hwoken
            have hrest : ∃ fuel' d s' x, await fuel' { s with stack := rest } u = some (d, s', x) ∧
                Fares { s with stack := rest } out less d s' x := by
              rcases Nat.lt_or_eq_of_le hle with hless | rfl
              · exact ihEffort less hless hlater
              · have hidle := hprogress.resolve_left (Nat.lt_irrefl _)
                have hsame : v.timers.length = timers := (congrArg List.length hidle.timers).trans htimers
                exact ihTimers _ (hsame ▸ hfewer) hlater rfl
            obtain ⟨fuel', d, s', x, heq', hfares⟩ := hrest
            refine ⟨max fuel fuel' + 1, d, s', x, ?_, hfares.mono hle⟩
            rw [await, Render.turn_mono (Nat.le_max_left ..) heq]
            dsimp only
            rw [if_neg hwoken, hadvance]
            exact await_mono (Nat.le_max_right ..) heq'

end RenderStream

/-! ## All of a render -/

namespace Output

/-- The fragments before the first error. -/
def fragments : Output → List String
  | [] | .error _ :: _ => []
  | .ok text :: rest => text :: fragments rest

/-- These fragments come out of a render with so many members ahead: all before the first error, except that
those of members in work when one of them fails are lost. -/
def Delivers (n : Nat) (out : Output) (texts : List String) : Prop :=
  texts <+: out.fragments ∧ (n ≤ 1 ∨ out.error? = none → texts = out.fragments)

theorem Delivers.cons {n : Nat} {texts : List String} (h : out.Delivers n texts) (text : String) :
    Output.Delivers n (.ok text :: out) (text :: texts) where
  left := List.cons_prefix_cons.mpr ⟨rfl, h.1⟩
  right hwhole := congrArg (text :: ·) (h.2 hwhole)

end Output

namespace RenderStream

variable {s : RenderStream}

/-- With enough fuel, a render delivers its output, or fails with the first error there. -/
theorem drain_go_fares (h : s.Ready w σ out effort) (hfailed : s.failed = false) (hclosed : s.closed = false) :
    ∃ enough texts v, out.Delivers s.config.concurrency texts ∧ ∀ fuel rounds, enough ≤ fuel → enough ≤ rounds →
      ∀ before, drain.go fuel rounds before s w = some (before.reverse ++ texts, out.error?, v) := by
  induction effort using Nat.strong_induction_on generalizing s w σ out with
  | _ effort ih =>
    obtain ⟨enough, d, s', v, heq, hfares⟩ := await_fares h
    have hround : ∀ {count rounds : Nat}, count + 1 ≤ rounds → ∃ less, rounds = less + 1 ∧ count ≤ less :=
      fun hle => ⟨_, (Nat.sub_add_cancel (Nat.le_trans (Nat.succ_le_succ (Nat.zero_le _)) hle)).symm,
        Nat.le_sub_one_of_lt hle⟩
    cases hfares with
    | @fragment text rest v τ last less hready hout hless =>
      subst hout
      obtain ⟨enough', texts, u, hdelivers, hgo⟩ := ih less hless hready hfailed hclosed
      refine ⟨max enough enough' + 1, text :: texts, u, hdelivers.cons text, fun fuel rounds hfuel hrounds before => ?_⟩
      obtain ⟨left, rfl, hleft⟩ := hround hrounds
      rw [drain.go, pull_of_await ⟨hfailed, hclosed⟩ (await_mono (by omega) heq)]
      have hrest := hgo fuel left (by omega) (by omega) (text :: before)
      rw [List.reverse_cons, List.append_assoc] at hrest
      obtain ⟨task, stack, config, failed, closed, finished⟩ := s
      cases hfailed
      exact hrest
    | @failed error rest v herror hfirst =>
      refine ⟨enough + 1, [], drop { s with stack := rest, failed := true } v, ⟨List.nil_prefix, ?_⟩,
        fun fuel rounds hfuel hrounds before => ?_⟩
      · rintro (hone | hnone)
        · obtain ⟨last, rfl⟩ := hfirst hone
          rfl
        · cases hnone.symm.trans herror
      · obtain ⟨left, rfl, hleft⟩ := hround hrounds
        rw [drain.go, pull_of_await ⟨hfailed, hclosed⟩ (await_mono (by omega) heq), List.append_nil, herror]
        rfl
    | @ended v hout =>
      subst hout
      refine ⟨enough + 1, [], drop { s with stack := [], failed := false } v, ⟨List.nil_prefix, fun _ => rfl⟩,
        fun fuel rounds hfuel hrounds before => ?_⟩
      obtain ⟨left, rfl, hleft⟩ := hround hrounds
      rw [drain.go, pull_of_await ⟨hfailed, hclosed⟩ (await_mono (by omega) heq), List.append_nil]
      rfl

end RenderStream

/-! ## From the start -/

/-- The piece of work is **pure** and comes to an end: in a world whose books are balanced it comes to this
tree, whatever else is done, and no one-shot sequence is reached twice. -/
structure Tree.Comes (tree : Tree) (w : World) (work : Work) : Prop where
  balanced : ∃ σ, w.Balanced σ fun _ => False
  clean : Clean w [work]
  describes : tree.Describes w work

/-- Before anything is made there is nobody to be told. -/
theorem World.balanced_empty : World.Balanced {} (fun _ => none) fun _ => False where
  rooted _ _ _ hcell := by cases hcell
  forward _ _ _ huntold := by cases huntold
  recent _ _ hframe := by cases hframe
  onTime _ _ _ hstate := by cases hstate
  underWay waiter _ _ hholds := by cases waiter <;> cases hholds
  vacant _ := ⟨List.nodup_nil, nofun⟩
  sits waiter _ _ hholds := by cases waiter <;> cases hholds
  alone waiter _ _ _ hholds := by cases waiter <;> cases hholds
  own waiter _ _ _ hholds := by cases waiter <;> cases hholds
  expects _ _ := .inl fun _ _ huntold => by cases huntold

/-- Whatever host code has made, the books are balanced. -/
theorem World.balanced_made (a : Action) : (a.run {}).2.Balanced (fun _ => none) fun _ => False :=
  balanced_empty.extends (.run a {})

/-- A new task concerns nobody. -/
theorem World.Balanced.newTask {E : Nat → Prop} (h : w.Balanced σ E) :
    (w.newTask { window := none }).2.Balanced σ E := by
  have hsize : (w.newTask { window := none }).2.tasks.size = w.tasks.size + 1 := Array.size_push ..
  refine h.of_pendings rfl rfl rfl (fun n cell window hcell hwindow => ?_) fun n frame hframe => ?_
  · rw [World.newTask, Array.getElem?_push] at hcell
    split at hcell
    · cases hcell
      cases hwindow
    · exact h.rooted n cell window hcell hwindow
  · obtain ⟨hnodup, hrecent, hqueue⟩ := h.recent n frame hframe
    rw [hsize]
    exact ⟨hnodup, fun k hk => Nat.lt_succ_of_lt (hrecent k hk), fun k hk => Nat.lt_succ_of_lt (hqueue k hk)⟩

namespace RenderStream

variable {tree : Tree} {work : Work}

/-- Before anything is taken, the whole output is to come. -/
theorem start_ready (h : tree.Comes w work) (hstepped : work.isStepped = true) (config : RenderConfig) :
    ∃ σ, (start config [work] w).1.Ready (start config [work] w).2 σ tree.output tree.effort := by
  obtain ⟨σ, hbalanced⟩ := h.balanced
  have hcell : (w.newTask { window := none }).2.tasks[w.tasks.size]? = some { window := none } :=
    Array.getElem?_push_size
  have hbusy := Work.isBusy_of_layer h.describes.layer_ne_busy
  have hpieces : Work.piecesOfAll [work] ++ [] = [work] := by
    rw [Work.piecesOfAll, Work.pieces_stepped hstepped]
    rfl
  refine ⟨σ, ⟨⟨hbalanced.newTask, ⟨_, hcell, rfl⟩, ?_, ?_⟩, ?_, ?_, ?_⟩, _, hcell, rfl⟩
  · intro cell window frame hcell' hwindow
    cases hcell.symm.trans hcell'
    cases hwindow
  · exact Work.poisedAll_of_not_busy fun other hother => List.mem_singleton.mp hother ▸ hbusy
  · cases work with
    | ahead => cases hstepped
    | _ => exact ⟨trivial, trivial⟩
  · have hclean := h.clean
    rw [← hpieces] at hclean
    exact hclean.hidden rfl
  · have hstarted : w.Becomes (start config [work] w).2 := .hidden .refl rfl
    exact .singleton (h.describes.becomes hstarted).yields

/-- With enough fuel, everything there is can be taken at once: these fragments, and this error. -/
def DrainsTo (s : RenderStream) (w : World) (texts : List String) (error : Option Error) : Prop :=
  ∃ enough v, ∀ fuel ≥ enough, s.drain fuel w = some (texts, error, v)

/-- A render of something pure delivers its output, or fails with the first error there, with any number of
members ahead. -/
theorem drain_comes (h : tree.Comes w work) (hstepped : work.isStepped = true) (config : RenderConfig) :
    ∃ texts, tree.output.Delivers config.concurrency texts ∧
      (start config [work] w).1.DrainsTo (start config [work] w).2 texts tree.output.error? := by
  obtain ⟨σ, hready⟩ := start_ready h hstepped config
  obtain ⟨enough, texts, v, hdelivers, hgo⟩ := drain_go_fares hready rfl rfl
  exact ⟨texts, hdelivers, enough, v, fun fuel hfuel => hgo fuel fuel hfuel hfuel []⟩

end RenderStream

end TaggedMarkup
