import TaggedMarkup.Proofs.Render.Attendance

/-!
# Leaving in order

Work that is not going to be done gives up the seats it holds. The books stay in order, and nobody else
loses anything (`World.Balanced.abandon`). A pending value is only let go of when nobody sits there, so none
is missed.
-/

namespace TaggedMarkup

/-- If nobody has a seat, every seat was given up. -/
theorem Seats.mem_vacant {s : Seats} (hnodup : s.vacant.Nodup)
    (hvacant : ∀ n ∈ s.vacant, s.seats[n]? = some none) (hempty : s.isEmpty = true) {n : Nat}
    {x : Option Waiter} (hn : s.seats[n]? = some x) : n ∈ s.vacant := by
  have hlength : s.vacant.length = s.seats.length := eq_of_beq hempty
  have hrange : s.vacant.Subperm (List.range s.seats.length) := by
    refine hnodup.subperm fun m hm => List.mem_range.mpr ?_
    exact (List.getElem?_eq_some_iff.mp (hvacant m hm)).1
  have hperm := hrange.perm_of_length_le (by rw [List.length_range, hlength])
  exact hperm.mem_iff.mpr (List.mem_range.mpr (List.getElem?_eq_some_iff.mp hn).1)

namespace World

variable {w v : World} {σ τ : Seating} {E X : Nat → Prop} {pending seat : Nat}

/-- Who holds fewer seats does no harm. -/
theorem Balanced.release (h : w.Balanced σ E) (hτ : ∀ n held, τ n = some held → σ n = some held) :
    w.Balanced τ E :=
  have hholds : ∀ {waiter : Waiter} {n s : Nat}, w.Holds τ waiter n s → w.Holds σ waiter n s := by
    intro waiter n s hholds
    cases waiter with
    | task task => exact hτ task _ hholds
    | pending later => exact hholds
  { h with
    underWay := fun waiter n s hn => h.underWay waiter n s (hholds hn)
    sits := fun waiter n s hn => h.sits waiter n s (hholds hn)
    alone := fun waiter other n s hn hm => h.alone waiter other n s (hholds hn) (hholds hm)
    own := fun waiter other n s hn => h.own waiter other n s (hholds hn) }

/-! ## Giving up a seat -/

/-- What the cell of a pending value is when a seat is given up. Once it is settled, nothing changes. -/
def leaveSeat (seat : Nat) (cell : PendingCell) : PendingCell :=
  match cell.stage with
  | .done _ => cell
  | _ => { cell with waiters := cell.waiters.leave seat }

/-- The seats that are left when one is given up, unless everybody has been told for good. -/
theorem reseats_giveUp (pending seat : Nat) (w : World) :
    Reseats w (w.giveUp pending seat) pending
      (if w.peek pending = none ∧ pending < w.pendings.size then (w.seatsAt pending).leave seat
        else w.seatsAt pending) := by
  obtain ⟨pendings, forsaken, heq⟩ := giveUp_eq w pending seat
  have hpendings : ∀ n : Nat, (w.giveUp pending seat).pendings[n]? =
      if pending = n then w.pendings[n]?.map (leaveSeat seat) else w.pendings[n]? := by
    intro n
    rw [← getElem?_modifyPending]
    unfold giveUp
    dsimp only
    split <;> rfl
  rw [heq] at hpendings ⊢
  have hcell : ∀ n : Nat, ({ w with pendings, forsaken } : World).pendings[n]? =
      if pending = n then w.pendings[n]?.map (leaveSeat seat) else w.pendings[n]? := hpendings
  refine ⟨rfl, rfl, rfl, rfl, fun n => ?_, ?_, fun n hn => ?_⟩
  · rw [stateAt, hcell, stateAt]
    by_cases hn : pending = n
    · rw [if_pos hn]
      cases w.pendings[n]? with
      | none => rfl
      | some cell =>
        rw [Option.map_some, Option.map_some, Option.map_some, leaveSeat]
        split <;> rfl
    · rw [if_neg hn]
  · rw [seatsAt, hcell, if_pos rfl]
    cases hw : w.pendings[pending]? with
    | none =>
      have hsize := Array.getElem?_eq_none_iff.mp hw
      rw [if_neg fun hlt => absurd hlt.2 (Nat.not_lt.mpr hsize), seatsAt, hw]
      rfl
    | some cell =>
      rw [peek_of_getElem? hw, seatsAt_of_getElem? hw, Option.map_some, leaveSeat]
      have hlt := lt_size_of_getElem? hw
      cases hstage : cell.stage with
      | done o => rfl
      | _ =>
        rw [if_pos ⟨rfl, hlt⟩]
  · rw [seatsAt, hcell, if_neg (Ne.symm hn), seatsAt]

section GiveUp

variable (h : w.Balanced σ E) (hfree : ∀ waiter, ¬w.Holds σ waiter pending seat)
  (hseat : w.peek pending = none → (∃ x, (w.seatsAt pending).seats[seat]? = some x) ∧
    seat ∉ (w.seatsAt pending).vacant)

theorem untold_giveUp {n s : Nat} {waiter : Waiter} (hne : ¬(n = pending ∧ s = seat)) :
    (w.giveUp pending seat).Untold n s waiter ↔ w.Untold n s waiter := by
  have hv := reseats_giveUp pending seat w
  by_cases hn : n = pending
  · subst hn
    rw [Untold, hv.self, Untold]
    split
    · rw [Seats.leave, List.getElem?_set_ne fun heq => hne ⟨rfl, heq.symm⟩]
    · exact Iff.rfl
  · exact untold_congr (hv.others n hn)

theorem of_untold_giveUp {n s : Nat} {waiter : Waiter}
    (huntold : (w.giveUp pending seat).Untold n s waiter) : w.Untold n s waiter := by
  by_cases hne : n = pending ∧ s = seat
  · obtain ⟨rfl, rfl⟩ := hne
    rw [Untold, (reseats_giveUp n s w).self] at huntold
    split at huntold
    · rw [Seats.leave, List.getElem?_set] at huntold
      split at huntold
      · split at huntold <;> cases huntold
      · rename_i hsame
        exact absurd rfl hsame
    · exact huntold
  · exact (untold_giveUp hne).mp huntold

include h hfree hseat

/-- A seat that nobody holds any more is given up. -/
theorem Balanced.giveUp
    (hwaiter : ∀ later, w.Untold pending seat (.pending later) → w.Told (.pending later)) :
    (w.giveUp pending seat).Balanced σ E := by
  have hv := reseats_giveUp pending seat w
  have hholds : ∀ {other : Waiter} {n s : Nat}, (w.giveUp pending seat).Holds σ other n s →
      w.Holds σ other n s := fun hother => (holds_congr hv.stateAt).mp hother
  refine ⟨?_, fun n s later hn => h.forward n s later (of_untold_giveUp hn), ?_, ?_, ?_, ?_, ?_,
    fun one other n s hone hother => h.alone one other n s (hholds hone) (hholds hother),
    fun holder other n s hholder hn => h.own holder other n s (hholds hholder) (of_untold_giveUp hn), ?_⟩
  · intro task cell window hcell hwindow
    rw [hv.tasks] at hcell
    rw [hv.windows]
    exact h.rooted task cell window hcell hwindow
  · rw [hv.windows, hv.tasks]
    exact h.recent
  · intro n job deadline hstate
    rw [hv.stateAt] at hstate
    rw [hv.clock, hv.timers]
    exact h.onTime n job deadline hstate
  · intro other n s hother
    rw [hv.stateAt]
    exact h.underWay other n s (hholds hother)
  · intro n
    by_cases hn : n = pending
    · subst hn
      rw [hv.self]
      split
      · rename_i hopen
        obtain ⟨⟨x, hx⟩, hheld⟩ := hseat hopen.1
        refine ⟨List.nodup_cons.mpr ⟨hheld, (h.vacant n).1⟩, fun s hs => ?_⟩
        rw [Seats.leave]
        rcases List.mem_cons.mp hs with rfl | hs
        · exact List.getElem?_set_self (List.getElem?_eq_some_iff.mp hx).1
        · rw [List.getElem?_set_ne fun heq => hheld (by rwa [heq])]
          exact (h.vacant n).2 s hs
      · exact h.vacant n
    · rw [hv.others n hn]
      exact h.vacant n
  · intro other n s hother hopen
    have hold := hholds hother
    rw [peek_congr (hv.stateAt n)] at hopen
    obtain ⟨⟨x, hx⟩, hheld⟩ := h.sits other n s hold hopen
    by_cases hn : n = pending
    · subst hn
      have hne : s ≠ seat := fun heq => hfree other (heq ▸ hold)
      rw [hv.self]
      split
      · rw [Seats.leave]
        refine ⟨⟨x, (List.getElem?_set_ne (Ne.symm hne)).trans hx⟩, ?_⟩
        exact fun hs => (List.mem_cons.mp hs).elim hne hheld
      · exact ⟨⟨x, hx⟩, hheld⟩
    · rw [hv.others n hn]
      exact ⟨⟨x, hx⟩, hheld⟩
  · intro n hn
    have htold : w.Told (.pending n) → (w.giveUp pending seat).Told (.pending n) :=
      fun htold s other huntold => htold s other (of_untold_giveUp huntold)
    rcases h.expects n hn with hn | ⟨deadline, htimer⟩ | ⟨source, s, huntold⟩
    · exact .inl (htold hn)
    · exact .inr (.inl ⟨deadline, hv.timers ▸ htimer⟩)
    · by_cases hne : source = pending ∧ s = seat
      · obtain ⟨rfl, rfl⟩ := hne
        exact .inl (htold (hwaiter n huntold))
      · exact .inr (.inr ⟨source, s, (untold_giveUp hne).mpr huntold⟩)

omit h hfree hseat

/-- Giving up a seat concerns the task that had it. -/
theorem respects_giveUp (hroot : w.Rooted) (hwaiter : ∀ task, w.Untold pending seat (.task task) → X task) :
    Respects X w (w.giveUp pending seat) := by
  have hv := reseats_giveUp pending seat w
  have hrespects : Respects X w { w.giveUp pending seat with pendings := w.pendings } :=
    .of_eq hv.tasks (fun _ _ hn => hv.windows ▸ hn) (fun _ _ _ hn => hn) (fun _ hn => hv.timers ▸ hn)
      hv.clock hroot
  have htold : ∀ task, ({ w.giveUp pending seat with pendings := w.pendings } : World).Told
      (.task task) ↔ (w.giveUp pending seat).Told (.task task) := fun _ => Iff.rfl
  exact { task := hrespects.task
          window := hrespects.window
          lined := hrespects.lined
          timer := hrespects.timer
          clock := hrespects.clock
          owned := hrespects.owned
          untold := fun n s task _ hX huntold => by
            by_cases hne : n = pending ∧ s = seat
            · obtain ⟨rfl, rfl⟩ := hne
              exact absurd (hwaiter task huntold) hX
            · exact .inl ((untold_giveUp hne).mpr huntold) }

end GiveUp

/-! ## Letting go -/

/-- A pending value where nobody sits stops waiting. -/
theorem Balanced.goes {job : Job} (h : w.Balanced σ E) (hopen : w.peek pending = none)
    (hv : Restages w v pending job .gone) (hnobody : ∀ waiter s, ¬w.Holds σ waiter pending s)
    (htold : w.Told (.pending pending)) :
    v.Balanced σ E ∧ ∀ n s, ¬v.Holds σ (.pending pending) n s := by
  have huntold : ∀ {n s : Nat} {other : Waiter}, v.Untold n s other ↔ w.Untold n s other :=
    fun {n _ _} => untold_congr (hv.seatsAt n)
  have hself : ∀ n s, ¬v.Holds σ (.pending pending) n s := by
    intro n s hholds
    cases congrArg (Option.map Prod.snd) (hv.self.symm.trans hholds)
  have hholds : ∀ {other : Waiter} {n s : Nat}, v.Holds σ other n s → w.Holds σ other n s := by
    intro other n s hother
    cases other with
    | task task => exact hother
    | pending later =>
      by_cases hlater : later = pending
      · subst hlater
        exact absurd hother (hself n s)
      · rw [Holds, ← hv.others later hlater]
        exact hother
  have hpeek : ∀ n, v.peek n = w.peek n := by
    intro n
    by_cases hn : n = pending
    · rw [hn, peek_of_stateAt hv.self, hopen]
      rfl
    · exact peek_congr (hv.others n hn)
  refine ⟨⟨?_, fun n s later hn => h.forward n s later (huntold.mp hn), ?_, ?_, ?_, ?_, ?_,
    fun one other n s hone hother => h.alone one other n s (hholds hone) (hholds hother),
    fun holder other n s hholder hn => h.own holder other n s (hholds hholder) (huntold.mp hn), ?_⟩, hself⟩
  · intro task cell window hcell hwindow
    rw [hv.tasks] at hcell
    rw [hv.windows]
    exact h.rooted task cell window hcell hwindow
  · rw [hv.windows, hv.tasks]
    exact h.recent
  · intro n job' deadline hstate
    rw [hv.clock, hv.timers]
    by_cases hn : n = pending
    · subst hn
      cases congrArg (Option.map Prod.snd) (hv.self.symm.trans hstate)
    · exact h.onTime n job' deadline ((hv.others n hn).symm.trans hstate)
  · intro other n s hother
    have hne : n ≠ pending := fun heq => hnobody other s (heq ▸ hholds hother)
    rw [hv.others n hne]
    exact h.underWay other n s (hholds hother)
  · intro n
    rw [hv.seatsAt]
    exact h.vacant n
  · intro other n s hother hn
    rw [hv.seatsAt]
    exact h.sits other n s (hholds hother) ((hpeek n).symm.trans hn)
  · intro n hn
    refine (h.expects n hn).imp (fun htold s other hn => htold s other (huntold.mp hn)) fun hexp => ?_
    rcases hexp with ⟨deadline, htimer⟩ | ⟨source, s, hsource⟩
    · exact .inl ⟨deadline, hv.timers ▸ htimer⟩
    · exact .inr ⟨source, s, huntold.mpr hsource⟩

theorem Balanced.letGo (h : w.Balanced σ E) (hforsaken : w.isForsaken pending = true) :
    (w.letGo pending).Balanced σ E ∧ Respects (fun _ => False) w (w.letGo pending) := by
  unfold isForsaken at hforsaken
  cases hcell : w.pendings[pending]? with
  | none => simp [hcell] at hforsaken
  | some cell =>
    rw [hcell] at hforsaken
    cases hstage : cell.stage with
    | seated seat =>
      simp only [hstage] at hforsaken
      have hopen : w.peek pending = none := by
        rw [peek_of_getElem? hcell, hstage]
        rfl
      have hall : ∀ {s : Nat} {x : Option Waiter}, (w.seatsAt pending).seats[s]? = some x →
          s ∈ (w.seatsAt pending).vacant := by
        refine Seats.mem_vacant (h.vacant pending).1 (h.vacant pending).2 ?_
        rwa [seatsAt_of_getElem? hcell]
      have hnobody : ∀ waiter s, ¬w.Holds σ waiter pending s := by
        intro waiter s hholds
        obtain ⟨⟨x, hx⟩, hheld⟩ := h.sits waiter pending s hholds hopen
        exact hheld (hall hx)
      have htold : w.Told (.pending pending) := by
        intro s waiter huntold
        cases ((h.vacant pending).2 s (hall huntold)).symm.trans huntold
      have hfiled : Extends w { w with forsaken := w.forsaken.erase pending } :=
        .of_eq rfl rfl rfl rfl rfl
      cases hjob : cell.job with
      | after delay keeps body =>
        have hletGo : w.letGo pending = { w with forsaken := w.forsaken.erase pending } := by
          simp only [World.letGo, hcell, hjob]
        rw [hletGo]
        exact ⟨h.extends hfiled, .of_extends hfiled h.rooted⟩
      | checking source =>
        have hletGo : w.letGo pending =
            (({ w with forsaken := w.forsaken.erase pending } : World).modifyPending pending
              fun cell => { cell with stage := .gone }).giveUp source seat := by
          simp only [World.letGo, hcell, hjob, hstage]
        rw [hletGo]
        have hgone : Restages w (({ w with forsaken := w.forsaken.erase pending } : World).modifyPending
            pending fun cell => { cell with stage := .gone }) pending cell.job .gone := by
          have hrest := restages_setStage (w := { w with forsaken := w.forsaken.erase pending })
            hcell .gone
          exact ⟨hrest.clock, hrest.timers, hrest.tasks, hrest.windows, hrest.self, hrest.others,
            hrest.seatsAt⟩
        generalize ({ w with forsaken := w.forsaken.erase pending } : World).modifyPending pending
          (fun cell => { cell with stage := .gone }) = u at hgone
        obtain ⟨hu, hself⟩ := h.goes hopen hgone hnobody htold
        have hheld : w.Holds σ (.pending pending) source seat := by
          rw [Holds, stateAt_of_getElem? hcell, hjob, hstage]
        -- the seat at the source was this one's, so nobody else had it
        have huntold : ∀ {other : Waiter}, u.Untold source seat other → other = .pending pending :=
          fun hn => h.own _ _ source seat hheld ((untold_congr (hgone.seatsAt source)).mp hn)
        have hne : source ≠ pending := by
          rintro rfl
          exact hnobody _ _ hheld
        refine ⟨hu.giveUp (fun waiter hholds => ?_) (fun hsource => ?_) (fun later hn => ?_),
          (hgone.respects h.rooted).trans_all (respects_giveUp hu.rooted fun task hn => ?_) h.rooted⟩
        · cases waiter with
          | task task => cases h.alone _ (.task task) source seat hheld hholds
          | pending later =>
            by_cases hlater : later = pending
            · exact hself source seat (hlater ▸ hholds)
            · rw [Holds, hgone.others later hlater] at hholds
              cases h.alone _ (.pending later) source seat hheld hholds
              exact hlater rfl
        · rw [hgone.seatsAt]
          exact h.sits _ source seat hheld ((peek_congr (hgone.others source hne)).symm.trans hsource)
        · cases huntold hn
          exact fun s other hs => htold s other ((untold_congr (hgone.seatsAt pending)).mp hs)
        · cases huntold hn
    | _ => simp [hstage] at hforsaken

theorem Balanced.letGoOfAll (h : w.Balanced σ E) (reached : Std.HashSet Cell) (count : Nat) :
    (w.letGoOfAll reached count).Balanced σ E ∧
      Respects (fun _ => False) w (w.letGoOfAll reached count) := by
  induction count generalizing w with
  | zero => exact ⟨h, .refl w⟩
  | succ count ih =>
    simp only [World.letGoOfAll]
    split
    · rename_i pending hfind
      have hlost := List.find?_some hfind
      rw [Bool.and_eq_true] at hlost
      obtain ⟨hv, hrespects⟩ := h.letGo hlost.1
      obtain ⟨hu, hmore⟩ := ih hv
      exact ⟨hu, hrespects.trans_all hmore h.rooted⟩
    · have hfiled : Extends w { w with forsaken := w.forsaken.filter w.isForsaken } :=
        .of_eq rfl rfl rfl rfl rfl
      exact ⟨h.extends hfiled, .of_extends hfiled h.rooted⟩

/-- Whatever is out of reach, nobody misses it who waits to be told. -/
theorem Balanced.tidied (h : w.Balanced σ E) (held : List Value) :
    (w.tidied held).Balanced σ E ∧ Respects (fun _ => False) w (w.tidied held) := by
  unfold World.tidied
  split
  · exact ⟨h, .refl w⟩
  · exact h.letGoOfAll ..

/-! ## Leaving -/

/-- The seats that are given up, in order. -/
def seatsLeft (partings : List Parting) : List (Nat × Nat) := partings.filterMap Parting.seat

/-- Tasks give up the seats that they hold. -/
theorem Balanced.part (h : w.Balanced σ E) {X : Nat → Prop}
    (hclosed : ∀ n owner, w.owner? n = some owner → X owner → X n) (around : List Surrounding)
    {partings : List Parting} (hnodup : (seatsLeft partings).Nodup)
    (hheld : ∀ seat ∈ seatsLeft partings, ∃ task, X task ∧ σ task = some seat) :
    ∃ τ : Seating, (∀ n, ¬X n → τ n = σ n) ∧ (w.part around partings).Balanced τ E ∧
      Respects X w (w.part around partings) := by
  induction partings generalizing w σ with
  | nil => exact ⟨σ, fun _ _ => rfl, h, .refl w⟩
  | cons parting rest ih =>
    rw [World.part]
    cases hseat : parting.seat with
    | none =>
      have hleft : seatsLeft (parting :: rest) = seatsLeft rest := List.filterMap_cons_none hseat
      rw [hleft] at hnodup hheld
      dsimp only
      generalize rest.flatMap (·.values) ++ around.flatMap Surrounding.held = held
      obtain ⟨hv, hrespects⟩ := h.tidied held
      obtain ⟨pendings, forsaken, heq⟩ := tidied_eq w held
      have howner : ∀ n, (w.tidied held).owner? n = w.owner? n := fun n => by rw [heq]; rfl
      obtain ⟨τ, hτ, hu, hmore⟩ := ih hv (fun n owner hn => hclosed n owner (howner n ▸ hn)) hnodup hheld
      exact ⟨τ, hτ, hu, (hrespects.mono fun _ _ hX => hX.elim).trans hmore h.rooted (fun _ _ hX => hX)
        hclosed⟩
    | some place =>
      obtain ⟨pending, seat⟩ := place
      have hleft : seatsLeft (parting :: rest) = (pending, seat) :: seatsLeft rest :=
        List.filterMap_cons_some hseat
      rw [hleft] at hnodup hheld
      obtain ⟨hnew, hnodup⟩ := List.nodup_cons.mp hnodup
      obtain ⟨task, htask, hholds⟩ := hheld (pending, seat) List.mem_cons_self
      dsimp only
      generalize rest.flatMap (·.values) ++ around.flatMap Surrounding.held = held
      -- the task holds nothing any more, and so nobody holds the seat
      let ρ : Seating := Function.update σ task none
      have hρ : ∀ n place, ρ n = some place → σ n = some place ∧ n ≠ task := by
        intro n place hn
        by_cases heq : n = task
        · subst heq
          simp only [ρ, Function.update_self] at hn
          cases hn
        · exact ⟨(Function.update_of_ne heq none σ).symm.trans hn, heq⟩
      have hρholds : w.Holds σ (.task task) pending seat := hholds
      have hw : w.Balanced ρ E := h.release fun n place hn => (hρ n place hn).1
      have hfree : ∀ waiter, ¬w.Holds ρ waiter pending seat := by
        intro waiter hwaiter
        cases waiter with
        | task other =>
          obtain ⟨hother, hne⟩ := hρ other _ hwaiter
          have hsame := h.alone (.task task) (.task other) pending seat hholds hother
          cases hsame
          exact hne rfl
        | pending later => cases h.alone (.task task) (.pending later) pending seat hholds hwaiter
      have hu := hw.giveUp hfree (fun hopen => h.sits _ pending seat hρholds hopen) fun later hlater => by
        cases h.own _ _ pending seat hρholds hlater
      have hgiven : Respects X w (w.giveUp pending seat) := respects_giveUp h.rooted fun other hother => by
        cases h.own _ _ pending seat hρholds hother
        exact htask
      obtain ⟨hv, hrespects⟩ := hu.tidied held
      obtain ⟨pendings, forsaken, hgave⟩ := giveUp_eq w pending seat
      obtain ⟨pendings', forsaken', heq⟩ := tidied_eq (w.giveUp pending seat) held
      have howner : ∀ n, ((w.giveUp pending seat).tidied held).owner? n = w.owner? n :=
        fun n => by rw [heq, hgave]; rfl
      obtain ⟨τ, hτ, hx, hmore⟩ := ih hv (fun n owner hn => hclosed n owner (howner n ▸ hn)) hnodup
        fun place hplace => by
          obtain ⟨other, hother, hsome⟩ := hheld place (List.mem_cons_of_mem _ hplace)
          refine ⟨other, hother, ?_⟩
          have hne : other ≠ task := by
            rintro rfl
            rw [hholds, Option.some.injEq] at hsome
            exact hnew (hsome ▸ hplace)
          exact (Function.update_of_ne hne none σ).trans hsome
      have hgone : Respects X w ((w.giveUp pending seat).tidied held) :=
        hgiven.trans (hrespects.mono fun _ _ hX => hX.elim) h.rooted (fun _ _ hX => hX) hclosed
      refine ⟨τ, fun n hn => (hτ n hn).trans ?_, hx,
        hgone.trans hmore h.rooted (fun _ _ hX => hX) hclosed⟩
      have hne : n ≠ task := by
        rintro rfl
        exact hn htask
      exact Function.update_of_ne hne none σ

end World

end TaggedMarkup
