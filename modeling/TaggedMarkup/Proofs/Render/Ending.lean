import TaggedMarkup.Proofs.Render.Working

/-!
# Every turn ends

With enough fuel, every turn of a task that is ready for it comes to an end (`Render.turn_fares`), whatever is
rendered around it and however many members are rendered ahead. The induction is on the effort: each step takes
some, and the members of a list take less than the list.
-/

namespace TaggedMarkup

variable {n owner task effort less : Nat} {w v u : World} {σ τ : Seating} {l : Lineup}
  {stack mid rest others : List Work} {out : Output}

/-- What comes of a turn after something was done. -/
theorem Turn.Fares.after {t : Turn} (h : t.Fares n v τ task mid others out less rest u)
    (hmoves : World.Moves w v σ τ task) (hroot : w.Rooted) (hless : less < effort) :
    t.Fares n w σ task stack others out effort rest u := by
  cases h with
  | fragment hready hmoves' hout hlt =>
    exact .fragment hready (hmoves.trans hmoves' hroot) hout (Nat.lt_trans hlt hless)
  | failed hstands hmoves' herror hfirst => exact .failed hstands (hmoves.trans hmoves' hroot) herror hfirst
  | ended hstands hmoves' hout => exact .ended hstands (hmoves.trans hmoves' hroot) hout
  | blocked hready hmoves' hgoes hle _ =>
    exact .blocked hready (hmoves.trans hmoves' hroot) hgoes (by omega) (.inl (by omega))

/-- With enough fuel, a turn of a window comes to an end. -/
theorem Render.windowTurn_fares (hturn : ∀ less < effort, TurnFares n less) {around : List Surrounding}
    (h : w.Lists n σ owner l others out effort) :
    ∃ fuel t l' v, windowTurn n fuel around owner rest l w = some (t, l', v) ∧
      t.Fares n w σ owner l others out effort l' v := by
  have hroot := h.stands.balanced.rooted
  have hroom : l.members = [] → 0 < n - l.members.length := by
    intro hnone
    obtain ⟨⟨hahead, -⟩, -⟩ := h.yields
    rw [hnone, List.length_nil]
    omega
  obtain ⟨hstands, hmoves, ⟨less, hle, hyields, hprogress⟩, hempty, hlater⟩ := h.stands.draw h.yields rfl
  obtain ⟨-, htasked⟩ := h.tasked.draw owner (n - l.members.length)
  obtain ⟨deeds, hway⟩ := l.way_draw owner (n - l.members.length) w
  have hclean := h.clean.course (hway.course.frame others)
  have hidle : less < effort ∨ w.Idle (l.fill n owner w).2 owner [.ahead l] [.ahead (l.fill n owner w).1] := by
    refine hprogress.imp id fun hsame => ?_
    rw [LineupOf.fill, hsame]
    exact .refl w owner _
  change (l.fill n owner w).2.Stands σ owner [.ahead (l.fill n owner w).1] at hstands
  have hkept : (l.fill n owner w).1.members = [] → l.members = [] := fun hnone => by
    by_contra hsome
    exact LineupOf.members_draw_ne_nil hsome owner _ w hnone
  generalize hfill : l.fill n owner w = filled at *
  obtain ⟨l₁, v⟩ := filled
  rw [LineupOf.fill] at hfill
  rw [hfill] at hmoves hyields htasked hclean hempty hlater
  have hlists : v.Lists n σ owner l₁ others out less := ⟨hstands, htasked, hclean, hyields⟩
  cases hfront : l₁.front? with
  | some next =>
    obtain ⟨t, l'⟩ := next
    refine ⟨1, t, l', v, ?_, (hlists.front? hfront).after hmoves hroot h.stands.lt_size hle hidle⟩
    rw [windowTurn, LineupOf.fill, hfill]
    dsimp only
    rw [hfront]
  | none =>
    obtain ⟨fuel, t, l', u, heq, hfares⟩ := workOff_fares (fun k hk => hturn k (by omega)) hlists hfront
      (fun hnone => hempty (hroom (hkept hnone)) hnone) hlater
    refine ⟨fuel + 1, t, l', u, ?_, hfares.after hmoves hroot h.stands.lt_size hle hidle⟩
    rw [windowTurn, LineupOf.fill, hfill]
    dsimp only
    rw [hfront]
    exact heq

/-! ## Turns -/

/-- What comes out of a list in work may stand on it. -/
theorem Work.PoisedAll.passing {works : List Work} (h : Work.PoisedAll w σ task rest)
    (hworks : ∀ work ∈ works, work.isPassing = true) : Work.PoisedAll w σ task (works ++ rest) := by
  induction works with
  | nil => exact h
  | cons work more ih =>
    exact .inr ⟨hworks work List.mem_cons_self, ih fun other hother => hworks other (List.mem_cons_of_mem _ hother)⟩

namespace World

/-- A list in work stands on what is to be done afterwards. -/
theorem Stands.over (h : w.Stands σ task [.ahead l]) (hrest : ∀ other ∈ rest, other.isBusy = false) :
    w.Stands σ task (.ahead l :: rest) :=
  h.of_stack (.inl ⟨(h.poised.of_not_passing rfl).1, hrest⟩)

theorem Idle.over {l' : Lineup} (h : w.Idle v task [.ahead l] [.ahead l'])
    (hrest : ∀ other ∈ rest, other.isBusy = false) : w.Idle v task (.ahead l :: rest) (.ahead l' :: rest) where
  timers := h.timers
  told := h.told
  alerts := by
    have halerts := h.alerts
    rw [Work.alertsOfAll, Work.alertsOfAll, Work.alertsOfAll, Work.alertsOfAll] at halerts
    rw [Work.alertsOfAll, Work.alertsOfAll, Work.alertsOfAll_of_not_busy hrest,
      Work.alertsOfAll_of_not_busy hrest]
    exact halerts

theorem GoesOn.over (h : w.GoesOn task [.ahead l]) : w.GoesOn task (.ahead l :: rest) := h

/-- A list in work on top of a stack is a list in work. -/
theorem Ready.lists (h : w.Ready n σ task (.ahead l :: rest) others out effort) :
    ∃ first last less more, w.Lists n σ task l (Work.piecesOfAll rest ++ others) first less ∧
      Work.YieldsAll n w rest last more ∧ out = first ++ last ∧ less + more ≤ effort := by
  obtain ⟨first, last, less, more, hahead, hrest, hout, hle⟩ := h.yields
  have hclean := h.clean
  have hpieces : Work.piecesOfAll (.ahead l :: rest) ++ others =
      l.pieces ++ (Work.piecesOfAll rest ++ others) := List.append_assoc ..
  rw [hpieces] at hclean
  exact ⟨first, last, less, more, ⟨h.stands.of_stack (.inl ⟨(h.stands.poised.of_not_passing rfl).1, nofun⟩),
    ⟨h.tasked.1.1, h.tasked.1.2⟩, hclean, hahead⟩, hrest, hout, hle⟩

/-- A list that is over leaves what is to be done afterwards. -/
theorem Ready.clean_over (h : w.Ready n σ task (.ahead l :: rest) others out effort) {deeds : List Deed}
    {pieces : List Work} (hcourse : Course w l.pieces deeds v pieces) :
    Clean v (Work.piecesOfAll rest ++ others) := by
  obtain ⟨first, last, less, more, hlists, -⟩ := h.lists
  exact (hlists.clean.course (hcourse.frame _)).only (List.sublist_append_right ..).subperm

end World

/-- What is left to do after a step. -/
theorem World.Ready.step {work : Work} (h : w.Ready n σ task (work :: rest) others out effort)
    (hstepped : work.isStepped = true) {works : List Work} (hstep : work.step n task w = (.next works, v))
    (held : List Value) :
    ∃ less < effort, (v.tidied held).Ready n σ task (works ++ rest) others out less ∧
      Moves w (v.tidied held) σ σ task := by
  obtain ⟨first, last, cost, more, hwork, hrest, rfl, hle⟩ := h.yields
  have hcourse := (Work.way_step rest hstepped hstep).course.frame others
  have htaken : ∀ cell, work = .item (.sequence cell) → w.isTaken cell = false := by
    rintro cell rfl
    exact h.clean.isTaken List.mem_cons_self
  obtain ⟨hstands, hmoves, paid, hpaid, hyields⟩ := h.stands.next hwork h.clean.inOrder hstepped htaken hstep
  obtain ⟨htidy, htidied⟩ := hstands.tidied held
  have hv := Becomes.step hstep
  have hseen : v.Becomes (v.tidied held) := .hidden .refl (seen_tidied ..)
  have hsize : (v.tidied held).tasks.size = w.tasks.size := by
    have hstepSize := Work.size_tasks_step w n task work
    rw [hstep] at hstepSize
    rw [tasks_tidied, hstepSize]
  have htasked : (work.step n task w).1.Tasked w.tasks.size := Work.tasked_step h.tasked.1 w
  rw [hstep] at htasked
  refine ⟨paid + more, by omega, ⟨htidy, ?_, ?_, ?_⟩, hmoves.trans htidied h.stands.balanced.rooted⟩
  · rw [hsize]
    exact Work.taskedAll_append htasked h.tasked.2
  · have hclean := (h.clean.course hcourse).hidden (seen_tidied v held)
    rwa [Progress.pieces, ← Work.piecesOfAll_append] at hclean
  · exact (hyields.append (hrest.becomes hv)).becomes hseen

/-- A step that has to wait. -/
theorem World.Ready.wait {work waiting : Work} (h : w.Ready n σ task (work :: rest) others out effort)
    (hstepped : work.isStepped = true) (hstep : work.step n task w = (.wait waiting, v)) :
    Turn.Fares n w σ task (work :: rest) others out effort .blocked (waiting :: rest) v := by
  obtain ⟨first, last, cost, more, hwork, hrest, rfl, hle⟩ := h.yields
  have hcourse := (Work.way_step rest hstepped hstep).course.frame others
  obtain ⟨τ, hstands, hmoves, hwaits, paid, hpaid, hyields, hprogress⟩ :=
    h.stands.wait hwork h.clean.inOrder hstepped hstep
  have hsize : v.tasks.size = w.tasks.size := by
    have hstepSize := Work.size_tasks_step w n task work
    rwa [hstep] at hstepSize
  have htasked : (work.step n task w).1.Tasked w.tasks.size := Work.tasked_step h.tasked.1 w
  rw [hstep] at htasked
  have hpieces : Work.piecesOfAll (waiting :: rest) = waiting :: Work.piecesOfAll rest := by
    rw [Work.piecesOfAll, Work.pieces_stepped (Work.isStepped_wait hstepped hstep)]
    rfl
  have hready : v.Ready n τ task (waiting :: rest) others (first ++ last) (paid + more) := by
    refine ⟨hstands, hsize ▸ ⟨htasked, h.tasked.2⟩, ?_, _, _, _, _, hyields, hrest.becomes (.step hstep), rfl,
      Nat.le_refl _⟩
    have hclean := h.clean.course hcourse
    rwa [Progress.pieces, List.singleton_append, ← hpieces] at hclean
  exact .blocked hready hmoves (.inr hwaits) (by omega) (hprogress.imp (fun hlt => by omega) id)

/-- The member that is through stands on its list, to be handed on. -/
theorem World.Lists.through (h : w.Lists n σ task l (Work.piecesOfAll rest ++ others) out less)
    (hbelow : ∀ other ∈ rest, other.isBusy = false) (htasked : Work.TaskedAll w.tasks.size rest)
    {last : Output} {more : Nat} (hrest : Work.YieldsAll n w rest last more) (number : Nat)
    (fragments : List String) :
    w.Ready n σ task (fragments.map .emit ++ [.note (.left l.window number)] ++ .ahead l :: rest) others
      (fragments.map .ok ++ (out ++ last)) (fragments.length + 1 + (less + more)) where
  stands := by
    have hstands := h.stands.over hbelow
    exact hstands.of_stack (hstands.poised.passing (Work.isPassing_through fragments l.window number))
  tasked := Work.taskedAll_through fragments l.window number h.tasked htasked
  clean := by
    have hcourse : Course w (l.pieces ++ (Work.piecesOfAll rest ++ others)) [] w
        (.note (.left l.window number) :: (l.pieces ++ (Work.piecesOfAll rest ++ others))) :=
      Course.refl.through l.window number
    rw [Work.piecesOfAll_through, List.cons_append, List.append_assoc]
    exact h.clean.course hcourse
  yields := by
    have hlist : Work.YieldsAll n w (.ahead l :: rest) (out ++ last) (less + more) :=
      ⟨_, _, _, _, h.yields, hrest, rfl, Nat.le_refl _⟩
    have hout := ((Work.yieldsAll_emit fragments).append (Work.yieldsAll_note (.left l.window number))).append hlist
    rwa [List.append_nil] at hout

/-- With enough fuel, every turn comes to an end. -/
theorem Render.turn_fares (n effort : Nat) : TurnFares n effort := by
  induction effort using Nat.strong_induction_on with
  | _ effort ih =>
    intro around task stack others out w σ h
    have hroot := h.stands.balanced.rooted
    match stack with
    | [] => exact ⟨1, .ended, [], w, by rw [turn], .ended h.stands (.refl w σ task) h.yields⟩
    | work :: rest =>
      by_cases hstepped : work.isStepped = true
      · cases hstep : work.step n task w with
        | mk progress v =>
          cases progress with
          | next works =>
            obtain ⟨less, hless, hready, hmoves⟩ := h.step hstepped hstep
              (Work.heldByAll (works ++ rest) ++ around.flatMap Surrounding.held)
            obtain ⟨fuel, t, left, u, heq, hfares⟩ := ih less hless around hready
            exact ⟨fuel + 1, t, left, u, (turn_step hstepped hstep).trans heq, hfares.after hmoves hroot hless⟩
          | wait waiting =>
            exact ⟨1, .blocked, waiting :: rest, v, turn_wait hstepped hstep, h.wait hstepped hstep⟩
      · cases work with
        | emit text =>
          obtain ⟨last, less, hless, hrest, hout⟩ := h.yields.emit
          have hready : w.Ready n σ task rest others last less :=
            ⟨h.stands.of_stack h.stands.poised.tail, h.tasked.2, h.clean, hrest⟩
          exact ⟨1, .fragment text, rest, w, by rw [turn], .fragment hready (.refl w σ task) hout hless⟩
        | fail error =>
          obtain ⟨last, rfl⟩ := h.yields.fail
          exact ⟨1, .failed error, rest, w, by rw [turn],
            .failed (h.stands.of_stack h.stands.poised.tail) (.refl w σ task) rfl fun _ => ⟨last, rfl⟩⟩
        | ahead l =>
          obtain ⟨first, last, less, more, hlists, hrest, rfl, hle⟩ := h.lists
          have hbelow := (h.stands.poised.of_not_passing rfl).2
          have hwindow : ∃ fuel t l' v, windowTurn n fuel around task rest l w = some (t, l', v) ∧
              t.Fares n w σ task l (Work.piecesOfAll rest ++ others) first less l' v :=
            windowTurn_fares (fun k hk => ih k (by omega)) hlists
          obtain ⟨fuel, t, l', v, heq, hfares⟩ := hwindow
          have hless : less ≠ 0 := by
            obtain ⟨-, _, _, _, _, -, -, -, hcost⟩ := hlists.yields
            omega
          obtain ⟨-, -, -, deeds, hway⟩ := (TakesCourse.all n fuel).windowTurn hlists.tasked heq
          have hlater := hrest.becomes (.course hway.course)
          cases hfares with
          | @through number fragments l' v τ later paid hafter hmoves hout hpaid =>
            subst hout
            have htasked := h.tasked.2.mono hmoves.respects.size
            have hready := hafter.through hbelow htasked hlater number fragments
            obtain ⟨fuel', t, left, u, heq', hfares⟩ := ih _ (by omega) around hready
            refine ⟨max fuel fuel' + 1, t, left, u, ?_, ?_⟩
            · rw [turn, windowTurn_mono (Nat.le_max_left ..) heq]
              exact turn_mono (Nat.le_max_right ..) heq'
            · rw [List.append_assoc]
              exact hfares.after hmoves hroot (by omega)
          | @failed error l' v τ hstands hmoves herror =>
            refine ⟨fuel + 1, .failed error, .ahead l' :: rest, v, by rw [turn, heq],
              .failed (hstands.over hbelow) hmoves ?_ fun hone => absurd hlists.yields.1.1 (Nat.not_lt.mpr hone)⟩
            rw [Output.error?_append, herror, Option.some_or]
          | @ended l' v τ hstands hmoves hout =>
            subst hout
            let held : List Value := Work.heldByAll rest ++ around.flatMap Surrounding.held
            obtain ⟨htidy, htidied⟩ :=
              (hstands.of_stack (Work.poisedAll_of_not_busy hbelow)).tidied held
            have hover := (h.clean_over hway.course).hidden (World.seen_tidied v held)
            have hsize := (World.tasks_tidied v held).symm ▸ h.tasked.2.mono hmoves.respects.size
            have hready : (v.tidied held).Ready n τ task rest others last more :=
              ⟨htidy, hsize, hover, hlater.becomes (.hidden .refl (World.seen_tidied ..))⟩
            obtain ⟨fuel', t, left, u, heq', hfares⟩ := ih more (by omega) around hready
            refine ⟨max fuel fuel' + 1, t, left, u, ?_,
              hfares.after (hmoves.trans htidied hroot) hroot (by omega)⟩
            rw [turn, windowTurn_mono (Nat.le_max_left ..) heq]
            exact turn_mono (Nat.le_max_right ..) heq'
          | @blocked l' v τ paid hafter hmoves hgoes hpaid hprogress =>
            refine ⟨fuel + 1, .blocked, .ahead l' :: rest, v, by rw [turn, heq], ?_⟩
            have hclean : Clean v (Work.piecesOfAll (.ahead l' :: rest) ++ others) := by
              rw [Work.piecesOfAll, List.append_assoc]
              exact hafter.clean
            have hready : v.Ready n τ task (.ahead l' :: rest) others (first ++ last) (paid + more) :=
              ⟨hafter.stands.over hbelow, ⟨⟨hafter.tasked.nodup, hafter.tasked.below⟩,
                h.tasked.2.mono hmoves.respects.size⟩, hclean, _, _, _, _, hafter.yields, hlater, rfl, Nat.le_refl _⟩
            exact .blocked hready hmoves hgoes.over (by omega)
              (hprogress.imp (fun hlt => by omega) fun hidle => hidle.over hbelow)
        | _ => exact absurd rfl hstepped

end TaggedMarkup
