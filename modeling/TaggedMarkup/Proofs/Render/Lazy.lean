import TaggedMarkup.Proofs.Render.Asking
import TaggedMarkup.Proofs.Render.Turning
import TaggedMarkup.Render.Stream

/-!
# Rendering is lazy

Without rendering ahead, a render does what the reference traversal (`Visit`) does, and **no more
than it needs** for the fragment that is asked for: at each fragment, and at the error or the end,
the log is the one that the traversal has there.

`Gives` tells the way of a render turn by turn, and `Plays` says that a stack plays a visit: whatever
else is on the stack goes on where the visit ends. Each rule of rendering plays the same rule of the
traversal; the rest is putting pieces one after the other.
-/

namespace TaggedMarkup

/-- What a render gives from the middle of a turn on: its fragments, each with the log as it is then,
and at last the error or the end, with the log in that moment. -/
inductive Gives (ahead task : Nat) :
    List Work → World → List Fragment → Option Error → List (Nat × Event) → Prop
  | ended {w : World} : Gives ahead task [] w [] none w.log
  | failed {error : Error} {rest : List Work} {w : World} :
    Gives ahead task (.fail error :: rest) w [] (some error) w.log
  /-- a fragment ends the turn -/
  | fragment {text : String} {rest : List Work} {w : World} {out : List Fragment}
    {failure : Option Error} {log : List (Nat × Event)} :
    Gives ahead task rest (w.beginTurn task) out failure log →
      Gives ahead task (.emit text :: rest) w (⟨text, w.log⟩ :: out) failure log
  | step {work : Work} {works rest : List Work} {w v : World} {out : List Fragment}
    {failure : Option Error} {log : List (Nat × Event)} : work.isStepped = true →
    work.step ahead task w = (.next works, v) →
      Gives ahead task (works ++ rest) (v.tidied (Work.heldByAll (works ++ rest))) out failure log →
        Gives ahead task (work :: rest) w out failure log
  /-- the task was told to go on during the turn -/
  | again {work waiting : Work} {rest : List Work} {w v : World} {out : List Fragment}
    {failure : Option Error} {log : List (Nat × Event)} : work.isStepped = true →
    work.step ahead task w = (.wait waiting, v) → v.isWoken task = true →
      Gives ahead task (waiting :: rest) (v.beginTurn task) out failure log →
        Gives ahead task (work :: rest) w out failure log
  /-- the clock moves on -/
  | later {work waiting : Work} {rest : List Work} {w v u : World} {out : List Fragment}
    {failure : Option Error} {log : List (Nat × Event)} : work.isStepped = true →
    work.step ahead task w = (.wait waiting, v) → v.isWoken task = false → v.advance? = some u →
      Gives ahead task (waiting :: rest) (u.beginTurn task) out failure log →
        Gives ahead task (work :: rest) w out failure log

/-! ## Waiting -/

namespace World

/-- It gets less whenever a task has waited in vain. -/
def unrest (task : Nat) (w : World) : Nat := 2 * w.timers.length + (w.isWoken task).toNat

theorem isWoken_beginTurn (task : Nat) (w : World) : (w.beginTurn task).isWoken task = false := by
  unfold isWoken beginTurn modifyTask
  rw [Array.getElem?_modify, if_pos rfl]
  cases w.tasks[task]? <;> rfl

theorem unrest_beginTurn (task : Nat) (w : World) :
    (w.beginTurn task).unrest task = 2 * w.timers.length := by
  rw [unrest, isWoken_beginTurn]
  rfl

end World

variable {ahead task : Nat}

/-- A task that waits gets its next turn not later than the deadline of any timer there is. -/
theorem Gives.wait {work waiting : Work} {rest : List Work} {w v : World} {out : List Fragment}
    {failure : Option Error} {log : List (Nat × Event)} {deadline : Nat}
    (hstepped : work.isStepped = true) (hstep : work.step ahead task w = (.wait waiting, v))
    (hv : v.OnTime) (hdeadline : deadline ∈ v.timers.map (·.deadline))
    (h : ∀ (u : World) (moment : Nat), u.OnTime → v.TimersKept u → moment ≤ deadline →
      u.seen = v.seen.sleepUntil moment → u.unrest task < v.unrest task →
        Gives ahead task (waiting :: rest) u out failure log) :
    Gives ahead task (work :: rest) w out failure log := by
  by_cases hwoken : v.isWoken task = true
  · refine .again hstepped hstep hwoken (h _ 0 (hv.congr rfl rfl) ?_ (Nat.zero_le _) ?_ ?_)
    · exact fun d hd => .inr hd
    · rw [World.sleepUntil, Nat.max_eq_left (Nat.zero_le _)]
      rfl
    · rw [World.unrest_beginTurn, World.unrest, hwoken]
      exact Nat.lt_succ_self _
  · rw [Bool.not_eq_true] at hwoken
    obtain ⟨u, earliest, hadvance, hseen, hle, hlength, hu, hkept⟩ :=
      World.advance?_eq_some hv hdeadline
    refine .later hstepped hstep hwoken hadvance (h _ earliest (hu.congr rfl rfl) hkept hle hseen ?_)
    rw [World.unrest_beginTurn, World.unrest]
    omega

/-- A pending value that hangs is asked again and again, until its outcome is there. -/
theorem Gives.await_hanging {cell deadline : Nat} {resumption : Resumption} {rest : List Work}
    {w r : World} {o : Outcome} {out : List Fragment} {failure : Option Error}
    {log : List (Nat × Event)} (hw : w.OnTime) (hhangs : w.seen.Hangs deadline cell)
    (ho : w.seen.outcome (cell + 1) cell = some (o, r))
    (hrest : ∀ v : World, v.OnTime → v.seen = r →
      Gives ahead task (Render.resume resumption o ++ rest) v out failure log)
    (seat : Option Nat) :
    Gives ahead task (.await cell seat resumption :: rest) w out failure log := by
  induction hn : w.unrest task using Nat.strongRecOn generalizing w seat with
  | ind n ih =>
    have hcomes := World.ask_comes_to hw ho (.task task) seat
    have hask := hhangs.ask rfl (Nat.lt_succ_self cell) (.task task) seat
    by_cases hle : deadline ≤ w.clock
    · rw [if_pos hle] at hask
      obtain ⟨o', v, hask⟩ := hask
      rw [hask] at hcomes
      obtain ⟨hsame, hv⟩ := hcomes
      cases hsame
      refine .step rfl ?_ (hrest _ (hv.tidied _) (World.seen_tidied ..))
      rw [Work.step, World.await, hask]
    · rw [if_neg hle] at hask
      obtain ⟨seat', v, hask, hsame⟩ := hask
      have hv : v.OnTime := hw.congr hsame.seen hsame.timers
      have hclock : v.clock = w.clock := World.clock_of_seen hsame.seen
      have hhangs' : v.seen.Hangs deadline cell := hsame.seen ▸ hhangs
      have htimer := hhangs'.timer hv (by omega)
      have hstep : (Work.await cell seat resumption).step ahead task w =
          (.wait (.await cell (some seat') resumption), v) := by
        rw [Work.step, World.await, hask]
      refine Gives.wait rfl hstep hv htimer ?_
      intro u moment hu _ hmoment hseen hunrest
      have hless : u.unrest task < n := by
        have hsame : v.unrest task = w.unrest task := by
          rw [World.unrest, World.unrest, World.isWoken, World.isWoken, hsame.timers, hsame.tasks]
        omega
      refine ih _ hless hu ?_ ?_ (some seat') rfl
      · rw [hseen]
        exact hhangs'.sleepUntil moment
      · rw [hseen, hhangs'.outcome_sleepUntil _ hmoment, hsame.seen]
        exact ho

/-- A pending value is asked until its outcome is there, in the world of the reference. -/
theorem Gives.await {cell : Nat} {resumption : Resumption} {rest : List Work} {w r : World}
    {o : Outcome} {out : List Fragment} {failure : Option Error} {log : List (Nat × Event)}
    (hw : w.OnTime) (ho : w.seen.outcome (cell + 1) cell = some (o, r))
    (hrest : ∀ v : World, v.OnTime → v.seen = r →
      Gives ahead task (Render.resume resumption o ++ rest) v out failure log)
    (seat : Option Nat) :
    Gives ahead task (.await cell seat resumption :: rest) w out failure log := by
  have hcomes := World.ask_comes_to hw ho (.task task) seat
  cases hask : w.ask (cell + 1) (.task task) cell seat with
  | mk answer v =>
    rw [hask] at hcomes
    cases answer with
    | ready o' =>
      obtain ⟨hsame, hv⟩ := hcomes
      cases hsame
      refine .step rfl ?_ (hrest _ (hv.tidied _) (World.seen_tidied ..))
      rw [Work.step, World.await, hask]
    | notYet seat' =>
      obtain ⟨hv, ⟨deadline, hclock, hhangs⟩, hahead, -⟩ := hcomes
      have hstep : (Work.await cell seat resumption).step ahead task w =
          (.wait (.await cell (some seat') resumption), v) := by
        rw [Work.step, World.await, hask]
      refine Gives.wait rfl hstep hv (hhangs.timer hv hclock) ?_
      intro u moment hu _ hmoment hseen _
      have hhangs' : u.seen.Hangs deadline cell := by
        rw [hseen]
        exact hhangs.sleepUntil moment
      refine Gives.await_hanging hu hhangs' ?_ hrest (some seat')
      rw [hseen, hhangs.outcome_sleepUntil _ hmoment]
      exact hahead

/-- A member that is not ready yet is drawn as soon as it is. -/
theorem Gives.draw {sequence index : Nat} {label : Option String} {delay deadline : Nat}
    {value : Value} {members : List (Nat × Value)} {rest : List Work} {w : World}
    {out : List Fragment} {failure : Option Error} {log : List (Nat × Event)} (hw : w.OnTime)
    (htimer : deadline ≤ w.clock ∨ deadline ∈ w.timers.map (·.deadline))
    (hrest : ∀ v : World, v.OnTime →
      v.seen = (w.seen.sleepUntil deadline).note (.drawn sequence label index) →
        Gives ahead task (.item value :: .draw ⟨some (sequence, label), index + 1, members, none⟩ ::
          rest) v out failure log) :
    Gives ahead task (.draw ⟨some (sequence, label), index, (delay, value) :: members,
      some deadline⟩ :: rest) w out failure log := by
  induction hn : w.unrest task using Nat.strongRecOn generalizing w with
  | ind n ih =>
    by_cases hle : deadline ≤ w.clock
    · have hnow : w.seen.sleepUntil deadline = w.seen := by
        rw [World.sleepUntil, World.seen_clock, Nat.max_eq_left hle]
        rfl
      have hstep : (Work.draw ⟨some (sequence, label), index, (delay, value) :: members,
          some deadline⟩).step ahead task w =
            (.next [.item value, .draw ⟨some (sequence, label), index + 1, members, none⟩],
              w.note (.drawn sequence label index)) := by
        simp only [Work.step, Feed.draw, if_pos hle]
        rfl
      have hnoted : (w.note (.drawn sequence label index)).OnTime := hw.kept (World.kept_note _ w)
      refine .step rfl hstep (hrest _ (hnoted.tidied _) ?_)
      rw [World.seen_tidied, World.seen_note, hnow]
    · have hstep : (Work.draw ⟨some (sequence, label), index, (delay, value) :: members,
          some deadline⟩).step ahead task w =
            (.wait (.draw ⟨some (sequence, label), index, (delay, value) :: members,
              some deadline⟩), w) := by
        simp only [Work.step, Feed.draw, if_neg hle]
      refine Gives.wait rfl hstep hw (htimer.resolve_left hle) ?_
      intro u moment hu hkept hmoment hseen hunrest
      refine ih _ (hn ▸ hunrest) hu ?_ ?_ rfl
      · exact htimer.elim (fun h => absurd h hle) (hkept deadline)
      · intro v hv hdrawn
        refine hrest v hv ?_
        rw [hdrawn, hseen, World.sleepUntil_sleepUntil _ hmoment]

/-- The next member is drawn when it is ready, which may be at once. -/
theorem Gives.drawNext {sequence index : Nat} {label : Option String} {delay : Nat} {value : Value}
    {members : List (Nat × Value)} {rest : List Work} {w : World} {out : List Fragment}
    {failure : Option Error} {log : List (Nat × Event)} (hw : w.OnTime)
    (hrest : ∀ v : World, v.OnTime →
      v.seen = (w.seen.sleepUntil (w.clock + delay)).note (.drawn sequence label index) →
        Gives ahead task (.item value :: .draw ⟨some (sequence, label), index + 1, members, none⟩ ::
          rest) v out failure log) :
    Gives ahead task (.draw ⟨some (sequence, label), index, (delay, value) :: members, none⟩ :: rest)
      w out failure log := by
  by_cases hready : delay = 0
  · have hstep : (Work.draw ⟨some (sequence, label), index, (delay, value) :: members,
        none⟩).step ahead task w =
          (.next [.item value, .draw ⟨some (sequence, label), index + 1, members, none⟩],
            w.note (.drawn sequence label index)) := by
      simp only [Work.step, Feed.draw, if_pos hready]
      rfl
    have hnoted : (w.note (.drawn sequence label index)).OnTime := hw.kept (World.kept_note _ w)
    refine .step rfl hstep (hrest _ (hnoted.tidied _) ?_)
    rw [World.seen_tidied, World.seen_note, hready, World.sleepUntil, World.seen_clock,
      Nat.add_zero, Nat.max_self]
    rfl
  · have hstep : (Work.draw ⟨some (sequence, label), index, (delay, value) :: members,
        none⟩).step ahead task w =
          (.wait (.draw ⟨some (sequence, label), index, (delay, value) :: members,
            some (w.clock + delay)⟩), w.setTimer delay (.task task)) := by
      simp only [Work.step, Feed.draw, if_neg hready]
    have htimer := w.mem_setTimer delay (.task task)
    refine Gives.wait rfl hstep (hw.setTimer delay _) htimer ?_
    intro u moment hu hkept hmoment hseen _
    refine Gives.draw hu (hkept _ htimer) fun v hv hdrawn => hrest v hv ?_
    rw [hdrawn, hseen, World.sleepUntil_sleepUntil _ hmoment, World.seen_setTimer]

/-- The pieces of work do what the visit does, and what is to be done afterwards goes on from there. -/
structure Plays (ahead task : Nat) (works : List Work) (visit : Visit Unit) : Prop where
  failed : ∀ {w r : World} {fragments : List Fragment} {error : Error} {rest : List Work},
    w.OnTime → visit w.seen = some (fragments, .error error, r) →
      Gives ahead task (works ++ rest) w fragments (some error) r.log
  through : ∀ {w r : World} {fragments out : List Fragment} {rest : List Work}
    {failure : Option Error} {log : List (Nat × Event)},
    w.OnTime → visit w.seen = some (fragments, .ok (), r) →
      (∀ v : World, v.OnTime → v.seen = r → Gives ahead task rest v out failure log) →
        Gives ahead task (works ++ rest) w (fragments ++ out) failure log

namespace Plays

variable {works more : List Work} {work : Work} {visit next : Visit Unit}

/-! ## Pieces one after the other -/

theorem done : Plays ahead task [] (Visit.done ()) where
  failed _ hvisit := by cases hvisit
  through hw hvisit hrest := by
    cases hvisit
    exact hrest _ hw rfl

theorem fail (error : Error) : Plays ahead task [.fail error] (Visit.fail error) where
  failed _ hvisit := by
    cases hvisit
    exact .failed
  through _ hvisit _ := by cases hvisit

theorem emit (text : String) : Plays ahead task [.emit text] (Visit.emit text) where
  failed _ hvisit := by cases hvisit
  through {w r fragments out rest failure log} hw hvisit hrest := by
    cases hvisit
    exact .fragment (hrest (w.beginTurn task) (hw.congr rfl rfl) rfl)

theorem andThen (h : Plays ahead task works visit) (hnext : Plays ahead task more next) :
    Plays ahead task (works ++ more) (visit >>= fun _ => next) where
  failed {w r fragments error rest} hw hvisit := by
    rw [List.append_assoc]
    rcases Visit.andThen_failed hvisit with hfirst | ⟨_, first, second, u, hfirst, hsecond, rfl⟩
    · exact h.failed hw hfirst
    · refine h.through hw hfirst fun v hv hseen => ?_
      rw [← hseen] at hsecond
      exact hnext.failed hv hsecond
  through {w r fragments out rest failure log} hw hvisit hrest := by
    obtain ⟨_, first, second, u, hfirst, hsecond, rfl⟩ := Visit.andThen_through hvisit
    rw [List.append_assoc, List.append_assoc]
    refine h.through hw hfirst fun v hv hseen => ?_
    rw [← hseen] at hsecond
    exact hnext.through hv hsecond hrest

theorem cons (h : Plays ahead task [work] visit) (hnext : Plays ahead task more next) :
    Plays ahead task (work :: more) (visit >>= fun _ => next) := h.andThen hnext

theorem each {α : Type} {piece : α → Work} {visit : α → Visit Unit}
    (h : ∀ a, Plays ahead task [piece a] (visit a)) (as : List α) :
    Plays ahead task (as.map piece) (Visit.each visit as) := by
  induction as with
  | nil => exact done
  | cons a rest ih => exact (h a).cons ih

/-! ## One step -/

/-- A step that shows as a change of the world plays that change. What has got out of reach is let go
of afterwards, which does not show. -/
theorem act {α : Type} {f : World → α × World} (works : α → List Work) {visit : α → Visit Unit}
    (hstepped : work.isStepped = true)
    (hstep : ∀ w : World, w.OnTime → ∃ v, v.OnTime ∧ v.seen = (f w.seen).2 ∧
      work.step ahead task w = (.next (works (f w.seen).1), v))
    (h : ∀ a, Plays ahead task (works a) (visit a)) :
    Plays ahead task [work] (Visit.act f >>= visit) where
  failed {w r fragments error rest} hw hvisit := by
    obtain ⟨v, hv, hseen, hwork⟩ := hstep w hw
    rw [Visit.act_bind, ← hseen] at hvisit
    refine .step hstepped hwork ((h _).failed (hv.tidied _) ?_)
    rw [World.seen_tidied]
    exact hvisit
  through {w r fragments out rest failure log} hw hvisit hrest := by
    obtain ⟨v, hv, hseen, hwork⟩ := hstep w hw
    rw [Visit.act_bind, ← hseen] at hvisit
    refine .step hstepped hwork ((h _).through (hv.tidied _) ?_ hrest)
    rw [World.seen_tidied]
    exact hvisit

/-- A step that does not show at all. -/
theorem unfold (hstepped : work.isStepped = true)
    (hstep : ∀ w, work.step ahead task w = (.next works, w)) (h : Plays ahead task works visit) :
    Plays ahead task [work] visit where
  failed {w r fragments error rest} hw hvisit := by
    refine .step hstepped (hstep w) (h.failed (hw.tidied _) ?_)
    rw [World.seen_tidied]
    exact hvisit
  through {w r fragments out rest failure log} hw hvisit hrest := by
    refine .step hstepped (hstep w) (h.through (hw.tidied _) ?_ hrest)
    rw [World.seen_tidied]
    exact hvisit

theorem resume {resumption : Resumption} {visit : Value → Visit Unit}
    (h : ∀ value, Plays ahead task (Render.resume resumption (.ok value)) (visit value))
    (o : Outcome) : Plays ahead task (Render.resume resumption o) (Visit.ofOutcome o >>= visit) := by
  cases o with
  | error error =>
    rw [Visit.ofOutcome, Visit.fail_bind]
    exact fail error
  | ok value =>
    rw [Visit.ofOutcome, Visit.done_bind]
    exact h value

theorem await {cell : Nat} {resumption : Resumption} {visit : Value → Visit Unit}
    (h : ∀ value, Plays ahead task (Render.resume resumption (.ok value)) (visit value))
    (seat : Option Nat) :
    Plays ahead task [.await cell seat resumption] (Visit.awaited cell >>= visit) where
  failed {w r fragments error rest} hw hvisit := by
    obtain ⟨o, u, ho⟩ := Visit.outcome_of_awaited hvisit
    rw [Visit.awaited_bind ho] at hvisit
    refine Gives.await hw ho (fun v hv hseen => ?_) seat
    rw [← hseen] at hvisit
    exact (resume h o).failed hv hvisit
  through {w r fragments out rest failure log} hw hvisit hrest := by
    obtain ⟨o, u, ho⟩ := Visit.outcome_of_awaited hvisit
    rw [Visit.awaited_bind ho] at hvisit
    refine Gives.await hw ho (fun v hv hseen => ?_) seat
    rw [← hseen] at hvisit
    exact (resume h o).through hv hvisit hrest

/-! ## The rules -/

theorem note {event : Event} (hstepped : work.isStepped = true)
    (hstep : ∀ w, work.step ahead task w = (.next [], w.note event)) :
    Plays ahead task [work] (Visit.note event) := by
  rw [← Visit.bind_done (Visit.note event)]
  refine act (fun _ => []) hstepped (fun w hw => ?_) fun _ => done
  exact ⟨w.note event, hw.kept (World.kept_note event w), World.seen_note w event, hstep w⟩

theorem prop (name : String) (value : Value) :
    Plays ahead task [.prop name value] (Visit.prop name value) := by
  unfold Visit.prop
  by_cases hskipped : Render.isSkipped value = true
  · rw [if_pos hskipped]
    refine unfold rfl (fun w => ?_) done
    rw [Work.step, Render.prop, if_pos hskipped]
  · rw [if_neg hskipped]
    by_cases hname : (!Name.isAttribute name) = true
    · rw [if_pos hname]
      refine unfold rfl (fun w => ?_) (fail _)
      rw [Work.step, Render.prop, if_neg hskipped, if_pos hname]
    · rw [if_neg hname]
      cases htext : Render.attributeText? name value with
      | some text =>
        refine unfold rfl (fun w => ?_) (emit text)
        rw [Work.step, Render.prop, if_neg hskipped, if_neg hname, htext]
      | none =>
        refine note rfl fun w => ?_
        rw [Work.step, Render.prop, if_neg hskipped, if_neg hname, htext]

theorem markup (value : Value) : Plays ahead task [Render.markup value] (Visit.markup value) := by
  cases value with
  | str text => exact emit text
  | _ => exact fail _

section Sequential

variable (hahead : ahead ≤ 1) {item : Value → Visit Unit}
  (hitem : ∀ value, Plays ahead task [.item value] (item value))

include hahead hitem

theorem children (e : Element) :
    Plays ahead task [.children e] (Visit.each item e.children) := by
  refine unfold rfl (fun w => ?_) (each hitem e.children)
  rw [Work.step, Render.members, if_pos hahead]

theorem tag (name : String) (e : Element) :
    Plays ahead task (Render.tag name e) (Visit.tag item name e) := by
  have hprops : Plays ahead task (e.props.map fun p => .prop p.1 p.2)
      (Visit.each (fun p => Visit.prop p.1 p.2) e.props) := each (fun p => prop p.1 p.2) e.props
  unfold Render.tag Visit.tag
  by_cases hvoid : Name.isVoid name = true
  · rw [if_pos hvoid, if_pos hvoid]
    exact (emit _).cons (hprops.andThen (emit _))
  · rw [if_neg hvoid, if_neg hvoid]
    by_cases htag : Name.isTag (Case.lowered name) = true
    · rw [if_pos htag, if_pos htag]
      exact (emit _).cons (hprops.andThen ((emit _).cons ((children hahead hitem e).cons (emit _))))
    · rw [if_neg htag, if_neg htag]
      exact fail _

omit hahead in
theorem result (raw : Bool) (outcome : Outcome) :
    Plays ahead task (Render.result raw outcome)
      (Visit.ofOutcome outcome >>= Visit.called item raw) := by
  cases outcome with
  | error error =>
    rw [Visit.ofOutcome, Visit.fail_bind]
    exact fail error
  | ok value =>
    rw [Visit.ofOutcome, Visit.done_bind]
    have hmarkup : ∀ value,
        Plays ahead task (Render.resume .markup (.ok value)) (Visit.markup value) := markup
    cases raw with
    | false => exact hitem value
    | true =>
      cases value with
      | pending cell => exact await hmarkup none
      | _ => exact markup _

/-- The rule for an element, for any piece of work that comes to it. -/
theorem element (hstepped : work.isStepped = true) (e : Element)
    (hstep : ∀ w, work.step ahead task w = (.next (Render.element e w).1, (Render.element e w).2)) :
    Plays ahead task [work] (Visit.element item e) := by
  unfold Visit.element
  unfold Render.element at hstep
  cases htype : e.type with
  | missing | invalid typeName =>
    simp only [htype] at hstep
    exact unfold hstepped hstep (fail _)
  | fragment =>
    simp only [htype] at hstep
    exact unfold hstepped hstep (children hahead hitem e)
  | tag name =>
    simp only [htype] at hstep
    exact unfold hstepped hstep (tag hahead hitem name e)
  | component c =>
    simp only [htype] at hstep
    refine act (Render.result e.raw) hstepped (fun w hw => ?_) (result hitem e.raw)
    refine ⟨_, hw.kept (World.kept_callComponent c e.props e.children w), ?_, ?_⟩
    · rw [World.callComponent_seen]
    · rw [World.callComponent_seen, hstep]

omit hahead in
/-- The members of a sequence are drawn and rendered one after the other. -/
theorem drawn (sequence : Nat) (label : Option String) (members : List (Nat × Value)) (index : Nat) :
    Plays ahead task [.draw ⟨some (sequence, label), index, members, none⟩]
      (Visit.drawn item sequence label index members) := by
  induction members generalizing index with
  | nil =>
    refine unfold rfl (fun w => ?_) done
    rw [Work.step, Feed.draw]
  | cons member members ih =>
    obtain ⟨delay, value⟩ := member
    have hrest := (hitem value).cons (ih (index + 1))
    constructor
    · intro w r fragments error rest hw hvisit
      rw [Visit.drawn_cons, World.seen_clock] at hvisit
      refine Gives.drawNext hw fun v hv hseen => ?_
      rw [← hseen] at hvisit
      exact hrest.failed hv hvisit
    · intro w r fragments out rest failure log hw hvisit hafter
      rw [Visit.drawn_cons, World.seen_clock] at hvisit
      refine Gives.drawNext hw fun v hv hseen => ?_
      rw [← hseen] at hvisit
      exact hrest.through hv hvisit hafter

omit hahead hitem in
theorem draw_nil : Plays ahead task [.draw (.ofList [])] (Visit.done ()) :=
  unfold rfl (fun _ => rfl) done

/-- What is drawn from a sequence that was taken; there is nothing in one that is gone. -/
def feedOf (cell : Nat) : Option (Option String × List (Nat × Value)) → Feed
  | none => .ofList []
  | some (label, members) => ⟨some (cell, label), 0, members, none⟩

/-- The rule for a sequence. -/
theorem sequence (cell : Nat) : Plays ahead task [.item (.sequence cell)] (Visit.sequence item cell) := by
  refine act (fun taken => [.draw (feedOf cell taken)]) rfl (fun w hw => ?_) fun taken => ?_
  · rw [Work.step, Render.item, Render.take, Visit.take, World.seen_sequences]
    cases hcell : w.sequences[cell]? with
    | none => exact ⟨w, hw, rfl, by simp only [Render.feed, if_pos hahead, feedOf]⟩
    | some s =>
      dsimp only
      by_cases htaken : s.taken = true
      · rw [if_pos htaken, if_pos htaken]
        exact ⟨w, hw, rfl, by simp only [Render.feed, if_pos hahead, feedOf]⟩
      · rw [if_neg htaken, if_neg htaken]
        refine ⟨{ w with sequences := w.sequences.modify cell fun s => { s with taken := true } },
          hw.kept (.of_eq rfl rfl rfl), rfl, ?_⟩
        simp only [Render.feed, if_pos hahead, feedOf]
  · cases taken with
    | none => exact draw_nil
    | some taken => exact drawn hitem cell taken.1 taken.2 0

end Sequential

theorem never : Plays ahead task works Visit.never where
  failed _ hvisit := by cases hvisit
  through _ hvisit _ := by cases hvisit

/-- Rendering an item plays its visit. -/
theorem item (hahead : ahead ≤ 1) (fuel : Nat) (value : Value) :
    Plays ahead task [.item value] (Visit.item fuel value) := by
  induction fuel generalizing value with
  | zero => exact never
  | succ fuel ih =>
    cases value with
    | undefined | null => exact unfold rfl (fun _ => rfl) (emit "")
    | str text => exact unfold rfl (fun _ => rfl) (emit _)
    | number d => exact unfold rfl (fun _ => rfl) (emit _)
    | bool b => exact unfold rfl (fun _ => rfl) (fail _)
    | component c => exact unfold rfl (fun _ => rfl) (fail _)
    | pending cell => exact unfold rfl (fun _ => rfl) (await (fun value => ih value) none)
    | sequence cell => exact sequence hahead ih cell
    | element e => exact element hahead ih rfl e fun _ => rfl
    | list members =>
      refine unfold rfl (fun w => ?_) (each ih members)
      rw [Work.step, Render.item, Render.members, if_pos hahead]
    | object entries =>
      rw [Visit.item]
      by_cases htype : Entries.contains "type" entries = true
      · rw [if_pos htype]
        refine element hahead ih rfl _ fun w => ?_
        rw [Work.step, Render.item, if_pos htype]
      · rw [if_neg htype]
        refine unfold rfl (fun w => ?_) (fail _)
        rw [Work.step, Render.item, if_neg htype]

theorem settled {root item : Value → Visit Unit} (hroot : ∀ value, Plays ahead task [.root value] (root value))
    (hitem : ∀ value, Plays ahead task [.item value] (item value)) (value : Value) :
    Plays ahead task [.settled value] (Visit.settled root item value) := by
  refine unfold rfl (fun w => rfl) ?_
  cases value with
  | undefined => exact fail _
  | list members => exact each hroot members
  | null | bool b | number d | component c =>
    simp only [Render.root, Visit.settled]
    split <;> exact fail _
  | str text | sequence cell | pending cell | element e | object entries =>
    simp only [Render.root, Visit.settled]
    split
    · exact fail _
    · exact hitem _

/-- Rendering a root plays its visit. -/
theorem root (hahead : ahead ≤ 1) (fuel : Nat) (value : Value) :
    Plays ahead task [.root value] (Visit.root fuel value) := by
  induction fuel generalizing value with
  | zero => exact never
  | succ fuel ih =>
    have hsettled := settled ih (item hahead fuel)
    cases value with
    | pending cell => exact unfold rfl (fun _ => rfl) (await hsettled none)
    | _ => exact unfold rfl (fun _ => rfl) (hsettled _)

end Plays

end TaggedMarkup
