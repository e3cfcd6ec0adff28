import TaggedMarkup.Proofs.Render.Checks
import TaggedMarkup.Proofs.Render.Histories

/-!
# Host code that does not speak of roots

The rules for roots reject a root with an error of their own. Host code may fail with that error as well,
but it is **civil** if it does not: no component and no pending value, nor whatever they make, fails with an
error about roots.

In a civil world nothing that is rendered by the rules for items fails with an error about roots, with
any number of members rendered ahead (`World.civil`).
-/

namespace TaggedMarkup

/-- The outcome is no error about roots. -/
def Outcome.IsCivil (outcome : Outcome) : Prop :=
  ∀ error, outcome = .error error → error.isOfRoots = false

/-- Host code that does not fail with an error about roots, and makes nothing that does. -/
def Action.IsCivil : Action → Prop
  | give _ => True
  | fail error => error.isOfRoots = false
  | named _ next | element _ _ _ _ next | sequence _ _ next | template _ _ next | checking _ next =>
    ∀ value, (next value).IsCivil
  | component _ _ _ body next =>
    (∀ props children, (body props children).IsCivil) ∧ ∀ value, (next value).IsCivil
  | pending _ _ _ body next => body.IsCivil ∧ ∀ value, (next value).IsCivil

/-- No component and no pending value fails with an error about roots. -/
structure World.IsCivil (w : World) : Prop where
  components : ∀ {n : Nat} {cell : ComponentCell}, w.components[n]? = some cell →
    ∀ props children, (cell.body props children).IsCivil
  jobs : ∀ {n delay : Nat} {keeps : List Value} {body : Action},
    w.job? n = some (.after delay keeps body) → body.IsCivil
  outcomes : ∀ {n : Nat} {outcome : Outcome}, w.peek n = some outcome → outcome.IsCivil

theorem Outcome.civil_ok (value : Value) : IsCivil (.ok value) := nofun

/-! ## Checks -/

/-- Checking is civil. -/
theorem Checked.civil_root (value : Value) {next : Value → Action} (h : ∀ value, (next value).IsCivil) :
    (root value next).IsCivil := by
  have helement : ∀ (e : Element) (children : List Value),
      (Action.element e.type e.props children e.raw next).IsCivil := fun _ _ => h
  cases value with
  | undefined | null | number | str => exact h _
  | bool b =>
    cases b
    · exact h _
    · rfl
  | list | sequence | component => rfl
  | pending => exact h
  | element e =>
    rw [root, element]
    split
    · split
      · exact helement e _
      · exact h _
    · rfl
  | object map =>
    rw [root, entries]
    split
    · exact helement _ _
    · rfl

theorem Checked.civil_roots (values : List Value) {next : List Value → Action}
    (h : ∀ values, (next values).IsCivil) : (roots values next).IsCivil := by
  induction values generalizing next with
  | nil => exact h []
  | cons value rest ih => exact civil_root value fun checked => ih fun more => h (checked :: more)

theorem Checked.civil_template (statics : Statics) (values : List Value) {next : Value → Action}
    (h : ∀ value, (next value).IsCivil) : (template statics values next).IsCivil := by
  intro value
  dsimp only
  rw [result.eq_def]
  split
  · exact civil_roots _ fun checked => h (.list checked)
  · exact civil_root value h

theorem World.civil_checkedBody {outcome : Outcome} (h : outcome.IsCivil) :
    (checkedBody outcome).IsCivil := by
  cases outcome with
  | ok value => exact Checked.civil_root value fun _ => trivial
  | error error => exact h error rfl

namespace World.IsCivil

variable {w v : World} {pending : Nat}

/-! ## What leaves a world civil -/

theorem congr (h : w.IsCivil) (hcomponents : v.components = w.components)
    (hjob : ∀ n, v.job? n = w.job? n) (hpeek : ∀ n, v.peek n = w.peek n) : v.IsCivil where
  components hcell := h.components (hcomponents ▸ hcell)
  jobs hbody := h.jobs ((hjob _).symm.trans hbody)
  outcomes houtcome := h.outcomes ((hpeek _).symm.trans houtcome)

theorem same (h : w.IsCivil) (hsame : Same w v) : v.IsCivil :=
  h.congr hsame.components hsame.job? hsame.peek

theorem hidden (h : w.IsCivil) (hseen : v.seen = w.seen) : v.IsCivil := h.same (.of_seen hseen)

theorem note (h : w.IsCivil) (event : Event) : (w.note event).IsCivil := h.same (.note event w)

theorem newComponent (h : w.IsCivil) (name : String) {cell : ComponentCell}
    (hcell : ∀ props children, (cell.body props children).IsCivil) :
    (w.newComponent name cell).2.IsCivil where
  components hc := by
    rw [World.newComponent, Array.getElem?_push] at hc
    split at hc
    · cases hc
      exact hcell
    · exact h.components hc
  jobs := h.jobs
  outcomes := h.outcomes

theorem newPending (h : w.IsCivil) (label : Option String) {job : Job}
    (hjob : ∀ {delay keeps body}, job = .after delay keeps body → body.IsCivil) :
    (w.newPending { label, job }).2.IsCivil where
  components := h.components
  jobs hbody := by
    rw [World.job?, World.newPending, Array.getElem?_push] at hbody
    split at hbody
    · rw [Option.map_some, Option.some.injEq] at hbody
      exact hjob hbody
    · exact h.jobs hbody
  outcomes houtcome := h.outcomes (((Grown.newPending label job w).peek _).symm.trans houtcome)

/-- Civil host code comes to no error about roots, and leaves the world civil. -/
theorem run {a : Action} (ha : a.IsCivil) (h : w.IsCivil) :
    (a.run w).1.IsCivil ∧ (a.run w).2.IsCivil := by
  induction a generalizing w with
  | give value => exact ⟨Outcome.civil_ok value, h⟩
  | fail error =>
    refine ⟨fun error' herror => ?_, h⟩
    cases herror
    exact ha
  | named name next ih => exact ih _ (ha _) h
  | element type props children raw next ih =>
    exact ih _ (ha _) (h.same (.newElement type props children raw w))
  | component name label keeps body next _ ih =>
    exact ih _ (ha.2 _) (h.newComponent name ha.1)
  | pending label delay keeps body next _ ih =>
    refine ih _ (ha.2 _) (h.newPending label fun hjob => ?_)
    cases hjob
    exact ha.1
  | sequence label members next ih => exact ih _ (ha _) (h.congr rfl (fun _ => rfl) fun _ => rfl)
  | template statics values next ih =>
    refine ih _ (ha _) ?_
    let u : World := { w with
      bench := (w.workshop.call 0 statics values w.bench).2.1
      workshop := (w.workshop.call 0 statics values w.bench).2.2.2 }
    have hu : u.IsCivil := h.congr rfl (fun _ => rfl) fun _ => rfl
    exact hu.same (.noteAll (w.workshop.call 0 statics values w.bench).2.2.1 u)
  | checking source next ih => exact ih _ (ha _) (h.newPending none nofun)

theorem callComponent (h : w.IsCivil) (component : Component) (props : Props)
    (children : List Value) : (w.callComponent component props children).1.IsCivil ∧
      (w.callComponent component props children).2.IsCivil := by
  rw [World.callComponent]
  split
  · rename_i cell hcell
    exact run (h.components hcell props children) (h.note _)
  · exact ⟨Outcome.civil_ok _, h⟩

/-! ## Awaiting -/

/-- A stage without an outcome. -/
theorem setStage (h : w.IsCivil) {stage : Stage} (hstage : stage.outcome? = none) :
    (w.modifyPending pending fun cell => { cell with stage }).IsCivil where
  components := h.components
  jobs hbody := h.jobs ((job?_setStage ..).symm.trans hbody)
  outcomes {n _} houtcome := by
    by_cases heq : n = pending
    · subst heq
      obtain ⟨job, hjob⟩ := exists_job_of_peek houtcome
      have hsize : n < w.pendings.size := Array.size_modify ▸ lt_size_of_job? hjob
      rw [peek_setStage hsize, hstage] at houtcome
      cases houtcome
    · exact h.outcomes ((peek_modifyPending_of_ne heq _ w).symm.trans houtcome)

theorem settle (h : w.IsCivil) (hsize : pending < w.pendings.size) {outcome : Outcome}
    (houtcome : outcome.IsCivil) : (w.settle pending outcome).IsCivil where
  components hcell := by
    rw [← seen_components, seen_settle] at hcell
    exact h.components hcell
  jobs hbody := by
    rw [← job?_seen, seen_settle, job?_setStage, job?_seen] at hbody
    exact h.jobs hbody
  outcomes hknown := by
    rw [peek_settle hsize] at hknown
    split at hknown
    · cases hknown
      exact houtcome
    · exact h.outcomes hknown

theorem conclude (h : w.IsCivil) (hsize : pending < w.pendings.size) (label : Option String)
    {body : Action} (hbody : body.IsCivil) : (w.conclude pending label body).1.IsCivil ∧
      (w.conclude pending label body).2.IsCivil := by
  obtain ⟨houtcome, hworld⟩ := run hbody (h.note (.finished pending label))
  have hgrown : Grown w (body.run (w.note (.finished pending label))).2 :=
    (Same.note (.finished pending label) w).grown.trans (.run body _)
  exact ⟨houtcome, hworld.settle (Nat.lt_of_lt_of_le hsize hgrown.size) houtcome⟩

/-- Whoever asks gets no error about roots. -/
theorem ask (h : w.IsCivil) (depth : Nat) (waiter : Waiter) (pending : Nat) (own : Option Nat) :
    (w.ask depth waiter pending own).2.IsCivil ∧
      ∀ outcome, (w.ask depth waiter pending own).1 = .ready outcome → outcome.IsCivil := by
  induction depth generalizing w waiter pending own with
  | zero => exact ⟨h, fun outcome houtcome => by cases houtcome; exact Outcome.civil_ok _⟩
  | succ depth ih =>
    cases hcell : w.pendings[pending]? with
    | none =>
      rw [World.ask, hcell]
      exact ⟨h, fun outcome houtcome => by cases houtcome; exact Outcome.civil_ok _⟩
    | some cell =>
      by_cases hdone : ∃ o, cell.stage = .done o
      · obtain ⟨o, ho⟩ := hdone
        have hpeek : w.peek pending = some o := by
          rw [peek_of_getElem? hcell, ho]
          rfl
        rw [World.ask, hcell]
        simp only [ho]
        exact ⟨h, fun outcome houtcome => by cases houtcome; exact h.outcomes hpeek⟩
      rw [ask_open hcell fun o ho => hdone ⟨o, ho⟩]
      have hsame := same_seatedAt waiter pending own cell w
      have hseated := h.same hsame
      have hsize : pending < (w.seatedAt waiter pending own cell).2.pendings.size :=
        Nat.lt_of_lt_of_le (lt_size_of_getElem? hcell) hsame.grown.size
      have hready : ∀ {r : Outcome × World}, r.1.IsCivil ∧ r.2.IsCivil →
          r.2.IsCivil ∧ ∀ outcome, Answer.ready r.1 = .ready outcome → outcome.IsCivil := by
        rintro r ⟨houtcome, hworld⟩
        exact ⟨hworld, fun outcome heq => by cases heq; exact houtcome⟩
      cases hjob : cell.job with
      | after delay keeps body =>
        have hbody : body.IsCivil := h.jobs (hjob ▸ job?_of_getElem? hcell)
        dsimp only
        split
        · exact hready (hseated.conclude hsize cell.label hbody)
        · exact ⟨(hseated.hidden (seen_startTimer ..)).setStage rfl, fun _ h => by cases h⟩
      | checking source =>
        obtain ⟨hworld, hanswer⟩ := ih hseated (.pending pending) source (Stage.seat? cell.stage)
        have hlasts := Lasts.ask depth (.pending pending) source (Stage.seat? cell.stage)
          (w.seatedAt waiter pending own cell).2
        dsimp only
        split
        · rename_i outcome v hask
          rw [hask] at hworld hanswer hlasts
          exact hready (hworld.conclude (Nat.lt_of_lt_of_le hsize hlasts.size) cell.label
            (civil_checkedBody (hanswer outcome rfl)))
        · rename_i seat v hask
          rw [hask] at hworld
          exact ⟨hworld.setStage rfl, fun _ h => by cases h⟩

end World.IsCivil

/-! ## Civil work -/

/-- A piece of work by the rules for items, which is no error about roots. -/
def Work.IsCivil : Work → Prop
  | .root _ | .settled _ => False
  | .await _ _ resumption => resumption ≠ .root
  | .fail error => error.isOfRoots = false
  | _ => True

theorem Work.usual_civil : Usual IsCivil where
  emit _ := trivial
  fail h := h
  item _ := trivial
  await _ _ h := h
  prop _ _ := trivial
  children _ := trivial
  draw _ := trivial
  ahead _ _ _ := trivial

theorem World.IsCivil.draw {w v : World} (h : w.IsCivil) {f feed : Feed} {task : Nat} {drawn : Draw}
    (hdraw : f.draw task w = (drawn, feed, v)) : v.IsCivil := by
  rcases Feed.draw_cases hdraw with ⟨-, -, -, rfl⟩ | ⟨_, _, _, -, -, -, rfl⟩ | ⟨-, -, -, -, hseen⟩
  · exact h
  · rw [Feed.noteDrawn]
    split
    · exact h.note _
    · exact h
  · exact h.hidden hseen

theorem World.survives_civil : Survives IsCivil where
  hidden h hseen _ := h.hidden hseen
  call component props children h := (h.callComponent component props children).2
  dropped _ _ h := h.note _

namespace Work

variable {ahead task : Nat} {work : Work} {progress : Progress} {w v : World}

theorem civil_prompt (hw : w.IsCivil) (hwork : work.IsCivil) (hprompt : work.isPrompt = true) :
    ∀ piece ∈ (work.step ahead task w).1.works, piece.IsCivil := by
  have hcall : ∀ {component : Component} {props : Props} {children : List Value} {error : Error},
      (w.callComponent component props children).1 = .error error → (Work.fail error).IsCivil :=
    fun h => (hw.callComponent ..).1 _ h
  cases work with
  | item value => exact usual_civil.ofItem hcall hprompt
  | prop name value => exact usual_civil.ofProp name value
  | children e => exact usual_civil.members e.children [.element e]
  | root | settled => cases hwork
  | _ => cases hprompt

/-- What comes out of civil work is civil. -/
theorem civil_step (hw : w.IsCivil) (hwork : work.IsCivil) (hstepped : work.isStepped = true)
    (hstep : work.step ahead task w = (progress, v)) :
    v.IsCivil ∧ ∀ piece ∈ progress.pieces, piece.IsCivil := by
  by_cases hprompt : work.isPrompt = true
  · have hcivil : ∀ piece ∈ (work.step ahead task w).1.works, piece.IsCivil :=
      civil_prompt hw hwork hprompt
    have hworld := World.survives_civil.step hw hprompt ahead task
    have hunnoticed : (work.step ahead task w).1.Unnoticed := unnoticed_step hprompt w
    rw [hstep] at hcivil hworld hunnoticed
    refine ⟨hworld, fun piece hpiece => hcivil piece ?_⟩
    cases progress with
    | next works => exact mem_of_unnoticed hunnoticed hpiece
    | wait work => exact hpiece
  · cases work with
    | note event =>
      cases hstep
      exact ⟨hw.note event, nofun⟩
    | await cell seat resumption =>
      obtain ⟨hworld, hanswer⟩ := hw.ask (cell + 1) (.task task) cell seat
      rw [Work.step, World.await] at hstep
      split at hstep
      · rename_i outcome u hask
        rw [hask] at hworld hanswer
        cases hstep
        have hcivil := usual_civil.resume hwork fun herror => hanswer _ rfl _ herror
        exact ⟨hworld, fun piece hpiece =>
          hcivil piece (mem_of_unnoticed (Render.unnoticed_resume _ _) hpiece)⟩
      · rename_i seat' u hask
        rw [hask] at hworld
        cases hstep
        exact ⟨hworld, List.forall_mem_singleton.mpr hwork⟩
    | draw feed =>
      cases hdraw : feed.draw task w with
      | mk drawn next =>
        obtain ⟨feed', u⟩ := next
        have hworld := hw.draw hdraw
        rw [Work.step, hdraw] at hstep
        cases drawn <;> cases hstep <;>
          exact ⟨hworld, by simp [Progress.pieces, piecesOfAll, pieces, IsCivil]⟩
    | item value =>
      cases value with
      | sequence cell =>
        rw [step_sequence] at hstep
        cases hstep
        have htaken : (Render.take cell w).2.IsCivil := by
          rcases Render.take_cases cell w with ⟨htake, -⟩ | ⟨_, -, -, htake⟩ <;> rw [htake]
          · exact hw
          · exact hw.congr rfl (fun _ => rfl) fun _ => rfl
        refine ⟨World.survives_civil.feed htaken .., ?_⟩
        rw [Progress.pieces]
        rcases Render.pieces_feed ahead task (Render.take cell w).1 [] (Render.take cell w).2 with
          hfeed | hfeed <;> rw [hfeed] <;> exact List.forall_mem_singleton.mpr trivial
      | _ => exact absurd rfl hprompt
    | emit | fail | ahead => cases hstepped
    | _ => exact absurd rfl hprompt

end Work

/-- In a civil world, civil work comes to civil work whatever course it takes. -/
theorem World.civil : Course.Invariant fun _ w pieces => w.IsCivil ∧ ∀ piece ∈ pieces, piece.IsCivil where
  hidden h hseen := ⟨h.1.hidden hseen, h.2⟩
  entered _ _ h := ⟨h.1.note _, h.2⟩
  through _ _ h := ⟨h.1, List.forall_mem_cons.mpr ⟨trivial, h.2⟩⟩
  only h hless := ⟨h.1, fun piece hpiece => h.2 piece (hless.subset hpiece)⟩
  step h hstepped _ hstep := by
    obtain ⟨hw, hpieces⟩ := h
    obtain ⟨hwork, hrest⟩ := List.forall_mem_cons.mp hpieces
    obtain ⟨hv, hnext⟩ := Work.civil_step hw hwork hstepped hstep
    exact ⟨hv, List.forall_mem_append.mpr ⟨hnext, hrest⟩⟩
  draw {deeds w v l rest drawn feed task} h hdraw := by
    obtain ⟨hw, hpieces⟩ := h
    have hrest := (List.forall_mem_cons.mp hpieces).2
    refine ⟨hw.draw hdraw, List.forall_mem_cons.mpr ⟨trivial, List.forall_mem_append.mpr ⟨?_, hrest⟩⟩⟩
    cases drawn with
    | member value =>
      exact List.forall_mem_cons.mpr ⟨trivial, List.forall_mem_singleton.mpr trivial⟩
    | notYet | exhausted => exact nofun

end TaggedMarkup
