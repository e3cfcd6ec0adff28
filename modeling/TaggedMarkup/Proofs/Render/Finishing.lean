import TaggedMarkup.Proofs.Render.Delivery
import TaggedMarkup.Proofs.Render.Resting
import TaggedMarkup.Proofs.Render.Streaming

/-!
# More look-ahead never finishes later

A render keeps to its plan (`RenderStream.Keeps`): what it does furthers the plan, and if it renders ahead, it
lets time pass only when there is nothing to do (`RenderStream.Keeps.drain_go`). Plans that are taken like that
end no later with more members ahead, so neither do renders (`RenderStream.finishes_no_later`).
-/

namespace TaggedMarkup

variable {given : Origin → Option Nat} {w v : World} {origins : List Origin} {led : Ledger} {plan : Plan}

/-- The clock moves on to the next timer. -/
theorem World.clock_advance (h : w.advance? = some v) :
    w.clock ≤ v.clock ∧ ∀ x, w.clock ≤ x → x < v.clock → ∀ timer ∈ w.timers, x < timer.deadline := by
  obtain ⟨earliest, hmin, hseen⟩ := seen_advance h
  obtain ⟨-, hle⟩ := List.min?_eq_some_iff.mp hmin
  have hclock : v.clock = max w.clock earliest := clock_of_seen hseen
  refine ⟨hclock ▸ Nat.le_max_left .., fun x hx hlater timer hmem => ?_⟩
  have hearliest := hle timer.deadline (List.mem_map_of_mem hmem)
  omega

/-- What is done at a time takes the plan further. -/
theorem World.Furthers.takes {n : Nat} {more : List Origin} {led' : Ledger} {plan' : Plan}
    {pauses : Nat → Nat → Plan → Prop} {finish : Nat} (h : w.Furthers n given origins led plan v more led' plan')
    (htakes : Plan.Takes n given pauses v.clock plan' led' finish) :
    Plan.Takes n given pauses w.clock plan led finish :=
  h.steps.takes (h.clock ▸ htakes)

namespace RenderStream

/-- The render keeps to the plan. -/
structure Keeps (s : RenderStream) (given : Origin → Option Nat) (w : World) (origins : List Origin) (led : Ledger)
    (plan : Plan) : Prop where
  follows : w.Follows given origins led plan
  left : ∃ plans, Plan.Unfolds s.config.concurrency plan plans ∧
    Work.PlansAll s.config.concurrency w origins s.stack plans

/-- What comes of a render that keeps to its plan. -/
inductive Kept (s : RenderStream) (given : Origin → Option Nat) (pauses : Nat → Nat → Plan → Prop) (w : World)
    (led : Ledger) (plan : Plan) : Delivery → RenderStream → World → Prop
  | fragment {text : String} {rest : List Work} {v : World} {σ : Seating} {out : Output} {effort : Nat}
    {more : List Origin} {led' : Ledger} {plan' : Plan} : Ready { s with stack := rest } v σ out effort →
      Keeps { s with stack := rest } given v more led' plan' →
        (∀ finish, Plan.Takes s.config.concurrency given pauses v.clock plan' led' finish →
          Plan.Takes s.config.concurrency given pauses w.clock plan led finish) →
            Kept s given pauses w led plan (.fragment text) { s with stack := rest } v
  | ended {rest : List Work} {v : World} : Plan.Takes s.config.concurrency given pauses w.clock plan led v.clock →
    Kept s given pauses w led plan .ended { s with stack := rest } v

variable {s s' : RenderStream} {σ : Seating} {out : Output} {effort fuel : Nat} {d : Delivery}
  {pauses : Nat → Nat → Plan → Prop}

/-- Something was done before. -/
theorem Kept.after {led' : Ledger} {plan' : Plan} {u : World} {rest : List Work}
    (h : Kept { s with stack := rest } given pauses v led' plan' d s' u)
    (hbefore : ∀ finish, Plan.Takes s.config.concurrency given pauses v.clock plan' led' finish →
      Plan.Takes s.config.concurrency given pauses w.clock plan led finish) :
    s.Kept given pauses w led plan d s' u := by
  cases h with
  | fragment hready hkeeps htakes => exact .fragment hready hkeeps fun finish h => hbefore finish (htakes finish h)
  | ended htakes => exact .ended (hbefore _ htakes)

/-- A turn of a render that keeps to its plan. -/
theorem Keeps.turn (h : s.Keeps given w origins led plan) (hready : s.Ready w σ out effort) {t : Turn}
    {rest : List Work} (hturn : Render.turn s.config.concurrency fuel [] s.task s.stack (w.beginTurn s.task) =
      some (t, rest, v)) :
    ∃ more led' plan' plans, w.Furthers s.config.concurrency given origins led plan v more led' plan' ∧
      Plan.Unfolds s.config.concurrency plan' plans ∧ t.LeavesPlans s.config.concurrency v more rest plans := by
  obtain ⟨plans, hleft, hplans⟩ := h.left
  have hseen := World.seen_beginTurn w s.task
  have hbegun := h.follows.hidden (n := s.config.concurrency) hseen (h.follows.timely.aside rfl rfl rfl)
  obtain ⟨more, led', plan', plans', hfurthers, hunfolds, hleaves⟩ :=
    (Render.Furthers.all s.config.concurrency given fuel).turn hready.beginTurn.ready.tasked
      hready.beginTurn.ready.clean (hplans.records (.hidden .refl hseen)) hleft (hbegun.follows h.follows) hturn
  exact ⟨more, led', plan', plans', hbegun.trans hfurthers, hunfolds, hleaves⟩

/-- What comes of a turn, however much fuel there is. -/
theorem Ready.turn_fares (h : s.Ready w σ out effort) {t : Turn} {rest : List Work}
    (hturn : Render.turn s.config.concurrency fuel [] s.task s.stack (w.beginTurn s.task) = some (t, rest, v)) :
    t.Fares s.config.concurrency (w.beginTurn s.task) σ s.task s.stack [] out effort rest v := by
  obtain ⟨enough, t', rest', v', heq, hfares⟩ := Render.turn_fares _ _ [] h.beginTurn.ready
  have hsame := (Render.turn_mono (Nat.le_max_left fuel enough) hturn).symm.trans
    (Render.turn_mono (Nat.le_max_right fuel enough) heq)
  cases hsame
  exact hfares

/-- Time passes while the render waits. -/
theorem Keeps.advance (h : s.Keeps given w origins led plan) (hadvance : w.advance? = some v) :
    s.Keeps given v origins led plan := by
  obtain ⟨plans, hleft, hplans⟩ := h.left
  refine ⟨⟨h.follows.tallies.advance hadvance, h.follows.timely.advance hadvance, h.follows.sound, ?_⟩,
    plans, hleft, hplans.records (.passed .refl hadvance)⟩
  exact h.follows.dated.mono (World.clock_advance hadvance).1 (.refl led)

/-- **A render that keeps to its plan lets time pass only when there is nothing to do.** -/
theorem Keeps.await (hpauses : ∀ time later p, (1 < s.config.concurrency →
      Plan.Pauses s.config.concurrency time later p) → pauses time later p)
    (h : s.Keeps given w origins led plan) (hready : s.Ready w σ out effort)
    (hawait : s.await fuel w = some (d, s', v)) :
    s.Kept given pauses w led plan d s' v := by
  induction fuel generalizing s w σ out effort origins led plan with
  | zero => cases hawait
  | succ fuel ih =>
    rw [RenderStream.await] at hawait
    split at hawait
    · cases hawait
    · rename_i text rest u hturn
      cases hawait
      obtain ⟨more, led', plan', plans, hfurthers, hleft, hplans⟩ := h.turn hready hturn
      cases hready.turn_fares hturn with
      | fragment hnext hmoves _ _ =>
        exact .fragment ⟨hnext, hready.beginTurn.root_moves hmoves⟩
          ⟨hfurthers.follows h.follows, plans, hleft, hplans⟩ fun _ => hfurthers.takes
    · rename_i error rest u hturn
      obtain ⟨_, _, _, _, -, -, hfalse⟩ := h.turn hready hturn
      exact hfalse.elim
    · rename_i rest u hturn
      cases hawait
      obtain ⟨more, led', plan', plans, hfurthers, hleft, rfl⟩ := h.turn hready hturn
      exact .ended (hfurthers.takes (.ended hleft.isOver))
    · rename_i rest u hturn
      obtain ⟨more, led', plan', plans, hfurthers, hleft, hplans, hfilled⟩ := h.turn hready hturn
      have hkeeps : Keeps { s with stack := rest } given u more led' plan' :=
        ⟨hfurthers.follows h.follows, plans, hleft, hplans⟩
      cases hready.turn_fares hturn with
      | @blocked _ _ τ less hblocked hmoves hgoes _ _ =>
        have hroot := hready.beginTurn.root_moves hmoves
        have hnext : Ready { s with stack := rest } u τ out less := ⟨hblocked, hroot⟩
        split at hawait
        · exact (ih (s := { s with stack := rest }) hpauses hkeeps hnext hawait).after fun _ => hfurthers.takes
        · rename_i hwoken
          obtain ⟨hwaits, later, hadvance, hready', -⟩ := hnext.waits hgoes hwoken
          rw [hadvance] at hawait
          obtain ⟨hclock, hbefore⟩ := World.clock_advance hadvance
          refine (ih (s := { s with stack := rest }) hpauses (hkeeps.advance hadvance) hready' hawait).after
            fun finish htakes => hfurthers.takes (.pass hclock (hpauses _ _ _ fun hn => ?_) htakes)
          obtain ⟨hover, hidles⟩ := hkeeps.follows.idles hblocked.stands.balanced hn hblocked.stands.poised hwaits
            hfilled hleft hplans
          exact ⟨hover, fun x hx hlater => hidles x (hbefore x hx hlater)⟩

/-- A render that keeps to its plan takes it to the end. -/
theorem Keeps.drain_go (hpauses : ∀ time later p, (1 < s.config.concurrency →
      Plan.Pauses s.config.concurrency time later p) → pauses time later p)
    (h : s.Keeps given w origins led plan) (hready : s.Ready w σ out effort) (hfailed : s.failed = false)
    (hclosed : s.closed = false) {rounds : Nat} {before texts : List String} {error : Option Error}
    (hdrain : drain.go fuel rounds before s w = some (texts, error, v)) :
    Plan.Takes s.config.concurrency given pauses w.clock plan led v.clock := by
  induction rounds generalizing s w σ out effort origins led plan before with
  | zero => cases hdrain
  | succ rounds ih =>
    obtain ⟨task, stack, config, failed, closed, finished⟩ := s
    cases hfailed
    cases hclosed
    rw [drain.go] at hdrain
    cases hawait : RenderStream.await fuel ⟨task, stack, config, false, false, finished⟩ w with
    | none =>
      rw [pull, hawait] at hdrain
      cases hdrain
    | some delivery =>
      obtain ⟨d, s', u⟩ := delivery
      have hkept := h.await hpauses hready hawait
      cases hkept with
      | @fragment text rest _ _ _ _ _ _ _ hnext hkeeps htakes =>
        rw [pull_of_await ⟨rfl, rfl⟩ hawait] at hdrain
        exact htakes _ (ih (s := ⟨task, rest, config, false, false, finished⟩) hpauses hkeeps hnext rfl rfl hdrain)
      | ended htakes =>
        rw [pull_of_await ⟨rfl, rfl⟩ hawait] at hdrain
        cases hdrain
        rwa [World.clock_of_seen (seen_drop _ u)]

end RenderStream

/-! ## From the start -/

namespace Plan

mutual

/-- Nothing in it was begun. -/
def isUnbegun : Plan → Bool
  | .leaf _ => true
  | .group _ parts => areUnbegun parts
  | .later _ _ moment come value => moment.isNone && !come && value.isUnbegun
  | .call _ made result => !made && result.isUnbegun

def areUnbegun : List Plan → Bool
  | [] => true
  | plan :: rest => plan.isUnbegun && areUnbegun rest

end

mutual

/-- There are no moments in a plan before it is begun. -/
theorem dated_of_isUnbegun {time : Nat} : ∀ {plan : Plan}, plan.isUnbegun = true → plan.Dated given time led
  | .leaf _, _ => trivial
  | .group _ _, h => dateAll_of_areUnbegun h
  | .later _ _ moment come value, h => by
    rw [isUnbegun, Bool.and_eq_true, Bool.and_eq_true, Option.isNone_iff_eq_none, Bool.not_eq_true'] at h
    obtain ⟨⟨rfl, rfl⟩, hvalue⟩ := h
    exact ⟨nofun, nofun, dated_of_isUnbegun hvalue⟩
  | .call _ _ result, h => by
    have hresult : result.Dated given time led := dated_of_isUnbegun (Bool.and_eq_true_iff.mp h).2
    exact hresult

theorem dateAll_of_areUnbegun {time : Nat} : ∀ {plans : List Plan}, areUnbegun plans = true →
    DateAll given time led plans
  | [], _ => trivial
  | _ :: _, h =>
    ⟨dated_of_isUnbegun (Bool.and_eq_true_iff.mp h).1, dateAll_of_areUnbegun (Bool.and_eq_true_iff.mp h).2⟩

end

end Plan

/-- The moment at which the pending value comes to its outcome, or now if it has come to one. -/
def PendingCell.moment? (clock : Nat) (c : PendingCell) : Option Nat :=
  match c.job, c.stage with
  | .after .., .waiting moment => some moment
  | .after .., .done _ => some clock
  | _, _ => none

theorem PendingCell.tallies_moment? (clock : Nat) (c : PendingCell) :
    c.Tallies clock (c.moment? clock) (c.moment? clock) := by
  obtain ⟨label, job, stage, waiters⟩ := c
  cases job with
  | checking source => trivial
  | after delay keeps body =>
    cases stage with
    | waiting moment => exact ⟨rfl, .inr rfl⟩
    | done outcome => exact ⟨clock, Nat.le_refl _, rfl⟩
    | unstarted | seated | gone => rfl

namespace World

/-- The origins of the pending values that are there. -/
def givenOrigins (w : World) : List Origin := (List.range w.pendings.size).map .given

/-- The moments for which pending values wait or have waited. -/
def moment? (w : World) : Origin → Option Nat
  | .given pending => w.seen.pendings[pending]?.bind (PendingCell.moment? w.clock)
  | _ => none

/-- The ledger before anything is rendered. -/
def ledger (w : World) : Ledger := ⟨w.moment?, []⟩

/-- Before anything is rendered, the ledger tallies. -/
theorem tallies_ledger (h : w.Answered 0) : w.Tallies w.moment? w.givenOrigins w.ledger where
  registers :=
    { length := by rw [givenOrigins, List.length_map, List.length_range]
      nodup := List.nodup_range.map fun _ _ heq => Origin.given.inj heq
      ended := by
        intro origin k hmem
        obtain ⟨_, -, heq⟩ := List.mem_map.mp hmem
        cases heq }
  answered := h
  cell {pending origin cell} horigin hcell := by
    rw [givenOrigins, List.getElem?_map, Option.map_eq_some_iff] at horigin
    obtain ⟨p, hp, rfl⟩ := horigin
    obtain ⟨-, rfl⟩ := List.getElem?_eq_some_iff.mp hp
    have hmoment : w.moment? (.given pending) = cell.moment? w.clock := by
      rw [moment?, hcell, Option.bind_some]
    change cell.Tallies w.clock (w.moment? (.given (List.range w.pendings.size)[pending]))
      (w.moment? (.given (List.range w.pendings.size)[pending]))
    rw [List.getElem_range, hmoment]
    exact cell.tallies_moment? w.clock
  unknown origin hnew := by
    cases origin with
    | given pending =>
      have hsize : w.pendings[pending]? = none := by
        rw [Array.getElem?_eq_none_iff, ← Nat.not_lt]
        exact fun hlt => hnew (List.mem_map_of_mem (List.mem_range.mpr hlt))
      change w.moment? (.given pending) = none
      rw [moment?, seen_getElem?, hsize]
      rfl
    | called | ended => rfl
  called hmem := by
    obtain ⟨_, -, heq⟩ := List.mem_map.mp hmem
    cases heq

end World

/-- The piece of work is pure and takes this much time: in a world whose books are balanced it comes to this
plan, whatever else is done, and no one-shot sequence is reached twice. -/
structure Plan.Comes (plan : Plan) (w : World) (work : Work) : Prop where
  balanced : ∃ σ, w.Balanced σ fun _ => False
  timely : w.Timely
  answered : w.Answered 0
  clean : Clean w [work]
  describes : plan.Describes w w.givenOrigins work
  unbegun : plan.isUnbegun = true
  nodup : plan.sites.Nodup

/-- Whatever host code has made, the books are balanced. -/
theorem Plan.comes_made (a : Action) {work : Work} (hclean : Clean (a.run {}).2 [work])
    (hdescribes : plan.Describes (a.run {}).2 (a.run {}).2.givenOrigins work) (hunbegun : plan.isUnbegun = true)
    (hnodup : plan.sites.Nodup) : plan.Comes (a.run {}).2 work where
  balanced := ⟨_, World.balanced_made a⟩
  timely := by
    have hempty : World.Timely {} := ⟨nofun, nofun, fun huntold => by cases huntold⟩
    exact hempty.run a
  answered := (World.answered_size {}).grown (.run a {})
  clean := hclean
  describes := hdescribes
  unbegun := hunbegun
  nodup := hnodup

theorem Plan.Comes.tree {work : Work} (h : plan.Comes w work) : plan.tree.Comes w work where
  balanced := h.balanced
  clean := h.clean
  describes := h.describes.tree

namespace RenderStream

variable {work : Work}

/-- Before anything is taken, the whole plan is to come. -/
theorem start_keeps (h : plan.Comes w work) (hsucceeds : plan.Succeeds) (config : RenderConfig) :
    (start config [work] w).1.Keeps w.moment? (start config [work] w).2 w.givenOrigins w.ledger plan where
  follows :=
    { tallies := (World.tallies_ledger h.answered).hidden rfl
      timely := h.timely.aside rfl rfl rfl
      sound := ⟨h.nodup, fun _ _ => List.not_mem_nil, hsucceeds⟩
      dated := Plan.dated_of_isUnbegun h.unbegun }
  left := by
    have hstarted : w.Records w.givenOrigins (start config [work] w).2 w.givenOrigins := .hidden .refl rfl
    exact ⟨[plan], .whole plan, .singleton (h.describes.planned.records hstarted)⟩

/-- With enough fuel, everything there is can be taken, and the clock shows this time at the end. -/
def FinishesAt (s : RenderStream) (w : World) (time : Nat) : Prop :=
  ∃ enough texts v, v.clock = time ∧ ∀ fuel ≥ enough, s.drain fuel w = some (texts, none, v)

/-- A render that succeeds takes its plan to the end. -/
theorem finishesAt (h : plan.Comes w work) (hstepped : work.isStepped = true)
    (hsucceeds : plan.tree.output.error? = none) (config : RenderConfig) (pauses : Nat → Nat → Plan → Prop)
    (hpauses : ∀ time later p, (1 < config.concurrency →
      Plan.Pauses config.concurrency time later p) → pauses time later p) :
    ∃ finish, (start config [work] w).1.FinishesAt (start config [work] w).2 finish ∧
      Plan.Takes config.concurrency w.moment? pauses w.clock plan w.ledger finish := by
  obtain ⟨σ, hready⟩ := start_ready h.tree hstepped config
  obtain ⟨enough, texts, v, -, hgo⟩ := drain_go_fares hready rfl rfl
  rw [hsucceeds] at hgo
  have hkeeps := start_keeps h (Plan.succeeds_of_output hsucceeds) config
  have hdrain := hgo enough enough (Nat.le_refl _) (Nat.le_refl _) []
  exact ⟨v.clock, ⟨enough, texts, v, rfl, fun fuel hfuel => hgo fuel fuel hfuel hfuel []⟩,
    hkeeps.drain_go hpauses hready rfl rfl hdrain⟩

/-- **More look-ahead never finishes later.** Where something pure can be rendered one member after the other, it
can be rendered with any number of members ahead, and with one more it is finished at the same time or earlier. -/
theorem finishes_no_later (h : plan.Comes w work) (hstepped : work.isStepped = true) (config : RenderConfig)
    {texts : List String} (hsequential : (start { config with concurrency := 1 } [work] w).1.DrainsTo
      (start { config with concurrency := 1 } [work] w).2 texts none) {n : Nat} (hn : 1 ≤ n) :
    ∃ finish sooner, (start { config with concurrency := n } [work] w).1.FinishesAt
        (start { config with concurrency := n } [work] w).2 finish ∧
      (start { config with concurrency := n + 1 } [work] w).1.FinishesAt
        (start { config with concurrency := n + 1 } [work] w).2 sooner ∧ sooner ≤ finish := by
  have hsucceeds : plan.tree.output.error? = none := by
    obtain ⟨texts', -, enough', v', hdrain'⟩ := drain_comes h.tree hstepped { config with concurrency := 1 }
    obtain ⟨enough, v, hdrain⟩ := hsequential
    have hsame := (hdrain' _ (Nat.le_max_left enough' enough)).symm.trans
      (hdrain _ (Nat.le_max_right enough' enough))
    exact congrArg (fun result => result.2.1) (Option.some.inj hsame)
  obtain ⟨finish, hfinish, htakes⟩ := finishesAt h hstepped hsucceeds { config with concurrency := n }
    (fun _ _ _ => True) fun _ _ _ _ => trivial
  obtain ⟨sooner, hsooner, htakes'⟩ := finishesAt h hstepped hsucceeds { config with concurrency := n + 1 }
    (Plan.Pauses (n + 1)) fun _ _ _ hpauses => hpauses (Nat.lt_succ_of_le hn)
  exact ⟨finish, sooner, hfinish, hsooner, htakes'.le (Nat.le_succ n) htakes (Nat.le_refl _) (.refl plan)
    (Plan.dated_of_isUnbegun h.unbegun) (fun origin moment hmoment => ⟨moment, Nat.le_refl _, hmoment⟩)
    fun _ _ hmoment => hmoment⟩

/-- Two members that come after a delay: one after the other it takes both delays, and at once the longer one. -/
theorem finishes_no_later_delayed :
    let w := ((Action.pending none 5 [] (.give (.str "a")) fun _ =>
      .pending none 3 [] (.give (.str "b")) .give).run {}).2
    ∃ finish sooner, (ofItem { concurrency := 1 } (.list [.pending 0, .pending 1]) w).1.FinishesAt
        (ofItem { concurrency := 1 } (.list [.pending 0, .pending 1]) w).2 finish ∧
      (ofItem { concurrency := 2 } (.list [.pending 0, .pending 1]) w).1.FinishesAt
        (ofItem { concurrency := 2 } (.list [.pending 0, .pending 1]) w).2 sooner ∧ sooner ≤ finish := by
  intro w
  have hgives : w.Gives := (World.Gives.empty.newPending ..).newPending ..
  have htext : ∀ (text : String) {v : World} {more : List Origin},
      (Plan.group .row [.leaf (.ok (Escape.text text))]).Describes v more (.item (.str text)) :=
    fun _ _ _ => ⟨_, rfl, _, _, rfl, rfl, rfl⟩
  have hmember : ∀ (p delay : Nat) (text : String),
      w.job? p = some (.after delay [] (.give (.str text))) → w.givenOrigins[p]? = some (.given p) →
        (Plan.group .row [.later (some (.given p)) delay none false
          (.group .row [.leaf (.ok (Escape.text text))])]).Describes w w.givenOrigins (.item (.pending p)) :=
    fun p delay text hjob horigin => hgives.describes hjob horigin fun v more _ => htext text
  have hdescribes : (Plan.group .list [.later none 0 none false _, .later none 0 none false _]).Describes w
      w.givenOrigins (.item (.list [.pending 0, .pending 1])) :=
    ⟨_, _, rfl, _, _, rfl, hmember 0 5 "a" rfl rfl, _, _, rfl, hmember 1 3 "b" rfl rfl, rfl⟩
  have hcomes := Plan.comes_made _ (hgives.clean _) hdescribes rfl List.nodup_nil
  obtain ⟨texts, -, hdrains⟩ := drain_comes hcomes.tree rfl { concurrency := 1 }
  exact finishes_no_later hcomes rfl {} hdrains (Nat.le_refl 1)

example :
    let w := ((Action.pending none 5 [] (.give (.str "a")) fun _ =>
      .pending none 3 [] (.give (.str "b")) .give).run {}).2
    let endsAt := fun n => ((ofItem { concurrency := n } (.list [.pending 0, .pending 1]) w).1.drain 30
        (ofItem { concurrency := n } (.list [.pending 0, .pending 1]) w).2).map (·.2.2.clock)
    endsAt 1 = some 8 ∧ endsAt 2 = some 5 := by
  decide +kernel

end RenderStream

end TaggedMarkup
