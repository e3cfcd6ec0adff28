import TaggedMarkup.Proofs.Render.Finishing
import TaggedMarkup.Proofs.Render.Fulfilled

/-!
# Rendering ahead does not change the result

When stories have come true, what happened is what they tell (`World.Fulfils.tally`): what happens at one place each,
and for each pending value that is awaited, wherever and how often it is, what was to come in its life. That does
not depend on the order in which things were rendered.

A render keeps to its story as long as nothing fails (`RenderStream.drain_go_fulfils`). So whatever number of
members is rendered ahead, the same fragments come out and the same happens (`RenderStream.ahead_agrees`).
-/

namespace TaggedMarkup

variable {w v u : World} {origins more : List Origin} {story : Story} {stories : List Story} {p : Nat}

/-! ## What has happened when stories have come true -/

namespace World

/-- What happened in the life of a pending value is what was to come and has come. -/
theorem LivesOn.inLife (h : LivesOn p w v) {new : List (Nat × Event)} (hnew : v.log = new ++ w.log)
    (label : Option String) : ∃ marks, w.toCome p = marks ++ v.toCome p ∧
      Event.inLife p label new = Multiset.ofList (marks.map (Milestone.happening label)) := by
  obtain ⟨marks, ⟨⟨new', hnew', rfl, -⟩, -⟩, hcome⟩ := h
  cases List.append_cancel_right (hnew.symm.trans hnew')
  refine ⟨_, hcome, ?_⟩
  rw [Event.inLife, List.map_reverse, List.map_map]
  exact Multiset.coe_eq_coe.mpr (List.reverse_perm _).symm

/-- What was written down of a pending value has the label that it has. -/
theorem LivesOn.label (h : LivesOn p w v) {new : List (Nat × Event)} (hnew : v.log = new ++ w.log)
    {entry : Nat × Event} (hentry : entry ∈ new) {label : Option String}
    (hpending : entry.2.pending? = some (p, label)) : v.pendingLabel? p = some label := by
  obtain ⟨_, ⟨⟨new', hnew', -, hlabel⟩, -⟩, -⟩ := h
  cases List.append_cancel_right (hnew.symm.trans hnew')
  exact hlabel entry hentry label hpending

theorem Registers.idxOf_eq (h : w.Registers origins) {origin : Origin} (horigin : origins[p]? = some origin) :
    origins.idxOf origin = p := by
  obtain ⟨hlt, rfl⟩ := List.getElem?_eq_some_iff.mp horigin
  exact h.nodup.idxOf_getElem p hlt

/-- What was to come for the pending value from there, whether it was there already or not. -/
theorem Registers.toCome_idxOf (h : w.Registers origins) (hmore : origins <+: more) (origin : Origin) :
    w.toCome (more.idxOf origin) = w.toCome (origins.idxOf origin) := by
  obtain ⟨rest, rfl⟩ := hmore
  by_cases hmem : origin ∈ origins
  · rw [List.idxOf_append_of_mem hmem]
  · rw [List.idxOf_append_of_notMem hmem, List.idxOf_of_notMem hmem, h.length,
      toCome_of_size_le (Nat.le_add_right ..), toCome_of_size_le (Nat.le_refl _)]

/-- What is to come in the lives of pending values that are awaited, of each of them once. -/
def happeningsToCome (w : World) (origins : List Origin) (awaited : List (Origin × Option String)) :
    Multiset Happening :=
  ∑ x ∈ awaited.toFinset, Multiset.ofList ((w.toCome (origins.idxOf x.1)).map (Milestone.happening x.2))

/-- **What has happened is what the stories tell.** -/
theorem Fulfils.tally (h : w.Fulfils origins stories v more []) (horigins : w.Registers origins) :
    ∃ new, v.log = new ++ w.log ∧ Event.tally Event.happening? new =
      Story.onceOfAll stories + w.happeningsToCome origins (Story.awaitedOfAll stories) := by
  obtain ⟨new, hnew, honce⟩ := h.once
  rw [Story.onceOfAll, add_zero] at honce
  have hcome : ∀ x ∈ Story.awaitedOfAll stories, ∃ p, more.idxOf x.1 = p ∧ p < v.pendings.size ∧
      more[p]? = some x.1 ∧ v.pendingLabel? p = some x.2 ∧ v.toCome p = [] := by
    intro x hx
    obtain ⟨p, horigin, hlabel, hnone⟩ := (h.come x hx).resolve_left List.not_mem_nil
    have hsize := h.registers.length ▸ (List.getElem?_eq_some_iff.mp horigin).1
    exact ⟨p, h.registers.idxOf_eq horigin, hsize, horigin, hlabel, hnone⟩
  have hlabels : ∀ entry ∈ new, ∀ p label, entry.2.pending? = some (p, label) →
      p < v.pendings.size ∧ (v.pendingLabel? p).getD none = label := by
    intro entry hentry p label hpending
    have hlabel := (h.lives p).label hnew hentry hpending
    obtain ⟨cell, hcell, -⟩ := Option.map_eq_some_iff.mp hlabel
    exact ⟨lt_size_of_getElem? hcell, by rw [hlabel, Option.getD_some]⟩
  refine ⟨new, hnew, ?_⟩
  rw [Event.tally_happening hlabels, honce]
  refine congrArg (_ + ·) (Finset.sum_of_injOn (fun x => more.idxOf x.1) ?_ ?_ ?_ ?_).symm
  · intro x hx y hy heq
    obtain ⟨p, hp, -, horigin, hlabel, -⟩ := hcome x (List.mem_toFinset.mp hx)
    obtain ⟨q, hq, -, horigin', hlabel', -⟩ := hcome y (List.mem_toFinset.mp hy)
    cases (hp.symm.trans heq).trans hq
    exact Prod.ext (Option.some.inj (horigin.symm.trans horigin')) (Option.some.inj (hlabel.symm.trans hlabel'))
  · intro x hx
    obtain ⟨p, rfl, hsize, -⟩ := hcome x (List.mem_toFinset.mp hx)
    exact Finset.mem_coe.mpr (Finset.mem_range.mpr hsize)
  · -- nothing has come of what is not awaited
    intro p hp hnot
    obtain ⟨origin, horigin⟩ := h.registers.exists_origin (Finset.mem_range.mp hp)
    obtain ⟨marks, hmarks, hlife⟩ := (h.lives p).inLife hnew ((v.pendingLabel? p).getD none)
    have hsame : v.toCome p = w.toCome p := by
      by_contra hne
      obtain ⟨label, hlabel⟩ := h.touched horigin hne
      exact hnot ⟨(origin, label), List.mem_toFinset.mpr hlabel, h.registers.idxOf_eq horigin⟩
    rw [hlife, LivesOn.marks_eq_nil hsame hmarks]
    rfl
  · intro x hx
    obtain ⟨p, hp, -, -, hlabel, hnone⟩ := hcome x (List.mem_toFinset.mp hx)
    obtain ⟨marks, hmarks, hlife⟩ := (h.lives p).inLife hnew x.2
    rw [hnone, List.append_nil] at hmarks
    rw [← horigins.toCome_idxOf h.records.isPrefix, hp, hlabel, Option.getD_some, hlife, hmarks]

end World

/-! ## Renders that keep to their story -/

namespace RenderStream

/-- What comes of a render that keeps to its story. -/
inductive Fulfilling (s : RenderStream) (w : World) (origins : List Origin) (stories : List Story) :
    Delivery → RenderStream → World → Prop
  | fragment {text : String} {rest : List Work} {v : World} {σ : Seating} {out : Output} {effort : Nat} :
    Ready { s with stack := rest } v σ out effort → w.KeepsTo origins stories v (Work.piecesOfAll rest) →
      Fulfilling s w origins stories (.fragment text) { s with stack := rest } v
  | failed {error : Error} {rest : List Work} {v : World} :
    Fulfilling s w origins stories (.failed error) { s with stack := rest } v
  | ended {v : World} : w.KeepsTo origins stories v [] →
    Fulfilling s w origins stories .ended { s with stack := [] } v

variable {s s' : RenderStream} {σ : Seating} {out : Output} {effort fuel : Nat} {d : Delivery}

theorem Fulfilling.restacked {stack : List Work}
    (h : Fulfilling { s with stack } w origins stories d s' v) : s.Fulfilling w origins stories d s' v := by
  cases h with
  | fragment hready hkeeps => exact .fragment hready hkeeps
  | failed => exact .failed
  | ended hkeeps => exact .ended hkeeps

/-- A turn of a render that keeps to its story. -/
theorem keepsTo_turn (hadmits : w.Admits origins stories)
    (h : w.KeepsTo origins stories v (Work.piecesOfAll s.stack)) (hready : s.Ready v σ out effort) {t : Turn}
    {rest : List Work} (hturn : Render.turn s.config.concurrency fuel [] s.task s.stack (v.beginTurn s.task) =
      some (t, rest, u)) : w.KeepsTo origins stories u (t.pieces ++ Work.piecesOfAll rest) := by
  obtain ⟨-, -, deeds, hway⟩ :=
    (Render.TakesCourse.all s.config.concurrency fuel).whole hready.beginTurn.ready.tasked hturn
  have hclean := hready.beginTurn.ready.clean
  rw [List.append_nil] at hclean
  exact (h.hidden hadmits (World.seen_beginTurn v s.task)).way hadmits hclean hway

/-- **A render that keeps to its story goes on keeping to it**, or fails. -/
theorem await_fulfils (hadmits : w.Admits origins stories)
    (h : w.KeepsTo origins stories v (Work.piecesOfAll s.stack)) (hready : s.Ready v σ out effort)
    (hawait : s.await fuel v = some (d, s', u)) : s.Fulfilling w origins stories d s' u := by
  induction fuel generalizing s v σ out effort with
  | zero => cases hawait
  | succ fuel ih =>
    rw [RenderStream.await] at hawait
    split at hawait
    · cases hawait
    · rename_i text rest x hturn
      cases hawait
      have hkeeps := keepsTo_turn hadmits h hready hturn
      cases hready.turn_fares hturn with
      | fragment hnext hmoves _ _ => exact .fragment ⟨hnext, hready.beginTurn.root_moves hmoves⟩ hkeeps
    · cases hawait
      exact .failed
    · rename_i rest x hturn
      cases hawait
      have hkeeps := keepsTo_turn hadmits h hready hturn
      cases hready.turn_fares hturn with
      | ended => exact .ended hkeeps
    · rename_i rest x hturn
      have hkeeps : w.KeepsTo origins stories x (Work.piecesOfAll rest) := keepsTo_turn hadmits h hready hturn
      cases hready.turn_fares hturn with
      | @blocked _ _ τ less hblocked hmoves hgoes _ _ =>
        have hroot := hready.beginTurn.root_moves hmoves
        have hnext : Ready { s with stack := rest } x τ out less := ⟨hblocked, hroot⟩
        split at hawait
        · exact (ih (s := { s with stack := rest }) hkeeps hnext hawait).restacked
        · rename_i hwoken
          obtain ⟨-, later, hadvance, hready', -⟩ := hnext.waits hgoes hwoken
          rw [hadvance] at hawait
          exact (ih (s := { s with stack := rest }) (hkeeps.advance hadmits hadvance) hready' hawait).restacked

/-- A render that succeeds has fulfilled its story. -/
theorem drain_go_fulfils (hadmits : w.Admits origins stories)
    (h : w.KeepsTo origins stories v (Work.piecesOfAll s.stack)) (hready : s.Ready v σ out effort)
    (hfailed : s.failed = false) (hclosed : s.closed = false) {rounds : Nat} {before texts : List String}
    (hdrain : drain.go fuel rounds before s v = some (texts, none, u)) :
    ∃ more, w.Fulfils origins stories u more [] := by
  induction rounds generalizing s v σ out effort before with
  | zero => cases hdrain
  | succ rounds ih =>
    obtain ⟨task, stack, config, failed, closed, finished⟩ := s
    cases hfailed
    cases hclosed
    rw [drain.go] at hdrain
    cases hawait : RenderStream.await fuel ⟨task, stack, config, false, false, finished⟩ v with
    | none =>
      rw [pull, hawait] at hdrain
      cases hdrain
    | some delivery =>
      obtain ⟨d, s', x⟩ := delivery
      cases await_fulfils hadmits h hready hawait with
      | @fragment text rest _ _ _ _ hnext hkeeps =>
        rw [pull_of_await ⟨rfl, rfl⟩ hawait] at hdrain
        exact ih (s := ⟨task, rest, config, false, false, finished⟩) hkeeps hnext rfl rfl hdrain
      | failed =>
        rw [pull_of_await ⟨rfl, rfl⟩ hawait] at hdrain
        cases hdrain
      | ended hkeeps =>
        rw [pull_of_await ⟨rfl, rfl⟩ hawait] at hdrain
        cases hdrain
        obtain ⟨_, hmem⟩ | ⟨more, left, hfulfils, hleft⟩ := hkeeps.hidden hadmits (seen_drop _ x)
        · cases hmem
        · cases hleft
          exact ⟨more, hfulfils⟩

end RenderStream

/-! ## From the start -/

/-- The piece of work is **pure** and comes to an end: in a world whose books are balanced its story is this one,
whatever else is done, and no one-shot sequence is reached twice. -/
structure Story.Comes (story : Story) (w : World) (work : Work) : Prop where
  balanced : ∃ σ, w.Balanced σ fun _ => False
  answered : w.Answered 0
  clean : Clean w [work]
  tells : story.Tells w w.givenOrigins work
  nodup : story.sites.Nodup

namespace Story.Comes

variable {work : Work}

theorem tree (h : story.Comes w work) : story.tree.Comes w work where
  balanced := h.balanced
  clean := h.clean
  describes := h.tells.tree

theorem admits (h : story.Comes w work) : w.Admits w.givenOrigins [story] where
  registers := (World.tallies_ledger h.answered).registers
  answered := h.answered
  nodup := by
    rw [Story.sitesOfAll, Story.sitesOfAll, List.append_nil]
    exact h.nodup
  fresh site _ k hmem := by
    obtain ⟨_, -, heq⟩ := List.mem_map.mp hmem
    cases heq

/-- Whatever host code has made, the books are balanced. -/
theorem made (a : Action) (hclean : Clean (a.run {}).2 [work])
    (htells : story.Tells (a.run {}).2 (a.run {}).2.givenOrigins work) (hnodup : story.sites.Nodup) :
    story.Comes (a.run {}).2 work where
  balanced := ⟨_, World.balanced_made a⟩
  answered := (World.answered_size {}).grown (.run a {})
  clean := hclean
  tells := htells
  nodup := hnodup

end Story.Comes

/-- A pending value that comes to a value after a delay is awaited, and then the value is rendered. -/
theorem World.Gives.tells (h : w.Gives) {delay : Nat} {keeps : List Value} {value : Value} {origin : Origin}
    {label : Option String} (hjob : w.job? p = some (.after delay keeps (.give value)))
    (horigin : origins[p]? = some origin) (hlabel : w.pendingLabel? p = some label)
    (hstory : ∀ v more, w.Records origins v more → story.Tells v more (.item value)) :
    (Story.row none [.later [(origin, label)] story]).Tells w origins (.item (.pending p)) := by
  refine ⟨_, rfl, rfl, _, [], rfl,
    ⟨p, .item, rfl, .clock horigin hlabel hjob, fun v more outcome hv hpeek next hnext => ?_⟩, rfl⟩
  obtain ⟨_, _, _, hafter, hvalue⟩ := (h.becomes hv.becomes).gives (hv.becomes.lasts.job? hjob)
  cases hafter
  rw [hvalue outcome hpeek] at hnext
  cases List.mem_singleton.mp hnext
  exact hstory v more hv

namespace RenderStream

variable {work : Work}

/-- **What happens while something pure is rendered**, if nothing fails, is what its story tells, with any number of
members ahead. -/
theorem happens_told (h : story.Comes w work) (hstepped : work.isStepped = true) (config : RenderConfig) {fuel : Nat}
    {texts : List String} (hdrain : (start config [work] w).1.drain fuel (start config [work] w).2 =
      some (texts, none, v)) :
    Multiset.ofList (v.happenings w.mark) =
      story.once + w.happeningsToCome w.givenOrigins story.awaited := by
  obtain ⟨σ, hready⟩ := start_ready h.tree hstepped config
  have hpieces : Work.piecesOfAll (start config [work] w).1.stack = [work] := by
    change Work.piecesOfAll [work] = [work]
    rw [Work.piecesOfAll, Work.pieces_stepped hstepped]
    rfl
  have hkeeps : w.KeepsTo w.givenOrigins [story] (start config [work] w).2 [work] := by
    have hwhole : w.KeepsTo w.givenOrigins [story] w [work] :=
      .inr ⟨_, _, .refl h.admits, .cons h.tells.told .nil⟩
    exact hwhole.hidden h.admits rfl
  obtain ⟨more, hfulfils⟩ := drain_go_fulfils h.admits (hpieces.symm ▸ hkeeps) hready rfl rfl hdrain
  obtain ⟨new, hnew, htally⟩ := hfulfils.tally h.admits.registers
  rw [World.happenings, World.since_mark hnew]
  simpa [Event.tally, Story.onceOfAll, Story.awaitedOfAll] using htally

/-- The second render comes to the same as the first one. If that succeeds, the same fragments come out, and the same
has happened since the mark: the same calls, starts and ends of pending values, draws, and drops of props. Otherwise
both fail with the same error, and what comes out of the first one begins with what comes out of the second one. -/
def AgreesWith (mark : Nat) (sequential ahead : RenderStream × World) : Prop :=
  ∃ texts texts' error enough v u,
    (∀ fuel ≥ enough, sequential.1.drain fuel sequential.2 = some (texts, error, v) ∧
      ahead.1.drain fuel ahead.2 = some (texts', error, u)) ∧
    texts' <+: texts ∧ (error = none → texts' = texts ∧ (u.happenings mark).Perm (v.happenings mark))

/-- **Rendering ahead does not change the result.** Something pure comes to the same if its members are rendered one
after the other and if any number of them is rendered ahead. -/
theorem ahead_agrees (h : story.Comes w work) (hstepped : work.isStepped = true) (config : RenderConfig) (n : Nat) :
    AgreesWith w.mark (start { config with concurrency := 1 } [work] w)
      (start { config with concurrency := n } [work] w) := by
  obtain ⟨texts, hdelivers, enough, v, hdrain⟩ := drain_comes h.tree hstepped { config with concurrency := 1 }
  obtain ⟨texts', hdelivers', enough', u, hdrain'⟩ := drain_comes h.tree hstepped { config with concurrency := n }
  have hall : texts = story.tree.output.fragments := hdelivers.2 (.inl (Nat.le_refl 1))
  refine ⟨texts, texts', story.tree.output.error?, max enough enough', v, u, fun fuel hfuel =>
    ⟨hdrain fuel (le_of_max_le_left hfuel), hdrain' fuel (le_of_max_le_right hfuel)⟩, ?_, fun hnone => ⟨?_, ?_⟩⟩
  · rw [hall]
    exact hdelivers'.1
  · rw [hall, hdelivers'.2 (.inr hnone)]
  · rw [hnone] at hdrain hdrain'
    have htold := happens_told h hstepped _ (hdrain enough (Nat.le_refl _))
    have htold' := happens_told h hstepped _ (hdrain' enough' (Nat.le_refl _))
    exact Multiset.coe_eq_coe.mp (htold'.trans htold.symm)

/-- A pending value that is mentioned twice, and another one that ends before it if it is rendered ahead. -/
theorem ahead_agrees_shared :
    let w := ((Action.pending (some "p") 5 [] (.give (.str "a")) fun _ =>
      .pending (some "q") 3 [] (.give (.str "b")) .give).run {}).2
    AgreesWith w.mark (ofItem { concurrency := 1 } (.list [.pending 0, .pending 1, .pending 0]) w)
      (ofItem { concurrency := 2 } (.list [.pending 0, .pending 1, .pending 0]) w) := by
  intro w
  have hgives : w.Gives := (World.Gives.empty.newPending ..).newPending ..
  have htext : ∀ (text : String) (v : World) (more : List Origin), w.Records w.givenOrigins v more →
      (Story.row none [.leaf (.ok (Escape.text text))]).Tells v more (.item (.str text)) :=
    fun _ _ _ _ => ⟨_, rfl, rfl, _, _, rfl, rfl, rfl⟩
  have hfirst := hgives.tells (p := 0) rfl rfl rfl (htext "a")
  have hsecond := hgives.tells (p := 1) rfl rfl rfl (htext "b")
  have htells : (Story.members none 0 [_, _, _]).Tells w w.givenOrigins
      (.item (.list [.pending 0, .pending 1, .pending 0])) :=
    ⟨_, _, rfl, _, _, rfl, hfirst, _, _, rfl, hsecond, _, _, rfl, hfirst, rfl⟩
  exact ahead_agrees (.made _ (hgives.clean _) htells List.nodup_nil) rfl {} 2

example :
    let w := ((Action.pending (some "p") 5 [] (.give (.str "a")) fun _ =>
      .pending (some "q") 3 [] (.give (.str "b")) .give).run {}).2
    let happens := fun n => ((ofItem { concurrency := n } (.list [.pending 0, .pending 1, .pending 0]) w).1.drain 30
      (ofItem { concurrency := n } (.list [.pending 0, .pending 1, .pending 0]) w).2).map (·.2.2.happenings 0)
    happens 1 = some [.finished "q", .started "q", .finished "p", .started "p"] ∧
      happens 2 = some [.finished "p", .finished "q", .started "q", .started "p"] := by
  decide +kernel

end RenderStream

end TaggedMarkup
