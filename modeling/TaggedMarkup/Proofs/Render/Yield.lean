import TaggedMarkup.Proofs.Render.Poise
import TaggedMarkup.Proofs.Render.Tree

/-!
# What is left to come

A stack **yields** an output (`Work.YieldsAll`): what its pieces of work are going to come to, member by
member where a list is in work, whatever else is rendered meanwhile. The **effort** bounds how many steps are
left. Each step takes effort and leaves the yield as it was (`Work.Yields.next`), so rendering ends, and ends
with the yield.

The members of a list in work are paid twice: once for each step in their own stack, once for each fragment
that is handed on.
-/

namespace TaggedMarkup

/-! ## Effort -/

mutual

/-- The steps that a tree takes at most. -/
def Tree.effort : Tree → Nat
  | .leaf _ => 1
  | .row parts => Tree.effortOfAll parts + 1
  | .list members | .sequence members => 2 * Tree.effortOfAll members + 7 * members.length + 4
  | .later value => value.effort + 3
  | .call result => result.effort + 1

/-- The steps that some trees take at most. -/
def Tree.effortOfAll : List Tree → Nat
  | [] => 0
  | tree :: rest => tree.effort + Tree.effortOfAll rest

end

/-- The error that ends a render with this output. -/
def Output.error? (out : Output) : Option Error :=
  out.findSome? fun
    | .error error => some error
    | .ok _ => none

/-! ## Yields -/

/-- The members that have not been drawn yield this output. -/
def Feed.Yields (w : World) (f : Feed) (out : Output) (effort : Nat) : Prop :=
  ∃ trees, Tree.DescribeAll trees w (f.members.map fun member => .item member.2) ∧
    out = Tree.outputOfAll trees ∧
      2 * Tree.effortOfAll trees + 7 * trees.length + f.deadline.isNone.toNat ≤ effort

/-- More than one member is rendered at a time, and the next one has a moment only if there is one, and room for
it. -/
def LineupOf.Fits (n : Nat) (l : Lineup) : Prop :=
  1 < n ∧ (l.feed.deadline.isSome = true → l.members.length < n ∧ l.feed.members ≠ [])

mutual

/-- The piece of work yields this output, with at most so much effort. -/
def Work.Yields (n : Nat) (w : World) : Work → Output → Nat → Prop
  | .await pending (some _) resumption, out, effort => ∃ value : Tree,
    (Tree.later value).Describes w (.await pending none resumption) ∧ out = value.output ∧
      value.effort + 2 ≤ effort
  | .draw feed, out, effort => ∃ less, feed.Yields w out less ∧ less + 1 ≤ effort
  | .ahead lineup, out, effort => lineup.Fits n ∧ ∃ first last less more,
    Member.YieldsAll n w lineup.members first less ∧ lineup.feed.Yields w last more ∧
      out = first ++ last ∧ less + more + 1 ≤ effort
  | work, out, effort => ∃ tree : Tree, tree.Describes w work ∧ out = tree.output ∧ tree.effort ≤ effort

/-- The stack yields this output. -/
def Work.YieldsAll (n : Nat) (w : World) : List Work → Output → Nat → Prop
  | [], out, _ => out = []
  | work :: rest, out, effort => ∃ first last less more, work.Yields n w first less ∧
    Work.YieldsAll n w rest last more ∧ out = first ++ last ∧ less + more ≤ effort

/-- The member in a window yields this output. If it failed, only the error counts. -/
def Member.Yields (n : Nat) (w : World) : Member → Output → Nat → Prop
  | .running _ fragments stack, out, effort => ∃ last less, Work.YieldsAll n w stack last less ∧
    out = fragments.reverse.map .ok ++ last ∧ 2 * less + fragments.length + 3 ≤ effort
  | .finished fragments, out, effort => out = fragments.map .ok ∧ fragments.length + 2 ≤ effort
  | .failed error, out, effort => Output.error? out = some error ∧ 1 ≤ effort

def Member.YieldsAll (n : Nat) (w : World) : List Member → Output → Nat → Prop
  | [], out, _ => out = []
  | member :: rest, out, effort => ∃ first last less more, member.Yields n w first less ∧
    Member.YieldsAll n w rest last more ∧ out = first ++ last ∧ less + more ≤ effort

end

variable {n : Nat} {w v : World} {out first last : Output} {effort less more : Nat}

theorem Work.yields_iff {work : Work} (h : work.layer ≠ .busy) : work.Yields n w out effort ↔
    ∃ tree : Tree, tree.Describes w work ∧ out = tree.output ∧ tree.effort ≤ effort := by
  cases work with
  | await pending seat resumption =>
    cases seat with
    | none => exact Iff.rfl
    | some seat => exact absurd rfl h
  | draw | ahead => exact absurd rfl h
  | _ => exact Iff.rfl

theorem Tree.Describes.yields {tree : Tree} {work : Work} (h : tree.Describes w work) :
    work.Yields n w tree.output tree.effort :=
  (Work.yields_iff h.layer_ne_busy).mpr ⟨tree, h, rfl, Nat.le_refl _⟩

theorem Tree.DescribeAll.yields {trees : List Tree} {works : List Work} (h : Tree.DescribeAll trees w works) :
    Work.YieldsAll n w works (Tree.outputOfAll trees) (Tree.effortOfAll trees) := by
  induction trees generalizing works with
  | nil => cases h; rfl
  | cons tree rest ih =>
    obtain ⟨work, more, rfl, hwork, hmore⟩ := h
    exact ⟨_, _, _, _, hwork.yields, ih hmore, rfl, Nat.le_refl _⟩

/-! ## Members that have not been drawn -/

theorem Feed.Yields.mono {f : Feed} (h : f.Yields w out less) (hle : less ≤ more) : f.Yields w out more := by
  obtain ⟨trees, htrees, hout, heffort⟩ := h
  exact ⟨trees, htrees, hout, Nat.le_trans heffort hle⟩

theorem Feed.Yields.becomes {f : Feed} (h : f.Yields w out effort) (hv : w.Becomes v) :
    f.Yields v out effort := by
  obtain ⟨trees, htrees, hout, heffort⟩ := h
  exact ⟨trees, htrees.becomes hv, hout, heffort⟩

theorem Feed.Yields.nil {f : Feed} (h : f.Yields w out effort) (hmembers : f.members = []) : out = [] := by
  obtain ⟨trees, htrees, rfl, -⟩ := h
  rw [hmembers] at htrees
  cases trees with
  | nil => rfl
  | cons tree rest =>
    obtain ⟨work, more, hworks, -⟩ := htrees
    cases hworks

/-- What the next member yields, and those after it. -/
theorem Feed.Yields.cons {f feed : Feed} {delay : Nat} {value : Value} {rest : List (Nat × Value)}
    (h : f.Yields w out effort) (hmembers : f.members = (delay, value) :: rest)
    (hfeed : feed.members = rest) (hdeadline : feed.deadline = none) :
    ∃ first last less more, (Work.item value).Yields n w first less ∧ feed.Yields w last more ∧
      out = first ++ last ∧ 2 * less + 6 + more ≤ effort := by
  obtain ⟨trees, htrees, rfl, heffort⟩ := h
  rw [hmembers] at htrees
  cases trees with
  | nil => cases htrees
  | cons tree others =>
    obtain ⟨work, works, hworks, hwork, hothers⟩ := htrees
    cases hworks
    refine ⟨_, _, _, _, hwork.yields, ⟨others, hfeed ▸ hothers, rfl, Nat.le_refl _⟩, rfl, ?_⟩
    rw [Tree.effortOfAll, List.length_cons] at heffort
    rw [hdeadline]
    change _ + (_ + 1) ≤ _
    omega

/-- A moment for the next member takes effort once. -/
theorem Feed.Yields.wait {f : Feed} (h : f.Yields w out effort) (hnone : f.deadline = none)
    (deadline : Nat) : ∃ less < effort, Feed.Yields w { f with deadline := some deadline } out less := by
  obtain ⟨trees, htrees, hout, heffort⟩ := h
  rw [hnone] at heffort
  exact ⟨_, heffort, trees, htrees, hout, Nat.le_refl _⟩

/-! ## Stacks -/

theorem Work.YieldsAll.mono {stack : List Work} (h : Work.YieldsAll n w stack out less) (hle : less ≤ more) :
    Work.YieldsAll n w stack out more := by
  cases stack with
  | nil => exact h
  | cons work rest =>
    obtain ⟨_, _, _, _, hwork, hrest, hout, heffort⟩ := h
    exact ⟨_, _, _, _, hwork, hrest, hout, Nat.le_trans heffort hle⟩

theorem Work.YieldsAll.append {stack rest : List Work} (h : Work.YieldsAll n w stack first less)
    (hrest : Work.YieldsAll n w rest last more) :
    Work.YieldsAll n w (stack ++ rest) (first ++ last) (less + more) := by
  induction stack generalizing first less with
  | nil =>
    cases h
    exact hrest.mono (Nat.le_add_left ..)
  | cons work others ih =>
    obtain ⟨_, _, _, _, hwork, hothers, rfl, heffort⟩ := h
    refine ⟨_, _, _, _, hwork, ih hothers, List.append_assoc .., ?_⟩
    omega

theorem Work.YieldsAll.singleton {work : Work} (h : work.Yields n w out effort) :
    Work.YieldsAll n w [work] out effort :=
  ⟨_, _, _, 0, h, rfl, (List.append_nil out).symm, Nat.le_refl _⟩

/-- Fragments on their way. -/
theorem Work.yieldsAll_emit (fragments : List String) :
    Work.YieldsAll n w (fragments.map .emit) (fragments.map .ok) fragments.length := by
  induction fragments with
  | nil => rfl
  | cons text rest ih =>
    have htext : (Tree.leaf (.ok text)).Describes w (.emit text) := rfl
    refine ⟨_, _, _, _, htext.yields, ih, rfl, ?_⟩
    rw [Tree.effort, List.length_cons, Nat.add_comm]

theorem Work.yieldsAll_note (event : Event) : Work.YieldsAll n w [.note event] [] 1 := by
  have hnote : (Tree.row []).Describes w (.note event) := ⟨[], rfl, rfl⟩
  exact .singleton hnote.yields

theorem Work.YieldsAll.emit {text : String} {rest : List Work}
    (h : Work.YieldsAll n w (.emit text :: rest) out effort) :
    ∃ last, ∃ less < effort, Work.YieldsAll n w rest last less ∧ out = .ok text :: last := by
  obtain ⟨_, last, cost, less, hwork, hrest, rfl, heffort⟩ := h
  obtain ⟨tree, htree, rfl, hcost⟩ := (Work.yields_iff (by nofun)).mp hwork
  cases tree with
  | leaf leaf =>
    cases htree
    exact ⟨last, less, by rw [Tree.effort] at hcost; omega, hrest, rfl⟩
  | row => obtain ⟨_, hlayer, -⟩ := htree; cases hlayer
  | list | sequence | later | call => obtain ⟨_, _, hlayer, -⟩ := htree; cases hlayer

theorem Work.YieldsAll.fail {error : Error} {rest : List Work}
    (h : Work.YieldsAll n w (.fail error :: rest) out effort) : ∃ last, out = .error error :: last := by
  obtain ⟨_, last, cost, less, hwork, hrest, rfl, heffort⟩ := h
  obtain ⟨tree, htree, rfl, hcost⟩ := (Work.yields_iff (by nofun)).mp hwork
  cases tree with
  | leaf leaf =>
    cases htree
    exact ⟨last, rfl⟩
  | row => obtain ⟨_, hlayer, -⟩ := htree; cases hlayer
  | list | sequence | later | call => obtain ⟨_, _, hlayer, -⟩ := htree; cases hlayer

mutual

theorem Work.Yields.becomes (hv : w.Becomes v) : ∀ {work : Work} {out : Output} {effort : Nat},
    work.Yields n w out effort → work.Yields n v out effort
  | .await _ (some _) _, _, _, ⟨value, hvalue, hout⟩ => ⟨value, Tree.Describes.becomes hv hvalue, hout⟩
  | .draw _, _, _, ⟨less, hfeed, hless⟩ => ⟨less, hfeed.becomes hv, hless⟩
  | .ahead _, _, _, ⟨hn, first, last, less, more, hmembers, hfeed, hout⟩ =>
    ⟨hn, first, last, less, more, Member.YieldsAll.becomes hv hmembers, hfeed.becomes hv, hout⟩
  | .await _ none _, _, _, ⟨tree, htree, hout⟩ | .emit _, _, _, ⟨tree, htree, hout⟩
  | .fail _, _, _, ⟨tree, htree, hout⟩ | .note _, _, _, ⟨tree, htree, hout⟩
  | .root _, _, _, ⟨tree, htree, hout⟩ | .settled _, _, _, ⟨tree, htree, hout⟩
  | .item _, _, _, ⟨tree, htree, hout⟩ | .prop .., _, _, ⟨tree, htree, hout⟩
  | .children _, _, _, ⟨tree, htree, hout⟩ => ⟨tree, Tree.Describes.becomes hv htree, hout⟩

/-- What a stack yields does not depend on what is rendered meanwhile. -/
theorem Work.YieldsAll.becomes (hv : w.Becomes v) : ∀ {stack : List Work} {out : Output} {effort : Nat},
    Work.YieldsAll n w stack out effort → Work.YieldsAll n v stack out effort
  | [], _, _, h => h
  | _ :: _, _, _, ⟨first, last, less, more, hwork, hrest, hout⟩ =>
    ⟨first, last, less, more, Work.Yields.becomes hv hwork, Work.YieldsAll.becomes hv hrest, hout⟩

theorem Member.Yields.becomes (hv : w.Becomes v) : ∀ {member : Member} {out : Output} {effort : Nat},
    member.Yields n w out effort → member.Yields n v out effort
  | .running .., _, _, ⟨last, less, hstack, hout⟩ => ⟨last, less, Work.YieldsAll.becomes hv hstack, hout⟩
  | .finished _, _, _, h | .failed _, _, _, h => h

theorem Member.YieldsAll.becomes (hv : w.Becomes v) : ∀ {members : List Member} {out : Output}
    {effort : Nat}, Member.YieldsAll n w members out effort → Member.YieldsAll n v members out effort
  | [], _, _, h => h
  | _ :: _, _, _, ⟨first, last, less, more, hmember, hrest, hout⟩ =>
    ⟨first, last, less, more, Member.Yields.becomes hv hmember, Member.YieldsAll.becomes hv hrest, hout⟩

end

/-! ## Steps -/

theorem Tree.DescribeAll.length_eq {trees : List Tree} {works : List Work}
    (h : Tree.DescribeAll trees w works) : works.length = trees.length := by
  induction trees generalizing works with
  | nil => cases h; rfl
  | cons tree rest ih =>
    obtain ⟨work, more, rfl, -, hmore⟩ := h
    rw [List.length_cons, List.length_cons, ih hmore]

/-- What has not been drawn yields what its trees come to, in a row or through a window. -/
theorem Work.yieldsAll_feed {f : Feed} {trees : List Tree} (hdeadline : f.deadline = none) (task : Nat)
    (kept : List Value) (h : Tree.DescribeAll trees w (f.members.map fun member => .item member.2)) :
    Work.YieldsAll n w (Render.feed n task f kept w).1 (Tree.outputOfAll trees)
      (2 * Tree.effortOfAll trees + 7 * trees.length + 3) := by
  have hfeed : f.Yields w (Tree.outputOfAll trees)
      (2 * Tree.effortOfAll trees + 7 * trees.length + 1) :=
    ⟨trees, h, rfl, Nat.add_le_add_left (Bool.toNat_le _) _⟩
  rw [Render.feed]
  split
  · have hdraw : (Work.draw f).Yields n w _ _ := ⟨_, hfeed, Nat.le_refl _⟩
    exact (Work.YieldsAll.singleton hdraw).mono (Nat.le_succ _)
  · have hfits : LineupOf.Fits n { window := w.windows.size, feed := f, kept, members := [] } := by
      refine ⟨Nat.lt_of_not_le ‹_›, fun hsome => ?_⟩
      rw [hdeadline] at hsome
      cases hsome
    have hahead : (Work.ahead { window := w.windows.size, feed := f, kept, members := [] }).Yields n w
        (Tree.outputOfAll trees) (2 * Tree.effortOfAll trees + 7 * trees.length + 2) :=
      ⟨hfits, [], _, 0, _, rfl, hfeed, rfl, by omega⟩
    exact (Work.YieldsAll.singleton hahead).mono (Nat.le_succ _)

/-- Nothing among these is under way, or there is a list of which no member has been drawn. -/
def World.Begins (w : World) (task : Nat) (works : List Work) : Prop :=
  (∀ work ∈ works, work.isBusy = false) ∨ ∃ lineup : Lineup, works = [.ahead lineup] ∧
    lineup.members = [] ∧ lineup.feed.deadline = none ∧
      ∃ frame, w.windows[lineup.window]? = some frame ∧ frame.owner = task

theorem World.begins_feed {f : Feed} (hdeadline : f.deadline = none) (ahead task : Nat) (kept : List Value)
    (w : World) : World.Begins (Render.feed ahead task f kept w).2 task (Render.feed ahead task f kept w).1 := by
  rw [Render.feed]
  split
  · refine .inl fun work hwork => ?_
    rw [List.mem_singleton.mp hwork, Work.isBusy, hdeadline]
    rfl
  · refine .inr ⟨_, rfl, rfl, hdeadline, { owner := task }, ?_, rfl⟩
    rw [World.newWindow, Array.getElem?_push, if_pos rfl]

theorem Work.isBusy_of_layer {work : Work} (h : work.layer ≠ .busy) : work.isBusy = false := by
  cases work with
  | await pending seat resumption =>
    cases seat with
    | none => rfl
    | some seat => exact absurd rfl h
  | draw | ahead => exact absurd rfl h
  | _ => rfl

theorem Tree.DescribeAll.begins {trees : List Tree} {works : List Work} (h : Tree.DescribeAll trees w works)
    (u : World) (task : Nat) : u.Begins task works := by
  refine .inl ?_
  induction trees generalizing works with
  | nil =>
    cases h
    exact nofun
  | cons tree rest ih =>
    obtain ⟨work, more, rfl, hwork, hmore⟩ := h
    exact List.forall_mem_cons.mpr ⟨Work.isBusy_of_layer hwork.layer_ne_busy, ih hmore⟩

/-- A member that is ready, and those after it, one after the other. -/
theorem Work.Yields.next_draw {f : Feed} {task : Nat} {works : List Work}
    (h : (Work.draw f).Yields n w out effort)
    (hstep : (Work.draw f).step n task w = (.next works, v)) :
    v.Begins task works ∧ ∃ less < effort, Work.YieldsAll n v works out less := by
  have hv := World.Becomes.step hstep
  obtain ⟨enough, hfeed, hle⟩ := h
  cases hdraw : f.draw task w with
  | mk drawn next =>
    obtain ⟨feed, u⟩ := next
    rw [Work.step, hdraw] at hstep
    rcases Feed.draw_cases hdraw with ⟨rfl, hmembers, -, -⟩ | ⟨delay, value, rest, hmembers, rfl, hnext, -⟩ |
      ⟨rfl, -, -, -, -⟩
    · cases hstep
      exact ⟨.inl (List.forall_mem_nil _), enough, hle, hfeed.nil hmembers⟩
    · cases hstep
      have hleft : feed.members = rest := by rw [hnext]
      obtain ⟨first, last, less, more, hitem, hrest, rfl, heffort⟩ :=
        hfeed.cons (n := n) hmembers hleft (by rw [hnext])
      have hlater : (Work.draw feed).Yields n v last (more + 1) := ⟨more, hrest.becomes hv, Nat.le_refl _⟩
      have hbegins : v.Begins task [.item value, .draw feed] :=
        .inl (by simp [Work.isBusy, hnext])
      exact ⟨hbegins, less + (more + 1), by omega, _, _, _, _, hitem.becomes hv, .singleton hlater, rfl, Nat.le_refl _⟩
    · cases hstep

theorem Render.resume_singleton (resumption : Resumption) (outcome : Outcome) :
    ∃ work, resume resumption outcome = [work] := by
  cases outcome with
  | error error => exact ⟨_, rfl⟩
  | ok value => cases resumption <;> exact ⟨_, rfl⟩

theorem Render.result_singleton (raw : Bool) (outcome : Outcome) : ∃ work, result raw outcome = [work] := by
  unfold result
  split
  · exact ⟨_, rfl⟩
  · split
    · split <;> exact ⟨_, rfl⟩
    · exact ⟨_, rfl⟩

/-- The outcome of a pending value yields what the pending value does. -/
theorem Tree.Describes.resume {value : Tree} {pending task : Nat} {resumption : Resumption} {outcome : Outcome}
    (h : (Tree.later value).Describes w (.await pending none resumption)) (hv : w.Becomes v)
    (hpeek : v.peek pending = some outcome) :
    v.Begins task (Render.resume resumption outcome) ∧
      Work.YieldsAll n v (Render.resume resumption outcome) value.output value.effort := by
  obtain ⟨_, _, hlayer, -, hvalue⟩ := h
  cases hlayer
  have hnext := hvalue v outcome hv hpeek
  obtain ⟨work, hwork⟩ := Render.resume_singleton resumption outcome
  rw [hwork] at hnext ⊢
  have hdescribed := hnext work List.mem_cons_self
  exact ⟨.inl (List.forall_mem_singleton.mpr (Work.isBusy_of_layer hdescribed.layer_ne_busy)),
    .singleton hdescribed.yields⟩

/-- Every step takes effort, and what comes in the place of a piece of work yields what it did. -/
theorem Work.Yields.next {work : Work} {task : Nat} {works : List Work} (h : work.Yields n w out effort)
    (hstepped : work.isStepped = true) (hstep : work.step n task w = (.next works, v))
    (htaken : ∀ cell, work = .item (.sequence cell) → w.isTaken cell = false)
    (hpeek : ∀ pending seat resumption outcome, work = .await pending seat resumption →
      w.await (.task task) pending seat = (.ready outcome, v) → v.peek pending = some outcome) :
    v.Begins task works ∧ ∃ less < effort, Work.YieldsAll n v works out less := by
  have hv := World.Becomes.step hstep
  have hresumed : ∀ {value : Tree} {pending : Nat} {seat : Option Nat} {resumption : Resumption},
      work = .await pending seat resumption →
      (Tree.later value).Describes w (.await pending none resumption) →
        v.Begins task works ∧ Work.YieldsAll n v works value.output value.effort := by
    intro value pending seat resumption hwork hvalue
    rw [hwork, Work.step] at hstep
    cases hask : w.await (.task task) pending seat with
    | mk answer u =>
      rw [hask] at hstep
      cases answer with
      | ready outcome =>
        cases hstep
        exact hvalue.resume hv (hpeek pending seat resumption outcome hwork hask)
      | notYet seat' => cases hstep
  by_cases hbusy : work.layer = .busy
  · obtain ⟨pending, seat, resumption, rfl⟩ | ⟨feed, rfl⟩ | ⟨lineup, rfl⟩ := Work.cases_of_layer_busy hbusy
    · obtain ⟨value, hvalue, rfl, heffort⟩ := h
      obtain ⟨hbegins, hyields⟩ := hresumed rfl hvalue
      exact ⟨hbegins, value.effort, by omega, hyields⟩
    · exact h.next_draw hstep
    · cases hstepped
  · obtain ⟨tree, htree, rfl, heffort⟩ := (Work.yields_iff hbusy).mp h
    cases tree with
    | leaf leaf =>
      rw [Work.isStepped_of_layer_leaf htree] at hstepped
      cases hstepped
    | row parts =>
      obtain ⟨works', hlayer, hparts⟩ := htree
      obtain ⟨u, hrow, -⟩ := Work.step_row hlayer n task w
      rw [hrow] at hstep
      cases hstep
      exact ⟨hparts.begins v task, _, heffort, (hparts.becomes hv).yields⟩
    | list members =>
      obtain ⟨values, kept, hlayer, hmembers⟩ := htree
      rw [Work.step_list hlayer, Render.members] at hstep
      rw [Tree.effort] at heffort
      split at hstep
      · cases hstep
        exact ⟨hmembers.begins w task, _, by omega, hmembers.yields⟩
      · cases hstep
        have hfeed : Tree.DescribeAll members w ((Feed.ofList values).members.map fun m => .item m.2) := by
          rw [Feed.ofList, List.map_map]
          exact hmembers
        exact ⟨World.begins_feed rfl n task kept w, _, by omega,
          (Work.yieldsAll_feed rfl task kept hfeed).becomes hv⟩
    | sequence members =>
      obtain ⟨k, cell, hlayer, hcell, hmembers⟩ := htree
      obtain rfl := Work.eq_of_layer_sequence hlayer
      have hfresh := htaken k rfl
      rw [World.isTaken_of_getElem? hcell] at hfresh
      rw [Tree.effort] at heffort
      rw [Work.step_sequence] at hstep
      cases hstep
      have htake : (Render.take k w).1.members = cell.members ∧ (Render.take k w).1.deadline = none := by
        rcases Render.take_cases k w with ⟨-, hnone | htaken⟩ | ⟨cell', hcell', -, htake⟩
        · rw [Array.getElem?_eq_none hnone] at hcell
          cases hcell
        · rw [World.isTaken_of_getElem? hcell, hfresh] at htaken
          cases htaken
        · rw [htake]
          cases hcell.symm.trans hcell'
          exact ⟨rfl, rfl⟩
      rw [← htake.1] at hmembers
      have htook : w.Becomes (Render.take k w).2 := .took k .refl
      have hfed : (Render.take k w).2.Becomes
          (Render.feed n task (Render.take k w).1 [] (Render.take k w).2).2 :=
        (World.Becomes.survives _).feed .refl ..
      exact ⟨World.begins_feed htake.2 n task [] _, _, by omega,
        (Work.yieldsAll_feed htake.2 task [] (hmembers.becomes htook)).becomes hfed⟩
    | later value =>
      rw [Tree.effort] at heffort
      have hlater := htree
      obtain ⟨pending, resumption, hlayer, -⟩ := htree
      obtain rfl := Work.eq_of_layer_later hlayer
      obtain ⟨hbegins, hyields⟩ := hresumed rfl hlater
      exact ⟨hbegins, value.effort, by omega, hyields⟩
    | call result =>
      obtain ⟨component, e, hlayer, hresult⟩ := htree
      rw [Work.step_call hlayer] at hstep
      cases hstep
      have hnext := hresult w .refl
      obtain ⟨work, hwork⟩ := Render.result_singleton e.raw (w.callComponent component e.props e.children).1
      rw [hwork] at hnext ⊢
      have hdescribed := hnext work List.mem_cons_self
      exact ⟨.inl (List.forall_mem_singleton.mpr (Work.isBusy_of_layer hdescribed.layer_ne_busy)), _,
        heffort, .singleton hdescribed.yields⟩

/-! ## Lists in work -/

theorem Output.error?_append (first last : Output) :
    Output.error? (first ++ last) = (Output.error? first).or (Output.error? last) := List.findSome?_append

theorem Output.error?_ok (fragments : List String) : Output.error? (fragments.map .ok) = none := by
  induction fragments with
  | nil => rfl
  | cons text rest ih => exact ih

theorem Member.YieldsAll.append {members others : List Member} (h : Member.YieldsAll n w members first less)
    (hothers : Member.YieldsAll n w others last more) :
    Member.YieldsAll n w (members ++ others) (first ++ last) (less + more) := by
  induction members generalizing first less with
  | nil =>
    cases h
    cases others with
    | nil => exact hothers
    | cons other rest =>
      obtain ⟨_, _, _, _, hother, hrest, hout, heffort⟩ := hothers
      exact ⟨_, _, _, _, hother, hrest, hout, Nat.le_trans heffort (Nat.le_add_left ..)⟩
  | cons member rest ih =>
    obtain ⟨_, _, _, _, hmember, hrest, rfl, heffort⟩ := h
    refine ⟨_, _, _, _, hmember, ih hrest, List.append_assoc .., ?_⟩
    omega

theorem Member.YieldsAll.split {members others : List Member}
    (h : Member.YieldsAll n w (members ++ others) out effort) :
    ∃ first last less more, Member.YieldsAll n w members first less ∧
      Member.YieldsAll n w others last more ∧ out = first ++ last ∧ less + more ≤ effort := by
  induction members generalizing out effort with
  | nil => exact ⟨[], out, 0, effort, rfl, h, rfl, by omega⟩
  | cons member rest ih =>
    obtain ⟨_, _, cost, _, hmember, hrest, rfl, heffort⟩ := h
    obtain ⟨first, last, less, more, hfirst, hlast, rfl, hle⟩ := ih hrest
    refine ⟨_, last, cost + less, more, ⟨_, _, _, _, hmember, hfirst, rfl, Nat.le_refl _⟩, hlast,
      (List.append_assoc ..).symm, ?_⟩
    omega

/-- A member yields its part, and the list with another member in its place that yields as much. -/
theorem Work.Yields.member {l : Lineup} {before after : List Member} {member : Member}
    (h : (Work.ahead l).Yields n w out effort) (hmembers : l.members = before ++ member :: after) :
    ∃ part cost rest, member.Yields n w part cost ∧ rest + cost ≤ effort ∧
      ∀ {v : World} {l' : Lineup} {member' : Member} {cost' : Nat}, w.Becomes v →
        member'.Yields n v part cost' → l'.members = before ++ member' :: after → l'.feed = l.feed →
          (Work.ahead l').Yields n v out (rest + cost') := by
  obtain ⟨hn, first, last, less, more, hall, hfeed, rfl, heffort⟩ := h
  rw [hmembers] at hall
  obtain ⟨front, back, lessFront, lessBack, hfront, hback, rfl, hle⟩ := hall.split
  obtain ⟨part, others, cost, moreOthers, hmember, hothers, rfl, hle'⟩ := hback
  refine ⟨part, cost, lessFront + moreOthers + more + 1, hmember, by omega, ?_⟩
  intro v l' member' cost' hv hmember' hplaced hsame
  have hback' : Member.YieldsAll n v (member' :: after) (part ++ others) (cost' + moreOthers) :=
    ⟨_, _, _, _, hmember', hothers.becomes hv, rfl, Nat.le_refl _⟩
  have hfits : l'.Fits n := by
    refine ⟨hn.1, fun hsome => ?_⟩
    rw [hsame] at hsome ⊢
    have hroom := hn.2 hsome
    rw [hmembers, List.length_append, List.length_cons] at hroom
    rwa [hplaced, List.length_append, List.length_cons]
  refine ⟨hfits, _, last, _, more, hplaced ▸ (hfront.becomes hv).append hback', hsame ▸ hfeed.becomes hv, rfl, ?_⟩
  omega

/-- What comes out at the front is what comes first. -/
theorem Work.Yields.through {l l' : Lineup} {number : Nat} {fragments : List String}
    (h : (Work.ahead l).Yields n w out effort) (hfront : l.front? = some (.through number fragments, l')) :
    ∃ last less, (Work.ahead l').Yields n w last less ∧ out = fragments.map .ok ++ last ∧
      less + fragments.length + 2 ≤ effort := by
  obtain ⟨hn, first, last, less, more, hall, hfeed, rfl, heffort⟩ := h
  unfold LineupOf.front? at hfront
  split at hfront
  · rename_i texts rest hmembers
    cases hfront
    rw [hmembers] at hall
    obtain ⟨_, others, cost, moreOthers, ⟨rfl, hcost⟩, hothers, rfl, hle⟩ := hall
    have hfits : LineupOf.Fits n { l with members := rest } := by
      refine ⟨hn.1, fun hsome => ?_⟩
      have hroom := hn.2 hsome
      rw [hmembers] at hroom
      exact ⟨Nat.lt_of_succ_lt hroom.1, hroom.2⟩
    refine ⟨others ++ last, moreOthers + more + 1, ⟨hfits, others, last, moreOthers, more, hothers, hfeed, rfl,
      Nat.le_refl _⟩, List.append_assoc .., ?_⟩
    omega
  · cases hfront
  · cases hfront

theorem Work.Yields.failed {l l' : Lineup} {error : Error} (h : (Work.ahead l).Yields n w out effort)
    (hfront : l.front? = some (.failed error, l')) : Output.error? out = some error := by
  obtain ⟨hn, first, last, less, more, hall, hfeed, rfl, heffort⟩ := h
  unfold LineupOf.front? at hfront
  split at hfront
  · cases hfront
  · rename_i error' rest hmembers
    cases hfront
    rw [hmembers] at hall
    obtain ⟨part, others, cost, moreOthers, ⟨herror, -⟩, -, rfl, -⟩ := hall
    rw [Output.error?_append, Output.error?_append, herror]
    rfl
  · cases hfront

/-- A list with nothing left yields nothing. -/
theorem Work.Yields.isOver {l : Lineup} (h : (Work.ahead l).Yields n w out effort)
    (hover : l.isOver = true) : out = [] := by
  obtain ⟨hn, first, last, less, more, hall, hfeed, rfl, heffort⟩ := h
  rw [LineupOf.isOver, Bool.and_eq_true, List.isEmpty_iff, List.isEmpty_iff] at hover
  rw [hover.1] at hall
  cases hall
  exact hfeed.nil hover.2

/-- A member that is drawn into a window takes less effort than one that is to be drawn. -/
theorem Work.Yields.drawn {l : Lineup} {feed : Feed} {delay : Nat} {value : Value}
    {rest : List (Nat × Value)} (h : (Work.ahead l).Yields n w out effort)
    (hmembers : l.feed.members = (delay, value) :: rest) (hfeed : feed.members = rest)
    (hdeadline : feed.deadline = none) (task : Nat) (event : Event) :
    ∃ less < effort, (Work.ahead { l with
      feed, members := l.members ++ [.running task [] [.note event, .item value]] }).Yields n w out less := by
  obtain ⟨hn, first, last, less, more, hall, hlast, rfl, heffort⟩ := h
  obtain ⟨part, others, cost, moreOthers, hitem, hothers, rfl, hle⟩ :=
    hlast.cons (n := n) hmembers hfeed hdeadline
  have hstack : Work.YieldsAll n w [.note event, .item value] part (cost + 1) := by
    have happend := (Work.yieldsAll_note (n := n) (w := w) event).append (.singleton hitem)
    rw [Nat.add_comm]
    exact happend
  have hnew : Member.YieldsAll n w [.running task [] [.note event, .item value]] part (2 * (cost + 1) + 3) :=
    ⟨part, [], _, 0, ⟨part, cost + 1, hstack, rfl, Nat.le_refl _⟩, rfl, (List.append_nil part).symm,
      Nat.le_refl _⟩
  have hfits : LineupOf.Fits n
      { l with feed, members := l.members ++ [.running task [] [.note event, .item value]] } := by
    refine ⟨hn.1, fun hsome => ?_⟩
    rw [hdeadline] at hsome
    cases hsome
  refine ⟨less + (2 * (cost + 1) + 3) + moreOthers + 1, by omega, hfits, first ++ part, others, _, moreOthers,
    hall.append hnew, hothers, (List.append_assoc ..).symm, Nat.le_refl _⟩

/-- A list whose next member has got a moment. -/
theorem Work.Yields.timed {l : Lineup} (h : (Work.ahead l).Yields n w out effort)
    (hnone : l.feed.deadline = none) (hroom : l.members.length < n) (hsome : l.feed.members ≠ [])
    (deadline : Nat) :
    ∃ less < effort, (Work.ahead { l with feed := { l.feed with deadline := some deadline } }).Yields
      n w out less := by
  obtain ⟨hn, first, last, less, more, hall, hlast, rfl, heffort⟩ := h
  obtain ⟨more', hlt, hlast'⟩ := hlast.wait hnone deadline
  exact ⟨less + more' + 1, by omega, ⟨hn.1, fun _ => ⟨hroom, hsome⟩⟩, first, last, less, more', hall, hlast', rfl,
    Nat.le_refl _⟩

end TaggedMarkup
