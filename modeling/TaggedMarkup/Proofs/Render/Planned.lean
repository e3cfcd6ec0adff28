import TaggedMarkup.Proofs.Render.Ending
import TaggedMarkup.Proofs.Render.Unfolding

/-!
# What is planned

A plan **describes** a piece of work (`Plan.Describes`) if the work comes to this plan, whatever is rendered
meanwhile: components return the same in any world, and so do pending values, each after its own delay. What is
planned stays planned, and without the times it is the tree that the work comes to.

So it is with pending values that give a value they were made with (`World.Gives.describes`).
-/

namespace TaggedMarkup

/-- Whoever asks the pending value waits for the one at the end of its chain of sources, the base: where that
one comes from, and the time it takes. -/
inductive World.Hinges (w : World) (origins : List Origin) : Nat → Nat → Origin → Nat → Prop
  | clock {pending delay : Nat} {origin : Origin} {keeps : List Value} {body : Action} :
    origins[pending]? = some origin → w.job? pending = some (.after delay keeps body) →
      Hinges w origins pending pending origin delay
  | source {pending source base delay : Nat} {origin : Origin} : w.job? pending = some (.checking source) →
    Hinges w origins source base origin delay → Hinges w origins pending base origin delay

mutual

/-- The plan of a piece of work, in this world and whatever becomes of it. -/
def Plan.Describes : Plan → World → List Origin → Work → Prop
  | .leaf out, _, _, work => work.layer = .leaf out
  | .group .row parts, w, origins, work => ∃ works, work.layer = .row works ∧
    Plan.DescribeAll parts w origins works
  | .group .list parts, w, origins, work => ∃ values kept, work.layer = .list values kept ∧
    Plan.DescribeMembers parts w origins (values.map (0, ·))
  | .group .sequence parts, w, origins, work => ∃ n cell, work.layer = .sequence n ∧
    w.sequences[n]? = some cell ∧ Plan.DescribeMembers parts w origins cell.members
  | .later (some origin) delay none false value, w, origins, work => ∃ pending resumption base,
    work.layer = .later pending resumption ∧ w.Hinges origins pending base origin delay ∧
      ∀ v more outcome, w.Records origins v more → v.peek pending = some outcome →
        ∀ next ∈ Render.resume resumption outcome, value.Describes v more next
  | .call site false result, w, origins, work => ∃ component e, work.layer = .call component e ∧
    ∀ v more, w.Records origins v more →
      ∀ next ∈ Render.result e.raw (v.callComponent component e.props e.children).1,
        result.Describes (v.callComponent component e.props e.children).2
          (Origin.grow (.called site) (v.callComponent component e.props e.children).2.pendings.size more) next
  | _, _, _, _ => False

/-- The plans of pieces of work, one for each. -/
def Plan.DescribeAll : List Plan → World → List Origin → List Work → Prop
  | [], _, _, works => works = []
  | plan :: plans, w, origins, works => ∃ work rest, works = work :: rest ∧ plan.Describes w origins work ∧
    Plan.DescribeAll plans w origins rest

/-- The plans of members that have not been drawn, each with the time that it takes. -/
def Plan.DescribeMembers : List Plan → World → List Origin → List (Nat × Value) → Prop
  | [], _, _, members => members = []
  | .later none delay none false value :: plans, w, origins, members => ∃ member rest,
    members = (delay, member) :: rest ∧ value.Describes w origins (.item member) ∧
      Plan.DescribeMembers plans w origins rest
  | _ :: _, _, _, _ => False

end

namespace World

variable {w v : World} {origins more : List Origin} {pending base delay : Nat} {origin : Origin}

theorem Hinges.records (h : w.Hinges origins pending base origin delay) (hv : w.Records origins v more) :
    v.Hinges more pending base origin delay := by
  induction h with
  | clock horigin hjob => exact .clock (Origin.getElem?_of_prefix hv.isPrefix horigin) (hv.becomes.lasts.job? hjob)
  | source hjob _ ih => exact .source (hv.becomes.lasts.job? hjob) ih

theorem Hinges.lt_size (h : w.Hinges origins pending base origin delay) : pending < w.pendings.size := by
  cases h with
  | clock _ hjob | source hjob => exact lt_size_of_job? hjob

/-- Whatever happens can be put on record. -/
theorem Becomes.records (h : w.Becomes v) (origins : List Origin) : ∃ more, w.Records origins v more := by
  induction h with
  | refl => exact ⟨origins, .refl⟩
  | hidden _ hseen ih => exact ih.imp fun _ h => h.hidden hseen
  | noted event _ ih => exact ih.imp fun _ h => h.noted event
  | called component props children _ ih => exact ih.elim fun _ h => ⟨_, h.called 0 component props children⟩
  | took sequence _ ih => exact ih.imp fun _ h => h.took sequence
  | asked waiter pending own _ ih => exact ih.elim fun _ h => ⟨_, h.asked waiter pending own⟩
  | passed _ hadvance ih => exact ih.imp fun _ h => h.passed hadvance

end World

namespace Plan

variable {w v : World} {origins more : List Origin}

mutual

/-- What is planned stays planned. -/
theorem Describes.records (hv : w.Records origins v more) : ∀ {plan : Plan} {work : Work},
    plan.Describes w origins work → plan.Describes v more work
  | .leaf _, _, h => h
  | .group .row _, _, ⟨works, hlayer, hparts⟩ => ⟨works, hlayer, DescribeAll.records hv hparts⟩
  | .group .list _, _, ⟨values, kept, hlayer, hmembers⟩ =>
    ⟨values, kept, hlayer, DescribeMembers.records hv hmembers⟩
  | .group .sequence _, _, ⟨n, cell, hlayer, hcell, hmembers⟩ => by
    obtain ⟨cell', hcell', hsame⟩ := hv.becomes.keepsSource n cell hcell
    refine ⟨n, cell', hlayer, hcell', ?_⟩
    rw [hsame]
    exact DescribeMembers.records hv hmembers
  | .later (some _) _ none false _, _, ⟨pending, resumption, base, hlayer, hhinges, hvalue⟩ =>
    ⟨pending, resumption, base, hlayer, hhinges.records hv,
      fun u last outcome hu => hvalue u last outcome (hv.trans hu)⟩
  | .call _ false _, _, ⟨component, e, hlayer, hresult⟩ =>
    ⟨component, e, hlayer, fun u last hu => hresult u last (hv.trans hu)⟩

theorem DescribeAll.records (hv : w.Records origins v more) : ∀ {plans : List Plan} {works : List Work},
    DescribeAll plans w origins works → DescribeAll plans v more works
  | [], _, h => h
  | _ :: _, _, ⟨work, rest, hworks, hwork, hrest⟩ =>
    ⟨work, rest, hworks, Describes.records hv hwork, DescribeAll.records hv hrest⟩

theorem DescribeMembers.records (hv : w.Records origins v more) : ∀ {plans : List Plan}
    {members : List (Nat × Value)}, DescribeMembers plans w origins members → DescribeMembers plans v more members
  | [], _, h => h
  | .later none _ none false _ :: _, _, ⟨member, rest, hmembers, hmember, hrest⟩ =>
    ⟨member, rest, hmembers, Describes.records hv hmember, DescribeMembers.records hv hrest⟩

end

/-- What is planned for members is planned for one after the other. -/
theorem describeMembers_cons {plan : Plan} {plans : List Plan} {members : List (Nat × Value)} :
    DescribeMembers (plan :: plans) w origins members ↔ ∃ delay member rest value,
      plan = .later none delay none false value ∧ members = (delay, member) :: rest ∧
        value.Describes w origins (.item member) ∧ DescribeMembers plans w origins rest := by
  constructor
  · intro h
    match plan, h with
    | .later none delay none false value, ⟨member, rest, hmembers, hvalue, hrest⟩ =>
      exact ⟨delay, member, rest, value, rfl, hmembers, hvalue, hrest⟩
  · rintro ⟨delay, member, rest, value, rfl, hmembers, hvalue, hrest⟩
    exact ⟨member, rest, hmembers, hvalue, hrest⟩

/-! ## The tree in a plan -/

mutual

/-- The tree that is left of a plan without the times. -/
def tree : Plan → Tree
  | .leaf out => .leaf out
  | .group .row parts => .row (treeOfAll parts)
  | .group .list parts => .list (treeOfAll parts)
  | .group .sequence parts => .sequence (treeOfAll parts)
  | .later (some _) _ _ _ value => .later value.tree
  | .later none _ _ _ value => value.tree
  | .call _ _ result => .call result.tree

def treeOfAll : List Plan → List Tree
  | [] => []
  | plan :: rest => plan.tree :: treeOfAll rest

end

mutual

/-- Where a plan describes something, so does its tree. -/
theorem Describes.tree : ∀ {plan : Plan} {w : World} {origins : List Origin} {work : Work},
    plan.Describes w origins work → plan.tree.Describes w work
  | .leaf _, _, _, _, h => h
  | .group .row _, _, _, _, ⟨works, hlayer, hparts⟩ => ⟨works, hlayer, DescribeAll.tree hparts⟩
  | .group .list _, w, _, _, ⟨values, kept, hlayer, hmembers⟩ => by
    refine ⟨values, kept, hlayer, ?_⟩
    have htrees := DescribeMembers.tree hmembers
    rwa [List.map_map] at htrees
  | .group .sequence _, _, _, _, ⟨n, cell, hlayer, hcell, hmembers⟩ =>
    ⟨n, cell, hlayer, hcell, DescribeMembers.tree hmembers⟩
  | .later (some _) _ none false _, _, origins, _, ⟨pending, resumption, base, hlayer, hhinges, hvalue⟩ => by
    refine ⟨pending, resumption, hlayer, hhinges.lt_size, fun v outcome hv hpeek next hnext => ?_⟩
    obtain ⟨more, hmore⟩ := hv.records origins
    exact Describes.tree (hvalue v more outcome hmore hpeek next hnext)
  | .call _ false _, _, origins, _, ⟨component, e, hlayer, hresult⟩ => by
    refine ⟨component, e, hlayer, fun v hv next hnext => ?_⟩
    obtain ⟨more, hmore⟩ := hv.records origins
    exact Describes.tree (hresult v more hmore next hnext)

theorem DescribeAll.tree : ∀ {plans : List Plan} {w : World} {origins : List Origin} {works : List Work},
    DescribeAll plans w origins works → Tree.DescribeAll (treeOfAll plans) w works
  | [], _, _, _, h => h
  | _ :: _, _, _, _, ⟨work, rest, hworks, hwork, hrest⟩ =>
    ⟨work, rest, hworks, Describes.tree hwork, DescribeAll.tree hrest⟩

theorem DescribeMembers.tree : ∀ {plans : List Plan} {w : World} {origins : List Origin}
    {members : List (Nat × Value)}, DescribeMembers plans w origins members →
      Tree.DescribeAll (treeOfAll plans) w (members.map fun member => .item member.2)
  | [], _, _, _, h => by
    rw [DescribeMembers] at h
    subst h
    rfl
  | .later none _ none false value :: _, w, _, _, ⟨member, rest, hmembers, hmember, hrest⟩ => by
    have hvalue : value.tree.Describes w (.item member) := Describes.tree hmember
    subst hmembers
    exact ⟨_, _, rfl, hvalue, DescribeMembers.tree hrest⟩

end

mutual

/-- Where no error is to come, nothing fails. -/
theorem succeeds_of_output : ∀ {plan : Plan}, plan.tree.output.error? = none → plan.Succeeds
  | .leaf (.ok text), _ => ⟨text, rfl⟩
  | .leaf (.error _), h => by cases h
  | .group .row _, h | .group .list _, h | .group .sequence _, h => succeedAll_of_output h
  | .later (some _) _ _ _ value, h | .later none _ _ _ value, h => by
    have hvalue : value.Succeeds := succeeds_of_output h
    exact hvalue
  | .call _ _ result, h => by
    have hresult : result.Succeeds := succeeds_of_output h
    exact hresult

theorem succeedAll_of_output : ∀ {plans : List Plan}, (Tree.outputOfAll (treeOfAll plans)).error? = none →
    SucceedAll plans
  | [], _ => trivial
  | plan :: rest, h => by
    rw [treeOfAll, Tree.outputOfAll, Output.error?_append, Option.or_eq_none_iff] at h
    exact ⟨succeeds_of_output h.1, succeedAll_of_output h.2⟩

end

end Plan

/-! ## Values that come after a delay -/

/-- Nothing is there but pending values, each of which comes to a value after a delay. -/
structure World.Gives (w : World) : Prop where
  components : w.components = #[]
  sequences : w.sequences = #[]
  gives : ∀ {p : Nat} {job : Job}, w.job? p = some job → ∃ delay keeps value,
    job = .after delay keeps (.give value) ∧ ∀ outcome, w.peek p = some outcome → outcome = .ok value

namespace World.Gives

variable {w v : World} {p delay : Nat} {keeps : List Value} {value : Value} {origins : List Origin}
  {origin : Origin}

theorem same (h : w.Gives) (hv : Same w v) : v.Gives where
  components := hv.components.trans h.components
  sequences := hv.sequences.trans h.sequences
  gives {p job} hjob := by
    rw [hv.job?] at hjob
    rw [hv.peek]
    exact h.gives hjob

/-- Where a pending value comes to an outcome, it is the value. -/
theorem setStage (h : w.Gives) (stage : Stage) (hjob : w.job? p = some (.after delay keeps (.give value)))
    (hstage : ∀ outcome, stage.outcome? = some outcome → outcome = .ok value) :
    (w.modifyPending p fun cell => { cell with stage }).Gives where
  components := h.components
  sequences := h.sequences
  gives {n job} hn := by
    rw [job?_setStage] at hn
    by_cases hne : n = p
    · subst hne
      cases hn.symm.trans hjob
      rw [peek_setStage (lt_size_of_job? hjob)]
      exact ⟨delay, keeps, value, rfl, hstage⟩
    · rw [peek_modifyPending_of_ne hne]
      exact h.gives hn

theorem settle (h : w.Gives) (hjob : w.job? p = some (.after delay keeps (.give value))) :
    (w.settle p (.ok value)).Gives := by
  have hseen := (h.same (.seen w)).setStage (.done (.ok value)) ((job?_seen w p).trans hjob)
    fun outcome houtcome => (Option.some.inj houtcome).symm
  rw [← seen_settle] at hseen
  exact hseen.same (Same.seen _).symm

theorem await (h : w.Gives) (waiter : Waiter) (pending : Nat) (own : Option Nat) :
    (w.await waiter pending own).2.Gives := by
  obtain hclosed | ⟨cell, hcell, -, hopen⟩ := w.cases_open pending
  · rw [World.await, (ask_closed [] hclosed).1]
    exact h
  · obtain ⟨delay, keeps, value, hjob, -⟩ := h.gives (job?_of_getElem? hcell)
    have hsame := same_seatedAt waiter pending own cell w
    have hseated := h.same hsame
    have hjob' : (w.seatedAt waiter pending own cell).2.job? pending = some (.after delay keeps (.give value)) := by
      rw [hsame.job?, job?_of_getElem? hcell, hjob]
    rw [World.await, ask_open hcell hopen, hjob]
    dsimp only
    split
    · exact (hseated.same (.note (.finished pending cell.label) _)).settle hjob'
    · have hstarted := Same.of_seen (seen_startTimer delay pending cell.stage
        (w.seatedAt waiter pending own cell).2)
      exact (hseated.same hstarted).setStage _ ((hstarted.job? pending).trans hjob')
        fun outcome houtcome => by cases houtcome

theorem empty : World.Gives {} where
  components := rfl
  sequences := rfl
  gives hjob := by cases hjob

/-- Another pending value is made. -/
theorem newPending (h : w.Gives) (label : Option String) (delay : Nat) (keeps : List Value) (value : Value) :
    (w.newPending { label, job := .after delay keeps (.give value) }).2.Gives where
  components := h.components
  sequences := h.sequences
  gives {n job} hn := by
    rw [(Grown.newPending label _ w).peek]
    rw [job?, World.newPending, Array.getElem?_push] at hn
    split at hn
    · rename_i hnew
      cases hn
      refine ⟨delay, keeps, value, rfl, fun outcome hpeek => ?_⟩
      obtain ⟨job, hold⟩ := exists_job_of_peek hpeek
      exact absurd (lt_size_of_job? hold) (hnew ▸ Nat.lt_irrefl _)
    · exact h.gives hn

/-- Whatever becomes of the world, nothing else comes of the pending values. -/
theorem becomes (h : w.Gives) (hv : w.Becomes v) : v.Gives := by
  induction hv with
  | refl => exact h
  | hidden _ hseen ih => exact ih.same (.of_seen hseen)
  | noted event _ ih => exact ih.same (.note event _)
  | called component props children _ ih =>
    rw [callComponent, ih.components]
    exact ih
  | @took u sequence _ ih =>
    rcases Render.take_cases sequence u with ⟨htake, -⟩ | ⟨cell, hcell, -⟩
    · rw [htake]
      exact ih
    · rw [ih.sequences] at hcell
      cases hcell
  | asked waiter pending own _ ih => exact ih.await waiter pending own
  | passed _ hadvance ih => exact ih.same (same_advance hadvance)

theorem clean (h : w.Gives) (pieces : List Work) : Clean w pieces := by
  intro v more hv
  have hgives := h.becomes hv.becomes
  refine ⟨fun p source hjob => ?_, fun n _ => ?_⟩
  · obtain ⟨_, _, _, hafter, -⟩ := hgives.gives hjob
    cases hafter
  · rw [isTaken, hgives.sequences]
    rfl

/-- A pending value is rendered as the value is that it comes to. -/
theorem describes (h : w.Gives) (hjob : w.job? p = some (.after delay keeps (.give value)))
    (horigin : origins[p]? = some origin) {plan : Plan}
    (hplan : ∀ v more, w.Records origins v more → plan.Describes v more (.item value)) :
    (Plan.group .row [.later (some origin) delay none false plan]).Describes w origins (.item (.pending p)) := by
  refine ⟨_, rfl, _, [], rfl,
    ⟨p, .item, p, rfl, .clock horigin hjob, fun v more outcome hv hpeek next hnext => ?_⟩, rfl⟩
  obtain ⟨_, _, _, hafter, hvalue⟩ := (h.becomes hv.becomes).gives (hv.becomes.lasts.job? hjob)
  cases hafter
  rw [hvalue outcome hpeek] at hnext
  cases List.mem_singleton.mp hnext
  exact hplan v more hv

end World.Gives

end TaggedMarkup
