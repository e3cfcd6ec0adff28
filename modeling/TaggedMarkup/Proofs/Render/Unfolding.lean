import TaggedMarkup.Proofs.Render.Plans

/-!
# What is left of a plan

Whoever works a stack off has what is left of a plan before him as a list: the parts that are in work or not
begun, in their order (`Plan.Unfolds`). A step of the first one is a step of the whole plan, and what is left of
the first one then stands before the others (`Plan.Unfolds.steps`).

A plan is **sound** if no call is planned twice or was made before, and nothing fails. Steps keep it sound.
-/

namespace TaggedMarkup.Plan

variable {n time : Nat} {given : Origin → Option Nat} {plan plan' other : Plan} {l l' m : Ledger}
  {plans rest : List Plan}

/-! ## Some steps -/

namespace Steps

theorem single (h : Step n given time plan l plan' l') : Steps n given time plan l plan' l' := .step .refl h

theorem trans (h : Steps n given time plan l plan' l') (h' : Steps n given time plan' l' other m) :
    Steps n given time plan l other m := by
  induction h' with
  | refl => exact h
  | step _ hstep ih => exact ih.step hstep

theorem value {source : Option Origin} {delay : Nat} {moment : Option Nat}
    (h : Steps n given time plan l plan' l') :
    Steps n given time (.later source delay moment true plan) l (.later source delay moment true plan') l' := by
  induction h with
  | refl => exact .refl
  | step _ hstep ih => exact ih.step (.value hstep)

theorem result {site : Nat} (h : Steps n given time plan l plan' l') :
    Steps n given time (.call site true plan) l (.call site true plan') l' := by
  induction h with
  | refl => exact .refl
  | step _ hstep ih => exact ih.step (.result hstep)

theorem part {kind : Kind} {before after : List Plan} (hopens : Opens (kind.width n) before)
    (h : Steps n given time plan l plan' l') :
    Steps n given time (.group kind (before ++ plan :: after)) l (.group kind (before ++ plan' :: after)) l' := by
  induction h with
  | refl => exact .refl
  | step _ hstep ih => exact ih.step (.part hopens hstep)

theorem lasts (h : Steps n given time plan l plan' l') : l.Lasts l' := by
  induction h with
  | refl => exact .refl l
  | step _ hstep ih => exact ih.trans hstep.lasts

/-- Steps are taken on the way to the end. -/
theorem takes {pauses : Nat → Nat → Plan → Prop} {finish : Nat} (h : Steps n given time plan l plan' l')
    (h' : Takes n given pauses time plan' l' finish) : Takes n given pauses time plan l finish := by
  induction h with
  | refl => exact h'
  | step _ hstep ih => exact ih (.step hstep h')

end Steps

/-! ## What is left -/

/-- What is left of the plan, in the order in which it is worked off. -/
inductive Unfolds (n : Nat) : Plan → List Plan → Prop
  | whole (plan : Plan) : Unfolds n plan [plan]
  | nothing {plan : Plan} : plan.isOver = true → Unfolds n plan []
  | part {kind : Kind} {before after plans : List Plan} {plan : Plan} : kind.width n ≤ 1 →
    (∀ plan ∈ before, plan.isOver = true) → Unfolds n plan plans →
      Unfolds n (.group kind (before ++ plan :: after)) (plans ++ after)
  | value {source : Option Origin} {delay : Nat} {moment : Option Nat} {plan : Plan} {plans : List Plan} :
    Unfolds n plan plans → Unfolds n (.later source delay moment true plan) plans
  | result {site : Nat} {plan : Plan} {plans : List Plan} : Unfolds n plan plans →
    Unfolds n (.call site true plan) plans

namespace Unfolds

theorem isOver (h : Unfolds n plan []) : plan.isOver = true := by
  generalize hnil : ([] : List Plan) = plans at h
  induction h with
  | whole => cases hnil
  | nothing hover => exact hover
  | @part kind before after plans plan hwidth hbefore _ ih =>
    obtain ⟨rfl, rfl⟩ := List.append_eq_nil_iff.mp hnil.symm
    rw [Plan.isOver, areOver_iff]
    intro x hx
    rcases List.mem_append.mp hx with hmem | hmem
    · exact hbefore x hmem
    · rw [List.mem_singleton.mp hmem]
      exact ih rfl
  | value _ ih =>
    rw [Plan.isOver, Bool.true_and]
    exact ih hnil
  | result _ ih =>
    rw [Plan.isOver, Bool.true_and]
    exact ih hnil

/-- Parts that come one after the other are left one after the other. -/
theorem parts {kind : Kind} (hwidth : kind.width n ≤ 1) (parts : List Plan) :
    Unfolds n (.group kind parts) parts := by
  cases parts with
  | nil => exact .nothing rfl
  | cons plan rest =>
    have hpart : Unfolds n (.group kind ([] ++ plan :: rest)) ([plan] ++ rest) := .part hwidth nofun (.whole plan)
    exact hpart

/-- The first part that is left takes steps, and what is left of it then stands before the others. -/
theorem steps {head head' : Plan} (h : Unfolds n plan (head :: rest)) (hsteps : Steps n given time head l head' l')
    (hleft : Unfolds n head' plans) :
    ∃ plan', Steps n given time plan l plan' l' ∧ Unfolds n plan' (plans ++ rest) := by
  generalize hall : head :: rest = all at h
  induction h generalizing head rest with
  | whole plan =>
    cases hall
    exact ⟨head', hsteps, by rwa [List.append_nil]⟩
  | nothing => cases hall
  | @part kind before after others plan hwidth hbefore hplan ih =>
    have hopens : Opens (kind.width n) before := opens_of_areOver _ hbefore
    cases others with
    | nil =>
      -- the part in work is over, and the next one begins
      cases hall
      have hover : ∀ x ∈ before ++ [plan], x.isOver = true := fun x hx => by
        rcases List.mem_append.mp hx with hmem | hmem
        · exact hbefore x hmem
        · exact List.mem_singleton.mp hmem ▸ hplan.isOver
      refine ⟨.group kind (before ++ [plan] ++ head' :: rest), ?_, .part hwidth hover hleft⟩
      have hgroup : Steps n given time (.group kind (before ++ [plan] ++ head :: rest)) l
          (.group kind (before ++ [plan] ++ head' :: rest)) l' := hsteps.part (opens_of_areOver _ hover)
      rwa [List.append_assoc, List.singleton_append] at hgroup
    | cons first others =>
      obtain ⟨rfl, rfl⟩ := List.cons.inj (hall.trans List.cons_append)
      obtain ⟨plan', hplan', hunfolds⟩ := ih hsteps rfl
      refine ⟨.group kind (before ++ plan' :: after), hplan'.part hopens, ?_⟩
      rw [← List.append_assoc]
      exact .part hwidth hbefore hunfolds
  | value _ ih =>
    obtain ⟨plan', hplan', hunfolds⟩ := ih hsteps hall
    exact ⟨_, hplan'.value, .value hunfolds⟩
  | result _ ih =>
    obtain ⟨plan', hplan', hunfolds⟩ := ih hsteps hall
    exact ⟨_, hplan'.result, .result hunfolds⟩

/-- Where the first part that is left is not over, neither is the plan. -/
theorem isOver_eq_false {head : Plan} (h : Unfolds n plan (head :: rest)) (hover : head.isOver = false) :
    plan.isOver = false := by
  generalize hall : head :: rest = all at h
  induction h generalizing head rest with
  | whole plan =>
    cases hall
    exact hover
  | nothing => cases hall
  | @part kind before after others plan hwidth hbefore _ ih =>
    rw [Plan.isOver, Bool.eq_false_iff, Ne, areOver_iff]
    intro hparts
    cases others with
    | nil =>
      cases hall
      have hhead := hparts head (by simp)
      cases hover.symm.trans hhead
    | cons first others =>
      cases hall
      have hplan := hparts plan (by simp)
      cases (ih hover rfl).symm.trans hplan
  | value _ ih =>
    rw [Plan.isOver, Bool.true_and]
    exact ih hover hall
  | result _ ih =>
    rw [Plan.isOver, Bool.true_and]
    exact ih hover hall

/-- Where the first part that is left has nothing to do, neither has the plan. -/
theorem rests {head : Plan} {k : Nat} (h : Unfolds n plan (head :: rest)) (hover : head.isOver = false)
    (hrests : head.Rests n k) (hdated : plan.Dated given time l) : plan.Rests n k := by
  generalize hall : head :: rest = all at h
  induction h generalizing head rest with
  | whole plan =>
    cases hall
    exact hrests
  | nothing => cases hall
  | @part kind before after others plan hwidth hbefore hplan ih =>
    have hall' := dateAll_iff.mp hdated
    refine restAll_iff.mpr fun front x back heq hopens => ?_
    rw [List.nil_append] at hopens
    have hfront := hopens.isOver hwidth
    have hx : x.Dated given time l := hall' x (by simp [heq])
    by_cases hdone : x.isOver = true
    · exact hx.rests hdone n k
    · -- the first part that is not over is the one in work, or the one after it
      rcases List.append_eq_append_iff.mp heq with ⟨others', rfl, hafter⟩ | ⟨others', rfl, hback⟩
      · cases others' with
        | nil =>
          cases hafter
          cases others with
          | nil => exact absurd hplan.isOver hdone
          | cons first others =>
            cases hall
            exact ih hover hrests hx rfl
        | cons y others' =>
          cases hafter
          have hplanOver : plan.isOver = true := hfront plan (by simp)
          cases others with
          | nil =>
            cases others' with
            | nil =>
              cases hall
              exact hrests
            | cons z others' =>
              cases hall
              have hheadOver : head.isOver = true := hfront head (by simp)
              cases hover.symm.trans hheadOver
          | cons first others =>
            cases hall
            cases (hplan.isOver_eq_false hover).symm.trans hplanOver
      · cases others' with
        | nil =>
          cases hback
          cases others with
          | nil => exact absurd hplan.isOver hdone
          | cons first others =>
            cases hall
            exact ih hover hrests hx rfl
        | cons y others' =>
          cases hback
          exact absurd (hbefore x (by simp)) hdone
  | value hplan ih =>
    obtain ⟨hcome, hmoment, hvalue⟩ := hdated
    obtain ⟨m, hm⟩ := Option.isSome_iff_exists.mp (hcome rfl)
    exact ⟨⟨m, hm, fun _ => rfl⟩, fun _ => ih hover hrests hvalue hall⟩
  | @result site plan plans _ ih =>
    have hplan : plan.Dated given time l := hdated
    exact ⟨rfl, ih hover hrests hplan hall⟩

end Unfolds

/-- What is left of a plan in which the moments are right. -/
theorem Dated.unfolds (h : plan.Dated given time l) (hleft : Unfolds n plan plans) :
    ∀ head ∈ plans, head.Dated given time l := by
  induction hleft with
  | whole plan => exact fun head hhead => List.mem_singleton.mp hhead ▸ h
  | nothing => exact nofun
  | part _ _ _ ih =>
    have hall := dateAll_iff.mp h
    intro head hhead
    rcases List.mem_append.mp hhead with hmem | hmem
    · exact ih (hall _ (by simp)) head hmem
    · exact hall head (by simp [hmem])
  | value _ ih => exact ih h.2.2
  | result _ ih => exact ih h

theorem Dated.steps (h : plan.Dated given time l) (hsteps : Steps n given time plan l plan' l') :
    plan'.Dated given time l' := by
  induction hsteps with
  | refl => exact h
  | step _ hstep ih => exact hstep.dated ih

/-! ## Sound plans -/

mutual

/-- The calls that are still to be made. -/
def sites : Plan → List Nat
  | .leaf _ => []
  | .group _ parts => sitesOfAll parts
  | .later _ _ _ _ value => value.sites
  | .call site made result => if made then result.sites else site :: result.sites

def sitesOfAll : List Plan → List Nat
  | [] => []
  | plan :: rest => plan.sites ++ sitesOfAll rest

end

mutual

/-- Nothing fails. -/
def Succeeds : Plan → Prop
  | .leaf out => ∃ text, out = .ok text
  | .group _ parts => SucceedAll parts
  | .later _ _ _ _ value => value.Succeeds
  | .call _ _ result => result.Succeeds

def SucceedAll : List Plan → Prop
  | [] => True
  | plan :: rest => plan.Succeeds ∧ SucceedAll rest

end

/-- No call is planned twice or was made before, and nothing fails. -/
structure Sound (l : Ledger) (plan : Plan) : Prop where
  nodup : plan.sites.Nodup
  fresh : ∀ site ∈ plan.sites, site ∉ l.sites
  succeeds : plan.Succeeds

theorem sitesOfAll_eq : sitesOfAll plans = plans.flatMap sites := by
  induction plans with
  | nil => rfl
  | cons plan rest ih => rw [sitesOfAll, ih, List.flatMap_cons]

theorem succeedAll_iff : SucceedAll plans ↔ ∀ plan ∈ plans, plan.Succeeds := by
  induction plans with
  | nil => simp [SucceedAll]
  | cons plan rest ih => simp [SucceedAll, ih]

/-- Calls that are made are no longer to be made. -/
theorem Step.sites (h : Step n given time plan l plan' l') :
    ∃ made, l'.sites = made ++ l.sites ∧ plan.sites.Perm (made ++ plan'.sites) := by
  induction h with
  | expect | join | come | start => exact ⟨[], rfl, .refl _⟩
  | value _ ih => exact ih
  | @call site result l hnew => exact ⟨[site], rfl, by simp [Plan.sites]⟩
  | result _ ih => simpa [Plan.sites] using ih
  | @part kind before after plan plan' l l' hopens _ ih =>
    obtain ⟨made, hmade, hperm⟩ := ih
    refine ⟨made, hmade, ?_⟩
    have hsites : ∀ x : Plan, (Plan.group kind (before ++ x :: after)).sites =
        before.flatMap Plan.sites ++ (x.sites ++ after.flatMap Plan.sites) := by
      intro x
      rw [Plan.sites, sitesOfAll_eq, List.flatMap_append, List.flatMap_cons]
    rw [hsites, hsites]
    have hmid : (before.flatMap Plan.sites ++ (plan.sites ++ after.flatMap Plan.sites)).Perm
        (before.flatMap Plan.sites ++ (made ++ (plan'.sites ++ after.flatMap Plan.sites))) := by
      refine List.Perm.append_left _ ?_
      rw [← List.append_assoc]
      exact hperm.append_right _
    exact hmid.trans (List.perm_append_comm_assoc ..)

theorem Step.succeeds (h : Step n given time plan l plan' l') (hplan : plan.Succeeds) : plan'.Succeeds := by
  induction h with
  | expect | join | come | start | call => exact hplan
  | value _ ih | result _ ih => exact ih hplan
  | part _ _ ih =>
    have hall := succeedAll_iff.mp hplan
    refine succeedAll_iff.mpr fun x hx => ?_
    rcases List.mem_append.mp hx with hmem | hmem
    · exact hall x (List.mem_append_left _ hmem)
    · rcases List.mem_cons.mp hmem with rfl | hmem
      · exact ih (hall _ (by simp))
      · exact hall x (List.mem_append_right _ (List.mem_cons_of_mem _ hmem))

theorem Sound.step (h : plan.Sound l) (hstep : Step n given time plan l plan' l') : plan'.Sound l' := by
  obtain ⟨made, hmade, hperm⟩ := hstep.sites
  obtain ⟨-, hnodup, hdisjoint⟩ := List.nodup_append.mp (hperm.nodup_iff.mp h.nodup)
  refine ⟨hnodup, fun site hsite hold => ?_, hstep.succeeds h.succeeds⟩
  rw [hmade] at hold
  rcases List.mem_append.mp hold with hmem | hmem
  · exact hdisjoint site hmem site hsite rfl
  · exact h.fresh site (hperm.mem_iff.mpr (List.mem_append_right _ hsite)) hmem

theorem Sound.steps (h : plan.Sound l) (hsteps : Steps n given time plan l plan' l') : plan'.Sound l' := by
  induction hsteps with
  | refl => exact h
  | step _ hstep ih => exact ih.step hstep

theorem Sound.part {kind : Kind} {parts : List Plan} (h : (Plan.group kind parts).Sound l) (hplan : plan ∈ parts) :
    plan.Sound l := by
  obtain ⟨before, after, rfl⟩ := List.append_of_mem hplan
  have hsites : (Plan.group kind (before ++ plan :: after)).sites =
      before.flatMap sites ++ (plan.sites ++ after.flatMap sites) := by
    rw [Plan.sites, sitesOfAll_eq, List.flatMap_append, List.flatMap_cons]
  have hnodup := h.nodup
  rw [hsites] at hnodup
  obtain ⟨-, hrest, -⟩ := List.nodup_append.mp hnodup
  refine ⟨(List.nodup_append.mp hrest).1, fun site hsite => h.fresh site ?_,
    succeedAll_iff.mp h.succeeds plan hplan⟩
  rw [hsites]
  exact List.mem_append_right _ (List.mem_append_left _ hsite)

/-- What is left of a sound plan is sound. -/
theorem Sound.unfolds (h : plan.Sound l) (hleft : Unfolds n plan plans) : ∀ head ∈ plans, head.Sound l := by
  induction hleft with
  | whole plan => exact fun head hhead => List.mem_singleton.mp hhead ▸ h
  | nothing => exact nofun
  | part _ _ _ ih =>
    intro head hhead
    rcases List.mem_append.mp hhead with hmem | hmem
    · exact ih (h.part (by simp)) head hmem
    · exact h.part (List.mem_append_right _ (List.mem_cons_of_mem _ hmem))
  | value _ ih => exact ih ⟨h.nodup, h.fresh, h.succeeds⟩
  | @result site plan plans _ ih => exact ih ⟨h.nodup, h.fresh, h.succeeds⟩

end TaggedMarkup.Plan
