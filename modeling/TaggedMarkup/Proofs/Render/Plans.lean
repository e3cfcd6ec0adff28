import TaggedMarkup.Proofs.Render.Origins

/-!
# Plans

A tree of values with the times that they take is a **plan**. While it is rendered, one marks in it what has
been asked for, what has come and which calls have been made, in **steps** (`Plan.Step`) that take no time. A
plan **rests** at a time (`Plan.Rests`) if there is no step to take.

Whoever renders ahead takes every step as soon as he can, and then lets time pass (`Plan.Takes`). With one more
member ahead, every step can be taken that can be taken without. So a render that rests whenever it lets time
pass is never **behind** one with fewer members ahead (`Plan.Step.behind`), and ends no later
(`Plan.Takes.le`). Pending values may stand in many places: they are known by their origins, and a **ledger**
tells for which moments they wait.
-/

namespace TaggedMarkup

/-- How parts hang together. -/
inductive Plan.Kind where
  /-- one thing after the other, as a tag does with its attributes and its children -/
  | row
  /-- the members of a list, or the children of an element -/
  | list
  /-- the members of a one-shot sequence -/
  | sequence
  deriving DecidableEq

/-- A tree of values, the times they take, and how far it has been rendered. -/
inductive Plan where
  /-- a fragment or an error -/
  | leaf (out : Except Error String)
  | group (kind : Plan.Kind) (parts : List Plan)
  /-- what a pending value resolves to, or a member of a list: the origin of the pending value that takes the
  time, how much, the moment that is waited for, and whether it has come -/
  | later (source : Option Origin) (delay : Nat) (moment : Option Nat) (come : Bool) (value : Plan)
  /-- what a component returns: the number of the call, and whether it was made -/
  | call (site : Nat) (made : Bool) (result : Plan)

/-- The moments for which pending values wait or have waited, and the calls that have been made. -/
structure Ledger where
  moments : Origin → Option Nat
  sites : List Nat

namespace Ledger

/-- A pending value is started. -/
def start (origin : Origin) (moment : Nat) (l : Ledger) : Ledger :=
  { l with moments := Function.update l.moments origin (some moment) }

/-- A call is made. -/
def make (site : Nat) (l : Ledger) : Ledger := { l with sites := site :: l.sites }

/-- Whatever is waited for was waited for, or started, in the other one no later. -/
def Behind (l m : Ledger) : Prop :=
  ∀ origin moment, l.moments origin = some moment → ∃ earlier ≤ moment, m.moments origin = some earlier

/-- What is waited for stays. -/
def Lasts (l m : Ledger) : Prop :=
  ∀ origin moment, l.moments origin = some moment → m.moments origin = some moment

variable {l m k : Ledger} {origin : Origin} {moment : Nat}

theorem Lasts.refl (l : Ledger) : l.Lasts l := fun _ _ h => h

theorem Lasts.trans (h : l.Lasts m) (h' : m.Lasts k) : l.Lasts k := fun o x hx => h' o x (h o x hx)

@[simp] theorem moments_start_self (l : Ledger) (origin : Origin) (moment : Nat) :
    (l.start origin moment).moments origin = some moment := Function.update_self ..

theorem moments_start_of_ne {o : Origin} (h : o ≠ origin) : (l.start origin moment).moments o = l.moments o :=
  Function.update_of_ne h ..

theorem lasts_start (h : l.moments origin = none) : l.Lasts (l.start origin moment) := by
  intro o x hx
  have hne : o ≠ origin := by
    rintro rfl
    cases h.symm.trans hx
  rw [moments_start_of_ne hne, hx]

theorem Behind.lasts (h : l.Behind m) (h' : m.Lasts k) : l.Behind k := by
  intro o x hx
  obtain ⟨y, hle, hy⟩ := h o x hx
  exact ⟨y, hle, h' o y hy⟩

end Ledger

namespace Plan

/-- How many of the parts may be in work or held back, when so many members are rendered ahead. -/
def Kind.width (n : Nat) : Kind → Nat
  | .row => 1
  | .list | .sequence => n

mutual

/-- Nothing is left to do. -/
def isOver : Plan → Bool
  | .leaf _ => true
  | .group _ parts => areOver parts
  | .later _ _ _ come value => come && value.isOver
  | .call _ made result => made && result.isOver

def areOver : List Plan → Bool
  | [] => true
  | plan :: rest => plan.isOver && areOver rest

end

/-- Nothing is left to wait for before it is begun. -/
def isDrawn : Plan → Bool
  | .later _ _ _ come _ => come
  | _ => true

/-- Another part may be begun after these: the last one was, and as many at the end as may be held back apart,
they are over. -/
def Opens (width : Nat) (before : List Plan) : Prop :=
  ∀ i plan, before[i]? = some plan →
    (i + 1 = before.length → plan.isDrawn = true) ∧ (i + width ≤ before.length → plan.isOver = true)

mutual

/-- There is nothing to do at the time, with so many members rendered ahead. -/
def Rests (n time : Nat) : Plan → Prop
  | .leaf _ => True
  | .group kind parts => RestAll n time (kind.width n) [] parts
  | .later _ _ moment come value =>
    (∃ m, moment = some m ∧ (m ≤ time → come = true)) ∧ (come = true → value.Rests n time)
  | .call _ made result => made = true ∧ result.Rests n time

/-- Nor is there in parts that stand after these, as far as they may be begun. -/
def RestAll (n time width : Nat) (before : List Plan) : List Plan → Prop
  | [] => True
  | plan :: rest =>
    (Opens width before → plan.Rests n time) ∧ RestAll n time width (before ++ [plan]) rest

end

/-- A step at a time, with so many members rendered ahead; some pending values were waited for before. -/
inductive Step (n : Nat) (given : Origin → Option Nat) (time : Nat) : Plan → Ledger → Plan → Ledger → Prop
  /-- a member of a list is asked for -/
  | expect (delay : Nat) (value : Plan) (l : Ledger) :
    Step n given time (.later none delay none false value) l
      (.later none delay (some (time + delay)) false value) l
  /-- a pending value is started -/
  | start {origin : Origin} (delay : Nat) (value : Plan) {l : Ledger} : l.moments origin = none →
    Step n given time (.later (some origin) delay none false value) l
      (.later (some origin) delay (some (time + delay)) false value) (l.start origin (time + delay))
  /-- a pending value that was started is asked -/
  | join {origin : Origin} {delay moment : Nat} (value : Plan) {l : Ledger} :
    l.moments origin = some moment → moment ≤ time + delay ∨ given origin = some moment →
      Step n given time (.later (some origin) delay none false value) l
        (.later (some origin) delay (some moment) false value) l
  | come {source : Option Origin} {delay moment : Nat} (value : Plan) (l : Ledger) : moment ≤ time →
    Step n given time (.later source delay (some moment) false value) l
      (.later source delay (some moment) true value) l
  | value {source : Option Origin} {delay : Nat} {moment : Option Nat} {plan plan' : Plan} {l l' : Ledger} :
    Step n given time plan l plan' l' →
      Step n given time (.later source delay moment true plan) l (.later source delay moment true plan') l'
  | call {site : Nat} (result : Plan) {l : Ledger} : site ∉ l.sites →
    Step n given time (.call site false result) l (.call site true result) (l.make site)
  | result {site : Nat} {plan plan' : Plan} {l l' : Ledger} : Step n given time plan l plan' l' →
    Step n given time (.call site true plan) l (.call site true plan') l'
  | part {kind : Kind} {before after : List Plan} {plan plan' : Plan} {l l' : Ledger} :
    Opens (kind.width n) before → Step n given time plan l plan' l' →
      Step n given time (.group kind (before ++ plan :: after)) l (.group kind (before ++ plan' :: after)) l'

/-- Some steps at a time. -/
inductive Steps (n : Nat) (given : Origin → Option Nat) (time : Nat) (plan : Plan) (l : Ledger) :
    Plan → Ledger → Prop
  | refl : Steps n given time plan l plan l
  | step {plan' plan'' : Plan} {l' l'' : Ledger} : Steps n given time plan l plan' l' →
    Step n given time plan' l' plan'' l'' → Steps n given time plan l plan'' l''

/-- The plan is rendered from a time on, and is over at the end; before time passes, the plan has come to a
point where it may. -/
inductive Takes (n : Nat) (given : Origin → Option Nat) (pauses : Nat → Nat → Plan → Prop) :
    Nat → Plan → Ledger → Nat → Prop
  | ended {time : Nat} {plan : Plan} {l : Ledger} : plan.isOver = true → Takes n given pauses time plan l time
  | step {time finish : Nat} {plan plan' : Plan} {l l' : Ledger} : Step n given time plan l plan' l' →
    Takes n given pauses time plan' l' finish → Takes n given pauses time plan l finish
  | pass {time later finish : Nat} {plan : Plan} {l : Ledger} : time ≤ later → pauses time later plan →
    Takes n given pauses later plan l finish → Takes n given pauses time plan l finish

mutual

/-- The other plan is the same, and whatever was done in this one was done there. -/
def Behind : Plan → Plan → Prop
  | .leaf out, .leaf out' => out = out'
  | .group kind parts, .group kind' parts' => kind = kind' ∧ BehindAll parts parts'
  | .later source delay moment come value, .later source' delay' moment' come' value' =>
    source = source' ∧ delay = delay' ∧ (∀ m, moment = some m → ∃ earlier ≤ m, moment' = some earlier) ∧
      (come = true → come' = true) ∧ value.Behind value'
  | .call site made result, .call site' made' result' =>
    site = site' ∧ (made = true → made' = true) ∧ result.Behind result'
  | _, _ => False

def BehindAll : List Plan → List Plan → Prop
  | [], [] => True
  | plan :: rest, plan' :: rest' => plan.Behind plan' ∧ BehindAll rest rest'
  | _, _ => False

end

mutual

/-- What has come was waited for; the moments are those in the ledger, and not later than the delay allows. -/
def Dated (given : Origin → Option Nat) (time : Nat) (l : Ledger) : Plan → Prop
  | .leaf _ => True
  | .group _ parts => DateAll given time l parts
  | .later source delay moment come value =>
    (come = true → moment.isSome = true) ∧
      (∀ m, moment = some m → (∀ origin, source = some origin → l.moments origin = some m) ∧
        (m ≤ time + delay ∨ ∃ origin, source = some origin ∧ given origin = some m)) ∧
          value.Dated given time l
  | .call _ _ result => result.Dated given time l

def DateAll (given : Origin → Option Nat) (time : Nat) (l : Ledger) : List Plan → Prop
  | [] => True
  | plan :: rest => plan.Dated given time l ∧ DateAll given time l rest

end

variable {n time : Nat} {given : Origin → Option Nat} {plan plan' other : Plan} {l l' m : Ledger}
  {before after plans others : List Plan}

/-! ## Parts -/

theorem areOver_iff : areOver plans = true ↔ ∀ plan ∈ plans, plan.isOver = true := by
  induction plans with
  | nil => simp [areOver]
  | cons plan rest ih => simp [areOver, ih]

theorem dateAll_iff : DateAll given time l plans ↔ ∀ plan ∈ plans, plan.Dated given time l := by
  induction plans with
  | nil => simp [DateAll]
  | cons plan rest ih => simp [DateAll, ih]

theorem behindAll_iff : BehindAll plans others ↔ List.Forall₂ Behind plans others := by
  induction plans generalizing others with
  | nil => cases others <;> simp [BehindAll]
  | cons plan rest ih => cases others <;> simp [BehindAll, ih]

theorem restAll_iff {width : Nat} : RestAll n time width before plans ↔
    ∀ front plan back, plans = front ++ plan :: back → Opens width (before ++ front) → plan.Rests n time := by
  induction plans generalizing before with
  | nil => simp [RestAll]
  | cons plan rest ih =>
    rw [RestAll, ih]
    constructor
    · rintro ⟨hplan, hrest⟩ front x back heq hopens
      cases front with
      | nil =>
        cases heq
        rw [List.append_nil] at hopens
        exact hplan hopens
      | cons y front =>
        cases heq
        exact hrest front x back rfl (by rwa [List.append_assoc])
    · intro h
      refine ⟨fun hopens => h [] plan rest rfl (by rwa [List.append_nil]), fun front x back heq hopens => ?_⟩
      subst heq
      exact h (plan :: front) x back rfl (by rwa [List.append_assoc] at hopens)

/-- What is over has been begun. -/
theorem isDrawn_of_isOver (h : plan.isOver = true) : plan.isDrawn = true := by
  cases plan with
  | later source delay moment come value =>
    rw [isOver, Bool.and_eq_true] at h
    exact h.1
  | _ => rfl

theorem opens_of_areOver (width : Nat) (h : ∀ plan ∈ before, plan.isOver = true) : Opens width before := by
  intro i plan hplan
  have hover := h plan (List.mem_of_getElem? hplan)
  exact ⟨fun _ => isDrawn_of_isOver hover, fun _ => hover⟩

/-- Where one part comes after the other, those before are over. -/
theorem Opens.isOver {width : Nat} (h : Opens width before) (hwidth : width ≤ 1) :
    ∀ plan ∈ before, plan.isOver = true := by
  intro plan hplan
  obtain ⟨i, hi, rfl⟩ := List.getElem_of_mem hplan
  exact (h i _ (List.getElem?_eq_getElem hi)).2 (by omega)

/-! ## Behind -/

mutual

theorem Behind.refl : ∀ plan : Plan, plan.Behind plan
  | .leaf _ => rfl
  | .group _ parts => ⟨rfl, BehindAll.refl parts⟩
  | .later _ _ _ _ value => ⟨rfl, rfl, fun m hm => ⟨m, Nat.le_refl m, hm⟩, id, Behind.refl value⟩
  | .call _ _ result => ⟨rfl, id, Behind.refl result⟩

theorem BehindAll.refl : ∀ plans : List Plan, BehindAll plans plans
  | [] => trivial
  | plan :: rest => ⟨Behind.refl plan, BehindAll.refl rest⟩

end

mutual

theorem Behind.trans : ∀ {a b c : Plan}, a.Behind b → b.Behind c → a.Behind c
  | .leaf _, .leaf _, .leaf _, h, h' => Eq.trans h h'
  | .group .., .group .., .group .., h, h' => ⟨h.1.trans h'.1, BehindAll.trans h.2 h'.2⟩
  | .later .., .later .., .later .., ⟨hs, hd, hm, hc, hv⟩, ⟨hs', hd', hm', hc', hv'⟩ => by
    refine ⟨hs.trans hs', hd.trans hd', fun m hsome => ?_, fun h => hc' (hc h), Behind.trans hv hv'⟩
    obtain ⟨x, hx, hsome⟩ := hm m hsome
    obtain ⟨y, hy, hsome⟩ := hm' x hsome
    exact ⟨y, Nat.le_trans hy hx, hsome⟩
  | .call .., .call .., .call .., ⟨hs, hm, hr⟩, ⟨hs', hm', hr'⟩ =>
    ⟨hs.trans hs', fun h => hm' (hm h), Behind.trans hr hr'⟩

theorem BehindAll.trans : ∀ {as bs cs : List Plan}, BehindAll as bs → BehindAll bs cs → BehindAll as cs
  | [], [], [], _, _ => trivial
  | _ :: _, _ :: _, _ :: _, h, h' => ⟨Behind.trans h.1 h'.1, BehindAll.trans h.2 h'.2⟩

end

mutual

theorem Behind.isOver : ∀ {a b : Plan}, a.Behind b → a.isOver = true → b.isOver = true
  | .leaf _, .leaf _, _, _ => rfl
  | .group .., .group .., h, hover => BehindAll.areOver h.2 hover
  | .later .., .later .., ⟨_, _, _, hc, hv⟩, hover => by
    rw [Plan.isOver, Bool.and_eq_true] at hover ⊢
    exact ⟨hc hover.1, Behind.isOver hv hover.2⟩
  | .call .., .call .., ⟨_, hm, hr⟩, hover => by
    rw [Plan.isOver, Bool.and_eq_true] at hover ⊢
    exact ⟨hm hover.1, Behind.isOver hr hover.2⟩

theorem BehindAll.areOver : ∀ {as bs : List Plan}, BehindAll as bs → Plan.areOver as = true →
    Plan.areOver bs = true
  | [], [], _, _ => rfl
  | _ :: _, _ :: _, h, hover => by
    rw [Plan.areOver, Bool.and_eq_true] at hover ⊢
    exact ⟨Behind.isOver h.1 hover.1, BehindAll.areOver h.2 hover.2⟩

end

theorem Behind.isDrawn (h : plan.Behind other) (hdrawn : plan.isDrawn = true) : other.isDrawn = true := by
  cases plan <;> cases other <;> first | rfl | exact h.2.2.2.1 hdrawn | cases h

theorem getElem?_of_forall₂ {α β : Type} {r : α → β → Prop} {xs : List α} {ys : List β} (h : List.Forall₂ r xs ys)
    {i : Nat} {y : β} (hy : ys[i]? = some y) : ∃ x, xs[i]? = some x ∧ r x y := by
  induction h generalizing i with
  | nil => cases hy
  | @cons x y' xs ys hr _ ih =>
    cases i with
    | zero =>
      cases hy
      exact ⟨x, rfl, hr⟩
    | succ i => exact ih hy

/-- Where a part may be begun, it may be begun there with more members ahead. -/
theorem BehindAll.opens {kind : Kind} {m' : Nat} (h : BehindAll before others) (hn : n ≤ m')
    (hopens : Opens (kind.width n) before) :
    Opens (kind.width m') others := by
  have hall := behindAll_iff.mp h
  intro i plan hplan
  obtain ⟨plan', hplan', hbehind⟩ := getElem?_of_forall₂ hall hplan
  have hwidth : kind.width n ≤ kind.width m' := by
    cases kind <;> simp [Kind.width, hn]
  obtain ⟨hdrawn, hover⟩ := hopens i plan' hplan'
  rw [← hall.length_eq]
  exact ⟨fun hi => hbehind.isDrawn (hdrawn hi), fun hi => hbehind.isOver (hover (by omega))⟩

/-! ## Steps -/

theorem forall₂_split {α β : Type} {r : α → β → Prop} {xs : List α} {x : α} {xs' : List α} {ys : List β}
    (h : List.Forall₂ r (xs ++ x :: xs') ys) :
    ∃ zs y zs', ys = zs ++ y :: zs' ∧ List.Forall₂ r xs zs ∧ r x y ∧ List.Forall₂ r xs' zs' := by
  induction xs generalizing ys with
  | nil =>
    cases h with
    | cons hx hrest => exact ⟨[], _, _, rfl, .nil, hx, hrest⟩
  | cons a xs ih =>
    cases h with
    | cons ha hrest =>
      obtain ⟨zs, y, zs', rfl, hzs, hy, hzs'⟩ := ih hrest
      exact ⟨_ :: zs, y, zs', rfl, .cons ha hzs, hy, hzs'⟩

theorem forall₂_join {α β : Type} {r : α → β → Prop} {xs : List α} {x : α} {xs' : List α} {ys : List β} {y : β}
    {ys' : List β} (h : List.Forall₂ r xs ys) (hx : r x y) (h' : List.Forall₂ r xs' ys') :
    List.Forall₂ r (xs ++ x :: xs') (ys ++ y :: ys') := by
  induction h with
  | nil => exact .cons hx h'
  | cons hr _ ih => exact .cons hr ih

/-- A step leads on. -/
theorem Step.behind_self (h : Step n given time plan l plan' l') : plan.Behind plan' := by
  induction h with
  | expect delay value => exact ⟨rfl, rfl, nofun, id, .refl value⟩
  | start delay value => exact ⟨rfl, rfl, nofun, id, .refl value⟩
  | join value => exact ⟨rfl, rfl, nofun, id, .refl value⟩
  | @come source delay moment value =>
    exact ⟨rfl, rfl, fun m hm => ⟨m, Nat.le_refl m, hm⟩, fun _ => rfl, .refl value⟩
  | value _ ih => exact ⟨rfl, rfl, fun m hm => ⟨m, Nat.le_refl m, hm⟩, id, ih⟩
  | call result => exact ⟨rfl, fun _ => rfl, .refl result⟩
  | result _ ih => exact ⟨rfl, id, ih⟩
  | part _ _ ih =>
    refine ⟨rfl, behindAll_iff.mpr ?_⟩
    exact forall₂_join (behindAll_iff.mp (.refl _)) ih (behindAll_iff.mp (.refl _))

/-- Whatever is waited for stays so. -/
theorem Step.lasts (h : Step n given time plan l plan' l') : l.Lasts l' := by
  induction h with
  | expect | join | come => exact .refl _
  | start _ _ hnone => exact Ledger.lasts_start hnone
  | call => exact .refl _
  | value _ ih | result _ ih | part _ _ ih => exact ih

/-- **Nobody is overtaken.** A step that can be taken has been taken already where there is nothing to do with
more members ahead. -/
theorem Step.behind {k : Nat} (h : Step n given time plan l plan' l') (hn : n ≤ k) (hbehind : plan.Behind other)
    (hrests : other.Rests k time) (hdated : other.Dated given time m) (hledger : l.Behind m)
    (hgiven : ∀ origin moment, given origin = some moment → l.moments origin = some moment) :
    plan'.Behind other ∧ l'.Behind m := by
  induction h generalizing other with
  | expect delay value =>
    cases other with
    | later source delay' moment come value' =>
      obtain ⟨rfl, rfl, -, hcome, hvalue⟩ := hbehind
      obtain ⟨⟨x, hx, -⟩, -⟩ := hrests
      obtain ⟨-, hmoment, -⟩ := hdated
      obtain ⟨-, hle | ⟨o, ho, -⟩⟩ := hmoment x hx
      · exact ⟨⟨rfl, rfl, fun y hy => ⟨x, Option.some.inj hy ▸ hle, hx⟩, hcome, hvalue⟩, hledger⟩
      · cases ho
    | leaf | group | call => exact hbehind.elim
  | @start origin delay value l hnone =>
    cases other with
    | later source delay' moment come value' =>
      obtain ⟨rfl, rfl, -, hcome, hvalue⟩ := hbehind
      obtain ⟨⟨x, hx, -⟩, -⟩ := hrests
      obtain ⟨-, hmoment, -⟩ := hdated
      obtain ⟨hsame, hdelay⟩ := hmoment x hx
      have hle : x ≤ time + delay := by
        rcases hdelay with hle | ⟨o, ho, hgave⟩
        · exact hle
        · cases ho
          cases hnone.symm.trans (hgiven _ _ hgave)
      refine ⟨⟨rfl, rfl, fun y hy => ⟨x, Option.some.inj hy ▸ hle, hx⟩, hcome, hvalue⟩, fun o y hy => ?_⟩
      by_cases heq : o = origin
      · subst heq
        rw [Ledger.moments_start_self] at hy
        exact ⟨x, Option.some.inj hy ▸ hle, hsame o rfl⟩
      · exact hledger o y ((Ledger.moments_start_of_ne heq).symm.trans hy)
    | leaf | group | call => exact hbehind.elim
  | @join origin delay moment value l hsome hdelay =>
    cases other with
    | later source delay' moment' come value' =>
      obtain ⟨rfl, rfl, -, hcome, hvalue⟩ := hbehind
      obtain ⟨⟨x, hx, -⟩, -⟩ := hrests
      obtain ⟨-, hmoment, -⟩ := hdated
      obtain ⟨y, hle, hy⟩ := hledger origin moment hsome
      obtain rfl : y = x := Option.some.inj (hy.symm.trans ((hmoment x hx).1 origin rfl))
      exact ⟨⟨rfl, rfl, fun z hz => ⟨y, Option.some.inj hz ▸ hle, hx⟩, hcome, hvalue⟩, hledger⟩
    | leaf | group | call => exact hbehind.elim
  | @come source delay moment value l hle =>
    cases other with
    | later source' delay' moment' come value' =>
      obtain ⟨rfl, rfl, hmoment, -, hvalue⟩ := hbehind
      obtain ⟨⟨x, hx, hcome⟩, -⟩ := hrests
      obtain ⟨y, hy, hsame⟩ := hmoment moment rfl
      obtain rfl : y = x := Option.some.inj (hsame.symm.trans hx)
      exact ⟨⟨rfl, rfl, hmoment, fun _ => hcome (Nat.le_trans hy hle), hvalue⟩, hledger⟩
    | leaf | group | call => exact hbehind.elim
  | value _ ih =>
    cases other with
    | later source' delay' moment' come value' =>
      obtain ⟨rfl, rfl, hmoment, hcome, hvalue⟩ := hbehind
      obtain ⟨hbehind, hlater⟩ := ih hvalue (hrests.2 (hcome rfl)) hdated.2.2 hledger hgiven
      exact ⟨⟨rfl, rfl, hmoment, hcome, hbehind⟩, hlater⟩
    | leaf | group | call => exact hbehind.elim
  | call result =>
    cases other with
    | call site made result' => exact ⟨⟨hbehind.1, fun _ => hrests.1, hbehind.2.2⟩, hledger⟩
    | leaf | group | later => exact hbehind.elim
  | result _ ih =>
    cases other with
    | call site made result' =>
      obtain ⟨hsite, hmade, hresult⟩ := hbehind
      obtain ⟨hbehind, hlater⟩ := ih hresult hrests.2 hdated hledger hgiven
      exact ⟨⟨hsite, hmade, hbehind⟩, hlater⟩
    | leaf | group | later => exact hbehind.elim
  | @part kind before after plan plan' l l' hopens _ ih =>
    cases other with
    | group kind' parts =>
      obtain ⟨rfl, hall⟩ := hbehind
      obtain ⟨front, part, back, rfl, hfront, hpart, hback⟩ := forall₂_split (behindAll_iff.mp hall)
      have hopens' := (behindAll_iff.mpr hfront).opens hn hopens
      have hrests' := restAll_iff.mp hrests front part back rfl hopens'
      have hdated' := dateAll_iff.mp hdated part (by simp)
      obtain ⟨hbehind, hlater⟩ := ih hpart hrests' hdated' hledger hgiven
      exact ⟨⟨rfl, behindAll_iff.mpr (forall₂_join hfront hbehind hback)⟩, hlater⟩
    | leaf | later | call => exact hbehind.elim

/-! ## What is noted is right -/

mutual

theorem Dated.mono {later : Nat} (htime : time ≤ later) (hlasts : l.Lasts l') :
    ∀ {plan : Plan}, plan.Dated given time l → plan.Dated given later l'
  | .leaf _, _ => trivial
  | .group .., h => DateAll.mono htime hlasts h
  | .later .., ⟨hcome, hmoment, hvalue⟩ =>
    ⟨hcome, fun m hm => ⟨fun o ho => hlasts o m ((hmoment m hm).1 o ho),
      (hmoment m hm).2.imp (fun hle => Nat.le_trans hle (Nat.add_le_add_right htime _)) id⟩,
      Dated.mono htime hlasts hvalue⟩
  | .call _ _ result, h => by
    have hresult : result.Dated given time l := h
    exact hresult.mono htime hlasts

theorem DateAll.mono {later : Nat} (htime : time ≤ later) (hlasts : l.Lasts l') :
    ∀ {plans : List Plan}, DateAll given time l plans → DateAll given later l' plans
  | [], _ => trivial
  | _ :: _, h => ⟨Dated.mono htime hlasts h.1, DateAll.mono htime hlasts h.2⟩

end

theorem Step.dated (h : Step n given time plan l plan' l') (hdated : plan.Dated given time l) :
    plan'.Dated given time l' := by
  induction h with
  | expect delay value l =>
    refine ⟨nofun, fun m hm => ⟨nofun, .inl ?_⟩, hdated.2.2⟩
    exact (Option.some.inj hm).ge
  | @start origin delay value l hnone =>
    refine ⟨nofun, fun m hm => ⟨fun o ho => ?_, .inl (Option.some.inj hm).ge⟩,
      hdated.2.2.mono (Nat.le_refl _) (Ledger.lasts_start hnone)⟩
    cases ho
    cases hm
    exact Ledger.moments_start_self ..
  | @join origin delay moment value l hsome hdelay =>
    refine ⟨nofun, fun m hm => ?_, hdated.2.2⟩
    cases hm
    exact ⟨fun o ho => Option.some.inj ho ▸ hsome, hdelay.imp id fun hgave => ⟨origin, rfl, hgave⟩⟩
  | come value l hle => exact ⟨fun _ => rfl, hdated.2.1, hdated.2.2⟩
  | value h ih =>
    obtain ⟨hcome, hmoment, hvalue⟩ := hdated
    exact ⟨hcome, fun m hm => ⟨fun o ho => h.lasts o m ((hmoment m hm).1 o ho), (hmoment m hm).2⟩, ih hvalue⟩
  | @call site result l =>
    have hresult : result.Dated given time l := hdated
    have hlasts : l.Lasts (l.make site) := .refl l
    exact hresult.mono (Nat.le_refl _) hlasts
  | result _ ih => exact ih hdated
  | part _ h ih =>
    refine dateAll_iff.mpr fun x hx => ?_
    have hall := dateAll_iff.mp hdated
    rcases List.mem_append.mp hx with hmem | hmem
    · exact (hall x (List.mem_append_left _ hmem)).mono (Nat.le_refl _) h.lasts
    · rcases List.mem_cons.mp hmem with rfl | hmem
      · exact ih (hall _ (by simp))
      · exact (hall x (List.mem_append_right _ (List.mem_cons_of_mem _ hmem))).mono (Nat.le_refl _) h.lasts

mutual

/-- What is over has nothing left to do. -/
theorem Dated.rests : ∀ {plan : Plan}, plan.Dated given time l → plan.isOver = true → ∀ k x, plan.Rests k x
  | .leaf _, _, _, _, _ => trivial
  | .group kind parts, h, hover, k, x => DateAll.rests h hover k x (kind.width k) []
  | .later _ _ moment come value, ⟨hcome, _, hvalue⟩, hover, k, x => by
    rw [isOver, Bool.and_eq_true] at hover
    obtain ⟨m, hm⟩ := Option.isSome_iff_exists.mp (hcome hover.1)
    exact ⟨⟨m, hm, fun _ => hover.1⟩, fun _ => Dated.rests hvalue hover.2 k x⟩
  | .call _ made result, h, hover, k, x => by
    rw [isOver, Bool.and_eq_true] at hover
    have hresult : result.Dated given time l := h
    exact ⟨hover.1, Dated.rests hresult hover.2 k x⟩

theorem DateAll.rests : ∀ {plans : List Plan}, DateAll given time l plans → areOver plans = true →
    ∀ k x width before, RestAll k x width before plans
  | [], _, _, _, _, _, _ => trivial
  | _ :: _, h, hover, k, x, width, before => by
    rw [areOver, Bool.and_eq_true] at hover
    exact ⟨fun _ => Dated.rests h.1 hover.1 k x, DateAll.rests h.2 hover.2 k x width _⟩

end

/-! ## The end -/

/-- A render may let time pass when nothing is left to do until then, and something is then. -/
def Pauses (n : Nat) (time later : Nat) (plan : Plan) : Prop :=
  plan.isOver = false ∧ ∀ x, time ≤ x → x < later → plan.Rests n x

/-- **More members ahead never finish later**: whoever takes every step as soon as he can, with as many members
ahead or more, is through no later. -/
theorem Takes.le {k : Nat} {pauses : Nat → Nat → Plan → Prop} {late finish finish' : Nat}
    (h : Takes k given (Pauses k) time other m finish) (hn : n ≤ k)
    (h' : Takes n given pauses late plan l finish') (htime : time ≤ late) (hbehind : plan.Behind other)
    (hdated : other.Dated given time m) (hledger : l.Behind m)
    (hgiven : ∀ origin moment, given origin = some moment → l.moments origin = some moment) :
    finish ≤ finish' := by
  induction h generalizing late plan l with
  | @ended time other m hover =>
    refine Nat.le_trans htime ?_
    clear hbehind hgiven hledger htime
    induction h' with
    | ended => exact Nat.le_refl _
    | step _ _ ih => exact ih
    | pass hle _ _ ih => exact Nat.le_trans hle ih
  | step hstep _ ih =>
    exact ih h' htime (hbehind.trans hstep.behind_self) (hstep.dated hdated) (hledger.lasts hstep.lasts) hgiven
  | @pass time later finish other m hle hpauses hlater ih =>
    obtain ⟨hover, hrests⟩ := hpauses
    have hdated' : other.Dated given later m := hdated.mono hle (.refl m)
    -- up to then the other one goes through all that has been done here
    induction h' with
    | ended hdone =>
      cases hover.symm.trans (hbehind.isOver hdone)
    | @step late finish' plan plan' l l' hstep hrest ih' =>
      by_cases hlate : late < later
      · obtain ⟨hbehind', hledger'⟩ := hstep.behind hn hbehind (hrests late htime hlate)
          (hdated.mono htime (.refl m)) hledger hgiven
        exact ih' @ih htime hbehind' hledger' fun o x hx => hstep.lasts o x (hgiven o x hx)
      · exact ih (.step hstep hrest) (Nat.le_of_not_lt hlate) hbehind hdated' hledger hgiven
    | @pass late next finish' plan l hle' hpauses' hrest ih' =>
      by_cases hlate : late < later
      · exact ih' @ih (Nat.le_trans htime hle') hbehind hledger hgiven
      · exact ih (.pass hle' hpauses' hrest) (Nat.le_of_not_lt hlate) hbehind hdated' hledger hgiven

end Plan

end TaggedMarkup
