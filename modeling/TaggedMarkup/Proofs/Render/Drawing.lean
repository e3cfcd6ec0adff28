import Mathlib
import TaggedMarkup.Proofs.Render.Histories
import TaggedMarkup.Proofs.Render.Steady

/-!
# A sequence is drawn once

Whoever reaches a sequence first takes all of it, and a later reach finds nothing. So there is one feed
at most that draws from the sequence, and it draws each member once, in order: the members drawn so far
and those that are still in the feed make up the sequence (`Drawing`). A feed that is given up takes the
members with it that it has not drawn.

This holds in every history of renders, whichever streams reach the sequence, sequentially or ahead, and
whichever are dropped on the way (`Renders.Leads.drawing`).
-/

namespace TaggedMarkup

/-! ## What concerns one sequence -/

namespace Deed

/-- What there was to draw when the sequence was reached. -/
def reach? (n : Nat) : Deed → Option (List (Nat × Value))
  | reached sequence members => if sequence = n then some members else none
  | _ => none

/-- The member of the sequence that was drawn, with its number. -/
def draw? (n : Nat) : Deed → Option (Value × Nat)
  | drew sequence index value => if sequence = n then some (value, index) else none
  | _ => none

/-- What there was to draw at each reach of the sequence. -/
def reaches (n : Nat) (deeds : List Deed) : List (List (Nat × Value)) := deeds.filterMap (reach? n)

/-- The members of the sequence that were drawn, with their numbers. -/
def draws (n : Nat) (deeds : List Deed) : List (Value × Nat) := deeds.filterMap (draw? n)

variable {n : Nat} {deeds more : List Deed}

theorem reaches_append : reaches n (deeds ++ more) = reaches n deeds ++ reaches n more :=
  List.filterMap_append

theorem draws_append : draws n (deeds ++ more) = draws n deeds ++ draws n more :=
  List.filterMap_append

end Deed

namespace Event

/-- The number of the member of the sequence that was drawn. -/
def draw? (n : Nat) : Event → Option Nat
  | drawn sequence _ index => if sequence = n then some index else none
  | _ => none

/-- The numbers of the members of the sequence that were drawn, the latest first. -/
def pulls (n : Nat) (log : List (Nat × Event)) : List Nat := log.filterMap fun entry => entry.2.draw? n

theorem pulls_append {n : Nat} {log more : List (Nat × Event)} :
    pulls n (log ++ more) = pulls n log ++ pulls n more := List.filterMap_append

end Event

/-- The feed, if it draws from the sequence. -/
def Feed.from? (n : Nat) (f : Feed) : Option Feed :=
  match f.origin with
  | some (sequence, _) => if sequence = n then some f else none
  | none => none

/-- The feed of a piece of work, if it draws from the sequence. -/
def Work.feed? (n : Nat) : Work → Option Feed
  | .draw feed => feed.from? n
  | .ahead lineup => lineup.feed.from? n
  | _ => none

/-- The feeds in play that draw from the sequence. -/
def Work.feeds (n : Nat) (pieces : List Work) : List Feed := pieces.filterMap (Work.feed? n)

namespace Work

variable {n : Nat} {pieces more : List Work}

theorem feeds_append : feeds n (pieces ++ more) = feeds n pieces ++ feeds n more :=
  List.filterMap_append

theorem feeds_cons (work : Work) :
    feeds n (work :: pieces) = (work.feed? n).toList ++ feeds n pieces := by
  rw [feeds, List.filterMap_cons]
  cases work.feed? n <;> rfl

theorem feeds_singleton (work : Work) : feeds n [work] = (work.feed? n).toList := by
  rw [feeds_cons]
  exact List.append_nil _

theorem feeds_subperm (h : pieces.Subperm more) : (feeds n pieces).Subperm (feeds n more) := by
  obtain ⟨same, hperm, hsub⟩ := h
  exact ⟨feeds n same, hperm.filterMap _, hsub.filterMap _⟩

theorem Unnoticed.feed? {work : Work} (h : work.Unnoticed) : work.feed? n = none := by
  cases work with
  | draw feed =>
    rw [Work.feed?, Feed.from?, show feed.origin = none from h]
  | ahead lineup => rw [Work.feed?, Feed.from?, h.1]
  | _ => rfl

theorem feeds_of_unnoticed (h : ∀ piece ∈ pieces, piece.Unnoticed) : feeds n pieces = [] :=
  List.filterMap_eq_nil_iff.mpr fun piece hpiece => (h piece hpiece).feed?

end Work

/-! ## What leaves a sequence alone -/

namespace World

/-- Nothing was drawn from the sequence, and it was not taken. -/
structure Bypasses (n : Nat) (w v : World) : Prop where
  log : ∃ new, v.log = new ++ w.log ∧ Event.pulls n new = []
  cell : ∀ {cell : SequenceCell}, w.sequences[n]? = some cell → v.sequences[n]? = some cell
  fresh : w.sequences[n]? = none → v.isTaken n = false

variable {n : Nat} {w v u : World}

theorem Bypasses.of_eq (hlog : v.log = w.log) (hsequences : v.sequences = w.sequences) :
    Bypasses n w v where
  log := ⟨[], hlog, rfl⟩
  cell h := by rwa [hsequences]
  fresh h := by rw [isTaken, hsequences, h]

theorem Bypasses.refl (w : World) : Bypasses n w w := .of_eq rfl rfl

theorem Bypasses.of_seen (h : v.seen = w.seen) : Bypasses n w v := by
  refine .of_eq ?_ ?_
  · rw [← seen_log, h, seen_log]
  · rw [← seen_sequences, h, seen_sequences]

theorem Bypasses.trans (h : Bypasses n w v) (h' : Bypasses n v u) : Bypasses n w u where
  log := by
    obtain ⟨new, hnew, hnone⟩ := h.log
    obtain ⟨more, hmore, hnone'⟩ := h'.log
    refine ⟨more ++ new, by rw [hmore, hnew, List.append_assoc], ?_⟩
    rw [Event.pulls_append, hnone, hnone']
    rfl
  cell hcell := h'.cell (h.cell hcell)
  fresh hnone := by
    have hv := h.fresh hnone
    cases hcell : v.sequences[n]? with
    | none => exact h'.fresh hcell
    | some cell =>
      rw [isTaken_of_getElem? hcell] at hv
      rw [isTaken_of_getElem? (h'.cell hcell), hv]

theorem bypasses_note {event : Event} (h : event.draw? n = none) (w : World) :
    Bypasses n w (w.note event) where
  log := ⟨[(w.clock, event)], rfl, by rw [Event.pulls, List.filterMap_cons, h]; rfl⟩
  cell := id
  fresh hnone := by rw [isTaken, show (w.note event).sequences[n]? = none from hnone]

/-- The sequence has the members it had, taken or not. -/
def KeepsSource (n : Nat) (w v : World) : Prop :=
  ∀ cell, w.sequences[n]? = some cell →
    ∃ cell', v.sequences[n]? = some cell' ∧ cell'.members = cell.members

theorem KeepsSource.refl (w : World) : KeepsSource n w w := fun cell hcell => ⟨cell, hcell, rfl⟩

theorem KeepsSource.trans (h : KeepsSource n w v) (h' : KeepsSource n v u) : KeepsSource n w u := by
  intro cell hcell
  obtain ⟨cell', hcell', hmembers⟩ := h cell hcell
  obtain ⟨cell'', hcell'', hmembers'⟩ := h' cell' hcell'
  exact ⟨cell'', hcell'', hmembers'.trans hmembers⟩

theorem Bypasses.keepsSource (h : Bypasses n w v) : KeepsSource n w v :=
  fun cell hcell => ⟨cell, h.cell hcell, rfl⟩

/-- A sequence that is made is another one, and is not taken. -/
theorem bypasses_newSequence (label : Option String) (members : List (Nat × Value)) (w : World) :
    Bypasses n w (w.newSequence { label, members }).2 where
  log := ⟨[], rfl, rfl⟩
  cell hcell := by
    have hlt := (Array.getElem?_eq_some_iff.mp hcell).1
    rw [newSequence, Array.getElem?_push, if_neg (Nat.ne_of_lt hlt), hcell]
  fresh hnone := by
    rw [isTaken, newSequence, Array.getElem?_push, hnone]
    split
    · rename_i cell hcell
      split at hcell
      · cases hcell
        rfl
      · cases hcell
    · rfl

theorem bypasses_run (a : Action) (w : World) : Bypasses n w (a.run w).2 := by
  refine a.run_stable (P := Bypasses n w) ⟨?_, ?_, ?_, ?_, ?_⟩ (.refl w)
  · exact fun _ _ h => h.trans (.of_eq rfl rfl)
  · exact fun _ h => h.trans (bypasses_note rfl _)
  · exact fun _ _ h => h.trans (.of_eq rfl rfl)
  · exact fun _ _ h => h.trans (.of_eq rfl rfl)
  · exact fun label members h => h.trans (bypasses_newSequence label members _)

theorem survives_bypasses (n : Nat) (w : World) : Survives (Bypasses n w) where
  hidden h hseen _ := h.trans (.of_seen hseen)
  call component props children h := by
    rw [callComponent]
    split
    · exact h.trans ((bypasses_note rfl _).trans (bypasses_run _ _))
    · exact h
  dropped _ _ h := h.trans (bypasses_note rfl _)

theorem bypasses_settle (pending : Nat) (outcome : Outcome) (w : World) :
    Bypasses n w (w.settle pending outcome) := by
  refine .of_eq ?_ ?_
  · rw [← seen_log, seen_settle]
    rfl
  · rw [← seen_sequences, seen_settle]
    rfl

theorem bypasses_conclude (pending : Nat) (label : Option String) (body : Action) (w : World) :
    Bypasses n w (w.conclude pending label body).2 :=
  (bypasses_note rfl w).trans ((bypasses_run body _).trans (bypasses_settle pending _ _))

theorem askStable_bypasses (n : Nat) (w : World) : AskStable (Bypasses n w) where
  started _ _ h := h.trans (bypasses_note rfl _)
  seated _ _ h := h.trans (.of_eq rfl rfl)
  staged _ _ _ h := h.trans (.of_eq rfl rfl)
  timer _ _ h := h.trans (.of_eq rfl rfl)
  concluded _ _ _ h := h.trans (bypasses_conclude ..)

/-- Awaiting a pending value draws nothing. -/
theorem bypasses_await (waiter : Waiter) (pending : Nat) (own : Option Nat) (w : World) :
    Bypasses n w (w.await waiter pending own).2 :=
  (askStable_bypasses n w).ask (.refl w) _ waiter pending own

end World

/-! ## How far a sequence has come -/

open Deed (reaches draws reaches_append draws_append)
open Event (pulls)

/-- What has become of a sequence since the world was `start`. Either nobody has reached it, or it is taken,
and the members drawn from it, with those that are left in the one feed that draws from it, make it up. -/
inductive Drawing (n : Nat) (start : World) (deeds : List Deed) (w : World)
    (feeds : List Feed) : Prop
  | untouched {new : List (Nat × Event)} (hlog : w.log = new ++ start.log)
    (hsource : start.KeepsSource n w) (hfresh : w.isTaken n = false)
    (hreaches : reaches n deeds = []) (hdraws : draws n deeds = []) (hpulls : pulls n new = [])
    (hfeeds : feeds = [])
  | taken {new : List (Nat × Event)} {cell : SequenceCell} {feed : Feed} {later : Nat}
    (hlog : w.log = new ++ start.log) (hsource : start.KeepsSource n w)
    (hcell : w.sequences[n]? = some cell) (htaken : cell.taken = true)
    (hreaches : reaches n deeds = cell.members :: List.replicate later [])
    (hdraws : draws n deeds ++ feed.held.zipIdx feed.index = (cell.members.map (·.2)).zipIdx)
    (hindex : feed.index = (draws n deeds).length)
    (hpulls : pulls n new = (List.range feed.index).reverse) (hfeeds : feeds.Subperm [feed])

/-- Taking one sequence leaves the others alone. -/
theorem World.bypasses_take {n m : Nat} (hne : m ≠ n) (w : World) :
    Bypasses n w (Render.take m w).2 := by
  rcases Render.take_cases m w with ⟨htake, -⟩ | ⟨cell, -, -, htake⟩
  · rw [htake]
    exact .refl w
  · rw [htake]
    have hothers : (w.sequences.modify m fun cell => { cell with taken := true })[n]? =
        w.sequences[n]? := by rw [Array.getElem?_modify, if_neg hne]
    refine ⟨⟨[], rfl, rfl⟩, fun h => hothers.trans h, fun h => ?_⟩
    rw [isTaken, hothers, h]

theorem Feed.from?_eq_some {n : Nat} {f g : Feed} (h : f.from? n = some g) :
    g = f ∧ ∃ label, f.origin = some (n, label) := by
  rw [from?] at h
  split at h
  · rename_i sequence label horigin
    split at h
    · rename_i heq
      cases h
      exact ⟨rfl, label, heq ▸ horigin⟩
    · cases h
  · cases h

theorem Feed.from?_of_origin {n : Nat} {f : Feed} {label : Option String}
    (h : f.origin = some (n, label)) : f.from? n = some f := by
  rw [from?, h]
  exact if_pos rfl

/-- A feed goes on drawing from where it did. -/
theorem Feed.origin_draw {f feed : Feed} {task : Nat} {drawn : Draw} {w v : World}
    (h : f.draw task w = (drawn, feed, v)) : feed.origin = f.origin := by
  rcases draw_cases h with ⟨-, -, rfl, -⟩ | ⟨_, _, _, -, -, rfl, -⟩ | ⟨-, horigin, -⟩
  · rfl
  · rfl
  · exact horigin

/-- Where there is room for one only, there is no other. -/
theorem Feed.sole {f feed : Feed} {others : List Feed} (h : (f :: others).Subperm [feed]) :
    f = feed ∧ others = [] :=
  ⟨List.mem_singleton.mp (h.subset List.mem_cons_self),
    List.eq_nil_of_length_eq_zero (Nat.le_zero.mp (Nat.le_of_succ_le_succ h.length_le))⟩

namespace Drawing

variable {n : Nat} {start : World} {deeds more : List Deed} {w v : World}
  {feeds others : List Feed}

/-- What happens elsewhere does not matter. -/
theorem bypass (h : Drawing n start deeds w feeds) (hv : w.Bypasses n v) :
    Drawing n start deeds v feeds := by
  obtain ⟨more, hmore, hnone⟩ := hv.log
  cases h with
  | @untouched new hlog hsource hfresh hreaches hdraws hpulls hfeeds =>
    have hfresh' : v.isTaken n = false := by
      cases hcell : w.sequences[n]? with
      | none => exact hv.fresh hcell
      | some cell =>
        rw [World.isTaken_of_getElem? hcell] at hfresh
        rw [World.isTaken_of_getElem? (hv.cell hcell), hfresh]
    have hlog' : v.log = (more ++ new) ++ start.log := by rw [hmore, hlog, List.append_assoc]
    have hpulls' : pulls n (more ++ new) = [] := by
      rw [Event.pulls_append, hnone, hpulls]
      rfl
    exact .untouched hlog' (hsource.trans hv.keepsSource) hfresh' hreaches hdraws hpulls' hfeeds
  | @taken new cell feed later hlog hsource hcell htaken hreaches hdraws hindex hpulls hfeeds =>
    have hlog' : v.log = (more ++ new) ++ start.log := by rw [hmore, hlog, List.append_assoc]
    have hpulls' : pulls n (more ++ new) = (List.range feed.index).reverse := by
      rw [Event.pulls_append, hnone, hpulls]
      rfl
    exact .taken hlog' (hsource.trans hv.keepsSource) (hv.cell hcell) htaken hreaches hdraws
      hindex hpulls' hfeeds

/-- Feeds may be given up. -/
theorem only (h : Drawing n start deeds w feeds) (hless : others.Subperm feeds) :
    Drawing n start deeds w others := by
  cases h with
  | untouched hlog hsource hfresh hreaches hdraws hpulls hfeeds =>
    subst hfeeds
    exact .untouched hlog hsource hfresh hreaches hdraws hpulls (List.subperm_nil.mp hless)
  | taken hlog hsource hcell htaken hreaches hdraws hindex hpulls hfeeds =>
    exact .taken hlog hsource hcell htaken hreaches hdraws hindex hpulls (hless.trans hfeeds)

/-- So do deeds that concern other things. -/
theorem idle (h : Drawing n start deeds w feeds) (hreaches : reaches n more = [])
    (hdraws : draws n more = []) : Drawing n start (deeds ++ more) w feeds := by
  have hsame : reaches n (deeds ++ more) = reaches n deeds := by
    rw [reaches_append, hreaches, List.append_nil]
  have hsame' : draws n (deeds ++ more) = draws n deeds := by
    rw [draws_append, hdraws, List.append_nil]
  cases h with
  | untouched hlog hsource hfresh hreaches hdraws hpulls hfeeds =>
    exact .untouched hlog hsource hfresh (hsame.trans hreaches) (hsame'.trans hdraws) hpulls hfeeds
  | taken hlog hsource hcell htaken hreaches hdraws hindex hpulls hfeeds =>
    exact .taken hlog hsource hcell htaken (hsame.trans hreaches) (hsame' ▸ hdraws) (hsame' ▸ hindex) hpulls
      hfeeds

/-- A feed that draws from another sequence, or from a list, changes nothing. -/
theorem draw_other {f feed : Feed} {task : Nat} {drawn : Draw} (h : Drawing n start deeds w others)
    (hdraw : f.draw task w = (drawn, feed, v)) (hfrom : f.from? n = none) :
    Drawing n start (deeds ++ f.deeds drawn) v others := by
  have hother : ∀ {sequence : Nat} {label : Option String}, f.origin = some (sequence, label) →
      sequence ≠ n := by
    rintro sequence label horigin rfl
    rw [Feed.from?, horigin] at hfrom
    simp at hfrom
  have hidle : reaches n (f.deeds drawn) = [] ∧ draws n (f.deeds drawn) = [] := by
    rw [Feed.deeds.eq_def]
    split
    · split
      · rename_i horigin
        have hne := hother horigin
        simp [reaches, draws, Deed.reach?, Deed.draw?, hne]
      · exact ⟨rfl, rfl⟩
    · exact ⟨rfl, rfl⟩
    · exact ⟨rfl, rfl⟩
  refine (h.bypass ?_).idle hidle.1 hidle.2
  rcases Feed.draw_cases hdraw with ⟨-, -, -, rfl⟩ | ⟨_, _, _, -, -, -, rfl⟩ | ⟨-, -, -, -, hseen⟩
  · exact .refl _
  · rw [Feed.noteDrawn]
    split
    · rename_i sequence label horigin
      have hne := hother horigin
      exact World.bypasses_note (by rw [Event.draw?, if_neg hne]) w
    · exact .refl w
  · exact .of_seen hseen

/-- Drawing goes on where it stands. -/
theorem draw {f feed : Feed} {task : Nat} {drawn : Draw}
    (h : Drawing n start deeds w ((f.from? n).toList ++ others))
    (hdraw : f.draw task w = (drawn, feed, v)) :
    Drawing n start (deeds ++ f.deeds drawn) v ((feed.from? n).toList ++ others) := by
  have horigin := Feed.origin_draw hdraw
  cases hfrom : f.from? n with
  | none =>
    have hnone : feed.from? n = none := by
      rw [Feed.from?] at hfrom ⊢
      rw [horigin]
      split at hfrom
      · split at hfrom
        · cases hfrom
        · rename_i hne
          exact if_neg hne
      · rfl
    rw [hfrom] at h
    rw [hnone]
    exact h.draw_other hdraw hfrom
  | some g =>
    obtain ⟨rfl, label, hlabel⟩ := Feed.from?_eq_some hfrom
    rw [hfrom] at h
    rw [Feed.from?_of_origin (horigin.trans hlabel)]
    cases h with
    | untouched _ _ _ _ _ _ hfeeds => cases hfeeds
    | @taken new cell first later hlog hsource hcell htaken hreaches hdraws hindex hpulls hfeeds =>
      obtain ⟨rfl, rfl⟩ := Feed.sole hfeeds
      rcases Feed.draw_cases hdraw with ⟨rfl, -, rfl, rfl⟩ |
        ⟨delay, value, rest, hmembers, rfl, rfl, rfl⟩ | ⟨rfl, -, hsame, hheld, hseen⟩
      · -- there is nothing left
        rw [Feed.deeds, List.append_nil]
        exact .taken hlog hsource hcell htaken hreaches hdraws hindex hpulls hfeeds
      · -- the next member is drawn
        have hdeed : g.deeds (.member value) = [.drew n g.index value] := by
          rw [Feed.deeds, hlabel]
        have hnoted : g.noteDrawn w = w.note (.drawn n label g.index) := by
          rw [Feed.noteDrawn, hlabel]
        have hreaches' : reaches n [.drew n g.index value] = [] := rfl
        have hdraws' : draws n [.drew n g.index value] = [(value, g.index)] := by
          simp [draws, Deed.draw?]
        rw [hdeed, hnoted]
        have hlog' : (w.note (.drawn n label g.index)).log =
            ((w.clock, .drawn n label g.index) :: new) ++ start.log := by
          rw [World.note, hlog, List.cons_append]
        have hpulls' : pulls n ((w.clock, .drawn n label g.index) :: new) =
            (List.range (g.index + 1)).reverse := by
          rw [Event.pulls, List.filterMap_cons, Event.draw?, if_pos rfl, List.range_succ,
            List.reverse_append, ← hpulls]
          rfl
        have hreaches'' : reaches n (deeds ++ [.drew n g.index value]) =
            cell.members :: List.replicate later [] := by
          rw [reaches_append, hreaches', List.append_nil, hreaches]
        refine .taken hlog' hsource hcell htaken hreaches'' ?_ ?_ hpulls' (.refl _)
        · rw [draws_append, hdraws', List.append_assoc, ← hdraws, Feed.held, Feed.held, hmembers]
          rfl
        · rw [draws_append, hdraws', List.length_append, ← hindex]
          rfl
      · -- it is not ready yet
        rw [Feed.deeds, List.append_nil]
        have hmade : feed.held.zipIdx feed.index = g.held.zipIdx g.index := by
          rw [Feed.held, Feed.held, hheld, hsame]
        have hstill : Drawing n start deeds w [feed] :=
          .taken hlog hsource hcell htaken hreaches (hmade ▸ hdraws) (hsame.trans hindex)
            (hsame ▸ hpulls) (.refl _)
        exact hstill.bypass (.of_seen hseen)

/-- The first reach takes everything, and a later one nothing. -/
theorem take (h : Drawing n start deeds w others) (m task : Nat) :
    Drawing n start (deeds ++ (Work.item (.sequence m)).deeds task w) (Render.take m w).2
      (((Render.take m w).1.from? n).toList ++ others) := by
  have helsewhere : ∀ members, m ≠ n → reaches n [.reached m members] = [] := by
    intro members hne
    simp [reaches, Deed.reach?, hne]
  rcases Render.take_cases m w with ⟨htake, hnothing⟩ | ⟨cell, hcell, hfresh, htake⟩
  · rw [Work.deeds, htake]
    split
    · rename_i hlt
      have htaken : w.isTaken m = true := hnothing.resolve_left (Nat.not_le.mpr hlt)
      by_cases heq : m = n
      · subst heq
        have hreach : reaches m [.reached m (Feed.ofList []).members] = [[]] := by
          simp [reaches, Deed.reach?, Feed.ofList]
        cases h with
        | untouched _ _ hfresh =>
          rw [htaken] at hfresh
          cases hfresh
        | @taken new cell feed later hlog hsource hcell hyes hreaches hdraws hindex hpulls hfeeds =>
          have hreaches' : reaches m (deeds ++ [.reached m (Feed.ofList []).members]) =
              cell.members :: List.replicate (later + 1) [] := by
            rw [reaches_append, hreaches, hreach, List.replicate_succ', List.cons_append]
          have hsame : draws m (deeds ++ [.reached m (Feed.ofList []).members]) = draws m deeds := by
            rw [draws_append]
            exact List.append_nil _
          exact .taken hlog hsource hcell hyes hreaches' (hsame ▸ hdraws) (hsame ▸ hindex) hpulls hfeeds
      · exact h.idle (helsewhere _ heq) rfl
    · exact h.idle rfl rfl
  · rw [Work.deeds, if_pos (Array.getElem?_eq_some_iff.mp hcell).1, htake]
    by_cases heq : m = n
    · subst heq
      have hreach : reaches m [.reached m cell.members] = [cell.members] := by
        simp [reaches, Deed.reach?]
      cases h with
      | taken _ _ hcell' hyes =>
        rw [hcell, Option.some.injEq] at hcell'
        rw [← hcell', hfresh] at hyes
        cases hyes
      | @untouched new hlog hsource _ hreaches hdraws hpulls hfeeds =>
        subst hfeeds
        rw [Feed.from?_of_origin rfl]
        have htaken : (w.sequences.modify m fun cell => { cell with taken := true })[m]? =
            some { cell with taken := true } := by
          rw [Array.getElem?_modify, if_pos rfl, hcell, Option.map_some]
        have hreaches' : reaches m (deeds ++ [.reached m cell.members]) =
            cell.members :: List.replicate 0 [] := by
          rw [reaches_append, hreaches, hreach]
          rfl
        have hdraws' : draws m (deeds ++ [.reached m cell.members]) = [] := by
          rw [draws_append, hdraws]
          rfl
        let feed : Feed := { origin := some (m, cell.label), members := cell.members }
        have hheld : draws m (deeds ++ [.reached m cell.members]) ++ feed.held.zipIdx feed.index =
            (cell.members.map (·.2)).zipIdx := by
          rw [hdraws']
          rfl
        have hindex : feed.index = (draws m (deeds ++ [.reached m cell.members])).length := by
          rw [hdraws']
          rfl
        have htakes : World.KeepsSource m w { w with
            sequences := w.sequences.modify m fun cell => { cell with taken := true } } := by
          intro cell' hcell'
          rw [hcell, Option.some.injEq] at hcell'
          exact ⟨_, htaken, by rw [hcell']⟩
        exact .taken hlog (hsource.trans htakes) htaken rfl hreaches' hheld hindex hpulls (.refl [feed])
    · have hother : Feed.from? n { origin := some (m, cell.label), members := cell.members } = none := by
        rw [Feed.from?]
        exact if_neg heq
      have hbypass := World.bypasses_take heq w
      rw [htake] at hbypass
      rw [hother]
      exact (h.bypass hbypass).idle (helsewhere _ heq) rfl

/-- Every step keeps account. -/
theorem step {work : Work} {rest : List Work} {progress : Progress} {ahead task : Nat}
    (h : Drawing n start deeds w (Work.feeds n (work :: rest))) (hstepped : work.isStepped = true)
    (htame : work.IsTame) (hstep : work.step ahead task w = (progress, v)) :
    Drawing n start (deeds ++ work.deeds task w) v (Work.feeds n (progress.pieces ++ rest)) := by
  rw [Work.feeds_append]
  have hothers : work.feed? n = none → Drawing n start deeds w (Work.feeds n rest) := by
    intro hnone
    rwa [Work.feeds, List.filterMap_cons, hnone] at h
  by_cases hprompt : work.isPrompt = true
  · have hunnoticed : (work.step ahead task w).1.Unnoticed := Work.unnoticed_step hprompt w
    have hbypass := (World.survives_bypasses n w).step (.refl w) hprompt ahead task
    rw [hstep] at hunnoticed hbypass
    rw [Work.feeds_of_unnoticed hunnoticed.pieces]
    obtain ⟨hdeeds, hnone⟩ : work.deeds task w = [] ∧ work.feed? n = none := by
      cases work with
      | item value =>
        cases value with
        | sequence => cases hprompt
        | _ => exact ⟨rfl, rfl⟩
      | root | settled | prop | children => exact ⟨rfl, rfl⟩
      | _ => cases hprompt
    rw [hdeeds, List.append_nil]
    exact (hothers hnone).bypass hbypass
  · cases work with
    | note event =>
      cases hstep
      have hquiet : event.draw? n = none := by
        cases event with
        | entered | began | left => rfl
        | _ => cases htame
      exact ((hothers rfl).bypass (World.bypasses_note hquiet w)).idle rfl rfl
    | await cell seat resumption =>
      have hbypass := World.bypasses_await (n := n) (.task task) cell seat w
      have hasked : Drawing n start (deeds ++ (Work.await cell seat resumption).deeds task w)
          (w.await (.task task) cell seat).2 (Work.feeds n rest) := by
        refine ((hothers rfl).bypass hbypass).idle ?_ ?_
        · rw [Work.deeds.eq_def]
          dsimp only
          split <;> rfl
        · rw [Work.deeds.eq_def]
          dsimp only
          split <;> rfl
      rw [Work.step] at hstep
      split at hstep
      · rename_i outcome u heq
        cases hstep
        rw [heq] at hasked
        rw [Progress.pieces, Work.feeds_of_unnoticed
          (Work.unnoticed_pieces (Render.unnoticed_resume _ _))]
        exact hasked
      · rename_i seat' u heq
        cases hstep
        rw [heq] at hasked
        exact hasked
    | draw feed =>
      rw [Work.feeds_cons] at h
      cases hdraw : feed.draw task w with
      | mk drawn next =>
        obtain ⟨feed', u⟩ := next
        have hdrawn : Drawing n start (deeds ++ feed.deeds drawn) u
            ((feed'.from? n).toList ++ Work.feeds n rest) := h.draw hdraw
        have hdeeds : (Work.draw feed).deeds task w = feed.deeds drawn := by
          rw [show (Work.draw feed).deeds task w = feed.deeds (feed.draw task w).1 from rfl, hdraw]
        rw [hdeeds]
        rw [Work.step, hdraw] at hstep
        cases drawn with
        | member value =>
          cases hstep
          have hpieces : Work.feeds n (Progress.next [.item value, .draw feed']).pieces =
              (feed'.from? n).toList := Work.feeds_singleton (.draw feed')
          rw [hpieces]
          exact hdrawn
        | notYet =>
          cases hstep
          have hpieces : Work.feeds n (Progress.wait (.draw feed')).pieces =
              (feed'.from? n).toList := Work.feeds_singleton (.draw feed')
          rw [hpieces]
          exact hdrawn
        | exhausted =>
          cases hstep
          exact hdrawn.only (List.sublist_append_right _ _).subperm
    | item value =>
      cases value with
      | sequence m =>
        rw [Work.step_sequence] at hstep
        cases hstep
        have htaken := (hothers rfl).take m task
        have hpieces : Work.feeds n (Progress.next (Render.feed ahead task (Render.take m w).1 []
            (Render.take m w).2).1).pieces = ((Render.take m w).1.from? n).toList := by
          rw [Progress.pieces]
          rcases Render.pieces_feed ahead task (Render.take m w).1 [] (Render.take m w).2 with
            heq | heq
          · rw [heq, Work.feeds_singleton]
            rfl
          · rw [heq, Work.feeds_singleton]
            rfl
        rw [hpieces]
        refine htaken.bypass ((World.survives_bypasses n _).feed (.refl _) ..)
      | _ => exact absurd rfl hprompt
    | emit | fail | ahead => cases hstepped
    | _ => exact absurd rfl hprompt

end Drawing

/-! ## In every history -/

/-- Every history keeps account. -/
theorem Drawing.invariant (n : Nat) (start : World) : Renders.Invariant
    fun deeds w pieces => Drawing n start deeds w (Work.feeds n pieces) where
  hidden h hseen := h.bypass (.of_seen hseen)
  entered _ _ h := h.bypass (World.bypasses_note rfl _)
  through _ _ h := h
  only h hless := h.only (Work.feeds_subperm hless)
  step h hstepped htame hstep := h.step hstepped htame hstep
  draw {deeds w v l rest drawn feed task} h hdraw := by
    have hmore : Work.feeds n (drawn.pieces l ++ rest) = Work.feeds n rest := by
      cases drawn <;> rfl
    rw [Work.feeds_cons] at h ⊢
    rw [hmore]
    exact h.draw hdraw
  run a h := h.bypass (World.bypasses_run a _)
  reported _ h := h.bypass (World.bypasses_note rfl _)
  aside h hlog _ _ hsequences _ := h.bypass (.of_eq hlog hsequences)
  opened {deeds w pieces work} h hwork := by
    have hnone : Work.feeds n (work :: pieces) = Work.feeds n pieces := by
      cases work with
      | root | item | await => rfl
      | _ => cases hwork
    rw [hnone]
    exact h

/-- Where a sequence is reached that is taken, the render goes on with what comes after it. -/
theorem Render.turn_taken {n : Nat} {w : World} (h : w.isTaken n = true) (ahead task : Nat)
    (around : List Surrounding) (rest : List Work) : ∃ u : World, u.seen = w.seen ∧ ∀ fuel,
      turn ahead (fuel + 4) around task (.item (.sequence n) :: rest) w =
        turn ahead (fuel + 2) around task rest u := by
  have htake : take n w = (.ofList [], w) := by
    rcases take_cases n w with ⟨htake, -⟩ | ⟨cell, hcell, hfresh, -⟩
    · exact htake
    · rw [World.isTaken_of_getElem? hcell, hfresh] at h
      cases h
  let held : List Value := Work.heldByAll rest ++ around.flatMap Surrounding.held
  by_cases hahead : ahead ≤ 1
  · have hfeed : feed ahead task (.ofList []) [] w = ([.draw (.ofList [])], w) := by
      rw [feed, if_pos hahead]
    refine ⟨(w.tidied held).tidied held, by rw [World.seen_tidied, World.seen_tidied],
      fun fuel => ?_⟩
    rw [turn]
    · rw [Work.step_sequence, htake, hfeed]
      dsimp only
      rw [List.singleton_append, turn]
      · rfl
      all_goals exact fun _ h => by cases h
    all_goals exact fun _ h => by cases h
  · let l : Lineup := { window := w.windows.size, feed := .ofList [], kept := [], members := [] }
    let v : World := (w.newWindow task).2
    have hfeed : feed ahead task (.ofList []) [] w = ([.ahead l], v) := by
      rw [feed, if_neg hahead]
      rfl
    have hqueue : (v.tidied held).dequeue? l.window = none := by
      have hcell : (v.tidied held).windows[l.window]? = some { owner := task } := by
        rw [World.windows_tidied]
        exact Array.getElem?_push_size
      rw [World.dequeue?, hcell]
    have hfill : l.fill ahead task (v.tidied held) = (l, v.tidied held) := by
      rw [LineupOf.fill]
      cases ahead - l.members.length <;> rfl
    have hheld : Work.heldByAll ([.ahead l] ++ rest) ++ around.flatMap Surrounding.held = held := rfl
    refine ⟨(v.tidied held).tidied held, ?_, fun fuel => ?_⟩
    · rw [World.seen_tidied, World.seen_tidied]
      rfl
    rw [turn]
    · rw [Work.step_sequence, htake, hfeed]
      dsimp only
      rw [hheld, List.singleton_append, turn, windowTurn, hfill]
      dsimp only
      rw [show l.front? = none from rfl]
      dsimp only
      rw [workOff, hqueue]
      rfl
    all_goals exact fun _ h => by cases h

namespace Drawing

variable {n : Nat} {start w : World} {deeds : List Deed} {feeds : List Feed}

/-- It is taken as soon as somebody reaches it, and not before. -/
theorem isTaken_iff (h : Drawing n start deeds w feeds) :
    w.isTaken n = true ↔ reaches n deeds ≠ [] := by
  cases h with
  | untouched _ _ hfresh hreaches => simp [hfresh, hreaches]
  | taken _ _ hcell htaken hreaches => simp [World.isTaken_of_getElem? hcell, htaken, hreaches]

/-- The log tells the number of every member that was drawn. -/
theorem pulls_eq (h : Drawing n start deeds w feeds) :
    pulls n (w.since start.mark) = (List.range (draws n deeds).length).reverse := by
  cases h with
  | untouched hlog _ _ _ hdraws hpulls =>
    rw [World.since_mark hlog, hpulls, hdraws]
    rfl
  | taken hlog _ _ _ _ _ hindex hpulls => rw [World.since_mark hlog, hpulls, hindex]

/-- What is drawn are its first members, in order, and the first reach alone finds any. -/
theorem source (h : Drawing n start deeds w feeds) {cell : SequenceCell}
    (hcell : w.sequences[n]? = some cell) :
    (∃ later, reaches n deeds = if cell.taken then cell.members :: .replicate later [] else []) ∧
      draws n deeds <+: (cell.members.map (·.2)).zipIdx := by
  cases h with
  | untouched _ _ hfresh hreaches hdraws =>
    rw [World.isTaken_of_getElem? hcell] at hfresh
    rw [hdraws, hreaches, hfresh]
    exact ⟨⟨0, rfl⟩, List.nil_prefix⟩
  | @taken _ cell' _ later _ _ hcell' htaken hreaches hdraws =>
    obtain rfl : cell' = cell := Option.some.inj (hcell'.symm.trans hcell)
    rw [htaken, ← hdraws, hreaches]
    exact ⟨⟨later, rfl⟩, List.prefix_append _ _⟩

theorem keepsSource (h : Drawing n start deeds w feeds) : start.KeepsSource n w := by
  cases h <;> assumption

end Drawing

namespace Renders

/-- A history of renders, up to some moment within a turn, keeps account of every sequence that had not
been taken. -/
theorem Leads.drawing {n : Nat} {w v : World} {r : Renders} {deeds more : List Deed}
    {pieces : List Work} (hfresh : w.isTaken n = false) (h : Leads ⟨w, []⟩ deeds r)
    (hcourse : Course r.world r.pieces more v pieces) :
    Drawing n w (deeds ++ more) v (Work.feeds n pieces) := by
  have hstart : Drawing n w [] w (Work.feeds n (Renders.mk w []).pieces) :=
    .untouched (List.nil_append _).symm (.refl w) hfresh rfl rfl rfl rfl
  have hreached := (Drawing.invariant n w).leads h nofun hstart
  exact (Drawing.invariant n w).course hreached (h.isTame nofun) hcourse

/-- **A sequence is drawn once, by whoever reaches it first.** Whatever renders are taken, polled in any
order, dropped or failing on the way, up to any moment within a turn:

* it is taken exactly if somebody has reached it, and it stays taken;
* the first reach finds all its members and every later one finds none;
* the members drawn are the first ones, each once and in order, and the log says so;
* where a render reaches it again, it goes on with what comes after it. -/
theorem drawn_once {n : Nat} {w v : World} {r : Renders} {deeds more : List Deed}
    {pieces : List Work} (hfresh : w.isTaken n = false) (h : Leads ⟨w, []⟩ deeds r)
    (hcourse : Course r.world r.pieces more v pieces) :
    (v.isTaken n = true ↔ reaches n (deeds ++ more) ≠ []) ∧
      (v.isTaken n = true → ∀ {u rest later}, Course v pieces later u rest → u.isTaken n = true) ∧
      (r.world.isTaken n = true → ∀ {s later}, r.Leads later s → s.world.isTaken n = true) ∧
      (∀ {cell}, v.sequences[n]? = some cell →
        (∃ later, reaches n (deeds ++ more) =
          if cell.taken then cell.members :: .replicate later [] else []) ∧
        draws n (deeds ++ more) <+: (cell.members.map (·.2)).zipIdx) ∧
      (∀ {cell}, w.sequences[n]? = some cell →
        ∃ cell', v.sequences[n]? = some cell' ∧ cell'.members = cell.members) ∧
      pulls n (v.since w.mark) = (List.range (draws n (deeds ++ more)).length).reverse ∧
      (v.isTaken n = true → ∀ ahead task around rest, ∃ u : World, u.seen = v.seen ∧ ∀ fuel,
        Render.turn ahead (fuel + 4) around task (.item (.sequence n) :: rest) v =
          Render.turn ahead (fuel + 2) around task rest u) := by
  have hdrawing := h.drawing hfresh hcourse
  refine ⟨hdrawing.isTaken_iff, fun htaken _ _ later hrest => ?_, fun htaken _ later hlater => ?_,
    hdrawing.source, hdrawing.keepsSource _, hdrawing.pulls_eq, Render.turn_taken⟩
  · have hreached := hdrawing.isTaken_iff.mp htaken
    rw [(h.drawing hfresh (hcourse.trans hrest)).isTaken_iff, ← List.append_assoc, reaches_append]
    exact List.append_ne_nil_of_left_ne_nil hreached _
  · have hreached := (h.drawing hfresh .refl).isTaken_iff.mp htaken
    rw [List.append_nil] at hreached
    rw [((h.trans hlater).drawing hfresh .refl).isTaken_iff, List.append_nil, reaches_append]
    exact List.append_ne_nil_of_left_ne_nil hreached _

/-- A sequence of two, the second of which takes a while. -/
def pair : SequenceCell where
  label := some "i"
  members := [(0, .str "a"), (1, .str "b")]

/-- A render drops it after the first member, and another one finds nothing. -/
theorem drawn_once_dropped : ∃ deeds r, Leads ⟨(World.newSequence pair {}).2, []⟩ deeds r ∧
    r.world.isTaken 0 = true ∧ draws 0 deeds = [(.str "a", 0)] := by
  let w : World := (World.newSequence pair {}).2
  obtain ⟨t, v, t', u, hfirst, hsecond, hcell, hpulls⟩ : ∃ t v t' u,
      (RenderStream.ofItem {} (.sequence 0) w).1.next 20 (RenderStream.ofItem {} (.sequence 0) w).2 =
        some (.fragment "a", t, v) ∧
      (RenderStream.ofItem { concurrency := 2 } (.sequence 0) (t.drop v)).1.next 20
          (RenderStream.ofItem { concurrency := 2 } (.sequence 0) (t.drop v)).2 =
        some (.ended, t', u) ∧
      u.sequences[0]? = some { pair with taken := true } ∧ pulls 0 (u.since w.mark) = [0] :=
    ⟨_, _, _, _, by cbv, by cbv, by cbv, by cbv⟩
  have hopened : ∀ (config : RenderConfig) (u : World),
      Tasked ⟨(RenderStream.ofItem config (.sequence 0) u).2,
        [] ++ (RenderStream.ofItem config (.sequence 0) u).1 :: []⟩ :=
    fun _ _ => (tasked_nil _).cons ⟨trivial, trivial⟩
  have hstart : Leads ⟨w, []⟩ [] ⟨(RenderStream.ofItem {} (.sequence 0) w).2,
      [] ++ (RenderStream.ofItem {} (.sequence 0) w).1 :: []⟩ := Leads.refl.ofItem {} (.sequence 0)
  obtain ⟨-, more, hbegun⟩ := hstart.next (hopened _ _) hfirst
  have hrestart : Leads ⟨w, []⟩ more
      ⟨(RenderStream.ofItem { concurrency := 2 } (.sequence 0) (t.drop v)).2,
        [] ++ (RenderStream.ofItem { concurrency := 2 } (.sequence 0) (t.drop v)).1 :: []⟩ :=
    hbegun.drop.ofItem { concurrency := 2 } (.sequence 0)
  obtain ⟨-, later, hended⟩ := hrestart.next (hopened _ _) hsecond
  have hfresh : w.isTaken 0 = false := by cbv
  obtain ⟨-, -, -, hdrawn, -, hlog, -⟩ := drawn_once hfresh hended .refl
  have hprefix := (hdrawn hcell).2
  rw [hpulls] at hlog
  have hlength : 1 = (draws 0 (more ++ later ++ [])).length := by simpa using congrArg List.length hlog
  rw [List.append_nil] at hprefix hlength
  refine ⟨more ++ later, _, hended, World.isTaken_of_getElem? hcell, ?_⟩
  rw [List.prefix_iff_eq_take.mp hprefix, ← hlength]
  rfl

end Renders

end TaggedMarkup
