import TaggedMarkup.Proofs.Render.Accepted
import TaggedMarkup.Proofs.Render.Portions

/-!
# Which roots are rejected after a check

The roots of a checked template are rendered one after the other. So a render stands **at** one root at a time
(`AtRoots`): those before it have been shown, and nobody has looked at those after it. Every turn keeps it
that way (`Render.KeepsRoots`), and a render that fails fails at the root where it stands.

The only root that is rejected is a **blank** one: the empty string, or a pending value that comes to it
(`Checked.render_rejects`).
-/

namespace TaggedMarkup

/-! ## Standing at a root -/

/-- How the rendering of a root fails: if it is blank it is rejected, and if it is shown then with an error
that is not about roots. -/
inductive World.Fails (w : World) (x : Value) (error : Error) : Prop
  | blank (h : w.IsBlank x) (herror : error = .blankRoot)
  | shown (h : w.IsShown x) (hother : error.isOfRoots = false)

/-- The work on a root, from the moment it is looked at. -/
inductive AtRoot (w : World) (x : Value) : List Work → Prop
  | awaiting {p : Nat} (hx : x = .pending p) (seat : Option Nat) : AtRoot w x [.await p seat .root]
  | settled {y : Value} (h : w.settled? x = some (.ok y)) : AtRoot w x [.settled y]
  | failing {error : Error} (h : w.Fails x error) : AtRoot w x [.fail error]
  /-- the rules for items have taken over -/
  | shown {works : List Work} (h : w.IsShown x) (htasked : Work.TaskedAll w.tasks.size works)
    (htame : ∀ piece ∈ Work.piecesOfAll works, piece.IsTame)
    (hcivil : ∀ piece ∈ Work.piecesOfAll works, piece.IsCivil) : AtRoot w x works

/-- The work on roots, some of which have been shown already. -/
inductive AtRoots (members : List Value) (w : World) : List Work → Prop
  | list : AtRoots members w [.root (.list members)]
  | spread : AtRoots members w [.settled (.list members)]
  | between {done left : List Value} (hmembers : members = done ++ left)
    (hdone : ∀ y ∈ done, w.IsShown y) : AtRoots members w (left.map .root)
  | within {done left : List Value} {x : Value} {works : List Work}
    (hmembers : members = done ++ x :: left) (hdone : ∀ y ∈ done, w.IsShown y) (h : AtRoot w x works) :
      AtRoots members w (works ++ left.map .root)

section

variable {members : List Value} {w v : World} {x : Value} {works stack : List Work}

theorem World.Fails.remembers {error : Error} (h : w.Fails x error) (hw : w.Remembers v) :
    v.Fails x error := by
  cases h with
  | blank h herror => exact .blank (hw.settled? h) herror
  | shown h hother => exact .shown (h.remembers hw) hother

theorem AtRoot.onward (h : AtRoot w x works) (hw : w.Remembers v)
    (hsize : w.tasks.size ≤ v.tasks.size) : AtRoot v x works := by
  cases h with
  | awaiting hx seat => exact .awaiting hx seat
  | settled h => exact .settled (hw.settled? h)
  | failing h => exact .failing (h.remembers hw)
  | shown h htasked htame hcivil => exact .shown (h.remembers hw) (htasked.mono hsize) htame hcivil

theorem AtRoots.onward (h : AtRoots members w stack) (hw : w.Remembers v)
    (hsize : w.tasks.size ≤ v.tasks.size) : AtRoots members v stack := by
  cases h with
  | list => exact .list
  | spread => exact .spread
  | between hmembers hdone => exact .between hmembers fun y hy => (hdone y hy).remembers hw
  | within hmembers hdone h =>
    exact .within hmembers (fun y hy => (hdone y hy).remembers hw) (h.onward hw hsize)

end

/-- Where the roots stand when a turn ends. If it fails, the root it has failed at is the first one that is
not shown completely, and nobody has looked at those after it. -/
inductive PassesRoots (members : List Value) (w : World) (stack : List Work) : Turn → Prop
  | fragment (text : String) (h : AtRoots members w stack) : PassesRoots members w stack (.fragment text)
  | blocked (h : AtRoots members w stack) : PassesRoots members w stack .blocked
  | failed {error : Error} {done left : List Value} {x : Value} {works : List Work}
    (hmembers : members = done ++ x :: left) (hdone : ∀ y ∈ done, w.IsShown y)
    (hstack : stack = works ++ left.map .root) (hcivil : ∀ piece ∈ Work.piecesOfAll works, piece.IsCivil)
    (hfails : w.Fails x error) : PassesRoots members w stack (.failed error)
  | ended (hshown : ∀ x ∈ members, w.IsShown x) : PassesRoots members w stack .ended

/-- A turn that starts at the roots, with this much fuel, stays there. -/
structure Render.KeepsRoots (base : Nat) (members : List Value) (ahead fuel : Nat) : Prop where
  turn : ∀ {around : List Surrounding} {task : Nat} {stack rest : List Work} {w v : World} {t : Turn},
    Checked.Accepts base members w → AtRoots members w stack →
      Render.turn ahead fuel around task stack w = some (t, rest, v) → v.InOrder →
        Checked.Accepts base members v ∧ PassesRoots members v rest t

theorem World.lasts_turn {ahead fuel task : Nat} {around : List Surrounding} {stack rest : List Work}
    {w v : World} {t : Turn} (h : Render.turn ahead fuel around task stack w = some (t, rest, v)) :
    Lasts w v :=
  ((Render.Preserves.all (preserved_checks w.pendings.size w) ahead fuel).turn
    ⟨.refl w, fun _ => answered_size w⟩ h).toLasts

namespace Render.KeepsRoots

open Checked (Accepts)

variable {base ahead fuel task : Nat} {members : List Value} {around : List Surrounding}
  {rest left : List Work} {work : Work} {works : List Work} {w u v : World} {t : Turn}

/-- A turn goes on after a step. -/
theorem step (ih : KeepsRoots base members ahead fuel) (hstepped : work.isStepped = true)
    (hstep : work.step ahead task w = (.next works, u)) (haccepts : Accepts base members u)
    (hat : u.InOrder → AtRoots members u (works ++ rest))
    (hturn : Render.turn ahead (fuel + 1) around task (work :: rest) w = some (t, left, v))
    (horder : v.InOrder) : Accepts base members v ∧ PassesRoots members v left t := by
  rw [Render.turn_step hstepped hstep] at hturn
  let held := Work.heldByAll (works ++ rest) ++ around.flatMap Surrounding.held
  have hgrown : World.Grown u (u.tidied held) := .of_seen (World.seen_tidied u held)
  have hsize : u.tasks.size ≤ (u.tidied held).tasks.size := by rw [World.tasks_tidied]
  have hu : u.InOrder := (horder.before (World.lasts_turn hturn)).before hgrown.toLasts
  exact ih.turn (haccepts.hidden (World.seen_tidied u held)).1
    ((hat hu).onward (.of_grown hgrown) hsize) hturn horder

/-- The next root is looked at, if there is one. -/
theorem between (ih : ∀ less < fuel, KeepsRoots base members ahead less)
    (haccepts : Accepts base members w) {done more : List Value} (hmembers : members = done ++ more)
    (hdone : ∀ y ∈ done, w.IsShown y)
    (hturn : Render.turn ahead fuel around task (more.map .root) w = some (t, left, v))
    (horder : v.InOrder) : Accepts base members v ∧ PassesRoots members v left t := by
  cases fuel with
  | zero =>
    rw [Render.turn] at hturn
    cases hturn
  | succ fuel =>
    have ih := ih fuel (Nat.lt_succ_self _)
    cases more with
    | nil =>
      rw [List.map_nil, Render.turn] at hturn
      cases hturn
      rw [List.append_nil] at hmembers
      exact ⟨haccepts, .ended (hmembers ▸ hdone)⟩
    | cons x more =>
      rw [List.map_cons] at hturn
      by_cases hpending : ∃ p, x = .pending p
      · obtain ⟨p, rfl⟩ := hpending
        exact ih.step rfl rfl haccepts (fun _ => .within hmembers hdone (.awaiting rfl none)) hturn horder
      · have hsettled : w.settled? x = some (.ok x) := by
          cases x with
          | pending p => exact absurd ⟨p, rfl⟩ hpending
          | _ => rfl
        have hstep : (Work.root x).step ahead task w = (.next [.settled x], w) := by
          cases x with
          | pending p => exact absurd ⟨p, rfl⟩ hpending
          | _ => rfl
        exact ih.step rfl hstep haccepts (fun _ => .within hmembers hdone (.settled hsettled)) hturn horder

/-- A pending root is awaited. -/
theorem awaiting (ih : KeepsRoots base members ahead fuel) (haccepts : Accepts base members w)
    {done more : List Value} {p : Nat} (hmembers : members = done ++ .pending p :: more)
    (hdone : ∀ y ∈ done, w.IsShown y) (seat : Option Nat)
    (hturn : Render.turn ahead (fuel + 1) around task (.await p seat .root :: more.map .root) w =
      some (t, left, v))
    (horder : v.InOrder) : Accepts base members v ∧ PassesRoots members v left t := by
  obtain ⟨source, hform⟩ := haccepts.forms (.pending p) (by simp [hmembers])
  have hsize : p < w.pendings.size := by
    cases hform.1 with
    | pending q p => exact World.lt_size_of_job? (hform.2 q p rfl rfl).2
  obtain ⟨haccepts', hsustains⟩ := haccepts.await (.task task) p seat
  have hdone' : (w.await (.task task) p seat).2.InOrder →
      ∀ y ∈ done, (w.await (.task task) p seat).2.IsShown y :=
    fun hu y hy => (hdone y hy).remembers (hsustains.remembers hu)
  have hready : (w.await (.task task) p seat).2.InOrder → ∀ outcome,
      (w.await (.task task) p seat).1 = .ready outcome →
        (w.await (.task task) p seat).2.peek p = some outcome := by
    intro hu
    have hasked : World.Asked base p w (w.await (.task task) p seat) :=
      World.asked_ask (Nat.lt_succ_self p) _ seat hu hsize
    exact hasked.ready
  cases hawait : w.await (.task task) p seat with
  | mk answer u =>
    rw [hawait] at haccepts' hdone' hready
    cases answer with
    | notYet seat' =>
      have hstep : (Work.await p seat .root).step ahead task w =
          (.wait (.await p (some seat') .root), u) := by simp only [Work.step, hawait]
      rw [Render.turn_wait rfl hstep] at hturn
      cases hturn
      exact ⟨haccepts', .blocked (.within hmembers (hdone' horder) (.awaiting rfl (some seat')))⟩
    | ready outcome =>
      have hstep : (Work.await p seat .root).step ahead task w =
          (.next (resume .root outcome), u) := by simp only [Work.step, hawait]
      refine ih.step rfl hstep haccepts' (fun hu => ?_) hturn horder
      have hpeek : u.settled? (.pending p) = some outcome := hready hu outcome rfl
      cases outcome with
      | ok y => exact .within hmembers (hdone' hu) (.settled hpeek)
      | error error =>
        have hother : error.isOfRoots = false := haccepts'.civil.outcomes hpeek error rfl
        exact .within hmembers (hdone' hu) (.failing (.shown ⟨_, hpeek, fun h => by cases h⟩ hother))

/-- The rules for roots look at what a root comes to. -/
theorem settled (ih : KeepsRoots base members ahead fuel) (haccepts : Accepts base members w)
    {done more : List Value} {x y : Value} (hmembers : members = done ++ x :: more)
    (hdone : ∀ y ∈ done, w.IsShown y) (hsettled : w.settled? x = some (.ok y))
    (hturn : Render.turn ahead (fuel + 1) around task (.settled y :: more.map .root) w =
      some (t, left, v))
    (horder : v.InOrder) : Accepts base members v ∧ PassesRoots members v left t := by
  have hw : w.InOrder := horder.before (World.lasts_turn hturn)
  obtain ⟨source, hform⟩ := haccepts.form hw (by simp [hmembers]) (Accepts.resolvesTo_of_settled hsettled)
  refine ih.step rfl rfl haccepts (fun _ => .within hmembers hdone ?_) hturn horder
  rcases root_form hform.1 with ⟨rfl, hroot⟩ | ⟨hother, hroot⟩
  · rw [hroot]
    exact .failing (.blank hsettled rfl)
  · rw [hroot]
    exact .shown ⟨_, hsettled, fun heq => hother (Except.ok.inj heq)⟩ ⟨trivial, trivial⟩
      (List.forall_mem_singleton.mpr trivial) (List.forall_mem_singleton.mpr trivial)

/-- A root that is shown is worked off, and then it is the turn of the next one. -/
theorem shown (ih : ∀ less < fuel, KeepsRoots base members ahead less)
    (haccepts : Accepts base members w) {done more : List Value} {x : Value}
    (hmembers : members = done ++ x :: more) (hdone : ∀ y ∈ done, w.IsShown y) (hx : w.IsShown x)
    (htasked : Work.TaskedAll w.tasks.size works)
    (htame : ∀ piece ∈ Work.piecesOfAll works, piece.IsTame)
    (hcivil : ∀ piece ∈ Work.piecesOfAll works, piece.IsCivil)
    (hturn : Render.turn ahead fuel around task (works ++ more.map .root) w = some (t, left, v))
    (horder : v.InOrder) : Accepts base members v ∧ PassesRoots members v left t := by
  cases (Render.TakesCourse.all ahead fuel).turn htasked hturn with
  | @within works' deeds hrest hsize htasked' hway =>
    have hcourse := hway.course
    obtain ⟨hv, hsustains, hcivil'⟩ := haccepts.course hcourse htame hcivil
    have hremembers := hsustains.remembers horder
    have hdone' : ∀ y ∈ done, v.IsShown y := fun y hy => (hdone y hy).remembers hremembers
    obtain ⟨hout, hleft⟩ := List.forall_mem_append.mp hcivil'
    have htame' := (List.forall_mem_append.mp (hcourse.isTame htame)).2
    have hat : AtRoots members v left := by
      rw [hrest]
      exact .within hmembers hdone' (.shown (hx.remembers hremembers) htasked' htame' hleft)
    refine ⟨hv, ?_⟩
    cases t with
    | fragment text => exact .fragment text hat
    | blocked => exact .blocked hat
    | failed error =>
      have hother : error.isOfRoots = false := hout (.fail error) List.mem_cons_self
      exact .failed hmembers hdone' hrest hleft (.shown (hx.remembers hremembers) hother)
    | ended =>
      have hnone : works' ++ more.map .root = [] := by
        rw [← hrest]
        exact Render.stack_eq_nil_of_turn hturn
      have hmore : more = [] := List.map_eq_nil_iff.mp (List.append_eq_nil_iff.mp hnone).2
      refine .ended fun y hy => ?_
      rw [hmembers, hmore, List.mem_append, List.mem_singleton] at hy
      rcases hy with hy | rfl
      · exact hdone' y hy
      · exact hx.remembers hremembers
  | @beyond fuel' u deeds hfuel hsize hway hturn =>
    obtain ⟨hu, hsustains, -⟩ := haccepts.course hway.course htame hcivil
    have hremembers := hsustains.remembers (horder.before (World.lasts_turn hturn))
    have hdone' : ∀ y ∈ done ++ [x], u.IsShown y := List.forall_mem_append.mpr
      ⟨fun y hy => (hdone y hy).remembers hremembers,
        List.forall_mem_singleton.mpr (hx.remembers hremembers)⟩
    rw [List.append_cons] at hmembers
    exact between (fun less hless => ih less (Nat.lt_of_lt_of_le hless hfuel)) hu hmembers hdone' hturn
      horder

theorem all (base : Nat) (members : List Value) (ahead fuel : Nat) :
    KeepsRoots base members ahead fuel := by
  induction fuel using Nat.strong_induction_on with
  | _ fuel ih =>
    refine ⟨fun {around task stack rest w v t} haccepts hat hturn horder => ?_⟩
    cases fuel with
    | zero =>
      rw [Render.turn] at hturn
      cases hturn
    | succ fuel =>
      have hnext := ih fuel (Nat.lt_succ_self _)
      cases hat with
      | list => exact hnext.step rfl rfl haccepts (fun _ => .spread) hturn horder
      | spread =>
        refine hnext.step rfl rfl haccepts (fun _ => ?_) hturn horder
        rw [List.append_nil]
        have hnone : ∀ y ∈ ([] : List Value), w.IsShown y := List.forall_mem_nil _
        exact .between rfl hnone
      | between hmembers hdone => exact between ih haccepts hmembers hdone hturn horder
      | within hmembers hdone h =>
        cases h with
        | awaiting hx seat =>
          subst hx
          exact hnext.awaiting haccepts hmembers hdone seat hturn horder
        | settled hsettled => exact hnext.settled haccepts hmembers hdone hsettled hturn horder
        | failing hfails =>
          rw [List.singleton_append, Render.turn] at hturn
          cases hturn
          exact ⟨haccepts, .failed hmembers hdone (List.nil_append _).symm (List.forall_mem_nil _) hfails⟩
        | shown hx htasked htame hcivil =>
          exact shown ih haccepts hmembers hdone hx htasked htame hcivil hturn horder

end Render.KeepsRoots

/-! ## Renders of roots -/

/-- A turn that gives this. -/
def Delivery.turn : Delivery → Turn
  | fragment text => .fragment text
  | failed error => .failed error
  | ended => .ended

/-- At first nobody has looked at any root. -/
theorem atRoots_root (y : Value) (w : World) : AtRoots y.members w [.root y] := by
  cases y with
  | list members => exact .list
  | _ => exact .between (List.nil_append _).symm nofun

namespace RenderStream

variable {base fuel size : Nat} {members : List Value} {s t : RenderStream} {w v : World}
  {out : Delivery} {texts : List String} {failure : Option Error}

theorem lasts_await (h : s.await fuel w = some (out, t, v)) : World.Lasts w v :=
  ((World.preserved_checks w.pendings.size w).stream ⟨.refl w, fun _ => World.answered_size w⟩ h).toLasts

theorem lasts_drain_go {rounds : Nat} {before : List String}
    (h : drain.go fuel rounds before s w = some (texts, failure, v)) : World.Lasts w v := by
  induction rounds generalizing s w before with
  | zero => cases h
  | succ rounds ih =>
    have hpulled : ∀ {out : Delivery} {t : RenderStream} {u : World},
        s.pull fuel w = some (out, t, u) → World.Lasts w u := by
      intro out t u hpull
      cases pulled hpull with
      | closed => exact .refl w
      | ended _ hawait => exact lasts_await hawait
      | late _ _ hawait => exact lasts_await hawait
      | fragment _ _ hawait => exact lasts_await hawait
      | failed _ _ hawait => exact lasts_await hawait
    rw [drain.go] at h
    split at h
    · cases h
    · rename_i hpull
      cases h
      exact (hpulled hpull).trans (World.Grown.of_seen (seen_drop _ _)).toLasts
    · rename_i hpull
      cases h
      exact (hpulled hpull).trans (World.Grown.of_seen (seen_drop _ _)).toLasts
    · rename_i hpull
      exact (hpulled hpull).trans (ih h)

/-- Whatever comes out of a render, it stays at its roots meanwhile. -/
theorem keepsRoots_await (haccepts : Checked.Accepts base members w) (hat : AtRoots members w s.stack)
    (hawait : s.await fuel w = some (out, t, v)) (horder : v.InOrder) :
    Checked.Accepts base members v ∧ PassesRoots members v t.stack out.turn := by
  induction fuel generalizing s w with
  | zero => cases hawait
  | succ fuel ih =>
    have hseen := World.seen_beginTurn w s.task
    have hbegun : AtRoots members (w.beginTurn s.task) s.stack :=
      hat.onward (.of_grown (.of_seen hseen)) (Nat.le_of_eq (World.size_tasks_beginTurn w s.task).symm)
    have hturned : ∀ {out : Turn} {stack : List Work} {v : World},
        Render.turn s.config.concurrency fuel [] s.task s.stack (w.beginTurn s.task) =
          some (out, stack, v) → v.InOrder →
            Checked.Accepts base members v ∧ PassesRoots members v stack out :=
      (Render.KeepsRoots.all base members s.config.concurrency fuel).turn
        (haccepts.hidden hseen).1 hbegun
    rw [await] at hawait
    split at hawait
    · cases hawait
    · rename_i hturn
      cases hawait
      exact hturned hturn horder
    · rename_i hturn
      cases hawait
      exact hturned hturn horder
    · rename_i hturn
      cases hawait
      exact hturned hturn horder
    · rename_i stack u hturn
      split at hawait
      · obtain ⟨hu, hpasses⟩ := hturned hturn (horder.before (lasts_await hawait))
        cases hpasses with
        | blocked hat => exact ih hu hat hawait
      · split at hawait
        · cases hawait
        · rename_i u' hadvance
          have hsame := World.same_advance hadvance
          have horder' := (horder.before (lasts_await hawait)).before hsame.grown.toLasts
          obtain ⟨hu, hpasses⟩ := hturned hturn horder'
          cases hpasses with
          | blocked hat =>
            have hsustains := hu.sustains_self.grown hsame.grown
            refine ih (hu.onward hsustains (hu.civil.same hsame)) ?_ hawait
            exact hat.onward (.of_grown hsame.grown)
              (Nat.le_of_eq (World.size_tasks_advance? hadvance).symm)

/-- These texts are taken from the stream one by one, and then the error or the end, which leaves it as
`t` in the world `v`. -/
def ComesTo (fuel : Nat) (s : RenderStream) (w : World) (texts : List String) (failure : Option Error)
    (t : RenderStream) (v : World) : Prop :=
  ∃ outs, s.takes (pull fuel) (texts.length + 1) w = some (outs, t, v) ∧
    outs.map Prod.fst = texts.map .fragment ++ [.ofFailure failure]

theorem ComesTo.last (hpull : s.pull fuel w = some (.ofFailure failure, t, v)) :
    s.ComesTo fuel w [] failure t v :=
  ⟨[(.ofFailure failure, v.log)], by rw [List.length_nil, takes, hpull]; rfl, rfl⟩

theorem ComesTo.cons {s' : RenderStream} {w' : World} {text : String}
    (hpull : s.pull fuel w = some (.fragment text, s', w'))
    (hrest : s'.ComesTo fuel w' texts failure t v) : s.ComesTo fuel w (text :: texts) failure t v := by
  obtain ⟨outs, htakes, houts⟩ := hrest
  refine ⟨(.fragment text, w'.log) :: outs, ?_, congrArg (List.cons (Delivery.fragment text)) houts⟩
  rw [List.length_cons, takes, hpull]
  dsimp only
  rw [htakes]

/-- A render that is drained stays at its roots, up to an error or the end. -/
theorem keepsRoots_drain_go {rounds : Nat} {before : List String} {z : World}
    (haccepts : Checked.Accepts base members w) (hat : AtRoots members w s.stack)
    (hfailed : s.failed = false) (hclosed : s.closed = false)
    (hdrain : drain.go fuel rounds before s w = some (texts, failure, z)) (horder : z.InOrder) :
    ∃ more t v, texts = before.reverse ++ more ∧ s.ComesTo fuel w more failure t v ∧ z = t.drop v ∧
      Checked.Accepts base members v ∧
        PassesRoots members v t.stack (Delivery.ofFailure failure).turn := by
  induction rounds generalizing s w before with
  | zero => cases hdrain
  | succ rounds ih =>
    have hdrop : ∀ {t : RenderStream} {v : World}, (t.drop v).InOrder → v.InOrder := fun h =>
      h.before (World.Grown.of_seen (seen_drop _ _)).toLasts
    rw [drain.go] at hdrain
    split at hdrain
    · cases hdrain
    · rename_i t v hpull
      cases hdrain
      cases pulled hpull with
      | closed h => simp [hclosed] at h
      | late _ h _ => simp [hfailed] at h
      | ended _ hawait =>
        obtain ⟨hv, hpasses⟩ := keepsRoots_await haccepts hat hawait (hdrop horder)
        exact ⟨[], _, v, (List.append_nil _).symm, .last hpull, rfl, hv, hpasses⟩
    · rename_i error t v hpull
      cases hdrain
      cases pulled hpull with
      | failed _ _ hawait =>
        obtain ⟨hv, hpasses⟩ := keepsRoots_await haccepts hat hawait (hdrop horder)
        exact ⟨[], _, v, (List.append_nil _).symm, .last hpull, rfl, hv, hpasses⟩
    · rename_i text t v hpull
      cases pulled hpull with
      | fragment _ _ hawait =>
        obtain ⟨hv, hpasses⟩ := keepsRoots_await haccepts hat hawait (horder.before (lasts_drain_go hdrain))
        cases hpasses with
        | fragment _ hat =>
          obtain ⟨more, t', u, htexts, hcomes, hrest⟩ := ih hv hat hfailed hclosed hdrain
          refine ⟨text :: more, t', u, ?_, hcomes.cons hpull, hrest⟩
          rw [htexts, List.reverse_cons, List.append_assoc]
          rfl

end RenderStream

/-! ## Checked templates -/

namespace Checked

/-- The roots of a checked template are accepted, whatever happens afterwards. -/
theorem accepts_template {statics : Statics} {values : List Value} {w v u : World} {y : Value}
    (hchecked : (template statics values .give).run w = (.ok y, v)) (hleads : v.Leads u)
    (hcivil : u.IsCivil) : ∃ base, Accepts base y.members u := by
  let r := (w.useTemplate 0 statics values).1
  have hrun : (result r .give).run (w.useTemplate 0 statics values).2 = (.ok y, v) := hchecked
  have hresult := result_run (w := (w.useTemplate 0 statics values).2) r (Nat.le_refl _)
  cases hr : r.roots.findSome? rootError? with
  | some error =>
    rw [hr] at hresult
    obtain ⟨v', hfail⟩ := hresult
    rw [hrun] at hfail
    cases hfail
  | none =>
    rw [hr] at hresult
    obtain ⟨y', v', hgive, hgrown, -, hforms⟩ := hresult
    rw [hrun] at hgive
    cases hgive
    have hstart : World.Checks (w.useTemplate 0 statics values).2.pendings.size v v :=
      ⟨.refl v, fun _ => (World.answered_size _).grown hgrown⟩
    have hchecks := (World.preserved_checks _ v).leads hleads hstart
    refine ⟨_, hcivil, ?_, hchecks.answered⟩
    generalize r.roots = sources, y.members = members at hforms
    induction hforms with
    | nil => exact nofun
    | cons hform _ ih => exact List.forall_mem_cons.mpr ⟨⟨_, hform.lasts hchecks.toLasts⟩, ih⟩

/-- **What the rules for roots reject of a checked template.** Where no component and no pending value fails
with an error about roots itself, the render of a checked template fails with such an error exactly if the
first root whose rendering fails is blank: the empty string, or a pending value that came to it. The error
then says so. None of the roots before it is blank, and none at all if the render succeeds. And whatever a
root comes to, through any depth of pending values, is not rejected for its kind: with such an error only a
component can fail, by itself. -/
theorem render_rejects {statics : Statics} {values : List Value} {w v u z : World} {y : Value}
    {config : RenderConfig} {fuel : Nat} {result : Except Error String}
    (hchecked : (template statics values .give).run w = (.ok y, v)) (hleads : v.Leads u)
    (hcivil : u.IsCivil) (hrender : Render.toText fuel config y u = some (result, z))
    (horder : z.InOrder) :
    (∀ error, result = .error error → ∃ texts t v' done x left works,
      (RenderStream.ofRoot config y u).1.ComesTo fuel (RenderStream.ofRoot config y u).2 texts
        (some error) t v' ∧
      z = t.drop v' ∧ y.members = done ++ x :: left ∧ t.stack = works ++ left.map .root ∧
      (∀ piece ∈ Work.piecesOfAll works, piece.IsCivil) ∧ (∀ y ∈ done, ¬ z.IsBlank y) ∧
      ((∃ message, error = .invalidRoot message) ↔ z.IsBlank x) ∧
      (z.IsBlank x → error = .blankRoot)) ∧
    (∀ text, result = .ok text → ∀ x ∈ y.members, ¬ z.IsBlank x) ∧
    ∀ x ∈ y.members, ∀ c, z.ResolvesTo x c → ∀ (ahead task : Nat) (w' : World) (error : Error),
      .fail error ∈ (Render.item ahead task c w').1 → error.isOfKinds = true →
        ∃ e component, c = .element e ∧ e.type = .component component ∧
          (w'.callComponent component e.props e.children).1 = .error error := by
  obtain ⟨base, haccepts⟩ := accepts_template hchecked hleads hcivil
  let opened := RenderStream.ofRoot config y u
  have hopened : Accepts base y.members opened.2 := (haccepts.hidden (v := opened.2) rfl).1
  have hdrained : ∃ texts failure, opened.1.drain fuel opened.2 = some (texts, failure, z) ∧
      (∀ error, result = .error error → failure = some error) ∧
        ∀ text, result = .ok text → failure = none := by
    rw [Render.toText] at hrender
    dsimp only at hrender
    split at hrender
    · cases hrender
    · rename_i texts error w' hdrain
      cases hrender
      exact ⟨_, _, hdrain, fun _ h => congrArg some (Except.error.inj h), nofun⟩
    · rename_i texts w' hdrain
      cases hrender
      exact ⟨_, _, hdrain, nofun, fun _ _ => rfl⟩
  obtain ⟨texts, failure, hdrain, hfailure, hsuccess⟩ := hdrained
  obtain ⟨more, t, v', htexts, hcomes, hdropped, hv, hpasses⟩ :=
    RenderStream.keepsRoots_drain_go hopened (atRoots_root y opened.2) rfl rfl hdrain horder
  have hseen : z.seen = v'.seen := hdropped ▸ RenderStream.seen_drop t v'
  refine ⟨fun error herror => ?_, fun text htext x hx => ?_, ?_⟩
  · obtain rfl := hfailure error herror
    cases hpasses with
    | @failed _ done left x works hmembers hdone hstack hworks hfails =>
      refine ⟨more, t, v', done, x, left, works, hcomes, hdropped, hmembers, hstack, hworks,
        fun y hy hblank => ?_, ?_⟩
      · exact (hdone y hy).not_isBlank ((World.isBlank_congr hseen).mp hblank)
      · rw [World.isBlank_congr hseen]
        cases hfails with
        | blank hblank hsame => exact ⟨⟨fun _ => hblank, fun _ => ⟨_, hsame⟩⟩, fun _ => hsame⟩
        | shown hshown hother =>
          refine ⟨⟨?_, fun hblank => absurd hblank hshown.not_isBlank⟩,
            fun hblank => absurd hblank hshown.not_isBlank⟩
          rintro ⟨message, rfl⟩
          cases hother
  · obtain rfl := hsuccess text htext
    cases hpasses with
    | ended hshown =>
      rw [World.isBlank_congr hseen]
      exact (hshown x hx).not_isBlank
  · intro x hx c hc ahead task w' error hfail hkind
    have hz : Accepts base y.members z := (hv.hidden hseen).1
    obtain ⟨source, hform⟩ := hz.form horder hx hc
    exact Render.item_form hform.1 hfail hkind

/-- A pending value that comes to the empty string. -/
def emptied : World := ((Action.pending none 0 [] (.give (.str "")) .give).run {}).2

/-- It is accepted as a root, and rejected when it is rendered. -/
theorem render_rejects_emptied : ∃ y v z,
    (template ⟨"", ["", "", ""]⟩ [.str "a", .pending 0] .give).run emptied = (.ok y, v) ∧
      Render.toText 30 {} y v = some (.error .blankRoot, z) ∧
        ∃ x ∈ y.members, z.IsBlank x := by
  obtain ⟨y, v, z, hchecked, hrender, horder⟩ : ∃ y v z,
      (template ⟨"", ["", "", ""]⟩ [.str "a", .pending 0] .give).run emptied = (.ok y, v) ∧
        Render.toText 30 {} y v = some (.error .blankRoot, z) ∧ z.InOrder :=
    ⟨_, _, _, by cbv, by cbv, of_decide_eq_true (by cbv)⟩
  have hcivil : v.IsCivil := by
    have hempty : World.IsCivil {} := ⟨by simp, by simp [World.job?], by simp [World.peek]⟩
    have haction : (Action.pending none 0 [] (.give (.str "")) .give).IsCivil :=
      ⟨trivial, fun _ => trivial⟩
    have htemplate : (template ⟨"", ["", "", ""]⟩ [.str "a", .pending 0] .give).IsCivil :=
      civil_template _ _ fun _ => trivial
    have hafter := (World.IsCivil.run htemplate (World.IsCivil.run haction hempty).2).2
    rwa [← emptied, hchecked] at hafter
  obtain ⟨hfails, -⟩ := render_rejects hchecked .refl hcivil hrender horder
  obtain ⟨texts, t, v', done, x, left, works, -, -, hsplit, -, -, -, hblank, -⟩ := hfails _ rfl
  refine ⟨y, v, z, hchecked, hrender, x, ?_, hblank.mp ⟨_, rfl⟩⟩
  rw [hsplit]
  exact List.mem_append_right _ List.mem_cons_self

end Checked

end TaggedMarkup
