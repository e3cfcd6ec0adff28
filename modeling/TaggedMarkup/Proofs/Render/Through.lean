import TaggedMarkup.Proofs.Render.Runs
import TaggedMarkup.Proofs.Render.Twins

/-!
# Renders that get through

Without rendering ahead, a render gets through if and only if the reference traversal of its value does, with
the same texts (`RenderStream.drain_of_visit`, `RenderStream.visit_of_drain`). That the render follows the
traversal is said elsewhere (`RenderStream.follows_start`); here is the way back. A run of the stack is taken
apart piece by piece, and the visits of the pieces are put together to the visit of the whole (`Runs.visits`).

On the way, nothing may be awaited before it was made. So the way back is for worlds that are twins of
themselves and for values that are there: whatever a piece comes to is there then (`Work.Sound`).
-/

namespace TaggedMarkup

/-! ## The visits of pieces -/

/-- The part of the traversal that the piece of work does. Only pieces that come up under the rules for items
are told. -/
def Work.visit (fuel : Nat) : Work → Visit Unit
  | .emit text => .emit text
  | .fail error => .fail error
  | .item x => .item fuel x
  | .await cell _ .item => Visit.awaited cell >>= Visit.item fuel
  | .await cell _ .markup => Visit.awaited cell >>= Visit.markup
  | .prop name x => .prop name x
  | .children e => .each (.item fuel) e.children
  | .draw ⟨some (sequence, label), index, members, none⟩ =>
    .drawn (.item fuel) sequence label index members
  | .draw ⟨none, _, [], _⟩ => .done ()
  | _ => .never

/-- The piece is one of these, and whatever it refers to is there. -/
inductive Work.Sound (ρ : Renaming) : Work → Prop
  | emit (text : String) : Work.Sound ρ (.emit text)
  | fail (error : Error) : Work.Sound ρ (.fail error)
  | item {x : Value} : Value.Twin ρ x x → Work.Sound ρ (.item x)
  | await {cell : Nat} (seat : Option Nat) {resumption : Resumption} : ρ[cell]? = some cell →
    resumption ≠ .root → Work.Sound ρ (.await cell seat resumption)
  | prop (name : String) (x : Value) : Work.Sound ρ (.prop name x)
  | children {e : Element} : List.Forall₂ (Value.Twin ρ) e.children e.children →
    Work.Sound ρ (.children e)
  | draw (sequence : Nat) (label : Option String) (index : Nat) {members : List (Nat × Value)} :
    List.Forall₂ (fun a b => Value.Twin ρ a.2 b.2) members members →
      Work.Sound ρ (.draw ⟨some (sequence, label), index, members, none⟩)
  | exhausted : Work.Sound ρ (.draw (.ofList []))

variable {ρ σ : Renaming}

theorem Work.Sound.mono (hρ : ρ <+: σ) {work : Work} (h : work.Sound ρ) : work.Sound σ := by
  cases h with
  | emit text => exact .emit text
  | fail error => exact .fail error
  | item hx => exact .item (hx.mono hρ)
  | await seat hcell hroot => exact .await seat (Renaming.grow hρ hcell) hroot
  | prop name x => exact .prop name x
  | children h => exact .children (Value.Twin.monoAll hρ h)
  | draw sequence label index h =>
    exact .draw sequence label index (h.imp fun _ _ hab => hab.mono hρ)
  | exhausted => exact .exhausted

/-- The pieces do what is left of the visit in the world that there is now, and everything that they refer to
is there. -/
structure Unfolds (ρ : Renaming) (visit : Nat → Visit Unit) (w : World) (works : List Work) (u : World) :
    Prop where
  time : u.OnTime
  twin : ∃ σ, ρ <+: σ ∧ World.Twin σ u u ∧ ∀ work ∈ works, work.Sound σ
  visit : ∀ fuel r, Visit.each (Work.visit fuel) works u.seen = some r → visit fuel w.seen = some r

namespace Unfolds

variable {visit : Nat → Visit Unit} {works : List Work} {w u : World} {ahead task : Nat}

/-- A rule that changes nothing. -/
theorem same (hw : w.OnTime) (hww : World.Twin ρ w w) (hworks : ∀ work ∈ works, work.Sound ρ)
    (hvisit : ∀ fuel, Visit.Below (Visit.each (Work.visit fuel) works) (visit fuel)) :
    Unfolds ρ visit w works w :=
  ⟨hw, ⟨ρ, List.prefix_refl ρ, hww, hworks⟩, fun fuel _ hr => hvisit fuel hr⟩

theorem one {work : Work} (hw : w.OnTime) (hww : World.Twin ρ w w) (hwork : work.Sound ρ)
    (hvisit : ∀ fuel, Visit.Below (work.visit fuel) (visit fuel)) : Unfolds ρ visit w [work] w := by
  refine same hw hww (fun _ hmem => List.mem_singleton.mp hmem ▸ hwork) fun fuel => ?_
  rw [Visit.each_singleton]
  exact hvisit fuel

theorem tag (hw : w.OnTime) (hww : World.Twin ρ w w) (name : String) {e : Element}
    (hchildren : List.Forall₂ (Value.Twin ρ) e.children e.children) :
    Unfolds ρ (fun fuel => Visit.tag (Visit.item fuel) name e) w (Render.tag name e) w := by
  have hprops : ∀ work ∈ e.props.map fun p => Work.prop p.1 p.2, work.Sound ρ := by
    intro work hmem
    obtain ⟨p, -, rfl⟩ := List.mem_map.mp hmem
    exact .prop p.1 p.2
  have hvisits : ∀ fuel, Visit.each (Work.visit fuel) (e.props.map fun p => Work.prop p.1 p.2) =
      Visit.each (fun p => Visit.prop p.1 p.2) e.props := fun fuel => Visit.each_map _ _ _
  unfold Visit.tag Render.tag
  dsimp only
  split
  · refine same hw hww (fun work hmem => ?_) fun fuel => ?_
    · simp only [List.cons_append, List.mem_cons, List.mem_append, List.not_mem_nil, or_false] at hmem
      rcases hmem with rfl | hmem | rfl
      · exact .emit _
      · exact hprops work hmem
      · exact .emit _
    · rw [List.cons_append, Visit.each, Visit.each_append, hvisits, Visit.each_singleton]
      exact .refl _
  · split
    · refine same hw hww (fun work hmem => ?_) fun fuel => ?_
      · simp only [List.cons_append, List.mem_cons, List.mem_append, List.not_mem_nil, or_false] at hmem
        rcases hmem with rfl | hmem | rfl | rfl | rfl
        · exact .emit _
        · exact hprops work hmem
        · exact .emit _
        · exact .children hchildren
        · exact .emit _
      · rw [List.cons_append, Visit.each, Visit.each_append, hvisits, Visit.each, Visit.each,
          Visit.each_singleton]
        exact .refl _
    · exact one hw hww (.fail _) fun _ => .refl _

theorem result (hw : w.OnTime) (hww : World.Twin ρ w w) (raw : Bool) {o : Outcome}
    (ho : Outcome.Twin ρ o o) :
    Unfolds ρ (fun fuel => Visit.ofOutcome o >>= Visit.called (Visit.item fuel) raw) w
      (Render.result raw o) w := by
  cases ho with
  | error error => exact one hw hww (.fail error) fun _ => .refl _
  | @ok x _ hx =>
    have hdone : ∀ fuel, (Visit.ofOutcome (.ok x) >>= Visit.called (Visit.item fuel) raw) =
        Visit.called (Visit.item fuel) raw x := fun fuel => Visit.done_bind _ _
    simp only [hdone]
    unfold Render.result
    cases raw with
    | false => exact one hw hww (.item hx) fun _ => .refl _
    | true =>
      cases hx with
      | pending hpq => exact one hw hww (.await none hpq fun h => by cases h) fun _ => .refl _
      | str s => exact one hw hww (.emit s) fun _ => .refl _
      | _ => exact one hw hww (.fail _) fun _ => .refl _

theorem element (hw : w.OnTime) (hww : World.Twin ρ w w) {e : Element}
    (he : Value.Twin ρ (.element e) (.element e)) :
    Unfolds ρ (fun fuel => Visit.element (Visit.item fuel) e) w (Render.element e w).1
      (Render.element e w).2 := by
  cases he with
  | element _ _ hprops hchildren =>
    unfold Visit.element Render.element
    cases e.type with
    | missing => exact one hw hww (.fail _) fun _ => .refl _
    | invalid typeName => exact one hw hww (.fail _) fun _ => .refl _
    | fragment => exact one hw hww (.children hchildren) fun _ => .refl _
    | tag name => exact tag hw hww name hchildren
    | component c =>
      obtain ⟨σ, hon, ho, hend⟩ := hww.callComponent c hprops hchildren
      have hcalled := hw.kept (World.kept_callComponent c e.props e.children w)
      obtain ⟨htime, ⟨τ, hτ, htwin, hworks⟩, hvisit⟩ := result hcalled hend e.raw ho
      refine ⟨htime, ⟨τ, hon.pre.trans hτ, htwin, hworks⟩, fun fuel r hr => ?_⟩
      dsimp only [Visit.component]
      rw [Visit.act_bind, World.callComponent_seen]
      exact hvisit fuel r hr

theorem take_eq (cell : Nat) (w : World) :
    Render.take cell w = (Plays.feedOf cell (Visit.take cell w).1, (Visit.take cell w).2) := by
  unfold Render.take Visit.take
  cases w.sequences[cell]? with
  | none => rfl
  | some s =>
    dsimp only
    split <;> rfl

theorem take_seen (cell : Nat) (w : World) :
    Visit.take cell w.seen = ((Visit.take cell w).1, (Visit.take cell w).2.seen) := by
  unfold Visit.take
  rw [World.seen_sequences]
  cases w.sequences[cell]? with
  | none => rfl
  | some s =>
    dsimp only
    split <;> rfl

theorem onTime_take (hw : w.OnTime) (cell : Nat) : (Visit.take cell w).2.OnTime := by
  unfold Visit.take
  split
  · exact hw
  · split
    · exact hw
    · exact hw.kept (.of_eq rfl rfl rfl)

theorem sequence (hw : w.OnTime) (hww : World.Twin ρ w w) (cell : Nat) :
    Unfolds ρ (fun fuel => Visit.sequence (Visit.item fuel) cell) w
      [.draw (Plays.feedOf cell (Visit.take cell w).1)] (Visit.take cell w).2 := by
  obtain ⟨htaken, -, hend⟩ := hww.take cell
  refine ⟨onTime_take hw cell, ⟨ρ, List.prefix_refl ρ, hend, fun work hmem => ?_⟩, fun fuel r hr => ?_⟩
  · rw [List.mem_singleton.mp hmem]
    cases htaken' : (Visit.take cell w).1 with
    | none => exact .exhausted
    | some taken =>
      rw [htaken'] at htaken
      cases htaken with
      | some hmembers => exact .draw cell taken.1 0 hmembers
  · rw [Visit.each_singleton] at hr
    unfold Visit.sequence
    rw [Visit.act_bind, take_seen]
    cases htaken' : (Visit.take cell w).1 with
    | none | some taken =>
      rw [htaken'] at hr
      exact hr

/-- The rules for items. -/
theorem item (hahead : ahead ≤ 1) (hw : w.OnTime) (hww : World.Twin ρ w w) {x : Value}
    (hx : Value.Twin ρ x x) :
    Unfolds ρ (fun fuel => Visit.item (fuel + 1) x) w (Render.item ahead task x w).1
      (Render.item ahead task x w).2 := by
  cases hx with
  | undefined | null | str | number => exact one hw hww (.emit _) fun _ => .refl _
  | bool | component => exact one hw hww (.fail _) fun _ => .refl _
  | @list xs _ hxs =>
    have hstep : Render.item ahead task (.list xs) w = (xs.map .item, w) := by
      rw [Render.item, Render.members, if_pos hahead]
    rw [hstep]
    refine same hw hww (fun work hmem => ?_) fun fuel => ?_
    · obtain ⟨x, hx, rfl⟩ := List.mem_map.mp hmem
      exact .item (List.forall₂_same.mp hxs x hx)
    · rw [Visit.each_map]
      exact .refl _
  | sequence cell =>
    have hstep : Render.item ahead task (.sequence cell) w =
        ([.draw (Plays.feedOf cell (Visit.take cell w).1)], (Visit.take cell w).2) := by
      rw [Render.item, take_eq]
      dsimp only
      rw [Render.feed, if_pos hahead]
    rw [hstep]
    exact sequence hw hww cell
  | pending hpq => exact one hw hww (.await none hpq fun h => by cases h) fun _ => .refl _
  | element htype hraw hprops hchildren =>
    exact element hw hww (.element htype hraw hprops hchildren)
  | @object entries _ hentries =>
    simp only [Visit.item]
    rw [Render.item]
    split
    · exact element hw hww (hentries.ofEntries 0 0)
    · exact one hw hww (.fail _) fun _ => .refl _

theorem prop (hw : w.OnTime) (hww : World.Twin ρ w w) (name : String) (x : Value) :
    Unfolds ρ (fun _ => Visit.prop name x) w (Render.prop name x w).1 (Render.prop name x w).2 := by
  unfold Visit.prop Render.prop
  split
  · exact same hw hww nofun fun _ => .refl _
  · split
    · exact one hw hww (.fail _) fun _ => .refl _
    · cases Render.attributeText? name x with
      | some text => exact one hw hww (.emit text) fun _ => .refl _
      | none =>
        refine ⟨hw.kept (World.kept_note _ w), ⟨ρ, List.prefix_refl ρ, ?_, nofun⟩, fun _ _ hr => hr⟩
        exact hww.congr (.note _ w) (.note _ w)

/-- What got out of reach may be let go of. -/
theorem tidied (h : Unfolds ρ visit w works u) (held : List Value) :
    Unfolds ρ visit w works (u.tidied held) := by
  obtain ⟨htime, ⟨σ, hσ, htwin, hworks⟩, hvisit⟩ := h
  have hsame := World.Same.of_seen (World.seen_tidied u held)
  refine ⟨htime.tidied held, ⟨σ, hσ, htwin.congr hsame hsame, hworks⟩, fun fuel r hr => ?_⟩
  rw [World.seen_tidied] at hr
  exact hvisit fuel r hr

theorem resumed {resumption : Resumption} (hroot : resumption ≠ .root) {o : Outcome}
    (ho : Outcome.Twin ρ o o) : ∀ work ∈ Render.resume resumption o, work.Sound ρ := by
  intro work hmem
  cases ho with
  | error error =>
    cases List.mem_singleton.mp hmem
    exact .fail error
  | @ok x _ hx =>
    cases resumption with
    | root => exact absurd rfl hroot
    | item =>
      cases List.mem_singleton.mp hmem
      exact .item hx
    | markup =>
      cases List.mem_singleton.mp hmem
      cases x with
      | str s => exact .emit s
      | _ => exact .fail _

/-- What comes of a pending value. -/
theorem await {cell : Nat} {resumption : Resumption} {o : Outcome} (hww : World.Twin ρ w w)
    (hcell : ρ[cell]? = some cell) (hroot : resumption ≠ .root)
    (ho : w.seen.outcome (cell + 1) cell = some (o, u.seen)) (hu : u.OnTime) (seat : Option Nat) :
    Unfolds ρ (fun fuel => (Work.await cell seat resumption).visit (fuel + 1)) w
      (Render.resume resumption o) u := by
  obtain ⟨σ, o', r, ho', hon, htwin, hend⟩ :=
    (hww.congr (.seen w) (.seen w)).outcome hcell (Nat.lt_succ_self cell) ho
  rw [ho, Option.some.injEq] at ho'
  cases ho'
  have hsame := (World.Same.seen u).symm
  refine ⟨hu, ⟨σ, hon.pre, hend.congr hsame hsame, resumed hroot htwin⟩, fun fuel r hr => ?_⟩
  cases resumption with
  | root => exact absurd rfl hroot
  | item =>
    refine (Visit.awaited_bind ho (Visit.item (fuel + 1))).trans ?_
    cases o with
    | error error =>
      rw [Render.resume, Visit.each_singleton] at hr
      exact hr
    | ok x =>
      rw [Visit.ofOutcome, Visit.done_bind]
      rw [Render.resume, Visit.each_singleton] at hr
      exact Visit.item_succ fuel x hr
  | markup =>
    refine (Visit.awaited_bind ho Visit.markup).trans ?_
    cases o with
    | error error =>
      rw [Render.resume, Visit.each_singleton] at hr
      exact hr
    | ok x =>
      rw [Visit.ofOutcome, Visit.done_bind]
      rw [Render.resume, Visit.each_singleton] at hr
      cases x with
      | _ => exact hr

/-- The next member is drawn. -/
theorem drawn {sequence index delay : Nat} {label : Option String} {x : Value}
    {members : List (Nat × Value)} (hww : World.Twin ρ w w) (hx : Value.Twin ρ x x)
    (hmembers : List.Forall₂ (fun a b => Value.Twin ρ a.2 b.2) members members) (hu : u.OnTime)
    (hseen : u.seen = (w.seen.sleepUntil (w.clock + delay)).note (.drawn sequence label index)) :
    Unfolds ρ (fun fuel =>
        (Work.draw ⟨some (sequence, label), index, (delay, x) :: members, none⟩).visit (fuel + 1))
      w [.item x, .draw ⟨some (sequence, label), index + 1, members, none⟩] u := by
  have hsame : World.Same w u := by
    have hslept := (World.Same.seen w).trans (.sleepUntil (w.clock + delay) _)
    have hnoted := hslept.trans (.note (.drawn sequence label index) _)
    rw [← hseen] at hnoted
    exact hnoted.trans (World.Same.seen u).symm
  refine ⟨hu, ⟨ρ, List.prefix_refl ρ, hww.congr hsame hsame, fun work hmem => ?_⟩, fun fuel r hr => ?_⟩
  · simp only [List.mem_cons, List.not_mem_nil, or_false] at hmem
    rcases hmem with rfl | rfl
    · exact .item hx
    · exact .draw sequence label (index + 1) hmembers
  · rw [hseen, Visit.each, Visit.each_singleton] at hr
    refine (Visit.drawn_cons ..).trans ?_
    rw [World.seen_clock]
    exact Visit.Below.bind (Visit.item_succ fuel x)
      (fun _ => Visit.Below.drawn (Visit.item_succ fuel) sequence label (index + 1) members) hr

end Unfolds

theorem Work.visit_succ (fuel : Nat) (work : Work) :
    Visit.Below (work.visit fuel) (work.visit (fuel + 1)) := by
  cases work with
  | emit | fail | note | root | settled | prop | ahead => exact .refl _
  | item x => exact Visit.item_succ fuel x
  | await cell seat resumption =>
    cases resumption with
    | root | markup => exact .refl _
    | item => exact .bind (.refl _) (Visit.item_succ fuel)
  | children e => exact .each (Visit.item_succ fuel) e.children
  | draw feed =>
    obtain ⟨origin, index, members, deadline⟩ := feed
    cases origin with
    | none => cases members <;> exact .refl _
    | some origin =>
      cases deadline with
      | some deadline => exact .refl _
      | none => exact .drawn (Visit.item_succ fuel) origin.1 origin.2 index members

namespace Runs

variable {ahead task n : Nat} {works : List Work} {w v : World} {texts : List String}

/-- Where a render gets through, so do the visits of its pieces. -/
theorem visits (h : Runs ahead task n works w texts v) (hahead : ahead ≤ 1) (hw : w.OnTime)
    (hww : World.Twin ρ w w) (hworks : ∀ work ∈ works, work.Sound ρ) :
    ∃ fuel out, Visit.each (Work.visit fuel) works w.seen = some (out, .ok (), v.seen) ∧
      out.map (·.text) = texts := by
  induction n using Nat.strongRecOn generalizing ρ works w texts with
  | ind n ih =>
    cases works with
    | nil =>
      cases h
      exact ⟨0, [], rfl, rfl⟩
    | cons work rest =>
      have hrest : ∀ {σ : Renaming}, ρ <+: σ → ∀ work ∈ rest, work.Sound σ := fun hσ work hmem =>
        (hworks work (List.mem_cons_of_mem _ hmem)).mono hσ
      -- what takes the place of the piece does what is left of its visit
      have hunfolded : ∀ {m : Nat} {more : List Work} {u : World}, m < n →
          Runs ahead task m (more ++ rest) u texts v →
            Unfolds ρ (fun fuel => work.visit (fuel + 1)) w more u →
              ∃ fuel out, Visit.each (Work.visit fuel) (work :: rest) w.seen =
                some (out, .ok (), v.seen) ∧ out.map (·.text) = texts := by
        intro m more u hlt hrun hunfolds
        obtain ⟨σ, hσ, htwin, hmore⟩ := hunfolds.twin
        obtain ⟨fuel, out, hvisit, htexts⟩ := ih m hlt hrun hunfolds.time htwin fun work hmem =>
          (List.mem_append.mp hmem).elim (hmore work) (hrest hσ work)
        rw [Visit.each_append] at hvisit
        obtain ⟨_, first, second, t, hfirst, hsecond, rfl⟩ := Visit.andThen_through hvisit
        exact ⟨fuel + 1, _, Visit.andThen_eq (hunfolds.visit fuel _ hfirst)
          (Visit.Below.each (Work.visit_succ fuel) rest hsecond), htexts⟩
      have hstepped : ∀ {more : List Work} {u : World}, work.isStepped = true →
          work.step ahead task w = (.next more, u) →
            Unfolds ρ (fun fuel => work.visit (fuel + 1)) w more u →
              ∃ fuel out, Visit.each (Work.visit fuel) (work :: rest) w.seen =
                some (out, .ok (), v.seen) ∧ out.map (·.text) = texts := by
        intro more u hkind hstep hunfolds
        obtain ⟨m, hlt, hrun⟩ := h.stepped hkind hstep
        exact hunfolded hlt hrun (hunfolds.tidied _)
      cases hworks work List.mem_cons_self with
      | emit text =>
        cases h with
        | @fragment m _ _ _ _ texts hmore =>
          obtain ⟨fuel, out, hvisit, rfl⟩ := ih m (Nat.lt_succ_self m) hmore (hw.congr rfl rfl)
            (hww.congr (.of_seen rfl) (.of_seen rfl)) (hrest (List.prefix_refl ρ))
          have hemit : Visit.emit text w.seen = some ([⟨text, w.seen.log⟩], .ok (), w.seen) := rfl
          exact ⟨fuel, _, Visit.andThen_eq hemit hvisit, rfl⟩
        | step hkind | wait hkind => cases hkind
      | fail error =>
        cases h with
        | step hkind | wait hkind => cases hkind
      | item hx => exact hstepped rfl rfl (.item hahead hw hww hx)
      | prop name x => exact hstepped rfl rfl (.prop hw hww name x)
      | @children e hchildren =>
        have hstep : (Work.children e).step ahead task w = (.next (e.children.map .item), w) := by
          rw [Work.step, Render.members, if_pos hahead]
        refine hstepped rfl hstep (.same hw hww (fun work hmem => ?_) fun fuel => ?_)
        · obtain ⟨x, hx, rfl⟩ := List.mem_map.mp hmem
          exact .item (List.forall₂_same.mp hchildren x hx)
        · rw [Visit.each_map]
          exact .each (Visit.item_succ fuel) e.children
      | @await cell seat resumption hcell hroot =>
        obtain ⟨⟨o, r⟩, ho⟩ := (hww.congr (.seen w) (.seen w)).order.exists_outcome
          ((hww.congr (.seen w) (.seen w)).lt_size hcell).1 (Nat.lt_succ_self cell)
        obtain ⟨m, hlt, u, hrun, hu, rfl⟩ := h.awaited hw ho
        exact hunfolded hlt hrun (.await hww hcell hroot ho hu seat)
      | exhausted => exact hstepped rfl rfl (.same hw hww (fun _ h => by cases h) fun _ => .refl _)
      | @draw sequence label index members hmembers =>
        cases hmembers with
        | nil => exact hstepped rfl rfl (.same hw hww (fun _ h => by cases h) fun _ => .refl _)
        | @cons a _ members _ hx hmore =>
          obtain ⟨m, hlt, u, hrun, hu, hseen⟩ := h.drawn hw
          exact hunfolded hlt hrun (.drawn hww hx hmore hu hseen)

end Runs

/-! ## Draining -/

namespace RenderStream

variable {fuel : Nat} {s : RenderStream} {w v : World}

/-- What is taken one by one can be drained. -/
theorem drain_of_takes {out : List Fragment} {log : List (Nat × Event)} {t : RenderStream}
    (h : s.takes (RenderStream.pull fuel) (out.length + 1) w = some (deliveries out none log, t, v))
    {rounds : Nat} (hrounds : out.length < rounds) (before : List String) :
    drain.go fuel rounds before s w =
      some (before.reverse ++ out.map (·.text), none, t.drop v) := by
  induction out generalizing s w rounds before with
  | nil =>
    obtain ⟨rounds, rfl⟩ := Nat.exists_eq_add_one_of_ne_zero (Nat.ne_of_gt hrounds)
    rw [takes] at h
    rw [drain.go]
    cases hpull : s.pull fuel w with
    | none =>
      rw [hpull] at h
      cases h
    | some answer =>
      obtain ⟨found, s', w'⟩ := answer
      rw [hpull] at h
      cases h
      rw [List.map_nil, List.append_nil]
      rfl
  | cons first rest ih =>
    obtain ⟨rounds, rfl⟩ :=
      Nat.exists_eq_add_one_of_ne_zero (Nat.ne_of_gt (Nat.zero_lt_of_lt hrounds))
    rw [List.length_cons, takes] at h
    rw [drain.go]
    cases hpull : s.pull fuel w with
    | none =>
      rw [hpull] at h
      cases h
    | some answer =>
      obtain ⟨found, s', w'⟩ := answer
      rw [hpull] at h
      dsimp only at h
      cases hmore : s'.takes (RenderStream.pull fuel) (rest.length + 1) w' with
      | none =>
        rw [hmore] at h
        cases h
      | some taken =>
        obtain ⟨outs, s'', u⟩ := taken
        rw [hmore] at h
        simp only [deliveries, List.map_cons, List.cons_append, Option.some.injEq, Prod.mk.injEq,
          List.cons.injEq] at h
        obtain ⟨⟨⟨rfl, -⟩, rfl⟩, rfl, rfl⟩ := h
        dsimp only
        rw [ih hmore (Nat.lt_of_succ_lt_succ hrounds), List.reverse_cons, List.append_assoc]
        rfl

/-- Without rendering ahead, an item of which the traversal gets through can be drained. -/
theorem drain_of_visit (config : RenderConfig) (hconfig : config.concurrency ≤ 1) {x : Value}
    (hw : w.OnTime) {visits : Nat} {out : List Fragment} {r : World}
    (hvisit : Visit.item visits x w.seen = some (out, .ok (), r)) :
    ∃ enough, ∀ fuel ≥ enough, ∃ v,
      (ofItem config x w).1.drain fuel (ofItem config x w).2 = some (out.map (·.text), none, v) := by
  have hfollows : Follows w (ofItem config x w) out (.ok ()) r :=
    follows_start (fun _ => Plays.item hconfig visits x) hw hvisit
  obtain ⟨-, enough, htakes⟩ := hfollows
  refine ⟨max enough (out.length + 1), fun fuel hfuel => ?_⟩
  obtain ⟨t, v, htake, -⟩ := htakes fuel (by omega) _ List.mem_cons_self (out.length + 1) (Nat.le_refl _)
  rw [List.take_of_length_le (by simp [deliveries])] at htake
  exact ⟨t.drop v, drain_of_takes htake (by omega) []⟩

/-- An item that can be drained without rendering ahead is one of which the traversal gets through. -/
theorem visit_of_drain (config : RenderConfig) (hconfig : config.concurrency ≤ 1) {x : Value}
    (hw : w.OnTime) (hww : World.Twin ρ w w) (hx : Value.Twin ρ x x) {texts : List String}
    (h : (ofItem config x w).1.drain fuel (ofItem config x w).2 = some (texts, none, v)) :
    ∃ visits out, Visit.item visits x w.seen = some (out, .ok (), v.seen) ∧
      out.map (·.text) = texts := by
  obtain ⟨more, u, htexts, hseen, n, hrun⟩ := runs_of_drain (s := (ofItem config x w).1)
    ⟨rfl, rfl, rfl⟩ h
  have hsame : World.Same w ((ofItem config x w).2.beginTurn (ofItem config x w).1.task) :=
    .of_seen rfl
  have hsound : ∀ work ∈ [Work.item x], work.Sound ρ := fun _ hmem =>
    List.mem_singleton.mp hmem ▸ .item hx
  obtain ⟨visits, out, hvisit, hout⟩ := hrun.visits hconfig (hw.congr rfl rfl)
    (hww.congr hsame hsame) hsound
  refine ⟨visits, out, ?_, hout.trans htexts.symm⟩
  change Visit.each (Work.visit visits) [.item x] w.seen = _ at hvisit
  rw [Visit.each_singleton] at hvisit
  rw [hseen]
  exact hvisit

end RenderStream

end TaggedMarkup
