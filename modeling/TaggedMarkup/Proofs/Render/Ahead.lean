import TaggedMarkup.Proofs.Render.Admission
import TaggedMarkup.Proofs.Render.Fuel

/-!
# Turns keep to their windows

A turn, a turn of a window, the working off of its queue and the turns of a member call one another. Each of
them keeps the log orderly, touches no window but those of the lists it was given, and leaves these lists
steady, unless it fails (`Render.Admits`). The induction is on the fuel of all four at once.

A stack is **ready** for a turn if no event is waiting to be written down, or if it begins with the fragments
of a member that is through: then the member leaves when the last of them is handed on.
-/

namespace TaggedMarkup

open World

/-! ## What comes of a step -/

/-- Work that is neither an event to write down nor a list in work. -/
def Work.isPlain : Work → Bool
  | .note _ | .ahead _ => false
  | _ => true

/-- A step comes to plain work, or to a list in a window that is new, with nothing drawn. -/
def Work.Opens (size : Nat) (works : List Work) (v : World) : Prop :=
  (∀ work ∈ works, work.isPlain = true) ∨
    ∃ l : Lineup, works = [.ahead l] ∧ l.members = [] ∧ l.feed.index = 0 ∧ size ≤ l.window ∧
      v.Waits l.window []

namespace Render

variable (w : World) {size : Nat}

theorem opens_one {work : Work} (hwork : work.isPlain = true) : Work.Opens size [work] w :=
  .inl fun _ h => List.mem_singleton.mp h ▸ hwork

theorem opens_map {α : Type} {f : α → Work} (hf : ∀ a, (f a).isPlain = true) (as : List α) :
    Work.Opens size (as.map f) w := by
  refine .inl fun work hwork => ?_
  obtain ⟨a, -, rfl⟩ := List.mem_map.mp hwork
  exact hf a

theorem opens_feed (hsize : size ≤ w.windows.size) (ahead task : Nat) {f : Feed} (hf : f.index = 0)
    (kept : List Value) :
    Work.Opens size (feed ahead task f kept w).1 (feed ahead task f kept w).2 := by
  unfold feed
  split
  · exact opens_one w rfl
  · exact .inr ⟨_, rfl, rfl, hf, hsize, waits_newWindow task w⟩

theorem opens_members (hsize : size ≤ w.windows.size) (ahead task : Nat) (values kept : List Value) :
    Work.Opens size (members ahead task values kept w).1 (members ahead task values kept w).2 := by
  unfold members
  split
  · exact opens_map w (f := .item) (fun _ => rfl) values
  · exact opens_feed w hsize ahead task rfl kept

theorem isPlain_markup (value : Value) : (markup value).isPlain = true := by
  unfold markup
  split <;> rfl

theorem opens_result (raw : Bool) (outcome : Outcome) : Work.Opens size (result raw outcome) w := by
  unfold result
  split
  · exact opens_one w rfl
  · split
    · split
      · exact opens_one w rfl
      · exact opens_one w (isPlain_markup _)
    · exact opens_one w rfl

theorem opens_tag (name : String) (e : Element) : Work.Opens size (tag name e) w := by
  have hprops : ∀ work ∈ e.props.map (fun p => Work.prop p.1 p.2), work.isPlain = true := by
    intro work hwork
    obtain ⟨p, -, rfl⟩ := List.mem_map.mp hwork
    rfl
  unfold tag
  dsimp only
  split
  · refine .inl fun work hwork => ?_
    simp only [List.cons_append, List.mem_cons, List.mem_append, List.not_mem_nil, or_false] at hwork
    rcases hwork with rfl | hwork | rfl
    · rfl
    · exact hprops work hwork
    · rfl
  · split
    · refine .inl fun work hwork => ?_
      simp only [List.cons_append, List.mem_cons, List.mem_append, List.not_mem_nil, or_false] at hwork
      rcases hwork with rfl | hwork | rfl | rfl | rfl
      · rfl
      · exact hprops work hwork
      · rfl
      · rfl
      · rfl
    · exact opens_one w rfl

theorem opens_element (e : Element) : Work.Opens size (element e w).1 (element e w).2 := by
  unfold element
  split
  · exact opens_one w rfl
  · exact opens_one w rfl
  · exact opens_tag ..
  · exact opens_result ..
  · exact opens_one w rfl

theorem index_take (cell : Nat) : (take cell w).1.index = 0 := by
  unfold take
  split
  · rfl
  · split <;> rfl

theorem opens_item (hsize : size ≤ w.windows.size) (ahead task : Nat) (value : Value) :
    Work.Opens size (item ahead task value w).1 (item ahead task value w).2 := by
  cases value with
  | list values => exact opens_members w hsize ahead task values []
  | sequence cell =>
    exact opens_feed _ (Nat.le_trans hsize (calm_take w cell).windows) ahead task (index_take w cell) []
  | element e => exact opens_element ..
  | object entries =>
    rw [item]
    split
    · exact opens_element ..
    · exact opens_one w rfl
  | _ => exact opens_one w rfl

theorem opens_prop (name : String) (value : Value) :
    Work.Opens size (prop name value w).1 (prop name value w).2 := by
  unfold prop
  split
  · exact .inl nofun
  · split
    · exact opens_one w rfl
    · split
      · exact opens_one w rfl
      · exact .inl nofun

theorem opens_root (value : Value) : Work.Opens size (root value) w := by
  unfold root
  split
  · exact opens_one w rfl
  · exact opens_map w (f := .root) (fun _ => rfl) _
  · split
    · exact opens_one w rfl
    · split <;> exact opens_one w rfl

theorem opens_resume (resumption : Resumption) (outcome : Outcome) :
    Work.Opens size (resume resumption outcome) w := by
  unfold resume
  split
  · exact opens_one w rfl
  · split
    · exact opens_one w rfl
    · exact opens_one w rfl
    · exact opens_one w (isPlain_markup _)

end Render

/-- What comes of a step of plain work. -/
def Progress.Opens (size : Nat) (v : World) : Progress → Prop
  | .next works => Work.Opens size works v
  | .wait work => work.isPlain = true

theorem Work.opens_step (ahead task : Nat) {work : Work} (hwork : work.isPlain = true) (w : World) :
    (work.step ahead task w).1.Opens w.windows.size (work.step ahead task w).2 := by
  cases work with
  | note | ahead => cases hwork
  | root value => cases value <;> exact Render.opens_one w rfl
  | settled value => exact Render.opens_root w value
  | item value => exact Render.opens_item w (Nat.le_refl _) ahead task value
  | prop name value => exact Render.opens_prop w name value
  | children e => exact Render.opens_members w (Nat.le_refl _) ahead task e.children [.element e]
  | await cell seat resumption =>
    rw [Work.step]
    split
    · exact Render.opens_resume ..
    · rfl
  | draw feed =>
    rw [Work.step]
    split
    · refine .inl fun work hwork => ?_
      simp only [List.mem_cons, List.not_mem_nil, or_false] at hwork
      rcases hwork with rfl | rfl <;> rfl
    · rfl
    · exact .inl (List.forall_mem_nil _)
  | emit | fail => rfl

theorem Work.isNote_of_isPlain {work : Work} (h : work.isPlain = true) : work.isNote = false := by
  cases work with
  | note => cases h
  | _ => rfl

theorem Work.lineups_of_isPlain {work : Work} (h : work.isPlain = true) : work.lineups = [] := by
  cases work with
  | ahead => cases h
  | _ => simp [Work.lineups]

theorem Work.lineupsOfAll_of_isPlain {works : List Work} (h : ∀ work ∈ works, work.isPlain = true) :
    Work.lineupsOfAll works = [] := by
  induction works with
  | nil => rfl
  | cons work rest ih =>
    rw [List.forall_mem_cons] at h
    rw [Work.lineupsOfAll, Work.lineups_of_isPlain h.1, ih h.2]
    rfl

/-- What a calm step opens is steady. -/
theorem Work.Opens.became {ahead mark : Nat} {works : List Work} {w v : World}
    (h : Work.Opens w.windows.size works v) (hw : w.Orderly ahead mark) (hcalm : Calm w v) :
    Work.IsQuiet works ∧ Became ahead mark none [] w (Work.lineupsOfAll works) v := by
  rcases h with hplain | ⟨l, rfl, hmembers, hindex, hnew, hwaits⟩
  · refine ⟨fun work hwork => Work.isNote_of_isPlain (hplain work hwork), ?_⟩
    rw [Work.lineupsOfAll_of_isPlain hplain]
    exact (settled_nil mark none w).calm hw hcalm
  · refine ⟨fun work hwork => List.mem_singleton.mp hwork ▸ rfl, ?_⟩
    have hpassed : ∀ passage, count passage l.window (v.since mark) = 0 := by
      intro passage
      rw [count, hcalm.passed hw.marked, hw.fresh l.window hnew, List.length_nil]
    have hone : Work.lineupsOfAll [.ahead l] = [l] := by
      simp [Work.lineupsOfAll, Work.lineups, hmembers, Member.lineupsOfAll]
    have hsteady : l.Steady mark 0 v := by
      refine ⟨(hpassed _).trans hindex.symm, ?_, ?_, ?_, [], [], [], ?_, List.forall_mem_nil _, .nil, ?_, hwaits⟩
      · rw [hpassed, hmembers, hindex]
        rfl
      · rw [hmembers]
        exact List.nodup_nil
      · rw [hmembers]
        exact List.forall_mem_nil _
      · exact hmembers
      · rw [hpassed, hindex]
        rfl
    rw [hone]
    refine ⟨⟨hcalm.orderly hw, hcalm.spares hw _⟩, ⟨?_, by simp⟩, ?_⟩
    · intro k hk
      cases List.mem_singleton.mp hk
      exact hsteady
    · intro k hk
      cases List.mem_singleton.mp hk
      exact .inr hnew

/-! ## Ready stacks -/

/-- A stack that a turn may begin with. -/
inductive Work.Ready (mark : Nat) (w : World) : List Work → Prop
  | resting {stack : List Work} (hquiet : Work.IsQuiet stack)
    (hsettled : Settled mark none w (Work.lineupsOfAll stack)) : Ready mark w stack
  /-- a member is through, and leaves after its fragments -/
  | leaving (texts : List String) {l : Lineup} {rest : List Work} (hquiet : Work.IsQuiet rest)
    (hsettled : Settled mark (some l.window) w (Work.lineupsOfAll (.ahead l :: rest))) :
      Ready mark w (texts.map .emit ++
        .note (.left l.window (count .left l.window (w.since mark))) :: .ahead l :: rest)

/-- What a turn leaves behind if it does not fail. -/
def Turn.LeavesBehind (mark : Nat) (before : List Lineup) (size : Nat) (rest : List Work) (v : World) :
    Turn → Prop
  | .fragment _ => Work.Ready mark v rest ∧ Within before size (Work.lineupsOfAll rest)
  | .blocked => Work.IsQuiet rest ∧ Settled mark none v (Work.lineupsOfAll rest) ∧
      Within before size (Work.lineupsOfAll rest)
  | .ended | .failed _ => True

/-- What a turn of a window leaves behind if it does not fail. -/
def WindowTurn.LeavesBehind (ahead mark : Nat) (l : Lineup) (w : World) (l' : Lineup) (v : World) :
    WindowTurn → Prop
  | .through member _ => Became ahead mark (some l.window) l.all w l'.all v ∧ l'.window = l.window ∧
      member = count .left l.window (v.since mark)
  | .blocked => Became ahead mark none l.all w l'.all v ∧ l'.window = l.window
  | .ended | .failed _ => True

/-- What the turns of a member leave behind if none fails. -/
def Member.LeavesBehind (mark : Nat) (before : List Lineup) (size task : Nat) (v : World) : Member → Prop
  | .running number _ stack => number = task ∧ Work.IsQuiet stack ∧
      Settled mark none v (Work.lineupsOfAll stack) ∧ Within before size (Work.lineupsOfAll stack)
  | .finished _ | .failed _ => True

section

variable {ahead mark : Nat} {is : Option Nat} {w v u : World} {l between l' : Lineup}
  {before after : List Lineup} {stack rest : List Work} {text : String} {texts : List String}

theorem Turn.LeavesBehind.of_within {t : Turn} (h : t.LeavesBehind mark after v.windows.size rest u)
    (hinside : Within before w.windows.size after) (hgrown : w.windows.size ≤ v.windows.size) :
    t.LeavesBehind mark before w.windows.size rest u := by
  cases t with
  | fragment => exact ⟨h.1, hinside.trans h.2 hgrown⟩
  | blocked => exact ⟨h.1, h.2.1, hinside.trans h.2.2 hgrown⟩
  | ended | failed => trivial

theorem Member.LeavesBehind.of_within {m : Member} {task : Nat}
    (h : m.LeavesBehind mark after v.windows.size task u) (hinside : Within before w.windows.size after)
    (hgrown : w.windows.size ≤ v.windows.size) : m.LeavesBehind mark before w.windows.size task u := by
  cases m with
  | running => exact ⟨h.1, h.2.1, h.2.2.1, hinside.trans h.2.2.2 hgrown⟩
  | finished | failed => trivial

theorem WindowTurn.LeavesBehind.of_became {t : WindowTurn} (h : t.LeavesBehind ahead mark between v l' u)
    (hbecame : Became ahead mark none l.all w between.all v) (hwindow : between.window = l.window) :
    t.LeavesBehind ahead mark l w l' u := by
  cases t with
  | through member =>
    obtain ⟨hthrough, hsame, hmember⟩ := h
    rw [hwindow] at hthrough hsame hmember
    exact ⟨hbecame.trans hthrough, hsame, hmember⟩
  | blocked => exact ⟨hbecame.trans h.1, h.2.trans hwindow⟩
  | ended | failed => trivial

theorem LineupOf.replace_replace (task : Nat) (fragments : List String) (stack : List Work) (m : Member)
    (l : Lineup) : (l.replace task (.running task fragments stack)).replace task m = l.replace task m := by
  have hself : (Member.running task fragments stack).isTask task = true := beq_self_eq_true task
  simp only [LineupOf.replace, List.map_map]
  congr 1
  refine List.map_congr_left fun member _ => ?_
  by_cases htask : member.isTask task = true <;> simp [htask, hself]

/-- What comes out at the front. -/
theorem Settled.front_leaves (h : Settled mark none w l.all) (hw : w.Orderly ahead mark)
    {out : WindowTurn} (hfront : l.front? = some (out, l')) : out.LeavesBehind ahead mark l w l' w := by
  cases out with
  | through member fragments =>
    obtain ⟨hbecame, hmember, hwindow⟩ := h.front hw hfront
    exact ⟨hbecame, hwindow, hmember⟩
  | blocked =>
    unfold LineupOf.front? at hfront
    split at hfront <;> cases hfront
  | ended | failed => trivial

theorem Work.lineupsOfAll_emit (texts : List String) (stack : List Work) :
    Work.lineupsOfAll (texts.map .emit ++ stack) = Work.lineupsOfAll stack := by
  induction texts with
  | nil => rfl
  | cons text rest ih =>
    rw [List.map_cons, List.cons_append, Work.lineupsOfAll, ih, Work.lineups_of_isPlain rfl]
    rfl

theorem Work.lineupsOfAll_leaving (texts : List String) (event : Event) (stack : List Work) :
    Work.lineupsOfAll (texts.map .emit ++ .note event :: stack) = Work.lineupsOfAll stack := by
  rw [Work.lineupsOfAll_emit, Work.lineupsOfAll]
  simp [Work.lineups]

/-- The fragment on top is taken. -/
theorem Work.Ready.emit (h : Work.Ready mark w (.emit text :: rest)) : Work.Ready mark w rest := by
  generalize hstack : Work.emit text :: rest = stack at h
  cases h with
  | resting hquiet hsettled =>
    subst hstack
    refine .resting (fun work hwork => hquiet work (List.mem_cons_of_mem _ hwork)) ?_
    rwa [Work.lineupsOfAll, Work.lineups_of_isPlain rfl] at hsettled
  | leaving texts hquiet hsettled =>
    cases texts with
    | nil => cases hstack
    | cons text texts =>
      cases hstack
      exact .leaving texts hquiet hsettled

/-- Under a list in work, or other work that is not an event, all is quiet. -/
theorem Work.Ready.of_cons {work : Work} (h : Work.Ready mark w (work :: rest))
    (hwork : work.isNote = false) (hemit : ∀ text, work ≠ .emit text) :
    Work.IsQuiet (work :: rest) ∧ Settled mark none w (Work.lineupsOfAll (work :: rest)) := by
  generalize hstack : work :: rest = stack at h
  cases h with
  | resting hquiet hsettled => exact ⟨hquiet, hsettled⟩
  | leaving texts =>
    cases texts with
    | nil =>
      cases hstack
      cases hwork
    | cons text => exact absurd (List.cons.inj hstack).1 (hemit text)

/-- A member leaves: this is written down, and then none is due any more. -/
theorem Settled.leave (h : Settled mark (some l.window) w (Work.lineupsOfAll (.ahead l :: rest)))
    (hw : w.Orderly ahead mark) :
    Became ahead mark none (Work.lineupsOfAll (.ahead l :: rest)) w
      (Work.lineupsOfAll (.ahead l :: rest))
      (w.note (.left l.window (count .left l.window (w.since mark)))) := by
  have hmem : l ∈ Work.lineupsOfAll (.ahead l :: rest) := List.mem_cons_self
  have hsteady : l.Steady mark 1 w := by
    have hdue := h.steady l hmem
    rwa [if_pos rfl] at hdue
  have hlt := hsteady.lt_size
  have hnoted := since_note (.left l.window (count .left l.window (w.since mark))) hw.marked
  have hspares : Spares mark [l.window] w
      (w.note (.left l.window (count .left l.window (w.since mark)))) := spares_note hw.marked rfl
  have hadmissible : (Event.left l.window (count .left l.window (w.since mark))).Admissible ahead
      (w.since mark) := by
    obtain ⟨-, hleft, -, -, begun, unbegun, waiting, hmembers, -, -, hlength, -⟩ := hsteady
    rw [hmembers, List.length_append] at hleft
    exact ⟨rfl, by omega⟩
  refine ⟨⟨hw.note hadmissible rfl hlt, hspares.mono ?_⟩, ⟨fun k hk => ?_, h.nodup⟩, Within.refl _ _⟩
  · intro window hwindow
    cases List.mem_singleton.mp hwindow
    exact List.mem_map_of_mem hmem
  · have hk' := h.steady k hk
    by_cases hsame : k.window = l.window
    · -- the list of the member, in which one more has left
      obtain ⟨hentered, hleft, hnodup, howned, begun, unbegun, waiting, hmembers, hquiet, hunbegun,
        hlength, hwaits⟩ := hk'
      rw [if_pos (congrArg some hsame.symm)] at hleft
      rw [if_neg nofun]
      refine ⟨?_, ?_, hnodup, howned, begun, unbegun, waiting, hmembers, hquiet, ?_, ?_,
        hwaits.queue, hwaits.queued⟩
      · simpa [hnoted, count_cons, Event.passing?] using hentered
      · simp [hnoted, count_cons, Event.passing?, hsame]
        rw [hsame] at hleft
        omega
      · simpa [hnoted, count_cons, Event.passing?] using hunbegun
      · simpa [hnoted, count_cons, Event.passing?] using hlength
    · rw [if_neg (fun hdue => hsame (Option.some.inj hdue).symm)] at hk'
      rw [if_neg nofun]
      exact hk'.spared hspares (by simpa using hsame)

end

/-! ## Turns -/

/-- Everything that takes part in a turn keeps to the windows it was given, with this much fuel. -/
structure Render.Admits (ahead fuel mark : Nat) : Prop where
  turn : ∀ {around : List Surrounding} {task : Nat} {stack rest : List Work} {w v : World} {t : Turn},
    w.Orderly ahead mark → Work.Ready mark w stack →
      Render.turn ahead fuel around task stack w = some (t, rest, v) →
        Moved ahead mark (Work.lineupsOfAll stack) w v ∧
          t.LeavesBehind mark (Work.lineupsOfAll stack) w.windows.size rest v
  windowTurn : ∀ {around : List Surrounding} {owner : Nat} {rest : List Work} {l l' : Lineup}
    {w v : World} {t : WindowTurn}, w.Orderly ahead mark → Settled mark none w l.all →
      Render.windowTurn ahead fuel around owner rest l w = some (t, l', v) →
        Moved ahead mark l.all w v ∧ t.LeavesBehind ahead mark l w l' v
  workOff : ∀ {around : List Surrounding} {owner running turns told : Nat} {rest : List Work}
    {l l' : Lineup} {w v : World} {t : WindowTurn}, w.Orderly ahead mark → Settled mark none w l.all →
      Render.workOff ahead fuel around owner rest running turns told l w = some (t, l', v) →
        Moved ahead mark l.all w v ∧ t.LeavesBehind ahead mark l w l' v
  memberTurn : ∀ {around : List Surrounding} {task : Nat} {fragments : List String}
    {stack : List Work} {w v : World} {m : Member}, w.Orderly ahead mark → Work.Ready mark w stack →
      Render.memberTurn ahead fuel around task fragments stack w = some (m, v) →
        Moved ahead mark (Work.lineupsOfAll stack) w v ∧
          m.LeavesBehind mark (Work.lineupsOfAll stack) w.windows.size task v

namespace Render

/-- An event on top of the stack is written down first, and then the member has its turns. -/
theorem memberTurn_note {ahead fuel task : Nat} {around : List Surrounding} {event : Event}
    {fragments : List String} {stack : List Work} {w : World} {r : Member × World}
    (h : memberTurn ahead fuel around task fragments (.note event :: stack) w = some r) :
    memberTurn ahead fuel around task fragments stack
      ((w.note event).tidied (Work.heldByAll stack ++ around.flatMap Surrounding.held)) = some r := by
  match fuel with
  | 0 =>
    rw [memberTurn] at h
    cases h
  | 1 =>
    rw [memberTurn, turn] at h
    cases h
  | fuel + 2 =>
    have hstep : (Work.note event).step ahead task w = (.next [], w.note event) := rfl
    rw [memberTurn, turn_step rfl hstep, List.nil_append] at h
    rw [memberTurn]
    generalize (w.note event).tidied _ = v at h ⊢
    cases hturn : turn ahead fuel around task stack v with
    | none => simp [hturn] at h
    | some answer =>
      rw [hturn] at h
      rw [(Lasting.all ahead fuel).turn hturn]
      exact h

namespace Admits

variable {ahead fuel mark : Nat}

theorem zero : Admits ahead 0 mark where
  turn _ _ h := by
    rw [Render.turn] at h
    cases h
  windowTurn _ _ h := by
    rw [Render.windowTurn] at h
    cases h
  workOff _ _ h := by
    rw [Render.workOff] at h
    cases h
  memberTurn _ _ h := by
    rw [Render.memberTurn] at h
    cases h

theorem succ_windowTurn (ih : Admits ahead fuel mark) {around : List Surrounding} {owner : Nat}
    {rest : List Work} {l l' : Lineup} {w v : World} {t : WindowTurn} (hw : w.Orderly ahead mark)
    (hl : Settled mark none w l.all)
    (h : Render.windowTurn ahead (fuel + 1) around owner rest l w = some (t, l', v)) :
    Moved ahead mark l.all w v ∧ t.LeavesBehind ahead mark l w l' v := by
  obtain ⟨hfill, hwindow⟩ := hl.draw owner hw (Nat.le_refl _)
  rw [Render.windowTurn] at h
  unfold LineupOf.fill at h
  dsimp only at h
  split at h
  · rename_i hfront
    cases h
    exact ⟨hfill.toMoved, (hfill.settled.front_leaves hfill.orderly hfront).of_became hfill hwindow⟩
  · obtain ⟨hmoved, hleaves⟩ := ih.workOff hfill.orderly hfill.settled h
    exact ⟨hfill.moved hmoved, hleaves.of_became hfill hwindow⟩

theorem succ_memberTurn (ih : Admits ahead fuel mark) {around : List Surrounding} {task : Nat}
    {fragments : List String} {stack : List Work} {w v : World} {m : Member}
    (hw : w.Orderly ahead mark) (hstack : Work.Ready mark w stack)
    (h : Render.memberTurn ahead (fuel + 1) around task fragments stack w = some (m, v)) :
    Moved ahead mark (Work.lineupsOfAll stack) w v ∧
      m.LeavesBehind mark (Work.lineupsOfAll stack) w.windows.size task v := by
  rw [Render.memberTurn] at h
  split at h
  · cases h
  · rename_i hturn
    obtain ⟨hmoved, hready, hinside⟩ := ih.turn hw hstack hturn
    obtain ⟨hmoved', hleaves⟩ := ih.memberTurn hmoved.orderly hready h
    exact ⟨hmoved.trans hinside hmoved', hleaves.of_within hinside hmoved.spares.grown⟩
  · rename_i hturn
    cases h
    exact ⟨(ih.turn hw hstack hturn).1.calm (calm_abandon ..), trivial⟩
  · rename_i hturn
    cases h
    exact ⟨(ih.turn hw hstack hturn).1, trivial⟩
  · rename_i hturn
    cases h
    obtain ⟨hmoved, hleaves⟩ := ih.turn hw hstack hturn
    exact ⟨hmoved, rfl, hleaves⟩

/-- The turns of a member that has begun: the list with what has become of the member is steady. -/
theorem replaced (ih : Admits ahead fuel mark) {within : List Surrounding} {task : Nat}
    {fragments texts : List String} {stack : List Work} {l : Lineup} {before after : List Member}
    {w v : World} {m : Member} (hw : w.Orderly ahead mark) (hl : Settled mark none w l.all)
    (hmembers : l.members = before ++ .running task fragments stack :: after)
    (hquiet : Work.IsQuiet stack)
    (h : Render.memberTurn ahead fuel within task texts stack w = some (m, v)) :
    Became ahead mark none l.all w (l.replace task m).all v ∧
      (∀ number texts left, m = .running number texts left → number = task) := by
  have hstack : Settled mark none w (Work.lineupsOfAll stack) := by
    rw [LineupOf.all_of_members hmembers] at hl
    exact (settled_append.mp (settled_append.mp hl).1).2.1
  obtain ⟨hmoved, hleaves⟩ := ih.memberTurn hw (.resting hquiet hstack) h
  have hempty := settled_nil mark none v
  cases m with
  | running number texts left =>
    obtain ⟨rfl, hquiet', hsettled, hinside⟩ := hleaves
    refine ⟨hl.replace hmembers hquiet hquiet' (.inl rfl) ⟨hmoved, hsettled, hinside⟩, ?_⟩
    rintro _ _ _ ⟨⟩
    rfl
  | finished texts =>
    exact ⟨hl.replace hmembers hquiet trivial (.inr rfl) ⟨hmoved, hempty, nofun⟩, nofun⟩
  | failed error =>
    exact ⟨hl.replace hmembers hquiet trivial (.inr rfl) ⟨hmoved, hempty, nofun⟩, nofun⟩

/-- The turns of the member whose turn it is, whether it has begun or not. -/
theorem member (ih : Admits ahead fuel mark) {within : List Surrounding} {task : Nat}
    {fragments : List String} {stack : List Work} {l : Lineup} {w u v : World} {m : Member}
    (hw : w.Orderly ahead mark) (hl : Settled mark none w l.all)
    (hdequeue : w.dequeue? l.window = some (task, u))
    (hfind : l.find? task = some (fragments, stack))
    (h : Render.memberTurn ahead fuel within task fragments stack (u.beginTurn task) = some (m, v)) :
    Became ahead mark none l.all w (l.replace task m).all v ∧
      (∀ number texts left, m = .running number texts left → number = task) := by
  obtain ⟨before, after, hmembers⟩ := LineupOf.find?_eq_some hfind
  rcases hl.start hw hdequeue hfind with ⟨hquiet, hstart⟩ | ⟨number, value, rfl, rfl, hstart⟩
  · obtain ⟨hturns, htask⟩ := ih.replaced hstart.orderly hstart.settled hmembers hquiet h
    exact ⟨hstart.trans hturns, htask⟩
  · have hsteady := hl.steady l List.mem_cons_self
    have hbegun := LineupOf.members_replace hsteady.tasks hmembers (.running task [] [.item value])
    have hquiet : Work.IsQuiet [.item value] := fun work hwork => List.mem_singleton.mp hwork ▸ rfl
    have hnoted := hstart.calm (calm_tidied
      (Work.heldByAll [.item value] ++ within.flatMap Surrounding.held) _)
    obtain ⟨hturns, htask⟩ := ih.replaced hnoted.orderly hnoted.settled hbegun hquiet
      (memberTurn_note h)
    rw [LineupOf.replace_replace] at hturns
    exact ⟨hnoted.trans hturns, htask⟩

theorem succ_workOff (ih : Admits ahead fuel mark) {around : List Surrounding}
    {owner running turns told : Nat} {rest : List Work} {l l' : Lineup} {w v : World}
    {t : WindowTurn} (hw : w.Orderly ahead mark) (hl : Settled mark none w l.all)
    (h : Render.workOff ahead (fuel + 1) around owner rest running turns told l w =
      some (t, l', v)) :
    Moved ahead mark l.all w v ∧ t.LeavesBehind ahead mark l w l' v := by
  rw [Render.workOff] at h
  split at h
  · cases h
    refine ⟨.refl hw _, ?_⟩
    split
    · trivial
    · exact ⟨hl.calm hw (.refl w), rfl⟩
  · rename_i task u hdequeue
    split at h
    · rename_i hfind
      have hskip := hl.skip hw hdequeue hfind
      obtain ⟨hmoved, hleaves⟩ := ih.workOff hskip.orderly hskip.settled h
      exact ⟨hskip.moved hmoved, hleaves.of_became hskip rfl⟩
    · rename_i fragments stack hfind
      dsimp only at h
      split at h
      · cases h
      · rename_i number texts left x hmember
        obtain ⟨hbecame, htask⟩ := ih.member hw hl hdequeue hfind hmember
        cases htask number texts left rfl
        have hsuspended := hbecame.calm (calm_suspend l.window task x)
        split at h
        · cases h
          have hwoken := hsuspended.calm (calm_wake (.task owner) _)
          exact ⟨hwoken.toMoved, hwoken, rfl⟩
        · obtain ⟨hmoved, hleaves⟩ := ih.workOff hsuspended.orderly hsuspended.settled h
          exact ⟨hsuspended.moved hmoved, hleaves.of_became hsuspended rfl⟩
      · rename_i through x _ hmember
        obtain ⟨hbecame, -⟩ := ih.member hw hl hdequeue hfind hmember
        have hretired := hbecame.calm (calm_retire l.window task x)
        split at h
        · rename_i hfront
          cases h
          exact ⟨hretired.toMoved,
            (hretired.settled.front_leaves hretired.orderly hfront).of_became hretired rfl⟩
        · obtain ⟨hmoved, hleaves⟩ := ih.workOff hretired.orderly hretired.settled h
          exact ⟨hretired.moved hmoved, hleaves.of_became hretired rfl⟩

/-- An event on top of the stack is that of a member that leaves. -/
theorem turn_note (ih : Admits ahead fuel mark) {around : List Surrounding} {task : Nat} {event : Event}
    {stack rest : List Work} {w v : World} {t : Turn} (hw : w.Orderly ahead mark)
    (hstack : Work.Ready mark w (.note event :: stack))
    (h : Render.turn ahead (fuel + 1) around task (.note event :: stack) w = some (t, rest, v)) :
    Moved ahead mark (Work.lineupsOfAll (.note event :: stack)) w v ∧
      t.LeavesBehind mark (Work.lineupsOfAll (.note event :: stack)) w.windows.size rest v := by
  rw [turn_step rfl (rfl : (Work.note event).step ahead task w = (.next [], w.note event)),
    List.nil_append] at h
  generalize hready : Work.note event :: stack = ready at hstack
  cases hstack with
  | resting hquiet =>
    subst hready
    cases hquiet _ List.mem_cons_self
  | leaving texts hquiet hsettled =>
    cases texts with
    | cons text => cases hready
    | nil =>
      cases hready
      rw [Work.lineupsOfAll_leaving []]
      rename_i l below
      have hleft := (hsettled.leave hw).calm (calm_tidied
        (Work.heldByAll (.ahead l :: below) ++ around.flatMap Surrounding.held) _)
      have hready : Work.IsQuiet (.ahead l :: below) := List.forall_mem_cons.mpr ⟨rfl, hquiet⟩
      obtain ⟨hmoved, hleaves⟩ := ih.turn hleft.orderly (.resting hready hleft.settled) h
      exact ⟨hleft.moved hmoved, hleaves.of_within hleft.inside hleft.spares.grown⟩

/-- A list in work on top of the stack has a turn of its window. -/
theorem turn_ahead (ih : Admits ahead fuel mark) {around : List Surrounding} {task : Nat} {l : Lineup}
    {stack rest : List Work} {w v : World} {t : Turn} (hw : w.Orderly ahead mark)
    (hstack : Work.Ready mark w (.ahead l :: stack))
    (h : Render.turn ahead (fuel + 1) around task (.ahead l :: stack) w = some (t, rest, v)) :
    Moved ahead mark (Work.lineupsOfAll (.ahead l :: stack)) w v ∧
      t.LeavesBehind mark (Work.lineupsOfAll (.ahead l :: stack)) w.windows.size rest v := by
  obtain ⟨hquiet, hsettled⟩ := hstack.of_cons rfl fun _ h => by cases h
  have hbelow : Work.IsQuiet stack := fun work hwork => hquiet work (List.mem_cons_of_mem _ hwork)
  have hlineups : ∀ l : Lineup, Work.lineupsOfAll (.ahead l :: stack) =
      l.all ++ Work.lineupsOfAll stack := fun _ => rfl
  rw [hlineups] at hsettled ⊢
  have hl := (settled_append.mp hsettled).1
  -- what the window has become stands in its place on the stack
  have hback : ∀ {is l' u}, Became ahead mark is l.all w l'.all u →
      (∀ window, is = some window → window = l.window) →
      Became ahead mark is (l.all ++ Work.lineupsOfAll stack) w
        (Work.lineupsOfAll (.ahead l' :: stack)) u := by
    intro is l' u hbecame his
    refine hbecame.within [] _ hsettled fun window hwindow => ?_
    rw [his window hwindow]
    exact List.mem_map_of_mem List.mem_cons_self
  have hwider : ∀ {u}, Moved ahead mark l.all w u →
      Moved ahead mark (l.all ++ Work.lineupsOfAll stack) w u := fun hmoved =>
    ⟨hmoved.orderly, hmoved.spares.mono fun window hwindow => by
      rw [List.map_append]
      exact List.mem_append_left _ hwindow⟩
  rw [Render.turn] at h
  split at h
  · cases h
  · rename_i number texts l' u hwindow
    obtain ⟨-, hbecame, hsame, rfl⟩ := ih.windowTurn hw hl hwindow
    have hthrough := hback hbecame fun window hdue => (Option.some.inj hdue).symm
    dsimp only at h
    rw [← hsame] at h hthrough
    have hready := Work.Ready.leaving texts hbelow hthrough.settled
    rw [List.append_assoc, List.singleton_append] at h
    obtain ⟨hmoved, hleaves⟩ := ih.turn hthrough.orderly hready h
    rw [Work.lineupsOfAll_leaving] at hmoved hleaves
    exact ⟨hthrough.moved hmoved, hleaves.of_within hthrough.inside hthrough.spares.grown⟩
  · rename_i hwindow
    cases h
    exact ⟨hwider (ih.windowTurn hw hl hwindow).1, trivial⟩
  · rename_i u hwindow
    have hended : Became ahead mark none l.all w [] u :=
      ⟨(ih.windowTurn hw hl hwindow).1, settled_nil mark none u, fun _ h => by cases h⟩
    have hgone := (hended.within [] _ hsettled fun _ h => by cases h).calm (calm_tidied
      (Work.heldByAll stack ++ around.flatMap Surrounding.held) u)
    obtain ⟨hmoved, hleaves⟩ := ih.turn hgone.orderly (.resting hbelow hgone.settled) h
    exact ⟨hgone.moved hmoved, hleaves.of_within hgone.inside hgone.spares.grown⟩
  · rename_i hwindow
    cases h
    obtain ⟨-, hbecame, -⟩ := ih.windowTurn hw hl hwindow
    have hblocked := hback hbecame fun _ h => by cases h
    exact ⟨hblocked.toMoved, List.forall_mem_cons.mpr ⟨rfl, hbelow⟩, hblocked.settled, hblocked.inside⟩

/-- Other work is done in steps. -/
theorem turn_plain (ih : Admits ahead fuel mark) {around : List Surrounding} {task : Nat} {work : Work}
    {stack rest : List Work} {w v : World} {t : Turn} (hstepped : work.isStepped = true)
    (hplain : work.isPlain = true) (hemit : ∀ text, work ≠ .emit text) (hw : w.Orderly ahead mark)
    (hstack : Work.Ready mark w (work :: stack))
    (h : Render.turn ahead (fuel + 1) around task (work :: stack) w = some (t, rest, v)) :
    Moved ahead mark (Work.lineupsOfAll (work :: stack)) w v ∧
      t.LeavesBehind mark (Work.lineupsOfAll (work :: stack)) w.windows.size rest v := by
  obtain ⟨hquiet, hsettled⟩ := hstack.of_cons (Work.isNote_of_isPlain hplain) hemit
  have hbelow : Work.IsQuiet stack := fun work hwork => hquiet work (List.mem_cons_of_mem _ hwork)
  have hnone : ∀ {work : Work}, work.isPlain = true →
      Work.lineupsOfAll (work :: stack) = Work.lineupsOfAll stack := fun hplain => by
    rw [Work.lineupsOfAll, Work.lineups_of_isPlain hplain, List.nil_append]
  rw [hnone hplain] at hsettled ⊢
  have hcalm := Work.calm_step w ahead task (Work.isNote_of_isPlain hplain)
  have hopens := Work.opens_step ahead task hplain w
  rcases hs : work.step ahead task w with ⟨progress, u⟩
  rw [hs] at hcalm hopens
  cases progress with
  | next works =>
    rw [turn_step hstepped hs] at h
    obtain ⟨hquiet', hbecame⟩ := hopens.became hw hcalm
    have hstep := (hbecame.within [] (Work.lineupsOfAll stack) hsettled fun _ h => by cases h).calm
      (calm_tidied (Work.heldByAll (works ++ stack) ++ around.flatMap Surrounding.held) u)
    rw [List.nil_append, List.nil_append, List.nil_append, ← Work.lineupsOfAll_append] at hstep
    have hready : Work.IsQuiet (works ++ stack) := fun x hx =>
      (List.mem_append.mp hx).elim (hquiet' x) (hbelow x)
    obtain ⟨hmoved, hleaves⟩ := ih.turn hstep.orderly (.resting hready hstep.settled) h
    exact ⟨hstep.moved hmoved, hleaves.of_within hstep.inside hstep.spares.grown⟩
  | wait waiting =>
    rw [turn_wait hstepped hs] at h
    cases h
    have hstep := hsettled.calm hw hcalm
    refine ⟨hstep.toMoved, List.forall_mem_cons.mpr ⟨Work.isNote_of_isPlain hopens, hbelow⟩, ?_, ?_⟩
    · rw [hnone hopens]
      exact hstep.settled
    · rw [hnone hopens]
      exact hstep.inside

theorem succ_turn (ih : Admits ahead fuel mark) {around : List Surrounding} {task : Nat}
    {stack rest : List Work} {w v : World} {t : Turn} (hw : w.Orderly ahead mark)
    (hstack : Work.Ready mark w stack)
    (h : Render.turn ahead (fuel + 1) around task stack w = some (t, rest, v)) :
    Moved ahead mark (Work.lineupsOfAll stack) w v ∧
      t.LeavesBehind mark (Work.lineupsOfAll stack) w.windows.size rest v := by
  cases stack with
  | nil =>
    rw [Render.turn] at h
    cases h
    exact ⟨.refl hw _, trivial⟩
  | cons work more =>
    cases work with
    | emit text =>
      rw [Render.turn] at h
      cases h
      have hinside : Within (Work.lineupsOfAll (.emit text :: rest)) w.windows.size
          (Work.lineupsOfAll rest) := by
        rw [Work.lineupsOfAll, Work.lineups_of_isPlain rfl]
        exact Within.refl _ _
      exact ⟨.refl hw _, hstack.emit, hinside⟩
    | fail error =>
      rw [Render.turn] at h
      cases h
      exact ⟨.refl hw _, trivial⟩
    | note event => exact ih.turn_note hw hstack h
    | ahead l => exact ih.turn_ahead hw hstack h
    | _ => exact ih.turn_plain rfl rfl (fun _ h => by cases h) hw hstack h

theorem all (ahead fuel mark : Nat) : Admits ahead fuel mark := by
  induction fuel with
  | zero => exact zero
  | succ fuel ih =>
    exact ⟨ih.succ_turn, ih.succ_windowTurn, ih.succ_workOff, ih.succ_memberTurn⟩

end Admits

end Render

end TaggedMarkup
