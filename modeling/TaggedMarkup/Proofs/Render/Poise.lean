import TaggedMarkup.Proofs.Render.Departure
import TaggedMarkup.Proofs.Render.Lineups

/-!
# Stacks that wait properly

Between two turns each member in work either was told and stands in the queue of its window, or **waits**:
for a seat to be told, for a timer, or for the members of a list of its own, none of which was told. Such a
stack is **poised**, and it stays so whatever is done on behalf of tasks that are not under its task
(`Work.PoisedAll.respected`). If it waits, there is a timer (`Work.Waits.timers_ne_nil`).
-/

namespace TaggedMarkup

/-- Work that waits or has members in work, as only the top of a stack can. -/
def Work.isBusy : Work → Bool
  | .await _ seat _ => seat.isSome
  | .ahead _ => true
  | .draw feed => feed.deadline.isSome
  | _ => false

/-- Work that may stand on a list in work: what comes out of the list. -/
def Work.isPassing : Work → Bool
  | .emit _ | .note _ => true
  | _ => false

/-- What a member leaves on its list when it is through is what comes out of the list. -/
theorem Work.isPassing_through (fragments : List String) (window member : Nat) :
    ∀ work ∈ fragments.map Work.emit ++ [.note (.left window member)], work.isPassing = true := by
  intro work hwork
  rcases List.mem_append.mp hwork with hemit | hnote
  · obtain ⟨text, -, rfl⟩ := List.mem_map.mp hemit
    rfl
  · rw [List.mem_singleton.mp hnote]
    rfl

/-- The moment at which the next member is ready has come, or has a timer. -/
def Feed.IsTimed (w : World) (task : Nat) (f : Feed) : Prop :=
  ∀ deadline, f.deadline = some deadline → deadline ≤ w.clock ∨ ⟨deadline, .task task⟩ ∈ w.timers

/-- The next member has a timer. -/
def Feed.Expected (w : World) (task : Nat) (f : Feed) : Prop :=
  ∃ deadline, f.deadline = some deadline ∧ ⟨deadline, .task task⟩ ∈ w.timers

/-- The task is still to be told, or has a timer, or no member of its list was told; if the next member of the
list has a moment, there is a timer for it. -/
def Work.Waits (w : World) (task : Nat) : List Work → Prop
  | .await pending (some seat) _ :: _ => w.Untold pending seat (.task task)
  | .draw feed :: _ => feed.Expected w task
  | .ahead lineup :: _ => (∀ n ∈ Member.tasks lineup.members, ¬w.Told (.task n)) ∧
    (lineup.feed.deadline.isSome = true → lineup.feed.Expected w task) ∧
    match lineup.members with
    | [] => lineup.feed.Expected w task
    | member :: _ => member.isRunning = true
  | _ => False

mutual

/-- The seat is the task's own, timers are set, and the members in work are poised. -/
def Work.Poised (w : World) (σ : Seating) (task : Nat) : Work → Prop
  | .await pending (some seat) _ => σ task = some (pending, seat)
  | .draw feed => feed.IsTimed w task
  | .ahead lineup => (∃ frame, w.windows[lineup.window]? = some frame ∧ frame.owner = task) ∧
    lineup.feed.IsTimed w task ∧ (Member.tasks lineup.members).Nodup ∧
      Member.PoisedAll w σ lineup.window lineup.members
  | _ => True

/-- A stack that may wait with the work on top, or with a list in work on which there stands only what
came out of it. -/
def Work.PoisedAll (w : World) (σ : Seating) (task : Nat) : List Work → Prop
  | [] => True
  | work :: rest => (work.Poised w σ task ∧ ∀ other ∈ rest, other.isBusy = false) ∨
    (work.isPassing = true ∧ Work.PoisedAll w σ task rest)

/-- A member in work that was told, or waits. -/
def Member.Poised (w : World) (σ : Seating) (window : Nat) : Member → Prop
  | .running task _ stack =>
    (∃ cell, w.tasks[task]? = some cell ∧ cell.window = some window ∧ cell.ended = false) ∧
      w.Lined task ∧ Work.PoisedAll w σ task stack ∧ (w.Told (.task task) ∨ Work.Waits w task stack)
  | _ => True

def Member.PoisedAll (w : World) (σ : Seating) (window : Nat) : List Member → Prop
  | [] => True
  | member :: rest => member.Poised w σ window ∧ Member.PoisedAll w σ window rest

end

theorem Member.poisedAll_iff {w : World} {σ : Seating} {window : Nat} {members : List Member} :
    Member.PoisedAll w σ window members ↔ ∀ member ∈ members, member.Poised w σ window := by
  induction members with
  | nil => simp [Member.PoisedAll]
  | cons member rest ih => simp [Member.PoisedAll, ih]

theorem Member.mem_tasks {members : List Member} {task : Nat} :
    task ∈ Member.tasks members ↔ ∃ fragments stack, .running task fragments stack ∈ members := by
  rw [Member.tasks, List.mem_filterMap]
  constructor
  · rintro ⟨member, hmember, htask⟩
    cases member with
    | running n fragments stack =>
      cases htask
      exact ⟨fragments, stack, hmember⟩
    | finished | failed => cases htask
  · rintro ⟨fragments, stack, hmember⟩
    exact ⟨_, hmember, rfl⟩

/-- A stack that is not busy is poised in any world. -/
theorem Work.poisedAll_of_not_busy {w : World} {σ : Seating} {task : Nat} {stack : List Work}
    (h : ∀ work ∈ stack, work.isBusy = false) : Work.PoisedAll w σ task stack := by
  cases stack with
  | nil => trivial
  | cons work rest =>
    refine .inl ⟨?_, fun other hother => h other (List.mem_cons_of_mem _ hother)⟩
    have hwork := h work List.mem_cons_self
    cases work with
    | ahead => cases hwork
    | await pending seat resumption =>
      cases seat with
      | none => trivial
      | some seat => cases hwork
    | draw feed =>
      intro deadline hdeadline
      rw [Work.isBusy, hdeadline] at hwork
      cases hwork
    | _ => trivial

/-- What stands under other work is poised. -/
theorem Work.PoisedAll.tail {w : World} {σ : Seating} {task : Nat} {work : Work}
    {rest : List Work} (h : Work.PoisedAll w σ task (work :: rest)) : Work.PoisedAll w σ task rest :=
  h.elim (fun h => Work.poisedAll_of_not_busy h.2) fun h => h.2

theorem Work.PoisedAll.of_not_passing {w : World} {σ : Seating} {task : Nat} {work : Work}
    {rest : List Work} (h : Work.PoisedAll w σ task (work :: rest)) (hpassing : work.isPassing = false) :
    work.Poised w σ task ∧ ∀ other ∈ rest, other.isBusy = false := by
  refine h.elim id fun h => ?_
  rw [hpassing] at h
  cases h.1

/-! ## Others do not disturb -/

theorem Feed.IsTimed.respected {w v : World} {X : Nat → Prop} {task : Nat} {f : Feed} (h : f.IsTimed w task)
    (hv : w.Respects X v) (htask : task < w.tasks.size) (hX : ¬X task) : f.IsTimed v task := by
  intro deadline hdeadline
  rcases h deadline hdeadline with hpast | htimer
  · exact .inl (Nat.le_trans hpast hv.clock)
  · exact (hv.timer deadline task htask hX htimer).elim .inr fun h => .inl h.1

theorem Feed.Expected.respected {w v : World} {X : Nat → Prop} {task : Nat} {f : Feed}
    (h : f.Expected w task) (hv : w.Respects X v) (htask : task < w.tasks.size) (hX : ¬X task) :
    f.Expected v task ∨ v.Told (.task task) := by
  obtain ⟨deadline, hdeadline, htimer⟩ := h
  exact (hv.timer deadline task htask hX htimer).imp (fun h => ⟨deadline, hdeadline, h⟩) And.right

/-- The members of a list are rendered by the task that renders the list. -/
theorem Member.Poised.owner? {w : World} {σ : Seating} {window task n : Nat} {fragments : List String}
    {stack : List Work} (h : Member.Poised w σ window (.running n fragments stack))
    (hwindow : ∃ frame, w.windows[window]? = some frame ∧ frame.owner = task) :
    w.owner? n = some task := by
  obtain ⟨⟨cell, hcell, hsame, -⟩, -⟩ := h
  obtain ⟨frame, hframe, howner⟩ := hwindow
  exact World.owner?_eq_some.mpr ⟨cell, window, frame, hcell, hsame, hframe, howner⟩

theorem Work.Waits.respected {w v : World} {σ : Seating} {X : Nat → Prop} {task : Nat} {stack : List Work}
    (h : Work.Waits w task stack) (hpoised : Work.PoisedAll w σ task stack) (hv : w.Respects X v)
    (htask : task < w.tasks.size) (hX : ∀ n, w.Under task n → ¬X n) :
    Work.Waits v task stack ∨ v.Told (.task task) := by
  match stack with
  | .await pending (some seat) _ :: _ => exact hv.untold pending seat task htask (hX task .refl) h
  | .draw feed :: _ => exact Feed.Expected.respected h hv htask (hX task .refl)
  | .ahead lineup :: rest =>
    obtain ⟨⟨hwindow, -, -, hmembers⟩, -⟩ := hpoised.of_not_passing rfl
    by_cases htold : ∃ n ∈ Member.tasks lineup.members, v.Told (.task n)
    · -- the member that was told has told its owner
      obtain ⟨n, hn, htold⟩ := htold
      obtain ⟨fragments, stack, hmember⟩ := Member.mem_tasks.mp hn
      have howner := (Member.poisedAll_iff.mp hmembers _ hmember).owner? hwindow
      rcases hv.owned n task (hX n (.member howner .refl)) howner htold with hbefore | hafter
      · exact absurd hbefore (h.1 n hn)
      · exact .inr hafter
    · have hall : ∀ n ∈ Member.tasks lineup.members, ¬v.Told (.task n) :=
        fun n hn htold' => htold ⟨n, hn, htold'⟩
      have hnext : (lineup.feed.deadline.isSome = true → lineup.feed.Expected v task) ∨ v.Told (.task task) := by
        by_cases hsome : lineup.feed.deadline.isSome = true
        · exact (Feed.Expected.respected (h.2.1 hsome) hv htask (hX task .refl)).imp (fun hfeed _ => hfeed) id
        · exact .inl fun hsome' => absurd hsome' hsome
      refine hnext.imp (fun hnext => ⟨hall, hnext, ?_⟩) id
      cases hempty : lineup.members with
      | nil =>
        have hfeed := h.2.2
        rw [hempty] at hfeed
        obtain ⟨deadline, hdeadline, -⟩ := hfeed
        exact hnext (Option.isSome_iff_exists.mpr ⟨deadline, hdeadline⟩)
      | cons member others =>
        have hfirst := h.2.2
        rw [hempty] at hfirst
        exact hfirst
  | .await _ none _ :: _ | [] | .emit _ :: _ | .fail _ :: _ | .note _ :: _ | .root _ :: _
  | .settled _ :: _ | .item _ :: _ | .prop .. :: _ | .children _ :: _ => exact h.elim

mutual

theorem Work.Poised.carried {w v : World} {σ τ : Seating} {X : Nat → Prop} (hv : w.Respects X v)
    (hroot : w.Rooted) (hτ : ∀ n < w.tasks.size, ¬X n → τ n = σ n) {task : Nat} (hseat : τ task = σ task)
    (htimed : ∀ f : Feed, f.IsTimed w task → f.IsTimed v task)
    (hX : ∀ n, w.Under task n → n ≠ task → ¬X n) :
    ∀ {work : Work}, work.Poised w σ task → work.Poised v τ task
  | .await _ (some _) _, h => hseat.trans h
  | .await _ none _, _ => trivial
  | .draw feed, h => htimed feed h
  | .ahead lineup, h => by
    obtain ⟨⟨frame, hframe, howner⟩, hfeed, hnodup, hmembers⟩ := h
    obtain ⟨frame', hframe', howner'⟩ := hv.window _ frame hframe
    exact ⟨⟨frame', hframe', howner'.trans howner⟩, htimed lineup.feed hfeed, hnodup,
      Member.PoisedAll.carried hv hroot hτ ⟨frame, hframe, howner⟩ hX hmembers⟩
  | .emit _, _ | .fail _, _ | .note _, _ | .root _, _ | .settled _, _ | .item _, _ | .prop .., _
  | .children _, _ => trivial

/-- A poised stack stays poised while its task keeps its seat and its timers and nothing is done for those
under it. -/
theorem Work.PoisedAll.carried {w v : World} {σ τ : Seating} {X : Nat → Prop} (hv : w.Respects X v)
    (hroot : w.Rooted) (hτ : ∀ n < w.tasks.size, ¬X n → τ n = σ n) {task : Nat} (hseat : τ task = σ task)
    (htimed : ∀ f : Feed, f.IsTimed w task → f.IsTimed v task)
    (hX : ∀ n, w.Under task n → n ≠ task → ¬X n) :
    ∀ {stack : List Work}, Work.PoisedAll w σ task stack → Work.PoisedAll v τ task stack
  | [], _ => trivial
  | _ :: _, .inl h => .inl ⟨Work.Poised.carried hv hroot hτ hseat htimed hX h.1, h.2⟩
  | _ :: _, .inr h => .inr ⟨h.1, Work.PoisedAll.carried hv hroot hτ hseat htimed hX h.2⟩

/-- So does a member of its lists. -/
theorem Member.Poised.carried {w v : World} {σ τ : Seating} {X : Nat → Prop} (hv : w.Respects X v)
    (hroot : w.Rooted) (hτ : ∀ n < w.tasks.size, ¬X n → τ n = σ n) {task window : Nat}
    (hwindow : ∃ frame, w.windows[window]? = some frame ∧ frame.owner = task) :
    ∀ {member : Member}, (∀ m, member.task? = some m → ∀ n, w.Under m n → ¬X n) →
      member.Poised w σ window → member.Poised v τ window
  | .running n fragments stack, hX, h => by
    have hunder := hX n rfl
    have hn := World.lt_size_of_owner? (Member.Poised.owner? h hwindow)
    obtain ⟨⟨cell, hcell, hsame, hended⟩, hlined, hstack, hready⟩ := h
    have hself := hunder n .refl
    obtain ⟨cell', hcell', hsame', hroused⟩ := hv.task n cell hcell
    refine ⟨⟨cell', hcell', hsame'.trans hsame, (hroused hself).ended.trans hended⟩,
      hv.lined n hn hself hlined, ?_, ?_⟩
    · exact Work.PoisedAll.carried hv hroot hτ (hτ n hn hself)
        (fun f hf => Feed.IsTimed.respected hf hv hn hself) (fun m hm _ => hunder m hm) hstack
    · rcases hready with htold | hwaits
      · exact .inl (hv.told hn hself htold)
      · exact (hwaits.respected hstack hv hn hunder).symm
  | .finished _, _, _ | .failed _, _, _ => trivial

theorem Member.PoisedAll.carried {w v : World} {σ τ : Seating} {X : Nat → Prop} (hv : w.Respects X v)
    (hroot : w.Rooted) (hτ : ∀ n < w.tasks.size, ¬X n → τ n = σ n) {task window : Nat}
    (hwindow : ∃ frame, w.windows[window]? = some frame ∧ frame.owner = task)
    (hX : ∀ n, w.Under task n → n ≠ task → ¬X n) :
    ∀ {members : List Member}, Member.PoisedAll w σ window members →
      Member.PoisedAll v τ window members
  | [], _ => trivial
  | .running m _ _ :: _, h => by
    have howner := Member.Poised.owner? h.1 hwindow
    have hunder : ∀ n, w.Under m n → ¬X n := by
      intro n hn
      refine hX n (World.Under.trans (.member howner .refl) hn) fun heq => ?_
      exact absurd (heq ▸ hn.le hroot) (Nat.not_le.mpr (hroot.owner_lt howner))
    exact ⟨Member.Poised.carried hv hroot hτ hwindow (fun m' hm' => Option.some.inj hm' ▸ hunder) h.1,
      Member.PoisedAll.carried hv hroot hτ hwindow hX h.2⟩
  | .finished _ :: _, h | .failed _ :: _, h =>
    ⟨trivial, Member.PoisedAll.carried hv hroot hτ hwindow hX h.2⟩

end

/-- A poised stack stays poised while nothing is done for its task and those under it. -/
theorem Work.PoisedAll.respected {w v : World} {σ τ : Seating} {X : Nat → Prop} (hv : w.Respects X v)
    (hroot : w.Rooted) (hτ : ∀ n < w.tasks.size, ¬X n → τ n = σ n) {task : Nat}
    (htask : task < w.tasks.size) (hX : ∀ n, w.Under task n → ¬X n) {stack : List Work}
    (h : Work.PoisedAll w σ task stack) : Work.PoisedAll v τ task stack :=
  h.carried hv hroot hτ (hτ task htask (hX task .refl))
    (fun _ hf => hf.respected hv htask (hX task .refl)) fun n hn _ => hX n hn

/-! ## Whoever waits has a timer -/

mutual

theorem Work.Waits.timers_ne_nil {w : World} {σ : Seating} (hw : w.Balanced σ fun _ => False)
    {task : Nat} : ∀ {stack : List Work}, Work.PoisedAll w σ task stack → Work.Waits w task stack →
      w.timers ≠ []
  | .await _ (some _) _ :: _, _, h => hw.timers_ne_nil h
  | .draw _ :: _, _, h => by
    obtain ⟨deadline, -, htimer⟩ := h
    exact List.ne_nil_of_mem htimer
  | .ahead ⟨_, _, _, []⟩ :: _, _, h => by
    obtain ⟨-, -, deadline, -, htimer⟩ := h
    exact List.ne_nil_of_mem htimer
  | .ahead ⟨window, _, _, member :: _⟩ :: _, hpoised, h => by
    obtain ⟨⟨-, -, -, hmembers⟩, -⟩ := hpoised.of_not_passing rfl
    exact Member.timers_ne_nil hw hmembers.1 h.2.2 fun n hn =>
      h.1 n (List.mem_filterMap.mpr ⟨member, List.mem_cons_self, hn⟩)
  | .await _ none _ :: _, _, h | [], _, h | .emit _ :: _, _, h | .fail _ :: _, _, h
  | .note _ :: _, _, h | .root _ :: _, _, h | .settled _ :: _, _, h | .item _ :: _, _, h
  | .prop .. :: _, _, h | .children _ :: _, _, h => h.elim

theorem Member.timers_ne_nil {w : World} {σ : Seating} (hw : w.Balanced σ fun _ => False)
    {window : Nat} : ∀ {member : Member}, member.Poised w σ window → member.isRunning = true →
      (∀ n, member.task? = some n → ¬w.Told (.task n)) → w.timers ≠ []
  | .running n _ stack, h, _, htold => by
    obtain ⟨-, -, hstack, hready⟩ := h
    exact Work.Waits.timers_ne_nil hw hstack (hready.resolve_left (htold n rfl))
  | .finished _, _, hrunning, _ | .failed _, _, hrunning, _ => by cases hrunning

end

/-! ## The seats that are given up -/

theorem World.seatsLeft_append (partings more : List Parting) :
    World.seatsLeft (partings ++ more) = World.seatsLeft partings ++ World.seatsLeft more :=
  List.filterMap_append

theorem Member.lookup_partings {w : World} {members : List Member} {task : Nat} {partings : List Parting}
    (h : (Member.partingsOfAll w members).lookup task = some partings) :
    ∃ fragments stack, .running task fragments stack ∈ members ∧
      partings = Work.partingsOfAll w stack := by
  induction members with
  | nil => cases h
  | cons member rest ih =>
    have hrest : (Member.partingsOfAll w rest).lookup task = some partings → ∃ fragments stack,
        .running task fragments stack ∈ member :: rest ∧ partings = Work.partingsOfAll w stack := by
      intro h
      obtain ⟨fragments, stack, hmem, heq⟩ := ih h
      exact ⟨fragments, stack, List.mem_cons_of_mem _ hmem, heq⟩
    rw [Member.partingsOfAll] at h
    cases member with
    | running n fragments stack =>
      rw [Member.partings, List.singleton_append, List.lookup_cons] at h
      split at h
      · rename_i heq
        cases eq_of_beq heq
        cases h
        exact ⟨fragments, stack, List.mem_cons_self, rfl⟩
      · exact hrest h
    | finished | failed => exact hrest h

/-- The seats are held under the task, each by one task. -/
def World.GivesUp (w : World) (σ : Seating) (task : Nat) (partings : List Parting) : Prop :=
  (World.seatsLeft partings).Nodup ∧
    ∀ place ∈ World.seatsLeft partings, ∃ n, w.Under task n ∧ σ n = some place

theorem World.givesUp_nil {w : World} {σ : Seating} {task : Nat} {partings : List Parting}
    (h : World.seatsLeft partings = []) : w.GivesUp σ task partings := by
  rw [World.GivesUp, h]
  exact ⟨List.nodup_nil, nofun⟩

theorem Work.partings_not_busy {w : World} {work : Work} (h : work.isBusy = false) :
    World.seatsLeft (work.partings w) = [] := by
  cases work with
  | ahead => cases h
  | await pending seat resumption =>
    cases seat with
    | none => rfl
    | some seat => cases h
  | _ => rfl

theorem Work.partingsOfAll_not_busy {w : World} {stack : List Work}
    (h : ∀ work ∈ stack, work.isBusy = false) : World.seatsLeft (Work.partingsOfAll w stack) = [] := by
  induction stack with
  | nil => rfl
  | cons work rest ih =>
    rw [Work.partingsOfAll, World.seatsLeft_append, Work.partings_not_busy (h work List.mem_cons_self),
      ih fun other hother => h other (List.mem_cons_of_mem _ hother), List.nil_append]

theorem World.seatsLeft_flatMap {α : Type} (f : α → List Parting) (as : List α) :
    World.seatsLeft (as.flatMap f) = as.flatMap fun a => World.seatsLeft (f a) :=
  List.filterMap_flatMap

/-- Members of a list give up seats of their own. -/
theorem World.Balanced.givesUp_members {w : World} {σ : Seating} {E : Nat → Prop} (hw : w.Balanced σ E)
    {task : Nat} {partings : Nat → List Parting} {members : List Nat} (hnodup : members.Nodup)
    (h : ∀ n ∈ members, partings n ≠ [] → w.owner? n = some task ∧ w.GivesUp σ n (partings n)) :
    w.GivesUp σ task (members.flatMap partings) := by
  have hgives : ∀ n ∈ members, w.GivesUp σ n (partings n) := by
    intro n hn
    by_cases hnil : partings n = []
    · exact World.givesUp_nil (hnil ▸ rfl)
    · exact (h n hn hnil).2
  have howner : ∀ n ∈ members, ∀ place ∈ World.seatsLeft (partings n), w.owner? n = some task := by
    intro n hn place hplace
    refine (h n hn fun hnil => ?_).1
    rw [hnil] at hplace
    cases hplace
  rw [World.GivesUp, World.seatsLeft_flatMap]
  constructor
  · refine List.nodup_flatMap.mpr ⟨fun n hn => (hgives n hn).1, ?_⟩
    refine hnodup.imp_of_mem fun {n m} hn hm hne => ?_
    intro place hplace hother
    obtain ⟨a, hna, ha⟩ := (hgives n hn).2 place hplace
    obtain ⟨b, hmb, hb⟩ := (hgives m hm).2 place hother
    cases hw.alone (.task a) (.task b) place.1 place.2 ha hb
    exact hne (World.Under.of_siblings hw.rooted (howner n hn place hplace) (howner m hm place hother) hna hmb)
  · intro place hplace
    obtain ⟨n, hn, hplace⟩ := List.mem_flatMap.mp hplace
    obtain ⟨a, hna, ha⟩ := (hgives n hn).2 place hplace
    exact ⟨a, World.Under.trans (.member (howner n hn place hplace) .refl) hna, ha⟩

mutual

theorem Work.Poised.givesUp {w : World} {σ : Seating} {E : Nat → Prop} (hw : w.Balanced σ E) {task : Nat} :
    ∀ {work : Work}, work.Poised w σ task → w.GivesUp σ task (work.partings w)
  | .await pending (some seat) _, h =>
    ⟨List.nodup_singleton _, fun place hplace => ⟨task, .refl, List.mem_singleton.mp hplace ▸ h⟩⟩
  | .ahead ⟨window, feed, kept, members⟩, h => by
    obtain ⟨⟨frame, hframe, rfl⟩, -, -, hmembers⟩ := h
    have hgives : w.GivesUp σ frame.owner (frame.recent.flatMap fun n =>
        ((Member.partingsOfAll w members).lookup n).getD []) := by
      refine hw.givesUp_members (hw.recent window frame hframe).1 fun n _ hsome => ?_
      cases hlookup : (Member.partingsOfAll w members).lookup n with
      | none =>
        rw [hlookup] at hsome
        exact absurd rfl hsome
      | some partings =>
        obtain ⟨fragments, stack, hmember, rfl⟩ := Member.lookup_partings hlookup
        exact ⟨(Member.poisedAll_iff.mp hmembers _ hmember).owner? ⟨frame, hframe, rfl⟩,
          Member.PoisedAll.givesUp hw hmembers hmember⟩
    rw [Work.partings]
    simp only [hframe]
    exact hgives
  | .await _ none _, _ => World.givesUp_nil rfl
  | .draw _, _ | .emit _, _ | .fail _, _ | .note _, _ | .root _, _ | .settled _, _ | .item _, _
  | .prop .., _ | .children _, _ => World.givesUp_nil rfl

/-- A poised stack gives up seats that are held under its task. -/
theorem Work.PoisedAll.givesUp {w : World} {σ : Seating} {E : Nat → Prop} (hw : w.Balanced σ E)
    {task : Nat} : ∀ {stack : List Work}, Work.PoisedAll w σ task stack →
      w.GivesUp σ task (Work.partingsOfAll w stack)
  | [], _ => World.givesUp_nil rfl
  | work :: rest, .inl h => by
    have hwork := Work.Poised.givesUp hw h.1
    rwa [World.GivesUp, Work.partingsOfAll, World.seatsLeft_append, Work.partingsOfAll_not_busy h.2,
      List.append_nil]
  | work :: rest, .inr h => by
    have hrest := Work.PoisedAll.givesUp hw h.2
    have hnone : World.seatsLeft (work.partings w) = [] := by
      refine Work.partings_not_busy ?_
      have hpassing := h.1
      cases work with
      | emit | note => rfl
      | _ => cases hpassing
    rwa [World.GivesUp, Work.partingsOfAll, World.seatsLeft_append, hnone, List.nil_append]

theorem Member.PoisedAll.givesUp {w : World} {σ : Seating} {E : Nat → Prop} (hw : w.Balanced σ E)
    {window : Nat} : ∀ {members : List Member}, Member.PoisedAll w σ window members →
      ∀ {n : Nat} {fragments : List String} {stack : List Work}, .running n fragments stack ∈ members →
        w.GivesUp σ n (Work.partingsOfAll w stack)
  | .running m texts works :: rest, h, n, fragments, stack, hmember => by
    rcases List.mem_cons.mp hmember with heq | hrest
    · cases heq
      exact Work.PoisedAll.givesUp hw h.1.2.2.1
    · exact Member.PoisedAll.givesUp hw h.2 hrest
  | .finished _ :: rest, h, n, fragments, stack, hmember => by
    rcases List.mem_cons.mp hmember with heq | hrest
    · cases heq
    · exact Member.PoisedAll.givesUp hw h.2 hrest
  | .failed _ :: rest, h, n, fragments, stack, hmember => by
    rcases List.mem_cons.mp hmember with heq | hrest
    · cases heq
    · exact Member.PoisedAll.givesUp hw h.2 hrest

end

/-- A task that lets go of its stack gives up the seats under it. -/
theorem World.Balanced.abandon {w : World} {σ : Seating} {E : Nat → Prop} (hw : w.Balanced σ E)
    {task : Nat} {stack : List Work} (h : Work.PoisedAll w σ task stack) (around : List Surrounding) :
    ∃ τ : Seating, (∀ n, ¬w.Under task n → τ n = σ n) ∧ (w.abandon around stack).Balanced τ E ∧
      w.Respects (w.Under task) (w.abandon around stack) := by
  obtain ⟨hnodup, hheld⟩ := h.givesUp hw
  exact hw.part (fun n owner howner hunder => .member howner hunder) around hnodup hheld

end TaggedMarkup
