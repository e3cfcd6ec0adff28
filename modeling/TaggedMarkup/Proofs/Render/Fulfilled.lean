import TaggedMarkup.Proofs.Render.Stories

/-!
# Stories come true

While pieces of work are rendered, their stories are **fulfilled** (`World.Fulfils`): what happened at one place
each, together with what the stories that are left tell, is what was told. Pending values that are told of are
awaited still, or have come; no other one is touched, and the lives of all of them go on.

Each step fulfils the story of the piece of work that is done, and leaves the stories of the pieces that it gives way
to (`Story.GoesOn`). So the world keeps to the stories on every way on which nothing fails (`World.KeepsTo.way`),
however many members are rendered ahead, and in whichever order.
-/

namespace TaggedMarkup

variable {w v u : World} {origins more rest : List Origin} {story : Story} {stories left others parts : List Story}
  {work : Work} {works : List Work} {task n : Nat} {progress : Progress}

/-! ## Stories of work in play -/

/-- The story of the members that have not been drawn. -/
def Feed.Told (w : World) (origins : List Origin) (f : Feed) : Story → Prop
  | .members label index parts => label = f.origin.map (·.2) ∧ index = f.index ∧
    Story.TellAll parts w origins (f.members.map fun member => .item member.2)
  | _ => False

/-- The story of a piece of work in play. -/
def Work.Told (w : World) (origins : List Origin) : Work → Story → Prop
  | .await pending _ resumption, story => story.Tells w origins (.await pending none resumption)
  | .draw feed, story => feed.Told w origins story
  | .ahead lineup, story => lineup.feed.Told w origins story
  | work, story => story.Tells w origins work

theorem Feed.Told.records {f : Feed} (hv : w.Records origins v more) (h : f.Told w origins story) :
    f.Told v more story := by
  cases story with
  | members label index parts =>
    obtain ⟨hlabel, hindex, hparts⟩ := h
    exact ⟨hlabel, hindex, Story.TellAll.records hv hparts⟩
  | _ => exact h.elim

theorem Work.Told.records (hv : w.Records origins v more) (h : work.Told w origins story) :
    work.Told v more story := by
  cases work with
  | draw feed => exact Feed.Told.records hv h
  | ahead lineup => exact Feed.Told.records hv h
  | _ => exact Story.Tells.records hv h

namespace Story

theorem Tells.layer_ne_busy (h : story.Tells w origins work) : work.layer ≠ .busy :=
  (Tells.tree h).layer_ne_busy

theorem Tells.told (h : story.Tells w origins work) : work.Told w origins story := by
  cases work with
  | draw | ahead => exact absurd rfl h.layer_ne_busy
  | await pending seat resumption =>
    cases seat with
    | none => exact h
    | some seat => exact absurd rfl h.layer_ne_busy
  | _ => exact h

/-- A fragment is not in play. -/
theorem Tells.pieces (h : story.Tells w origins work) :
    (work.pieces = [] ∧ ∃ out, story = .leaf out) ∨ work.pieces = [work] := by
  cases work with
  | emit text =>
    refine .inl ⟨rfl, ?_⟩
    match story, h with
    | .leaf out, _ => exact ⟨out, rfl⟩
    | .row _ _, ⟨_, hlayer, _⟩ | .members none _ _, ⟨_, _, hlayer, _⟩ | .members (some _) _ _, ⟨_, _, hlayer, _⟩
    | .later _ _, ⟨_, _, hlayer, _⟩ | .call _ _ _, ⟨_, _, _, hlayer, _⟩ => cases hlayer
  | ahead => exact absurd rfl h.layer_ne_busy
  | _ => exact .inr rfl

/-- These stories tell the same. -/
structure Alike (stories others : List Story) : Prop where
  once : onceOfAll stories = onceOfAll others
  awaited : ∀ x, x ∈ awaitedOfAll stories ↔ x ∈ awaitedOfAll others
  sites : (sitesOfAll stories).Perm (sitesOfAll others)

namespace Alike

theorem refl (stories : List Story) : Alike stories stories := ⟨rfl, fun _ => Iff.rfl, .refl _⟩

theorem symm (h : Alike stories others) : Alike others stories :=
  ⟨h.once.symm, fun x => (h.awaited x).symm, h.sites.symm⟩

theorem cons (h : Alike stories others) (story : Story) : Alike (story :: stories) (story :: others) where
  once := by rw [onceOfAll, h.once, onceOfAll]
  awaited x := by rw [awaitedOfAll, List.mem_append, h.awaited, awaitedOfAll, List.mem_append]
  sites := h.sites.append_left _

/-- Nothing is told by a leaf. -/
theorem leaf (h : Alike stories others) (out : Except Error String) : Alike stories (.leaf out :: others) where
  once := by rw [h.once, onceOfAll, Story.once, zero_add]
  awaited x := by rw [h.awaited, awaitedOfAll, Story.awaited, List.nil_append]
  sites := h.sites

theorem of_perm (h : stories.Perm others) : Alike stories others where
  once := by
    rw [onceOfAll_eq, onceOfAll_eq]
    exact (h.map Story.once).sum_eq
  awaited x := by
    rw [awaitedOfAll_eq, awaitedOfAll_eq]
    exact (h.flatMap_right _).mem_iff
  sites := by
    rw [sitesOfAll_eq, sitesOfAll_eq]
    exact h.flatMap_right _

/-- Nothing is told by what has not happened to what is rendered. -/
theorem unnoted (stories : List Story) : Alike (.row none [] :: stories) stories where
  once := by simp [onceOfAll, Story.once]
  awaited x := by simp [awaitedOfAll, Story.awaited]
  sites := by simp [sitesOfAll, Story.sites]

/-- Nothing else is told on a row. -/
theorem row (parts : List Story) : Alike parts [.row none parts] where
  once := by simp [onceOfAll, Story.once]
  awaited x := by simp [awaitedOfAll, Story.awaited]
  sites := by simp [sitesOfAll, Story.sites]

end Alike

/-- The stories of the pieces in play. -/
theorem TellAll.told (h : TellAll parts w origins works) :
    ∃ left, List.Forall₂ (Work.Told w origins) (Work.piecesOfAll works) left ∧ Alike left parts := by
  induction parts generalizing works with
  | nil =>
    cases h
    exact ⟨[], .nil, .refl []⟩
  | cons story parts ih =>
    obtain ⟨work, works, rfl, hwork, hrest⟩ := h
    obtain ⟨left, hleft, halike⟩ := ih hrest
    rw [Work.piecesOfAll]
    obtain ⟨hnone, out, rfl⟩ | hone := hwork.pieces
    · rw [hnone]
      exact ⟨left, hleft, halike.leaf out⟩
    · rw [hone]
      exact ⟨story :: left, .cons hwork.told hleft, halike.cons story⟩

end Story

/-! ## Fulfilling stories -/

namespace World

/-- The pending value from there has this label, and something has come of it. -/
def HasCome (w : World) (origins : List Origin) (x : Origin × Option String) : Prop :=
  ∃ p, origins[p]? = some x.1 ∧ w.pendingLabel? p = some x.2 ∧ w.toCome p = []

/-- These stories are of calls that were not made before, and every two of them are different ones. -/
structure Admits (w : World) (origins : List Origin) (stories : List Story) : Prop where
  registers : w.Registers origins
  answered : w.Answered 0
  nodup : (Story.sitesOfAll stories).Nodup
  fresh : ∀ site ∈ Story.sitesOfAll stories, ∀ k, .called site k ∉ origins

/-- What happened is what the stories tell, but for what is left of them. -/
structure Fulfils (w : World) (origins : List Origin) (stories : List Story) (v : World) (more : List Origin)
    (left : List Story) : Prop where
  records : w.Records origins v more
  registers : v.Registers more
  answered : v.Answered 0
  once : ∃ new, v.log = new ++ w.log ∧
    Event.tally Event.once? new + Story.onceOfAll left = Story.onceOfAll stories
  lives : ∀ p, LivesOn p w v
  touched : ∀ {p origin}, more[p]? = some origin → v.toCome p ≠ w.toCome p →
    ∃ label, (origin, label) ∈ Story.awaitedOfAll stories
  come : ∀ x ∈ Story.awaitedOfAll stories, x ∈ Story.awaitedOfAll left ∨ v.HasCome more x
  awaited : ∀ x ∈ Story.awaitedOfAll left, x ∈ Story.awaitedOfAll stories
  sites : ∃ made, (made ++ Story.sitesOfAll left).Perm (Story.sitesOfAll stories) ∧
    ∀ {site k}, .called site k ∈ more → .called site k ∈ origins ∨ site ∈ made

variable {x : Origin × Option String}

theorem HasCome.records (h : w.HasCome origins x) (hv : w.Records origins v more) (hlives : ∀ p, LivesOn p w v) :
    v.HasCome more x := by
  obtain ⟨p, horigin, hlabel, hnone⟩ := h
  exact ⟨p, Origin.getElem?_of_prefix hv.isPrefix horigin, (hlives p).kept hlabel, (hlives p).ended hnone⟩

/-- What was not there has its life before it. -/
theorem toCome_of_size_le {p : Nat} (h : w.pendings.size ≤ p) : w.toCome p = [.started, .finished] := by
  rw [toCome, Array.getElem?_eq_none h]

theorem Admits.head (h : w.Admits origins (story :: stories)) : w.Admits origins [story] where
  registers := h.registers
  answered := h.answered
  nodup := by
    have hnodup := h.nodup
    rw [Story.sitesOfAll, List.nodup_append] at hnodup
    rw [Story.sitesOfAll, Story.sitesOfAll, List.append_nil]
    exact hnodup.1
  fresh site hsite := by
    rw [Story.sitesOfAll, Story.sitesOfAll, List.append_nil] at hsite
    exact h.fresh site (List.mem_append_left _ hsite)

namespace Fulfils

theorem admits (h : w.Fulfils origins stories v more left) (hw : w.Admits origins stories) :
    v.Admits more left := by
  obtain ⟨made, hperm, hmade⟩ := h.sites
  have hnodup := hperm.nodup_iff.mpr hw.nodup
  rw [List.nodup_append] at hnodup
  refine ⟨h.registers, h.answered, hnodup.2.1, fun site hsite k hmem => ?_⟩
  rcases hmade hmem with hold | hnew
  · exact hw.fresh site (hperm.subset (List.mem_append_right _ hsite)) k hold
  · exact hnodup.2.2 site hnew site hsite rfl

theorem refl (h : w.Admits origins stories) : w.Fulfils origins stories w origins stories where
  records := .refl
  registers := h.registers
  answered := h.answered
  once := ⟨[], rfl, zero_add _⟩
  lives p := .refl p w
  touched _ hne := absurd rfl hne
  come _ hx := .inl hx
  awaited _ hx := hx
  sites := ⟨[], .refl _, .inl⟩

theorem trans (h : w.Fulfils origins stories v more left) (h' : v.Fulfils more left u rest others) :
    w.Fulfils origins stories u rest others where
  records := h.records.trans h'.records
  registers := h'.registers
  answered := h'.answered
  once := by
    obtain ⟨new, hnew, htally⟩ := h.once
    obtain ⟨last, hlast, htally'⟩ := h'.once
    refine ⟨last ++ new, by rw [hlast, hnew, List.append_assoc], ?_⟩
    rw [Event.tally_append, ← htally, ← htally']
    abel
  lives p := (h.lives p).trans (h'.lives p)
  touched {p origin} horigin hne := by
    by_cases hsame : v.toCome p = w.toCome p
    · obtain ⟨label, hlabel⟩ := h'.touched horigin fun heq => hne (heq.trans hsame)
      exact ⟨label, h.awaited _ hlabel⟩
    · -- it was there by then
      refine h.touched (p := p) ?_ hsame
      have hsize : p < more.length := by
        rw [h.registers.length]
        by_contra hge
        have hle := Nat.le_of_not_lt hge
        exact hsame ((toCome_of_size_le hle).trans
          (toCome_of_size_le (Nat.le_trans h.records.becomes.lasts.size hle)).symm)
      obtain ⟨last, rfl⟩ := h'.records.isPrefix
      rwa [List.getElem?_append_left hsize] at horigin
  come x hx := by
    rcases h.come x hx with hleft | hcome
    · exact h'.come x hleft
    · exact .inr (hcome.records h'.records h'.lives)
  awaited x hx := h.awaited x (h'.awaited x hx)
  sites := by
    obtain ⟨made, hperm, hmade⟩ := h.sites
    obtain ⟨made', hperm', hmade'⟩ := h'.sites
    refine ⟨made ++ made', ?_, fun hmem => ?_⟩
    · rw [List.append_assoc]
      exact (hperm'.append_left made).trans hperm
    · rcases hmade' hmem with hold | hnew
      · exact (hmade hold).imp_right (List.mem_append_left _)
      · exact .inr (List.mem_append_right _ hnew)

/-- Other stories are not touched. -/
theorem frame (h : w.Fulfils origins stories v more left) (others : List Story) :
    w.Fulfils origins (stories ++ others) v more (left ++ others) where
  records := h.records
  registers := h.registers
  answered := h.answered
  once := by
    obtain ⟨new, hnew, htally⟩ := h.once
    exact ⟨new, hnew, by rw [Story.onceOfAll_append, Story.onceOfAll_append, ← htally, add_assoc]⟩
  lives := h.lives
  touched horigin hne := by
    obtain ⟨label, hlabel⟩ := h.touched horigin hne
    exact ⟨label, Story.mem_awaitedOfAll_append.mpr (.inl hlabel)⟩
  come x hx := by
    rw [Story.mem_awaitedOfAll_append] at hx ⊢
    rcases hx with hx | hx
    · exact (h.come x hx).imp_left .inl
    · exact .inl (.inr hx)
  awaited x hx := by
    rw [Story.mem_awaitedOfAll_append] at hx ⊢
    exact hx.imp_left (h.awaited x)
  sites := by
    obtain ⟨made, hperm, hmade⟩ := h.sites
    refine ⟨made, ?_, hmade⟩
    rw [Story.sitesOfAll_append, Story.sitesOfAll_append, ← List.append_assoc]
    exact hperm.append_right _

/-- The same is left to tell. -/
theorem alike (h : w.Fulfils origins stories v more left) (hleft : Story.Alike others left) :
    w.Fulfils origins stories v more others := by
  refine { h with once := ?_, come := fun x hx => ?_, awaited := fun x hx => ?_, sites := ?_ }
  · rw [hleft.once]
    exact h.once
  · rw [hleft.awaited]
    exact h.come x hx
  · exact h.awaited x ((hleft.awaited x).mp hx)
  · obtain ⟨made, hperm, hmade⟩ := h.sites
    exact ⟨made, (hleft.sites.append_left made).trans hperm, hmade⟩

/-- No pending value is touched. -/
theorem passing (hrecords : w.Records origins v more) (hregisters : v.Registers more) (hanswered : v.Answered 0)
    (hpassed : ∀ p, PassesBy p w v)
    (honce : ∃ new, v.log = new ++ w.log ∧
      Event.tally Event.once? new + Story.onceOfAll left = Story.onceOfAll stories)
    (hawaited : ∀ x, x ∈ Story.awaitedOfAll left ↔ x ∈ Story.awaitedOfAll stories)
    (hsites : ∃ made, (made ++ Story.sitesOfAll left).Perm (Story.sitesOfAll stories) ∧
      ∀ {site k}, .called site k ∈ more → .called site k ∈ origins ∨ site ∈ made) :
    w.Fulfils origins stories v more left where
  records := hrecords
  registers := hregisters
  answered := hanswered
  once := honce
  lives p := .of_passesBy (hpassed p)
  touched {p _} _ hne := absurd (hpassed p).toCome_eq hne
  come x hx := .inl ((hawaited x).mpr hx)
  awaited x hx := (hawaited x).mp hx
  sites := hsites

/-- No pending value is touched, and none is made. -/
theorem aside (h : w.Admits origins stories) (hrecords : w.Records origins v origins) (hgrown : Grown w v)
    (hsize : v.pendings.size = w.pendings.size) (hpassed : ∀ p, PassesBy p w v)
    (honce : ∃ new, v.log = new ++ w.log ∧
      Event.tally Event.once? new + Story.onceOfAll left = Story.onceOfAll stories)
    (hawaited : ∀ x, x ∈ Story.awaitedOfAll left ↔ x ∈ Story.awaitedOfAll stories)
    (hsites : (Story.sitesOfAll left).Perm (Story.sitesOfAll stories)) : w.Fulfils origins stories v origins left :=
  passing hrecords (h.registers.grown hgrown hsize) (h.answered.grown hgrown) hpassed honce hawaited
    ⟨[], hsites, .inl⟩

/-- The books are changed. -/
theorem hidden (h : w.Admits origins stories) (hseen : v.seen = w.seen) :
    w.Fulfils origins stories v origins stories :=
  aside h (.hidden .refl hseen) (.of_seen hseen) (Same.of_seen hseen).size (fun _ => .of_seen hseen)
    ⟨[], by rw [← seen_log, hseen, seen_log]; rfl, zero_add _⟩ (fun _ => Iff.rfl) (.refl _)

/-- Something is written down. -/
theorem note (h : w.Admits origins stories) {event : Event} (hevent : event.pending? = none)
    (hleft : Multiset.ofList event.once?.toList + Story.onceOfAll left = Story.onceOfAll stories)
    (hawaited : ∀ x, x ∈ Story.awaitedOfAll left ↔ x ∈ Story.awaitedOfAll stories)
    (hsites : (Story.sitesOfAll left).Perm (Story.sitesOfAll stories)) :
    w.Fulfils origins stories (w.note event) origins left := by
  have hnone : ∀ p, event.milestone? p = none := by
    intro p
    cases event with
    | started | finished => cases hevent
    | _ => rfl
  refine aside h (.noted event .refl) (Same.note event w).grown rfl (fun p => .note (hnone p) w)
    ⟨[(w.clock, event)], rfl, ?_⟩ hawaited hsites
  rw [Event.tally_cons, ← hleft]
  exact congrArg (· + _) (add_zero _)

/-- Something is written down that did not happen to what is rendered. -/
theorem unnoted (h : w.Admits origins stories) {event : Event} (hevent : event.happening? = none) :
    w.Fulfils origins stories (w.note event) origins stories := by
  have hnone : event.pending? = none ∧ event.once? = none := by
    cases event with
    | called | started | finished | drawn | droppedProp => cases hevent
    | _ => exact ⟨rfl, rfl⟩
  refine note h hnone.1 ?_ (fun _ => Iff.rfl) (.refl _)
  rw [hnone.2]
  exact zero_add _

end Fulfils

end World

/-! ## Steps -/

namespace Story

/-- The piece of work gives way to these, and its story is fulfilled but for theirs. -/
def GoesOn (w : World) (origins : List Origin) (story : Story) (v : World) (pieces : List Work) : Prop :=
  ∃ more left, w.Fulfils origins [story] v more left ∧ List.Forall₂ (Work.Told v more) pieces left

theorem GoesOn.after {other : Story} {pieces : List Work} (h : GoesOn v more other u pieces)
    (hbefore : w.Fulfils origins [story] v more [other]) : GoesOn w origins story u pieces := by
  obtain ⟨rest, left, hfulfils, hleft⟩ := h
  exact ⟨rest, left, hbefore.trans hfulfils, hleft⟩

theorem TellAll.goesOn (h : TellAll parts v more works) (hfulfils : w.Fulfils origins [story] v more parts) :
    GoesOn w origins story v (Work.piecesOfAll works) := by
  obtain ⟨left, hleft, halike⟩ := h.told
  exact ⟨more, left, hfulfils.alike halike, hleft⟩

/-- The members of a list are told of without drawing. -/
theorem Alike.list (index : Nat) (parts : List Story) : Alike parts [.members none index parts] where
  once := by simp [onceOfAll, Story.once, draws]
  awaited x := by simp [awaitedOfAll, Story.awaited]
  sites := by simp [sitesOfAll, Story.sites]

end Story

/-- What a step to a row writes down. -/
theorem Work.Drops.step {dropped : Option Happening} (h : work.Drops dropped) (hlayer : work.layer = .row works)
    (n task : Nat) (w : World) : (work.step n task w = (.next works, w) ∧ dropped = none) ∨
      ∃ event, work.step n task w = (.next works, w.note event) ∧ event.pending? = none ∧ event.once? = dropped := by
  cases work with
  | note event =>
    obtain ⟨rfl, hnone⟩ := h
    cases hlayer
    refine .inr ⟨event, rfl, ?_⟩
    cases event with
    | called | started | finished | drawn | droppedProp => cases hnone
    | _ => exact ⟨rfl, rfl⟩
  | prop name value =>
    rw [Drops, Drops.isDropped] at h
    rw [Work.layer, Layer.row.injEq] at hlayer
    subst hlayer
    rw [Work.step]
    simp only [Render.prop] at h ⊢
    by_cases hskipped : Render.isSkipped value = true
    · rw [if_pos hskipped, if_pos hskipped]
      exact .inl ⟨rfl, by simpa [hskipped] using h⟩
    by_cases hname : Name.isAttribute name = true
    · cases htext : Render.attributeText? name value with
      | some text => exact .inl ⟨by simp [hskipped, hname], by simpa [htext] using h⟩
      | none =>
        refine .inr ⟨.droppedProp name value.typeName, by simp [hskipped, hname], rfl, ?_⟩
        rw [h]
        simp [hskipped, hname, htext, Event.once?]
    · exact .inl ⟨by simp [hskipped, hname], by simpa [hname] using h⟩
  | _ =>
    have haside := step_row_aside hlayer (fun _ heq => by cases heq) (fun _ _ heq => by cases heq) n task w
    exact .inl ⟨haside, h⟩

namespace Story

/-- A row. -/
theorem Tells.row {dropped : Option Happening} (h : (Story.row dropped parts).Tells w origins work)
    (hadmits : w.Admits origins [.row dropped parts]) (hstep : work.step n task w = (progress, v)) :
    GoesOn w origins (.row dropped parts) v progress.pieces := by
  obtain ⟨works, hlayer, hdrops, hparts⟩ := h
  obtain ⟨hrow, rfl⟩ | ⟨event, hrow, hevent, rfl⟩ := hdrops.step hlayer n task w
  · cases hrow.symm.trans hstep
    exact hparts.goesOn ((World.Fulfils.refl hadmits).alike (.row parts))
  · cases hrow.symm.trans hstep
    have hnoted : w.Fulfils origins [.row event.once? parts] (w.note event) origins parts := by
      refine .note hadmits hevent ?_ (fun x => ?_) ?_
      · simp [onceOfAll, Story.once]
      · simp [awaitedOfAll, Story.awaited]
      · simp [sitesOfAll, Story.sites]
    exact (TellAll.records hnoted.records hparts).goesOn hnoted

/-- What has not been drawn becomes work. -/
theorem GoesOn.feed {f : Feed} (h : f.Told w origins story) (hadmits : w.Admits origins [story]) (n task : Nat)
    (kept : List Value) : GoesOn w origins story (Render.feed n task f kept w).2
      (Work.piecesOfAll (Render.feed n task f kept w).1) := by
  rw [Render.feed]
  split
  · exact ⟨origins, [story], .refl hadmits, .cons h .nil⟩
  · have hhidden : w.Fulfils origins [story] (w.newWindow task).2 origins [story] := .hidden hadmits rfl
    exact ⟨origins, [story], hhidden, .cons (Feed.Told.records hhidden.records h) .nil⟩

/-- A list. -/
theorem Tells.list {index : Nat} (h : (Story.members none index parts).Tells w origins work)
    (hadmits : w.Admits origins [.members none index parts]) (hstep : work.step n task w = (progress, v)) :
    GoesOn w origins (.members none index parts) v progress.pieces := by
  obtain ⟨values, kept, hlayer, hparts⟩ := h
  rw [Work.step_list hlayer] at hstep
  cases hstep
  have hlist := World.Fulfils.refl hadmits |>.alike (.list index parts)
  rw [Progress.pieces, Render.members]
  split
  · exact hparts.goesOn hlist
  · have hsame := hlist.alike (Alike.list 0 parts).symm
    have htold : (Feed.ofList values).Told w origins (.members none 0 parts) := by
      refine ⟨rfl, rfl, ?_⟩
      rw [Feed.ofList, List.map_map]
      exact hparts
    exact (GoesOn.feed htold (hsame.admits hadmits) n task kept).after hsame

/-- A sequence that was not taken before. -/
theorem Tells.sequence {label : Option String} {index : Nat}
    (h : (Story.members (some label) index parts).Tells w origins work)
    (hadmits : w.Admits origins [.members (some label) index parts])
    (htaken : ∀ cell, work = .item (.sequence cell) → w.isTaken cell = false)
    (hstep : work.step n task w = (progress, v)) :
    GoesOn w origins (.members (some label) index parts) v progress.pieces := by
  obtain ⟨k, cell, hlayer, rfl, hcell, rfl, hparts⟩ := h
  obtain rfl := Work.eq_of_layer_sequence hlayer
  have hfresh := htaken k rfl
  rw [World.isTaken_of_getElem? hcell] at hfresh
  rw [Work.step_sequence] at hstep
  cases hstep
  rcases Render.take_cases k w with ⟨-, hnone | htaken⟩ | ⟨cell', hcell', -, htake⟩
  · rw [Array.getElem?_eq_none hnone] at hcell
    cases hcell
  · rw [World.isTaken_of_getElem? hcell, hfresh] at htaken
    cases htaken
  · cases hcell.symm.trans hcell'
    have hrecords : w.Records origins (Render.take k w).2 origins := .took k .refl
    have htook : w.Fulfils origins [.members (some cell.label) 0 parts] (Render.take k w).2 origins
        [.members (some cell.label) 0 parts] := by
      refine .aside hadmits hrecords (World.Becomes.grown_take k w) (by rw [htake]) (fun p => ?_) ?_
        (fun _ => Iff.rfl) (.refl _)
      · rw [htake]
        exact .of_pendings rfl (Nat.le_refl _) ⟨[], rfl, rfl⟩
      · rw [htake]
        exact ⟨[], rfl, zero_add _⟩
    have htold : (Render.take k w).1.Told (Render.take k w).2 origins (.members (some cell.label) 0 parts) := by
      rw [htake] at hrecords ⊢
      exact ⟨rfl, rfl, TellAll.records hrecords hparts⟩
    exact (GoesOn.feed htold (htook.admits hadmits) n task []).after htook

end Story

/-! ## Asking -/

theorem Work.snd_step_await {p : Nat} {seat : Option Nat} {resumption : Resumption}
    (h : (Work.await p seat resumption).step n task w = (progress, v)) : v = (w.await (.task task) p seat).2 := by
  rw [Work.step] at h
  split at h <;> rename_i hask <;> cases h <;> rw [hask]

namespace World

/-- What is written down. -/
theorem exists_log_run (a : Action) (w : World) :
    ∃ new, (a.run w).2.log = new ++ w.log ∧ Event.tally Event.once? new = 0 := by
  refine a.run_stable (P := fun v => ∃ new, v.log = new ++ w.log ∧ Event.tally Event.once? new = 0)
    ⟨fun _ _ h => h, ?_, fun _ _ h => h, fun _ _ h => h, fun _ _ h => h⟩ ⟨[], rfl, rfl⟩
  rintro v report ⟨new, hnew, hnone⟩
  exact ⟨_ :: new, congrArg (_ :: ·) hnew, hnone⟩

/-- Nothing that happens at one place is done by asking. -/
theorem exists_log_await (waiter : Waiter) (p : Nat) (own : Option Nat) (w : World) :
    ∃ new, (w.await waiter p own).2.log = new ++ w.log ∧ Event.tally Event.once? new = 0 := by
  have hstable : AskStable fun v => ∃ new, v.log = new ++ w.log ∧ Event.tally Event.once? new = 0 := by
    refine ⟨?_, fun _ _ h => h, fun _ _ _ h => h, fun _ _ h => h, ?_⟩
    · rintro v p label ⟨new, hnew, hnone⟩
      exact ⟨_ :: new, congrArg (_ :: ·) hnew, hnone⟩
    · rintro v p label body ⟨new, hnew, hnone⟩
      obtain ⟨last, hlast, hnone'⟩ := exists_log_run body (v.note (.finished p label))
      refine ⟨last ++ (v.clock, .finished p label) :: new, ?_, ?_⟩
      · rw [conclude, ← seen_log, seen_settle, List.append_assoc, List.cons_append, ← hnew]
        exact hlast
      · rw [Event.tally_append, hnone', zero_add]
        exact hnone
  exact hstable.ask ⟨[], rfl, rfl⟩ _ waiter p own

namespace Fulfils

variable {p : Nat} {chain : List (Origin × Option String)} {value : Story} {waiter : Waiter} {own : Option Nat}

/-- A pending value is asked. -/
theorem await (hchains : w.Chains origins p chain) (hadmits : w.Admits origins [.later chain value])
    (horder : (w.await waiter p own).2.InOrder) :
    w.Fulfils origins [.later chain value] (w.await waiter p own).2 (w.askOrigins (p + 1) waiter p own origins)
      [.later chain value] where
  records := .asked waiter p own .refl
  registers := hadmits.registers.ask (p + 1) waiter own horder
  answered := (asked_ask (Nat.lt_succ_self _) waiter own horder hchains.lt_size).answered hadmits.answered
  once := by
    obtain ⟨new, hnew, hnone⟩ := exists_log_await waiter p own w
    exact ⟨new, hnew, by rw [hnone, zero_add]⟩
  lives _ := livesOn_ask _ _ _ _ _ horder
  touched {n origin} horigin hne := by
    have hrecords : w.Records origins (w.await waiter p own).2 (w.askOrigins (p + 1) waiter p own origins) :=
      .asked waiter p own .refl
    by_cases hawaits : (w.await waiter p own).2.Awaits p n
    · obtain ⟨origin', label, hmem, hn⟩ := (hchains.records hrecords).mem_of_awaits hawaits
      cases horigin.symm.trans hn
      refine ⟨label, ?_⟩
      rw [Story.awaitedOfAll, Story.awaited]
      exact List.mem_append_left _ (List.mem_append_left _ hmem)
    · exact absurd (passesBy_ask _ _ _ hawaits).toCome_eq hne
  come _ hx := .inl hx
  awaited _ hx := hx
  sites := by
    refine ⟨[], .refl _, fun hmem => ?_⟩
    rcases mem_askOrigins hmem with hold | ⟨_, _, heq⟩
    · exact .inl hold
    · cases heq

/-- Something has come of a pending value, and of those that it waited for. -/
theorem ended (h : w.Fulfils origins stories v more [.later chain value]) (hcome : ∀ x ∈ chain, v.HasCome more x) :
    w.Fulfils origins stories v more [value] := by
  have hawaited : ∀ x, x ∈ Story.awaitedOfAll [.later chain value] ↔ x ∈ chain ∨ x ∈ Story.awaitedOfAll [value] := by
    intro x
    simp [Story.awaitedOfAll, Story.awaited]
  refine { h with come := fun x hx => ?_, awaited := fun x hx => h.awaited x ((hawaited x).mpr (.inr hx)) }
  rcases h.come x hx with hleft | hx
  · rcases (hawaited x).mp hleft with hchain | hvalue
    · exact .inr (hcome x hchain)
    · exact .inl hvalue
  · exact .inr hx

end Fulfils

end World

namespace Story

/-- A pending value is asked, for the first time or again. -/
theorem Tells.await {chain : List (Origin × Option String)} {value : Story} {p : Nat} {seat : Option Nat}
    {resumption : Resumption} (h : (Story.later chain value).Tells w origins (.await p none resumption))
    (hadmits : w.Admits origins [.later chain value]) (horder : (w.await (.task task) p seat).2.InOrder)
    (hstep : (Work.await p seat resumption).step n task w = (progress, v)) :
    GoesOn w origins (.later chain value) v progress.pieces := by
  have htells := h
  obtain ⟨_, _, hlayer, hchains, hvalue⟩ := h
  cases hlayer
  have hasked := World.Fulfils.await hchains hadmits horder
  have hasks : World.Asked 0 p w (w.await (.task task) p seat) :=
    World.asked_ask (Nat.lt_succ_self _) (.task task) seat horder hchains.lt_size
  have hready := hasks.ready
  change ∀ outcome, (w.await (.task task) p seat).1 = .ready outcome → _ at hready
  rw [Work.step] at hstep
  change ∀ outcome, _ → (w.await (.task task) p seat).2.peek p = some outcome at hready
  generalize w.await (.task task) p seat = r at hstep hasked hready
  obtain ⟨answer, u⟩ := r
  cases answer with
  | ready outcome =>
    cases hstep
    have hpeek := hready outcome rfl
    have hended := hasked.ended ((hchains.records hasked.records).ended hasked.answered
      (World.toCome_eq_nil_iff.mpr ⟨outcome, hpeek⟩))
    obtain ⟨next, hnext⟩ := Render.resume_singleton resumption outcome
    have htold := hvalue v _ outcome hasked.records hpeek
    rw [hnext] at htold
    have hall : TellAll [value] v _ [next] := ⟨next, [], rfl, htold next List.mem_cons_self, rfl⟩
    rw [Progress.pieces, hnext]
    exact hall.goesOn hended
  | notYet seat =>
    cases hstep
    exact ⟨_, _, hasked, .cons (Tells.records hasked.records htells) .nil⟩

/-- A component is called. -/
theorem Tells.call {site : Nat} {label : Option String} {result : Story}
    (h : (Story.call site label result).Tells w origins work) (hadmits : w.Admits origins [.call site label result])
    (hstep : work.step n task w = (progress, v)) : GoesOn w origins (.call site label result) v progress.pieces := by
  obtain ⟨component, e, cell, hlayer, hcell, rfl, hresult⟩ := h
  rw [Work.step_call hlayer] at hstep
  cases hstep
  have hgrown := World.Becomes.grown_callComponent component e.props e.children w
  have hfresh : ∀ k, .called site k ∉ origins := hadmits.fresh site List.mem_cons_self
  have hcalled : w.Fulfils origins [.call site cell.label result] (w.callComponent component e.props e.children).2
      (Origin.grow (.called site) (w.callComponent component e.props e.children).2.pendings.size origins)
      [result] := by
    refine .passing (.called site component e.props e.children .refl) (hadmits.registers.called hgrown hfresh)
      (hadmits.answered.grown hgrown) (fun p => .callComponent ..) ?_ (fun _ => Iff.rfl)
      ⟨[site], .refl _, fun hmem => ?_⟩
    · rw [World.callComponent, hcell]
      dsimp only
      obtain ⟨new, hnew, hnone⟩ := World.exists_log_run (cell.body e.props e.children)
        (w.note (.called component.cell cell.label))
      refine ⟨new ++ [(w.clock, .called component.cell cell.label)], ?_, ?_⟩
      · rw [hnew, List.append_assoc]
        rfl
      · have hone : onceOfAll [.call site cell.label result] = .called cell.label ::ₘ onceOfAll [result] := by
          simp [onceOfAll, Story.once]
        rw [Event.tally_append, hnone, zero_add, hone]
        exact Multiset.singleton_add _ _
    · rcases Origin.mem_grow.mp hmem with hold | ⟨_, -, heq⟩
      · exact .inl hold
      · cases heq
        exact .inr List.mem_cons_self
  obtain ⟨next, heq⟩ := Render.result_singleton e.raw (w.callComponent component e.props e.children).1
  have htold := hresult w origins .refl
  rw [heq] at htold
  have hall : TellAll [result] _ _ [next] := ⟨next, [], rfl, htold next List.mem_cons_self, rfl⟩
  rw [Progress.pieces, heq]
  exact hall.goesOn hcalled

/-- A step of what is told. -/
theorem Tells.step (h : story.Tells w origins work) (hadmits : w.Admits origins [story])
    (hstepped : work.isStepped = true) (htaken : ∀ cell, work = .item (.sequence cell) → w.isTaken cell = false)
    (horder : v.InOrder) (hstep : work.step n task w = (progress, v)) : GoesOn w origins story v progress.pieces := by
  match story, h with
  | .leaf out, h =>
    rw [Work.isStepped_of_layer_leaf h] at hstepped
    cases hstepped
  | .row dropped parts, h => exact h.row hadmits hstep
  | .members none index parts, h => exact h.list hadmits hstep
  | .members (some label) index parts, h => exact h.sequence hadmits htaken hstep
  | .later chain value, h =>
    have htells := h
    obtain ⟨pending, resumption, hlayer, -⟩ := h
    obtain rfl := Work.eq_of_layer_later hlayer
    exact htells.await hadmits (Work.snd_step_await hstep ▸ horder) hstep
  | .call site label result, h => exact h.call hadmits hstep

end Story

/-! ## Drawing -/

namespace Feed.Told

variable {f feed : Feed} {delay : Nat} {value : Value} {members : List (Nat × Value)}

/-- There is nothing left to draw. -/
theorem exhausted (h : f.Told w origins story) (hnone : f.members = []) : Story.Alike [] [story] := by
  cases story with
  | members label index parts =>
    obtain ⟨-, -, hparts⟩ := h
    rw [hnone] at hparts
    cases parts with
    | nil =>
      refine ⟨?_, fun x => ?_, ?_⟩
      · cases label <;> simp [Story.onceOfAll, Story.once, Story.draws]
      · simp [Story.awaitedOfAll, Story.awaited]
      · simp [Story.sitesOfAll, Story.sites]
    | cons part parts =>
      obtain ⟨_, _, heq, -⟩ := hparts
      cases heq
  | _ => exact h.elim

/-- Whether a member is ready does not matter. -/
theorem same (h : f.Told w origins story) (horigin : feed.origin = f.origin) (hindex : feed.index = f.index)
    (hmembers : feed.members = f.members) : feed.Told w origins story := by
  cases story with
  | members label index parts =>
    rw [Told, horigin, hindex, hmembers]
    exact h
  | _ => exact h.elim

/-- A member is drawn. -/
theorem member (h : f.Told w origins story) (hadmits : w.Admits origins [story])
    (hmembers : f.members = (delay, value) :: members) : ∃ first others,
      w.Fulfils origins [story] (f.noteDrawn w) origins [first, others] ∧
        first.Tells (f.noteDrawn w) origins (.item value) ∧
          Feed.Told (f.noteDrawn w) origins { f with index := f.index + 1, members, deadline := none } others := by
  cases story with
  | members label index parts =>
    obtain ⟨rfl, rfl, hparts⟩ := h
    rw [hmembers] at hparts
    cases parts with
    | nil => cases hparts
    | cons first parts =>
      obtain ⟨_, _, heq, hfirst, hrest⟩ := hparts
      cases heq
      have hfulfils : w.Fulfils origins [.members (f.origin.map (·.2)) f.index (first :: parts)] (f.noteDrawn w) origins
          [first, .members (f.origin.map (·.2)) (f.index + 1) parts] := by
        have hawaited : ∀ x, x ∈ Story.awaitedOfAll [first, .members (f.origin.map (·.2)) (f.index + 1) parts] ↔
            x ∈ Story.awaitedOfAll [.members (f.origin.map (·.2)) f.index (first :: parts)] := by
          simp [Story.awaitedOfAll, Story.awaited]
        have hsites : (Story.sitesOfAll [first, .members (f.origin.map (·.2)) (f.index + 1) parts]).Perm
            (Story.sitesOfAll [.members (f.origin.map (·.2)) f.index (first :: parts)]) := by
          simp [Story.sitesOfAll, Story.sites]
        rw [noteDrawn]
        split
        · rename_i sequence label horigin
          rw [horigin] at hawaited hsites hadmits ⊢
          refine .note hadmits rfl ?_ hawaited hsites
          simp only [Story.onceOfAll, Story.once, Story.draws, Option.map_some, List.length_cons, List.range'_succ,
            List.map_cons, Event.once?, Option.toList_some, ← Multiset.cons_coe, ← Multiset.singleton_add,
            Multiset.coe_nil]
          abel
        · rename_i horigin
          rw [horigin] at hawaited hsites hadmits ⊢
          refine (World.Fulfils.refl hadmits).alike ⟨?_, hawaited, hsites⟩
          simp [Story.onceOfAll, Story.once, Story.draws]
      exact ⟨first, _, hfulfils, Story.Tells.records hfulfils.records hfirst, rfl, rfl,
        Story.TellAll.records hfulfils.records hrest⟩
  | _ => exact h.elim

/-- The next member is drawn, if it is ready, and rendered before the others are drawn. -/
theorem step (h : f.Told w origins story) (hadmits : w.Admits origins [story])
    (hstep : (Work.draw f).step n task w = (progress, v)) : Story.GoesOn w origins story v progress.pieces := by
  cases hdraw : f.draw task w with
  | mk drawn next =>
    obtain ⟨feed, u⟩ := next
    rw [Work.step, hdraw] at hstep
    obtain ⟨rfl, hnone, rfl, rfl⟩ | ⟨delay, value, members, hmembers, rfl, rfl, rfl⟩ |
      ⟨rfl, horigin, hindex, hmembers, hseen⟩ := draw_cases hdraw
    · cases hstep
      exact ⟨origins, [], (World.Fulfils.refl hadmits).alike (h.exhausted hnone), .nil⟩
    · cases hstep
      obtain ⟨first, others, hfulfils, hfirst, hothers⟩ := h.member hadmits hmembers
      exact ⟨origins, [first, others], hfulfils, .cons hfirst (.cons hothers .nil)⟩
    · cases hstep
      have hhidden : w.Fulfils origins [story] v origins [story] := .hidden hadmits hseen
      exact ⟨origins, [story], hhidden, .cons ((h.same horigin hindex hmembers).records hhidden.records) .nil⟩

end Feed.Told

/-- Each step fulfils the story of the piece of work that is done. -/
theorem Work.Told.step (h : work.Told w origins story) (hadmits : w.Admits origins [story])
    (hstepped : work.isStepped = true) (htaken : ∀ cell, work = .item (.sequence cell) → w.isTaken cell = false)
    (horder : v.InOrder) (hstep : work.step n task w = (progress, v)) :
    Story.GoesOn w origins story v progress.pieces := by
  cases work with
  | emit | fail | ahead => cases hstepped
  | draw feed => exact Feed.Told.step h hadmits hstep
  | await pending seat resumption =>
    have horder' := Work.snd_step_await hstep ▸ horder
    match story, h with
    | .later chain value, h => exact Story.Tells.await h hadmits horder' hstep
    | .row _ _, ⟨_, hlayer, _⟩ | .members none _ _, ⟨_, _, hlayer, _⟩ | .members (some _) _ _, ⟨_, _, hlayer, _⟩
    | .call _ _ _, ⟨_, _, _, hlayer, _⟩ | .leaf _, hlayer => cases hlayer
  | _ => exact Story.Tells.step h hadmits hstepped htaken horder hstep

/-! ## On the way -/

/-- Something failed, or the stories of what is in play are left. -/
def World.KeepsTo (w : World) (origins : List Origin) (stories : List Story) (v : World) (pieces : List Work) : Prop :=
  (∃ error, .fail error ∈ pieces) ∨
    ∃ more left, w.Fulfils origins stories v more left ∧ List.Forall₂ (Work.Told v more) pieces left

namespace World.KeepsTo

variable {pieces others : List Work} {deeds : List Deed}

/-- What is done next fulfils the stories that are left, unless it fails. -/
theorem onward (h : w.KeepsTo origins stories v pieces) (hadmits : w.Admits origins stories)
    (hfailed : ∀ {error}, .fail error ∈ pieces → .fail error ∈ others)
    (hgoes : ∀ {more left}, v.Admits more left → List.Forall₂ (Work.Told v more) pieces left →
      ∃ rest last, v.Fulfils more left u rest last ∧ List.Forall₂ (Work.Told u rest) others last) :
    w.KeepsTo origins stories u others := by
  obtain ⟨error, herror⟩ | ⟨more, left, hfulfils, hleft⟩ := h
  · exact .inl ⟨error, hfailed herror⟩
  · obtain ⟨rest, last, hfulfils', hlast⟩ := hgoes (hfulfils.admits hadmits) hleft
    exact .inr ⟨rest, last, hfulfils.trans hfulfils', hlast⟩

/-- The books are changed. -/
theorem hidden (h : w.KeepsTo origins stories v pieces) (hadmits : w.Admits origins stories)
    (hseen : u.seen = v.seen) : w.KeepsTo origins stories u pieces := by
  refine h.onward hadmits id fun {more left} hadmits' hleft => ?_
  have hhidden : v.Fulfils more left u more left := .hidden hadmits' hseen
  exact ⟨more, left, hhidden, hleft.imp fun _ _ htold => htold.records hhidden.records⟩

/-- Time passes. -/
theorem advance (h : w.KeepsTo origins stories v pieces) (hadmits : w.Admits origins stories)
    (hadvance : v.advance? = some u) : w.KeepsTo origins stories u pieces := by
  refine h.onward hadmits id fun {more left} hadmits' hleft => ?_
  have hsame := same_advance hadvance
  have hpassed : v.Fulfils more left u more left :=
    .aside hadmits' (.passed .refl hadvance) hsame.grown hsame.size (fun p => .advance hadvance)
      ⟨[], World.log_advance hadvance, zero_add _⟩ (fun _ => Iff.rfl) (.refl _)
  exact ⟨more, left, hpassed, hleft.imp fun _ _ htold => htold.records hpassed.records⟩

/-- However many members are rendered ahead, the world keeps to the stories. -/
theorem way (h : w.KeepsTo origins stories v pieces) (hadmits : w.Admits origins stories) (hclean : Clean v pieces)
    (hway : Way v pieces deeds u others) : w.KeepsTo origins stories u others := by
  induction hway with
  | refl => exact h
  | hidden _ hseen ih => exact ih.hidden hadmits hseen
  | entered window member _ ih =>
    refine ih.onward hadmits id fun {more left} hadmits' hleft => ?_
    have hnoted : World.Fulfils _ more left (World.note (.entered window member) _) more left := .unnoted hadmits' rfl
    exact ⟨more, left, hnoted, hleft.imp fun _ _ htold => htold.records hnoted.records⟩
  | through window member _ ih =>
    refine ih.onward hadmits (List.mem_cons_of_mem _) fun {more left} hadmits' hleft => ?_
    exact ⟨more, _, (World.Fulfils.refl hadmits').alike (.unnoted left),
      .cons ⟨[], rfl, ⟨rfl, rfl⟩, rfl⟩ hleft⟩
  | swapped _ hswap ih =>
    refine ih.onward hadmits (hswap.mem_iff.mpr ·) fun {more left} hadmits' hleft => ?_
    obtain ⟨last, hlast, hperm⟩ := List.perm_comp_forall₂ hswap hleft
    exact ⟨more, last, (World.Fulfils.refl hadmits').alike (.of_perm hperm), hlast⟩
  | exhausted _ hnone ih =>
    refine ih.onward hadmits (fun hmem => (List.mem_cons.mp hmem).resolve_left nofun) fun {more _} hadmits' hleft => ?_
    obtain _ | ⟨hlist, hrest⟩ := hleft
    have hover := (World.Fulfils.refl hadmits'.head).alike (Feed.Told.exhausted hlist hnone)
    exact ⟨more, _, hover.frame _, hrest⟩
  | @failed _ _ error _ _ _ _ _ => exact .inl ⟨error, List.mem_cons_self⟩
  | @step _ x _ work _ progress ahead task hway hstepped hstep ih =>
    have hclean' := hclean.course hway.course
    have horder := (hclean'.course (Course.refl.step ahead task hstepped hstep)).inOrder
    have htaken : ∀ cell, work = .item (.sequence cell) → x.isTaken cell = false := by
      rintro cell rfl
      exact hclean'.isTaken List.mem_cons_self
    refine ih.onward hadmits (fun {error} hmem => ?_) fun {more _} hadmits' hleft => ?_
    · rcases List.mem_cons.mp hmem with rfl | hmem
      · cases hstepped
      · exact List.mem_append_right _ hmem
    · obtain _ | ⟨htold, hrest⟩ := hleft
      obtain ⟨last, parts, hfulfils, hparts⟩ := htold.step hadmits'.head hstepped htaken horder hstep
      exact ⟨last, _, hfulfils.frame _,
        List.rel_append hparts (hrest.imp fun _ _ htold => htold.records hfulfils.records)⟩
  | @draw _ _ _ l _ drawn _ task _ hdraw ih =>
    refine ih.onward hadmits (fun hmem => List.mem_cons_of_mem _ (List.mem_append_right _ ?_))
      fun {more _} hadmits' hleft => ?_
    · exact (List.mem_cons.mp hmem).resolve_left nofun
    obtain _ | ⟨hlist, hrest⟩ := hleft
    have htold : l.feed.Told _ more _ := hlist
    obtain ⟨rfl, -, rfl, rfl⟩ | ⟨delay, value, members, hmembers, rfl, rfl, rfl⟩ |
      ⟨rfl, horigin, hindex, hmembers, hseen⟩ := Feed.draw_cases hdraw
    · exact ⟨more, _, .refl hadmits', .cons hlist hrest⟩
    · obtain ⟨first, feed, hfulfils, hfirst, hothers⟩ := htold.member hadmits'.head hmembers
      have hall := (hfulfils.alike (.of_perm (.swap ..))).alike ((Story.Alike.unnoted [first]).cons feed)
      refine ⟨more, _, hall.frame _, .cons hothers (.cons ⟨[], rfl, ⟨rfl, rfl⟩, rfl⟩ (.cons hfirst ?_))⟩
      exact hrest.imp fun _ _ htold => htold.records hfulfils.records
    · have hhidden : World.Fulfils _ more _ _ more _ := .hidden hadmits' hseen
      exact ⟨more, _, hhidden, .cons ((htold.same horigin hindex hmembers).records hhidden.records)
        (hrest.imp fun _ _ htold => htold.records hhidden.records)⟩

end World.KeepsTo

end TaggedMarkup
