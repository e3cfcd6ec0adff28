import TaggedMarkup.Proofs.Markup.Windows
import TaggedMarkup.Proofs.Render.Flows

/-!
# What is still comes to its end

Where nothing is called, awaited or drawn, a render that ends has written what there was to be written. The
other way around, whatever has its text to write passes, by the rules for items (`Work.passes_item`) and by
those for roots (`Work.passes_root`). So a render of it does come to its end, and to that text, with any
number of members rendered ahead and in whatever world (`Render.toText_of_writing`).
-/

namespace TaggedMarkup

/-! ## Sizes -/

theorem Entries.mem_of_get? {α : Type} {key : String} {entries : List (String × α)} {value : α}
    (h : get? key entries = some value) : (key, value) ∈ entries := by
  induction entries with
  | nil => cases h
  | cons entry rest ih =>
    obtain ⟨k, v⟩ := entry
    rw [get?] at h
    split at h
    · rename_i hk
      cases h
      rw [hk]
      exact List.mem_cons_self
    · exact List.mem_cons_of_mem _ (ih h)

namespace Value

theorem sizeOf_member_lt {member : Value} {members : List Value} (h : member ∈ members) :
    sizeOf member < sizeOf (Value.list members) := by
  have hless := List.sizeOf_lt_of_mem h
  rw [list.sizeOf_spec]
  omega

theorem sizeOf_child_lt {e : Element} {child : Value} (h : child ∈ e.children) :
    sizeOf child < sizeOf (Value.element e) := by
  obtain ⟨stamp, type, props, children, raw⟩ := e
  have hless := List.sizeOf_lt_of_mem h
  rw [element.sizeOf_spec, ElementOf.mk.sizeOf_spec]
  dsimp only at hless
  omega

/-- The children of an element-like map are in it. -/
theorem sizeOf_ofEntries_lt {entries : Props} {child : Value}
    (h : child ∈ (Element.ofEntries 0 entries).children) : sizeOf child < sizeOf (Value.object entries) := by
  have hvalue : ∀ {value : Value}, Entries.get? "children" entries = some value →
      sizeOf value < sizeOf entries := by
    intro value hget
    have hless := List.sizeOf_lt_of_mem (Entries.mem_of_get? hget)
    rw [Prod.mk.sizeOf_spec] at hless
    omega
  rw [object.sizeOf_spec]
  rw [Element.ofEntries] at h
  dsimp only at h
  split at h
  · rename_i children hget
    have hlist := hvalue hget
    have hchild := sizeOf_member_lt h
    omega
  · cases h
  · cases h
  · rename_i value _ _ hget
    rw [List.mem_singleton.mp h]
    have hless := hvalue hget
    omega

end Value

/-! ## What is written of members -/

namespace Value

/-- Where a list is written, its members are. -/
theorem writing_of_mem {values : List Value} {cs : List Char}
    (h : Outline.writingAll (outlineAll values) = .text cs) {value : Value} (hvalue : value ∈ values) :
    ∃ ds, Outline.writingAll value.outline = .text ds := by
  induction values generalizing cs with
  | nil => cases hvalue
  | cons first rest ih =>
    rw [outlineAll, Outline.writingAll_append] at h
    obtain ⟨_, _, hfirst, hrest, -⟩ := Writing.append_eq_text h
    rcases List.mem_cons.mp hvalue with rfl | hvalue
    · exact ⟨_, hfirst⟩
    · exact ih hrest hvalue

/-- The same by the rules for roots. -/
theorem rootWriting_of_mem {values : List Value} {cs : List Char}
    (h : Outline.writingAll (rootOutlineAll values) = .text cs) {value : Value} (hvalue : value ∈ values) :
    ∃ ds, Outline.writingAll value.rootOutline = .text ds := by
  induction values generalizing cs with
  | nil => cases hvalue
  | cons first rest ih =>
    rw [rootOutlineAll, Outline.writingAll_append] at h
    obtain ⟨_, _, hfirst, hrest, -⟩ := Writing.append_eq_text h
    rcases List.mem_cons.mp hvalue with rfl | hvalue
    · exact ⟨_, hfirst⟩
    · exact ih hrest hvalue

end Value

/-! ## What passes -/

namespace Work

variable {ahead : Nat}

/-- A prop that does not fail passes. -/
theorem passes_prop (name : String) (value : Value) {cs : List Char}
    (h : Outline.writingOfProp name value = .text cs) : (prop name value).Passes ahead := by
  refine passes_step rfl fun task w => ?_
  change ∃ works u, (Progress.next (Render.prop name value w).1, (Render.prop name value w).2) =
    (.next works, u) ∧ _
  refine ⟨_, _, rfl, ?_⟩
  rw [Outline.writingOfProp] at h
  rw [Render.prop]
  split
  · exact ⟨rfl, rfl, List.forall_mem_nil _⟩
  · rename_i hskipped
    rw [if_neg hskipped] at h
    split
    · rename_i hname
      rw [if_pos hname] at h
      cases h
    · split
      · exact ⟨rfl, rfl, List.forall_mem_singleton.mpr (passes_emit _)⟩
      · exact ⟨rfl, rfl, List.forall_mem_nil _⟩

theorem passes_props {props : Props} {cs : List Char} (h : Outline.writingOfProps props = .text cs) :
    ∀ piece ∈ props.map fun p => prop p.1 p.2, piece.Passes ahead := by
  induction props generalizing cs with
  | nil => exact nofun
  | cons p rest ih =>
    obtain ⟨_, _, hprop, hrest, -⟩ := Writing.append_eq_text h
    exact List.forall_mem_cons.mpr ⟨passes_prop p.1 p.2 hprop, ih hrest⟩

/-- An element comes to what passes, if it does not fail and the children pass that are written. -/
theorem passes_pieces {e : Element} {cs : List Char}
    (h : Outline.writingAll (Value.element e).outline = .text cs)
    (hchildren : ∀ ds, Outline.writingAll (Value.outlineAll e.children) = .text ds →
      ∀ child ∈ e.children, (item child).Passes ahead) (w : World) :
    (Render.element e w).2 = w ∧ ∀ piece ∈ (Render.element e w).1, piece.Passes ahead := by
  obtain ⟨stamp, type, props, children, raw⟩ := e
  rw [Value.outline] at h
  cases type with
  | missing | invalid | component => cases h
  | fragment => exact ⟨rfl, List.forall_mem_singleton.mpr (passes_children _ (hchildren _ h))⟩
  | tag name =>
    refine ⟨rfl, ?_⟩
    rw [Element.outlineOf, Outline.writingAll, Outline.writingAll, Writing.append_nil, Outline.writing] at h
    change ∀ piece ∈ Render.tag name _, _
    rw [Render.tag]
    dsimp only at h ⊢
    split
    · rename_i hvoid
      rw [if_pos hvoid] at h
      obtain ⟨_, _, hopening, -, -⟩ := Writing.append_eq_text h
      obtain ⟨_, _, -, hprops, -⟩ := Writing.append_eq_text hopening
      exact List.forall_mem_cons.mpr ⟨passes_emit _, List.forall_mem_append.mpr
        ⟨passes_props hprops, List.forall_mem_singleton.mpr (passes_emit _)⟩⟩
    · rename_i hvoid
      rw [if_neg hvoid] at h
      split
      · rename_i htag
        rw [if_pos htag] at h
        obtain ⟨_, _, hopening, hrest, -⟩ := Writing.append_eq_text h
        obtain ⟨_, _, -, hprops, -⟩ := Writing.append_eq_text hopening
        obtain ⟨_, _, -, hclosed, -⟩ := Writing.append_eq_text hrest
        obtain ⟨_, _, hinside, -, -⟩ := Writing.append_eq_text hclosed
        exact List.forall_mem_cons.mpr ⟨passes_emit _, List.forall_mem_append.mpr ⟨passes_props hprops,
          List.forall_mem_cons.mpr ⟨passes_emit _, List.forall_mem_cons.mpr
            ⟨passes_children _ (hchildren _ hinside), List.forall_mem_singleton.mpr (passes_emit _)⟩⟩⟩⟩
      · rename_i htag
        rw [if_neg htag] at h
        cases h

theorem passes_element {work : Work} (hstepped : work.isStepped = true) {e : Element}
    (hstep : ∀ (task : Nat) (w : World), work.step ahead task w =
      (.next (Render.element e w).1, (Render.element e w).2)) {cs : List Char}
    (h : Outline.writingAll (Value.element e).outline = .text cs)
    (hchildren : ∀ ds, Outline.writingAll (Value.outlineAll e.children) = .text ds →
      ∀ child ∈ e.children, (item child).Passes ahead) : work.Passes ahead := by
  refine passes_step hstepped fun task w => ?_
  obtain ⟨hworld, hpieces⟩ := passes_pieces h hchildren w
  exact ⟨_, _, hstep task w, by rw [hworld], by rw [hworld], hpieces⟩

/-- Whatever has its text to write passes, by the rules for items. -/
theorem passes_item {value : Value} {cs : List Char}
    (h : Outline.writingAll value.outline = .text cs) : (item value).Passes ahead := by
  induction hsize : sizeOf value using Nat.strongRecOn generalizing value cs with
  | ind size ih =>
    have hmembers : ∀ {values : List Value}, (∀ value ∈ values, sizeOf value < size) →
        ∀ ds, Outline.writingAll (Value.outlineAll values) = .text ds →
          ∀ value ∈ values, (item value).Passes ahead := by
      intro values hless ds hvalues value hvalue
      obtain ⟨ds', hwriting⟩ := Value.writing_of_mem hvalues hvalue
      exact ih _ (hless value hvalue) hwriting rfl
    subst hsize
    cases value with
    | bool | component | sequence | pending => cases h
    | undefined | null | number | str =>
      exact passes_step rfl fun _ w => ⟨_, w, rfl, rfl, rfl, List.forall_mem_singleton.mpr (passes_emit _)⟩
    | list members =>
      have hstep : ∀ (task : Nat) (w : World), (item (.list members)).step ahead task w =
          (.next (Render.members ahead task members [] w).1,
            (Render.members ahead task members [] w).2) := fun _ _ => rfl
      exact passes_members rfl hstep (hmembers (fun _ => Value.sizeOf_member_lt) _ h)
    | element e =>
      have hstep : ∀ (task : Nat) (w : World), (item (.element e)).step ahead task w =
          (.next (Render.element e w).1, (Render.element e w).2) := fun _ _ => rfl
      exact passes_element rfl hstep h (hmembers fun _ => Value.sizeOf_child_lt)
    | object entries =>
      by_cases htype : Entries.contains "type" entries = true
      · rw [Value.outline_object htype] at h
        have hstep : ∀ (task : Nat) (w : World), (item (.object entries)).step ahead task w =
            (.next (Render.element (Element.ofEntries 0 entries) w).1,
              (Render.element (Element.ofEntries 0 entries) w).2) := by
          intro task w
          rw [Work.step, Render.item, if_pos htype]
        exact passes_element rfl hstep h (hmembers fun _ => Value.sizeOf_ofEntries_lt)
      · rw [Value.outline, if_neg htype] at h
        cases h

/-- What is no list has a rule for roots of its own. -/
theorem passes_settled {value : Value} {cs : List Char} (hlist : value.isList = false)
    (h : Outline.writingAll value.rootOutline = .text cs) :
    ∀ piece ∈ Render.root value, piece.Passes ahead := by
  have hitem : (item value).Passes ahead :=
    passes_item (Value.rootOutline_of_not_isList h hlist ▸ h)
  cases value with
  | list => cases hlist
  | undefined => cases h
  | _ =>
    unfold Value.rootOutline at h
    unfold Render.root
    dsimp only at h ⊢
    split
    · rename_i hfalsy
      rw [if_pos hfalsy] at h
      cases h
    · rename_i hfalsy
      rw [if_neg hfalsy] at h
      first
      | exact List.forall_mem_singleton.mpr hitem
      | cases h

/-- The same by the rules for roots. -/
theorem passes_root {value : Value} {cs : List Char}
    (h : Outline.writingAll value.rootOutline = .text cs) : (root value).Passes ahead := by
  induction hsize : sizeOf value using Nat.strongRecOn generalizing value cs with
  | ind size ih =>
    subst hsize
    by_cases hlist : value.isList = true
    · cases value with
      | list members =>
        have hmembers : ∀ piece ∈ members.map root, piece.Passes ahead := by
          intro piece hpiece
          obtain ⟨member, hmember, rfl⟩ := List.mem_map.mp hpiece
          obtain ⟨ds, hwriting⟩ := Value.rootWriting_of_mem h hmember
          exact ih _ (Value.sizeOf_member_lt hmember) hwriting rfl
        have hsettled : (settled (.list members)).Passes ahead :=
          passes_step rfl fun _ w => ⟨_, w, rfl, rfl, rfl, hmembers⟩
        exact passes_step rfl fun _ w => ⟨_, w, rfl, rfl, rfl, List.forall_mem_singleton.mpr hsettled⟩
      | _ => cases hlist
    · have hsettled : (settled value).Passes ahead := passes_step rfl fun _ w =>
        ⟨_, w, rfl, rfl, rfl, passes_settled (Bool.eq_false_iff.mpr hlist) h⟩
      have hstep : ∀ (task : Nat) (w : World), (root value).step ahead task w = (.next [.settled value], w) := by
        intro task w
        cases value with
        | pending => cases h
        | _ => rfl
      exact passes_step rfl fun task w =>
        ⟨_, w, hstep task w, rfl, rfl, List.forall_mem_singleton.mpr hsettled⟩

end Work

/-! ## Streams -/

namespace RenderStream

variable {config : RenderConfig} {w : World}

/-- A stream that flows is drained to its end. -/
theorem drain_of_flows {bound task : Nat} {stack : List Work}
    (h : Render.Flows config.concurrency bound [] task stack (w.beginTurn task)) :
    ∃ enough, ∀ fuel ≥ enough, ∀ rounds ≥ enough, ∀ before, ∃ texts v,
      drain.go fuel rounds before { task, stack, config } w = some (texts, none, v) := by
  generalize hbegun : w.beginTurn task = begun at h
  induction h generalizing w with
  | @ended stack rest begun v enough hturn _ =>
    subst hbegun
    refine ⟨enough + 1, fun fuel hfuel rounds hrounds before => ?_⟩
    obtain ⟨fuel, rfl⟩ := Nat.exists_eq_add_one_of_ne_zero (Nat.ne_of_gt (Nat.zero_lt_of_lt hfuel))
    obtain ⟨rounds, rfl⟩ := Nat.exists_eq_add_one_of_ne_zero (Nat.ne_of_gt (Nat.zero_lt_of_lt hrounds))
    have hpull : pull (fuel + 1) { task, stack, config } w =
        some (.ended, { task, stack := rest, config }, v) := by
      refine pull_of_await ⟨rfl, rfl⟩ ?_
      rw [await, Render.turn_mono (Nat.le_of_succ_le_succ hfuel) hturn]
    rw [drain.go, hpull]
    exact ⟨_, _, rfl⟩
  | @fragment stack rest begun v enough text hturn _ _ ih =>
    subst hbegun
    obtain ⟨enough', hrest⟩ := ih (v.beginTurn task) rfl (World.size_tasks_beginTurn ..) rfl
    refine ⟨max enough enough' + 1, fun fuel hfuel rounds hrounds before => ?_⟩
    obtain ⟨fuel, rfl⟩ := Nat.exists_eq_add_one_of_ne_zero (Nat.ne_of_gt (Nat.zero_lt_of_lt hfuel))
    obtain ⟨rounds, rfl⟩ := Nat.exists_eq_add_one_of_ne_zero (Nat.ne_of_gt (Nat.zero_lt_of_lt hrounds))
    have hpull : pull (fuel + 1) { task, stack, config } w =
        some (.fragment text, { task, stack := rest, config }, v) := by
      refine pull_of_await ⟨rfl, rfl⟩ ?_
      rw [await, Render.turn_mono (Nat.le_trans (Nat.le_max_left ..) (Nat.le_of_succ_le_succ hfuel)) hturn]
    rw [drain.go, hpull]
    exact hrest (fuel + 1) (by omega) rounds (by omega) (text :: before)

/-- A stream of one piece of work that passes is drained, and gives what there is to write. -/
theorem drain_of_passes {work : Work} (h : work.Passes config.concurrency)
    (htasked : ∀ bound, work.Tasked bound) {cs : List Char} (hwriting : work.writing = .text cs)
    (w : World) : ∃ enough, ∀ fuel ≥ enough, ∃ texts v,
      (start config [work] w).1.drain fuel (start config [work] w).2 = some (texts, none, v) ∧
        texts.flatMap String.toList = cs := by
  have hflows : Render.Flows config.concurrency 0 [] (start config [work] w).1.task [work]
      ((start config [work] w).2.beginTurn (start config [work] w).1.task) :=
    h.flows (Nat.zero_le _) fun v _ => .nil v
  obtain ⟨enough, hdrained⟩ := drain_of_flows hflows
  refine ⟨enough, fun fuel hfuel => ?_⟩
  obtain ⟨texts, v, hdrain⟩ := hdrained fuel hfuel fuel hfuel []
  have hknown : work.writing ≠ .unknown := by
    rw [hwriting]
    exact Writing.noConfusion
  have hwritten := writing_of_drain_start htasked hknown hdrain
  rw [hwriting] at hwritten
  exact ⟨texts, v, hdrain, (Writing.text.inj hwritten).symm⟩

/-- **An item that has its text to write is rendered to its end, and to that text**, with any number of
members rendered ahead, wherever it is rendered. -/
theorem drain_of_writing (config : RenderConfig) {value : Value} {cs : List Char}
    (h : Outline.writingAll value.outline = .text cs) (w : World) :
    ∃ enough, ∀ fuel ≥ enough, ∃ texts v,
      (ofItem config value w).1.drain fuel (ofItem config value w).2 = some (texts, none, v) ∧
        texts.flatMap String.toList = cs :=
  drain_of_passes (Work.passes_item h) (fun _ => trivial) h w

end RenderStream

/-- The same for a root that is rendered into one text. -/
theorem Render.toText_of_writing (config : RenderConfig) {value : Value} {text : String}
    (h : Outline.writingAll value.rootOutline = .text text.toList) (w : World) :
    ∃ enough, ∀ fuel ≥ enough, ∃ v, toText fuel config value w = some (.ok text, v) := by
  obtain ⟨enough, hdrained⟩ := RenderStream.drain_of_passes (Work.passes_root h) (fun _ => trivial) h w
  refine ⟨enough, fun fuel hfuel => ?_⟩
  obtain ⟨texts, v, hdrain, htexts⟩ := hdrained fuel hfuel
  have hjoin : String.join texts = text := String.toList_inj.mp (String.toList_join.trans htexts)
  refine ⟨v, ?_⟩
  rw [toText]
  dsimp only
  rw [RenderStream.ofRoot, hdrain, ← hjoin]

end TaggedMarkup
