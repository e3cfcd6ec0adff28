import TaggedMarkup.Proofs.Render.Meanwhile

/-!
# Trees of values

A value is a **tree** once its components have been called, its pending values have come and its sequences
have been drawn: at the leaves fragments and errors, and at each node the way its parts hang together. A
piece of work is described by a tree (`Tree.Describes`) if that is what it comes to whatever else is rendered
meanwhile: so components and pending values are **pure**, and come to an end.

What a tree comes to, its **output**, is what its leaves are, from left to right.
-/

namespace TaggedMarkup

/-- Fragments and errors in order. -/
abbrev Output := List (Except Error String)

/-- A tree of values. -/
inductive Tree where
  /-- a fragment or an error -/
  | leaf (out : Except Error String)
  /-- one thing after the other, as a tag does with its attributes and its children -/
  | row (parts : List Tree)
  /-- the members of a list, or the children of an element -/
  | list (members : List Tree)
  /-- the members of a one-shot sequence -/
  | sequence (members : List Tree)
  /-- what a pending value resolves to -/
  | later (value : Tree)
  /-- what a component returns -/
  | call (result : Tree)

mutual

/-- The leaves of a tree. -/
def Tree.output : Tree → Output
  | .leaf out => [out]
  | .row parts | .list parts | .sequence parts => Tree.outputOfAll parts
  | .later value => value.output
  | .call result => result.output

/-- The leaves of some trees. -/
def Tree.outputOfAll : List Tree → Output
  | [] => []
  | tree :: rest => tree.output ++ Tree.outputOfAll rest

end

/-! ## One layer of a tree -/

/-- What a piece of work comes to at once. -/
inductive Layer where
  | leaf (out : Except Error String)
  | row (works : List Work)
  | list (members kept : List Value)
  | sequence (cell : Nat)
  | later (pending : Nat) (resumption : Resumption)
  | call (component : Component) (element : Element)
  /-- something is under way already -/
  | busy

/-- What an element comes to. -/
def Layer.ofElement (e : Element) : Layer :=
  match e.type with
  | .component component => .call component e
  | _ => .row (Render.element e {}).1

/-- What a piece of work comes to. Where the rules do not look at the world, they are applied in the empty
one. -/
def Work.layer : Work → Layer
  | .emit text => .leaf (.ok text)
  | .fail error => .leaf (.error error)
  | .note _ => .row []
  | .prop name value => .row (Render.prop name value {}).1
  | .root (.pending pending) => .row [.await pending none .root]
  | .root value => .row [.settled value]
  | .settled value => .row (Render.root value)
  | .children e => .list e.children [.element e]
  | .item (.list members) => .list members []
  | .item (.sequence cell) => .sequence cell
  | .item (.element e) => .ofElement e
  | .item (.object entries) =>
    if Entries.contains "type" entries then .ofElement (Element.ofEntries 0 entries)
    else .row [.fail (.malformed (Value.object entries).toJson.text)]
  | .item value => .row (Render.item 0 0 value {}).1
  | .await pending none resumption => .later pending resumption
  | .await _ (some _) _ | .draw _ | .ahead _ => .busy

/-- The rule for props looks at the world only to write something down. -/
theorem Render.prop_eq (name : String) (value : Value) (w : World) :
    ∃ v, Render.prop name value w = ((Render.prop name value {}).1, v) ∧
      (v = w ∨ ∃ event, v = w.note event) := by
  simp only [Render.prop]
  split
  · exact ⟨w, rfl, .inl rfl⟩
  · split
    · exact ⟨w, rfl, .inl rfl⟩
    · split
      · exact ⟨w, rfl, .inl rfl⟩
      · exact ⟨_, rfl, .inr ⟨_, rfl⟩⟩

/-- An element comes to the call of a component, or to a row. -/
theorem Layer.ofElement_cases (e : Element) :
    (∃ component, e.type = .component component ∧ ofElement e = .call component e) ∨
      ofElement e = .row (Render.element e {}).1 := by
  rw [ofElement]
  split
  · rename_i component htype
    exact .inl ⟨component, htype, rfl⟩
  · exact .inr rfl

/-- The rule for elements looks at the world only to call a component. -/
theorem Render.element_row {e : Element} {works : List Work} (h : Layer.ofElement e = .row works)
    (w : World) : Render.element e w = (works, w) := by
  rw [Layer.ofElement] at h
  rw [Render.element]
  cases htype : e.type with
  | component c =>
    rw [htype] at h
    cases h
  | _ =>
    simp only [htype] at h ⊢
    rw [← Layer.row.inj h, Render.element, htype]

/-- Only notes and props write anything down in a step to a row. -/
theorem Work.step_row_aside {work : Work} {works : List Work} (h : work.layer = .row works)
    (hnote : ∀ event, work ≠ .note event) (hprop : ∀ name value, work ≠ .prop name value) (ahead task : Nat)
    (w : World) : work.step ahead task w = (.next works, w) := by
  cases work with
  | emit | fail | children | draw | ahead => cases h
  | await pending seat resumption => cases seat <;> cases h
  | note event => exact absurd rfl (hnote event)
  | prop name value => exact absurd rfl (hprop name value)
  | root value => cases value <;> cases h <;> rfl
  | settled value =>
    cases h
    rfl
  | item value =>
    cases value with
    | element e => rw [step, Render.item, Render.element_row h]
    | object entries =>
      rw [layer] at h
      rw [step, Render.item]
      split at h
      · rw [if_pos ‹_›, Render.element_row h]
      · rw [if_neg ‹_›, ← Layer.row.inj h]
    | list | sequence => cases h
    | _ =>
      cases h
      rfl

/-- A step to a row is the same in every world, and at most writes something down. -/
theorem Work.step_row {work : Work} {works : List Work} (h : work.layer = .row works) (ahead task : Nat)
    (w : World) : ∃ v, work.step ahead task w = (.next works, v) ∧ (v = w ∨ ∃ event, v = w.note event) := by
  cases work with
  | note event =>
    cases h
    exact ⟨_, rfl, .inr ⟨event, rfl⟩⟩
  | prop name value =>
    obtain ⟨v, hprop, hv⟩ := Render.prop_eq name value w
    cases h
    exact ⟨v, by rw [step, hprop], hv⟩
  | _ =>
    have haside := step_row_aside h (fun _ heq => by cases heq) (fun _ _ heq => by cases heq) ahead task w
    exact ⟨w, haside, .inl rfl⟩

/-- A step to a component calls it. -/
theorem Work.step_call {work : Work} {component : Component} {e : Element}
    (h : work.layer = .call component e) (ahead task : Nat) (w : World) :
    work.step ahead task w =
      (.next (Render.result e.raw (w.callComponent component e.props e.children).1),
        (w.callComponent component e.props e.children).2) := by
  have hcalled : ∀ {e' : Element}, Layer.ofElement e' = .call component e → Render.element e' w =
      (Render.result e.raw (w.callComponent component e.props e.children).1,
        (w.callComponent component e.props e.children).2) := by
    intro e' he
    rw [Layer.ofElement] at he
    split at he
    · rename_i heq
      cases he
      rw [Render.element, heq]
    · cases he
  cases work with
  | emit | fail | note | children | draw | ahead | prop | settled => cases h
  | await pending seat resumption => cases seat <;> cases h
  | root value => cases value <;> cases h
  | item value =>
    cases value with
    | element e' => rw [step, Render.item, hcalled h]
    | object entries =>
      rw [layer] at h
      rw [step, Render.item]
      split at h
      · rw [if_pos ‹_›, hcalled h]
      · cases h
    | _ => cases h

/-- What a value comes to by the rules for items. -/
theorem Work.layer_item (value : Value) :
    (∃ members, value = .list members ∧ (item value).layer = .list members []) ∨
      (∃ n, value = .sequence n ∧ (item value).layer = .sequence n) ∨
        (∃ component e, (item value).layer = .call component e) ∨
          ∃ works, (item value).layer = .row works := by
  have helement : ∀ e : Element, (∃ component e', Layer.ofElement e = .call component e') ∨
      ∃ works, Layer.ofElement e = .row works := by
    intro e
    obtain ⟨component, -, hcall⟩ | hrow := Layer.ofElement_cases e
    · exact .inl ⟨component, e, hcall⟩
    · exact .inr ⟨_, hrow⟩
  cases value with
  | list members => exact .inl ⟨members, rfl, rfl⟩
  | sequence n => exact .inr (.inl ⟨n, rfl, rfl⟩)
  | element e => exact .inr (.inr (helement e))
  | object entries =>
    rw [layer]
    split
    · exact .inr (.inr (helement _))
    · exact .inr (.inr (.inr ⟨_, rfl⟩))
  | _ => exact .inr (.inr (.inr ⟨_, rfl⟩))

/-- Fragments and errors are handed on. -/
theorem Work.isStepped_of_layer_leaf {work : Work} {out : Except Error String}
    (h : work.layer = .leaf out) : work.isStepped = false := by
  cases work with
  | emit | fail => rfl
  | await pending seat resumption => cases seat <;> cases h
  | root value => cases value <;> cases h
  | item value =>
    obtain ⟨_, -, hlayer⟩ | ⟨_, -, hlayer⟩ | ⟨_, _, hlayer⟩ | ⟨_, hlayer⟩ := layer_item value <;>
      cases hlayer.symm.trans h
  | _ => cases h

/-- A step to a list. -/
theorem Work.step_list {work : Work} {members kept : List Value} (h : work.layer = .list members kept)
    (ahead task : Nat) (w : World) :
    work.step ahead task w = (.next (Render.members ahead task members kept w).1,
      (Render.members ahead task members kept w).2) := by
  cases work with
  | children e =>
    cases h
    rfl
  | await pending seat resumption => cases seat <;> cases h
  | root value => cases value <;> cases h
  | item value =>
    obtain ⟨_, rfl, hlayer⟩ | ⟨_, -, hlayer⟩ | ⟨_, _, hlayer⟩ | ⟨_, hlayer⟩ := layer_item value <;>
      cases hlayer.symm.trans h
    rfl
  | _ => cases h

/-- Only a sequence comes to a sequence. -/
theorem Work.eq_of_layer_sequence {work : Work} {n : Nat} (h : work.layer = .sequence n) :
    work = .item (.sequence n) := by
  cases work with
  | await pending seat resumption => cases seat <;> cases h
  | root value => cases value <;> cases h
  | item value =>
    obtain ⟨_, -, hlayer⟩ | ⟨_, rfl, hlayer⟩ | ⟨_, _, hlayer⟩ | ⟨_, hlayer⟩ := layer_item value <;>
      cases hlayer.symm.trans h
    rfl
  | _ => cases h

/-- Only what is to be awaited comes later. -/
theorem Work.eq_of_layer_later {work : Work} {pending : Nat} {resumption : Resumption}
    (h : work.layer = .later pending resumption) : work = .await pending none resumption := by
  cases work with
  | await pending seat resumption =>
    cases seat with
    | none =>
      cases h
      rfl
    | some seat => cases h
  | root value => cases value <;> cases h
  | item value =>
    obtain ⟨_, -, hlayer⟩ | ⟨_, -, hlayer⟩ | ⟨_, _, hlayer⟩ | ⟨_, hlayer⟩ := layer_item value <;>
      cases hlayer.symm.trans h
  | _ => cases h

/-- What is under way already. -/
theorem Work.cases_of_layer_busy {work : Work} (h : work.layer = .busy) :
    (∃ pending seat resumption, work = .await pending (some seat) resumption) ∨
      (∃ feed, work = .draw feed) ∨ ∃ lineup, work = .ahead lineup := by
  cases work with
  | await pending seat resumption =>
    cases seat with
    | none => cases h
    | some seat => exact .inl ⟨pending, seat, resumption, rfl⟩
  | draw feed => exact .inr (.inl ⟨feed, rfl⟩)
  | ahead lineup => exact .inr (.inr ⟨lineup, rfl⟩)
  | root value => cases value <;> cases h
  | item value =>
    obtain ⟨_, -, hlayer⟩ | ⟨_, -, hlayer⟩ | ⟨_, _, hlayer⟩ | ⟨_, hlayer⟩ := layer_item value <;>
      cases hlayer.symm.trans h
  | _ => cases h

/-! ## Values and their trees -/

mutual

/-- The tree of a piece of work, in this world and whatever becomes of it. -/
def Tree.Describes : Tree → World → Work → Prop
  | .leaf out, _, work => work.layer = .leaf out
  | .row parts, w, work => ∃ works, work.layer = .row works ∧ Tree.DescribeAll parts w works
  | .list members, w, work => ∃ values kept, work.layer = .list values kept ∧
    Tree.DescribeAll members w (values.map .item)
  | .sequence members, w, work => ∃ n cell, work.layer = .sequence n ∧ w.sequences[n]? = some cell ∧
    Tree.DescribeAll members w (cell.members.map fun member => .item member.2)
  | .later value, w, work => ∃ pending resumption, work.layer = .later pending resumption ∧
    pending < w.pendings.size ∧ ∀ v outcome, w.Becomes v → v.peek pending = some outcome →
      ∀ next ∈ Render.resume resumption outcome, value.Describes v next
  | .call result, w, work => ∃ component e, work.layer = .call component e ∧ ∀ v, w.Becomes v →
    ∀ next ∈ Render.result e.raw (v.callComponent component e.props e.children).1,
      result.Describes (v.callComponent component e.props e.children).2 next

/-- The trees of pieces of work, one for each. -/
def Tree.DescribeAll : List Tree → World → List Work → Prop
  | [], _, works => works = []
  | tree :: trees, w, works => ∃ work rest, works = work :: rest ∧ tree.Describes w work ∧
    Tree.DescribeAll trees w rest

end

mutual

/-- What is described stays described. -/
theorem Tree.Describes.becomes {w v : World} (hv : w.Becomes v) :
    ∀ {tree : Tree} {work : Work}, tree.Describes w work → tree.Describes v work
  | .leaf _, _, h => h
  | .row _, _, ⟨works, hlayer, hparts⟩ => ⟨works, hlayer, Tree.DescribeAll.becomes hv hparts⟩
  | .list _, _, ⟨values, kept, hlayer, hmembers⟩ =>
    ⟨values, kept, hlayer, Tree.DescribeAll.becomes hv hmembers⟩
  | .sequence _, _, ⟨n, cell, hlayer, hcell, hmembers⟩ => by
    obtain ⟨cell', hcell', hsame⟩ := hv.keepsSource n cell hcell
    refine ⟨n, cell', hlayer, hcell', ?_⟩
    rw [hsame]
    exact Tree.DescribeAll.becomes hv hmembers
  | .later _, _, ⟨pending, resumption, hlayer, hsize, hvalue⟩ =>
    ⟨pending, resumption, hlayer, Nat.lt_of_lt_of_le hsize hv.lasts.size,
      fun u outcome hu => hvalue u outcome (hv.trans hu)⟩
  | .call _, _, ⟨component, e, hlayer, hresult⟩ =>
    ⟨component, e, hlayer, fun u hu => hresult u (hv.trans hu)⟩

theorem Tree.DescribeAll.becomes {w v : World} (hv : w.Becomes v) :
    ∀ {trees : List Tree} {works : List Work}, Tree.DescribeAll trees w works →
      Tree.DescribeAll trees v works
  | [], _, h => h
  | _ :: _, _, ⟨work, rest, hworks, hwork, hrest⟩ =>
    ⟨work, rest, hworks, Tree.Describes.becomes hv hwork, Tree.DescribeAll.becomes hv hrest⟩

end

/-- Nothing that is under way already is described. -/
theorem Tree.Describes.layer_ne_busy {w : World} {work : Work} :
    ∀ {tree : Tree}, tree.Describes w work → work.layer ≠ .busy
  | .leaf _, hlayer, hbusy => by cases hbusy.symm.trans hlayer
  | .row _, ⟨_, hlayer, _⟩, hbusy | .list _, ⟨_, _, hlayer, _⟩, hbusy
  | .sequence _, ⟨_, _, hlayer, _⟩, hbusy | .later _, ⟨_, _, hlayer, _⟩, hbusy
  | .call _, ⟨_, _, hlayer, _⟩, hbusy => by cases hbusy.symm.trans hlayer

end TaggedMarkup
