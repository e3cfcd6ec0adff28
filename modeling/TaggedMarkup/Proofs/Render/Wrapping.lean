import TaggedMarkup.Proofs.Render.Census
import TaggedMarkup.Proofs.Render.Streaming
import TaggedMarkup.Proofs.Render.Taking

/-!
# Wrappers

A value may be **wrapped** where it is rendered by the rules for items: in a list of its own, in a fragment, in
a one-shot sequence, in a pending value, or in a component that returns it. Its tree is wrapped with it
(`Tree.Wraps`), and the output stays what it was. So wrappers are transparent: whatever the value stands in, the
same comes out (`RenderStream.wrapped_same`).
-/

namespace TaggedMarkup

/-- The second tree is the first one in wrappers, one or several around it. -/
inductive Tree.Wraps : Tree → Tree → Prop
  /-- a list of one member -/
  | list (tree : Tree) : Wraps tree (.list [tree])
  /-- an element without a tag that has one child -/
  | fragment (tree : Tree) : Wraps tree (.row [.list [tree]])
  /-- a one-shot sequence of one member -/
  | sequence (tree : Tree) : Wraps tree (.sequence [tree])
  /-- a pending value -/
  | pending (tree : Tree) : Wraps tree (.row [.later tree])
  /-- a component that returns the value -/
  | component (tree : Tree) : Wraps tree (.call tree)
  | trans {tree mid wrapped : Tree} : Wraps tree mid → Wraps mid wrapped → Wraps tree wrapped

/-- A place in a tree. -/
inductive Tree.Place where
  | here
  | inRow (before : List Tree) (place : Tree.Place) (after : List Tree)
  | inList (before : List Tree) (place : Tree.Place) (after : List Tree)
  | inSequence (before : List Tree) (place : Tree.Place) (after : List Tree)
  | inPending (place : Tree.Place)
  | inComponent (place : Tree.Place)

/-- The whole tree, with this one at the place. -/
def Tree.Place.fill (tree : Tree) : Tree.Place → Tree
  | here => tree
  | inRow before place after => .row (before ++ place.fill tree :: after)
  | inList before place after => .list (before ++ place.fill tree :: after)
  | inSequence before place after => .sequence (before ++ place.fill tree :: after)
  | inPending place => .later (place.fill tree)
  | inComponent place => .call (place.fill tree)

theorem Tree.outputOfAll_append (trees more : List Tree) :
    Tree.outputOfAll (trees ++ more) = Tree.outputOfAll trees ++ Tree.outputOfAll more := by
  induction trees with
  | nil => rfl
  | cons tree rest ih => rw [List.cons_append, outputOfAll, outputOfAll, ih, List.append_assoc]

/-- A wrapper adds nothing to the output, drops nothing and moves nothing. -/
theorem Tree.Wraps.output {tree wrapped : Tree} (h : tree.Wraps wrapped) : wrapped.output = tree.output := by
  induction h with
  | list tree => exact List.append_nil _
  | fragment tree => exact (List.append_nil _).trans (List.append_nil _)
  | sequence tree => exact List.append_nil _
  | pending tree => exact List.append_nil _
  | component tree => rfl
  | trans _ _ ih ih' => exact ih'.trans ih

/-- The output of a tree depends on the output of its parts alone. -/
theorem Tree.Place.output_fill {tree other : Tree} (h : other.output = tree.output) (place : Tree.Place) :
    (place.fill other).output = (place.fill tree).output := by
  have hsplice : ∀ {before after : List Tree} {tree other : Tree}, other.output = tree.output →
      Tree.outputOfAll (before ++ other :: after) = Tree.outputOfAll (before ++ tree :: after) := by
    intro before after tree other h
    rw [outputOfAll_append, outputOfAll_append, outputOfAll, outputOfAll, h]
  induction place with
  | here => exact h
  | inRow before place after ih => exact hsplice ih
  | inList before place after ih => exact hsplice ih
  | inSequence before place after ih => exact hsplice ih
  | inPending place ih => exact ih
  | inComponent place ih => exact ih

/-! ## Values in wrappers -/

/-- In this world, and whatever becomes of it, the second value is the first one in wrappers, one or several
around it. -/
inductive Value.Wraps (w : World) : Value → Value → Prop
  | list (value : Value) : Wraps w value (.list [value])
  | fragment {value : Value} {e : Element} : e.type = .fragment → e.children = [value] →
    Wraps w value (.element e)
  | sequence {value : Value} {n delay : Nat} {cell : SequenceCell} : w.sequences[n]? = some cell →
    cell.members = [(delay, value)] → Wraps w value (.sequence n)
  | pending {value : Value} {pending : Nat} : pending < w.pendings.size →
    (∀ v outcome, w.Becomes v → v.peek pending = some outcome → outcome = .ok value) →
      Wraps w value (.pending pending)
  | component {value : Value} {e : Element} {component : Component} : e.type = .component component →
    e.raw = false → (∀ v, w.Becomes v → (v.callComponent component e.props e.children).1 = .ok value) →
      Wraps w value (.element e)
  | trans {value mid wrapped : Value} : Wraps w value mid → Wraps w mid wrapped → Wraps w value wrapped

/-- The tree of a wrapper is the tree of the value, wrapped. -/
theorem Value.Wraps.describes {w : World} {value wrapper : Value} (hwrapper : Value.Wraps w value wrapper)
    {tree : Tree} (h : tree.Describes w (.item value)) :
    ∃ wrapped, tree.Wraps wrapped ∧ wrapped.Describes w (.item wrapper) := by
  have hsingle : ∀ {tree : Tree} {value : Value}, tree.Describes w (.item value) →
      Tree.DescribeAll [tree] w ([value].map .item) := fun h => ⟨_, _, rfl, h, rfl⟩
  induction hwrapper generalizing tree with
  | list value => exact ⟨_, .list tree, [value], [], rfl, hsingle h⟩
  | @fragment value e htype hchildren =>
    have hlayer : (Work.item (.element e)).layer = .row [.children e] := by
      rw [Work.layer, Layer.ofElement, htype]
      dsimp only
      rw [Render.element, htype]
    refine ⟨_, .fragment tree, [.children e], hlayer, _, [], rfl, ⟨e.children, [.element e], rfl, ?_⟩, rfl⟩
    rw [hchildren]
    exact hsingle h
  | @sequence value n delay cell hcell hmembers =>
    refine ⟨_, .sequence tree, n, cell, rfl, hcell, ?_⟩
    rw [hmembers]
    exact hsingle h
  | @pending value pending hsize houtcome =>
    have hlater : (Tree.later tree).Describes w (.await pending none .item) := by
      refine ⟨pending, .item, rfl, hsize, fun v outcome hv hpeek next hnext => ?_⟩
      rw [houtcome v outcome hv hpeek] at hnext
      rw [List.mem_singleton.mp hnext]
      exact h.becomes hv
    exact ⟨_, .pending tree, [.await pending none .item], rfl, _, [], rfl, hlater, rfl⟩
  | @component value e component htype hraw hresult =>
    have hlayer : (Work.item (.element e)).layer = .call component e := by
      rw [Work.layer, Layer.ofElement, htype]
    refine ⟨_, .component tree, component, e, hlayer, fun v hv next hnext => ?_⟩
    rw [hresult v hv, hraw] at hnext
    rw [List.mem_singleton.mp hnext]
    exact (h.becomes hv).becomes (.called component e.props e.children .refl)
  | trans _ _ ih ih' =>
    obtain ⟨mid, hmid, hdescribes⟩ := ih h
    obtain ⟨wrapped, hwrapped, hdescribes'⟩ := ih' hdescribes
    exact ⟨wrapped, hmid.trans hwrapped, hdescribes'⟩

/-! ## Renders of what is wrapped -/

namespace RenderStream

variable {w w' : World}

/-- With enough fuel, the fragments of the render can be taken as one text, or the error. -/
def JoinsTo (s : RenderStream) (w : World) (result : Except Error String) : Prop :=
  ∃ enough v, ∀ fuel ≥ enough, s.finish fuel .text w = some (.text result, v)

theorem DrainsTo.joinsTo {s : RenderStream} {texts : List String} {error : Option Error}
    (h : s.DrainsTo w texts error) : s.JoinsTo w (error.elim (.ok (String.join texts)) .error) := by
  obtain ⟨enough, v, hdrain⟩ := h
  refine ⟨enough, v, fun fuel hfuel => ?_⟩
  rw [finish, hdrain fuel hfuel]
  cases error <;> rfl

/-- Two renders come to the same: fragment by fragment where members are rendered one by one, and as one text in
any case. -/
def ComeToTheSame (n : Nat) (r r' : RenderStream × World) : Prop :=
  (n ≤ 1 → ∃ texts error, r.1.DrainsTo r.2 texts error ∧ r'.1.DrainsTo r'.2 texts error) ∧
    ∃ result, r.1.JoinsTo r.2 result ∧ r'.1.JoinsTo r'.2 result

/-- Renders of things that are pure come to the same if the outputs are the same. -/
theorem same_of_output {tree other : Tree} (houtput : other.output = tree.output) {work work' : Work}
    (h : tree.Comes w work) (h' : other.Comes w' work') (hstepped : work.isStepped = true)
    (hstepped' : work'.isStepped = true) (config : RenderConfig) :
    ComeToTheSame config.concurrency (start config [work] w) (start config [work'] w') := by
  obtain ⟨texts, hdelivers, hdrains⟩ := drain_comes h hstepped config
  obtain ⟨texts', hdelivers', hdrains'⟩ := drain_comes h' hstepped' config
  rw [houtput] at hdelivers' hdrains'
  have hwhole : config.concurrency ≤ 1 ∨ tree.output.error? = none → texts' = texts :=
    fun hwhole => (hdelivers'.2 hwhole).trans (hdelivers.2 hwhole).symm
  refine ⟨fun hone => ⟨texts, _, hdrains, hwhole (.inl hone) ▸ hdrains'⟩, _, hdrains.joinsTo, ?_⟩
  have hjoins := hdrains'.joinsTo
  cases herror : tree.output.error? with
  | some error =>
    rw [herror] at hjoins
    exact hjoins
  | none =>
    rw [herror, hwhole (.inr herror)] at hjoins
    exact hjoins

/-- Wrappers are transparent. The tree of a value is wrapped when the value is; and wherever it stands in a
whole, the whole is rendered to the same with the wrappers and without them. -/
theorem wrapped_same {tree : Tree} {w : World} {value wrapper : Value} (hwrapper : Value.Wraps w value wrapper)
    (htree : tree.Describes w (.item value)) :
    ∃ wrapped, tree.Wraps wrapped ∧ wrapped.Describes w (.item wrapper) ∧
      ∀ (place : Tree.Place) {u v : World} {whole other : Value} (rule : Value → Work),
        rule = .root ∨ rule = .item → (place.fill tree).Comes u (rule whole) →
          (place.fill wrapped).Comes v (rule other) → ∀ config : RenderConfig,
            ComeToTheSame config.concurrency (start config [rule whole] u) (start config [rule other] v) := by
  obtain ⟨wrapped, hwraps, hdescribes⟩ := hwrapper.describes htree
  refine ⟨wrapped, hwraps, hdescribes, fun place u v whole other rule hrule h h' config => ?_⟩
  have hstepped : ∀ value, (rule value).isStepped = true := by
    rcases hrule with rfl | rfl
    · exact fun _ => rfl
    · exact fun _ => rfl
  exact same_of_output (place.output_fill hwraps.output) h h' (hstepped whole) (hstepped other) config

/-- A text in a one-shot sequence, before an empty member. -/
theorem wrapped_same_drawn :
    let w := ((Action.sequence none [(0, .str "a")] .give).run {}).2
    ∀ config : RenderConfig, ComeToTheSame config.concurrency (ofItem config (.list [.str "a", .null]) w)
      (ofItem config (.list [.sequence 0, .null]) w) := by
  intro w config
  have hbalanced : ∃ σ, w.Balanced σ fun _ => False := ⟨_, World.balanced_made _⟩
  have htext : (Tree.row [.leaf (.ok (Escape.text "a"))]).Describes w (.item (.str "a")) :=
    ⟨_, rfl, _, _, rfl, rfl, rfl⟩
  have hnull : (Tree.row [.leaf (.ok "")]).Describes w (.item .null) := ⟨_, rfl, _, _, rfl, rfl, rfl⟩
  have hwhole : ∀ {tree : Tree} {value : Value}, tree.Describes w (.item value) →
      (Tree.list [tree, .row [.leaf (.ok "")]]).Describes w (.item (.list [value, .null])) :=
    fun h => ⟨_, _, rfl, _, _, rfl, h, _, _, rfl, hnull, rfl⟩
  have hclean : ∀ {value : Value}, value.sequences = [] ∨ value.sequences = [0] →
      Clean w [.item (.list [value, .null])] := by
    intro value hvalue
    have hstanding : w.standing [.item (.list [value, .null])] = value.sequences := by
      simp [World.standing, Work.sequences, Value.sequences, Value.sequencesOfAll, w, Action.run,
        World.newSequence, SequenceCell.sequences]
    refine World.Counts.clean ⟨rfl, rfl, ?_, ?_⟩ (List.forall_mem_singleton.mpr trivial)
    · rw [hstanding]
      rcases hvalue with h | h <;> rw [h] <;> decide
    · rw [hstanding]
      rcases hvalue with h | h <;> rw [h]
      · exact List.forall_mem_nil _
      · exact List.forall_mem_singleton.mpr rfl
  have hwraps : Value.Wraps w (.str "a") (.sequence 0) := .sequence rfl rfl
  obtain ⟨wrapped, -, hwrapped, hsame⟩ := wrapped_same hwraps htext
  exact hsame (.inList [] .here [.row [.leaf (.ok "")]]) .item (.inr rfl)
    ⟨hbalanced, hclean (.inl rfl), hwhole htext⟩ ⟨hbalanced, hclean (.inr rfl), hwhole hwrapped⟩ config

end RenderStream

end TaggedMarkup
