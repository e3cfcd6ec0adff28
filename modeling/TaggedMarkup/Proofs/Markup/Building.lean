import TaggedMarkup.Proofs.Markup.Outline
import TaggedMarkup.Proofs.Template.Folding

/-!
# Building what is read back

The instructions that come of a piece of markup **build** some children: evaluated with plain elements,
they add those children to whatever element they stand in and do nothing else to it.
-/

namespace TaggedMarkup

/-- Evaluated with plain elements and without folding, the instructions build these children, stamps
aside, and do nothing else to the element. -/
def Op.Build (ops : List Op) (values : List Value) : Prop :=
  ∀ s : Setting Bench, s.factory = Factory.element → s.fold = false →
    ∀ (d : Draft) (p : Pass Bench), p.folds = [] →
      ∃ built q, s.runAll ops d p = ({ d with children := d.children ++ built }, q) ∧
        q.folds = [] ∧ Value.plainAll built = values

namespace Draft

theorem markOwn_false (d : Draft) : d.markOwn false = d := by
  unfold markOwn
  rw [Bool.or_false]

theorem markChildren_false (d : Draft) : d.markChildren false = d := by
  unfold markChildren
  rw [Bool.or_false]

end Draft

namespace Op

/-- The instructions for a run of texts: it is one child, or none. -/
def ofText (run : String) : List Op := (Outline.child run).map fun value => .child (.fixed value)

/-- The instructions for the props that are written. -/
def ofProps (props : Props) : List Op :=
  (Outline.writtenProps props).map fun p => .set p.1 (.fixed p.2)

variable {ops more : List Op} {values others : List Value}

theorem build_nil : Build [] [] :=
  fun _ _ _ d p hp => ⟨[], p, by rw [List.append_nil]; rfl, hp, rfl⟩

theorem Build.append (h : Build ops values) (hmore : Build more others) :
    Build (ops ++ more) (values ++ others) := by
  intro s hfactory hfold d p hp
  obtain ⟨built, q, hrun, hq, hplain⟩ := h s hfactory hfold d p hp
  obtain ⟨built', r, hrun', hr, hplain'⟩ :=
    hmore s hfactory hfold { d with children := d.children ++ built } q hq
  refine ⟨built ++ built', r, ?_, hr, ?_⟩
  · rw [Setting.runAll_append, hrun, hrun', List.append_assoc]
  · rw [Value.plainAll_append, hplain, hplain']

theorem build_ofText (run : String) : Build (ofText run) (Outline.child run) := by
  unfold ofText Outline.child
  dsimp only
  split
  · exact build_nil
  · intro s _ _ d p hp
    refine ⟨[.str (Trim.text run)], p, ?_, hp, rfl⟩
    have hrun : s.runAll [.child (.fixed (.str (Trim.text run)))] d p =
        ((d.addChild (.str (Trim.text run))).markChildren false, p) := rfl
    rw [List.map_singleton, hrun, Draft.markChildren_false]
    rfl

/-- Setting props one after the other merges them into those that are there. -/
theorem run_sets {σ : Type} (s : Setting σ) (sets : Props) (d : Draft) (p : Pass σ) :
    ∃ props, s.runAll (sets.map fun p => .set p.1 (.fixed p.2)) d p = ({ d with props }, p) ∧
      props.getD [] = Entries.merge (d.props.getD []) sets := by
  induction sets generalizing d with
  | nil => exact ⟨d.props, rfl, rfl⟩
  | cons entry rest ih =>
    obtain ⟨name, value⟩ := entry
    obtain ⟨props, hrun, hprops⟩ := ih (d.setProp name value)
    refine ⟨props, ?_, hprops⟩
    have hset : s.runAll (((name, value) :: rest).map fun p => .set p.1 (.fixed p.2)) d p =
        s.runAll (rest.map fun p => .set p.1 (.fixed p.2)) ((d.setProp name value).markOwn false) p :=
      rfl
    rw [hset, Draft.markOwn_false, hrun]
    rfl

/-- What is written of props has no stamps. -/
theorem plainEntries_keptProps (props : Props) :
    Value.plainEntries (Outline.keptProps props) = Outline.keptProps props := by
  have hwritten : Value.plainEntries (Outline.writtenProps props) = Outline.writtenProps props := by
    rw [Value.plainEntries_eq_map]
    refine (List.map_congr_left fun entry hentry => ?_).trans (List.map_id _)
    obtain ⟨p, -, hp⟩ := List.mem_filterMap.mp hentry
    obtain ⟨kept, hkept, rfl⟩ := Option.map_eq_some_iff.mp hp
    unfold Outline.keptProp at hkept
    split at hkept <;> cases hkept <;> rfl
  rw [Outline.keptProps, Entries.ofList, Entries.plainEntries_merge, hwritten]
  rfl

/-- A tag with its props and children is built as an element. -/
theorem build_element (block : Nat) {name : String} (hname : name ≠ "") (props : Props)
    (h : Build ops values) :
    Build [.element block (.tag (.fixed (.str name)) :: ofProps props ++ ops)]
      [.element ⟨0, .tag name, Outline.keptProps props, values, false⟩] := by
  intro s hfactory hfold d p hp
  obtain ⟨kept, hsets, hkept⟩ :=
    run_sets s (Outline.writtenProps props) (Draft.element.setTag (.str name)) p
  obtain ⟨built, q, hrun, hq, hplain⟩ :=
    h s hfactory hfold { Draft.element.setTag (.str name) with props := kept } p hp
  have hbody : s.runAll (.tag (.fixed (.str name)) :: ofProps props ++ ops) .element p =
      ({ Draft.element.setTag (.str name) with props := kept, children := built }, q) := by
    have htag : s.runAll (.tag (.fixed (.str name)) :: ofProps props ++ ops) .element p =
        s.runAll (ofProps props ++ ops)
          ((Draft.element.setTag (.str name)).markOwn false) p := rfl
    rw [htag, Draft.markOwn_false, Setting.runAll_append, ofProps, hsets, hrun]
    rfl
  have htype : (Value.str name).toElementType = .tag name := if_neg hname
  refine ⟨[.element ⟨q.host.stamp, .tag name, kept.getD [], built, false⟩],
    { q with host := { q.host with stamp := q.host.stamp + 1 } }, ?_, hq, ?_⟩
  · have hlookup : p.folds.lookup block = none := by
      rw [hp]
      rfl
    have hbuild : s.build block (.tag (.fixed (.str name)) :: ofProps props ++ ops) p =
        (.element ⟨q.host.stamp, .tag name, kept.getD [], built, false⟩, {},
          { q with host := { q.host with stamp := q.host.stamp + 1 } }) := by
      unfold Setting.build
      rw [hbody, hfactory, ← htype]
      rfl
    have hrun : ∀ op, s.runAll [op] d p = s.run op d p := fun _ => rfl
    rw [hrun, Setting.run_element_built s _ d hlookup, hbuild, hfold]
    rfl
  · rw [Value.plainAll, Value.plainAll, Value.plain, hplain, hkept]
    exact congrArg (fun props => [Value.element ⟨0, .tag name, props, values, false⟩])
      (plainEntries_keptProps props)

end Op

end TaggedMarkup
