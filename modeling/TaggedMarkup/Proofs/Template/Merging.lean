import Mathlib.Data.List.Forall2
import TaggedMarkup.Proofs.Template.Saving
import TaggedMarkup.Proofs.Template.Shapes

/-!
# Props are assigned one after the other

The instructions for the props of an element are **assignments** to an empty map, in their order: a set
replaces what is there, an append extends its text, and a spread replaces what is there for each entry of a
map, or does nothing. A key takes its place with the first assignment to it, and its value is the outcome of
the last (`keys_assigned`, `get?_assigned`).

What else an evaluation does is of no account here: whatever is made is made of the block that is due
(`Setting.madeAll_of_due`), and what its props are can be read off this block and the values
(`Setting.props_runAll`). A spread that is ignored for what it spreads is reported once for each time its
element is made (`Setting.ignored_runAll`).
-/

namespace TaggedMarkup

variable {σ : Type}

/-! ## Assignments -/

/-- One assignment to a prop. -/
inductive Assignment where
  /-- put a value in the place of what is there -/
  | put (key : String) (value : Value)
  /-- extend the text of what is there -/
  | extend (key : String) (value : Value)

namespace Assignment

def key : Assignment → String
  | put key _ | extend key _ => key

/-- The value afterwards, by the value before. What is not there counts as `undefined`. -/
def outcome (old : Option Value) : Assignment → Value
  | put _ value => value
  | extend _ value => .str ((old.getD .undefined).text ++ value.text)

/-- Carry out an assignment. -/
def carryOut (props : Props) (a : Assignment) : Props :=
  Entries.put a.key (a.outcome (Entries.get? a.key props)) props

end Assignment

/-- What assignments make of an empty map, the first one first. -/
def assigned (assignments : List Assignment) : Props := assignments.foldl Assignment.carryOut []

theorem assigned_concat (assignments : List Assignment) (a : Assignment) :
    assigned (assignments ++ [a]) = Assignment.carryOut (assigned assignments) a := by
  rw [assigned, List.foldl_append]
  rfl

/-- One more key counts unless it is there. -/
theorem eraseDups_concat (keys : List String) (key : String) :
    (keys ++ [key]).eraseDups = if key ∈ keys then keys.eraseDups else keys.eraseDups ++ [key] := by
  rw [List.eraseDups_append]
  by_cases hmem : key ∈ keys
  · have hnone : [key].removeAll keys = [] := by simp [List.removeAll, hmem]
    rw [if_pos hmem, hnone, List.eraseDups_nil, List.append_nil]
  · have hone : [key].removeAll keys = [key] := by simp [List.removeAll, hmem]
    rw [if_neg hmem, hone]
    rfl

/-- A key takes its place with the first assignment to it. -/
theorem keys_assigned (assignments : List Assignment) :
    Entries.keys (assigned assignments) = (assignments.map (·.key)).eraseDups := by
  induction assignments using List.reverseRecOn with
  | nil => rfl
  | append_singleton earlier a ih =>
    have hkeys := Entries.keys_put a.key (a.outcome (Entries.get? a.key (assigned earlier)))
      (assigned earlier)
    rw [assigned_concat, Assignment.carryOut, hkeys, ih, List.map_append, List.map_singleton,
      eraseDups_concat]
    simp only [List.mem_eraseDups]

theorem nodup_keys_assigned (assignments : List Assignment) :
    (Entries.keys (assigned assignments)).Nodup := by
  induction assignments using List.reverseRecOn with
  | nil => exact List.nodup_nil
  | append_singleton earlier a ih =>
    rw [assigned_concat, Assignment.carryOut, Entries.keys_put]
    split
    · exact ih
    · rename_i hnew
      exact List.nodup_append.mpr ⟨ih, List.nodup_singleton _, fun key hkey other hother heq =>
        hnew (List.mem_singleton.mp hother ▸ heq ▸ hkey)⟩

/-- The value at a key is the outcome of the last assignment to it. -/
theorem get?_assigned (before : List Assignment) (a : Assignment) {after : List Assignment}
    (hlast : ∀ b ∈ after, b.key ≠ a.key) :
    Entries.get? a.key (assigned (before ++ a :: after)) =
      some (a.outcome (Entries.get? a.key (assigned before))) := by
  induction after using List.reverseRecOn with
  | nil =>
    rw [assigned_concat, Assignment.carryOut]
    exact Entries.get?_put_self ..
  | append_singleton later b ih =>
    have hb : b.key ≠ a.key := hlast b (List.mem_append_right _ (List.mem_singleton.mpr rfl))
    rw [← List.cons_append, ← List.append_assoc, assigned_concat, Assignment.carryOut,
      Entries.get?_put_of_ne hb.symm, ih fun c hc => hlast c (List.mem_append_left _ hc)]

namespace Op

/-- The assignments that an instruction carries out, given the values for the gaps. -/
def assignments (values : List Value) : Op → List Assignment
  | set name operand => [.put name (operand.value values)]
  | append name operand => [.extend name (operand.value values)]
  | spread index =>
    match (Operand.field index).value values with
    | .object entries => entries.map fun entry => .put entry.1 entry.2
    | _ => []
  | _ => []

/-- The assignments of several instructions. -/
def assignmentsOfAll (values : List Value) (ops : List Op) : List Assignment :=
  ops.flatMap (assignments values)

end Op

/-! ## The props of a draft -/

namespace Draft

/-- The entries of a map are assigned one by one. -/
theorem merge_eq_foldl (props entries : Props) :
    Entries.merge props entries =
      (entries.map fun entry => Assignment.put entry.1 entry.2).foldl Assignment.carryOut props := by
  rw [Entries.merge, List.foldl_map]
  rfl

theorem props_spreadProps (value : Value) (d : Draft) :
    (d.spreadProps value).props = some (match value with
      | .object entries => Entries.merge (d.props.getD []) entries
      | _ => d.props.getD []) := by
  cases value <;> rfl

end Draft

namespace Setting

/-- An instruction for the props carries out its assignments, and props are present then. -/
theorem props_run_of_writes (s : Setting σ) {op : Op} (h : op.writesProps = true) (d : Draft)
    (p : Pass σ) :
    (s.run op d p).1.props =
      some ((op.assignments s.values).foldl Assignment.carryOut (d.props.getD [])) := by
  cases op with
  | set name operand | append name operand => rfl
  | spread index =>
    have hspread := Draft.props_spreadProps ((Operand.field index).value s.values) d
    rw [run, Op.assignments]
    refine hspread.trans (congrArg some ?_)
    cases (Operand.field index).value s.values with
    | object entries => exact Draft.merge_eq_foldl _ entries
    | _ => rfl
  | tag operand | child operand | element block body => cases h

/-- Any other instruction leaves the props. -/
theorem props_run_of_not_writes (s : Setting σ) {op : Op} (h : op.writesProps = false) (d : Draft)
    (p : Pass σ) : (s.run op d p).1.props = d.props ∧ op.assignments s.values = [] := by
  cases op with
  | set name operand | append name operand | spread index => cases h
  | tag operand | child operand => exact ⟨rfl, rfl⟩
  | element block body => exact ⟨(s.own_run_element block body d p).2, rfl⟩

/-- What a run makes of the props depends on its instructions and the values alone. -/
theorem props_runAll (s : Setting σ) (ops : List Op) (d : Draft) (p : Pass σ) :
    (s.runAll ops d p).1.props =
      if ops.any Op.writesProps then
        some ((Op.assignmentsOfAll s.values ops).foldl Assignment.carryOut (d.props.getD []))
      else d.props := by
  induction ops generalizing d p with
  | nil => rfl
  | cons op rest ih =>
    rw [runAll, ih, Op.assignmentsOfAll, Op.assignmentsOfAll, List.flatMap_cons, List.foldl_append,
      List.any_cons]
    cases hop : op.writesProps with
    | true =>
      rw [s.props_run_of_writes hop, Option.getD_some, Bool.true_or, if_pos rfl]
      split
      · rfl
      · -- the rest assigns nothing
        rename_i hnone
        have hrest : rest.flatMap (Op.assignments s.values) = [] := by
          refine List.flatMap_eq_nil_iff.mpr fun other hother => ?_
          have hother : other.writesProps = false :=
            Bool.eq_false_iff.mpr fun h => hnone (List.any_eq_true.mpr ⟨other, hother, h⟩)
          exact (s.props_run_of_not_writes hother d p).2
        rw [hrest]
        rfl
    | false =>
      obtain ⟨hprops, hassigns⟩ := s.props_run_of_not_writes hop d p
      rw [hprops, hassigns, Bool.false_or]
      rfl

/-! ## What is made is made of what is due -/

/-- The element is made of this block, whatever has come before. -/
def MadeOf (s : Setting σ) (c : Creation) (row : Nat × List Op) : Prop :=
  ∃ p, c = s.creation row.1 row.2 p

mutual

theorem made_of_due (s : Setting σ) : ∀ (op : Op) (p : Pass σ), (op.blocks.map (·.1)).Nodup →
    List.Forall₂ s.MadeOf (s.made op p) (op.due p.folds)
  | .tag _, _, _ | .set _ _, _, _ | .append _ _, _, _ | .child _, _, _ | .spread _, _, _ => by
    rw [made_of_blocks s rfl, Op.due_of_blocks _ rfl]
    exact .nil
  | .element block body, p, hnodup => by
    rw [Op.due]
    cases hl : p.folds.lookup block with
    | some value =>
      rw [made_kept s body hl]
      exact .nil
    | none =>
      have hbody := madeAll_of_due s body .element p (List.nodup_cons.mp hnodup).2
      rw [made_built s body hl]
      exact List.rel_append hbody (.cons ⟨p, rfl⟩ .nil)

/-- What is made is made of the blocks that are due, one of each, in their order. -/
theorem madeAll_of_due (s : Setting σ) : ∀ (ops : List Op) (d : Draft) (p : Pass σ),
    (Op.numbersOfAll ops).Nodup →
      List.Forall₂ s.MadeOf (s.madeAll ops d p) (Op.dueAll p.folds ops)
  | [], _, _, _ => .nil
  | op :: rest, d, p, hnodup => by
    obtain ⟨hop, hrest, hne⟩ := ne_of_nodup hnodup
    have hsame : ∀ row ∈ Op.blocksOfAll rest,
        (s.run op d p).2.folds.lookup row.1 = p.folds.lookup row.1 := fun row hrow =>
      lookup_run s op d p fun other hother => hne other hother row hrow
    have hlater := madeAll_of_due s rest (s.run op d p).1 (s.run op d p).2 hrest
    rw [Op.dueAll_congr rest hsame] at hlater
    exact List.rel_append (made_of_due s op p hop) hlater

end

end Setting

/-! ## Reports of spreads -/

/-- The kind of what was not spread. -/
def Notice.ignored? : Notice → Option String
  | ignoredSpread typeName => some typeName
  | folded _ => none

/-- What is reported when the value is spread: nothing for a map, nor for nothing. -/
def Value.ignored : Value → List String
  | object _ | undefined | null => []
  | other => [other.typeName]

/-- What an instruction of the element itself reports. -/
def Op.ignored (values : List Value) : Op → List String
  | spread index => ((Operand.field index).value values).ignored
  | _ => []

/-- What the instructions of one block report. -/
def Op.ignoredOfAll (values : List Value) (ops : List Op) : List String := ops.flatMap (Op.ignored values)

namespace Pass

/-- The spreads that have been reported. -/
def ignored (p : Pass σ) : List String := p.notices.filterMap Notice.ignored?

theorem ignored_noteSpread (value : Value) (p : Pass σ) :
    (p.noteSpread value).ignored = p.ignored ++ value.ignored := by
  cases value <;> simp [noteSpread, ignored, Value.ignored, Notice.ignored?]

end Pass

namespace Setting

/-- What is reported in the making of an element is reported in the run of its body. -/
theorem ignored_built (s : Setting σ) {block : Nat} (body : List Op) (d : Draft) {p : Pass σ}
    (h : p.folds.lookup block = none) :
    (s.run (.element block body) d p).2.ignored = (s.runAll body .element p).2.ignored := by
  have hkept : (([s.creation block body p].filter s.keeps).map fun c =>
      Notice.folded c.block).filterMap Notice.ignored? = [] := by
    rw [List.filterMap_map]
    exact List.filterMap_eq_nil_iff.mpr fun _ _ => rfl
  rw [Pass.ignored, notices_built s body d h, List.filterMap_append, hkept, List.append_nil]
  rfl

mutual

theorem ignored_run (s : Setting σ) : ∀ (op : Op) (d : Draft) (p : Pass σ),
    (op.blocks.map (·.1)).Nodup →
      (s.run op d p).2.ignored.Perm (p.ignored ++ (op.ignored s.values ++
        (op.due p.folds).flatMap fun row => Op.ignoredOfAll s.values row.2))
  | .tag _, _, _, _ | .set _ _, _, _, _ | .append _ _, _, _, _ | .child _, _, _, _ => by
    rw [Op.due_of_blocks _ rfl]
    exact List.Perm.of_eq (List.append_nil _).symm
  | .spread index, _, p, _ => by
    rw [Op.due_of_blocks _ rfl, List.flatMap_nil, List.append_nil, run, Pass.ignored_noteSpread]
    exact List.Perm.refl _
  | .element block body, d, p, hnodup => by
    rw [Op.due, show (Op.element block body).ignored s.values = [] from rfl, List.nil_append]
    cases hl : p.folds.lookup block with
    | some value =>
      rw [run_element_kept s body d hl]
      exact List.Perm.of_eq (List.append_nil _).symm
    | none =>
      have hbody := ignored_runAll s body .element p (List.nodup_cons.mp hnodup).2
      rw [ignored_built s body d hl, List.flatMap_append, List.flatMap_singleton]
      exact hbody.trans (List.perm_append_comm.append_left _)

/-- A spread that is ignored is reported once for each element that is made. -/
theorem ignored_runAll (s : Setting σ) : ∀ (ops : List Op) (d : Draft) (p : Pass σ),
    (Op.numbersOfAll ops).Nodup →
      (s.runAll ops d p).2.ignored.Perm (p.ignored ++ (Op.ignoredOfAll s.values ops ++
        (Op.dueAll p.folds ops).flatMap fun row => Op.ignoredOfAll s.values row.2))
  | [], _, _, _ => List.Perm.of_eq (List.append_nil _).symm
  | op :: rest, d, p, hnodup => by
    obtain ⟨hop, hrest, hne⟩ := ne_of_nodup hnodup
    have hsame : ∀ row ∈ Op.blocksOfAll rest,
        (s.run op d p).2.folds.lookup row.1 = p.folds.lookup row.1 := fun row hrow =>
      lookup_run s op d p fun other hother => hne other hother row hrow
    have hfirst := ignored_run s op d p hop
    have hlater := ignored_runAll s rest (s.run op d p).1 (s.run op d p).2 hrest
    rw [Op.dueAll_congr rest hsame] at hlater
    rw [runAll, Op.dueAll, Op.ignoredOfAll, List.flatMap_cons, List.flatMap_append]
    refine List.perm_iff_count.mpr fun name => ?_
    rw [hlater.count_eq, List.count_append, hfirst.count_eq]
    simp only [List.count_append, Op.ignoredOfAll]
    omega

end

end Setting

/-- The props that are handed over for an element with this block are those that its assignments make. -/
structure Handover.Assigns (values : List Value) (row : Nat × List Op) (c : Handover) : Prop where
  block : c.node.block = row.1
  /-- there are none exactly if no instruction is for props -/
  absent : c.props = none ↔ ∀ op ∈ row.2, op.writesProps = false
  /-- the assignments are carried out one after the other -/
  assigned : ∀ props ∈ c.props, props = assigned (Op.assignmentsOfAll values row.2)
  /-- each key occurs once -/
  once : ∀ props ∈ c.props, (Entries.keys props).Nodup
  /-- in the order in which they are first assigned -/
  keys : ∀ props ∈ c.props, Entries.keys props =
    ((Op.assignmentsOfAll values row.2).map (·.key)).eraseDups
  /-- with the outcome of the last assignment -/
  last : ∀ props ∈ c.props, ∀ before a after,
    Op.assignmentsOfAll values row.2 = before ++ a :: after → (∀ b ∈ after, b.key ≠ a.key) →
      Entries.get? a.key props = some (a.outcome (Entries.get? a.key (TaggedMarkup.assigned before)))

theorem Setting.MadeOf.assigns {s : Setting σ} {c : Creation} {row : Nat × List Op} (h : s.MadeOf c row) :
    c.handed.Assigns s.values row := by
  obtain ⟨p, rfl⟩ := h
  have hprops := s.props_runAll row.2 .element p
  have hassigned : ∀ props ∈ (s.runAll row.2 .element p).1.props,
      props = assigned (Op.assignmentsOfAll s.values row.2) := by
    intro props hmem
    rw [hprops] at hmem
    split at hmem
    · exact (Option.some.inj hmem).symm
    · cases hmem
  refine ⟨rfl, ?absent, hassigned, fun props hmem => ?once, fun props hmem => ?keys,
    fun props hmem before a after heq hlast => ?last⟩
  case absent =>
    have hnone : (s.runAll row.2 .element p).1.props = none ↔ row.2.any Op.writesProps = false := by
      rw [hprops]
      cases row.2.any Op.writesProps with
      | true => exact ⟨nofun, nofun⟩
      | false => exact ⟨fun _ => rfl, fun _ => rfl⟩
    exact hnone.trans (List.any_eq_false.trans (by simp only [Bool.not_eq_true]))
  case once =>
    rw [hassigned props hmem]
    exact nodup_keys_assigned _
  case keys =>
    rw [hassigned props hmem]
    exact keys_assigned _
  case last =>
    rw [hassigned props hmem, heq]
    exact get?_assigned before a hlast

/-- **Props merge like assignments.** Whatever the parts, the values and the factory are, and whatever has
been kept before: the factory is handed the elements that are due, one after the other, and the props of
each are those that its block assigns. If nothing has been kept, these are all elements. Spreads of what is
neither a map nor nothing are reported, once for each element that is due. -/
theorem Template.props_assigned (parts : List String) (s : Setting σ) (folds : Folds) (host : σ) :
    let t := Template.compile parts
    List.Forall₂ (fun c row => c.Assigns s.values row) (s.handovers t folds host)
      (Op.dueAll folds t.root) ∧
    (Op.dueAll [] t.root).Perm (Op.blocksOfAll t.root) ∧
    (s.evaluate t folds host).2.ignored.Perm
      ((Op.dueAll folds t.root).flatMap fun row => Op.ignoredOfAll s.values row.2) := by
  intro t
  have hnodup : (Op.numbersOfAll t.root).Nodup := Template.nodup_numbers_compile parts
  have hroot : Op.ignoredOfAll s.values t.root = [] := by
    refine List.flatMap_eq_nil_iff.mpr fun op hop => ?_
    have hchild := (Template.isNeat_compile parts op hop).1
    cases op with
    | tag _ | set _ _ | append _ _ | child _ | element _ _ => rfl
    | spread index => cases hchild
  refine ⟨?_, Op.dueAll_nil t.root ▸ Op.closedAll_perm t.root, ?_⟩
  · rw [s.handovers_eq, s.handedAll_eq, List.forall₂_map_left_iff]
    exact (s.madeAll_of_due t.root .root { folds, host } hnodup).imp fun _ _ h => h.assigns
  · have hignored := s.ignored_runAll t.root .root { folds, host } hnodup
    rw [hroot] at hignored
    exact hignored

/-- An element with pieces, spreads and a prop that comes again, and one without props. -/
def Template.dressed : List String :=
  ["<a b=1 title=\"x", "y\" ...", " ...", " ...", " b><i></i></a>"]

example :
    let entries : Props := [("c", .null), ("title", .str "t")]
    let s (spread : Value) : Setting Bench :=
      ⟨1, Factory.element, true, [.bool true, spread, .null, .str "s"]⟩
    let props (spread : Value) :=
      ((s spread).handovers (Template.compile Template.dressed) [] {}).map (·.props)
    props (.object entries) = [none, some [("b", .bool true), ("title", .str "t"), ("c", .null)]] ∧
      props .undefined = [none, some [("b", .bool true), ("title", .str "xtruey")]] ∧
      ((s .null).evaluate (Template.compile Template.dressed) [] {}).2.ignored = ["string"] := by cbv

end TaggedMarkup
