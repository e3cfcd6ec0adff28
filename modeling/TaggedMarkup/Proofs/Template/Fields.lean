import Mathlib.Data.List.Induction
import TaggedMarkup.Proofs.Template.Gluing
import TaggedMarkup.Proofs.Template.Visits

/-!
# Fields come in order

A field is placed in whatever element is open when it is read, and elements enter the tree, and the blocks
around them, only when they close. All the same, a walk through a compiled template that follows every
element where it stands meets the fields in the order of the gaps, each at most once
(`Template.fields_inOrder`).

* The scanner keeps what is met in this walk as it is, except that a field comes to its end
  (`Scan.fields_step`, `Scan.fields_field`). So the fields that are met are those of the gaps, without
  those that the scanner passes over (`Scan.fields_parts`).
* The walk through the arena is the walk through the tree (`Arena.walk_laid`).
* An evaluation could take its values off a supply in which they stand in this order
  (`Setting.runOff_eq`): it never needs a value again, and none before an earlier one.
-/

namespace TaggedMarkup

/-! ## The walk -/

/-- The field that an operand takes, if it is one. -/
def Operand.fields : Operand → List Nat
  | fixed _ => []
  | field index => [index]

namespace Op

/-- The field that an instruction takes itself. -/
def ownFields : Op → List Nat
  | tag operand | set _ operand | append _ operand | child operand => operand.fields
  | spread index => [index]
  | element _ _ => []

mutual

/-- The fields met at one instruction, where an element stands for what is in it. -/
def fields : Op → List Nat
  | element _ body => fieldsOfAll body
  | op => op.ownFields

/-- The fields met at instructions, in order. -/
def fieldsOfAll : List Op → List Nat
  | [] => []
  | op :: rest => fields op ++ fieldsOfAll rest

end

theorem fields_element (block : Nat) (body : List Op) : (element block body).fields = fieldsOfAll body := by
  rw [fields]

theorem fields_of_blocks {op : Op} (h : op.blocks = []) : op.fields = op.ownFields := by
  cases op with
  | element block body => cases h
  | _ => rw [fields]; exact fun _ _ h => by cases h

theorem fieldsOfAll_append (ops more : List Op) :
    fieldsOfAll (ops ++ more) = fieldsOfAll ops ++ fieldsOfAll more := by
  induction ops with
  | nil => rfl
  | cons op rest ih => rw [List.cons_append, fieldsOfAll, ih, fieldsOfAll, List.append_assoc]

end Op

/-- The fields that the instructions of one block take themselves. -/
def Block.fields (b : Block) : List Nat := b.flatMap fun i => i.bare.ownFields

/-- The fields met at one instruction of a block, given what is met in the block that it refers to. -/
def Instruction.walk (walkBlock : Nat → Option (List Nat)) : Instruction → Option (List Nat)
  | recurse block => walkBlock block
  | i => some i.bare.ownFields

/-- The fields met in a block, where each reference is expanded in place. -/
def Block.walk (walkBlock : Nat → Option (List Nat)) : Block → Option (List Nat)
  | [] => some []
  | i :: rest => do
    let met ← i.walk walkBlock
    let more ← walk walkBlock rest
    return met ++ more

/-- The fields met on a walk through the block at an index and whatever it refers to, with fuel for so many
references one inside the other. -/
def Arena.walk (blocks : List Block) : Nat → Nat → Option (List Nat)
  | 0, _ => none
  | fuel + 1, id => blocks[id]?.bind (Block.walk (walk blocks fuel))

/-- The fields met in a walk through a template. -/
def Template.fieldsMet (t : Template) : List Nat := Op.fieldsOfAll t.root

/-- The scanner would pass over a field that came now: after a slash, in a comment, and where attributes
stand, unless three dots have been read. -/
def Scan.passesOver (s : Scan) : Bool :=
  match s.mode with
  | .slash | .comment _ => true
  | .space => s.word ≠ "..."
  | .text | .tagName | .value _ _ => false

/-! ## The scanner -/

namespace Scan

/-- The fields met at the root and in the open elements, as if all of these were closed. -/
def fieldsUnder (root : List Op) : List Frame → List Nat
  | [] => Op.fieldsOfAll root.reverse
  | frame :: rest => fieldsUnder root rest ++ Op.fieldsOfAll frame.ops.reverse

/-- The fields met in a scan. -/
def fields (s : Scan) : List Nat := fieldsUnder s.root s.frames

/-- What is pushed is met last. -/
theorem fields_push (op : Op) (s : Scan) : (s.push op).fields = s.fields ++ op.fields := by
  have hlast : ∀ ops : List Op,
      Op.fieldsOfAll (op :: ops).reverse = Op.fieldsOfAll ops.reverse ++ op.fields := by
    intro ops
    rw [List.reverse_cons, Op.fieldsOfAll_append, Op.fieldsOfAll, Op.fieldsOfAll, List.append_nil]
  obtain ⟨mode, buffer, quote, root, frames, next⟩ := s
  cases frames with
  | nil => exact hlast root
  | cons frame rest =>
    simp only [push, fields, fieldsUnder, hlast, List.append_assoc]

theorem fields_openElement (s : Scan) : s.openElement.fields = s.fields := List.append_nil _

/-- An element that closes takes its fields along. -/
theorem fields_close (s : Scan) : s.close.fields = s.fields := by
  obtain ⟨mode, buffer, quote, root, frames, next⟩ := s
  cases frames with
  | nil => rfl
  | cons frame rest => exact (fields_push _ _).trans (congrArg _ (Op.fields_element _ _))

/-- An element that is taken back has no field yet. -/
theorem fields_discard {s : Scan} (h : s.Opening) (hmode : s.mode = .tagName) :
    s.discard.fields = s.fields := by
  obtain ⟨block, rest, hframes, -⟩ := h hmode
  simp only [discard, fields, hframes, fieldsUnder]
  exact (List.append_nil _).symm

theorem fields_closeAll (s : Scan) : s.closeAll.fields = s.fields := by
  simp only [closeAll]
  induction s.frames.length with
  | zero => rfl
  | succ n ih => exact (fields_close _).trans ih

theorem fields_pushPiece (name : String) (operand : Operand) (begun : Bool) (s : Scan) :
    (s.pushPiece name operand begun).fields = s.fields ++ operand.fields := by
  refine (fields_push _ s).trans (congrArg _ ?_)
  cases begun
  · exact Op.fields_of_blocks rfl
  · exact Op.fields_of_blocks rfl

/-- A commit without a field brings texts only. -/
theorem fields_commit (s : Scan) : s.commit.fields = s.fields := by
  obtain ⟨mode, buffer, quote, root, frames, next⟩ := s
  have hpush : ∀ op : Op, op.fields = [] →
      (push op ⟨mode, [], quote, root, frames, next⟩).fields = fieldsUnder root frames := by
    intro op hop
    rw [fields_push, hop, List.append_nil, fields]
  cases mode with
  | slash | comment _ => rfl
  | text | space | tagName =>
    simp only [commit]
    split
    · rfl
    · exact hpush _ (Op.fields_of_blocks rfl)
  | value name begun =>
    simp only [commit]
    split
    · rfl
    · exact (fields_pushPiece ..).trans (List.append_nil _)

/-- A field that is placed is met last. -/
theorem fields_commitField (index : Nat) (s : Scan) :
    (s.commitField index).fields = s.fields ++ if s.passesOver then [] else [index] := by
  obtain ⟨mode, buffer, quote, root, frames, next⟩ := s
  cases mode with
  | slash | comment _ => exact (List.append_nil _).symm
  | text | tagName => exact (fields_push _ _).trans (congrArg _ (Op.fields_of_blocks rfl))
  | space =>
    by_cases hdots : String.ofList buffer.reverse = "..."
    · have hwelcome : (⟨.space, buffer, quote, root, frames, next⟩ : Scan).passesOver = false :=
        decide_eq_false fun hne => hne hdots
      have hplaced : commitField index ⟨.space, buffer, quote, root, frames, next⟩ =
          push (.spread index) ⟨.space, [], quote, root, frames, next⟩ := if_pos hdots
      rw [hwelcome, hplaced]
      exact (fields_push _ _).trans (congrArg _ (Op.fields_of_blocks rfl))
    · have hpassed : (⟨.space, buffer, quote, root, frames, next⟩ : Scan).passesOver = true :=
        decide_eq_true hdots
      have hleft : commitField index ⟨.space, buffer, quote, root, frames, next⟩ =
          ⟨.space, [], quote, root, frames, next⟩ := if_neg hdots
      rw [hpassed, hleft]
      exact (List.append_nil _).symm
  | value name begun =>
    simp only [commitField]
    split
    · exact fields_pushPiece ..
    · refine (fields_pushPiece ..).trans (congrArg (· ++ [index]) ?_)
      exact (fields_pushPiece ..).trans (List.append_nil _)

/-- After the text before it has been committed, a field is as welcome as it was. -/
theorem fields_field (index : Nat) (s : Scan) :
    (s.field index).fields = s.fields ++ if s.passesOver then [] else [index] := by
  obtain ⟨mode, buffer, quote, root, frames, next⟩ := s
  cases mode with
  | text =>
    have hmode : ∀ t : Scan, t.mode = .text → t.passesOver = false := by
      intro t ht
      rw [passesOver, ht]
    have hcommit : (commit ⟨.text, buffer, quote, root, frames, next⟩).mode = .text := by
      simp only [commit]
      split
      · rfl
      · exact mode_push _ _
    rw [field, if_pos rfl, fields_commitField, fields_commit, hmode _ hcommit, hmode _ rfl]
  | slash | space | tagName | comment _ | value name begun => exact fields_commitField index _

theorem fields_slash {s : Scan} (h : s.Opening) : s.slash.fields = s.fields := by
  have hclose : ∀ t : Scan, ({ t.close with mode := .slash } : Scan).fields = t.fields := fields_close
  simp only [slash]
  split
  · rename_i hmode
    exact (hclose _).trans ((fields_discard h.commit hmode).trans (fields_commit s))
  · exact (hclose _).trans (fields_commit s)

theorem fields_stepTag {s : Scan} (h : s.Opening) (c : Char) (following : Option Char) :
    (s.stepTag c following).fields = s.fields := by
  simp only [stepTag]
  split_ifs
  · rfl
  · exact fields_commit s
  · rfl
  · rfl
  · exact fields_slash h
  · exact fields_commit s
  · rfl

theorem fields_enterComment {s : Scan} (h : s.Opening) : s.enterComment.fields = s.fields := by
  simp only [enterComment]
  split
  · rename_i hc
    exact fields_discard h hc.1
  · rfl

/-- Characters bring no field, and lose none. -/
theorem fields_step {s : Scan} (h : s.WellNumbered) (c : Char) (following : Option Char) :
    (s.step c following).fields = s.fields := by
  cases hm : s.mode with
  | text =>
    simp only [step, hm]
    split
    · exact (fields_openElement _).trans (fields_commit s)
    · rfl
  | comment latest =>
    simp only [step, hm]
    split <;> rfl
  | slash | space | tagName | value name begun =>
    have hinside : s.IsInside := by simp [IsInside, hm]
    rw [step_inside hinside, fields_enterComment (h.stepInside c following).opening]
    simp only [stepInside]
    cases s.quote with
    | none => exact fields_stepTag h.opening c following
    | some quote =>
      dsimp only
      split <;> rfl

theorem fields_part {s : Scan} (h : s.WellNumbered) (cs : List Char) : (part cs s).fields = s.fields := by
  induction cs generalizing s with
  | nil => rfl
  | cons c rest ih => exact (ih (h.step c rest.head?)).trans (fields_step h c rest.head?)

/-! ## Reading the parts one by one -/

theorem rest_concat (ps : List String) (last : String) (index : Nat) (s : Scan) :
    rest index (ps ++ [last]) s = ((rest index ps s).field (index + ps.length)).part last.toList := by
  induction ps generalizing index s with
  | nil => rfl
  | cons p ps ih =>
    rw [List.cons_append, rest, ih, rest, List.length_cons, Nat.add_assoc, Nat.add_comm 1]

/-- The last part is read after the field before it. -/
theorem parts_concat {ps : List String} (h : ps ≠ []) (last : String) (s : Scan) :
    parts (ps ++ [last]) s = ((parts ps s).field (ps.length - 1)).part last.toList := by
  cases ps with
  | nil => exact absurd rfl h
  | cons p ps =>
    rw [List.cons_append, parts, rest_concat, Nat.zero_add, parts, List.length_cons, Nat.add_sub_cancel]

/-- The fields that are met are those of the gaps, but for those that the scanner passes over. -/
theorem fields_parts (ps : List String) : (parts ps {}).fields =
    (List.range (ps.length - 1)).filter fun index => !(parts (ps.take (index + 1)) {}).passesOver := by
  induction ps using List.reverseRecOn with
  | nil => rfl
  | append_singleton ps last ih =>
    by_cases hne : ps = []
    · subst hne
      exact fields_part wellNumbered_start last.toList
    · obtain ⟨count, hcount⟩ : ∃ count, ps.length = count + 1 :=
        Nat.exists_eq_succ_of_ne_zero (Nat.ne_of_gt (List.length_pos_of_ne_nil hne))
      have hbefore : ∀ index < count + 1, (ps ++ [last]).take (index + 1) = ps.take (index + 1) :=
        fun index hlt => List.take_append_of_le_length (hcount ▸ hlt)
      have hall : ps.take (count + 1) = ps := List.take_of_length_le (Nat.le_of_eq hcount)
      have hscan := wellNumbered_start.parts ps
      rw [parts_concat hne, fields_part (hscan.field _), fields_field, ih, List.length_append, hcount,
        List.length_singleton, Nat.add_sub_cancel, Nat.add_sub_cancel, List.range_succ,
        List.filter_append]
      refine congrArg₂ (· ++ ·) (List.filter_congr fun index hindex => ?_) ?_
      · rw [hbefore index (Nat.lt_succ_of_lt (List.mem_range.mp hindex))]
      · rw [List.filter_singleton, hbefore count (Nat.lt_succ_self count), hall]
        cases (parts ps {}).passesOver <;> rfl

end Scan

namespace Template

theorem fieldsMet_compile (parts : List String) : (compile parts).fieldsMet =
    (List.range (parts.length - 1)).filter fun index =>
      !(Scan.parts (parts.take (index + 1)) {}).passesOver := by
  have hfinish : (Scan.parts parts {}).finish.fields = (Scan.parts parts {}).fields :=
    (Scan.fields_closeAll _).trans (Scan.fields_commit _)
  have hclosed : (Scan.parts parts {}).finish.frames = [] := Scan.frames_closeAll _
  rw [← Scan.fields_parts, ← hfinish, Scan.fields, hclosed]
  rfl

end Template

/-! ## The arena -/

namespace Op

mutual

/-- Each field that is met stands in one of the blocks, as often as it is met. -/
theorem fields_perm : ∀ op : Op,
    (op.ownFields ++ op.blocks.flatMap fun row => row.2.flatMap ownFields).Perm op.fields
  | .tag _ | .set _ _ | .append _ _ | .child _ | .spread _ => by
    rw [fields_of_blocks rfl]
    exact .of_eq (List.append_nil _)
  | .element block body => by
    rw [fields_element]
    exact fieldsOfAll_perm body

theorem fieldsOfAll_perm : ∀ ops : List Op,
    (ops.flatMap ownFields ++ (blocksOfAll ops).flatMap fun row => row.2.flatMap ownFields).Perm
      (fieldsOfAll ops)
  | [] => .nil
  | op :: rest => by
    rw [List.flatMap_cons, blocksOfAll, List.flatMap_append, fieldsOfAll]
    refine List.Perm.trans ?_ ((fields_perm op).append (fieldsOfAll_perm rest))
    simp only [List.append_assoc]
    exact (List.perm_append_comm_assoc _ _ _).append_left _

end

end Op

theorem Block.fields_ofOps (ops : List Op) : (ofOps ops).fields = ops.flatMap Op.ownFields := by
  have hbare : ∀ op : Op, (Instruction.ofOp op).bare.ownFields = op.ownFields := by
    intro op
    cases op <;> rfl
  rw [fields, ofOps, List.flatMap_map]
  exact List.flatMap_congr fun op _ => hbare op

/-- The fields that the blocks of a template take are those that are met. -/
theorem Template.fields_layout (t : Template) : (t.layout.flatMap Block.fields).Perm t.fieldsMet := by
  have hblocks : t.layout.flatMap Block.fields =
      t.blocks.flatMap fun row => row.2.flatMap Op.ownFields := by
    rw [layout, List.flatMap_map]
    exact List.flatMap_congr fun row _ => Block.fields_ofOps row.2
  rw [hblocks]
  exact Op.fieldsOfAll_perm t.root

namespace Arena

mutual

/-- In an arena with enough fuel, the walk goes as in the tree. -/
theorem walk_laid {blocks : List Block} : ∀ (op : Op) (fuel : Nat), Op.LaidIn blocks fuel [op] →
    (Instruction.ofOp op).walk (walk blocks fuel) = some op.fields
  | .tag _, _, _ | .set _ _, _, _ | .append _ _, _, _ | .child _, _, _ | .spread _, _, _ => by
    rw [Op.fields_of_blocks rfl]
    rfl
  | .element block body, fuel, h => by
    obtain ⟨less, rfl, hblock, hbody⟩ := h.body
    rw [Instruction.ofOp, Instruction.walk, walk, hblock, Option.bind_some, Op.fields_element]
    exact walkAll_laid body less hbody

theorem walkAll_laid {blocks : List Block} : ∀ (ops : List Op) (fuel : Nat),
    Op.LaidIn blocks fuel ops →
      (Block.ofOps ops).walk (walk blocks fuel) = some (Op.fieldsOfAll ops)
  | [], _, _ => rfl
  | op :: rest, fuel, h => by
    have hop := walk_laid op fuel h.head
    have hrest := walkAll_laid rest fuel h.tail
    rw [Block.ofOps] at hrest
    rw [Block.ofOps, List.map_cons, Block.walk, hop, hrest]
    rfl

end

/-- The walk from the root through the blocks of a compiled template meets its fields. -/
theorem walk_layout (parts : List String) {fuel : Nat}
    (hfuel : (Template.compile parts).layout.length ≤ fuel) :
    walk (Template.compile parts).layout fuel 0 = some (Template.compile parts).fieldsMet := by
  obtain ⟨less, rfl, hroot, hlaid⟩ := (Setting.laidIn_layout parts hfuel).body
  rw [walk, hroot, Option.bind_some]
  exact walkAll_laid _ less hlaid

end Arena

/-! ## Values off a supply -/

namespace Setting

variable {σ : Type}

mutual

/-- Carry out one instruction, where a field takes the first value of a supply. An element that is kept
needs none of the values for it. -/
def runOff (s : Setting σ) : Op → Draft → Pass σ → List Value → Draft × Pass σ × List Value
  | .element block body, d, p, supply =>
    match p.folds.lookup block with
    | some value => (d.addChild value, p, supply.drop (Op.fieldsOfAll body).length)
    | none =>
      let (child, p, supply) := runAllOff s body .element p supply
      let (value, flags, host) :=
        s.factory ⟨s.template, block, child.flags⟩ child.tag child.props child.children p.host
      let p := { p with host }
      if flags.isStatic then
        (d.addChild value, if s.fold then p.keep block value else p, supply)
      else
        ((d.addChild value).markChildren true, p, supply)
  | op, d, p, supply =>
    let (d, p) := (s.given supply).run (op.renumber 0 fun _ => 0) d p
    (d, p, supply.drop op.ownFields.length)

/-- Carry out instructions in order, with the values off a supply. -/
def runAllOff (s : Setting σ) : List Op → Draft → Pass σ → List Value → Draft × Pass σ × List Value
  | [], d, p, supply => (d, p, supply)
  | op :: rest, d, p, supply =>
    let (d, p, supply) := runOff s op d p supply
    runAllOff s rest d p supply

end

/-- Evaluate a template with the values off a supply. What is left of it comes out too. -/
def evaluateOff (s : Setting σ) (t : Template) (supply : List Value) (folds : Folds) (host : σ) :
    Value × Pass σ × List Value :=
  let (d, p, supply) := runAllOff s t.root .root { folds, host } supply
  (ofRoots d.children, p, supply)

/-- The value of a field. -/
def fieldValue (s : Setting σ) (index : Nat) : Value := s.values.getD index .undefined

/-- An instruction that is no element takes one value if it takes a field, and none otherwise. -/
theorem runOff_own (s : Setting σ) {op : Op} (hop : op.blocks = []) (d : Draft) (p : Pass σ)
    (supply : List Value) :
    s.runOff op d p (op.ownFields.map s.fieldValue ++ supply) =
      ((s.run op d p).1, (s.run op d p).2, supply) := by
  cases op with
  | element block body => cases hop
  | tag operand | set _ operand | append _ operand | child operand =>
    cases operand <;> simp only [runOff] <;> rfl
  | spread index =>
    simp only [runOff]
    rfl

mutual

/-- With the values of the fields that are met ahead of it, the supply loses just these. -/
theorem runOff_eq (s : Setting σ) : ∀ (op : Op) (d : Draft) (p : Pass σ) (supply : List Value),
    s.runOff op d p (op.fields.map s.fieldValue ++ supply) =
      ((s.run op d p).1, (s.run op d p).2, supply)
  | .tag _, d, p, supply | .set _ _, d, p, supply | .append _ _, d, p, supply
  | .child _, d, p, supply | .spread _, d, p, supply => by
    rw [Op.fields_of_blocks rfl]
    exact s.runOff_own rfl d p supply
  | .element block body, d, p, supply => by
    rw [Op.fields_element]
    cases hl : p.folds.lookup block with
    | some value =>
      have hdrop : ((Op.fieldsOfAll body).map s.fieldValue ++ supply).drop
          (Op.fieldsOfAll body).length = supply := List.drop_left' (List.length_map _)
      simp only [runOff, hl, run_element_kept s body d hl, hdrop]
    | none =>
      have hbody := runAllOff_eq s body .element p supply
      rw [runOff, run_element_built s body d hl, hl, hbody]
      by_cases hstatic : (s.build block body p).2.1.isStatic = true
      · rw [if_pos hstatic]
        exact if_pos hstatic
      · rw [if_neg hstatic]
        exact if_neg hstatic

theorem runAllOff_eq (s : Setting σ) : ∀ (ops : List Op) (d : Draft) (p : Pass σ)
    (supply : List Value),
    s.runAllOff ops d p ((Op.fieldsOfAll ops).map s.fieldValue ++ supply) =
      ((s.runAll ops d p).1, (s.runAll ops d p).2, supply)
  | [], _, _, _ => rfl
  | op :: rest, d, p, supply => by
    rw [Op.fieldsOfAll, List.map_append, List.append_assoc, runAllOff, runOff_eq s op, runAll]
    exact runAllOff_eq s rest _ _ supply

end

theorem evaluateOff_eq (s : Setting σ) (t : Template) (folds : Folds) (host : σ) :
    s.evaluateOff t (t.fieldsMet.map s.fieldValue) folds host =
      ((s.evaluate t folds host).1, (s.evaluate t folds host).2, []) := by
  have hrun := s.runAllOff_eq t.root .root { folds, host } []
  rw [List.append_nil] at hrun
  rw [evaluateOff, Template.fieldsMet, hrun]
  rfl

end Setting

/-- **Fields come in order.** Whatever the parts are, the walk from the root through the blocks, with each
reference expanded in place, meets fields in the order of the gaps, none outside them, and no field stands
in two instructions. A field is not met exactly if the scanner passes over it. And an evaluation comes to
the same if it takes its values off a supply of them in this order, of which nothing is left. -/
theorem Template.fields_inOrder (parts : List String) :
    let t := Template.compile parts
    t.fields = parts.length - 1 ∧
    (∃ blocks, Arena.compile parts = some blocks ∧
      (∀ fuel, blocks.length ≤ fuel → Arena.walk blocks fuel 0 = some t.fieldsMet) ∧
      ∀ index, (blocks.flatMap Block.fields).count index ≤ 1) ∧
    t.fieldsMet.Pairwise (· < ·) ∧ (∀ index ∈ t.fieldsMet, index < t.fields) ∧
    (∀ index < t.fields,
      index ∉ t.fieldsMet ↔ (Scan.parts (parts.take (index + 1)) {}).passesOver = true) ∧
    ∀ {σ : Type} (s : Setting σ) (folds : Folds) (host : σ),
      s.evaluateOff t (t.fieldsMet.map s.fieldValue) folds host =
        ((s.evaluate t folds host).1, (s.evaluate t folds host).2, []) := by
  intro t
  have hmet := fieldsMet_compile parts
  have hsublist : t.fieldsMet.Sublist (List.range t.fields) := hmet ▸ List.filter_sublist
  have hincreasing : t.fieldsMet.Pairwise (· < ·) := List.pairwise_lt_range.sublist hsublist
  refine ⟨rfl, ⟨t.layout, Arena.compile_eq_layout parts, fun fuel hfuel => Arena.walk_layout parts hfuel,
    fun index => ?_⟩, hincreasing, fun index hindex => List.mem_range.mp (hsublist.subset hindex),
    fun index hindex => ?_, fun s folds host => s.evaluateOff_eq t folds host⟩
  · rw [t.fields_layout.count_eq]
    exact List.nodup_iff_count_le_one.mp (hincreasing.imp Nat.ne_of_lt) index
  · have hrange : index ∈ List.range (parts.length - 1) := List.mem_range.mpr hindex
    have hmem : index ∈ t.fieldsMet ↔ (!(Scan.parts (parts.take (index + 1)) {}).passesOver) = true := by
      rw [show t.fieldsMet = _ from hmet, List.mem_filter]
      exact and_iff_right hrange
    rw [hmem, Bool.not_eq_true', Bool.not_eq_false]

/-- A field in each place: as a tag, in a value, after three dots, among attributes, in a comment, among
children, in a closing tag, and at the root. -/
def Template.everywhere : List String :=
  ["<", " title=\"x", "y\" ...", " b", "><!--", "--><i>", "</i></", ">", ""]

/-- Three of the eight are passed over. -/
theorem Template.fields_inOrder_everywhere :
    let t := Template.compile everywhere
    let s : Setting Bench := ⟨1, Factory.element, true, [.str "p", .str "u", .null, .str "q"]⟩
    t.fields = 8 ∧ t.fieldsMet = [0, 1, 2, 5, 7] ∧
      (∃ blocks, Arena.compile everywhere = some blocks ∧ blocks.length ≤ 3 ∧
        Arena.walk blocks 3 0 = some [0, 1, 2, 5, 7]) ∧
      (7 ∈ t.fieldsMet ∧ 7 < t.fields) ∧
      (4 < t.fields ∧ 4 ∉ t.fieldsMet ∧ (Scan.parts (everywhere.take 5) {}).passesOver = true) ∧
      s.evaluateOff t [.str "p", .str "u", .null, .undefined, .undefined] [] {} =
        ((s.evaluate t [] {}).1, (s.evaluate t [] {}).2, []) := by
  intro t s
  have hmet : t.fieldsMet = [0, 1, 2, 5, 7] := by cbv
  have hlength : t.layout.length ≤ 3 := by
    rw [Template.layout, List.length_map]
    exact of_decide_eq_true (by cbv)
  obtain ⟨hfields, ⟨blocks, hblocks, hwalk, -⟩, -, hrange, habsent, heval⟩ := fields_inOrder everywhere
  have hlayout : blocks = t.layout :=
    Option.some.inj (hblocks.symm.trans (Arena.compile_eq_layout everywhere))
  have hlast : 7 ∈ t.fieldsMet := by simp [hmet]
  have hnone : 4 ∉ t.fieldsMet := by simp [hmet]
  have hcomment : 4 < t.fields := hfields ▸ (by decide)
  have hsupply := heval s [] {}
  rw [show (Template.compile everywhere).fieldsMet = _ from hmet] at hsupply
  rw [hlayout] at hblocks hwalk
  exact ⟨hfields, hmet, ⟨t.layout, hblocks, hlength, hmet ▸ hwalk 3 hlength⟩,
    ⟨hlast, hrange 7 hlast⟩, ⟨hcomment, hnone, (habsent 4 hcomment).mp hnone⟩, hsupply⟩

end TaggedMarkup
