import TaggedMarkup.Proofs.Template.Renumbering
import TaggedMarkup.Proofs.Template.Staticness

/-!
# What is kept is final

Under the number of an element's block at most one value is ever kept, and it stays. Nothing is asked of a
factory here: it may be impure, change the flags as it likes, and be another one in every evaluation.

Everything follows from what one evaluation makes, given what was kept before it:

* the factory is called for the elements that are **due**, those that are not kept and stand in no element
  that is, in the order in which they close (`Setting.made_due`);
* what it makes and leaves without flags is kept, if the evaluation folds (`Setting.folds_runAll`);
* a draft has a seat for each of its children; in it stands what is kept for the child, or what has been
  made of it (`Setting.seat_kept`, `Setting.seat_made`), and only what is made can mark the draft
  (`Setting.marks_runAll`).

Each draft of an evaluation is made by a run of its block that starts with what was kept before the
evaluation, as far as that block is concerned (`Setting.exists_creation`), so that what is said of one run
holds of all drafts.
-/

namespace TaggedMarkup

variable {σ : Type}

namespace Op

/-! ## The order in which elements close -/

mutual

/-- The blocks of the elements in an instruction that are not kept, nor stand in one that is, in the order
in which they close: an element after those in it, and after those before it. -/
def due (folds : Folds) : Op → List (Nat × List Op)
  | element block body =>
    match folds.lookup block with
    | some _ => []
    | none => dueAll folds body ++ [(block, body)]
  | _ => []

/-- The blocks that are due in a list of instructions. -/
def dueAll (folds : Folds) : List Op → List (Nat × List Op)
  | [] => []
  | op :: rest => due folds op ++ dueAll folds rest

end

theorem due_of_blocks (folds : Folds) {op : Op} (h : op.blocks = []) : op.due folds = [] := by
  cases op with
  | element block body => cases h
  | _ => rw [due]; exact fun _ _ h => by cases h

mutual

theorem due_subperm (folds : Folds) : ∀ op : Op, (op.due folds).Subperm op.blocks
  | .tag _ | .set _ _ | .append _ _ | .child _ | .spread _ => by
    rw [due_of_blocks folds rfl]
    exact List.nil_subperm
  | .element block body => by
    rw [due]
    split
    · exact List.nil_subperm
    · have hbody := (List.subperm_cons (block, body)).mpr (dueAll_subperm folds body)
      exact (List.perm_append_singleton _ _).subperm.trans hbody

/-- Each element is due at most once. -/
theorem dueAll_subperm (folds : Folds) : ∀ ops : List Op, (dueAll folds ops).Subperm (blocksOfAll ops)
  | [] => List.nil_subperm
  | op :: rest => (due_subperm folds op).append (dueAll_subperm folds rest)

end

mutual

/-- Only what is kept for the elements themselves matters. -/
theorem due_congr {folds folds' : Folds} : ∀ op : Op,
    (∀ row ∈ op.blocks, folds'.lookup row.1 = folds.lookup row.1) → op.due folds' = op.due folds
  | .tag _, _ | .set _ _, _ | .append _ _, _ | .child _, _ | .spread _, _ => by
    rw [due_of_blocks folds rfl, due_of_blocks folds' rfl]
  | .element block body, h => by
    have hblock := h _ (List.mem_cons_self ..)
    rw [due, due, hblock, dueAll_congr body fun row hrow => h row (List.mem_cons_of_mem _ hrow)]

theorem dueAll_congr {folds folds' : Folds} : ∀ ops : List Op,
    (∀ row ∈ blocksOfAll ops, folds'.lookup row.1 = folds.lookup row.1) →
      dueAll folds' ops = dueAll folds ops
  | [], _ => rfl
  | op :: rest, h => by
    rw [dueAll, dueAll, due_congr op fun row hrow => h row (List.mem_append_left _ hrow),
      dueAll_congr rest fun row hrow => h row (List.mem_append_right _ hrow)]

end

/-- The block of an element is among the blocks. -/
theorem mem_blocksOfAll_of_mem {ops : List Op} {block : Nat} {body : List Op}
    (h : .element block body ∈ ops) : (block, body) ∈ blocksOfAll ops := by
  obtain ⟨before, after, rfl⟩ := List.append_of_mem h
  rw [blocksOfAll_append]
  exact List.mem_append_right _ (List.mem_cons_self ..)

mutual

/-- What is due is not kept. -/
theorem lookup_of_mem_due {folds : Folds} {row : Nat × List Op} : ∀ op : Op, row ∈ op.due folds →
    folds.lookup row.1 = none
  | .tag _, h | .set _ _, h | .append _ _, h | .child _, h | .spread _, h => by
    rw [due_of_blocks folds rfl] at h
    cases h
  | .element block body, h => by
    rw [due] at h
    cases hl : folds.lookup block with
    | some value =>
      rw [hl] at h
      cases h
    | none =>
      rw [hl] at h
      rcases List.mem_append.mp h with hbody | hlast
      · exact lookup_of_mem_dueAll body hbody
      · rw [List.mem_singleton.mp hlast]
        exact hl

theorem lookup_of_mem_dueAll {folds : Folds} {row : Nat × List Op} : ∀ ops : List Op,
    row ∈ dueAll folds ops → folds.lookup row.1 = none
  | [], h => by cases h
  | op :: rest, h => by
    rcases List.mem_append.mp h with hop | hrest
    · exact lookup_of_mem_due op hop
    · exact lookup_of_mem_dueAll rest hrest

end

mutual

/-- Neither an element that is kept nor one in it is due. -/
theorem notMem_due {folds : Folds} {block : Nat} {body : List Op} {value : Value}
    (hkept : folds.lookup block = some value) {row : Nat × List Op}
    (hnumber : row.1 ∈ block :: numbersOfAll body) : ∀ op : Op, (op.blocks.map (·.1)).Nodup →
    (block, body) ∈ op.blocks → row ∉ op.due folds
  | .tag _, _, h | .set _ _, _, h | .append _ _, _, h | .child _, _, h | .spread _, _, h => by cases h
  | .element outer inner, hnodup, h => by
    have hinner := List.nodup_cons.mp hnodup
    rw [due]
    cases hl : folds.lookup outer with
    | some _ => exact List.not_mem_nil
    | none =>
      rcases List.mem_cons.mp h with heq | hbelow
      · obtain ⟨rfl, -⟩ := Prod.mk.inj heq
        rw [hl] at hkept
        cases hkept
      · have hthere := ((sublist_blocksOfAll inner hbelow).map Prod.fst).subset hnumber
        intro hmem
        rcases List.mem_append.mp hmem with hdue | hlast
        · exact notMem_dueAll hkept hnumber inner hinner.2 hbelow hdue
        · obtain rfl := List.mem_singleton.mp hlast
          exact hinner.1 hthere

theorem notMem_dueAll {folds : Folds} {block : Nat} {body : List Op} {value : Value}
    (hkept : folds.lookup block = some value) {row : Nat × List Op}
    (hnumber : row.1 ∈ block :: numbersOfAll body) : ∀ ops : List Op, (numbersOfAll ops).Nodup →
    (block, body) ∈ blocksOfAll ops → row ∉ dueAll folds ops
  | [], _, h => by cases h
  | op :: rest, hnodup, h => by
    rw [numbersOfAll_cons, List.nodup_append] at hnodup
    intro hmem
    rcases List.mem_append.mp h with hop | hrest
    · have hhere := ((sublist_blocks op hop).map Prod.fst).subset hnumber
      rcases List.mem_append.mp hmem with hdue | hlater
      · exact notMem_due hkept hnumber op hnodup.1 hop hdue
      · have hafter := List.mem_map_of_mem (f := Prod.fst) ((dueAll_subperm folds rest).subset hlater)
        exact hnodup.2.2 _ hhere _ hafter rfl
    · have hthere := ((sublist_blocksOfAll rest hrest).map Prod.fst).subset hnumber
      rcases List.mem_append.mp hmem with hdue | hlater
      · have hbefore := List.mem_map_of_mem (f := Prod.fst) ((due_subperm folds op).subset hdue)
        exact hnodup.2.2 _ hbefore _ hthere rfl
      · exact notMem_dueAll hkept hnumber rest hnodup.2.1 hrest hlater

end

/-! ## Seats -/

/-- The number of children that instructions add. -/
def seats (ops : List Op) : Nat := ops.countP fun op =>
  match op with
  | child _ | element _ _ => true
  | _ => false

end Op

namespace Setting

/-! ## What is made -/

/-- Different elements have different numbers. -/
theorem ne_of_nodup {op : Op} {rest : List Op} (h : (Op.numbersOfAll (op :: rest)).Nodup) :
    (op.blocks.map (·.1)).Nodup ∧ (Op.numbersOfAll rest).Nodup ∧
      ∀ row ∈ op.blocks, ∀ other ∈ Op.blocksOfAll rest, row.1 ≠ other.1 := by
  rw [Op.numbersOfAll_cons, List.nodup_append] at h
  exact ⟨h.1, h.2.1, fun row hrow other hother =>
    h.2.2 _ (List.mem_map_of_mem hrow) _ (List.mem_map_of_mem hother)⟩

mutual

/-- What is made is what is due. -/
theorem made_due (s : Setting σ) : ∀ (op : Op) (p : Pass σ), (op.blocks.map (·.1)).Nodup →
    (s.made op p).map (·.block) = (op.due p.folds).map (·.1)
  | .tag _, _, _ | .set _ _, _, _ | .append _ _, _, _ | .child _, _, _ | .spread _, _, _ => by
    rw [made_of_blocks s rfl, Op.due_of_blocks _ rfl, List.map_nil, List.map_nil]
  | .element block body, p, hnodup => by
    rw [Op.due]
    cases hl : p.folds.lookup block with
    | some value =>
      rw [made_kept s body hl]
      rfl
    | none =>
      have hbody := madeAll_due s body .element p (List.nodup_cons.mp hnodup).2
      rw [made_built s body hl, List.map_append, List.map_append, hbody]
      rfl

theorem madeAll_due (s : Setting σ) : ∀ (ops : List Op) (d : Draft) (p : Pass σ),
    (Op.numbersOfAll ops).Nodup →
      (s.madeAll ops d p).map (·.block) = (Op.dueAll p.folds ops).map (·.1)
  | [], _, _, _ => rfl
  | op :: rest, d, p, hnodup => by
    obtain ⟨hop, hrest, hne⟩ := ne_of_nodup hnodup
    -- the rest does not see what is kept for the elements before it
    have hsame : ∀ row ∈ Op.blocksOfAll rest,
        (s.run op d p).2.folds.lookup row.1 = p.folds.lookup row.1 := fun row hrow =>
      lookup_run s op d p fun other hother => hne other hother row hrow
    rw [madeAll, List.map_append, made_due s op p hop, madeAll_due s rest _ _ hrest,
      Op.dueAll_congr rest hsame, Op.dueAll, List.map_append]

end

theorem madeAll_append (s : Setting σ) (ops more : List Op) (d : Draft) (p : Pass σ) :
    s.madeAll (ops ++ more) d p =
      s.madeAll ops d p ++ s.madeAll more (s.runAll ops d p).1 (s.runAll ops d p).2 := by
  induction ops generalizing d p with
  | nil => rfl
  | cons op rest ih => rw [List.cons_append, madeAll, ih, madeAll, runAll, List.append_assoc]

/-- No element is made twice. -/
theorem nodup_madeAll (s : Setting σ) {ops : List Op} (hnodup : (Op.numbersOfAll ops).Nodup) (d : Draft)
    (p : Pass σ) : ((s.madeAll ops d p).map (·.block)).Nodup := by
  rw [s.madeAll_due ops d p hnodup]
  obtain ⟨due, hperm, hsublist⟩ := Op.dueAll_subperm p.folds ops
  exact (hperm.map Prod.fst).nodup_iff.mp (hnodup.sublist (hsublist.map Prod.fst))

/-! ## One element that is made -/

/-- An evaluation keeps what has no flags, if it folds. -/
def keeps (s : Setting σ) (c : Creation) : Bool := s.fold && c.flags.isStatic

section Built

variable (s : Setting σ) {block : Nat} (body : List Op) (d : Draft) {p : Pass σ}

theorem children_built (h : p.folds.lookup block = none) :
    (s.run (.element block body) d p).1.children =
      d.children ++ [(s.creation block body p).value] := by
  rw [run_element_built s body d h]
  split <;> rfl

/-- An element marks the draft that it stands in exactly if the factory has left flags. -/
theorem flags_built (h : p.folds.lookup block = none) :
    (s.run (.element block body) d p).1.flags.children =
      (d.flags.children || !(s.creation block body p).flags.isStatic) := by
  rw [run_element_built s body d h]
  by_cases hstatic : (s.build block body p).2.1.isStatic = true
  · rw [if_pos hstatic]
    simp only [Draft.addChild, creation, hstatic, Bool.not_true, Bool.or_false]
  · rw [if_neg hstatic]
    simp only [Draft.markChildren, Draft.addChild, creation, hstatic, Bool.not_false, Bool.or_true]

theorem folds_built (h : p.folds.lookup block = none) :
    (s.run (.element block body) d p).2.folds =
      (([s.creation block body p].filter s.keeps).map fun c => (c.block, c.value)) ++
        (s.runAll body .element p).2.folds := by
  rw [run_element_built s body d h]
  by_cases hstatic : (s.build block body p).2.1.isStatic = true
  · cases hfold : s.fold <;>
      simp [hstatic, hfold, keeps, creation, Pass.keep, Creation.block, handover]
  · simp [hstatic, keeps, creation]

end Built

/-! ## What is kept afterwards -/

mutual

/-- What is kept afterwards is what was kept before and what has been made since to be kept. -/
theorem folds_run (s : Setting σ) : ∀ (op : Op) (d : Draft) (p : Pass σ),
    (s.run op d p).2.folds =
      (((s.made op p).filter s.keeps).map fun c => (c.block, c.value)).reverse ++ p.folds
  | .tag _, _, _ | .set _ _, _, _ | .append _ _, _, _ | .child _, _, _ => by
    rw [made_of_blocks s rfl]
    rfl
  | .spread index, _, p => by
    rw [made_of_blocks s rfl, run, Pass.folds_noteSpread]
    rfl
  | .element block body, d, p => by
    cases hl : p.folds.lookup block with
    | some value =>
      rw [made_kept s body hl, run_element_kept s body d hl]
      rfl
    | none =>
      have hlast : ((([s.creation block body p].filter s.keeps).map
          fun c => (c.block, c.value))).reverse =
          ([s.creation block body p].filter s.keeps).map fun c => (c.block, c.value) := by
        rw [List.filter_singleton]
        cases s.keeps (s.creation block body p) <;> rfl
      rw [folds_built s body d hl, folds_runAll s body .element p, made_built s body hl,
        List.filter_append, List.map_append, List.reverse_append, List.append_assoc, hlast]

theorem folds_runAll (s : Setting σ) : ∀ (ops : List Op) (d : Draft) (p : Pass σ),
    (s.runAll ops d p).2.folds =
      (((s.madeAll ops d p).filter s.keeps).map fun c => (c.block, c.value)).reverse ++ p.folds
  | [], _, _ => rfl
  | op :: rest, d, p => by
    rw [runAll, folds_runAll s rest, folds_run s op, madeAll, List.filter_append, List.map_append,
      List.reverse_append, List.append_assoc]

end

/-! ## Where a draft has which child -/

/-- A child takes the next seat. -/
theorem children_runAll (s : Setting σ) (ops : List Op) (d : Draft) (p : Pass σ) :
    ∃ built, (s.runAll ops d p).1.children = d.children ++ built ∧ built.length = Op.seats ops := by
  induction ops generalizing d p with
  | nil => exact ⟨[], (List.append_nil _).symm, rfl⟩
  | cons op rest ih =>
    obtain ⟨more, hmore, hlength⟩ := ih (s.run op d p).1 (s.run op d p).2
    have hop : ∃ first, (s.run op d p).1.children = d.children ++ first ∧
        first.length = Op.seats [op] := by
      cases op with
      | tag operand | set name operand | append name operand =>
        exact ⟨[], (List.append_nil _).symm, rfl⟩
      | spread index =>
        refine ⟨[], ?_, rfl⟩
        rw [run, List.append_nil]
        exact Draft.children_spreadProps _ _
      | child operand => exact ⟨[operand.value s.values], rfl, rfl⟩
      | element block body =>
        cases hl : p.folds.lookup block with
        | some value =>
          rw [run_element_kept s body d hl]
          exact ⟨[value], rfl, rfl⟩
        | none => exact ⟨_, children_built s body d hl, rfl⟩
    obtain ⟨first, hfirst, hone⟩ := hop
    refine ⟨first ++ more, ?_, ?_⟩
    · rw [runAll, hmore, hfirst, List.append_assoc]
    · rw [List.length_append, hlength, hone]
      exact (List.countP_append : ([op] ++ rest).countP _ = _).symm

/-- The child in the seat of an element is what the element comes to. -/
theorem getElem?_seat (s : Setting σ) {before after body : List Op} {block : Nat} (d : Draft)
    (p : Pass σ) {child : Value}
    (h : (s.run (.element block body) (s.runAll before d p).1 (s.runAll before d p).2).1.children =
      (s.runAll before d p).1.children ++ [child]) :
    (s.runAll (before ++ .element block body :: after) d p).1.children[d.children.length +
      Op.seats before]? = some child := by
  obtain ⟨first, hfirst, hlength⟩ := s.children_runAll before d p
  obtain ⟨rest, hrest, -⟩ := s.children_runAll after
    (s.run (.element block body) (s.runAll before d p).1 (s.runAll before d p).2).1
    (s.run (.element block body) (s.runAll before d p).1 (s.runAll before d p).2).2
  rw [runAll_append, runAll, hrest, h, hfirst, List.append_assoc, List.append_assoc, ← hlength,
    List.getElem?_append_right (Nat.le_add_right _ _), Nat.add_sub_cancel_left,
    List.getElem?_append_right (Nat.le_refl _), Nat.sub_self]
  rfl

section Seats

variable (s : Setting σ) {before after body : List Op} {block : Nat}
  (hnodup : (Op.numbersOfAll (before ++ .element block body :: after)).Nodup) (d : Draft) (p : Pass σ)

include hnodup

/-- The instructions before an element do not touch what is kept for it. -/
theorem lookup_before : (s.runAll before d p).2.folds.lookup block = p.folds.lookup block := by
  refine lookup_runAll s before d p fun row hrow heq => ?_
  rw [Op.numbersOfAll, Op.blocksOfAll_append, List.map_append, List.nodup_append] at hnodup
  exact hnodup.2.2 _ (List.mem_map_of_mem hrow) block (List.mem_cons_self ..) heq

/-- In the seat of an element that is kept stands what is kept. -/
theorem seat_kept {value : Value} (h : p.folds.lookup block = some value) :
    (s.runAll (before ++ .element block body :: after) d p).1.children[d.children.length +
      Op.seats before]? = some value := by
  refine s.getElem?_seat d p ?_
  rw [run_element_kept s body _ ((s.lookup_before hnodup d p).trans h)]
  rfl

/-- In the seat of an element that is not kept stands what is made of it. -/
theorem seat_made (h : p.folds.lookup block = none) :
    ∃ c ∈ s.madeAll (before ++ .element block body :: after) d p, c.block = block ∧
      (s.runAll (before ++ .element block body :: after) d p).1.children[d.children.length +
        Op.seats before]? = some c.value := by
  have hbefore := (s.lookup_before hnodup d p).trans h
  refine ⟨s.creation block body (s.runAll before d p).2, ?_, rfl,
    s.getElem?_seat d p (children_built s body _ hbefore)⟩
  rw [madeAll_append, madeAll, made_built s body hbefore]
  simp

end Seats

/-! ## What marks a draft -/

/-- What is made is an element of the instructions. -/
theorem block_of_mem_madeAll (s : Setting σ) {ops : List Op} (hnodup : (Op.numbersOfAll ops).Nodup)
    {d : Draft} {p : Pass σ} {c : Creation} (hc : c ∈ s.madeAll ops d p) :
    c.block ∈ Op.numbersOfAll ops := by
  have hmem := List.mem_map_of_mem (f := Creation.block) hc
  rw [s.madeAll_due ops d p hnodup] at hmem
  exact List.map_subset _ (Op.dueAll_subperm _ ops).subset hmem

theorem block_of_mem_made (s : Setting σ) {op : Op} (hnodup : (op.blocks.map (·.1)).Nodup)
    {p : Pass σ} {c : Creation} (hc : c ∈ s.made op p) : c.block ∈ op.blocks.map (·.1) := by
  have hmem := List.mem_map_of_mem (f := Creation.block) hc
  rw [s.made_due op p hnodup] at hmem
  exact List.map_subset _ (Op.due_subperm _ op).subset hmem

/-- One of these instructions is an element that the factory has made and left with flags. -/
def Marks (ops : List Op) (cs : List Creation) : Prop :=
  ∃ block body, .element block body ∈ ops ∧ ∃ c ∈ cs, c.block = block ∧ c.flags.isStatic = false

/-- A child is marked by a field, or by an element that was made and is not static. -/
theorem marks_run (s : Setting σ) (op : Op) (hnodup : (op.blocks.map (·.1)).Nodup) (d : Draft)
    (p : Pass σ) : (s.run op d p).1.flags.children = true ↔
      d.flags.children = true ∨ op.fillsChild = true ∨ Marks [op] (s.made op p) := by
  have hplain : op.blocks = [] → ¬ Marks [op] (s.made op p) := by
    rintro hnone ⟨block, body, hop, -⟩
    rw [← List.mem_singleton.mp hop] at hnone
    cases hnone
  cases op with
  | tag operand | set name operand | append name operand =>
    simp only [hplain rfl, Op.fillsChild, Bool.false_eq_true, or_false]
    rfl
  | spread index =>
    simp only [hplain rfl, Op.fillsChild, Bool.false_eq_true, or_false, run, Draft.markOwn,
      Draft.flags_spreadProps]
  | child operand =>
    simp only [hplain rfl, Op.fillsChild, or_false, run, Draft.markChildren, Draft.addChild,
      Bool.or_eq_true]
  | element block body =>
    simp only [Op.fillsChild, Bool.false_eq_true, false_or]
    cases hl : p.folds.lookup block with
    | some value =>
      rw [run_element_kept s body d hl, made_kept s body hl]
      refine ⟨.inl, fun h => h.resolve_right ?_⟩
      rintro ⟨_, _, _, _, hc, _⟩
      cases hc
    | none =>
      rw [flags_built s body d hl, made_built s body hl, Bool.or_eq_true, Bool.not_eq_true']
      refine or_congr_right ⟨fun hflags => ?_, ?_⟩
      · refine ⟨block, body, List.mem_singleton_self _, _, ?_, rfl, hflags⟩
        exact List.mem_append_right _ (List.mem_singleton_self _)
      · rintro ⟨other, inner, hop, c, hc, hblock, hflags⟩
        obtain ⟨rfl, -⟩ := Op.element.inj (List.mem_singleton.mp hop)
        rcases List.mem_append.mp hc with hbelow | hlast
        · -- no element in the body has the number of the element itself
          have hmem := s.block_of_mem_madeAll (List.nodup_cons.mp hnodup).2 hbelow
          exact absurd (hblock ▸ hmem) (List.nodup_cons.mp hnodup).1
        · rw [List.mem_singleton.mp hlast] at hflags
          exact hflags

theorem marks_runAll (s : Setting σ) (ops : List Op) (hnodup : (Op.numbersOfAll ops).Nodup)
    (d : Draft) (p : Pass σ) : (s.runAll ops d p).1.flags.children = true ↔
      d.flags.children = true ∨ ops.any Op.fillsChild = true ∨ Marks ops (s.madeAll ops d p) := by
  induction ops generalizing d p with
  | nil =>
    refine ⟨.inl, fun h => h.resolve_right ?_⟩
    rintro (hany | ⟨_, _, hop, _⟩)
    · cases hany
    · cases hop
  | cons op rest ih =>
    obtain ⟨hop, hrest, hne⟩ := ne_of_nodup hnodup
    have hsplit : Marks (op :: rest) (s.madeAll (op :: rest) d p) ↔
        Marks [op] (s.made op p) ∨
          Marks rest (s.madeAll rest (s.run op d p).1 (s.run op d p).2) := by
      constructor
      · rintro ⟨block, body, hmem, c, hc, rfl, hflags⟩
        rcases List.mem_cons.mp hmem with rfl | hmem
        · rcases List.mem_append.mp hc with hc | hc
          · exact .inl ⟨_, body, List.mem_singleton_self _, c, hc, rfl, hflags⟩
          · obtain ⟨row, hrow, heq⟩ := List.mem_map.mp (s.block_of_mem_madeAll hrest hc)
            exact absurd heq.symm (hne _ (List.mem_cons_self ..) row hrow)
        · rcases List.mem_append.mp hc with hc | hc
          · obtain ⟨row, hrow, heq⟩ := List.mem_map.mp (s.block_of_mem_made hop hc)
            exact absurd heq (hne row hrow _ (Op.mem_blocksOfAll_of_mem hmem))
          · exact .inr ⟨_, body, hmem, c, hc, rfl, hflags⟩
      · rintro (⟨block, body, hmem, c, hc, hblock, hflags⟩ | ⟨block, body, hmem, c, hc, hblock, hflags⟩)
        · refine ⟨block, body, ?_, c, List.mem_append_left _ hc, hblock, hflags⟩
          exact List.mem_cons.mpr (.inl (List.mem_singleton.mp hmem))
        · exact ⟨block, body, List.mem_cons_of_mem _ hmem, c, List.mem_append_right _ hc, hblock,
            hflags⟩
    rw [runAll, ih hrest, s.marks_run op hop, hsplit, List.any_cons, Bool.or_eq_true]
    tauto

/-! ## Where a creation comes from -/

mutual

theorem exists_creation_of_made (s : Setting σ) : ∀ (op : Op) {p : Pass σ},
    (op.blocks.map (·.1)).Nodup → ∀ c ∈ s.made op p, ∃ body q, (c.block, body) ∈ op.blocks ∧
      c = s.creation c.block body q ∧
      (∀ row ∈ Op.blocksOfAll body, q.folds.lookup row.1 = p.folds.lookup row.1) ∧
      (s.madeAll body .element q).Sublist (s.made op p)
  | .tag _, _, _, c, hc | .set _ _, _, _, c, hc | .append _ _, _, _, c, hc | .child _, _, _, c, hc
  | .spread _, _, _, c, hc => by
    rw [made_of_blocks s rfl] at hc
    cases hc
  | .element block body, p, hnodup, c, hc => by
    cases hl : p.folds.lookup block with
    | some value =>
      rw [made_kept s body hl] at hc
      cases hc
    | none =>
      rw [made_built s body hl] at hc ⊢
      rcases List.mem_append.mp hc with hc | hc
      · obtain ⟨inner, q, hmem, heq, hsame, hsublist⟩ :=
          exists_creation s body (List.nodup_cons.mp hnodup).2 c hc
        exact ⟨inner, q, List.mem_cons_of_mem _ hmem, heq, hsame,
          hsublist.trans (List.sublist_append_left _ _)⟩
      · rw [List.mem_singleton.mp hc]
        exact ⟨body, p, List.mem_cons_self .., rfl, fun _ _ => rfl, List.sublist_append_left _ _⟩

/-- Whatever is made is made by a run of its block, with what was kept at the start for the elements in
it, and what this run makes is made. -/
theorem exists_creation (s : Setting σ) : ∀ (ops : List Op) {d : Draft} {p : Pass σ},
    (Op.numbersOfAll ops).Nodup → ∀ c ∈ s.madeAll ops d p, ∃ body q,
      (c.block, body) ∈ Op.blocksOfAll ops ∧ c = s.creation c.block body q ∧
      (∀ row ∈ Op.blocksOfAll body, q.folds.lookup row.1 = p.folds.lookup row.1) ∧
      (s.madeAll body .element q).Sublist (s.madeAll ops d p)
  | [], _, _, _, c, hc => by cases hc
  | op :: rest, d, p, hnodup, c, hc => by
    obtain ⟨hop, hrest, hne⟩ := ne_of_nodup hnodup
    rcases List.mem_append.mp hc with hc | hc
    · obtain ⟨body, q, hmem, heq, hsame, hsublist⟩ := exists_creation_of_made s op hop c hc
      exact ⟨body, q, List.mem_append_left _ hmem, heq, hsame,
        hsublist.trans (List.sublist_append_left _ _)⟩
    · obtain ⟨body, q, hmem, heq, hsame, hsublist⟩ := exists_creation s rest hrest c hc
      refine ⟨body, q, List.mem_append_right _ hmem, heq, fun row hrow => ?_,
        hsublist.trans (List.sublist_append_right _ _)⟩
      rw [hsame row hrow]
      exact lookup_run s op d p fun other hother =>
        hne other hother row (Op.blocksOfAll_subset_blocksOfAll hmem hrow)

end

/-! ## The drafts of an evaluation -/

section Evaluation

variable (s : Setting σ) (t : Template) (folds : Folds) (host : σ)

/-- The draft of the root at the end of an evaluation. -/
def rootDraft : Draft := (s.runAll t.root .root { folds, host }).1

/-- The drafts that an evaluation puts together, with the numbers of their blocks: that of the root, and one
for each call of the factory. -/
def drafts : List (Nat × Draft) :=
  (0, s.rootDraft t folds host) :: (s.creations t folds host).map fun c => (c.block, c.draft)

variable {t folds host}

/-- Every draft is made by a run of its block from an empty start, with what was kept at first for the
elements in it, and what this run makes the evaluation makes. -/
theorem exists_run_of_mem_drafts (hnodup : (t.blocks.map (·.1)).Nodup) {number : Nat} {draft : Draft}
    (hdraft : (number, draft) ∈ s.drafts t folds host) {body : List Op}
    (hbody : (number, body) ∈ t.blocks) :
    ∃ d q, draft = (s.runAll body d q).1 ∧ d.children = [] ∧ d.flags.children = false ∧
      (∀ row ∈ Op.blocksOfAll body, q.folds.lookup row.1 = folds.lookup row.1) ∧
      (s.madeAll body d q).Sublist (s.creations t folds host) := by
  rw [creations_eq]
  rcases List.mem_cons.mp hdraft with heq | hmade
  · obtain ⟨rfl, rfl⟩ := Prod.mk.inj heq
    obtain rfl := body_unique hnodup hbody (List.mem_cons_self ..)
    exact ⟨.root, _, rfl, rfl, rfl, fun _ _ => rfl, List.Sublist.refl _⟩
  · obtain ⟨c, hc, heq⟩ := List.mem_map.mp hmade
    obtain ⟨rfl, rfl⟩ := Prod.mk.inj heq
    rw [creations_eq] at hc
    obtain ⟨inner, q, hmem, hcreation, hsame, hsublist⟩ :=
      s.exists_creation t.root (List.nodup_cons.mp hnodup).2 c hc
    obtain rfl := body_unique hnodup hbody (List.mem_cons_of_mem _ hmem)
    refine ⟨.element, q, ?_, rfl, rfl, hsame, hsublist⟩
    rw [hcreation]
    rfl

end Evaluation

/-! ## What an evaluation leaves -/

section Left

variable (s : Setting σ) {t : Template} (hnodup : (Op.numbersOfAll t.root).Nodup) (folds : Folds)
  (host : σ)

include hnodup

/-- The factory is called for what is due, once for each, in the order in which the elements close. -/
theorem creations_due :
    (s.creations t folds host).map (·.block) = (Op.dueAll folds t.root).map (·.1) := by
  rw [creations_eq]
  exact s.madeAll_due t.root _ _ hnodup

/-- No element is made twice. -/
theorem nodup_creations : ((s.creations t folds host).map (·.block)).Nodup := by
  rw [creations_eq]
  exact s.nodup_madeAll hnodup _ _

variable {s folds host}

/-- What is made is not kept yet. -/
theorem lookup_of_mem_creations {c : Creation} (hc : c ∈ s.creations t folds host) :
    folds.lookup c.block = none := by
  have hmem := List.mem_map_of_mem (f := Creation.block) hc
  rw [s.creations_due hnodup folds host] at hmem
  obtain ⟨row, hrow, heq⟩ := List.mem_map.mp hmem
  exact heq ▸ Op.lookup_of_mem_dueAll t.root hrow

omit hnodup in
/-- What is kept afterwards was kept before, or has been made to be kept. -/
theorem lookup_evaluate (block : Nat) : (s.evaluate t folds host).2.folds.lookup block =
    (((((s.creations t folds host).filter s.keeps).map fun c => (c.block, c.value)).reverse).lookup
      block).or (folds.lookup block) := by
  rw [creations_eq, ← List.lookup_append]
  exact congrArg (List.lookup block) (s.folds_runAll t.root .root { folds, host })

/-- What is kept stays as it is. -/
theorem lookup_evaluate_kept {block : Nat} {value : Value} (h : folds.lookup block = some value) :
    (s.evaluate t folds host).2.folds.lookup block = some value := by
  rw [lookup_evaluate, List.lookup_eq_none_iff.mpr, Option.none_or, h]
  intro entry hentry
  obtain ⟨c, hc, rfl⟩ := List.mem_map.mp (List.mem_reverse.mp hentry)
  have hnone := lookup_of_mem_creations hnodup (List.mem_filter.mp hc).1
  rw [bne_iff_ne]
  rintro rfl
  rw [h] at hnone
  cases hnone

/-- What has been made to be kept is kept. -/
theorem lookup_evaluate_made {c : Creation} (hc : c ∈ s.creations t folds host)
    (hkeeps : s.keeps c = true) :
    (s.evaluate t folds host).2.folds.lookup c.block = some c.value := by
  have hmem : (c.block, c.value) ∈ (((s.creations t folds host).filter s.keeps).map
      fun c => (c.block, c.value)).reverse :=
    List.mem_reverse.mpr (List.mem_map.mpr ⟨c, List.mem_filter.mpr ⟨hc, hkeeps⟩, rfl⟩)
  rw [lookup_evaluate]
  cases hl : ((((s.creations t folds host).filter s.keeps).map
      fun c => (c.block, c.value)).reverse).lookup c.block with
  | none =>
    have hne := List.lookup_eq_none_iff.mp hl _ hmem
    rw [bne_self_eq_false] at hne
    cases hne
  | some value =>
    -- the entry that is found is that of a creation with the same number, so of this one
    obtain ⟨first, later, heq, -⟩ := List.lookup_eq_some_iff.mp hl
    have hfound := heq ▸ List.mem_append_right first (List.mem_cons_self ..)
    obtain ⟨other, hother, hentry⟩ := List.mem_map.mp (List.mem_reverse.mp hfound)
    obtain ⟨hblock, rfl⟩ := Prod.mk.inj hentry
    rw [List.inj_on_of_nodup_map (s.nodup_creations hnodup folds host) (List.mem_filter.mp hother).1 hc
      hblock]
    rfl

omit hnodup in
/-- What is kept afterwards and was not before has been made to be kept. -/
theorem exists_creation_of_lookup {block : Nat} {value : Value} (hnone : folds.lookup block = none)
    (h : (s.evaluate t folds host).2.folds.lookup block = some value) :
    ∃ c ∈ s.creations t folds host, s.keeps c = true ∧ c.block = block ∧ c.value = value := by
  rw [lookup_evaluate, hnone, Option.or_none] at h
  obtain ⟨first, later, heq, -⟩ := List.lookup_eq_some_iff.mp h
  have hfound := heq ▸ List.mem_append_right first (List.mem_cons_self ..)
  obtain ⟨c, hc, hentry⟩ := List.mem_map.mp (List.mem_reverse.mp hfound)
  obtain ⟨hblock, hvalue⟩ := Prod.mk.inj hentry
  obtain ⟨hmem, hkeeps⟩ := List.mem_filter.mp hc
  exact ⟨c, hmem, hkeeps, hblock, hvalue⟩

end Left

/-- How an evaluation goes about the elements of a template for which `folds` has been kept. -/
structure GoesBy (s : Setting σ) (t : Template) (folds : Folds) (host : σ) : Prop where
  /-- the result is made of the children of the root -/
  result : (s.evaluate t folds host).1 = ofRoots (s.rootDraft t folds host).children
  /-- what is kept stays as it is -/
  final : ∀ block value, folds.lookup block = some value →
    (s.evaluate t folds host).2.folds.lookup block = some value
  /-- what is kept from now on has been made and left without flags, by an evaluation that folds -/
  filled : ∀ block value, folds.lookup block = none →
    (s.evaluate t folds host).2.folds.lookup block = some value →
      s.fold = true ∧ ∃ c ∈ s.creations t folds host,
        c.block = block ∧ c.value = value ∧ c.flags.isStatic = true
  /-- the factory is not called for an element that is kept, nor for one in it -/
  spared : ∀ block body value, (block, body) ∈ Op.blocksOfAll t.root →
    folds.lookup block = some value →
      ∀ c ∈ s.creations t folds host, c.block ∉ block :: Op.numbersOfAll body
  /-- a value that is kept stands in the place of its element in every draft -/
  reused : ∀ number draft, (number, draft) ∈ s.drafts t folds host →
    ∀ before block body after, (number, before ++ .element block body :: after) ∈ t.blocks →
      ∀ value, folds.lookup block = some value →
        draft.children[Op.seats before]? = some value
  /-- for an element that is not kept and stands in a draft, the factory is called once; what it makes
  stands there, and is kept if the evaluation folds and no flags are left -/
  made : ∀ number draft, (number, draft) ∈ s.drafts t folds host →
    ∀ before block body after, (number, before ++ .element block body :: after) ∈ t.blocks →
      folds.lookup block = none →
        ∃ c, (s.creations t folds host).filter (fun c => c.block == block) = [c] ∧
          draft.children[Op.seats before]? = some c.value ∧
          (s.fold = true → c.flags.isStatic = true →
            (s.evaluate t folds host).2.folds.lookup block = some c.value)
  /-- a draft is marked by a field among its children, or by an element in it that the factory has made
  and left with flags -/
  marked : ∀ number draft, (number, draft) ∈ s.drafts t folds host →
    ∀ body, (number, body) ∈ t.blocks →
      (draft.flags.children = true ↔
        body.any Op.fillsChild = true ∨ Marks body (s.creations t folds host))

/-- In a template in which no number stands for two blocks, every evaluation goes by what is kept. -/
theorem goesBy (s : Setting σ) {t : Template} (hnodup : (t.blocks.map (·.1)).Nodup) (folds : Folds)
    (host : σ) : s.GoesBy t folds host := by
  have hroot : (Op.numbersOfAll t.root).Nodup := (List.nodup_cons.mp hnodup).2
  have hinj := List.inj_on_of_nodup_map (s.nodup_creations hroot folds host)
  have hblock : ∀ {number : Nat} {body : List Op}, (number, body) ∈ t.blocks →
      (Op.numbersOfAll body).Nodup ∧ Op.blocksOfAll body ⊆ Op.blocksOfAll t.root := by
    intro number body hmem
    rcases List.mem_cons.mp hmem with heq | hbelow
    · obtain ⟨-, rfl⟩ := Prod.mk.inj heq
      exact ⟨hroot, List.Subset.refl _⟩
    · have hsublist := (Op.sublist_blocksOfAll t.root hbelow).map Prod.fst
      exact ⟨(List.nodup_cons.mp (hroot.sublist hsublist)).2, Op.blocksOfAll_subset_blocksOfAll hbelow⟩
  constructor
  case result => rfl
  case final => exact fun _ _ h => lookup_evaluate_kept hroot h
  case filled =>
    intro block value hnone hsome
    obtain ⟨c, hc, hkeeps, hnumber, hvalue⟩ := exists_creation_of_lookup hnone hsome
    obtain ⟨hfold, hstatic⟩ := Bool.and_eq_true_iff.mp hkeeps
    exact ⟨hfold, c, hc, hnumber, hvalue, hstatic⟩
  case spared =>
    intro block body value hmem hkept c hc hnumber
    have hdue := List.mem_map_of_mem (f := Creation.block) hc
    rw [s.creations_due hroot folds host] at hdue
    obtain ⟨row, hrow, heq⟩ := List.mem_map.mp hdue
    exact Op.notMem_dueAll hkept (heq ▸ hnumber) t.root hroot hmem hrow
  case reused =>
    intro number draft hdraft before block body after hmem value hkept
    obtain ⟨d, q, rfl, hempty, -, hsame, -⟩ := s.exists_run_of_mem_drafts hnodup hdraft hmem
    have hrow : (block, body) ∈ Op.blocksOfAll (before ++ .element block body :: after) :=
      Op.mem_blocksOfAll_of_mem (List.mem_append_right _ (List.mem_cons_self ..))
    have hseat := s.seat_kept (hblock hmem).1 d q ((hsame _ hrow).trans hkept)
    rwa [hempty, List.length_nil, Nat.zero_add] at hseat
  case made =>
    intro number draft hdraft before block body after hmem hnone
    obtain ⟨d, q, rfl, hempty, -, hsame, hsublist⟩ := s.exists_run_of_mem_drafts hnodup hdraft hmem
    have hrow : (block, body) ∈ Op.blocksOfAll (before ++ .element block body :: after) :=
      Op.mem_blocksOfAll_of_mem (List.mem_append_right _ (List.mem_cons_self ..))
    obtain ⟨c, hc, rfl, hseat⟩ := s.seat_made (hblock hmem).1 d q ((hsame _ hrow).trans hnone)
    rw [hempty, List.length_nil, Nat.zero_add] at hseat
    have hcreated := hsublist.subset hc
    refine ⟨c, ?_, hseat, fun hfold hstatic =>
      lookup_evaluate_made hroot hcreated (Bool.and_eq_true_iff.mpr ⟨hfold, hstatic⟩)⟩
    have hmade : (s.creations t folds host).Nodup :=
      List.Nodup.of_map _ (s.nodup_creations hroot folds host)
    refine List.perm_singleton.mp
      ((List.perm_ext_iff_of_nodup (hmade.filter _) (List.nodup_singleton c)).mpr fun other => ?_)
    rw [List.mem_filter, List.mem_singleton, beq_iff_eq]
    exact ⟨fun h => hinj h.1 hcreated h.2, by rintro rfl; exact ⟨hcreated, rfl⟩⟩
  case marked =>
    intro number draft hdraft body hmem
    obtain ⟨d, q, rfl, -, hclear, hsame, hsublist⟩ := s.exists_run_of_mem_drafts hnodup hdraft hmem
    have hmarks := s.marks_runAll body (hblock hmem).1 d q
    rw [hclear] at hmarks
    have hmade : Marks body (s.madeAll body d q) ↔ Marks body (s.creations t folds host) := by
      constructor
      · rintro ⟨block, inner, hop, c, hc, hnumber, hflags⟩
        exact ⟨block, inner, hop, c, hsublist.subset hc, hnumber, hflags⟩
      · rintro ⟨_, inner, hop, c, hc, rfl, hflags⟩
        -- the run makes the element itself, and it is made only once
        have hnone := lookup_of_mem_creations hroot hc
        rw [← hsame _ (Op.mem_blocksOfAll_of_mem hop)] at hnone
        obtain ⟨before, after, rfl⟩ := List.append_of_mem hop
        obtain ⟨other, hother, hnumber, -⟩ := s.seat_made (hblock hmem).1 d q hnone
        obtain rfl := hinj (hsublist.subset hother) hc hnumber
        exact ⟨_, inner, hop, other, hother, rfl, hflags⟩
    rw [hmarks, hmade]
    simp only [Bool.false_eq_true, false_or]

end Setting

namespace Template

/-- What is kept in a template, and the state of the host, after evaluations one after the other. -/
def keptAfter (t : Template) : List (Setting σ) → Folds → σ → Folds × σ
  | [], folds, host => (folds, host)
  | s :: later, folds, host =>
    keptAfter t later (s.evaluate t folds host).2.folds (s.evaluate t folds host).2.host

/-- What is kept is final: it stays as it is in every later evaluation. -/
theorem lookup_keptAfter {t : Template} (hnodup : (Op.numbersOfAll t.root).Nodup)
    (later : List (Setting σ)) {folds : Folds} (host : σ) {block : Nat} {value : Value}
    (h : folds.lookup block = some value) :
    (t.keptAfter later folds host).1.lookup block = some value := by
  induction later generalizing folds host with
  | nil => exact h
  | cons s later ih => exact ih _ (Setting.lookup_evaluate_kept hnodup h)

/-- **Fold cells are written once.** Whatever evaluations there have been of a compiled template, with any
values and any factories, folding or not: what is kept for an element stays the same from then on, and the
next evaluation goes by it. -/
theorem kept_final (parts : List String) (past later : List (Setting σ)) (s : Setting σ) (host : σ) :
    let t := Template.compile parts
    let kept := t.keptAfter past [] host
    (∀ block value, kept.1.lookup block = some value →
      (t.keptAfter later kept.1 kept.2).1.lookup block = some value) ∧
    s.GoesBy t kept.1 kept.2 := by
  intro t kept
  have hnodup : (t.blocks.map (·.1)).Nodup := numbers_compile parts ▸ List.nodup_range
  exact ⟨fun _ _ h => lookup_keptAfter (List.nodup_cons.mp hnodup).2 later _ h,
    s.goesBy hnodup kept.1 kept.2⟩

/-- A bold word that is given, and a break, which the template marks as static. -/
def notice : List String := ["<p><b title=", " @static>x</b><br id=", " /></p>"]

/-- The factory that obeys marks makes the bold word static in spite of its field. The first evaluation
keeps it; the second one, by another factory and with other values, uses it again and makes the rest. -/
theorem kept_final_notice :
    let t := Template.compile notice
    let first : Setting Bench := ⟨1, Factory.recording .marks, true, [.str "a", .str "b"]⟩
    let second : Setting Bench := ⟨1, Factory.recording .dynamic, true, [.null, .str "c"]⟩
    let kept := t.keptAfter [first] [] {}
    ∃ value, kept.1.lookup 2 = some value ∧
      (t.keptAfter [second, first] kept.1 kept.2).1.lookup 2 = some value ∧
      (second.creations t kept.1 kept.2).map (·.block) = [3, 1] ∧
      (∀ c ∈ second.creations t kept.1 kept.2, c.block ≠ 2) ∧
      ∀ draft, (1, draft) ∈ second.drafts t kept.1 kept.2 → draft.children[0]? = some value := by
  intro t first second kept
  obtain ⟨hfinal, hgoes⟩ := kept_final notice [first] [second, first] second {}
  have hsome : (kept.1.lookup 2).isSome = true := by cbv
  obtain ⟨value, hvalue⟩ := Option.isSome_iff_exists.mp hsome
  obtain ⟨bold, line, hblocks⟩ : ∃ bold line, Op.blocksOfAll t.root =
      [(1, [.tag (.fixed (.str "p"))] ++ .element 2 bold :: [.element 3 line]), (2, bold),
        (3, line)] := by
    refine ⟨[.tag (.fixed (.str "b")), .set "title" (.field 0), .set "@static" (.fixed (.bool true)),
      .child (.fixed (.str "x"))], [.tag (.fixed (.str "br")), .set "id" (.field 1)], ?_⟩
    cbv
  have hbold : (2, bold) ∈ Op.blocksOfAll t.root := by simp [hblocks]
  have hmade : (second.creations t kept.1 kept.2).map (·.block) = [3, 1] := by cbv
  refine ⟨value, hvalue, hfinal 2 value hvalue, hmade, fun c hc hblock => ?_, fun draft hdraft => ?_⟩
  · exact hgoes.spared 2 bold value hbold hvalue c hc (hblock ▸ List.mem_cons_self ..)
  · refine hgoes.reused 1 draft hdraft [.tag (.fixed (.str "p"))] 2 bold [.element 3 line] ?_ value hvalue
    exact List.mem_cons_of_mem _ (hblocks ▸ List.mem_cons_self ..)

end Template

end TaggedMarkup
