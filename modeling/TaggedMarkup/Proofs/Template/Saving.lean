import TaggedMarkup.Proofs.Template.Keeping

/-!
# Folding saves the static work

Let factories leave the flags alone, and let every evaluation of a template fold. The first one calls the
factory for every element, in the order in which the elements close (`Op.closedAll`); every later one calls
it for the elements with a field in them or below, and for no other.

What carries this is that after the first evaluation, and then ever after, exactly the elements without a
field are kept (`Template.KeepsExactly`): the flags that a factory finds and leaves are those of the
instructions (`Setting.flags_runAll`), so the elements that are due decide what will be kept
(`Setting.madeAll_flags`).

For the element factory we follow the kept values into the results. Where an element stands in a value is
said by the instructions (`Template.Stands`), and a kept value has in it what is kept for the elements below
(`Template.Shares`), so an element without a field is one and the same in all results.
-/

namespace TaggedMarkup

variable {σ : Type}

namespace Op

/-! ## All elements, in the order in which they close -/

mutual

/-- The blocks of all elements in an instruction, those in an element before it. -/
def closed : Op → List (Nat × List Op)
  | element block body => closedAll body ++ [(block, body)]
  | _ => []

/-- The blocks of all elements in a list of instructions, each after those in it. -/
def closedAll : List Op → List (Nat × List Op)
  | [] => []
  | op :: rest => closed op ++ closedAll rest

end

theorem closed_of_blocks {op : Op} (h : op.blocks = []) : op.closed = [] := by
  cases op with
  | element block body => cases h
  | _ => rw [closed]; exact fun _ _ h => by cases h

mutual

theorem closed_perm : ∀ op : Op, op.closed.Perm op.blocks
  | .tag _ | .set _ _ | .append _ _ | .child _ | .spread _ => by
    rw [closed_of_blocks rfl]
    exact .refl _
  | .element block body =>
    (List.perm_append_singleton _ _).trans ((closedAll_perm body).cons (block, body))

/-- In this order there are the same elements. -/
theorem closedAll_perm : ∀ ops : List Op, (closedAll ops).Perm (blocksOfAll ops)
  | [] => .refl _
  | op :: rest => (closed_perm op).append (closedAll_perm rest)

end

/-- No field occurs in the block, nor in one below. -/
def isFree (body : List Op) : Bool :=
  !holdsField body && !(blocksOfAll body).any fun row => holdsField row.2

/-- The elements without a field are those that depend on nothing. -/
theorem isFree_eq (body : List Op) : isFree body = (dependence body).isStatic := by
  rw [isStatic_dependence, Bool.not_or, isFree]

/-- What stands in an element without a field has none. -/
theorem isFree_of_mem {body : List Op} (h : isFree body = true) {row : Nat × List Op}
    (hrow : row ∈ blocksOfAll body) : isFree row.2 = true := by
  rw [isFree_eq] at h ⊢
  exact isStatic_of_mem h hrow

mutual

/-- Where just the elements without a field are kept, those with one are due. -/
theorem due_of_exact {folds : Folds} : ∀ op : Op,
    (∀ row ∈ op.blocks, (folds.lookup row.1).isSome = isFree row.2) →
      op.due folds = op.closed.filter fun row => !isFree row.2
  | .tag _, _ | .set _ _, _ | .append _ _, _ | .child _, _ | .spread _, _ => by
    rw [due_of_blocks folds rfl, closed_of_blocks rfl, List.filter_nil]
  | .element block body, h => by
    have hblock := h _ (List.mem_cons_self ..)
    have hbody := dueAll_of_exact body fun row hrow => h row (List.mem_cons_of_mem _ hrow)
    rw [due, closed, List.filter_append, List.filter_singleton, ← hblock]
    cases hl : folds.lookup block with
    | some value =>
      -- the whole element has no field
      rw [hl] at hblock
      have hnone : (closedAll body).filter (fun row => !isFree row.2) = [] := by
        refine List.filter_eq_nil_iff.mpr fun row hrow => ?_
        rw [isFree_of_mem hblock.symm ((closedAll_perm body).subset hrow)]
        exact Bool.false_ne_true
      rw [hnone]
      rfl
    | none =>
      rw [← hbody]
      rfl

theorem dueAll_of_exact {folds : Folds} : ∀ ops : List Op,
    (∀ row ∈ blocksOfAll ops, (folds.lookup row.1).isSome = isFree row.2) →
      dueAll folds ops = (closedAll ops).filter fun row => !isFree row.2
  | [], _ => rfl
  | op :: rest, h => by
    rw [dueAll, closedAll, List.filter_append,
      due_of_exact op fun row hrow => h row (List.mem_append_left _ hrow),
      dueAll_of_exact rest fun row hrow => h row (List.mem_append_right _ hrow)]

end

mutual

theorem due_nil : ∀ op : Op, op.due [] = op.closed
  | .tag _ | .set _ _ | .append _ _ | .child _ | .spread _ => by
    rw [due_of_blocks _ rfl, closed_of_blocks rfl]
  | .element block body => by
    rw [due, closed, ← dueAll_nil body, List.lookup_nil]

/-- At first every element is due. -/
theorem dueAll_nil : ∀ ops : List Op, dueAll [] ops = closedAll ops
  | [] => rfl
  | op :: rest => by rw [dueAll, closedAll, due_nil op, dueAll_nil rest]

end

end Op

/-- The block whose value was kept. -/
def Notice.folded? : Notice → Option Nat
  | ignoredSpread _ => none
  | folded block => some block

namespace Setting

/-- The evaluation folds, and its factory leaves the flags alone. -/
structure Saves (s : Setting σ) : Prop where
  fold : s.fold = true
  leaves : s.factory.LeavesFlags

/-! ## The flags of what is made -/

mutual

theorem flags_run {s : Setting σ} (hleaves : s.factory.LeavesFlags) : ∀ (op : Op) (d : Draft)
    (p : Pass σ), (op.blocks.map (·.1)).Nodup →
    (∀ row ∈ op.blocks, (p.folds.lookup row.1).isSome = true → Op.isFree row.2 = true) →
      (s.run op d p).1.flags = d.flags.join (Op.dependence [op])
  | .tag operand, d, p, _, _ => by
    rw [run, Draft.flags_markOwn]
    cases operand <;> rfl
  | .set name operand, d, p, _, _ => by
    rw [run, Draft.flags_markOwn]
    cases operand <;> rfl
  | .append name operand, d, p, _, _ => by
    rw [run, Draft.flags_markOwn]
    cases operand <;> rfl
  | .child operand, d, p, _, _ => by
    rw [run, Draft.flags_markChildren]
    cases operand <;> rfl
  | .spread index, d, p, _, _ => by
    rw [run, Draft.flags_markOwn, Draft.flags_spreadProps]
    rfl
  | .element block body, d, p, hnodup, hkept => by
    have hblock := hkept _ (List.mem_cons_self ..)
    rw [Op.isFree_eq] at hblock
    cases hl : p.folds.lookup block with
    | some value =>
      rw [hl] at hblock
      rw [run_element_kept s body d hl, Op.dependence_of_isStatic block (hblock rfl), Flags.join_none]
      rfl
    | none =>
      have hbody := flags_runAll hleaves body .element p (List.nodup_cons.mp hnodup).2
        fun row hrow => hkept row (List.mem_cons_of_mem _ hrow)
      rw [run_element_built s body d hl, flags_build hleaves, hbody]
      by_cases hstatic : (Op.dependence body).isStatic = true
      · rw [Op.dependence_of_isStatic block hstatic, Flags.join_none]
        exact congrArg (fun r : Draft × Pass σ => r.1.flags) (if_pos hstatic)
      · rw [Op.dependence_of_not_isStatic block hstatic, ← Draft.flags_markChildren]
        exact congrArg (fun r : Draft × Pass σ => r.1.flags) (if_neg hstatic)

/-- If factories leave the flags, and what is kept has no field, the flags are those of the
instructions. -/
theorem flags_runAll {s : Setting σ} (hleaves : s.factory.LeavesFlags) : ∀ (ops : List Op) (d : Draft)
    (p : Pass σ), (Op.numbersOfAll ops).Nodup →
    (∀ row ∈ Op.blocksOfAll ops, (p.folds.lookup row.1).isSome = true → Op.isFree row.2 = true) →
      (s.runAll ops d p).1.flags = d.flags.join (Op.dependence ops)
  | [], d, _, _, _ => (Flags.join_none _).symm
  | op :: rest, d, p, hnodup, hkept => by
    obtain ⟨hop, hrest, hne⟩ := ne_of_nodup hnodup
    have hsame : ∀ row ∈ Op.blocksOfAll rest,
        (s.run op d p).2.folds.lookup row.1 = p.folds.lookup row.1 := fun row hrow =>
      lookup_run s op d p fun other hother => hne other hother row hrow
    rw [runAll, Op.dependence_cons, ← Flags.join_assoc,
      ← flags_run hleaves op d p hop fun row hrow => hkept row (List.mem_append_left _ hrow)]
    refine flags_runAll hleaves rest _ _ hrest fun row hrow hsome => ?_
    rw [hsame row hrow] at hsome
    exact hkept row (List.mem_append_right _ hrow) hsome

end

mutual

theorem made_flags {s : Setting σ} (hleaves : s.factory.LeavesFlags) : ∀ (op : Op) (p : Pass σ),
    (op.blocks.map (·.1)).Nodup →
    (∀ row ∈ op.blocks, (p.folds.lookup row.1).isSome = true → Op.isFree row.2 = true) →
      (s.made op p).map (fun c => (c.block, c.flags)) =
        (op.due p.folds).map fun row => (row.1, Op.dependence row.2)
  | .tag _, _, _, _ | .set _ _, _, _, _ | .append _ _, _, _, _ | .child _, _, _, _
  | .spread _, _, _, _ => by
    rw [made_of_blocks s rfl, Op.due_of_blocks _ rfl]
    rfl
  | .element block body, p, hnodup, hkept => by
    have hinner := (List.nodup_cons.mp hnodup).2
    have hbelow : ∀ row ∈ Op.blocksOfAll body, (p.folds.lookup row.1).isSome = true →
        Op.isFree row.2 = true := fun row hrow => hkept row (List.mem_cons_of_mem _ hrow)
    rw [Op.due]
    cases hl : p.folds.lookup block with
    | some value =>
      rw [made_kept s body hl]
      rfl
    | none =>
      have hflags : (s.creation block body p).flags = Op.dependence body :=
        (flags_build hleaves block body p).trans
          (flags_runAll hleaves body .element p hinner hbelow)
      rw [made_built s body hl, List.map_append, madeAll_flags hleaves body _ p hinner hbelow,
        List.map_append, List.map_singleton, hflags]
      rfl

/-- What is made has the flags of the instructions. -/
theorem madeAll_flags {s : Setting σ} (hleaves : s.factory.LeavesFlags) : ∀ (ops : List Op)
    (d : Draft) (p : Pass σ), (Op.numbersOfAll ops).Nodup →
    (∀ row ∈ Op.blocksOfAll ops, (p.folds.lookup row.1).isSome = true → Op.isFree row.2 = true) →
      (s.madeAll ops d p).map (fun c => (c.block, c.flags)) =
        (Op.dueAll p.folds ops).map fun row => (row.1, Op.dependence row.2)
  | [], _, _, _, _ => rfl
  | op :: rest, d, p, hnodup, hkept => by
    obtain ⟨hop, hrest, hne⟩ := ne_of_nodup hnodup
    have hsame : ∀ row ∈ Op.blocksOfAll rest,
        (s.run op d p).2.folds.lookup row.1 = p.folds.lookup row.1 := fun row hrow =>
      lookup_run s op d p fun other hother => hne other hother row hrow
    have hlater : ∀ row ∈ Op.blocksOfAll rest,
        ((s.run op d p).2.folds.lookup row.1).isSome = true → Op.isFree row.2 = true := by
      intro row hrow hsome
      rw [hsame row hrow] at hsome
      exact hkept row (List.mem_append_right _ hrow) hsome
    rw [madeAll, List.map_append, made_flags hleaves op p hop fun row hrow =>
      hkept row (List.mem_append_left _ hrow), madeAll_flags hleaves rest _ _ hrest hlater,
      Op.dueAll_congr rest hsame, Op.dueAll, List.map_append]

end

/-! ## Reports of what is kept -/

/-- An element is reported if it is made to be kept. -/
theorem notices_built (s : Setting σ) {block : Nat} (body : List Op) (d : Draft) {p : Pass σ}
    (h : p.folds.lookup block = none) :
    (s.run (.element block body) d p).2.notices =
      (s.runAll body .element p).2.notices ++
        ([s.creation block body p].filter s.keeps).map fun c => .folded c.block := by
  have hbuild : (s.build block body p).2.2.notices = (s.runAll body .element p).2.notices := rfl
  rw [run_element_built s body d h]
  by_cases hstatic : (s.build block body p).2.1.isStatic = true
  · cases hfold : s.fold <;>
      simp [hstatic, hfold, hbuild, keeps, creation, Pass.keep, Creation.block, handover]
  · simp [hstatic, hbuild, keeps, creation]

theorem folded_noteSpread (p : Pass σ) (value : Value) :
    (p.noteSpread value).notices.filterMap Notice.folded? = p.notices.filterMap Notice.folded? := by
  cases value <;> simp [Pass.noteSpread, Notice.folded?]

mutual

theorem folded_run (s : Setting σ) : ∀ (op : Op) (d : Draft) (p : Pass σ),
    (s.run op d p).2.notices.filterMap Notice.folded? =
      p.notices.filterMap Notice.folded? ++ ((s.made op p).filter s.keeps).map (·.block)
  | .tag _, _, _ | .set _ _, _, _ | .append _ _, _, _ | .child _, _, _ => by
    rw [made_of_blocks s rfl]
    exact (List.append_nil _).symm
  | .spread index, _, p => by
    rw [made_of_blocks s rfl, run, folded_noteSpread]
    exact (List.append_nil _).symm
  | .element block body, d, p => by
    cases hl : p.folds.lookup block with
    | some value =>
      rw [made_kept s body hl, run_element_kept s body d hl]
      exact (List.append_nil _).symm
    | none =>
      have hlast : (([s.creation block body p].filter s.keeps).map fun c =>
          Notice.folded c.block).filterMap Notice.folded? =
          ([s.creation block body p].filter s.keeps).map (·.block) := by
        rw [List.filterMap_map]
        exact congrFun List.filterMap_eq_map' _
      rw [made_built s body hl, List.filter_append, List.map_append, ← List.append_assoc,
        ← folded_runAll s body .element p, notices_built s body d hl, List.filterMap_append, hlast]

/-- Whatever is kept is reported once, when it is kept. -/
theorem folded_runAll (s : Setting σ) : ∀ (ops : List Op) (d : Draft) (p : Pass σ),
    (s.runAll ops d p).2.notices.filterMap Notice.folded? =
      p.notices.filterMap Notice.folded? ++ ((s.madeAll ops d p).filter s.keeps).map (·.block)
  | [], _, _ => (List.append_nil _).symm
  | op :: rest, d, p => by
    rw [runAll, folded_runAll s rest, folded_run s op, madeAll, List.filter_append, List.map_append,
      List.append_assoc]

end

/-! ## One evaluation -/

section Evaluation

variable {s : Setting σ} (hsaves : s.Saves) {t : Template}
  (hnodup : (Op.numbersOfAll t.root).Nodup) (folds : Folds) (host : σ)

include hsaves hnodup

/-- What is made to be kept are the elements that are due and have no field. -/
theorem keeps_creations
    (hkept : ∀ row ∈ Op.blocksOfAll t.root, (folds.lookup row.1).isSome = true →
      Op.isFree row.2 = true) :
    ((s.creations t folds host).filter s.keeps).map (·.block) =
      ((Op.dueAll folds t.root).filter fun row => Op.isFree row.2).map (·.1) := by
  have hmade := s.madeAll_flags hsaves.leaves t.root .root { folds, host } hnodup hkept
  rw [← creations_eq] at hmade
  have hfilter := congrArg (fun l => (l.filter fun q => q.2.isStatic).map (·.1)) hmade
  simp only [List.filter_map, List.map_map] at hfilter
  have hkeeps : (fun q : Nat × Flags => q.2.isStatic) ∘ (fun c : Creation => (c.block, c.flags)) =
      s.keeps := funext fun c => (congrArg (· && c.flags.isStatic) hsaves.fold).symm
  have hfree : (fun q : Nat × Flags => q.2.isStatic) ∘
      (fun row : Nat × List Op => (row.1, Op.dependence row.2)) = fun row => Op.isFree row.2 :=
    funext fun row => (Op.isFree_eq row.2).symm
  rw [hkeeps, hfree] at hfilter
  exact hfilter

end Evaluation

end Setting

namespace Template

/-- Just the elements without a field are kept. -/
def KeepsExactly (t : Template) (folds : Folds) : Prop :=
  ∀ row ∈ Op.blocksOfAll t.root, (folds.lookup row.1).isSome = Op.isFree row.2

/-- The number of elements whose value is kept. -/
def foldedCount (t : Template) (folds : Folds) : Nat :=
  (Op.blocksOfAll t.root).countP fun row => (folds.lookup row.1).isSome

/-- What one evaluation shows. -/
structure Showing where
  /-- the result -/
  value : Value
  /-- the blocks of the elements for which the factory was called, in order -/
  calls : List Nat
  /-- the blocks of the elements that were reported as folded, in order -/
  folded : List Nat
  /-- the number of folded elements afterwards -/
  count : Nat

/-- What an evaluation shows of a template for which `folds` has been kept. -/
def showing (t : Template) (s : Setting σ) (folds : Folds) (host : σ) : Showing where
  value := (s.evaluate t folds host).1
  calls := (s.creations t folds host).map (·.block)
  folded := (s.evaluate t folds host).2.notices.filterMap Notice.folded?
  count := t.foldedCount (s.evaluate t folds host).2.folds

/-- What evaluations show, one after the other. -/
def showings (t : Template) : List (Setting σ) → Folds → σ → List Showing
  | [], _, _ => []
  | s :: later, folds, host =>
    t.showing s folds host ::
      showings t later (s.evaluate t folds host).2.folds (s.evaluate t folds host).2.host

theorem length_showings (t : Template) (settings : List (Setting σ)) (folds : Folds) (host : σ) :
    (t.showings settings folds host).length = settings.length := by
  induction settings generalizing folds host with
  | nil => rfl
  | cons s later ih => rw [showings, List.length_cons, ih, List.length_cons]

theorem foldedCount_of_exact {t : Template} {folds : Folds} (h : t.KeepsExactly folds) :
    t.foldedCount folds = (Op.blocksOfAll t.root).countP fun row => Op.isFree row.2 :=
  List.countP_congr fun row hrow => by rw [h row hrow]

section Saves

variable {s : Setting σ} (hsaves : s.Saves) {t : Template}
  (hnodup : (Op.numbersOfAll t.root).Nodup)

include hsaves hnodup

/-- The first evaluation keeps the elements without a field. -/
theorem keepsExactly_first (host : σ) : t.KeepsExactly (s.evaluate t [] host).2.folds := by
  intro row hrow
  have hblocks := s.keeps_creations hsaves hnodup [] host fun _ _ h => by cases h
  rw [Op.dueAll_nil] at hblocks
  have hmem : (∃ c ∈ s.creations t [] host, s.keeps c = true ∧ c.block = row.1) ↔
      Op.isFree row.2 = true := by
    have hiff : row.1 ∈ ((s.creations t [] host).filter s.keeps).map (·.block) ↔
        row.1 ∈ ((Op.closedAll t.root).filter fun row => Op.isFree row.2).map (·.1) := by rw [hblocks]
    simp only [List.mem_map, List.mem_filter, and_assoc] at hiff
    refine hiff.trans ⟨?_, fun hfree => ⟨row, (Op.closedAll_perm _).symm.subset hrow, hfree, rfl⟩⟩
    rintro ⟨other, hother, hfree, heq⟩
    obtain rfl := List.inj_on_of_nodup_map hnodup ((Op.closedAll_perm _).subset hother) hrow heq
    exact hfree
  rw [Bool.eq_iff_iff, ← hmem, Option.isSome_iff_exists]
  constructor
  · rintro ⟨value, hvalue⟩
    obtain ⟨c, hc, hkeeps, hblock, -⟩ := Setting.exists_creation_of_lookup rfl hvalue
    exact ⟨c, hc, hkeeps, hblock⟩
  · rintro ⟨c, hc, hkeeps, hblock⟩
    exact ⟨c.value, hblock ▸ Setting.lookup_evaluate_made hnodup hc hkeeps⟩

/-- A later evaluation keeps nothing more. -/
theorem keeps_later {folds : Folds} (hexact : t.KeepsExactly folds) (host : σ) :
    (s.creations t folds host).filter s.keeps = [] := by
  have hblocks := s.keeps_creations hsaves hnodup folds host fun row hrow hsome =>
    (hexact row hrow).symm.trans hsome
  rw [Op.dueAll_of_exact t.root hexact, List.filter_filter] at hblocks
  refine List.map_eq_nil_iff.mp (hblocks.trans ?_)
  simp

theorem folds_later {folds : Folds} (hexact : t.KeepsExactly folds) (host : σ) :
    (s.evaluate t folds host).2.folds = folds := by
  have hfolds := s.folds_runAll t.root .root { folds, host }
  rw [← Setting.creations_eq, keeps_later hsaves hnodup hexact host] at hfolds
  exact hfolds

/-- The first evaluation calls the factory for all elements, and keeps those without a field. -/
theorem showing_first (host : σ) :
    (t.showing s [] host).calls = (Op.closedAll t.root).map (·.1) ∧
      (t.showing s [] host).folded =
        ((Op.closedAll t.root).filter fun row => Op.isFree row.2).map (·.1) ∧
      (t.showing s [] host).count = (Op.blocksOfAll t.root).countP fun row => Op.isFree row.2 := by
  refine ⟨?_, ?_, foldedCount_of_exact (keepsExactly_first hsaves hnodup host)⟩
  · rw [← Op.dueAll_nil]
    exact s.creations_due hnodup [] host
  · have hblocks := s.keeps_creations hsaves hnodup [] host fun _ _ h => by cases h
    rw [Op.dueAll_nil, Setting.creations_eq] at hblocks
    rw [← hblocks]
    exact s.folded_runAll t.root .root { folds := [], host }

/-- A later evaluation calls the factory for the elements with a field, and keeps nothing more. -/
theorem showing_later {folds : Folds} (hexact : t.KeepsExactly folds) (host : σ) :
    (t.showing s folds host).calls =
        ((Op.closedAll t.root).filter fun row => !Op.isFree row.2).map (·.1) ∧
      (t.showing s folds host).folded = [] ∧
      (t.showing s folds host).count = (Op.blocksOfAll t.root).countP fun row => Op.isFree row.2 := by
  refine ⟨?_, ?_, ?_⟩
  · rw [← Op.dueAll_of_exact t.root hexact]
    exact s.creations_due hnodup folds host
  · have hnotices := s.folded_runAll t.root .root { folds, host }
    rw [← Setting.creations_eq, keeps_later hsaves hnodup hexact host] at hnotices
    exact hnotices
  · rw [showing, folds_later hsaves hnodup hexact host]
    exact foldedCount_of_exact hexact

end Saves

/-- Every later evaluation shows the same calls and counts. -/
theorem showings_later {t : Template} (hnodup : (Op.numbersOfAll t.root).Nodup)
    {later : List (Setting σ)} (hsaves : ∀ s ∈ later, s.Saves) {folds : Folds}
    (hexact : t.KeepsExactly folds) (host : σ) :
    ∀ shown ∈ t.showings later folds host,
      shown.calls = ((Op.closedAll t.root).filter fun row => !Op.isFree row.2).map (·.1) ∧
        shown.folded = [] ∧
        shown.count = (Op.blocksOfAll t.root).countP fun row => Op.isFree row.2 := by
  induction later generalizing folds host with
  | nil => nofun
  | cons s later ih =>
    obtain ⟨hs, hlater⟩ := List.forall_mem_cons.mp hsaves
    refine List.forall_mem_cons.mpr ⟨showing_later hs hnodup hexact host, ?_⟩
    rw [folds_later hs hnodup hexact host]
    exact ih hlater hexact _

/-! ## Shared elements -/

/-- Among the children that instructions have made, or in one of them, a value stands in the place of the
element with this block. -/
inductive Stands (block : Nat) (value : Value) : List Op → List Value → Prop
  | here {before body after : List Op} {children : List Value} :
    children[Op.seats before]? = some value →
      Stands block value (before ++ .element block body :: after) children
  | inside {before body after : List Op} {outer : Nat} {children : List Value} {e : Element} :
    children[Op.seats before]? = some (.element e) → Stands block value body e.children →
      Stands block value (before ++ .element outer body :: after) children

theorem Stands.mem {block : Nat} {value : Value} {ops : List Op} {children : List Value}
    (h : Stands block value ops children) : block ∈ Op.numbersOfAll ops := by
  induction h with
  | here _ =>
    exact List.mem_map_of_mem (f := Prod.fst)
      (Op.mem_blocksOfAll_of_mem (List.mem_append_right _ (List.mem_cons_self ..)))
  | inside _ _ ih =>
    obtain ⟨row, hrow, rfl⟩ := List.mem_map.mp ih
    exact List.mem_map_of_mem (Op.blocksOfAll_subset_blocksOfAll
      (Op.mem_blocksOfAll_of_mem (List.mem_append_right _ (List.mem_cons_self ..))) hrow)

/-- A number stands in one instruction only. -/
theorem split_unique {x y : Op} {before before' after after' : List Op} {block : Nat}
    (hnodup : (Op.numbersOfAll (before ++ x :: after)).Nodup)
    (heq : before ++ x :: after = before' ++ y :: after')
    (hx : block ∈ x.blocks.map (·.1)) (hy : block ∈ y.blocks.map (·.1)) :
    before = before' ∧ x = y := by
  have hlater : ∀ {z op : Op} {first last : List Op}, block ∈ z.blocks.map (·.1) →
      block ∈ op.blocks.map (·.1) → ¬ (Op.numbersOfAll (z :: (first ++ op :: last))).Nodup := by
    intro z op first last hz hop hnodup
    obtain ⟨row, hrow, hnumber⟩ := List.mem_map.mp hz
    obtain ⟨other, hother, rfl⟩ := List.mem_map.mp hop
    refine (Setting.ne_of_nodup hnodup).2.2 row hrow other ?_ hnumber
    rw [Op.blocksOfAll_append]
    exact List.mem_append_right _ (List.mem_append_left _ hother)
  induction before generalizing before' with
  | nil =>
    cases before' with
    | nil => exact ⟨rfl, (List.cons.inj heq).1⟩
    | cons z before' =>
      obtain ⟨rfl, rfl⟩ := List.cons.inj heq
      exact absurd hnodup (hlater hx hy)
  | cons z before ih =>
    cases before' with
    | nil =>
      obtain ⟨rfl, -⟩ := List.cons.inj heq
      exact absurd hnodup (hlater hy hx)
    | cons z' before' =>
      obtain ⟨rfl, htail⟩ := List.cons.inj heq
      obtain ⟨rfl, rfl⟩ := ih (Setting.ne_of_nodup hnodup).2.1 htail
      exact ⟨rfl, rfl⟩

/-- In the place of an element stands one value. -/
theorem Stands.unique {block : Nat} {value : Value} {ops : List Op} {children : List Value}
    (hnodup : (Op.numbersOfAll ops).Nodup) (h : Stands block value ops children) {other : Value}
    (hother : Stands block other ops children) : value = other := by
  have hown : ∀ {before body after : List Op} {block : Nat},
      (Op.numbersOfAll (before ++ .element block body :: after)).Nodup →
        block ∉ Op.numbersOfAll body ∧ (Op.numbersOfAll body).Nodup := by
    intro before body after block hnodup
    have hmem : (block, body) ∈ Op.blocksOfAll (before ++ .element block body :: after) :=
      Op.mem_blocksOfAll_of_mem (List.mem_append_right _ (List.mem_cons_self ..))
    exact List.nodup_cons.mp (hnodup.sublist ((Op.sublist_blocksOfAll _ hmem).map Prod.fst))
  induction h generalizing other with
  | here hseat =>
    generalize hops : _ ++ Op.element block _ :: _ = ops at hother
    cases hother with
    | here hother =>
      obtain ⟨rfl, -⟩ := split_unique hnodup hops (List.mem_cons_self ..) (List.mem_cons_self ..)
      exact Option.some.inj (hseat.symm.trans hother)
    | inside _ hinner =>
      obtain ⟨-, heq⟩ := split_unique hnodup hops (List.mem_cons_self ..)
        (List.mem_cons_of_mem _ hinner.mem)
      obtain ⟨-, rfl⟩ := Op.element.inj heq
      exact absurd hinner.mem (hown hnodup).1
  | inside hseat hinner ih =>
    generalize hops : _ ++ Op.element _ _ :: _ = ops at hother
    cases hother with
    | here _ =>
      obtain ⟨-, heq⟩ := split_unique hnodup hops (List.mem_cons_of_mem _ hinner.mem)
        (List.mem_cons_self ..)
      obtain ⟨rfl, rfl⟩ := Op.element.inj heq
      exact absurd hinner.mem (hown hnodup).1
    | inside hother hwithin =>
      obtain ⟨rfl, heq⟩ := split_unique hnodup hops (List.mem_cons_of_mem _ hinner.mem)
        (List.mem_cons_of_mem _ hwithin.mem)
      obtain ⟨-, rfl⟩ := Op.element.inj heq
      obtain rfl := Value.element.inj (Option.some.inj (hseat.symm.trans hother))
      exact ih (hown hnodup).2 hwithin

/-- The roots that a result is made of. -/
def rootsOf (t : Template) (result : Value) : List Value :=
  if Op.seats t.root = 1 then [result]
  else match result with
    | .list roots => roots
    | _ => []

theorem rootsOf_ofRoots {t : Template} {roots : List Value} (h : roots.length = Op.seats t.root) :
    t.rootsOf (Setting.ofRoots roots) = roots := by
  unfold rootsOf
  rw [← h]
  match roots with
  | [] => rfl
  | [_] => rfl
  | _ :: _ :: _ => exact if_neg (by simp)

/-- What is kept for an element is an element that has in it what is kept for those below. -/
def Shares (t : Template) (folds : Folds) : Prop :=
  ∀ block body value, (block, body) ∈ Op.blocksOfAll t.root → folds.lookup block = some value →
    ∃ e, value = .element e ∧ ∀ row ∈ Op.blocksOfAll body,
      ∃ inner, folds.lookup row.1 = some inner ∧ Stands row.1 inner body e.children

theorem shares_nil (t : Template) : t.Shares [] := fun _ _ _ _ h => by cases h

/-- An element of a block is one of its own, or in one of these. -/
theorem exists_of_mem_blocksOfAll {ops : List Op} {row : Nat × List Op}
    (h : row ∈ Op.blocksOfAll ops) : ∃ before block body after,
      ops = before ++ .element block body :: after ∧
        (row = (block, body) ∨ row ∈ Op.blocksOfAll body) := by
  induction ops with
  | nil => cases h
  | cons op rest ih =>
    rcases List.mem_append.mp h with hop | hrest
    · cases op with
      | element block body => exact ⟨[], block, body, rest, rfl, List.mem_cons.mp hop⟩
      | _ => cases hop
    · obtain ⟨before, block, body, after, rfl, hrow⟩ := ih hrest
      exact ⟨op :: before, block, body, after, rfl, hrow⟩

section Elements

variable {s : Setting Bench} (hfactory : s.factory = Factory.element) {t : Template}
  (hnodup : (t.blocks.map (·.1)).Nodup) {folds : Folds} (host : Bench)

include hfactory hnodup

/-- The element factory makes elements with the children that it is given. -/
theorem element_of_mem_creations {c : Creation} (hc : c ∈ s.creations t folds host) :
    ∃ e, c.value = .element e ∧ e.children = c.draft.children := by
  rw [Setting.creations_eq] at hc
  obtain ⟨body, q, -, heq, -⟩ := s.exists_creation t.root (List.nodup_cons.mp hnodup).2 c hc
  rw [heq, Setting.creation, Setting.build, hfactory]
  exact ⟨_, rfl, rfl⟩

/-- In every draft stands, in the place of each element, what is kept for it afterwards. -/
theorem stands_of_mem_drafts (hshares : t.Shares folds) {number : Nat} {draft : Draft}
    {body : List Op} (hdraft : (number, draft) ∈ s.drafts t folds host)
    (hbody : (number, body) ∈ t.blocks) {row : Nat × List Op} (hrow : row ∈ Op.blocksOfAll body)
    {value : Value} (hvalue : (s.evaluate t folds host).2.folds.lookup row.1 = some value) :
    Stands row.1 value body draft.children := by
  have hgoes := s.goesBy hnodup folds host
  -- on the number of elements below
  induction hsize : (Op.blocksOfAll body).length using Nat.strong_induction_on
    generalizing number draft body with
  | h size ih =>
  obtain ⟨before, block, inner, after, rfl, hplace⟩ := exists_of_mem_blocksOfAll hrow
  have hmem : (block, inner) ∈ Op.blocksOfAll t.root := by
    have hown := Op.mem_blocksOfAll_of_mem (List.mem_append_right before
      (List.mem_cons_self (a := Op.element block inner) (l := after)))
    rcases List.mem_cons.mp hbody with heq | hbelow
    · exact (Prod.mk.inj heq).2 ▸ hown
    · exact Op.blocksOfAll_subset_blocksOfAll hbelow hown
  cases hl : folds.lookup block with
  | some kept =>
    have hseat := hgoes.reused number draft hdraft before block inner after hbody kept hl
    rcases hplace with rfl | hinner
    · rw [hgoes.final block kept hl] at hvalue
      exact .here (hseat.trans hvalue)
    · obtain ⟨e, rfl, hbelow⟩ := hshares block inner kept hmem hl
      obtain ⟨same, hsame, hstands⟩ := hbelow row hinner
      obtain rfl := Option.some.inj ((hgoes.final row.1 same hsame).symm.trans hvalue)
      exact .inside hseat hstands
  | none =>
    obtain ⟨c, hfilter, hseat, -⟩ :=
      hgoes.made number draft hdraft before block inner after hbody hl
    obtain ⟨hc, hblock⟩ := List.mem_filter.mp (hfilter ▸ List.mem_singleton_self c)
    rcases hplace with rfl | hinner
    · obtain ⟨-, other, hother, hnumber, rfl, -⟩ := hgoes.filled block value hl hvalue
      have hsame : other ∈ (s.creations t folds host).filter fun c => c.block == block :=
        List.mem_filter.mpr ⟨hother, beq_iff_eq.mpr hnumber⟩
      rw [hfilter] at hsame
      exact .here (List.mem_singleton.mp hsame ▸ hseat)
    · obtain ⟨e, helement, hchildren⟩ := element_of_mem_creations hfactory hnodup host hc
      rw [helement] at hseat
      have hdown : (block, c.draft) ∈ s.drafts t folds host :=
        List.mem_cons_of_mem _ (List.mem_map.mpr ⟨c, hc, by rw [beq_iff_eq.mp hblock]⟩)
      refine .inside hseat (hchildren ▸ ih _ ?_ hdown (List.mem_cons_of_mem _ hmem) hinner rfl)
      rw [← hsize, Op.blocksOfAll_append, List.length_append, Op.blocksOfAll, Op.blocks,
        List.length_append, List.length_cons]
      omega

/-- In the result stands, in the place of each element, what is kept for it afterwards. -/
theorem stands_evaluate (hshares : t.Shares folds) {row : Nat × List Op}
    (hrow : row ∈ Op.blocksOfAll t.root) {value : Value}
    (hvalue : (s.evaluate t folds host).2.folds.lookup row.1 = some value) :
    Stands row.1 value t.root (t.rootsOf (s.evaluate t folds host).1) := by
  obtain ⟨built, hbuilt, hlength⟩ := s.children_runAll t.root .root { folds, host }
  have hroots : (s.rootDraft t folds host).children.length = Op.seats t.root :=
    (congrArg List.length hbuilt).trans hlength
  rw [(s.goesBy hnodup folds host).result, rootsOf_ofRoots hroots]
  exact stands_of_mem_drafts hfactory hnodup host hshares (List.mem_cons_self ..)
    (List.mem_cons_self ..) hrow hvalue

/-- An evaluation after which just the elements without a field are kept goes on sharing them. -/
theorem Shares.evaluate (hshares : t.Shares folds)
    (hexact : t.KeepsExactly (s.evaluate t folds host).2.folds) :
    t.Shares (s.evaluate t folds host).2.folds := by
  have hgoes := s.goesBy hnodup folds host
  intro block body value hmem hvalue
  cases hl : folds.lookup block with
  | some kept =>
    rw [hgoes.final block kept hl] at hvalue
    obtain ⟨e, he, hbelow⟩ := hshares block body kept hmem hl
    refine ⟨e, (Option.some.inj hvalue).symm.trans he, fun row hrow => ?_⟩
    obtain ⟨inner, hinner, hstands⟩ := hbelow row hrow
    exact ⟨inner, hgoes.final row.1 inner hinner, hstands⟩
  | none =>
    obtain ⟨-, c, hc, rfl, rfl, -⟩ := hgoes.filled block value hl hvalue
    obtain ⟨e, he, hchildren⟩ := element_of_mem_creations hfactory hnodup host hc
    refine ⟨e, he, fun row hrow => ?_⟩
    -- nor have the elements below a field, so they are kept too
    have hfree : Op.isFree body = true := by
      rw [← hexact _ hmem, hvalue]
      rfl
    have hsome := hexact row (Op.blocksOfAll_subset_blocksOfAll hmem hrow)
    rw [Op.isFree_of_mem hfree hrow] at hsome
    obtain ⟨inner, hinner⟩ := Option.isSome_iff_exists.mp hsome
    have hdraft : (c.block, c.draft) ∈ s.drafts t folds host :=
      List.mem_cons_of_mem _ (List.mem_map_of_mem hc)
    exact ⟨inner, hinner, hchildren ▸ stands_of_mem_drafts hfactory hnodup host hshares hdraft
      (List.mem_cons_of_mem _ hmem) hrow hinner⟩

end Elements

/-- The use of a template with the element factory. -/
def plainUse (serial : Nat) (values : List Value) : Setting Bench :=
  ⟨serial, Factory.element, true, values⟩

theorem saves_plainUse (serial : Nat) (values : List Value) : (plainUse serial values).Saves :=
  ⟨rfl, Factory.element_leavesFlags⟩

/-- What is kept stands in all later results. -/
theorem stands_showings {t : Template} (hnodup : (t.blocks.map (·.1)).Nodup) {serial : Nat}
    (later : List (List Value)) {folds : Folds} (hexact : t.KeepsExactly folds)
    (hshares : t.Shares folds) (host : Bench) {row : Nat × List Op}
    (hrow : row ∈ Op.blocksOfAll t.root) {value : Value} (hvalue : folds.lookup row.1 = some value) :
    ∀ shown ∈ t.showings (later.map (plainUse serial)) folds host,
      Stands row.1 value t.root (t.rootsOf shown.value) := by
  induction later generalizing host with
  | nil => nofun
  | cons values later ih =>
    have hfolds := folds_later (saves_plainUse serial values) (List.nodup_cons.mp hnodup).2 hexact host
    refine List.forall_mem_cons.mpr ⟨?_, ?_⟩
    · exact stands_evaluate rfl hnodup host hshares hrow (hfolds.symm ▸ hvalue)
    · rw [hfolds]
      exact ih _

/-- **Folding is maximal and saves just the static work.** Let evaluations of a compiled template fold, with
any values and by factories that leave the flags alone. The first one calls the factory once for each
element, in the order in which they close, and every later one once for each element with a field in it or
below, and for no other. From the first one on, the elements without a field are folded, each reported once.
By the element factory, each of them is the very same element in all results. -/
theorem folding_maximal (parts : List String) {first : Setting σ} {later : List (Setting σ)}
    (hsaves : ∀ s ∈ first :: later, s.Saves) (host : σ) :
    let t := Template.compile parts
    let elements := Op.closedAll t.root
    let free := elements.filter fun row => Op.isFree row.2
    let shown := t.showings (first :: later) [] host
    elements.Perm (Op.blocksOfAll t.root) ∧ (elements.map (·.1)).Nodup ∧
    shown.map (·.calls) = elements.map (·.1) ::
      List.replicate later.length ((elements.filter fun row => !Op.isFree row.2).map (·.1)) ∧
    shown.flatMap (·.folded) = free.map (·.1) ∧
    (∀ s ∈ shown, s.count = free.length) ∧
    ∀ (serial : Nat) (values : List Value) (more : List (List Value)) (bench : Bench),
      ∀ row ∈ free, ∃ e : Element,
        ∀ s ∈ t.showings ((values :: more).map (plainUse serial)) [] bench, ∀ value,
          Stands row.1 value t.root (t.rootsOf s.value) ↔ value = .element e := by
  intro t elements free shown
  have hblocks : (t.blocks.map (·.1)).Nodup := numbers_compile parts ▸ List.nodup_range
  have hnodup : (Op.numbersOfAll t.root).Nodup := (List.nodup_cons.mp hblocks).2
  have hperm : elements.Perm (Op.blocksOfAll t.root) := Op.closedAll_perm t.root
  have hcount : (Op.blocksOfAll t.root).countP (fun row => Op.isFree row.2) = free.length :=
    (hperm.countP_eq _).symm.trans List.countP_eq_length_filter
  obtain ⟨hfirst, hlater⟩ := List.forall_mem_cons.mp hsaves
  obtain ⟨hcalls, hfolded, hone⟩ := showing_first hfirst hnodup host
  have hrest := showings_later hnodup hlater (keepsExactly_first hfirst hnodup host)
    (first.evaluate t [] host).2.host
  have hlength : (t.showings later (first.evaluate t [] host).2.folds
      (first.evaluate t [] host).2.host).length = later.length := length_showings ..
  refine ⟨hperm, (hperm.map _).nodup_iff.mpr hnodup, ?_, ?_, ?_, ?_⟩
  · refine congrArg₂ List.cons hcalls (List.eq_replicate_iff.mpr ⟨?_, fun calls hmem => ?_⟩)
    · rw [List.length_map, hlength]
    · obtain ⟨s, hs, rfl⟩ := List.mem_map.mp hmem
      exact (hrest s hs).1
  · have hnone := List.flatMap_eq_nil_iff.mpr fun s hs => (hrest s hs).2.1
    exact (congrArg₂ (· ++ ·) hfolded hnone).trans (List.append_nil _)
  · exact List.forall_mem_cons.mpr ⟨hone.trans hcount, fun s hs => (hrest s hs).2.2.trans hcount⟩
  · intro serial values more bench row hrow
    obtain ⟨hmem, hfree⟩ := List.mem_filter.mp hrow
    have hrow := hperm.subset hmem
    have hexact := keepsExactly_first (saves_plainUse serial values) hnodup bench
    have hshares := (shares_nil t).evaluate (s := plainUse serial values) rfl hblocks bench hexact
    obtain ⟨value, hvalue⟩ := Option.isSome_iff_exists.mp ((hexact row hrow).trans hfree)
    obtain ⟨e, rfl, -⟩ := hshares row.1 row.2 value hrow hvalue
    have hstands : ∀ s ∈ t.showings ((values :: more).map (plainUse serial)) [] bench,
        Stands row.1 (.element e) t.root (t.rootsOf s.value) := List.forall_mem_cons.mpr
      ⟨stands_evaluate rfl hblocks bench (shares_nil t) hrow hvalue,
        stands_showings hblocks more hexact hshares _ hrow hvalue⟩
    exact ⟨e, fun s hs value => ⟨fun h => h.unique hnodup (hstands s hs), fun h => h ▸ hstands s hs⟩⟩

/-- In the page, only the bold word has no field. -/
theorem folding_maximal_page :
    let t := Template.compile Use.page
    let first := plainUse 7 [.str "a", .str "b"]
    let later := [plainUse 7 [.null, .list []], plainUse 7 []]
    let shown := t.showings (first :: later) [] {}
    (∀ s ∈ first :: later, s.Saves) ∧
      shown.map (·.calls) = [[2, 3, 1], [3, 1], [3, 1]] ∧
      shown.flatMap (·.folded) = [2] ∧ (∀ s ∈ shown, s.count = 1) ∧
      ∃ e : Element, ∀ s ∈ shown, Stands 2 (.element e) t.root (t.rootsOf s.value) := by
  intro t first later shown
  have hsaves : ∀ s ∈ first :: later, s.Saves := by
    simp [first, later, saves_plainUse]
  obtain ⟨-, -, hcalls, hfolded, hcount, hshared⟩ := folding_maximal Use.page hsaves {}
  obtain ⟨bold, hfree⟩ : ∃ bold, (Op.closedAll t.root).filter (fun row => Op.isFree row.2) =
      [(2, bold)] := ⟨[.tag (.fixed (.str "b")), .child (.fixed (.str "x"))], by cbv⟩
  rw [hfree] at hfolded hcount hshared
  obtain ⟨e, he⟩ := hshared 7 [.str "a", .str "b"] [[.null, .list []], []] {} _
    (List.mem_singleton_self _)
  exact ⟨hsaves, hcalls.trans (by cbv), hfolded, hcount, e, fun s hs => (he s hs _).mpr rfl⟩

end Template

end TaggedMarkup
