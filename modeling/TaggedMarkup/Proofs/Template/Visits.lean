import Mathlib
import TaggedMarkup.Proofs.Template.Arena
import TaggedMarkup.Proofs.Template.Handovers

/-!
# Every block is visited once

The compiled template as it lies in the arena, and what an evaluation does with it. The blocks stand there
in the order in which they opened, so an element comes after the one that holds it and before all that it
holds itself (`Template.numbers_sublist`). Three things follow.

* The references form a tree (`IsTree`).
* A reference leads on in the arena, never back. So no chain of references is longer than the arena, and
  fuel for so many is enough for every evaluation (`Setting.evaluateBlocks_layout`).
* Where nothing is kept, an evaluation comes to the blocks one by one (`Setting.visitsAll_afresh`).
-/

namespace TaggedMarkup

/-- The blocks of an arena form a tree with the first of them as its root. -/
structure IsTree (blocks : List Block) : Prop where
  /-- a reference leads from a block to a later one in the arena -/
  forward : ∀ (id child : Nat) (block : Block), blocks[id]? = some block →
    child ∈ block.references → id < child ∧ child < blocks.length
  /-- every block but the root is referred to once -/
  once : ∀ child : Nat, 0 < child → child < blocks.length →
    (blocks.flatMap Block.references).count child = 1

/-! ## References -/

namespace Op

/-- The indices that instructions refer to in an arena. -/
abbrev references (ops : List Op) : List Nat := (Block.ofOps ops).references

/-- All indices that the blocks of a list refer to. -/
def referencesOf (rows : List (Nat × List Op)) : List Nat :=
  rows.flatMap fun row => references row.2

theorem referencesOf_append (rows more : List (Nat × List Op)) :
    referencesOf (rows ++ more) = referencesOf rows ++ referencesOf more := List.flatMap_append

theorem references_cons (op : Op) (ops : List Op) :
    references (op :: ops) = references [op] ++ references ops := by
  simp only [references, Block.ofOps, Block.references, List.map_cons, List.map_nil]
  exact List.filterMap_append (l := [Instruction.ofOp op])

mutual

/-- Instructions and the blocks below them refer to each of these blocks, and to each once. -/
theorem references_perm : ∀ op : Op,
    (references [op] ++ referencesOf op.blocks).Perm (op.blocks.map (·.1))
  | .tag _ | .set _ _ | .append _ _ | .spread _ | .child _ => List.Perm.refl _
  | .element block body => (referencesAll_perm body).cons block

theorem referencesAll_perm : ∀ ops : List Op,
    (references ops ++ referencesOf (blocksOfAll ops)).Perm (numbersOfAll ops)
  | [] => List.Perm.refl _
  | op :: rest => by
    rw [references_cons, blocksOfAll, referencesOf_append, numbersOfAll_cons]
    have hswap : (references [op] ++ references rest ++
        (referencesOf op.blocks ++ referencesOf (blocksOfAll rest))).Perm
        (references [op] ++ referencesOf op.blocks ++
          (references rest ++ referencesOf (blocksOfAll rest))) := by
      simp only [List.append_assoc]
      exact (List.perm_append_comm_assoc _ _ _).append_left _
    exact hswap.trans ((references_perm op).append (referencesAll_perm rest))

end

end Op

namespace Template

/-- Each block of a compiled template lies in the arena at the index that is its number. -/
theorem getElem?_blocks {parts : List String} {id : Nat} {row : Nat × List Op}
    (h : (compile parts).blocks[id]? = some row) : row.1 = id := by
  have hnumber : ((compile parts).blocks.map (·.1))[id]? = some row.1 := by
    rw [List.getElem?_map, h, Option.map_some]
  rw [numbers_compile] at hnumber
  obtain ⟨hlt, hget⟩ := List.getElem?_eq_some_iff.mp hnumber
  rw [List.getElem_range] at hget
  exact hget.symm

/-- Above a block, and above all that it holds, stands what opened before. -/
theorem numbers_sublist {parts : List String} {block : Nat} {body : List Op}
    (h : (block, body) ∈ (compile parts).blocks) :
    (block :: Op.numbersOfAll body).Sublist (List.range (compile parts).blocks.length) := by
  have hsublist := Op.sublist_blocks (.element 0 (compile parts).root) h
  rw [← numbers_compile]
  exact hsublist.map (·.1)

/-- The blocks of a compiled template form a tree. -/
theorem isTree_layout (parts : List String) : IsTree (compile parts).layout where
  forward id child block hblock hchild := by
    rw [layout, List.getElem?_map, Option.map_eq_some_iff] at hblock
    obtain ⟨⟨number, body⟩, hrow, rfl⟩ := hblock
    obtain rfl : number = id := getElem?_blocks hrow
    have hsublist := numbers_sublist (List.mem_of_getElem? hrow)
    have hmem : child ∈ Op.numbersOfAll body :=
      (Op.referencesAll_perm body).subset (List.mem_append_left _ hchild)
    have hlt := List.mem_range.mp (hsublist.subset (List.mem_cons_of_mem _ hmem))
    have hsorted := List.pairwise_lt_range.sublist hsublist
    rw [layout, List.length_map]
    exact ⟨(List.pairwise_cons.mp hsorted).1 child hmem, hlt⟩
  once child hpos hlt := by
    have hperm : ((compile parts).layout.flatMap Block.references).Perm
        (Op.numbersOfAll (compile parts).root) := by
      rw [layout, List.flatMap_map]
      exact Op.referencesAll_perm _
    have hnumbers : 0 :: Op.numbersOfAll (compile parts).root =
        List.range (compile parts).blocks.length := numbers_compile parts
    rw [layout, List.length_map] at hlt
    have hmem : child ∈ Op.numbersOfAll (compile parts).root := by
      have hrange := List.mem_range.mpr hlt
      rw [← hnumbers] at hrange
      exact (List.mem_cons.mp hrange).resolve_left (Nat.pos_iff_ne_zero.mp hpos)
    rw [hperm.count_eq]
    exact List.count_eq_one_of_mem (nodup_numbers_compile parts) hmem

end Template

/-! ## What an evaluation visits

In the tree, an evaluation comes to the block of each element that is not kept, and then to what its
body makes it come to. The factory is called on the way back, so for the same blocks in another order. -/

namespace Setting

variable {σ : Type}

mutual

/-- The blocks that one instruction leads to. -/
def visits (s : Setting σ) : Op → Pass σ → List Nat
  | .element block body, p =>
    match p.folds.lookup block with
    | some _ => []
    | none => block :: visitsAll s body .element p
  | _, _ => []

/-- The blocks that instructions lead to, in order. -/
def visitsAll (s : Setting σ) : List Op → Draft → Pass σ → List Nat
  | [], _, _ => []
  | op :: rest, d, p => visits s op p ++ visitsAll s rest (s.run op d p).1 (s.run op d p).2

end

theorem visits_kept (s : Setting σ) {block : Nat} (body : List Op) {p : Pass σ} {value : Value}
    (h : p.folds.lookup block = some value) : s.visits (.element block body) p = [] := by
  rw [visits, h]

theorem visits_built (s : Setting σ) {block : Nat} (body : List Op) {p : Pass σ}
    (h : p.folds.lookup block = none) :
    s.visits (.element block body) p = block :: s.visitsAll body .element p := by
  rw [visits, h]

mutual

/-- The factory is called once for each block that is visited. -/
theorem handed_visits (s : Setting σ) : ∀ (op : Op) (p : Pass σ),
    ((s.handed op p).map fun h => h.node.block).Perm (s.visits op p)
  | .tag _, _ | .set _ _, _ | .append _ _, _ | .child _, _ | .spread _, _ => by
    rw [handed, visits] <;> first | exact List.Perm.refl _ | nofun
  | .element block body, p => by
    cases hl : p.folds.lookup block with
    | some value =>
      rw [handed_kept s body hl, visits_kept s body hl]
      exact List.Perm.refl _
    | none =>
      rw [handed_built s body hl, visits_built s body hl, List.map_append]
      exact (List.perm_append_singleton _ _).trans ((handedAll_visits s body .element p).cons block)

theorem handedAll_visits (s : Setting σ) : ∀ (ops : List Op) (d : Draft) (p : Pass σ),
    ((s.handedAll ops d p).map fun h => h.node.block).Perm (s.visitsAll ops d p)
  | [], _, _ => List.Perm.refl _
  | op :: rest, d, p => by
    rw [handedAll, visitsAll, List.map_append]
    exact (handed_visits s op p).append (handedAll_visits s rest _ _)

end

mutual

/-- If nothing is kept, every block is visited, in the order of their numbers. -/
theorem visits_afresh {s : Setting σ} (hs : s.fold = false) : ∀ (op : Op) (p : Pass σ),
    p.folds = [] → s.visits op p = op.blocks.map (·.1)
  | .tag _, _, _ | .set _ _, _, _ | .append _ _, _, _ | .child _, _, _ | .spread _, _, _ => by
    rw [visits] <;> first | rfl | nofun
  | .element block body, p, hp => by
    have hlookup : p.folds.lookup block = none := by rw [hp, List.lookup_nil]
    rw [visits_built s body hlookup, visitsAll_afresh hs body .element p hp]
    rfl

theorem visitsAll_afresh {s : Setting σ} (hs : s.fold = false) :
    ∀ (ops : List Op) (d : Draft) (p : Pass σ), p.folds = [] →
      s.visitsAll ops d p = Op.numbersOfAll ops
  | [], _, _, _ => rfl
  | op :: rest, d, p, hp => by
    rw [visitsAll, visits_afresh hs op p hp, Op.numbersOfAll_cons,
      visitsAll_afresh hs rest _ _ (folds_run_afresh hs op d p hp)]

end

end Setting

/-! ## Evaluating an arena -/

/-- The blocks below these instructions are laid out in an arena, each after those around it, and the
fuel is enough for the blocks that come after them. -/
structure Op.LaidIn (blocks : List Block) (fuel : Nat) (ops : List Op) : Prop where
  laid : ∀ row ∈ blocksOfAll ops, blocks[row.1]? = some (Block.ofOps row.2)
  sorted : (numbersOfAll ops).Pairwise (· < ·)
  fueled : ∀ number ∈ numbersOfAll ops, blocks.length ≤ fuel + number

namespace Op.LaidIn

variable {blocks : List Block} {fuel : Nat}

theorem of_sublist {ops more : List Op} (h : LaidIn blocks fuel more)
    (hsublist : (blocksOfAll ops).Sublist (blocksOfAll more)) : LaidIn blocks fuel ops := by
  have hnumbers : (numbersOfAll ops).Sublist (numbersOfAll more) := hsublist.map Prod.fst
  exact ⟨fun row hrow => h.laid row (hsublist.subset hrow), h.sorted.sublist hnumbers,
    fun number hn => h.fueled number (hnumbers.subset hn)⟩

theorem head {op : Op} {rest : List Op} (h : LaidIn blocks fuel (op :: rest)) :
    LaidIn blocks fuel [op] := by
  apply h.of_sublist
  rw [blocksOfAll_singleton, blocksOfAll]
  exact List.sublist_append_left _ _

theorem tail {op : Op} {rest : List Op} (h : LaidIn blocks fuel (op :: rest)) :
    LaidIn blocks fuel rest := h.of_sublist (List.sublist_append_right _ _)

/-- One reference deeper, one unit of fuel less is enough. -/
theorem body {block : Nat} {inner : List Op} (h : LaidIn blocks fuel [.element block inner]) :
    ∃ less, fuel = less + 1 ∧ blocks[block]? = some (Block.ofOps inner) ∧
      LaidIn blocks less inner := by
  have hlaid : ∀ row ∈ (block, inner) :: blocksOfAll inner,
      blocks[row.1]? = some (Block.ofOps row.2) := by
    rw [← List.append_nil ((block, inner) :: blocksOfAll inner)]
    exact h.laid
  have hnumbers : numbersOfAll [.element block inner] = block :: numbersOfAll inner :=
    (numbersOfAll_cons _ _).trans (List.append_nil _)
  have hsorted := hnumbers ▸ h.sorted
  have hfueled := hnumbers ▸ h.fueled
  have hblock := hlaid _ (List.mem_cons_self ..)
  obtain ⟨hlt, -⟩ := List.getElem?_eq_some_iff.mp hblock
  have hfuel := hfueled block (List.mem_cons_self ..)
  obtain ⟨less, rfl⟩ : ∃ less, fuel = less + 1 := Nat.exists_eq_succ_of_ne_zero (by omega)
  refine ⟨less, rfl, hblock, fun row hrow => hlaid row (List.mem_cons_of_mem _ hrow),
    (List.pairwise_cons.mp hsorted).2, fun number hn => ?_⟩
  have hlt' := (List.pairwise_cons.mp hsorted).1 number hn
  omega

end Op.LaidIn

namespace Setting

variable {σ : Type}

/-- What an instruction of the tree does, with the blocks that it leads to. -/
def toured (s : Setting σ) (op : Op) (d : Draft) (t : Tour σ) : Draft × Tour σ :=
  ((s.run op d t.pass).1, ⟨(s.run op d t.pass).2, t.visited ++ s.visits op t.pass⟩)

/-- What instructions of the tree do, with the blocks that they lead to. -/
def touredAll (s : Setting σ) (ops : List Op) (d : Draft) (t : Tour σ) : Draft × Tour σ :=
  ((s.runAll ops d t.pass).1, ⟨(s.runAll ops d t.pass).2, t.visited ++ s.visitsAll ops d t.pass⟩)

/-- Once its block has been carried out, an element is built as in the tree. -/
theorem runInstruction_built (s : Setting σ)
    {runBlock : Nat → Draft → Tour σ → Option (Draft × Tour σ)} {block : Nat} {body : List Op}
    (d : Draft) {t : Tour σ} {visited : List Nat} (hl : t.pass.folds.lookup block = none)
    (hrun : runBlock block .element t =
      some ((s.runAll body .element t.pass).1, ⟨(s.runAll body .element t.pass).2, visited⟩)) :
    s.runInstruction runBlock (.recurse block) d t =
      some ((s.run (.element block body) d t.pass).1,
        ⟨(s.run (.element block body) d t.pass).2, visited⟩) := by
  rw [run_element_built s body d hl, runInstruction, hl]
  simp only [hrun, Option.bind_eq_bind, Option.bind_some]
  by_cases hstatic : (s.build block body t.pass).2.1.isStatic = true
  · rw [if_pos hstatic]
    exact if_pos hstatic
  · rw [if_neg hstatic]
    exact if_neg hstatic

mutual

/-- In an arena with enough fuel, an instruction does what it does in the tree. -/
theorem runInstruction_laid (s : Setting σ) {blocks : List Block} :
    ∀ (op : Op) (fuel : Nat) (d : Draft) (t : Tour σ), Op.LaidIn blocks fuel [op] →
      s.runInstruction (s.runBlock blocks fuel) (.ofOp op) d t = some (s.toured op d t)
  | .tag _, _, _, _, _ | .set _ _, _, _, _, _ | .append _ _, _, _, _, _ | .child _, _, _, _, _
  | .spread _, _, _, _, _ => by
    rw [toured, visits, List.append_nil] <;> first | rfl | nofun
  | .element block body, fuel, d, t, h => by
    obtain ⟨less, rfl, hblock, hbody⟩ := h.body
    cases hl : t.pass.folds.lookup block with
    | some value =>
      rw [toured, run_element_kept s body d hl, visits_kept s body hl, List.append_nil,
        Instruction.ofOp, runInstruction, hl]
    | none =>
      have hrun := runInstructions_laid s body less .element (t.visit block) hbody
      have hvisit : s.runBlock blocks (less + 1) block .element t =
          some (s.touredAll body .element (t.visit block)) := by
        rw [runBlock, hblock]
        exact hrun
      rw [Instruction.ofOp, runInstruction_built s d hl hvisit, toured, visits_built s body hl,
        Tour.visit, List.append_assoc]
      rfl

theorem runInstructions_laid (s : Setting σ) {blocks : List Block} :
    ∀ (ops : List Op) (fuel : Nat) (d : Draft) (t : Tour σ), Op.LaidIn blocks fuel ops →
      s.runInstructions (s.runBlock blocks fuel) (Block.ofOps ops) d t = some (s.touredAll ops d t)
  | [], _, _, _, _ => by
    rw [touredAll, visitsAll, List.append_nil]
    rfl
  | op :: rest, fuel, d, t, h => by
    have hop := runInstruction_laid s op fuel d t h.head
    have hrest := runInstructions_laid s rest fuel (s.toured op d t).1 (s.toured op d t).2 h.tail
    rw [Block.ofOps, List.map_cons, runInstructions, hop]
    refine hrest.trans ?_
    simp only [touredAll, toured, visitsAll, runAll, List.append_assoc]

end

/-- The blocks of a compiled template are laid out. -/
theorem laidIn_layout (parts : List String) {fuel : Nat}
    (hfuel : (Template.compile parts).layout.length ≤ fuel) :
    Op.LaidIn (Template.compile parts).layout fuel [.element 0 (Template.compile parts).root] := by
  have hblocks : Op.blocksOfAll [.element 0 (Template.compile parts).root] =
      (Template.compile parts).blocks := Op.blocksOfAll_singleton _
  have hnumbers : Op.numbersOfAll [.element 0 (Template.compile parts).root] =
      List.range (Template.compile parts).blocks.length := by
    rw [Op.numbersOfAll, hblocks, Template.numbers_compile]
  refine ⟨fun row hrow => ?_, hnumbers ▸ List.pairwise_lt_range,
    fun number _ => Nat.le_add_right_of_le hfuel⟩
  rw [hblocks] at hrow
  obtain ⟨id, hid⟩ := List.mem_iff_getElem?.mp hrow
  rw [Template.getElem?_blocks hid, Template.layout, List.getElem?_map, hid, Option.map_some]

/-- Evaluating the arena is evaluating the template, and comes to an end: no reference goes deeper than
there are blocks. -/
theorem evaluateBlocks_layout (s : Setting σ) (parts : List String) {fuel : Nat}
    (hfuel : (Template.compile parts).layout.length ≤ fuel) (folds : Folds) (host : σ) :
    s.evaluateBlocks (Template.compile parts).layout fuel folds host =
      some ((s.evaluate (Template.compile parts) folds host).1,
        ⟨(s.evaluate (Template.compile parts) folds host).2,
          0 :: s.visitsAll (Template.compile parts).root .root { folds, host }⟩) := by
  obtain ⟨less, rfl, hroot, hlaid⟩ := (laidIn_layout parts hfuel).body
  have hrun := runInstructions_laid s _ less .root (.visit 0 ⟨{ folds, host }, []⟩) hlaid
  simp only [evaluateBlocks, runBlock, hroot, hrun, Option.bind_eq_bind, Option.bind_some]
  rfl

/-- Without folding, all blocks are visited in the order of the arena, and the factory is called once for
each but the root. Nothing is kept, so it is the same the next time. -/
theorem evaluateBlocks_afresh {s : Setting σ} (hfold : s.fold = false) (parts : List String)
    {fuel : Nat} (hfuel : (Template.compile parts).layout.length ≤ fuel) (host : σ) :
    ∃ calls, s.logged.evaluateBlocks (Template.compile parts).layout fuel [] ([], host) =
        some ((s.evaluate (Template.compile parts) [] host).1,
          ⟨(s.evaluate (Template.compile parts) [] host).2.logged calls,
            List.range (Template.compile parts).layout.length⟩) ∧
      calls.length = (Template.compile parts).layout.length - 1 ∧
      (s.evaluate (Template.compile parts) [] host).2.folds = [] := by
  have hnumbers : 0 :: Op.numbersOfAll (Template.compile parts).root =
      List.range (Template.compile parts).layout.length := by
    rw [Template.layout, List.length_map]
    exact Template.numbers_compile parts
  have hvisits := visitsAll_afresh hfold (Template.compile parts).root .root ⟨[], [], host⟩ rfl
  have hlogged := visitsAll_afresh (s := s.logged) hfold (Template.compile parts).root .root
    ⟨[], [], ([], host)⟩ rfl
  have hcalls := (handedAll_visits s (Template.compile parts).root .root ⟨[], [], host⟩).length_eq
  have hcount := congrArg List.length hnumbers
  rw [List.length_map, hvisits] at hcalls
  rw [List.length_cons, List.length_range] at hcount
  refine ⟨_, ?_, hcalls.trans (Nat.eq_sub_of_add_eq hcount), ?_⟩
  · rw [s.logged.evaluateBlocks_layout parts hfuel, evaluate_logged, hlogged, hnumbers]
  · exact folds_runAll_afresh hfold (Template.compile parts).root .root ⟨[], [], host⟩ rfl

end Setting

namespace Arena

/-- The scanner builds a tree, whatever the parts are: it never indexes outside the arena, every block
but the root is referred to once, by an earlier block, and evaluations of the arena come to an end with
what they give for the template. Without folding they visit every block once and call the factory once
for each block but the root. -/
theorem compile_isTree (parts : List String) :
    ∃ blocks, compile parts = some blocks ∧ blocks = (Template.compile parts).layout ∧
      IsTree blocks ∧
      ∀ (σ : Type) (s : Setting σ) (fuel : Nat), blocks.length ≤ fuel →
        (∀ (folds : Folds) (host : σ), ∃ visited, s.evaluateBlocks blocks fuel folds host =
          some ((s.evaluate (Template.compile parts) folds host).1,
            ⟨(s.evaluate (Template.compile parts) folds host).2, visited⟩)) ∧
        (s.fold = false → ∀ host : σ, ∃ calls,
          s.logged.evaluateBlocks blocks fuel [] ([], host) =
            some ((s.evaluate (Template.compile parts) [] host).1,
              ⟨(s.evaluate (Template.compile parts) [] host).2.logged calls,
                List.range blocks.length⟩) ∧
          calls.length = blocks.length - 1 ∧
          (s.evaluate (Template.compile parts) [] host).2.folds = []) := by
  refine ⟨_, compile_eq_layout parts, rfl, Template.isTree_layout parts, ?_⟩
  intro σ s fuel hfuel
  constructor
  · intro folds host
    exact ⟨_, s.evaluateBlocks_layout parts hfuel folds host⟩
  · intro hfold host
    exact Setting.evaluateBlocks_afresh hfold parts hfuel host

/-- A list with a comment in it, and a closing tag too many. -/
def menu : List String := ["<ul class=", "><li>a</li><!-- c --><br/></ul></b>"]

theorem compile_isTree_menu :
    ∃ blocks, compile menu = some blocks ∧ blocks.length = 4 ∧ IsTree blocks ∧
      ∃ value tour,
        (Setting.mk 1 Factory.element false [.str "x"]).logged.evaluateBlocks blocks 4 [] ([], {}) =
          some (value, tour) ∧ tour.visited = [0, 1, 2, 3] ∧ tour.pass.host.1.length = 3 := by
  obtain ⟨blocks, hcompile, hlayout, htree, heval⟩ := compile_isTree menu
  have hlength : blocks.length = 4 := by
    rw [hlayout, Template.layout, List.length_map]
    cbv
  obtain ⟨-, hafresh⟩ := heval Bench ⟨1, Factory.element, false, [.str "x"]⟩ 4 (Nat.le_of_eq hlength)
  obtain ⟨calls, hrun, hcalls, -⟩ := hafresh rfl {}
  rw [hlength] at hrun hcalls
  exact ⟨blocks, hcompile, hlength, htree, _, _, hrun, rfl, hcalls⟩

end Arena

end TaggedMarkup
