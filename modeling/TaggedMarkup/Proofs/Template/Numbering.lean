import Mathlib.Data.List.Nodup
import TaggedMarkup.Template.Scanner

/-!
# Block numbers

What is folded in a template is kept under block numbers, so **no two elements of a template may
share one**. The scanner counts the numbers up, but it also takes numbers back: what looked like an
element may turn out to be a closing tag or a comment. That is safe only because the element that is
taken back is the latest one and has no instructions yet.

The invariant says more. All blocks of a scan, of elements that are open as well as of those in the
tree, stand in the order in which they opened (`rows`), and their numbers in this order are 0, 1, 2 and
so on up to the next one (`Numbered`); while a tag name is read, the innermost open element is empty and
has the number before the next one (`Opening`).
-/

namespace TaggedMarkup

namespace Op

/-- The numbers of the blocks in a list of instructions. -/
def numbersOfAll (ops : List Op) : List Nat := (blocksOfAll ops).map (·.1)

theorem blocksOfAll_append (ops more : List Op) :
    blocksOfAll (ops ++ more) = blocksOfAll ops ++ blocksOfAll more := by
  induction ops with
  | nil => rfl
  | cons op rest ih => rw [List.cons_append, blocksOfAll, ih, blocksOfAll, List.append_assoc]

theorem blocksOfAll_singleton (op : Op) : blocksOfAll [op] = blocks op := by
  rw [blocksOfAll, blocksOfAll, List.append_nil]

theorem numbersOfAll_cons (op : Op) (ops : List Op) :
    numbersOfAll (op :: ops) = (blocks op).map (·.1) ++ numbersOfAll ops := by
  rw [numbersOfAll, blocksOfAll, List.map_append, ← numbersOfAll]

mutual

/-- A block of an instruction, with those in it, stands in one place among the blocks. -/
theorem sublist_blocks : ∀ (op : Op) {block : Nat} {body : List Op},
    (block, body) ∈ op.blocks → ((block, body) :: blocksOfAll body).Sublist op.blocks
  | .tag _, _, _, h | .set _ _, _, _, h | .append _ _, _, _, h | .spread _, _, _, h
  | .child _, _, _, h => by cases h
  | .element _ inner, _, _, h => by
    rcases List.mem_cons.mp h with heq | hmem
    · obtain ⟨rfl, rfl⟩ := Prod.mk.inj heq
      exact List.Sublist.refl _
    · exact (sublist_blocksOfAll inner hmem).cons _

theorem sublist_blocksOfAll : ∀ (ops : List Op) {block : Nat} {body : List Op},
    (block, body) ∈ blocksOfAll ops →
      ((block, body) :: blocksOfAll body).Sublist (blocksOfAll ops)
  | [], _, _, h => by cases h
  | op :: rest, _, _, h => by
    rcases List.mem_append.mp h with hop | hrest
    · exact (sublist_blocks op hop).trans (List.sublist_append_left _ _)
    · exact (sublist_blocksOfAll rest hrest).trans (List.sublist_append_right _ _)

end

/-- The blocks below a block are blocks too. -/
theorem blocksOfAll_subset_blocksOfAll {ops body : List Op} {block : Nat}
    (h : (block, body) ∈ blocksOfAll ops) : blocksOfAll body ⊆ blocksOfAll ops :=
  List.subset_of_cons_subset (sublist_blocksOfAll ops h).subset

end Op

/-- The block of an open element and those in it, in the order in which they opened. -/
def Frame.rows (frame : Frame) : List (Nat × List Op) :=
  (frame.block, frame.ops.reverse) :: Op.blocksOfAll frame.ops.reverse

/-- One more instruction brings its blocks after those that are there. -/
theorem Frame.rows_cons (block : Nat) (op : Op) (ops : List Op) :
    (⟨block, op :: ops⟩ : Frame).rows =
      (block, ops.reverse ++ [op]) :: (Op.blocksOfAll ops.reverse ++ op.blocks) := by
  simp only [rows, List.reverse_cons, Op.blocksOfAll_append, Op.blocksOfAll_singleton]

namespace Scan

/-- The blocks at the root and of the open elements, in the order in which they opened. -/
def rowsUnder (root : List Op) : List Frame → List (Nat × List Op)
  | [] => (⟨0, root⟩ : Frame).rows
  | frame :: rest => rowsUnder root rest ++ frame.rows

/-- The blocks in a scan with what they hold so far, in the order in which they opened. -/
def rows (s : Scan) : List (Nat × List Op) := rowsUnder s.root s.frames

/-- The innermost open element; the root counts as one. -/
def holder (s : Scan) : Frame := s.frames.headD ⟨0, s.root⟩

/-- The blocks that opened before the innermost open element. -/
def outer (s : Scan) : List (Nat × List Op) :=
  match s.frames with
  | [] => []
  | _ :: rest => rowsUnder s.root rest

theorem rows_eq (s : Scan) : s.rows = s.outer ++ s.holder.rows := by
  obtain ⟨mode, buffer, quote, root, frames, next⟩ := s
  cases frames <;> rfl

/-- An instruction goes to the end of the innermost open element. -/
theorem rows_push (op : Op) (s : Scan) :
    (s.push op).rows = s.outer ++ (⟨s.holder.block, op :: s.holder.ops⟩ : Frame).rows := by
  obtain ⟨mode, buffer, quote, root, frames, next⟩ := s
  cases frames <;> rfl

/-- The numbers of the blocks in a scan, that of the root among them. -/
def numbers (s : Scan) : List Nat := s.rows.map (·.1)

/-- The blocks are numbered in the order in which they opened. -/
def Numbered (s : Scan) : Prop := s.numbers = List.range s.next

/-- The next number is the number of blocks. -/
theorem length_rows {s : Scan} (h : s.Numbered) : s.rows.length = s.next := by
  have hlength := congrArg List.length h
  rw [numbers, List.length_map, List.length_range] at hlength
  exact hlength

/-- While a tag name is read, nothing has happened since the innermost element was opened. -/
def Opening (s : Scan) : Prop :=
  s.mode = .tagName → ∃ block rest, s.frames = ⟨block, []⟩ :: rest ∧ block + 1 = s.next

/-! ## Instructions

An instruction that is no element brings no number with it. -/

theorem numbers_push (op : Op) (s : Scan) :
    (s.push op).numbers = s.numbers ++ op.blocks.map (·.1) := by
  rw [numbers, rows_push, Frame.rows_cons, numbers, rows_eq, Frame.rows]
  simp only [List.map_append, List.map_cons, List.append_assoc, List.cons_append]

@[simp] theorem next_push (op : Op) (s : Scan) : (s.push op).next = s.next := by
  simp only [push]
  cases s.frames <;> rfl

@[simp] theorem mode_push (op : Op) (s : Scan) : (s.push op).mode = s.mode := by
  simp only [push]
  cases s.frames <;> rfl

/-- Being numbered is about the instructions, the open elements and the next number only. -/
theorem Numbered.congr {s t : Scan} (h : s.Numbered) (hroot : t.root = s.root)
    (hframes : t.frames = s.frames) (hnext : t.next = s.next) : t.Numbered := by
  rw [Numbered, numbers, rows, hroot, hframes, hnext]
  exact h

theorem Numbered.push {s : Scan} (h : s.Numbered) (op : Op) (hop : op.blocks = []) :
    (s.push op).Numbered := by
  rw [Numbered, numbers_push, hop, List.map_nil, List.append_nil, next_push]
  exact h

theorem Numbered.pushPiece {s : Scan} (h : s.Numbered) (name : String) (operand : Operand)
    (begun : Bool) : (s.pushPiece name operand begun).Numbered := by
  have hop : (if begun then Op.append name operand else Op.set name operand).blocks = [] := by
    cases begun <;> rfl
  exact (h.push _ hop).congr rfl rfl rfl

/-! ## Opening, closing and taking back -/

theorem Numbered.openElement {s : Scan} (h : s.Numbered) : s.openElement.Numbered := by
  have hnumbers : s.openElement.numbers = s.numbers ++ [s.next] := List.map_append
  have hnext : List.range s.openElement.next = List.range s.next ++ [s.next] := List.range_succ
  rw [Numbered, hnumbers, hnext, h]

/-- Closing an element moves it into the tree, with its numbers. -/
theorem numbers_close (s : Scan) : s.close.numbers = s.numbers := by
  simp only [Scan.close]
  cases hf : s.frames with
  | nil => rfl
  | cons frame rest =>
    rw [numbers_push, numbers, numbers, rows, rows, hf, rowsUnder, List.map_append]
    rfl

@[simp] theorem next_close (s : Scan) : s.close.next = s.next := by
  simp only [Scan.close]
  cases s.frames with
  | nil => rfl
  | cons frame rest => exact next_push _ _

theorem Numbered.close {s : Scan} (h : s.Numbered) : s.close.Numbered := by
  rw [Numbered, numbers_close, next_close]
  exact h

/-- Taking the latest element back takes back its number. -/
theorem Numbered.discard {s : Scan} (h : s.Numbered) {block : Nat} {rest : List Frame}
    (hf : s.frames = ⟨block, []⟩ :: rest) (hnext : block + 1 = s.next) :
    s.discard.Numbered := by
  have hdiscard : s.discard = { s with frames := rest, next := block } := by
    simp only [Scan.discard, hf]
  have hnumbers : s.numbers = s.discard.numbers ++ [block] := by
    rw [hdiscard, numbers, rows, hf, rowsUnder, List.map_append]
    rfl
  rw [Numbered, hnumbers, ← hnext, List.range_succ] at h
  rw [Numbered, List.append_cancel_right h, hdiscard]

/-! ## Committing the buffer -/

theorem Numbered.commit {s : Scan} (h : s.Numbered) : s.commit.Numbered := by
  obtain ⟨mode, buffer, quote, root, frames, next⟩ := s
  have hclear : (⟨mode, [], quote, root, frames, next⟩ : Scan).Numbered := h.congr rfl rfl rfl
  cases mode with
  | slash | comment _ => exact hclear.congr rfl rfl rfl
  | text =>
    simp only [Scan.commit]
    split
    · exact hclear
    · exact hclear.push (.child _) rfl
  | space =>
    simp only [Scan.commit]
    split
    · exact hclear
    · exact hclear.push (.set _ _) rfl
  | tagName =>
    simp only [Scan.commit]
    split
    · exact hclear
    · exact (hclear.push (.tag _) rfl).congr rfl rfl rfl
  | value name begun =>
    simp only [Scan.commit]
    split
    · exact hclear
    · exact hclear.pushPiece _ _ _

/-- If a commit leaves the scanner in a tag name, the name had not begun. -/
theorem Opening.commit {s : Scan} (h : s.Opening) : s.commit.Opening := by
  obtain ⟨mode, buffer, quote, root, frames, next⟩ := s
  intro hmode
  cases mode with
  | slash | comment _ => cases hmode
  | tagName =>
    simp only [Scan.commit] at hmode ⊢
    split at hmode
    · rename_i hword
      rw [if_pos hword]
      exact h rfl
    · cases hmode
  | text | space =>
    simp only [Scan.commit] at hmode
    split at hmode
    · cases hmode
    · rw [mode_push] at hmode
      cases hmode
  | value name begun =>
    simp only [Scan.commit] at hmode
    split at hmode <;> cases hmode

theorem Numbered.commitField {s : Scan} (h : s.Numbered) (field : Nat) :
    (s.commitField field).Numbered := by
  obtain ⟨mode, buffer, quote, root, frames, next⟩ := s
  have hclear : (⟨mode, [], quote, root, frames, next⟩ : Scan).Numbered := h.congr rfl rfl rfl
  cases mode with
  | slash | comment _ => exact hclear.congr rfl rfl rfl
  | text => exact hclear.push (.child _) rfl
  | tagName => exact (hclear.push (.tag _) rfl).congr rfl rfl rfl
  | space =>
    simp only [Scan.commitField]
    split
    · exact hclear.push (.spread _) rfl
    · exact hclear
  | value name begun =>
    simp only [Scan.commitField]
    split
    · exact hclear.pushPiece _ _ _
    · exact (hclear.pushPiece _ _ _).pushPiece _ _ _

/-- A field ends a tag name. -/
theorem opening_commitField (s : Scan) (field : Nat) : (s.commitField field).Opening := by
  obtain ⟨mode, buffer, quote, root, frames, next⟩ := s
  intro hmode
  cases mode with
  | slash | comment _ => cases hmode
  | tagName => cases hmode
  | text =>
    simp only [Scan.commitField, mode_push] at hmode
    cases hmode
  | space =>
    simp only [Scan.commitField] at hmode
    split at hmode
    · rw [mode_push] at hmode
      cases hmode
    · cases hmode
  | value name begun =>
    simp only [Scan.commitField] at hmode
    split at hmode <;> cases hmode

/-! ## Steps and runs -/

/-- The scanner is inside a tag. -/
def IsInside (s : Scan) : Prop := s.mode ≠ .text ∧ ∀ latest, s.mode ≠ .comment latest

/-- Read a character inside a tag, where a quote may be open. -/
def stepInside (c : Char) (following : Option Char) (s : Scan) : Scan :=
  match s.quote with
  | some quote => if c = quote then { s with quote := none } else s.buffered c
  | none => s.stepTag c following

theorem step_inside {s : Scan} (h : s.IsInside) (c : Char) (following : Option Char) :
    s.step c following = (s.stepInside c following).enterComment := by
  obtain ⟨mode, buffer, quote, root, frames, next⟩ := s
  cases mode with
  | text => exact absurd rfl h.1
  | comment latest => exact absurd rfl (h.2 latest)
  | slash | space | tagName | value name begun => rfl

/-- The invariant of the scanner. -/
structure WellNumbered (s : Scan) : Prop where
  numbered : s.Numbered
  opening : s.Opening

/-- Nothing is read as a tag name in another mode. -/
theorem opening_of_mode {s : Scan} (h : s.mode ≠ .tagName) : s.Opening := fun hmode => absurd hmode h

theorem Numbered.slash {s : Scan} (h : s.WellNumbered) : s.slash.Numbered := by
  have hcommit : s.commit.Numbered := h.numbered.commit
  have hopening := h.opening.commit
  simp only [Scan.slash]
  by_cases hm : s.commit.mode = .tagName
  · obtain ⟨block, rest, hf, hnext⟩ := hopening hm
    rw [if_pos hm]
    exact (hcommit.discard hf hnext).close.congr rfl rfl rfl
  · rw [if_neg hm]
    exact hcommit.close.congr rfl rfl rfl

theorem WellNumbered.stepTag {s : Scan} (h : s.WellNumbered) (c : Char)
    (following : Option Char) : (s.stepTag c following).WellNumbered := by
  simp only [Scan.stepTag]
  split_ifs
  · exact ⟨h.numbered.congr rfl rfl rfl, h.opening⟩
  · exact ⟨h.numbered.commit.congr rfl rfl rfl, opening_of_mode nofun⟩
  · exact h
  · exact ⟨h.numbered.congr rfl rfl rfl, opening_of_mode nofun⟩
  · exact ⟨.slash h, opening_of_mode nofun⟩
  · exact ⟨h.numbered.commit.congr rfl rfl rfl, opening_of_mode nofun⟩
  · exact ⟨h.numbered.congr rfl rfl rfl, h.opening⟩

theorem WellNumbered.enterComment {s : Scan} (h : s.WellNumbered) :
    s.enterComment.WellNumbered := by
  simp only [Scan.enterComment]
  split
  · rename_i hc
    obtain ⟨block, rest, hf, hnext⟩ := h.opening hc.1
    exact ⟨(h.numbered.discard hf hnext).congr rfl rfl rfl, opening_of_mode nofun⟩
  · exact h

/-- The element that opens at a `<` is empty, and its number is the latest. -/
theorem WellNumbered.openTag {s : Scan} (h : s.WellNumbered) :
    ({ s.commit.openElement with mode := .tagName } : Scan).WellNumbered := by
  refine ⟨h.numbered.commit.openElement.congr rfl rfl rfl, fun _ => ?_⟩
  exact ⟨s.commit.next, s.commit.frames, rfl, rfl⟩

/-- Outside tags a character only changes the mode and the buffer. -/
theorem WellNumbered.outside {s : Scan} (h : s.WellNumbered) (mode : Mode)
    (buffer : List Char) (hmode : mode ≠ .tagName) :
    ({ s with mode, buffer } : Scan).WellNumbered :=
  ⟨h.numbered.congr rfl rfl rfl, opening_of_mode hmode⟩

theorem WellNumbered.buffered {s : Scan} (h : s.WellNumbered) (c : Char) :
    (s.buffered c).WellNumbered := ⟨h.numbered.congr rfl rfl rfl, h.opening⟩

theorem WellNumbered.stepInside {s : Scan} (h : s.WellNumbered) (c : Char)
    (following : Option Char) : (s.stepInside c following).WellNumbered := by
  simp only [Scan.stepInside]
  cases s.quote with
  | none => exact h.stepTag c following
  | some quote =>
    dsimp only
    split
    · exact ⟨h.numbered.congr rfl rfl rfl, h.opening⟩
    · exact h.buffered c

theorem WellNumbered.step {s : Scan} (h : s.WellNumbered) (c : Char)
    (following : Option Char) : (s.step c following).WellNumbered := by
  have hinside := (h.stepInside c following).enterComment
  obtain ⟨mode, buffer, quote, root, frames, next⟩ := s
  cases mode with
  | text =>
    by_cases hc : c = '<'
    · rw [Scan.step, if_pos hc]
      exact h.openTag
    · rw [Scan.step, if_neg hc]
      exact h.buffered c
  | comment latest =>
    by_cases hc : latest = ['-', '-'] ∧ c = '>'
    · simp only [Scan.step, if_pos hc]
      exact h.outside .text [] nofun
    · simp only [Scan.step, if_neg hc]
      exact h.outside (.comment _) buffer nofun
  | slash | space | tagName | value name begun => exact hinside

theorem WellNumbered.part {s : Scan} (h : s.WellNumbered) (cs : List Char) :
    (part cs s).WellNumbered := by
  induction cs generalizing s with
  | nil => exact h
  | cons c rest ih => exact ih (h.step c rest.head?)

theorem WellNumbered.field {s : Scan} (h : s.WellNumbered) (index : Nat) :
    (s.field index).WellNumbered := by
  refine ⟨?_, opening_commitField _ _⟩
  simp only [Scan.field]
  split
  · exact h.numbered.commit.commitField index
  · exact h.numbered.commitField index

theorem WellNumbered.rest {s : Scan} (h : s.WellNumbered) (index : Nat) (ps : List String) :
    (rest index ps s).WellNumbered := by
  induction ps generalizing s index with
  | nil => exact h
  | cons p ps ih => exact ih ((h.field index).part p.toList) (index + 1)

theorem WellNumbered.parts {s : Scan} (h : s.WellNumbered) (ps : List String) :
    (parts ps s).WellNumbered := by
  cases ps with
  | nil => exact h
  | cons p ps => exact (h.part p.toList).rest 0 ps

theorem Numbered.closeAll {s : Scan} (h : s.Numbered) : s.closeAll.Numbered := by
  simp only [Scan.closeAll]
  induction s.frames.length with
  | zero => exact h
  | succ n ih => exact ih.close

/-- At the start there is only the root. -/
theorem wellNumbered_start : ({} : Scan).WellNumbered := ⟨rfl, opening_of_mode nofun⟩

/-- Closing a frame leaves one less. -/
theorem length_frames_close (s : Scan) : s.close.frames.length = s.frames.length - 1 := by
  simp only [close]
  cases hf : s.frames with
  | nil => rw [hf]; rfl
  | cons frame rest =>
    cases rest with
    | nil => rfl
    | cons => rfl

/-- At the end no element is open. -/
theorem frames_closeAll (s : Scan) : s.closeAll.frames = [] := by
  have hlength : ∀ n, (Nat.repeat close n s).frames.length = s.frames.length - n := by
    intro n
    induction n with
    | zero => rfl
    | succ n ih => rw [Nat.repeat, length_frames_close, ih, Nat.sub_sub]
  exact List.length_eq_zero_iff.mp ((hlength _).trans (Nat.sub_self _))

/-- So all blocks are in the tree. -/
theorem rows_finish (s : Scan) :
    s.finish.rows = (0, s.finish.root.reverse) :: Op.blocksOfAll s.finish.root.reverse := by
  rw [rows, show s.finish.frames = [] from frames_closeAll _]
  rfl

end Scan

namespace Template

/-- The blocks of a compiled template are numbered from 0 on, whatever its parts are. -/
theorem numbers_compile (parts : List String) :
    (compile parts).blocks.map (·.1) = List.range (compile parts).blocks.length := by
  have h : (Scan.parts parts {}).finish.Numbered :=
    (Scan.wellNumbered_start.parts parts).numbered.commit.closeAll
  have hblocks : (Scan.parts parts {}).finish.rows = (compile parts).blocks := Scan.rows_finish _
  have hlength := Scan.length_rows h
  rw [Scan.Numbered, Scan.numbers, hblocks] at h
  rw [h, ← hlength, hblocks]

/-- So they have distinct block numbers. -/
theorem nodup_numbers_compile (parts : List String) :
    (Op.numbersOfAll (compile parts).root).Nodup := by
  have hnodup : ((compile parts).blocks.map (·.1)).Nodup :=
    numbers_compile parts ▸ List.nodup_range
  exact (List.nodup_cons.mp hnodup).2

end Template

end TaggedMarkup
