import TaggedMarkup.Proofs.Template.Numbering
import TaggedMarkup.Template.Arena

/-!
# The scanner on an arena

The scanner that writes into an arena does step by step what the one that builds a tree does: the arena
holds the blocks of the scan in the order in which they opened, and the stack the numbers of the open
ones (`Scan.laid`). The one thing to see is that block number and index agree, which is what
`Scan.Numbered` says. So the index of the innermost open block is never outside the arena, and a block
that is taken back is the last one.
-/

namespace TaggedMarkup

namespace Arena

/-- An instruction goes to the end of the block that is open innermost. -/
theorem push_eq {a : Arena} {before after : List Block} {block : Block}
    (hblocks : a.blocks = before ++ block :: after) (hcurrent : a.current = before.length)
    (i : Instruction) :
    a.push i = some { a with blocks := before ++ (block ++ [i]) :: after } := by
  have hget : a.blocks[a.current]? = some block := by
    rw [hblocks, hcurrent, List.getElem?_append_right (Nat.le_refl _), Nat.sub_self]
    rfl
  have hset : a.blocks.set a.current (block ++ [i]) = before ++ (block ++ [i]) :: after := by
    rw [hblocks, hcurrent, List.set_append_right _ _ (Nat.le_refl _), Nat.sub_self]
    rfl
  simp only [push, hget, Option.bind_eq_bind, Option.bind_some, hset, Option.pure_def]

/-- Where an element is open, closing it puts a reference into the block around it. -/
theorem close_eq {a : Arena} {id : Nat} {stack : List Nat} (h : a.stack = id :: stack)
    (hne : stack ≠ []) : a.close = { a with stack }.push (.recurse id) := by
  obtain ⟨next, outer, rfl⟩ := List.exists_cons_of_ne_nil hne
  simp only [close, h]

/-- The latest block leaves the arena if it is taken back empty. -/
theorem discard_eq {a : Arena} {blocks : List Block} {stack : List Nat}
    (hblocks : a.blocks = blocks ++ [[]]) (h : a.stack = blocks.length :: stack)
    (hne : stack ≠ []) : a.discard = some { blocks, stack } := by
  obtain ⟨next, outer, rfl⟩ := List.exists_cons_of_ne_nil hne
  have hlength : blocks.length + 1 = (blocks ++ [[]]).length := by rw [List.length_append]; rfl
  have hget : (blocks ++ [[]])[blocks.length]? = some [] := List.getElem?_concat_length
  simp only [discard, h, hblocks, if_pos hlength, hget, Option.bind_eq_bind, Option.bind_some,
    List.isEmpty_nil, if_true, List.dropLast_concat, Option.pure_def]

end Arena

namespace Scan

/-- The indices of the open blocks of a scan, the innermost first. -/
def stack (s : Scan) : List Nat := s.frames.map (·.block) ++ [0]

theorem stack_ne_nil (s : Scan) : s.stack ≠ [] :=
  List.append_ne_nil_of_right_ne_nil _ (List.cons_ne_nil _ _)

/-- The scan with its blocks in an arena. -/
def laid (s : Scan) : Arena.Writer where
  mode := s.mode
  buffer := s.buffer
  quote := s.quote
  arena := { blocks := s.rows.map fun row => Block.ofOps row.2, stack := s.stack }

/-! ## What happens to the blocks -/

/-- As many blocks opened before the innermost open element as its number says. -/
theorem length_outer {s : Scan} {later : List Nat} {n : Nat}
    (h : s.numbers ++ later = List.range n) : s.outer.length = s.holder.block := by
  have hnumber : (s.numbers ++ later)[s.outer.length]? = some s.holder.block := by
    rw [numbers, rows_eq, Frame.rows, List.map_append, List.append_assoc,
      List.getElem?_append_right (Nat.le_of_eq (List.length_map _)), List.length_map, Nat.sub_self]
    rfl
  rw [h] at hnumber
  obtain ⟨hlt, hget⟩ := List.getElem?_eq_some_iff.mp hnumber
  rw [List.getElem_range] at hget
  exact hget

@[simp] theorem stack_push (op : Op) (s : Scan) : (s.push op).stack = s.stack := by
  obtain ⟨mode, buffer, quote, root, frames, next⟩ := s
  cases frames <;> rfl

/-- In an arena that has the blocks of an instruction at its end, adding the instruction is what it is
in the tree. -/
theorem push_arena {s : Scan} (h : s.outer.length = s.holder.block) (op : Op) :
    Arena.push (.ofOp op) ⟨(s.rows ++ op.blocks).map fun row => Block.ofOps row.2, s.stack⟩ =
      some (s.push op).laid.arena := by
  have hcurrent : s.stack.headD 0 = s.holder.block := by
    simp only [stack, holder]
    cases s.frames <;> rfl
  have hblocks : (s.rows ++ op.blocks).map (fun row => Block.ofOps row.2) =
      (s.outer.map fun row => Block.ofOps row.2) ++ Block.ofOps s.holder.ops.reverse ::
        (Op.blocksOfAll s.holder.ops.reverse ++ op.blocks).map fun row => Block.ofOps row.2 := by
    rw [rows_eq, Frame.rows, List.append_assoc, List.map_append, List.cons_append, List.map_cons]
  have hpush := Arena.push_eq (a := ⟨_, s.stack⟩) hblocks
    (by rw [List.length_map, h]; exact hcurrent) (.ofOp op)
  rw [hpush]
  simp only [laid, rows_push, stack_push, Frame.rows_cons, List.map_append, List.map_cons,
    Block.ofOps, List.map_nil]

/-- What acts on the arena and leaves the rest of the scan. -/
theorem act_laid {s t : Scan} {f : Arena → Option Arena} (h : f s.laid.arena = some t.laid.arena)
    (hmode : t.mode = s.mode) (hbuffer : t.buffer = s.buffer) (hquote : t.quote = s.quote) :
    s.laid.act f = some t.laid := by
  have heq : t.laid = { s.laid with arena := t.laid.arena } := by
    simp only [laid, hmode, hbuffer, hquote]
  simp only [Arena.Writer.act, h, Option.bind_eq_bind, Option.bind_some, Option.pure_def]
  exact congrArg some heq.symm

theorem push_laid {s : Scan} (h : s.Numbered) (op : Op) (hop : op.blocks = []) :
    s.laid.push (.ofOp op) = some (s.push op).laid := by
  have harena := push_arena (length_outer ((List.append_nil _).trans h)) op
  rw [hop, List.append_nil] at harena
  obtain ⟨mode, buffer, quote, root, frames, next⟩ := s
  cases frames <;> exact act_laid harena rfl rfl rfl

theorem close_laid {s : Scan} (h : s.Numbered) : s.laid.act Arena.close = some s.close.laid := by
  obtain ⟨mode, buffer, quote, root, frames, next⟩ := s
  cases frames with
  | nil => rfl
  | cons frame rest =>
    -- the blocks of the element are at the end already, where they are in the tree from now on
    have hnumbers : (⟨mode, buffer, quote, root, rest, next⟩ : Scan).numbers ++
        frame.rows.map (·.1) = List.range next := List.map_append.symm.trans h
    have hpush := push_arena (length_outer hnumbers) (.element frame.block frame.ops.reverse)
    have harena : Arena.close (laid ⟨mode, buffer, quote, root, frame :: rest, next⟩).arena =
        some (close ⟨mode, buffer, quote, root, frame :: rest, next⟩).laid.arena :=
      (Arena.close_eq rfl (stack_ne_nil ⟨mode, buffer, quote, root, rest, next⟩)).trans hpush
    cases rest <;> exact act_laid harena rfl rfl rfl

theorem discard_laid {s : Scan} (h : s.Numbered) {block : Nat} {rest : List Frame}
    (hf : s.frames = ⟨block, []⟩ :: rest) (hnext : block + 1 = s.next) :
    s.laid.act Arena.discard = some s.discard.laid := by
  obtain ⟨mode, buffer, quote, root, frames, next⟩ := s
  cases hf
  have hlength : (rowsUnder root rest).length = block := length_rows (h.discard rfl hnext)
  have hblocks : (rowsUnder root (⟨block, []⟩ :: rest)).map (fun row => Block.ofOps row.2) =
      (rowsUnder root rest).map (fun row => Block.ofOps row.2) ++ [[]] := by
    rw [rowsUnder, List.map_append]
    rfl
  have hstack : stack ⟨mode, buffer, quote, root, ⟨block, []⟩ :: rest, next⟩ =
      ((rowsUnder root rest).map fun row => Block.ofOps row.2).length ::
        (rest.map (·.block) ++ [0]) := by
    rw [List.length_map, hlength]
    rfl
  have hne := stack_ne_nil ⟨mode, buffer, quote, root, rest, block⟩
  exact act_laid (Arena.discard_eq hblocks hstack hne) rfl rfl rfl

theorem openElement_laid {s : Scan} (h : s.Numbered) :
    s.laid.arena.openElement = s.openElement.laid.arena := by
  have hlength := length_rows h
  simp only [Arena.openElement, laid, openElement, rows, rowsUnder, List.map_append,
    List.length_map, stack]
  rw [show (rowsUnder s.root s.frames).length = s.next from hlength]
  rfl

/-! ## Committing the buffer -/

/-- Cases that are told apart in the same way. -/
theorem ite_laid {c : Prop} [Decidable c] {w v : Option Arena.Writer} {s t : Scan}
    (hw : w = some s.laid) (hv : v = some t.laid) :
    (if c then w else v) = some (if c then s else t).laid := by
  split
  · exact hw
  · exact hv

/-- Going on where a scan has been laid out. -/
theorem bind_laid {β : Type} {w : Option Arena.Writer} {s : Scan} (hw : w = some s.laid)
    (f : Arena.Writer → Option β) : w >>= f = f s.laid := by
  rw [hw]
  rfl

theorem pushPiece_laid {s : Scan} (h : s.Numbered) (name : String) (operand : Operand)
    (begun : Bool) :
    s.laid.pushPiece name operand begun = some (s.pushPiece name operand begun).laid := by
  cases begun with
  | true => exact bind_laid (push_laid h (.append name operand) rfl) _
  | false => exact bind_laid (push_laid h (.set name operand) rfl) _

theorem commit_laid {s : Scan} (h : s.Numbered) : s.laid.commit = some s.commit.laid := by
  obtain ⟨mode, buffer, quote, root, frames, next⟩ := s
  have hclear : (⟨mode, [], quote, root, frames, next⟩ : Scan).Numbered := h
  cases mode with
  | slash | comment _ => rfl
  | text =>
    simp only [Arena.Writer.commit, commit, laid, Arena.Writer.word, word]
    exact ite_laid rfl (push_laid hclear (.child _) rfl)
  | space =>
    simp only [Arena.Writer.commit, commit, laid, Arena.Writer.word, word]
    exact ite_laid rfl (push_laid hclear (.set _ _) rfl)
  | tagName =>
    simp only [Arena.Writer.commit, commit, laid, Arena.Writer.word, word]
    exact ite_laid rfl (bind_laid (push_laid hclear (.tag _) rfl) _)
  | value name begun =>
    simp only [Arena.Writer.commit, commit, laid, Arena.Writer.word, word]
    exact ite_laid rfl (pushPiece_laid hclear _ _ _)

theorem commitField_laid {s : Scan} (h : s.Numbered) (field : Nat) :
    s.laid.commitField field = some (s.commitField field).laid := by
  obtain ⟨mode, buffer, quote, root, frames, next⟩ := s
  have hclear : (⟨mode, [], quote, root, frames, next⟩ : Scan).Numbered := h
  cases mode with
  | slash | comment _ => rfl
  | text => exact push_laid hclear (.child _) rfl
  | tagName => exact bind_laid (push_laid hclear (.tag _) rfl) _
  | space => exact ite_laid (push_laid hclear (.spread _) rfl) rfl
  | value name begun =>
    refine ite_laid (pushPiece_laid hclear _ _ _) ?_
    exact (bind_laid (pushPiece_laid hclear _ _ _) _).trans
      (pushPiece_laid (hclear.pushPiece _ _ _) _ _ _)

/-! ## Steps and runs -/

theorem commitInto_laid {s : Scan} (h : s.Numbered) (mode : Mode) :
    s.laid.commitInto mode = some ({ s.commit with mode } : Scan).laid :=
  bind_laid (commit_laid h) _

/-- A slash takes back an element that has just been opened, or closes one. -/
theorem slash_laid {s : Scan} (h : s.WellNumbered) : s.laid.slash = some s.slash.laid := by
  have hcommit : s.commit.Numbered := h.numbered.commit
  have hopening := h.opening.commit
  refine (bind_laid (commit_laid h.numbered) _).trans ?_
  simp only [slash]
  by_cases hm : s.commit.mode = .tagName
  · obtain ⟨block, rest, hf, hnext⟩ := hopening hm
    have hmode : s.commit.laid.mode = .tagName := hm
    rw [if_pos hm, if_pos hmode]
    refine (bind_laid (discard_laid hcommit hf hnext) _).trans ?_
    exact bind_laid (close_laid (hcommit.discard hf hnext)) _
  · have hmode : s.commit.laid.mode ≠ .tagName := hm
    rw [if_neg hm, if_neg hmode]
    exact bind_laid (close_laid hcommit) _

theorem stepTag_laid {s : Scan} (h : s.WellNumbered) (c : Char) (following : Option Char) :
    s.laid.stepTag c following = some (s.stepTag c following).laid := by
  have hinValue : s.laid.inValue = s.inValue := rfl
  have hmode : s.laid.mode = s.mode := rfl
  simp only [Arena.Writer.stepTag, stepTag, hinValue, hmode]
  refine ite_laid rfl (ite_laid ?_ (ite_laid rfl (ite_laid rfl (ite_laid ?_ (ite_laid ?_ rfl)))))
  · exact commitInto_laid h.numbered .text
  · exact slash_laid h
  · exact commitInto_laid h.numbered .space

theorem enterComment_laid {s : Scan} (h : s.WellNumbered) :
    s.laid.enterComment = some s.enterComment.laid := by
  have hmode : s.laid.mode = s.mode := rfl
  have hbuffer : s.laid.buffer = s.buffer := rfl
  simp only [Arena.Writer.enterComment, enterComment, hmode, hbuffer]
  by_cases hc : s.mode = .tagName ∧ s.buffer = ['-', '-', '!']
  · obtain ⟨block, rest, hf, hnext⟩ := h.opening hc.1
    rw [if_pos hc, if_pos hc]
    exact bind_laid (discard_laid h.numbered hf hnext) _
  · rw [if_neg hc, if_neg hc]

theorem stepInside_laid {s : Scan} (h : s.WellNumbered) (c : Char) (following : Option Char) :
    s.laid.stepInside c following = some (s.stepInside c following).laid := by
  have hquote : s.laid.quote = s.quote := rfl
  simp only [Arena.Writer.stepInside, stepInside, hquote]
  cases s.quote with
  | none => exact stepTag_laid h c following
  | some quote =>
    dsimp only
    split <;> rfl

theorem step_laid {s : Scan} (h : s.WellNumbered) (c : Char) (following : Option Char) :
    s.laid.step c following = some (s.step c following).laid := by
  have hinside : (s.laid.stepInside c following).bind Arena.Writer.enterComment = _ :=
    (bind_laid (stepInside_laid h c following) _).trans
      (enterComment_laid (h.stepInside c following))
  have hopen : ({ s.commit.laid with
      arena := s.commit.laid.arena.openElement, mode := .tagName } : Arena.Writer) =
      ({ s.commit.openElement with mode := .tagName } : Scan).laid := by
    rw [openElement_laid h.numbered.commit]
    rfl
  obtain ⟨mode, buffer, quote, root, frames, next⟩ := s
  cases mode with
  | text =>
    simp only [Arena.Writer.step, step]
    exact ite_laid ((bind_laid (commit_laid h.numbered) _).trans (congrArg some hopen)) rfl
  | comment latest =>
    simp only [Arena.Writer.step, step]
    exact ite_laid rfl rfl
  | slash | space | tagName | value name begun => exact hinside

theorem part_laid {s : Scan} (h : s.WellNumbered) (cs : List Char) :
    s.laid.part cs = some (part cs s).laid := by
  induction cs generalizing s with
  | nil => rfl
  | cons c rest ih =>
    exact (bind_laid (step_laid h c rest.head?) _).trans (ih (h.step c rest.head?))

theorem field_laid {s : Scan} (h : s.Numbered) (index : Nat) :
    s.laid.field index = some (s.field index).laid := by
  have htext : (if s.laid.mode = .text then s.laid.commit else some s.laid) =
      some (if s.mode = .text then s.commit else s).laid := ite_laid (commit_laid h) rfl
  refine (bind_laid htext _).trans (commitField_laid ?_ index)
  split
  · exact h.commit
  · exact h

theorem rest_laid {s : Scan} (h : s.WellNumbered) (index : Nat) (ps : List String) :
    s.laid.rest index ps = some (rest index ps s).laid := by
  induction ps generalizing s index with
  | nil => rfl
  | cons p ps ih =>
    have hfield := h.field index
    refine (bind_laid (field_laid h.numbered index) _).trans ?_
    exact (bind_laid (part_laid hfield p.toList) _).trans (ih (hfield.part p.toList) (index + 1))

theorem parts_laid {s : Scan} (h : s.WellNumbered) (ps : List String) :
    s.laid.parts ps = some (parts ps s).laid := by
  cases ps with
  | nil => rfl
  | cons p ps =>
    exact (bind_laid (part_laid h p.toList) _).trans (rest_laid (h.part p.toList) 0 ps)

theorem closeTimes_laid {s : Scan} (h : s.Numbered) (n : Nat) :
    s.laid.closeTimes n = some (Nat.repeat close n s).laid ∧ (Nat.repeat close n s).Numbered := by
  induction n with
  | zero => exact ⟨rfl, h⟩
  | succ n ih => exact ⟨(bind_laid ih.1 _).trans (close_laid ih.2), ih.2.close⟩

theorem finish_laid {s : Scan} (h : s.Numbered) : s.laid.finish = some s.finish.laid := by
  have hlength : s.commit.laid.arena.stack.length - 1 = s.commit.frames.length := by
    simp only [laid, stack, List.length_append, List.length_map, List.length_singleton,
      Nat.add_sub_cancel]
  refine (bind_laid (commit_laid h) _).trans ?_
  rw [hlength]
  exact (closeTimes_laid h.commit _).1

end Scan

namespace Arena

/-- The scanner that writes into an arena never indexes outside it, and lays out the blocks of the
compiled template. -/
theorem compile_eq_layout (parts : List String) :
    compile parts = some (Template.compile parts).layout := by
  have hstart := Scan.wellNumbered_start
  have hparts := hstart.parts parts
  have hread : Writer.parts parts {} = some (Scan.parts parts {}).laid :=
    Scan.parts_laid hstart parts
  have hrows : (Scan.parts parts {}).finish.rows = (Template.compile parts).blocks :=
    Scan.rows_finish _
  refine (Scan.bind_laid hread _).trans ?_
  refine (Scan.bind_laid (Scan.finish_laid hparts.numbered) _).trans ?_
  rw [Scan.laid, hrows]
  rfl

end Arena

end TaggedMarkup
