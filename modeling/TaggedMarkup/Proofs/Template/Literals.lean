import TaggedMarkup.Proofs.Template.Numbering

/-!
# What templates state

The values that a compiled template states by itself are **literals**: texts, and `true` for an attribute
without a value. Everything else comes in by a field. The scanner only ever adds instructions with literals
or fields, so the invariant is that all instructions it holds are of this kind.
-/

namespace TaggedMarkup

/-- The value is a text, or the value of an attribute that is only named. -/
inductive Value.IsLiteral : Value → Prop
  | str (text : String) : IsLiteral (.str text)
  | flag : IsLiteral (.bool true)

/-- What the operand states is a literal. -/
inductive Operand.IsLiteral : Operand → Prop
  | fixed {value : Value} : value.IsLiteral → IsLiteral (.fixed value)
  | field (index : Nat) : IsLiteral (.field index)

/-- All that the instruction states, and those within it, are literals. -/
inductive Op.IsLiteral : Op → Prop
  | tag {operand : Operand} : operand.IsLiteral → IsLiteral (.tag operand)
  | spread (field : Nat) : IsLiteral (.spread field)
  | set {name : String} {operand : Operand} : operand.IsLiteral → IsLiteral (.set name operand)
  | append {name : String} {operand : Operand} : operand.IsLiteral → IsLiteral (.append name operand)
  | child {operand : Operand} : operand.IsLiteral → IsLiteral (.child operand)
  | element {block : Nat} {body : List Op} : (∀ op ∈ body, IsLiteral op) →
    IsLiteral (.element block body)

namespace Scan

/-- All instructions so far state literals. -/
structure IsLiteral (s : Scan) : Prop where
  root : ∀ op ∈ s.root, op.IsLiteral
  frames : ∀ frame ∈ s.frames, ∀ op ∈ frame.ops, op.IsLiteral

namespace IsLiteral

variable {s : Scan}

/-- Only the instructions matter. -/
theorem congr {t : Scan} (h : s.IsLiteral) (hroot : t.root = s.root) (hframes : t.frames = s.frames) :
    t.IsLiteral :=
  ⟨hroot ▸ h.root, hframes ▸ h.frames⟩

theorem push (h : s.IsLiteral) {op : Op} (hop : op.IsLiteral) : (s.push op).IsLiteral := by
  unfold Scan.push
  split
  · exact ⟨List.forall_mem_cons.mpr ⟨hop, h.root⟩, h.frames⟩
  · rename_i frame rest hf
    have hframes := h.frames
    rw [hf, List.forall_mem_cons] at hframes
    exact ⟨h.root, List.forall_mem_cons.mpr ⟨List.forall_mem_cons.mpr ⟨hop, hframes.1⟩, hframes.2⟩⟩

theorem openElement (h : s.IsLiteral) : s.openElement.IsLiteral :=
  ⟨h.root, List.forall_mem_cons.mpr ⟨nofun, h.frames⟩⟩

theorem discard (h : s.IsLiteral) : s.discard.IsLiteral := by
  unfold Scan.discard
  split
  · exact h
  · rename_i frame rest hf
    have hframes := h.frames
    rw [hf, List.forall_mem_cons] at hframes
    exact ⟨h.root, hframes.2⟩

/-- Closing an element wraps up its instructions. -/
theorem close (h : s.IsLiteral) : s.close.IsLiteral := by
  unfold Scan.close
  split
  · exact h
  · rename_i frame rest hf
    have hframes := h.frames
    rw [hf, List.forall_mem_cons] at hframes
    have hrest : ({ s with frames := rest } : Scan).IsLiteral := ⟨h.root, hframes.2⟩
    exact hrest.push (.element fun op hop => hframes.1 op (List.mem_reverse.mp hop))

theorem closeAll (h : s.IsLiteral) : s.closeAll.IsLiteral := by
  have hclose : ∀ n, (Nat.repeat Scan.close n s).IsLiteral := by
    intro n
    induction n with
    | zero => exact h
    | succ n ih => exact ih.close
  exact hclose _

theorem pushPiece (h : s.IsLiteral) (name : String) {operand : Operand} (hoperand : operand.IsLiteral)
    (begun : Bool) : (s.pushPiece name operand begun).IsLiteral := by
  have hop : (if begun then Op.append name operand else Op.set name operand).IsLiteral := by
    cases begun
    · exact .set hoperand
    · exact .append hoperand
  exact (h.push hop).congr rfl rfl

theorem commit (h : s.IsLiteral) : s.commit.IsLiteral := by
  have hclear : ({ s with buffer := [] } : Scan).IsLiteral := h.congr rfl rfl
  unfold Scan.commit
  dsimp only
  split
  · split
    · exact hclear
    · exact hclear.push (.child (.fixed (.str _)))
  · split
    · exact hclear
    · exact (hclear.push (.tag (.fixed (.str _)))).congr rfl rfl
  · split
    · exact hclear
    · exact hclear.push (.set (.fixed .flag))
  · split
    · exact hclear
    · exact hclear.pushPiece _ (.fixed (.str _)) _
  · exact hclear.congr rfl rfl
  · exact hclear

theorem commitField (h : s.IsLiteral) (field : Nat) : (s.commitField field).IsLiteral := by
  have hclear : ({ s with buffer := [] } : Scan).IsLiteral := h.congr rfl rfl
  unfold Scan.commitField
  dsimp only
  split
  · exact hclear.push (.child (.field field))
  · exact (hclear.push (.tag (.field field))).congr rfl rfl
  · split
    · exact hclear.push (.spread field)
    · exact hclear
  · split
    · exact hclear.pushPiece _ (.field field) _
    · exact (hclear.pushPiece _ (.fixed (.str _)) _).pushPiece _ (.field field) _
  · exact hclear.congr rfl rfl
  · exact hclear

theorem slash (h : s.IsLiteral) : s.slash.IsLiteral := by
  unfold Scan.slash
  dsimp only
  split
  · exact h.commit.discard.close.congr rfl rfl
  · exact h.commit.close.congr rfl rfl

theorem stepTag (h : s.IsLiteral) (c : Char) (following : Option Char) :
    (s.stepTag c following).IsLiteral := by
  unfold Scan.stepTag
  split_ifs
  · exact h.congr rfl rfl
  · exact h.commit.congr rfl rfl
  · exact h
  · exact h.congr rfl rfl
  · exact h.slash
  · exact h.commit.congr rfl rfl
  · exact h.congr rfl rfl

theorem enterComment (h : s.IsLiteral) : s.enterComment.IsLiteral := by
  unfold Scan.enterComment
  split
  · exact h.discard.congr rfl rfl
  · exact h

theorem step (h : s.IsLiteral) (c : Char) (following : Option Char) :
    (s.step c following).IsLiteral := by
  unfold Scan.step
  split
  · split
    · exact h.commit.openElement.congr rfl rfl
    · exact h.congr rfl rfl
  · split <;> exact h.congr rfl rfl
  · refine enterComment ?_
    split
    · split <;> exact h.congr rfl rfl
    · exact h.stepTag c following

theorem part (h : s.IsLiteral) (cs : List Char) : (s.part cs).IsLiteral := by
  induction cs generalizing s with
  | nil => exact h
  | cons c rest ih => exact ih (h.step c rest.head?)

theorem field (h : s.IsLiteral) (index : Nat) : (s.field index).IsLiteral := by
  unfold Scan.field
  split
  · exact h.commit.commitField index
  · exact h.commitField index

theorem rest (h : s.IsLiteral) (index : Nat) (ps : List String) : (s.rest index ps).IsLiteral := by
  induction ps generalizing s index with
  | nil => exact h
  | cons p ps ih => exact ih ((h.field index).part p.toList) (index + 1)

theorem parts (h : s.IsLiteral) (ps : List String) : (s.parts ps).IsLiteral := by
  cases ps with
  | nil => exact h
  | cons p ps => exact (h.part p.toList).rest 0 ps

end IsLiteral

end Scan

/-- Compiled templates state literals only. -/
theorem Template.isLiteral_compile (parts : List String) :
    ∀ op ∈ (Template.compile parts).root, op.IsLiteral := by
  have hstart : ({} : Scan).IsLiteral := ⟨nofun, nofun⟩
  intro op hop
  exact ((hstart.parts parts).commit.closeAll).root op (List.mem_reverse.mp hop)

end TaggedMarkup
