import Mathlib
import TaggedMarkup.Proofs.Template.Folding
import TaggedMarkup.Proofs.Text.Trimming

/-!
# The shape of a block

The block of an element is written in the order in which an opening tag is read: its **tag** if it has
one, then its **props**, then its **children**. An evaluation relies on that: it puts the instructions of
a block into one draft, and extends a prop that must be there already.

What keeps the order is that the mode of the scanner says how far the innermost open element has got
(`Mode.Fits`): while the tag name is read it has no instruction yet, while attributes are read it has no
child, and once the value of an attribute has begun, the latest instruction has written that attribute.
At the root there is no mode in which a tag or a prop is read at all.
-/

namespace TaggedMarkup

namespace Op

/-! ## Kinds of instructions -/

/-- The instruction states the tag. -/
def statesTag : Op → Bool
  | tag _ => true
  | _ => false

/-- The instruction writes props. -/
def writesProps : Op → Bool
  | spread _ | set _ _ | append _ _ => true
  | _ => false

/-- The instruction adds a child. -/
def addsChild : Op → Bool
  | child _ | element _ _ => true
  | _ => false

/-- The instruction writes this prop, and only this one. -/
def Writes (name : String) : Op → Prop
  | set other _ | append other _ => other = name
  | _ => False

/-- What a template itself states as a tag is a text that is not empty, and what it states as a child one
from which layout has been trimmed. -/
def StatesText : Op → Prop
  | tag (.fixed value) => ∃ text, value = .str text ∧ text ≠ ""
  | child (.fixed value) => ∃ text, value = .str text ∧ text ≠ "" ∧ Trim.text text = text
  | _ => True

/-- The instructions of one element, in order. -/
structure IsOrdered (body : List Op) : Prop where
  /-- a tag or none, then props, then children -/
  phases : ∃ tag props children, body = tag ++ props ++ children ∧ tag.length ≤ 1 ∧
    (∀ op ∈ tag, op.statesTag = true) ∧ (∀ op ∈ props, op.writesProps = true) ∧
    ∀ op ∈ children, op.addsChild = true
  /-- a prop is extended right after it has been written -/
  appends : ∀ before name operand after, body = before ++ append name operand :: after →
    ∃ earlier last, before = earlier ++ [last] ∧ last.Writes name

/-! ## Adding instructions one by one -/

/-- The instruction may come after these, the newest first. -/
def MayFollow : Op → List Op → Prop
  | tag _, earlier => earlier = []
  | spread _, earlier | set _ _, earlier => ∀ op ∈ earlier, op.addsChild = false
  | append name _, earlier => (∀ op ∈ earlier, op.addsChild = false) ∧
    ∃ last rest, earlier = last :: rest ∧ last.Writes name
  | child _, _ | element _ _, _ => True

/-- Each instruction may come after the earlier ones. The newest comes first. -/
def InTurn : List Op → Prop
  | [] => True
  | op :: earlier => op.MayFollow earlier ∧ InTurn earlier

theorem InTurn.of_append {ops earlier : List Op} (h : InTurn (ops ++ earlier)) : InTurn earlier := by
  induction ops with
  | nil => exact h
  | cons op ops ih => exact ih h.2

/-- Before a prop no child has been added. -/
theorem MayFollow.addsChild {op : Op} {earlier : List Op} (h : op.MayFollow earlier)
    (hop : op.writesProps = true) : ∀ other ∈ earlier, other.addsChild = false := by
  cases op with
  | spread _ | set _ _ => exact h
  | append _ _ => exact h.1
  | tag _ | child _ | element _ _ => cases hop

theorem InTurn.isOrdered {ops : List Op} (h : InTurn ops) : IsOrdered ops.reverse := by
  refine ⟨?_, fun before name operand after heq => ?_⟩
  · induction ops with
    | nil => exact ⟨[], [], [], rfl, Nat.zero_le _, nofun, nofun, nofun⟩
    | cons op earlier ih =>
      obtain ⟨tag, props, children, heq, htag, htags, hprops, hchildren⟩ := ih h.2
      rw [List.reverse_cons, heq]
      cases hop : op.addsChild with
      | true =>
        refine ⟨tag, props, children ++ [op], List.append_assoc .., htag, htags, hprops, ?_⟩
        exact List.forall_mem_append.mpr ⟨hchildren, List.forall_mem_singleton.mpr hop⟩
      | false =>
        cases hwrites : op.writesProps with
        | true =>
          -- no child yet, so the prop still follows the props
          have hnone : children = [] := by
            refine List.eq_nil_iff_forall_not_mem.mpr fun other hother => ?_
            have hmem : other ∈ earlier.reverse := heq ▸ List.mem_append_right _ hother
            have hfalse := h.1.addsChild hwrites other (List.mem_reverse.mp hmem)
            rw [hchildren other hother] at hfalse
            cases hfalse
          refine ⟨tag, props ++ [op], [], by simp [hnone], htag, htags, ?_, nofun⟩
          exact List.forall_mem_append.mpr ⟨hprops, List.forall_mem_singleton.mpr hwrites⟩
        | false =>
          cases op with
          | tag operand =>
            obtain rfl : earlier = [] := h.1
            rw [List.reverse_nil] at heq
            refine ⟨[.tag operand], [], [], by rw [← heq]; rfl, Nat.le_refl _, ?_, nofun, nofun⟩
            exact List.forall_mem_singleton.mpr rfl
          | spread _ | set _ _ | append _ _ => cases hwrites
          | child _ | element _ _ => cases hop
  · have hops : ops = after.reverse ++ append name operand :: before.reverse := by
      rw [← List.reverse_reverse ops, heq, List.reverse_append, List.reverse_cons, List.append_assoc]
      rfl
    obtain ⟨-, last, rest, hbefore, hlast⟩ := (hops ▸ h).of_append.1
    refine ⟨rest.reverse, last, ?_, hlast⟩
    rw [← List.reverse_reverse before, hbefore, List.reverse_cons]

/-- An instruction that states texts as it may, and within which every element is in order. -/
inductive IsNeat : Op → Prop
  | plain {op : Op} : op.StatesText → op.blocks = [] → IsNeat op
  | element {block : Nat} {body : List Op} : InTurn body.reverse → (∀ op ∈ body, IsNeat op) →
    IsNeat (.element block body)

theorem IsNeat.statesText {op : Op} (h : op.IsNeat) : op.StatesText := by
  cases h with
  | plain htext _ => exact htext
  | element _ _ => trivial

mutual

/-- Every block of a neat instruction is in order. -/
theorem IsNeat.block : ∀ (op : Op), op.IsNeat → ∀ {block : Nat} {body : List Op},
    (block, body) ∈ op.blocks → InTurn body.reverse ∧ ∀ inner ∈ body, inner.IsNeat
  | .tag _, _, _, _, h | .spread _, _, _, _, h | .set _ _, _, _, _, h | .append _ _, _, _, _, h
  | .child _, _, _, _, h => by cases h
  | .element block body, hneat, _, _, h => by
    have hbody : InTurn body.reverse ∧ ∀ inner ∈ body, inner.IsNeat := by
      cases hneat with
      | plain _ hnone => cases hnone
      | element hturn hinner => exact ⟨hturn, hinner⟩
    rcases List.mem_cons.mp h with heq | hmem
    · obtain ⟨rfl, rfl⟩ := Prod.mk.inj heq
      exact hbody
    · exact IsNeat.blockOfAll body hbody.2 hmem

theorem IsNeat.blockOfAll : ∀ (ops : List Op), (∀ op ∈ ops, op.IsNeat) →
    ∀ {block : Nat} {body : List Op}, (block, body) ∈ blocksOfAll ops →
      InTurn body.reverse ∧ ∀ inner ∈ body, inner.IsNeat
  | [], _, _, _, h => by cases h
  | op :: rest, hneat, _, _, h => by
    rw [List.forall_mem_cons] at hneat
    rcases List.mem_append.mp h with hop | hrest
    · exact IsNeat.block op hneat.1 hop
    · exact IsNeat.blockOfAll rest hneat.2 hrest

end

end Op

/-! ## The scanner -/

/-- How far the innermost open element has got in this mode. -/
def Mode.Fits : Mode → List Frame → Prop
  | .tagName, frames => ∃ block rest, frames = ⟨block, []⟩ :: rest
  | .space, frames => ∃ frame rest, frames = frame :: rest ∧ ∀ op ∈ frame.ops, op.addsChild = false
  | .value name begun, frames => ∃ frame rest, frames = frame :: rest ∧
    (∀ op ∈ frame.ops, op.addsChild = false) ∧
    (begun = true → ∃ last earlier, frame.ops = last :: earlier ∧ last.Writes name)
  | .slash, _ | .text, _ | .comment _, _ => True

/-- An opening tag is being read. -/
def Mode.isOpening : Mode → Bool
  | .tagName | .space | .value _ _ => true
  | .slash | .text | .comment _ => false

/-- While an opening tag is read, its element has no child. -/
theorem Mode.Fits.space {mode : Mode} {frames : List Frame} (h : mode.Fits frames)
    (hopening : mode.isOpening = true) : Mode.space.Fits frames := by
  cases mode with
  | slash | text | comment _ => cases hopening
  | tagName =>
    obtain ⟨block, rest, rfl⟩ := h
    exact ⟨_, rest, rfl, nofun⟩
  | space => exact h
  | value name begun =>
    obtain ⟨frame, rest, hframes, hnone, -⟩ := h
    exact ⟨frame, rest, hframes, hnone⟩

namespace Scan

/-- All instructions so far are neat and in order, and at the root there are children only. -/
structure IsNeat (s : Scan) : Prop where
  root : ∀ op ∈ s.root, op.addsChild = true ∧ op.IsNeat
  frames : ∀ frame ∈ s.frames, Op.InTurn frame.ops ∧ ∀ op ∈ frame.ops, op.IsNeat

/-- The invariant of the scanner. -/
structure IsShaped (s : Scan) : Prop where
  neat : s.IsNeat
  fits : s.mode.Fits s.frames

/-- The instruction may come next, in the innermost open element or at the root. -/
def Accepts (s : Scan) (op : Op) : Prop :=
  match s.frames with
  | [] => op.addsChild = true
  | frame :: _ => op.MayFollow frame.ops

theorem accepts_of_addsChild (s : Scan) {op : Op} (h : op.addsChild = true) : s.Accepts op := by
  unfold Accepts
  split
  · exact h
  · cases op with
    | tag _ | spread _ | set _ _ | append _ _ => cases h
    | child _ | element _ _ => trivial

theorem frames_push {s : Scan} {frame : Frame} {rest : List Frame} (h : s.frames = frame :: rest)
    (op : Op) : (s.push op).frames = { frame with ops := op :: frame.ops } :: rest := by
  simp only [Scan.push, h]

namespace IsNeat

variable {s : Scan}

/-- Only the instructions matter. -/
theorem congr {t : Scan} (h : s.IsNeat) (hroot : t.root = s.root) (hframes : t.frames = s.frames) :
    t.IsNeat :=
  ⟨hroot ▸ h.root, hframes ▸ h.frames⟩

theorem push (h : s.IsNeat) {op : Op} (hop : op.IsNeat) (haccepts : s.Accepts op) : (s.push op).IsNeat := by
  have hframes := h.frames
  simp only [Accepts] at haccepts
  simp only [Scan.push]
  cases hf : s.frames with
  | nil =>
    rw [hf] at haccepts
    exact ⟨List.forall_mem_cons.mpr ⟨⟨haccepts, hop⟩, h.root⟩, nofun⟩
  | cons frame rest =>
    rw [hf] at haccepts
    rw [hf, List.forall_mem_cons] at hframes
    refine ⟨h.root, List.forall_mem_cons.mpr ⟨⟨⟨haccepts, hframes.1.1⟩, ?_⟩, hframes.2⟩⟩
    exact List.forall_mem_cons.mpr ⟨hop, hframes.1.2⟩

theorem openElement (h : s.IsNeat) : s.openElement.IsNeat :=
  ⟨h.root, List.forall_mem_cons.mpr ⟨⟨trivial, nofun⟩, h.frames⟩⟩

theorem discard (h : s.IsNeat) : s.discard.IsNeat := by
  have hframes := h.frames
  simp only [Scan.discard]
  cases hf : s.frames with
  | nil => exact h
  | cons frame rest =>
    rw [hf, List.forall_mem_cons] at hframes
    exact ⟨h.root, hframes.2⟩

/-- An element that is closed is in order, and a child of the one around it. -/
theorem close (h : s.IsNeat) : s.close.IsNeat := by
  have hframes := h.frames
  simp only [Scan.close]
  cases hf : s.frames with
  | nil => exact h
  | cons frame rest =>
    rw [hf, List.forall_mem_cons] at hframes
    have hrest : ({ s with frames := rest } : Scan).IsNeat := ⟨h.root, hframes.2⟩
    refine hrest.push (.element ?_ fun op hop => hframes.1.2 op (List.mem_reverse.mp hop))
      (accepts_of_addsChild _ rfl)
    rw [List.reverse_reverse]
    exact hframes.1.1

theorem closeAll (h : s.IsNeat) : s.closeAll.IsNeat := by
  have hclose : ∀ n, (Nat.repeat Scan.close n s).IsNeat := by
    intro n
    induction n with
    | zero => exact h
    | succ n ih => exact ih.close
  exact hclose _

/-- Where no opening tag is read, nothing else is asked for. -/
theorem isShaped {t : Scan} (h : s.IsNeat) (hroot : t.root = s.root) (hframes : t.frames = s.frames)
    (hmode : t.mode.isOpening = false) : t.IsShaped := by
  refine ⟨h.congr hroot hframes, ?_⟩
  cases hm : t.mode with
  | slash | text | comment _ => trivial
  | tagName | space | value _ _ => rw [hm] at hmode; cases hmode

end IsNeat

namespace IsShaped

variable {s : Scan}

/-- The buffer and the quote do not matter. -/
theorem congr {t : Scan} (h : s.IsShaped) (hroot : t.root = s.root) (hframes : t.frames = s.frames)
    (hmode : t.mode = s.mode) : t.IsShaped :=
  ⟨h.neat.congr hroot hframes, by rw [hmode, hframes]; exact h.fits⟩

/-- A child that is stated or given. -/
theorem pushChild (h : s.IsShaped) (hmode : s.mode = .text) (operand : Operand)
    (hop : (Op.child operand).StatesText) : (s.push (.child operand)).IsShaped :=
  (h.neat.push (.plain hop rfl) (accepts_of_addsChild s rfl)).isShaped rfl rfl
    (by rw [mode_push, hmode]; rfl)

/-- The tag is the first instruction of its element. -/
theorem pushTag (h : s.IsShaped) (hmode : s.mode = .tagName) (operand : Operand)
    (hop : (Op.tag operand).StatesText) :
    ({ s.push (.tag operand) with mode := .space } : Scan).IsShaped := by
  have hfits := h.fits
  rw [hmode] at hfits
  obtain ⟨block, rest, hf⟩ := hfits
  have haccepts : s.Accepts (.tag operand) := by simp only [Accepts, hf, Op.MayFollow]
  refine ⟨(h.neat.push (.plain hop rfl) haccepts).congr rfl rfl, _, rest, frames_push hf _, ?_⟩
  exact List.forall_mem_singleton.mpr rfl

/-- An attribute without a value, or a spread. -/
theorem pushProp (h : s.IsShaped) (hmode : s.mode = .space) (op : Op) (hwrites : op.writesProps = true)
    (hop : ∀ earlier, (∀ other ∈ earlier, other.addsChild = false) → op.MayFollow earlier) :
    (s.push op).IsShaped := by
  have hfits := h.fits
  rw [hmode] at hfits
  obtain ⟨frame, rest, hf, hnone⟩ := hfits
  have haccepts : s.Accepts op := by
    simp only [Accepts, hf]
    exact hop _ hnone
  have hneat : op.IsNeat ∧ op.addsChild = false := by
    cases op with
    | spread _ | set _ _ | append _ _ => exact ⟨.plain trivial rfl, rfl⟩
    | tag _ | child _ | element _ _ => cases hwrites
  refine ⟨h.neat.push hneat.1 haccepts, ?_⟩
  rw [mode_push, hmode]
  exact ⟨_, rest, frames_push hf op, List.forall_mem_cons.mpr ⟨hneat.2, hnone⟩⟩

/-- The first piece of a value sets the prop, and every other one extends it. -/
theorem pushPiece (h : s.IsShaped) {name : String} {begun : Bool} (hmode : s.mode = .value name begun)
    (operand : Operand) : (s.pushPiece name operand begun).IsShaped := by
  have hfits := h.fits
  rw [hmode] at hfits
  obtain ⟨frame, rest, hf, hnone, hlast⟩ := hfits
  cases begun with
  | false =>
    have haccepts : s.Accepts (.set name operand) := by
      simp only [Accepts, hf]
      exact hnone
    refine ⟨(h.neat.push (.plain (by trivial) rfl) haccepts).congr rfl rfl, _, rest, frames_push hf _,
      ?_, ?_⟩
    · exact List.forall_mem_cons.mpr ⟨rfl, hnone⟩
    · exact fun _ => ⟨_, _, rfl, rfl⟩
  | true =>
    have haccepts : s.Accepts (.append name operand) := by
      simp only [Accepts, hf]
      exact ⟨hnone, hlast rfl⟩
    refine ⟨(h.neat.push (.plain (by trivial) rfl) haccepts).congr rfl rfl, _, rest, frames_push hf _,
      ?_, ?_⟩
    · exact List.forall_mem_cons.mpr ⟨rfl, hnone⟩
    · exact fun _ => ⟨_, _, rfl, rfl⟩

theorem commit (h : s.IsShaped) : s.commit.IsShaped := by
  obtain ⟨mode, buffer, quote, root, frames, next⟩ := s
  have hclear : (⟨mode, [], quote, root, frames, next⟩ : Scan).IsShaped := h.congr rfl rfl rfl
  cases mode with
  | slash => exact hclear
  | comment latest => exact ⟨hclear.neat.congr rfl rfl, trivial⟩
  | text =>
    simp only [Scan.commit]
    split
    · exact hclear
    · rename_i htext
      exact hclear.pushChild rfl (.fixed (.str _)) ⟨_, rfl, htext, Trim.text_text _⟩
  | tagName =>
    simp only [Scan.commit]
    split
    · exact hclear
    · rename_i hword
      exact hclear.pushTag rfl (.fixed (.str _)) ⟨_, rfl, hword⟩
  | space =>
    simp only [Scan.commit]
    split
    · exact hclear
    · exact hclear.pushProp rfl (.set _ _) rfl fun _ hnone => hnone
  | value name begun =>
    simp only [Scan.commit]
    split
    · exact hclear
    · exact hclear.pushPiece rfl _

theorem commitField (h : s.IsShaped) (field : Nat) : (s.commitField field).IsShaped := by
  obtain ⟨mode, buffer, quote, root, frames, next⟩ := s
  have hclear : (⟨mode, [], quote, root, frames, next⟩ : Scan).IsShaped := h.congr rfl rfl rfl
  cases mode with
  | slash => exact hclear
  | comment latest => exact ⟨hclear.neat.congr rfl rfl, trivial⟩
  | text => exact hclear.pushChild rfl (.field field) trivial
  | tagName => exact hclear.pushTag rfl (.field field) trivial
  | space =>
    simp only [Scan.commitField]
    split
    · exact hclear.pushProp rfl (.spread field) rfl fun _ hnone => hnone
    · exact hclear
  | value name begun =>
    simp only [Scan.commitField]
    split
    · exact hclear.pushPiece rfl _
    · exact (hclear.pushPiece rfl _).pushPiece rfl _

/-- A commit does not leave the opening tag. -/
theorem isOpening_commit (s : Scan) : s.commit.mode.isOpening = s.mode.isOpening := by
  obtain ⟨mode, buffer, quote, root, frames, next⟩ := s
  cases mode with
  | slash | comment _ => rfl
  | text | space =>
    simp only [Scan.commit]
    split <;> simp only [mode_push]
  | tagName | value name begun =>
    simp only [Scan.commit]
    split <;> rfl

theorem slash (h : s.IsShaped) : s.slash.IsShaped := by
  have hcommit := h.commit.neat
  simp only [Scan.slash]
  split
  · exact hcommit.discard.close.isShaped rfl rfl rfl
  · exact hcommit.close.isShaped rfl rfl rfl

theorem stepTag (h : s.IsShaped) (hinside : s.IsInside) (c : Char) (following : Option Char) :
    (s.stepTag c following).IsShaped := by
  simp only [Scan.stepTag]
  by_cases hslash : s.mode = .slash
  · -- after a slash nothing changes but the quote, until the tag ends
    split_ifs
    · exact h.congr rfl rfl rfl
    · exact h.commit.neat.isShaped rfl rfl rfl
    · exact h
  · have hopening : s.mode.isOpening = true := by
      cases hm : s.mode with
      | slash => exact absurd hm hslash
      | text => exact absurd hm hinside.1
      | comment latest => exact absurd hm (hinside.2 latest)
      | tagName | space | value _ _ => rfl
    split_ifs
    · exact h.congr rfl rfl rfl
    · exact h.commit.neat.isShaped rfl rfl rfl
    · obtain ⟨frame, rest, hf, hnone⟩ := h.fits.space hopening
      exact ⟨h.neat.congr rfl rfl, frame, rest, hf, hnone, fun hbegun => absurd hbegun Bool.false_ne_true⟩
    · exact h.slash
    · exact ⟨h.commit.neat.congr rfl rfl,
        h.commit.fits.space ((isOpening_commit s).trans hopening)⟩
    · exact h.congr rfl rfl rfl

theorem enterComment (h : s.IsShaped) : s.enterComment.IsShaped := by
  simp only [Scan.enterComment]
  split
  · exact h.neat.discard.isShaped rfl rfl rfl
  · exact h

theorem stepInside (h : s.IsShaped) (hinside : s.IsInside) (c : Char) (following : Option Char) :
    (s.stepInside c following).IsShaped := by
  simp only [Scan.stepInside]
  cases s.quote with
  | none => exact h.stepTag hinside c following
  | some quote =>
    dsimp only
    split <;> exact h.congr rfl rfl rfl

theorem step (h : s.IsShaped) (c : Char) (following : Option Char) :
    (s.step c following).IsShaped := by
  have hopen : ({ s.commit.openElement with mode := .tagName } : Scan).IsShaped :=
    ⟨h.commit.neat.openElement.congr rfl rfl, _, _, rfl⟩
  cases hm : s.mode with
  | text =>
    simp only [Scan.step, hm]
    split
    · exact hopen
    · exact h.congr rfl rfl rfl
  | comment latest =>
    simp only [Scan.step, hm]
    split <;> exact h.neat.isShaped rfl rfl rfl
  | slash | space | tagName | value name begun =>
    have hinside : s.IsInside := by simp [IsInside, hm]
    rw [step_inside hinside]
    exact (h.stepInside hinside c following).enterComment

theorem part (h : s.IsShaped) (cs : List Char) : (s.part cs).IsShaped := by
  induction cs generalizing s with
  | nil => exact h
  | cons c rest ih => exact ih (h.step c rest.head?)

theorem field (h : s.IsShaped) (index : Nat) : (s.field index).IsShaped := by
  simp only [Scan.field]
  split
  · exact h.commit.commitField index
  · exact h.commitField index

theorem rest (h : s.IsShaped) (index : Nat) (ps : List String) : (s.rest index ps).IsShaped := by
  induction ps generalizing s index with
  | nil => exact h
  | cons p ps ih => exact ih ((h.field index).part p.toList) (index + 1)

theorem parts (h : s.IsShaped) (ps : List String) : (s.parts ps).IsShaped := by
  cases ps with
  | nil => exact h
  | cons p ps => exact (h.part p.toList).rest 0 ps

end IsShaped

end Scan

/-- All that a compiled template holds is neat, with children only at the root. -/
theorem Template.isNeat_compile (parts : List String) :
    ∀ op ∈ (Template.compile parts).root, op.addsChild = true ∧ op.IsNeat := by
  have hstart : ({} : Scan).IsShaped := ⟨⟨nofun, nofun⟩, trivial⟩
  intro op hop
  exact ((hstart.parts parts).commit.neat.closeAll).root op (List.mem_reverse.mp hop)

/-! ## What an evaluation relies on -/

namespace Setting

variable {σ : Type}

/-- Instructions that add children leave the tag and the props. -/
theorem own_runAll_children (s : Setting σ) {ops : List Op} (h : ∀ op ∈ ops, op.addsChild = true)
    (d : Draft) (p : Pass σ) :
    (s.runAll ops d p).1.tag = d.tag ∧ (s.runAll ops d p).1.props = d.props := by
  induction ops generalizing d p with
  | nil => exact ⟨rfl, rfl⟩
  | cons op rest ih =>
    rw [List.forall_mem_cons] at h
    obtain ⟨htag, hprops⟩ := ih h.2 (s.run op d p).1 (s.run op d p).2
    have hop : (s.run op d p).1.tag = d.tag ∧ (s.run op d p).1.props = d.props := by
      cases op with
      | tag _ | spread _ | set _ _ | append _ _ => cases h.1
      | child operand => exact ⟨rfl, rfl⟩
      | element block body =>
        cases hl : p.folds.lookup block with
        | some value =>
          rw [run_element_kept s body d hl]
          exact ⟨rfl, rfl⟩
        | none =>
          rw [run_element_built s body d hl]
          split <;> exact ⟨rfl, rfl⟩
    rw [runAll]
    exact ⟨htag.trans hop.1, hprops.trans hop.2⟩

/-- A prop that an instruction has written is there. -/
theorem exists_prop_of_writes (s : Setting σ) {op : Op} {name : String} (h : op.Writes name) (d : Draft)
    (p : Pass σ) :
    ∃ props value, (s.run op d p).1.props = some props ∧ Entries.get? name props = some value := by
  cases op with
  | set other operand | append other operand =>
    obtain rfl : other = name := h
    exact ⟨_, _, rfl, Entries.get?_put_self ..⟩
  | tag _ | spread _ | child _ | element _ _ => cases h

/-- In a block that is in order, every prop that is extended is there already. -/
theorem exists_prop_of_isOrdered (s : Setting σ) {body : List Op} (h : Op.IsOrdered body)
    {before after : List Op} {name : String} {operand : Operand}
    (hbody : body = before ++ .append name operand :: after) (d : Draft) (p : Pass σ) :
    ∃ props value, (s.runAll before d p).1.props = some props ∧
      Entries.get? name props = some value := by
  obtain ⟨earlier, last, rfl, hwrites⟩ := h.appends before name operand after hbody
  rw [runAll_append]
  exact s.exists_prop_of_writes hwrites _ _

end Setting

/-- Every compiled block has the shape that an evaluation relies on, whatever the parts are: the root
holds children only, every other block a tag or none, then props, then children, with each extension of a
prop right after that prop was written, and the texts that are stated for tags and children are not empty
and the latter trimmed. So no evaluation collects a tag or a prop at the root, and none extends a prop
that is not there. -/
theorem Template.shape_compile (parts : List String) :
    let t := Template.compile parts
    (∀ op ∈ t.root, op.addsChild = true) ∧
    (∀ block body, (block, body) ∈ Op.blocksOfAll t.root → Op.IsOrdered body) ∧
    (∀ block body, (block, body) ∈ t.blocks → ∀ op ∈ body, op.StatesText) ∧
    ∀ {σ : Type} (s : Setting σ) (p : Pass σ),
      (s.runAll t.root .root p).1.tag = .undefined ∧ (s.runAll t.root .root p).1.props = none ∧
      ∀ block body, (block, body) ∈ t.blocks → ∀ before name operand after,
        body = before ++ .append name operand :: after →
          ∃ props value, (s.runAll before .element p).1.props = some props ∧
            Entries.get? name props = some value := by
  intro t
  have hroot := Template.isNeat_compile parts
  have hblocks : ∀ block body, (block, body) ∈ Op.blocksOfAll t.root →
      Op.InTurn body.reverse ∧ ∀ op ∈ body, op.IsNeat := fun _ _ hmem =>
    Op.IsNeat.blockOfAll t.root (fun op hop => (hroot op hop).2) hmem
  have hordered : ∀ block body, (block, body) ∈ Op.blocksOfAll t.root → Op.IsOrdered body := by
    intro block body hmem
    have hturn := (hblocks block body hmem).1.isOrdered
    rwa [List.reverse_reverse] at hturn
  refine ⟨fun op hop => (hroot op hop).1, hordered, fun block body hmem op hop => ?_, fun s p => ?_⟩
  · rcases List.mem_cons.mp hmem with heq | hbelow
    · obtain ⟨-, rfl⟩ := Prod.mk.inj heq
      exact (hroot op hop).2.statesText
    · exact ((hblocks block body hbelow).2 op hop).statesText
  · obtain ⟨htag, hprops⟩ := s.own_runAll_children (fun op hop => (hroot op hop).1) .root p
    refine ⟨htag, hprops, fun block body hmem before name operand after hbody => ?_⟩
    rcases List.mem_cons.mp hmem with heq | hbelow
    · -- nothing is extended at the root
      obtain ⟨-, rfl⟩ := Prod.mk.inj heq
      have happend : Op.append name operand ∈ t.root :=
        hbody ▸ List.mem_append_right _ (List.mem_cons_self ..)
      cases (hroot _ happend).1
    · exact s.exists_prop_of_isOrdered (hordered block body hbelow) hbody .element p

namespace Template

/-- A link with a title in two pieces, a closing tag too many and an element that is never finished. -/
def link : List String := ["<a title=\"x", "y\" ...", " />  \n</b> <i"]

theorem shape_compile_link :
    let title : List Op := [.tag (.fixed (.str "a")), .set "title" (.fixed (.str "x"))]
    let body := title ++ [.append "title" (.field 0), .append "title" (.fixed (.str "y")), .spread 1]
    let t := compile link
    (1, body) ∈ Op.blocksOfAll t.root ∧ Op.IsOrdered body ∧
      ∃ props value, ((Setting.mk 1 Factory.element true [.null]).runAll title .element
          { folds := [], host := {} }).1.props = some props ∧
        Entries.get? "title" props = some value := by
  intro title body t
  have hmem : (1, body) ∈ Op.blocksOfAll t.root := by
    have hblocks : (Op.blocksOfAll t.root).head? = some (1, body) := by cbv
    exact List.mem_of_head? hblocks
  obtain ⟨-, hordered, -, heval⟩ := shape_compile link
  obtain ⟨-, -, hprops⟩ := heval (Setting.mk 1 Factory.element true [.null]) { folds := [], host := {} }
  exact ⟨hmem, hordered 1 body hmem,
    hprops 1 body (List.mem_cons_of_mem _ hmem) title "title" (.field 0) _ rfl⟩

end Template

end TaggedMarkup
