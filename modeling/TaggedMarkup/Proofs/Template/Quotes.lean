import TaggedMarkup.Proofs.Template.Numbering

/-!
# Where a quote may be open

A quote belongs to a tag. It opens inside a tag and only there, and a tag is not left while it is open, with
one exception: the opener of a comment is recognised in a tag name by its characters alone, and if they
stand in a quote, the comment begins with the quote open. Nothing closes it before the next tag.

In a scan without that (`Scan.Tidy`) no quote is open in a text or a comment (`Scan.Tidy.isSettled`).
-/

namespace TaggedMarkup

namespace Scan

/-! ## Quotes -/

/-- The states of a scan in which no comment has begun inside an open quote. -/
inductive Tidy : Scan → Prop
  | start : Tidy {}
  | step {s : Scan} (c : Char) (following : Option Char) (h : s.Tidy)
    (hquote : s.mode = .tagName → ∀ latest, (s.step c following).mode = .comment latest →
      s.quote = none) : (s.step c following).Tidy
  | field {s : Scan} (index : Nat) (h : s.Tidy) : (s.field index).Tidy

/-- No quote is open in a text or a comment, and no tag name is read past the opener of a comment. -/
structure IsSettled (s : Scan) : Prop where
  text : s.mode = .text → s.quote = none
  comment : ∀ latest, s.mode = .comment latest → s.quote = none
  opener : s.mode = .tagName → s.buffer ≠ ['-', '-', '!']

@[simp] theorem quote_push (op : Op) (s : Scan) : (s.push op).quote = s.quote := by
  simp only [push]
  cases s.frames <;> rfl

@[simp] theorem buffer_push (op : Op) (s : Scan) : (s.push op).buffer = s.buffer := by
  simp only [push]
  cases s.frames <;> rfl

@[simp] theorem quote_discard (s : Scan) : s.discard.quote = s.quote := by
  simp only [discard]
  cases s.frames <;> rfl

@[simp] theorem quote_close (s : Scan) : s.close.quote = s.quote := by
  simp only [close]
  cases s.frames with
  | nil => rfl
  | cons frame rest => exact quote_push _ _

/-- A commit leaves nothing in the buffer, and the quote as it is. -/
theorem quote_commit (s : Scan) : s.commit.quote = s.quote ∧ s.commit.buffer = [] := by
  obtain ⟨mode, buffer, quote, root, frames, next⟩ := s
  cases mode with
  | slash | comment _ => exact ⟨rfl, rfl⟩
  | text | space | tagName | value name begun =>
    simp only [commit, pushPiece]
    split <;> simp only [quote_push, buffer_push, and_self]

theorem quote_slash (s : Scan) : s.slash.quote = s.quote := by
  simp only [slash, quote_close]
  split <;> simp only [quote_discard, (quote_commit s).1]

theorem quote_commitField (field : Nat) (s : Scan) : (s.commitField field).quote = s.quote := by
  obtain ⟨mode, buffer, quote, root, frames, next⟩ := s
  cases mode with
  | slash | comment _ => rfl
  | text | tagName => simp only [commitField, quote_push]
  | space | value name begun =>
    simp only [commitField, pushPiece]
    split <;> simp only [quote_push]

theorem quote_field (index : Nat) (s : Scan) : (s.field index).quote = s.quote := by
  rw [field, quote_commitField]
  split
  · exact (quote_commit s).1
  · rfl

theorem isSettled_of_quote {s : Scan} (hquote : s.quote = none)
    (hopener : s.mode = .tagName → s.buffer ≠ ['-', '-', '!']) : s.IsSettled :=
  ⟨fun _ => hquote, fun _ _ => hquote, hopener⟩

/-- Entering a comment leaves the quote as it is. -/
theorem quote_enterComment (s : Scan) : s.enterComment.quote = s.quote := by
  simp only [enterComment]
  split
  · exact quote_discard s
  · rfl

theorem opener_enterComment (s : Scan) (h : s.enterComment.mode = .tagName) :
    s.enterComment.buffer ≠ ['-', '-', '!'] := by
  simp only [enterComment] at h ⊢
  split at h
  · cases h
  · rename_i hnot
    rw [if_neg hnot]
    exact fun hbuffer => hnot ⟨h, hbuffer⟩

/-- Outside quotes, only a quotation mark opens a quote. -/
theorem quote_stepTag {s : Scan} (h : s.quote = none) (c : Char) (following : Option Char) :
    (s.stepTag c following).quote = none ∨ s.stepTag c following = { s with quote := some c } := by
  simp only [stepTag]
  split_ifs
  · exact .inr rfl
  · exact .inl ((quote_commit s).1.trans h)
  · exact .inl h
  · exact .inl h
  · exact .inl ((quote_slash s).trans h)
  · exact .inl ((quote_commit s).1.trans h)
  · exact .inl h

/-- After a character inside a tag, a scan is settled if no comment begins while a quote is open. -/
theorem isSettled_enterComment {t : Scan} (ht : t.quote = none ∨ t.IsInside)
    (hquote : t.mode = .tagName → t.buffer = ['-', '-', '!'] → t.quote = none) :
    t.enterComment.IsSettled := by
  by_cases hnone : t.quote = none
  · exact isSettled_of_quote ((quote_enterComment t).trans hnone) (opener_enterComment t)
  · have hnot : ¬ (t.mode = .tagName ∧ t.buffer = ['-', '-', '!']) :=
      fun henter => hnone (hquote henter.1 henter.2)
    obtain ⟨htext, hcomment⟩ := ht.resolve_left hnone
    rw [show t.enterComment = t from if_neg hnot]
    exact ⟨fun h => absurd h htext, fun latest h => absurd h (hcomment latest),
      fun htag hbuffer => hnot ⟨htag, hbuffer⟩⟩

theorem IsSettled.stepInside {s : Scan} (h : s.IsSettled) (hinside : s.IsInside) {c : Char}
    {following : Option Char} (hquote : s.mode = .tagName →
      ∀ latest, (s.step c following).mode = .comment latest → s.quote = none) :
    (s.stepInside c following).enterComment.IsSettled := by
  rw [step_inside hinside] at hquote
  simp only [Scan.stepInside] at hquote ⊢
  cases hq : s.quote with
  | none =>
    rcases quote_stepTag hq c following with hnone | hopened
    · exact isSettled_enterComment (.inl hnone) fun _ _ => hnone
    · simp only [hopened]
      exact isSettled_enterComment (.inr hinside) fun htag hbuffer => absurd hbuffer (h.opener htag)
  | some quote =>
    rw [hq] at hquote
    dsimp only at hquote ⊢
    split at hquote
    · rename_i hc
      rw [if_pos hc]
      exact isSettled_enterComment (.inl rfl) fun _ _ => rfl
    · rename_i hc
      rw [if_neg hc]
      refine isSettled_enterComment (.inr hinside) fun htag hbuffer => ?_
      have hcomment : (s.buffered c).enterComment.mode = .comment [] := by
        rw [enterComment, if_pos ⟨htag, hbuffer⟩]
      cases hquote htag [] hcomment

/-- A character keeps a scan settled, unless it begins a comment inside an open quote. -/
theorem IsSettled.step {s : Scan} (h : s.IsSettled) (c : Char) (following : Option Char)
    (hquote : s.mode = .tagName → ∀ latest, (s.step c following).mode = .comment latest →
      s.quote = none) : (s.step c following).IsSettled := by
  cases hm : s.mode with
  | text =>
    by_cases hc : c = '<'
    · simp only [Scan.step, hm, if_pos hc]
      refine ⟨by simp, by simp, fun _ hopener => ?_⟩
      have hbuffer : s.commit.buffer = ['-', '-', '!'] := hopener
      rw [(quote_commit s).2] at hbuffer
      cases hbuffer
    · simp only [Scan.step, hm, if_neg hc]
      refine isSettled_of_quote (h.text hm) fun htag => ?_
      cases hm.symm.trans htag
  | comment latest =>
    simp only [Scan.step, hm]
    split <;> exact isSettled_of_quote (h.comment latest hm) (by simp)
  | slash | space | tagName | value name begun =>
    have hinside : s.IsInside := by simp [IsInside, hm]
    rw [step_inside hinside]
    exact h.stepInside hinside hquote

/-- The mode after a field. -/
def Mode.afterField : Mode → Mode
  | .slash => .slash
  | .text => .text
  | .space | .tagName => .space
  | .comment _ => .comment []
  | .value name _ => .value name true

theorem mode_commitField (field : Nat) (s : Scan) :
    (s.commitField field).mode = Mode.afterField s.mode := by
  obtain ⟨mode, buffer, quote, root, frames, next⟩ := s
  cases mode with
  | slash | comment _ | tagName => rfl
  | text => exact mode_push _ _
  | space | value name begun =>
    simp only [commitField, pushPiece]
    split <;> simp only [mode_push, Mode.afterField]

theorem mode_field (index : Nat) (s : Scan) : (s.field index).mode = Mode.afterField s.mode := by
  rw [field, mode_commitField]
  split
  · rename_i htext
    obtain ⟨mode, buffer, quote, root, frames, next⟩ := s
    cases htext
    simp only [commit]
    split <;> simp only [mode_push]
  · rfl

/-- A field does not begin a tag, a text or a comment. -/
theorem IsSettled.field {s : Scan} (h : s.IsSettled) (index : Nat) : (s.field index).IsSettled := by
  have hquote := quote_field index s
  have hmode := mode_field index s
  cases hm : s.mode with
  | text =>
    exact isSettled_of_quote (hquote.trans (h.text hm)) (by simp [hmode, hm, Mode.afterField])
  | comment latest =>
    exact isSettled_of_quote (hquote.trans (h.comment latest hm))
      (by simp [hmode, hm, Mode.afterField])
  | slash | space | tagName | value name begun =>
    simp only [hm, Mode.afterField] at hmode
    constructor <;> simp [hmode]

theorem Tidy.isSettled {s : Scan} (h : s.Tidy) : s.IsSettled := by
  induction h with
  | start => exact isSettled_of_quote rfl (by simp)
  | step c following h hquote ih => exact ih.step c following hquote
  | field index h ih => exact ih.field index

end Scan

end TaggedMarkup
