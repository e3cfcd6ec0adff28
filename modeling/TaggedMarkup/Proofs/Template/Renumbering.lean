import TaggedMarkup.Proofs.Template.Folding

/-!
# Renumbering

The same markup can stand after other markup. Its elements then have other block numbers, raised by those of
the elements before it, and its fields may have other numbers too; otherwise nothing changes:

* scanning from a state that has read other markup is scanning from the start, with what was read before
  put under it (`Scan.onto`, and `Scan.step_onto` for one character);
* renumbered instructions do what they did, if the fields have the same values at their new places, if the
  same is kept for the blocks under their new numbers, and if the factory is told of the new numbers
  (`Setting.runAll_renumber`).
-/

namespace TaggedMarkup

/-- The operand with its field at another place. -/
def Operand.renumber (place : Nat → Nat) : Operand → Operand
  | .fixed value => .fixed value
  | .field index => .field (place index)

namespace Op

mutual

/-- The instruction with its blocks after others and its fields at other places. -/
def renumber (blocks : Nat) (place : Nat → Nat) : Op → Op
  | .tag operand => .tag (operand.renumber place)
  | .spread field => .spread (place field)
  | .set name operand => .set name (operand.renumber place)
  | .append name operand => .append name (operand.renumber place)
  | .child operand => .child (operand.renumber place)
  | .element block body => .element (blocks + block) (renumberAll blocks place body)

/-- Instructions with their blocks after others and their fields at other places. -/
def renumberAll (blocks : Nat) (place : Nat → Nat) : List Op → List Op
  | [] => []
  | op :: rest => renumber blocks place op :: renumberAll blocks place rest

end

variable (blocks : Nat) (place : Nat → Nat)

theorem renumberAll_eq_map (ops : List Op) :
    renumberAll blocks place ops = ops.map (renumber blocks place) := by
  induction ops with
  | nil => rfl
  | cons op rest ih => rw [renumberAll, ih, List.map_cons]

theorem renumberAll_reverse (ops : List Op) :
    renumberAll blocks place ops.reverse = (renumberAll blocks place ops).reverse := by
  rw [renumberAll_eq_map, renumberAll_eq_map, List.map_reverse]

mutual

/-- The blocks of a renumbered instruction are its blocks, renumbered. -/
theorem blocks_renumber : ∀ op : Op, (op.renumber blocks place).blocks =
    op.blocks.map fun row => (blocks + row.1, renumberAll blocks place row.2)
  | .tag _ | .set _ _ | .append _ _ | .spread _ | .child _ => rfl
  | .element _ body => congrArg (_ :: ·) (blocksOfAll_renumberAll body)

theorem blocksOfAll_renumberAll : ∀ ops : List Op, blocksOfAll (renumberAll blocks place ops) =
    (blocksOfAll ops).map fun row => (blocks + row.1, renumberAll blocks place row.2)
  | [] => rfl
  | op :: rest => by
    rw [renumberAll, blocksOfAll, blocks_renumber op, blocksOfAll_renumberAll rest, blocksOfAll,
      List.map_append]

end

end Op

/-- An open element with its block after others. -/
def Frame.renumber (blocks : Nat) (place : Nat → Nat) (frame : Frame) : Frame :=
  ⟨blocks + frame.block, Op.renumberAll blocks place frame.ops⟩

namespace Scan

/-- The scan as it is where `base` is at the root already, with so many blocks, and where the fields have
other places. -/
def onto (base : List Op) (blocks : Nat) (place : Nat → Nat) (s : Scan) : Scan :=
  { s with
    root := Op.renumberAll blocks place s.root ++ base
    frames := s.frames.map (Frame.renumber blocks place)
    next := blocks + s.next }

variable (base : List Op) (blocks : Nat) (place : Nat → Nat)

/-! ## Instructions and elements -/

theorem push_onto (op : Op) (s : Scan) : (s.push op).onto base blocks place =
    (s.onto base blocks place).push (op.renumber blocks place) := by
  obtain ⟨mode, buffer, quote, root, frames, next⟩ := s
  cases frames <;> rfl

theorem discard_onto (s : Scan) :
    s.discard.onto base blocks place = (s.onto base blocks place).discard := by
  obtain ⟨mode, buffer, quote, root, frames, next⟩ := s
  cases frames <;> rfl

theorem close_onto (s : Scan) :
    s.close.onto base blocks place = (s.onto base blocks place).close := by
  obtain ⟨mode, buffer, quote, root, frames, next⟩ := s
  cases frames with
  | nil => rfl
  | cons frame rest =>
    refine (push_onto base blocks place _ _).trans ?_
    rw [Op.renumber, Op.renumberAll_reverse]
    rfl

theorem pushPiece_onto (name : String) (operand : Operand) (begun : Bool) (s : Scan) :
    (s.pushPiece name operand begun).onto base blocks place =
      (s.onto base blocks place).pushPiece name (operand.renumber place) begun := by
  obtain ⟨mode, buffer, quote, root, frames, next⟩ := s
  cases begun <;> cases frames <;> rfl

/-! ## Committing the buffer -/

/-- Cases that are told apart in the same way. -/
theorem ite_onto {c : Prop} [Decidable c] {s t u v : Scan} (hs : s.onto base blocks place = u)
    (ht : t.onto base blocks place = v) :
    (if c then s else t).onto base blocks place = if c then u else v := by
  split
  · exact hs
  · exact ht

theorem commit_onto (s : Scan) :
    s.commit.onto base blocks place = (s.onto base blocks place).commit := by
  obtain ⟨mode, buffer, quote, root, frames, next⟩ := s
  have hpush := fun op => push_onto base blocks place op ⟨mode, [], quote, root, frames, next⟩
  cases mode with
  | slash | comment _ => rfl
  | text =>
    simp only [commit, word, onto]
    exact ite_onto base blocks place rfl (hpush _)
  | space =>
    simp only [commit, word, onto]
    exact ite_onto base blocks place rfl (hpush _)
  | tagName =>
    simp only [commit, word, onto]
    exact ite_onto base blocks place rfl (congrArg (fun s : Scan => { s with mode := .space }) (hpush _))
  | value name begun =>
    simp only [commit, word, onto]
    exact ite_onto base blocks place rfl (pushPiece_onto base blocks place _ _ _ _)

theorem commitField_onto (field : Nat) (s : Scan) : (s.commitField field).onto base blocks place =
    (s.onto base blocks place).commitField (place field) := by
  obtain ⟨mode, buffer, quote, root, frames, next⟩ := s
  have hpush := fun op => push_onto base blocks place op ⟨mode, [], quote, root, frames, next⟩
  cases mode with
  | slash | comment _ => rfl
  | text => exact hpush _
  | tagName => exact congrArg (fun s : Scan => { s with mode := .space }) (hpush _)
  | space => exact ite_onto base blocks place (hpush _) rfl
  | value name begun =>
    refine ite_onto base blocks place (pushPiece_onto base blocks place _ _ _ _) ?_
    rw [pushPiece_onto, pushPiece_onto]
    rfl

/-! ## Steps and runs -/

theorem slash_onto (s : Scan) :
    s.slash.onto base blocks place = (s.onto base blocks place).slash := by
  have hclose : ∀ t : Scan, ({ t.close with mode := .slash } : Scan).onto base blocks place =
      { (t.onto base blocks place).close with mode := .slash } :=
    fun t => congrArg (fun s : Scan => { s with mode := .slash }) (close_onto base blocks place t)
  refine (hclose _).trans ?_
  rw [ite_onto base blocks place (discard_onto base blocks place s.commit) rfl, slash,
    ← commit_onto]
  rfl

theorem stepTag_onto (c : Char) (following : Option Char) (s : Scan) :
    (s.stepTag c following).onto base blocks place =
      (s.onto base blocks place).stepTag c following := by
  have hinValue : (s.onto base blocks place).inValue = s.inValue := rfl
  have hmode : (s.onto base blocks place).mode = s.mode := rfl
  have hcommit : ∀ mode : Mode, ({ s.commit with mode } : Scan).onto base blocks place =
      { (s.onto base blocks place).commit with mode } :=
    fun mode => congrArg (fun s : Scan => { s with mode }) (commit_onto base blocks place s)
  simp only [stepTag, hinValue, hmode]
  refine ite_onto _ _ _ rfl (ite_onto _ _ _ (hcommit .text) (ite_onto _ _ _ rfl (ite_onto _ _ _ rfl
    (ite_onto _ _ _ ?_ (ite_onto _ _ _ (hcommit .space) rfl)))))
  exact slash_onto base blocks place s

theorem enterComment_onto (s : Scan) :
    s.enterComment.onto base blocks place = (s.onto base blocks place).enterComment :=
  ite_onto _ _ _ (congrArg (fun s : Scan => { s with mode := .comment [], buffer := [] })
    (discard_onto base blocks place s)) rfl

theorem stepInside_onto (c : Char) (following : Option Char) (s : Scan) :
    (s.stepInside c following).onto base blocks place =
      (s.onto base blocks place).stepInside c following := by
  have hquote : (s.onto base blocks place).quote = s.quote := rfl
  simp only [stepInside, hquote]
  cases s.quote with
  | none => exact stepTag_onto base blocks place c following s
  | some quote => exact ite_onto base blocks place rfl rfl

theorem step_onto (c : Char) (following : Option Char) (s : Scan) :
    (s.step c following).onto base blocks place = (s.onto base blocks place).step c following := by
  have hinside := (enterComment_onto base blocks place _).trans
    (congrArg enterComment (stepInside_onto base blocks place c following s))
  have hopen : ({ s.commit.openElement with mode := .tagName } : Scan).onto base blocks place =
      { (s.onto base blocks place).commit.openElement with mode := .tagName } :=
    congrArg (fun s : Scan => { s.openElement with mode := .tagName })
      (commit_onto base blocks place s)
  obtain ⟨mode, buffer, quote, root, frames, next⟩ := s
  cases mode with
  | text => exact ite_onto base blocks place hopen rfl
  | comment latest => exact ite_onto base blocks place rfl rfl
  | slash | space | tagName | value name begun => exact hinside

theorem part_onto (cs : List Char) (s : Scan) :
    (part cs s).onto base blocks place = part cs (s.onto base blocks place) := by
  induction cs generalizing s with
  | nil => rfl
  | cons c rest ih => rw [part, ih, step_onto, part]

theorem field_onto (index : Nat) (s : Scan) : (s.field index).onto base blocks place =
    (s.onto base blocks place).field (place index) := by
  rw [field, commitField_onto,
    ite_onto base blocks place (commit_onto base blocks place s) rfl]
  rfl

/-- The fields of a scan are placed one after the other. -/
theorem rest_onto {ps : List String} {index start : Nat}
    (hplace : ∀ k < ps.length, place (index + k) = start + k) (s : Scan) :
    (rest index ps s).onto base blocks place = rest start ps (s.onto base blocks place) := by
  induction ps generalizing s index start with
  | nil => rfl
  | cons p ps ih =>
    have hnext : ∀ k < ps.length, place (index + 1 + k) = start + 1 + k := by
      intro k hk
      have hplaced := hplace (k + 1) (Nat.succ_lt_succ hk)
      rw [Nat.add_assoc, Nat.add_comm 1, hplaced, Nat.add_assoc, Nat.add_comm 1]
    have hfirst : place index = start := hplace 0 (Nat.zero_lt_succ _)
    rw [rest, ih hnext, part_onto, field_onto, hfirst, rest]

theorem finish_onto (s : Scan) :
    s.finish.onto base blocks place = (s.onto base blocks place).finish := by
  have hclose : ∀ (n : Nat) (t : Scan), (Nat.repeat close n t).onto base blocks place =
      Nat.repeat close n (t.onto base blocks place) := by
    intro n t
    induction n with
    | zero => rfl
    | succ n ih => rw [Nat.repeat, close_onto, ih, Nat.repeat]
  have hlength : (s.onto base blocks place).commit.frames.length = s.commit.frames.length := by
    rw [← commit_onto]
    exact List.length_map _
  rw [finish, closeAll, hclose, commit_onto, finish, closeAll, hlength]

end Scan

/-! ## Evaluation -/

/-- What is kept for these blocks in one place is kept for them in another, where they come after
others. -/
def Folds.Match (blocks : Nat) (numbers : List Nat) (folds kept : Folds) : Prop :=
  ∀ number ∈ numbers, folds.lookup (blocks + number) = kept.lookup number

/-- Two passes in the same state that have kept the same for these blocks. -/
structure Pass.Match {σ : Type} (blocks : Nat) (numbers : List Nat) (p q : Pass σ) : Prop where
  host : p.host = q.host
  folds : Folds.Match blocks numbers p.folds q.folds

namespace Pass.Match

variable {σ : Type} {blocks : Nat} {numbers : List Nat} {p q : Pass σ}

theorem noteSpread (h : p.Match blocks numbers q) (value : Value) :
    (p.noteSpread value).Match blocks numbers (q.noteSpread value) := by
  cases value <;> exact ⟨h.host, h.folds⟩

theorem keep (h : p.Match blocks numbers q) (block : Nat) (value : Value) :
    (p.keep (blocks + block) value).Match blocks numbers (q.keep block value) := by
  refine ⟨h.host, fun number hn => ?_⟩
  by_cases heq : number = block
  · subst heq
    simp only [Pass.keep, List.lookup_cons_self]
  · have hne : blocks + number ≠ blocks + block := fun hadd => heq (Nat.add_left_cancel hadd)
    simp only [Pass.keep, List.lookup_cons, beq_false_of_ne heq, beq_false_of_ne hne]
    exact h.folds number hn

end Pass.Match

namespace Setting

variable {σ : Type}

/-- The setting in which instructions do what they do after so many other blocks: the factory is told the
numbers that they have there, and the fields have values of their own. -/
def shifted (s : Setting σ) (blocks : Nat) (values : List Value) : Setting σ where
  template := s.template
  factory node := s.factory { node with block := blocks + node.block }
  fold := s.fold
  values := values

section Renumbered

variable {s : Setting σ} {blocks : Nat} {place : Nat → Nat} {values : List Value}
  {numbers : List Nat}

theorem value_renumber
    (hvalues : ∀ i, s.values.getD (place i) .undefined = values.getD i .undefined) (o : Operand) :
    (o.renumber place).value s.values = o.value values := by
  cases o with
  | fixed value => rfl
  | field index => exact hvalues index

theorem isField_renumber (o : Operand) : (o.renumber place).isField = o.isField := by
  cases o <;> rfl

/-- An element is built alike if its body is carried out alike. -/
theorem build_renumber (block : Nat) {body body' : List Op} {p q : Pass σ}
    (hdraft : (s.runAll body' .element p).1 = ((s.shifted blocks values).runAll body .element q).1)
    (hpass : (s.runAll body' .element p).2.Match blocks numbers
      ((s.shifted blocks values).runAll body .element q).2) :
    (s.build (blocks + block) body' p).1 = ((s.shifted blocks values).build block body q).1 ∧
      (s.build (blocks + block) body' p).2.1 =
        ((s.shifted blocks values).build block body q).2.1 ∧
      (s.build (blocks + block) body' p).2.2.Match blocks numbers
        ((s.shifted blocks values).build block body q).2.2 := by
  simp only [build, hdraft, hpass.host]
  exact ⟨rfl, rfl, rfl, hpass.folds⟩

mutual

/-- Renumbered instructions do what they did where their fields have the same values and the same is
kept. -/
theorem run_renumber (hvalues : ∀ i, s.values.getD (place i) .undefined = values.getD i .undefined) :
    ∀ (op : Op) (d : Draft) {p q : Pass σ}, (∀ row ∈ op.blocks, row.1 ∈ numbers) →
      p.Match blocks numbers q →
      (s.run (op.renumber blocks place) d p).1 = ((s.shifted blocks values).run op d q).1 ∧
        (s.run (op.renumber blocks place) d p).2.Match blocks numbers
          ((s.shifted blocks values).run op d q).2
  | .tag o, d, p, q, _, h | .set _ o, d, p, q, _, h | .append _ o, d, p, q, _, h
  | .child o, d, p, q, _, h => by
    rw [Op.renumber, run, run, value_renumber hvalues, isField_renumber]
    exact ⟨rfl, h⟩
  | .spread index, d, p, q, _, h => by
    have hvalue : (Operand.field (place index)).value s.values =
        (Operand.field index).value values := hvalues index
    rw [Op.renumber, run, run, hvalue]
    exact ⟨rfl, h.noteSpread _⟩
  | .element block body, d, p, q, hsub, h => by
    have hlookup := h.folds block (hsub _ (List.mem_cons_self ..))
    have hbody := runAll_renumber hvalues body .element
      (fun row hrow => hsub row (List.mem_cons_of_mem _ hrow)) h
    rw [Op.renumber]
    cases hq : q.folds.lookup block with
    | some value =>
      rw [run_element_kept s _ d (hlookup.trans hq), run_element_kept _ body d hq]
      exact ⟨rfl, h⟩
    | none =>
      obtain ⟨hvalue, hflags, hpass⟩ := build_renumber block hbody.1 hbody.2
      rw [run_element_built s _ d (hlookup.trans hq), run_element_built _ body d hq, hvalue, hflags]
      split
      · refine ⟨rfl, ?_⟩
        by_cases hfold : s.fold = true
        · rw [if_pos hfold, if_pos (show (s.shifted blocks values).fold = true from hfold)]
          exact hpass.keep block _
        · rw [if_neg hfold, if_neg (show ¬ (s.shifted blocks values).fold = true from hfold)]
          exact hpass
      · exact ⟨rfl, hpass⟩

theorem runAll_renumber
    (hvalues : ∀ i, s.values.getD (place i) .undefined = values.getD i .undefined) :
    ∀ (ops : List Op) (d : Draft) {p q : Pass σ}, (∀ row ∈ Op.blocksOfAll ops, row.1 ∈ numbers) →
      p.Match blocks numbers q →
      (s.runAll (Op.renumberAll blocks place ops) d p).1 =
          ((s.shifted blocks values).runAll ops d q).1 ∧
        (s.runAll (Op.renumberAll blocks place ops) d p).2.Match blocks numbers
          ((s.shifted blocks values).runAll ops d q).2
  | [], _, _, _, _, h => ⟨rfl, h⟩
  | op :: rest, d, p, q, hsub, h => by
    have hop := run_renumber hvalues op d (fun row hrow => hsub row (List.mem_append_left _ hrow)) h
    rw [Op.renumberAll, runAll_cons, runAll_cons, hop.1]
    exact runAll_renumber hvalues rest _ (fun row hrow => hsub row (List.mem_append_right _ hrow))
      hop.2

end

end Renumbered

/-! ### What instructions leave alone -/

mutual

/-- What is kept for other blocks stays as it is. -/
theorem lookup_run (s : Setting σ) {number : Nat} : ∀ (op : Op) (d : Draft) (p : Pass σ),
    (∀ row ∈ op.blocks, row.1 ≠ number) →
    (s.run op d p).2.folds.lookup number = p.folds.lookup number
  | .tag _, _, _, _ | .set _ _, _, _, _ | .append _ _, _, _, _ | .child _, _, _, _ => by
    rw [run]
  | .spread index, _, p, _ => by
    rw [run, Pass.folds_noteSpread]
  | .element block body, d, p, h => by
    have hbody := lookup_runAll s body .element p fun row hrow => h row (List.mem_cons_of_mem _ hrow)
    have hne : block ≠ number := h _ (List.mem_cons_self ..)
    cases hl : p.folds.lookup block with
    | some value => rw [run_element_kept s body d hl]
    | none =>
      rw [run_element_built s body d hl]
      split
      · split
        · simp only [Pass.keep, List.lookup_cons, beq_false_of_ne hne.symm, folds_build, hbody]
        · exact hbody
      · exact hbody

theorem lookup_runAll (s : Setting σ) {number : Nat} : ∀ (ops : List Op) (d : Draft) (p : Pass σ),
    (∀ row ∈ Op.blocksOfAll ops, row.1 ≠ number) →
    (s.runAll ops d p).2.folds.lookup number = p.folds.lookup number
  | [], _, _, _ => rfl
  | op :: rest, d, p, h => by
    rw [runAll, lookup_runAll s rest _ _ fun row hrow => h row (List.mem_append_right _ hrow)]
    exact lookup_run s op d p fun row hrow => h row (List.mem_append_left _ hrow)

end

/-- What an instruction adds to the children does not depend on what is there, nor does what it leaves. -/
theorem run_children (s : Setting σ) (op : Op) (d e : Draft) (p : Pass σ) :
    (s.run op d p).2 = (s.run op e p).2 ∧ ∃ built,
      (s.run op d p).1.children = d.children ++ built ∧
        (s.run op e p).1.children = e.children ++ built := by
  cases op with
  | tag o | set name o | append name o =>
    exact ⟨rfl, [], (List.append_nil _).symm, (List.append_nil _).symm⟩
  | child o => exact ⟨rfl, [o.value s.values], rfl, rfl⟩
  | spread index =>
    have hspread : ∀ (value : Value) (d : Draft), (d.spreadProps value).children = d.children := by
      intro value d
      cases value <;> rfl
    simp only [run, Draft.markOwn, hspread]
    exact ⟨trivial, [], (List.append_nil _).symm, (List.append_nil _).symm⟩
  | element block body =>
    cases hl : p.folds.lookup block with
    | some value =>
      rw [run_element_kept s body d hl, run_element_kept s body e hl]
      exact ⟨rfl, [value], rfl, rfl⟩
    | none =>
      rw [run_element_built s body d hl, run_element_built s body e hl]
      split <;> exact ⟨rfl, [(s.build block body p).1], rfl, rfl⟩

theorem runAll_children (s : Setting σ) (ops : List Op) (d e : Draft) (p : Pass σ) :
    (s.runAll ops d p).2 = (s.runAll ops e p).2 ∧ ∃ built,
      (s.runAll ops d p).1.children = d.children ++ built ∧
        (s.runAll ops e p).1.children = e.children ++ built := by
  induction ops generalizing d e p with
  | nil => exact ⟨rfl, [], (List.append_nil _).symm, (List.append_nil _).symm⟩
  | cons op rest ih =>
    obtain ⟨hpass, built, hd, he⟩ := s.run_children op d e p
    obtain ⟨hpass', more, hd', he'⟩ := ih (s.run op d p).1 (s.run op e p).1 (s.run op d p).2
    rw [runAll_cons, runAll_cons, ← hpass]
    refine ⟨hpass', built ++ more, ?_, ?_⟩
    · rw [hd', hd, List.append_assoc]
    · rw [he', he, List.append_assoc]

end Setting

end TaggedMarkup
