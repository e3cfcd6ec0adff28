import TaggedMarkup.Proofs.Template.Folding

/-!
# What a factory is handed and what it makes

An evaluation is watched through its factory, which takes a **note** of each of its calls and else does
what it did before. The **logged** factory writes down what it is handed: the log of an evaluation is the
list of its **handovers**, one for each element that is built, in the order in which the factory is called.
The **watched** one also writes down what it makes of it and the flags that it leaves: its **creations**.

Taking notes changes nothing (`run_noted`), and what is written down can be said without a factory that
watches: for each element that is not kept, first what its body leads to, then what is made of the draft
that the body has put together (`made`).
-/

namespace TaggedMarkup

variable {σ α : Type}

/-- What a factory is handed for one element. -/
structure Handover where
  node : Node
  tag : Value
  props : Option Props
  children : List Value

/-- One call of a factory. -/
structure Creation where
  handed : Handover
  /-- what the factory has made -/
  value : Value
  /-- the flags that it has left -/
  flags : Flags

namespace Creation

/-- The block of the element that was made. -/
def block (c : Creation) : Nat := c.handed.node.block

/-- The draft from which the element was made. -/
def draft (c : Creation) : Draft :=
  ⟨c.handed.tag, c.handed.props, c.handed.children, c.handed.node.flags⟩

end Creation

/-- The factory with a note of each of its calls, the latest last, beside the state of its host. -/
def Factory.noted (note : Creation → α) (f : Factory σ) : Factory (List α × σ) :=
  fun node tag props children (notes, host) =>
    let (value, flags, host) := f node tag props children host
    (value, flags, notes ++ [note ⟨⟨node, tag, props, children⟩, value, flags⟩], host)

/-- A pass with notes. -/
def Pass.noted (notes : List α) (p : Pass σ) : Pass (List α × σ) :=
  ⟨p.folds, p.notices, (notes, p.host)⟩

/-- The factory with a log of what it is handed, the latest last, beside the state of its host. -/
def Factory.logged (f : Factory σ) : Factory (List Handover × σ) :=
  fun node tag props children (log, host) =>
    let (value, flags, host) := f node tag props children host
    (value, flags, log ++ [⟨node, tag, props, children⟩], host)

/-- A pass with a log. -/
def Pass.logged (log : List Handover) (p : Pass σ) : Pass (List Handover × σ) :=
  ⟨p.folds, p.notices, (log, p.host)⟩

namespace Setting

/-- The same use of a template, with notes. -/
def noted (note : Creation → α) (s : Setting σ) : Setting (List α × σ) :=
  ⟨s.template, s.factory.noted note, s.fold, s.values⟩

/-- What the factory makes in an evaluation of a template that has kept `folds` so far. -/
def creations (s : Setting σ) (t : Template) (folds : Folds) (host : σ) : List Creation :=
  ((s.noted id).evaluate t folds ([], host)).2.host.1

/-- The same use of a template, watched. -/
def logged (s : Setting σ) : Setting (List Handover × σ) :=
  ⟨s.template, s.factory.logged, s.fold, s.values⟩

/-- What the factory is handed in an evaluation of a template that has kept `folds` so far. -/
def handovers (s : Setting σ) (t : Template) (folds : Folds) (host : σ) : List Handover :=
  (s.logged.evaluate t folds ([], host)).2.host.1

/-- What the factory is handed for an element with this draft. -/
def handover (s : Setting σ) (block : Nat) (d : Draft) : Handover :=
  ⟨⟨s.template, block, d.flags⟩, d.tag, d.props, d.children⟩

/-- What the factory makes of an element with this body. -/
def creation (s : Setting σ) (block : Nat) (body : List Op) (p : Pass σ) : Creation where
  handed := s.handover block (s.runAll body .element p).1
  value := (s.build block body p).1
  flags := (s.build block body p).2.1

mutual

/-- What is made by one instruction: nothing, unless it builds an element. -/
def made (s : Setting σ) : Op → Pass σ → List Creation
  | .element block body, p =>
    match p.folds.lookup block with
    | some _ => []
    | none => madeAll s body .element p ++ [s.creation block body p]
  | _, _ => []

/-- What is made by instructions, in order. -/
def madeAll (s : Setting σ) : List Op → Draft → Pass σ → List Creation
  | [], _, _ => []
  | op :: rest, d, p => made s op p ++ madeAll s rest (s.run op d p).1 (s.run op d p).2

end

theorem made_kept (s : Setting σ) {block : Nat} (body : List Op) {p : Pass σ} {value : Value}
    (h : p.folds.lookup block = some value) : s.made (.element block body) p = [] := by
  rw [made, h]

theorem made_built (s : Setting σ) {block : Nat} (body : List Op) {p : Pass σ}
    (h : p.folds.lookup block = none) :
    s.made (.element block body) p = s.madeAll body .element p ++ [s.creation block body p] := by
  rw [made, h]

/-- An instruction that is no element makes nothing. -/
theorem made_of_blocks (s : Setting σ) {op : Op} (h : op.blocks = []) (p : Pass σ) :
    s.made op p = [] := by
  cases op with
  | element block body => cases h
  | _ => rw [made]; nofun

mutual

/-- What one instruction hands over: nothing, unless it builds an element. -/
def handed (s : Setting σ) : Op → Pass σ → List Handover
  | .element block body, p =>
    match p.folds.lookup block with
    | some _ => []
    | none => handedAll s body .element p ++ [s.handover block (s.runAll body .element p).1]
  | _, _ => []

/-- What instructions hand over, in order. -/
def handedAll (s : Setting σ) : List Op → Draft → Pass σ → List Handover
  | [], _, _ => []
  | op :: rest, d, p => handed s op p ++ handedAll s rest (s.run op d p).1 (s.run op d p).2

end

theorem handed_kept (s : Setting σ) {block : Nat} (body : List Op) {p : Pass σ} {value : Value}
    (h : p.folds.lookup block = some value) : s.handed (.element block body) p = [] := by
  rw [handed, h]

theorem handed_built (s : Setting σ) {block : Nat} (body : List Op) {p : Pass σ}
    (h : p.folds.lookup block = none) :
    s.handed (.element block body) p =
      s.handedAll body .element p ++ [s.handover block (s.runAll body .element p).1] := by
  rw [handed, h]

mutual

/-- The handovers are those of what is made. -/
theorem handed_eq (s : Setting σ) : ∀ (op : Op) (p : Pass σ),
    s.handed op p = (s.made op p).map (·.handed)
  | .tag _, _ | .set _ _, _ | .append _ _, _ | .child _, _ | .spread _, _ => by
    rw [handed, made] <;> first | rfl | nofun
  | .element block body, p => by
    cases hl : p.folds.lookup block with
    | some value => rw [handed_kept s body hl, made_kept s body hl, List.map_nil]
    | none =>
      rw [handed_built s body hl, made_built s body hl, handedAll_eq s body, List.map_append]
      rfl

theorem handedAll_eq (s : Setting σ) : ∀ (ops : List Op) (d : Draft) (p : Pass σ),
    s.handedAll ops d p = (s.madeAll ops d p).map (·.handed)
  | [], _, _ => rfl
  | op :: rest, d, p => by
    rw [handedAll, madeAll, handed_eq s op, handedAll_eq s rest, List.map_append]

end

/-! ## Taking notes changes nothing -/

/-- A build with notes gives the same value and flags, and takes one note more than its body. -/
theorem build_noted (note : Creation → α) (s : Setting σ) (block : Nat) {body : List Op} {p : Pass σ}
    {notes more : List α}
    (hbody : (s.noted note).runAll body .element (p.noted notes) =
      ((s.runAll body .element p).1, (s.runAll body .element p).2.noted more)) :
    (s.noted note).build block body (p.noted notes) =
      ((s.build block body p).1, (s.build block body p).2.1,
        (s.build block body p).2.2.noted (more ++ [note (s.creation block body p)])) := by
  simp only [build, hbody]
  rfl

mutual

theorem run_noted (note : Creation → α) (s : Setting σ) :
    ∀ (op : Op) (d : Draft) (p : Pass σ) (notes : List α),
    (s.noted note).run op d (p.noted notes) =
      ((s.run op d p).1, (s.run op d p).2.noted (notes ++ (s.made op p).map note))
  | .tag _, _, _, _ | .set _ _, _, _, _ | .append _ _, _, _, _ | .child _, _, _, _ => by
    rw [made_of_blocks s rfl, List.map_nil, List.append_nil, run, run]
    rfl
  | .spread index, d, p, notes => by
    have hnote : ∀ value : Value,
        (p.noted notes).noteSpread value = (p.noteSpread value).noted notes := by
      intro value
      cases value <;> rfl
    rw [made_of_blocks s rfl, List.map_nil, List.append_nil, run, run, hnote]
    rfl
  | .element block body, d, p, notes => by
    have hfolds : (p.noted notes).folds = p.folds := rfl
    cases hl : p.folds.lookup block with
    | some value =>
      rw [made_kept s body hl, List.map_nil, List.append_nil, run_element_kept s body d hl,
        run_element_kept (s.noted note) body d (hfolds ▸ hl)]
    | none =>
      have hbuild := build_noted note s block (runAll_noted note s body .element p notes)
      rw [made_built s body hl, run_element_built s body d hl,
        run_element_built (s.noted note) body d (hfolds ▸ hl), hbuild, List.map_append,
        ← List.append_assoc]
      have hfold : (s.noted note).fold = s.fold := rfl
      rw [hfold]
      split
      · split <;> rfl
      · rfl

theorem runAll_noted (note : Creation → α) (s : Setting σ) :
    ∀ (ops : List Op) (d : Draft) (p : Pass σ) (notes : List α),
    (s.noted note).runAll ops d (p.noted notes) =
      ((s.runAll ops d p).1, (s.runAll ops d p).2.noted (notes ++ (s.madeAll ops d p).map note))
  | [], d, p, notes => by
    rw [madeAll, List.map_nil, List.append_nil, runAll, runAll]
  | op :: rest, d, p, notes => by
    rw [runAll, runAll, run_noted note s op d p notes, madeAll, List.map_append,
      ← List.append_assoc]
    exact runAll_noted note s rest _ _ _

end

/-- An evaluation with notes gives the same value and leaves the same, with a note of whatever is
made. -/
theorem evaluate_noted (note : Creation → α) (s : Setting σ) (t : Template) (folds : Folds)
    (host : σ) :
    (s.noted note).evaluate t folds ([], host) =
      ((s.evaluate t folds host).1, (s.evaluate t folds host).2.noted
        ((s.madeAll t.root .root { folds, host }).map note)) := by
  have hrun := runAll_noted note s t.root .root { folds, host } []
  rw [List.nil_append] at hrun
  exact congrArg (fun r => (ofRoots r.1.children, r.2)) hrun

/-- The creations of an evaluation are those of the instructions at the root. -/
theorem creations_eq (s : Setting σ) (t : Template) (folds : Folds) (host : σ) :
    s.creations t folds host = s.madeAll t.root .root { folds, host } :=
  (congrArg (fun r => r.2.host.1) (evaluate_noted id s t folds host)).trans (List.map_id _)

/-- A watched evaluation gives the same value and leaves the same, with a log. -/
theorem evaluate_logged (s : Setting σ) (t : Template) (folds : Folds) (host : σ) :
    s.logged.evaluate t folds ([], host) =
      ((s.evaluate t folds host).1, (s.evaluate t folds host).2.logged
        (s.handedAll t.root .root { folds, host })) := by
  rw [handedAll_eq]
  exact evaluate_noted Creation.handed s t folds host

/-- The handovers of an evaluation are those of the instructions at the root. -/
theorem handovers_eq (s : Setting σ) (t : Template) (folds : Folds) (host : σ) :
    s.handovers t folds host = s.handedAll t.root .root { folds, host } :=
  congrArg (fun r => r.2.host.1) (evaluate_logged s t folds host)

end Setting

end TaggedMarkup
