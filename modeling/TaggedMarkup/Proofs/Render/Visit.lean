import TaggedMarkup.Proofs.Host.OnTime
import TaggedMarkup.Render.Awaiting
import TaggedMarkup.Render.Rules

/-!
# The reference traversal

Rendering one member after the other comes to a **visit** of the value: depth first, from left to
right, as a plain recursive program. There are no stacks, tasks or timers in it; to wait is to move
the clock on. A visit acts on what is seen of a world, and each fragment comes with the log as it was
when the fragment came out.

A value may unfold for ever, so visits are bounded by fuel: the tree under a value is **finite** if some
fuel is enough.
-/

namespace TaggedMarkup

/-- A fragment, with what had happened when it came out. -/
structure Fragment where
  text : String
  log : List (Nat × Event)

/-- A visit of part of a tree: the fragments, a result or the error that ends everything, and the
world afterwards. It is `none` if the fuel does not last. -/
abbrev Visit (α : Type) := World → Option (List Fragment × Except Error α × World)

/-- The moment that is waited for, or the one that will be. -/
def Stage.deadline (next : Nat) : Stage → Nat
  | waiting deadline => deadline
  | _ => next

namespace World

/-- Run the code at the end of a pending value and keep its outcome. -/
def finish (pending : Nat) (label : Option String) (body : Action) (w : World) : Outcome × World :=
  let (outcome, w) := body.run (w.note (.finished pending label))
  (outcome, w.modifyPending pending fun cell => { cell with stage := .done outcome })

/-- Write down that a pending value is started, unless it was before. -/
def noteStart (pending : Nat) (cell : PendingCell) (w : World) : World :=
  match cell.stage with
  | .unstarted => w.note (.started pending cell.label)
  | _ => w

/-- What a pending value comes to. It is started unless it was before, and its work is waited for. -/
def outcome : Nat → Nat → World → Option (Outcome × World)
  | 0, _, _ => none
  | depth + 1, pending, w =>
    match w.pendings[pending]? with
    | none => some (.ok .undefined, w)
    | some cell =>
      match cell.stage with
      | .done outcome => some (outcome, w)
      | stage =>
        let w := w.noteStart pending cell
        match cell.job with
        | .after delay _ body =>
          some ((w.sleepUntil (stage.deadline (w.clock + delay))).finish pending cell.label body)
        | .checking source =>
          -- a pending value can only wait for one made before it
          if source < pending then
            match outcome depth source w with
            | none => none
            | some (outcome, w) => some (w.finish pending cell.label (checkedBody outcome))
          else
            none

end World

namespace Visit

variable {α β : Type}

/-- The fuel did not last. -/
def never : Visit α := fun _ => none

def done (a : α) : Visit α := fun w => some ([], .ok a, w)

def fail (error : Error) : Visit α := fun w => some ([], .error error, w)

/-- One visit after the other. An error ends both. -/
def andThen (m : Visit α) (f : α → Visit β) : Visit β := fun w =>
  match m w with
  | none => none
  | some (fragments, .error error, w) => some (fragments, .error error, w)
  | some (fragments, .ok a, w) =>
    match f a w with
    | none => none
    | some (more, result, w) => some (fragments ++ more, result, w)

instance : Monad Visit where
  pure := done
  bind := andThen

/-- Two visits fail if the first one does, or the second one after it. -/
theorem andThen_failed {m : Visit α} {f : α → Visit β} {w r : World} {fragments : List Fragment}
    {error : Error} (h : (m >>= f) w = some (fragments, .error error, r)) :
    m w = some (fragments, .error error, r) ∨ ∃ a first second u, m w = some (first, .ok a, u) ∧
      f a u = some (second, .error error, r) ∧ fragments = first ++ second := by
  change andThen m f w = _ at h
  unfold andThen at h
  split at h
  · cases h
  · rename_i hfirst
    cases h
    exact .inl hfirst
  · rename_i first a u hfirst
    split at h
    · cases h
    · rename_i second result u' hsecond
      cases h
      exact .inr ⟨a, first, second, u, hfirst, hsecond, rfl⟩

/-- Two visits get through if one does after the other. -/
theorem andThen_through {m : Visit α} {f : α → Visit β} {w r : World} {fragments : List Fragment}
    {b : β} (h : (m >>= f) w = some (fragments, .ok b, r)) :
    ∃ a first second u, m w = some (first, .ok a, u) ∧ f a u = some (second, .ok b, r) ∧
      fragments = first ++ second := by
  change andThen m f w = _ at h
  unfold andThen at h
  split at h
  · cases h
  · cases h
  · rename_i first a u hfirst
    split at h
    · cases h
    · rename_i second result u' hsecond
      cases h
      exact ⟨a, first, second, u, hfirst, hsecond, rfl⟩

theorem andThen_eq {m : Visit α} {f : α → Visit β} {w u r : World} {first second : List Fragment}
    {a : α} {result : Except Error β} (hfirst : m w = some (first, .ok a, u))
    (hsecond : f a u = some (second, result, r)) :
    (m >>= f) w = some (first ++ second, result, r) := by
  change andThen m f w = _
  unfold andThen
  rw [hfirst]
  dsimp only
  rw [hsecond]

theorem andThen_assoc {γ : Type} (m : Visit α) (f : α → Visit β) (g : β → Visit γ) :
    (m >>= f >>= g) = (m >>= fun a => f a >>= g) := by
  funext w
  change andThen (andThen m f) g w = andThen m (fun a => andThen (f a) g) w
  unfold andThen
  cases m w with
  | none => rfl
  | some first =>
    obtain ⟨fragments, result, u⟩ := first
    cases result with
    | error error => rfl
    | ok a =>
      dsimp only
      cases f a u with
      | none => rfl
      | some second =>
        obtain ⟨more, result, v⟩ := second
        cases result with
        | error error => rfl
        | ok b =>
          dsimp only
          cases g b v with
          | none => rfl
          | some third => simp only [List.append_assoc]

/-- Hand a fragment out. -/
def emit (text : String) : Visit Unit := fun w => some ([⟨text, w.log⟩], .ok (), w)

/-- Change the world. -/
def act (f : World → α × World) : Visit α := fun w => some ([], .ok (f w).1, (f w).2)

theorem act_bind (f : World → α × World) (g : α → Visit β) (w : World) :
    (act f >>= g) w = g (f w).1 (f w).2 := by
  change andThen (act f) g w = _
  unfold andThen act
  dsimp only
  cases g (f w).1 (f w).2 with
  | none => rfl
  | some r => rfl

/-- Write an event down. -/
def note (event : Event) : Visit Unit := act fun w => ((), w.note event)

/-- Visit each member, in order. -/
def each (visit : α → Visit Unit) : List α → Visit Unit
  | [] => done ()
  | a :: rest => do
    visit a
    each visit rest

/-- Go on with an outcome. -/
def ofOutcome : Outcome → Visit Value
  | .ok value => done value
  | .error error => fail error

/-- Await a pending value. -/
def awaited (pending : Nat) : Visit Value := fun w =>
  match w.outcome (pending + 1) pending with
  | none => none
  | some (outcome, w) => ofOutcome outcome w

theorem done_bind (a : α) (f : α → Visit β) : (done a >>= f) = f a := by
  funext w
  change andThen (done a) f w = _
  unfold andThen done
  dsimp only
  cases f a w with
  | none => rfl
  | some r => rfl

theorem bind_done (m : Visit Unit) : (m >>= fun _ => done ()) = m := by
  funext w
  change andThen m (fun _ => done ()) w = m w
  unfold andThen done
  cases h : m w with
  | none => rfl
  | some r =>
    obtain ⟨fragments, result, v⟩ := r
    cases result with
    | error error => rfl
    | ok a => simp only [List.append_nil]

theorem each_singleton (visit : α → Visit Unit) (a : α) : each visit [a] = visit a := bind_done _

theorem each_map (visit : β → Visit Unit) (f : α → β) (as : List α) :
    each visit (as.map f) = each (fun a => visit (f a)) as := by
  induction as with
  | nil => rfl
  | cons a rest ih => rw [List.map_cons, each, each, ih]

theorem each_append (visit : α → Visit Unit) (xs ys : List α) :
    each visit (xs ++ ys) = (each visit xs >>= fun _ => each visit ys) := by
  induction xs with
  | nil => exact (done_bind _ _).symm
  | cons x rest ih =>
    rw [List.cons_append, each, each, ih, andThen_assoc]

theorem fail_bind (error : Error) (f : α → Visit β) : (fail error >>= f) = fail error := rfl

theorem awaited_bind {pending : Nat} {o : Outcome} {w r : World}
    (h : w.outcome (pending + 1) pending = some (o, r)) (f : Value → Visit β) :
    (awaited pending >>= f) w = (ofOutcome o >>= f) r := by
  change andThen (awaited pending) f w = andThen (ofOutcome o) f r
  unfold andThen awaited
  rw [h]

/-- A visit that awaits a pending value comes to an end only if the outcome is there. -/
theorem outcome_of_awaited {pending : Nat} {w : World} {f : Value → Visit β}
    {r : List Fragment × Except Error β × World} (h : (awaited pending >>= f) w = some r) :
    ∃ o v, w.outcome (pending + 1) pending = some (o, v) := by
  change andThen (awaited pending) f w = _ at h
  unfold andThen awaited at h
  cases ho : w.outcome (pending + 1) pending with
  | none =>
    rw [ho] at h
    cases h
  | some o => exact ⟨o.1, o.2, rfl⟩

/-! ## The rules -/

/-- The rule for one prop of a tag. -/
def prop (name : String) (value : Value) : Visit Unit :=
  if Render.isSkipped value then done ()
  else if !Name.isAttribute name then fail (.invalidAttributeName name)
  else match Render.attributeText? name value with
    | some text => emit text
    | none => note (.droppedProp name value.typeName)

/-- The rule for trusted markup. -/
def markup : Value → Visit Unit
  | .str text => emit text
  | other => fail (.invalidRawResult other.typeName)

/-- The rule for a tag: void tags are recognised as written and have no children. -/
def tag (item : Value → Visit Unit) (name : String) (e : Element) : Visit Unit :=
  if Name.isVoid name then do
    emit ("<" ++ Case.lowered name)
    each (fun p => prop p.1 p.2) e.props
    emit " />"
  else if Name.isTag (Case.lowered name) then do
    emit ("<" ++ Case.lowered name)
    each (fun p => prop p.1 p.2) e.props
    emit ">"
    each item e.children
    emit ("</" ++ Case.lowered name ++ ">")
  else
    fail (.invalidTagName (Case.lowered name))

/-- The rule for the value of a component: it is an item, or trusted markup, awaited if need be. -/
def called (item : Value → Visit Unit) (raw : Bool) (value : Value) : Visit Unit :=
  if raw then
    match value with
    | .pending cell => do
      let value ← awaited cell
      markup value
    | value => markup value
  else
    item value

/-- The rule for a component. -/
def component (item : Value → Visit Unit) (c : Component) (e : Element) : Visit Unit := do
  let outcome ← act (World.callComponent c e.props e.children)
  let value ← ofOutcome outcome
  called item e.raw value

/-- The rule for an element. -/
def element (item : Value → Visit Unit) (e : Element) : Visit Unit :=
  match e.type with
  | .missing => fail (.malformed (Value.element e).toJson.text)
  | .fragment => each item e.children
  | .tag name => tag item name e
  | .component c => component item c e
  | .invalid typeName => fail (.invalidElementType typeName)

/-- Draw the members of a sequence and visit each before the next one is drawn. -/
def drawn (item : Value → Visit Unit) (sequence : Nat) (label : Option String) :
    Nat → List (Nat × Value) → Visit Unit
  | _, [] => done ()
  | index, (delay, value) :: rest => do
    act fun w => ((), w.sleepUntil (w.clock + delay))
    note (.drawn sequence label index)
    item value
    drawn item sequence label (index + 1) rest

theorem drawn_cons (item : Value → Visit Unit) (sequence : Nat) (label : Option String)
    (index delay : Nat) (value : Value) (rest : List (Nat × Value)) (w : World) :
    drawn item sequence label index ((delay, value) :: rest) w =
      (item value >>= fun _ => drawn item sequence label (index + 1) rest)
        ((w.sleepUntil (w.clock + delay)).note (.drawn sequence label index)) := by
  rw [drawn, act_bind]
  exact act_bind ..

/-- Take a sequence: its label and members, unless somebody came first. -/
def take (cell : Nat) (w : World) : Option (Option String × List (Nat × Value)) × World :=
  match w.sequences[cell]? with
  | none => (none, w)
  | some s =>
    if s.taken then (none, w)
    else
      (some (s.label, s.members),
        { w with sequences := w.sequences.modify cell fun s => { s with taken := true } })

/-- The rule for a sequence: only who comes first gets its members. -/
def sequence (item : Value → Visit Unit) (cell : Nat) : Visit Unit := do
  let taken ← act (take cell)
  match taken with
  | none => done ()
  | some (label, members) => drawn item cell label 0 members

/-- The rules for items. -/
def item : Nat → Value → Visit Unit
  | 0, _ => never
  | fuel + 1, value =>
    match value with
    | .undefined | .null => emit ""
    | .str text => emit (Escape.text text)
    | .number d => emit d.text
    | .list members => each (item fuel) members
    | .sequence cell => sequence (item fuel) cell
    | .pending cell => do
      let value ← awaited cell
      item fuel value
    | .element e => element (item fuel) e
    | .object entries =>
      if Entries.contains "type" entries then element (item fuel) (Element.ofEntries 0 entries)
      else fail (.malformed value.toJson.text)
    | .bool _ | .component _ => fail (.invalidItemType value.typeName)

/-- The rules for roots that are not, or no longer, awaited: truthy values that make sense on their
own. -/
def settled (root item : Value → Visit Unit) (value : Value) : Visit Unit :=
  match value with
  | .undefined => fail (.invalidRoot "Expected an argument")
  | .list members => each root members
  | value =>
    if value.isFalsy then fail (Render.falsyRoot value)
    else match value with
      | .str _ | .object _ | .element _ | .sequence _ | .pending _ => item value
      | _ => fail (Render.unusableRoot value)

/-- The rules for roots. A pending one is awaited first. -/
def root : Nat → Value → Visit Unit
  | 0, _ => never
  | fuel + 1, value =>
    match value with
    | .pending cell => do
      let value ← awaited cell
      settled (root fuel) (item fuel) value
    | value => settled (root fuel) (item fuel) value

end Visit

end TaggedMarkup
