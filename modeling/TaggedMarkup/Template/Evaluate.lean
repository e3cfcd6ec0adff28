import TaggedMarkup.Template.Basic

/-!
# Evaluating templates

A compiled template is replayed against the values of one use. Every element goes to a **factory**
with its tag, props and children and with a `Node` that tells where the element stands and on what
it depends:

* `own`: its tag or props take a field;
* `children`: a child takes a field, or a child element is dynamic.

The factory may change these flags. If none is left, the element depends on nothing, and its value
is **folded**: kept under the element's block number and used again by every later evaluation of
the same template, without another call of the factory.

Factories act on a state `σ` of their own, so impure ones are covered too.
-/

namespace TaggedMarkup

/-- On what an element depends. -/
structure Flags where
  /-- its tag or its props -/
  own : Bool := false
  /-- some child or descendant -/
  children : Bool := false
  deriving DecidableEq, Repr

namespace Flags

/-- The element depends on nothing. -/
def isStatic (f : Flags) : Bool := !f.own && !f.children

/-- The flags as a bit set. -/
def toNat (f : Flags) : Nat := f.own.toNat + 2 * f.children.toNat

/-- Treat the element as depending on nothing. -/
def markStatic (_ : Flags) : Flags := {}

/-- Treat the element as dynamic. -/
def markDynamic (f : Flags) : Flags := { f with own := true }

end Flags

/-- What a factory knows about the element it builds. -/
structure Node where
  /-- the serial number of the compiled template -/
  template : Nat
  block : Nat
  flags : Flags

/-- Builds the value of one element from its tag, its props if it states any, and its children. It
returns the value and the flags it leaves. -/
abbrev Factory (σ : Type) :=
  Node → Value → Option Props → List Value → σ → Value × Flags × σ

/-- What evaluation reports. -/
inductive Notice where
  /-- a spread of something that is not a map, by the name of its kind -/
  | ignoredSpread (typeName : String)
  /-- the value of a static element was kept -/
  | folded (block : Nat)
  deriving DecidableEq, Repr

/-- The values of static elements, by block number. Each is stored once and stays. -/
abbrev Folds := List (Nat × Value)

/-- The element that is being put together. -/
structure Draft where
  tag : Value
  props : Option Props := none
  children : List Value := []
  flags : Flags := {}

/-- What an evaluation has changed so far. -/
structure Pass (σ : Type) where
  folds : Folds
  notices : List Notice := []
  host : σ

/-- The fixed surroundings of one evaluation. -/
structure Setting (σ : Type) where
  /-- the serial number of the template -/
  template : Nat
  factory : Factory σ
  /-- keep the values of static elements -/
  fold : Bool
  /-- the values for the gaps between the parts -/
  values : List Value

namespace Operand

def isField : Operand → Bool
  | fixed _ => false
  | field _ => true

/-- The value of an operand; a value that was not given is `undefined`. -/
def value (values : List Value) : Operand → Value
  | fixed v => v
  | field index => values.getD index .undefined

end Operand

namespace Draft

/-- The start of an element: no tag is the empty tag. -/
def element : Draft := { tag := .str "" }

/-- The start of the root. -/
def root : Draft := { tag := .undefined }

def setTag (value : Value) (d : Draft) : Draft := { d with tag := value }

def setProp (name : String) (value : Value) (d : Draft) : Draft :=
  { d with props := some (Entries.put name value (d.props.getD [])) }

/-- Extend the string form of a prop; a prop that is not there counts as `undefined`. -/
def appendProp (name : String) (value : Value) (d : Draft) : Draft :=
  let props := d.props.getD []
  let old := (Entries.get? name props).getD .undefined
  { d with props := some (Entries.put name (.str (old.text ++ value.text)) props) }

/-- Put the entries of a map into the props. Any other value leaves them as they are, but present. -/
def spreadProps (value : Value) (d : Draft) : Draft :=
  let props := d.props.getD []
  match value with
  | .object entries => { d with props := some (Entries.merge props entries) }
  | _ => { d with props := some props }

def addChild (value : Value) (d : Draft) : Draft := { d with children := d.children ++ [value] }

/-- Depend on a field for the tag or the props, if `dynamic`. -/
def markOwn (dynamic : Bool) (d : Draft) : Draft :=
  { d with flags := { d.flags with own := d.flags.own || dynamic } }

/-- Depend on a field for the children, if `dynamic`. -/
def markChildren (dynamic : Bool) (d : Draft) : Draft :=
  { d with flags := { d.flags with children := d.flags.children || dynamic } }

end Draft

namespace Pass

variable {σ : Type}

/-- Report a spread of something that is neither a map nor absent. -/
def noteSpread (value : Value) (p : Pass σ) : Pass σ :=
  match value with
  | .object _ | .undefined | .null => p
  | other => { p with notices := p.notices ++ [.ignoredSpread other.typeName] }

/-- Keep the value of a static element. -/
def keep (block : Nat) (value : Value) (p : Pass σ) : Pass σ :=
  { p with folds := (block, value) :: p.folds, notices := p.notices ++ [.folded block] }

end Pass

namespace Setting

variable {σ : Type}

mutual

/-- Carry out one instruction. -/
def run (s : Setting σ) : Op → Draft → Pass σ → Draft × Pass σ
  | .tag operand, d, p => ((d.setTag (operand.value s.values)).markOwn operand.isField, p)
  | .spread index, d, p =>
    let value := (Operand.field index).value s.values
    ((d.spreadProps value).markOwn true, p.noteSpread value)
  | .set name operand, d, p =>
    ((d.setProp name (operand.value s.values)).markOwn operand.isField, p)
  | .append name operand, d, p =>
    ((d.appendProp name (operand.value s.values)).markOwn operand.isField, p)
  | .child operand, d, p =>
    ((d.addChild (operand.value s.values)).markChildren operand.isField, p)
  | .element block body, d, p =>
    match p.folds.lookup block with
    | some value => (d.addChild value, p)
    | none =>
      let (child, p) := runAll s body .element p
      let (value, flags, host) :=
        s.factory ⟨s.template, block, child.flags⟩ child.tag child.props child.children p.host
      let p := { p with host }
      if flags.isStatic then
        (d.addChild value, if s.fold then p.keep block value else p)
      else
        ((d.addChild value).markChildren true, p)

/-- Carry out instructions in order. -/
def runAll (s : Setting σ) : List Op → Draft → Pass σ → Draft × Pass σ
  | [], d, p => (d, p)
  | op :: rest, d, p =>
    let (d, p) := run s op d p
    runAll s rest d p

end

/-- The value that a list of roots makes: nothing, the only root, or a list. -/
def ofRoots : List Value → Value
  | [] => .undefined
  | [root] => root
  | roots => .list roots

/-- Evaluate a template that has kept `folds` so far. -/
def evaluate (s : Setting σ) (t : Template) (folds : Folds) (host : σ) : Value × Pass σ :=
  let (d, p) := runAll s t.root .root { folds, host }
  (ofRoots d.children, p)

end Setting

end TaggedMarkup
