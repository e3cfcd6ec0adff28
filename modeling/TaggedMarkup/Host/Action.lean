import TaggedMarkup.Error
import TaggedMarkup.Template.Basic

/-!
# Actions

Host code as data: what the body of a component or of a pending value does. An action looks names
up, makes things in the world (elements, components, pending values, sequences), uses templates, and
ends with a value or an error. It cannot look inside what lives in a cell; in particular it cannot
wait for a pending value or draw from a sequence, which only rendering does.

Code that is kept for later tells which values it **keeps** for itself.

A name is looked up **when the action comes to it**, so the body of a component may use names that
were given a value, or another one, after the component was made.
-/

namespace TaggedMarkup

/-- Host code. Each step but the last hands its value to the action that follows. -/
inductive Action where
  /-- end with a value -/
  | give (value : Value)
  /-- end with an error -/
  | fail (error : Error)
  /-- look a name up; a name that was not given a value stands for `undefined` -/
  | named (name : String) (next : Value → Action)
  /-- build an element -/
  | element (type : ElementType) (props : Props) (children : List Value) (raw : Bool)
      (next : Value → Action)
  /-- make a component; its calls are shown under the label -/
  | component (name : String) (label : Option String) (keeps : List Value)
      (body : Props → List Value → Action) (next : Value → Action)
  /-- make a value that comes after a delay, when the body ends -/
  | pending (label : Option String) (delay : Nat) (keeps : List Value) (body : Action)
      (next : Value → Action)
  /-- make a sequence of values, each ready after a delay -/
  | sequence (label : Option String) (members : List (Nat × Value)) (next : Value → Action)
  /-- use a template with the default binding, unchecked -/
  | template (statics : Statics) (values : List Value) (next : Value → Action)
  /-- make the checked form of a pending value -/
  | checking (source : Nat) (next : Value → Action)

end TaggedMarkup
