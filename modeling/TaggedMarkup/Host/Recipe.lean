import TaggedMarkup.Host.Checked
import TaggedMarkup.Host.World

/-!
# Recipes

A small language in which values, and the bodies of components and pending values, can be written
down. A recipe becomes an **action** in a scope: it may use the names of the world, and in the body
of a component that component's props and children. Parts of a recipe are evaluated from left to right, and the
first error ends the evaluation.
-/

namespace TaggedMarkup

/-- How a value is made. -/
inductive Recipe where
  /-- a value that is there already -/
  | value (value : Value)
  | list (members : List Recipe)
  | object (entries : List (String × Recipe))
  /-- the value of a name -/
  | named (name : String)
  /-- a prop of the component around -/
  | prop (name : String)
  /-- all props of the component around, as a map -/
  | props
  /-- the children of the component around, as a list -/
  | children
  /-- a component's own failure -/
  | failure (message : String)
  | element (type : Recipe) (props : List (String × Recipe)) (children : List Recipe) (raw : Bool)
  /-- an element read off a map -/
  | ofMap (map : Recipe)
  /-- a checked template -/
  | checked (statics : Statics) (values : List Recipe)
  /-- an unchecked template -/
  | template (statics : Statics) (values : List Recipe)
  /-- trusted markup -/
  | markup (text : String)
  /-- trusted markup put together from parts and the string forms of values -/
  | markupParts (parts : List String) (values : List Recipe)
  /-- a pending value whose outcome is made now -/
  | ready (value : Recipe)
  /-- a pending value whose outcome is made after a delay -/
  | pending (label : Option String) (delay : Nat) (body : Recipe)
  /-- a sequence whose members are all ready -/
  | iterator (label : Option String) (members : List Recipe)
  /-- a sequence each of whose members takes a time to be ready -/
  | stream (label : Option String) (delay : Nat) (members : List Recipe)
  | component (name : String) (label : Option String) (body : Recipe)
  /-- a component that returns a pending value -/
  | asynchronous (name : String) (label : Option String) (delay : Nat) (body : Recipe)

/-- What a recipe may refer to besides names: the props and children of the component around. -/
structure Scope where
  props : Props := []
  children : List Value := []

/-- The values of a scope. -/
def Scope.values (scope : Scope) : List Value := scope.props.map (·.2) ++ scope.children

namespace Action

/-- Build an element of trusted markup. -/
def markup (text : String) (next : Value → Action) : Action :=
  .component "raw_html" none [] (fun _ _ => .give (.str text)) fun component =>
    .element component.toElementType [] [] true next

end Action

namespace Recipe

/-- Parts with the string forms of values in the gaps; a gap without a value stays empty. -/
def joined : List String → List Value → String
  | [], _ => ""
  | [part], _ => part
  | part :: rest, [] => part ++ joined rest []
  | part :: rest, v :: vs => part ++ v.text ++ joined rest vs

mutual

/-- Make the value of a recipe, and go on with it. -/
def action : Recipe → Scope → (Value → Action) → Action
  | .value v, _, next => next v
  | .list members, scope, next => actions members scope fun values => next (.list values)
  | .object entries, scope, next =>
    entryActions entries scope fun made => next (.object (Entries.ofList made))
  | .named name, _, next => .named name next
  | .prop name, scope, next => next ((Entries.get? name scope.props).getD .undefined)
  | .props, scope, next => next (.object scope.props)
  | .children, scope, next => next (.list scope.children)
  | .failure message, _, _ => .fail (.componentError message)
  | .element type entries members raw, scope, next =>
    action type scope fun tag =>
      entryActions entries scope fun made =>
        actions members scope fun values =>
          .element tag.toElementType (Entries.ofList made) values raw next
  | .ofMap map, scope, next =>
    action map scope fun made =>
      let e := Element.ofEntries 0 (match made with
        | .object entries => entries
        | _ => [])
      .element e.type e.props e.children e.raw next
  | .checked statics values, scope, next =>
    actions values scope fun made => Checked.template statics made next
  | .template statics values, scope, next =>
    actions values scope fun made => .template statics made next
  | .markup text, _, next => .markup text next
  | .markupParts parts values, scope, next =>
    actions values scope fun made => .markup (joined parts made) next
  | .ready body, scope, next =>
    action body scope fun made => .pending none 0 [made] (.give made) next
  | .pending label delay body, scope, next =>
    .pending label delay scope.values (action body scope .give) next
  | .iterator label members, scope, next =>
    actions members scope fun made => .sequence label (made.map fun v => (0, v)) next
  | .stream label delay members, scope, next =>
    actions members scope fun made => .sequence label (made.map fun v => (delay, v)) next
  | .component name label body, scope, next =>
    .component name label scope.values
      (fun given inner => action body { props := given, children := inner } .give) next
  | .asynchronous name label delay body, scope, next =>
    .component name none scope.values
      (fun given inner =>
        let own : Scope := { props := given, children := inner }
        .pending label delay own.values (action body own .give) .give)
      next

/-- Make the values of recipes in order, and go on with them. -/
def actions : List Recipe → Scope → (List Value → Action) → Action
  | [], _, next => next []
  | recipe :: rest, scope, next =>
    action recipe scope fun value => actions rest scope fun values => next (value :: values)

/-- Make the values of named recipes in order, and go on with them. -/
def entryActions :
    List (String × Recipe) → Scope → (List (String × Value) → Action) → Action
  | [], _, next => next []
  | (name, recipe) :: rest, scope, next =>
    action recipe scope fun value =>
      entryActions rest scope fun entries => next ((name, value) :: entries)

end

end Recipe

namespace World

/-- Make the value of a recipe outside every component. -/
def make (recipe : Recipe) (w : World) : Outcome × World := (recipe.action {} .give).run w

/-- Make the values of recipes, up to the first error. -/
def makeAll : List Recipe → World → Except Error (List Value) × World
  | [], w => (.ok [], w)
  | recipe :: rest, w =>
    match w.make recipe with
    | (.error error, w) => (.error error, w)
    | (.ok value, w) =>
      match w.makeAll rest with
      | (.error error, w) => (.error error, w)
      | (.ok values, w) => (.ok (value :: values), w)

/-- Make values and name them, one after the other, up to the first error. -/
def define : List (String × Recipe) → World → Except Error Unit × World
  | [], w => (.ok (), w)
  | (name, recipe) :: rest, w =>
    match w.make recipe with
    | (.error error, w) => (.error error, w)
    | (.ok value, w) => (w.name name value).define rest

end World

end TaggedMarkup
