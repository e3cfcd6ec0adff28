import TaggedMarkup.Render.Awaiting
import TaggedMarkup.Render.Work
import TaggedMarkup.Text.Escape
import TaggedMarkup.Text.Lowercase
import TaggedMarkup.Text.Name
import TaggedMarkup.Value.Json

/-!
# The rules of rendering

What each piece of work comes to: further pieces that take its place on the stack, or a wait. The
rules are the same whether members are rendered ahead or not, but for `members` and sequences.

* **Roots** must be truthy and of a kind that makes sense on its own; a pending root is awaited
  first, and each member of a root list is a root.
* **Items** may be anything that has markup. A component is called when it is reached.
* **Tags** are written in lower case; void tags are recognised as written.
-/

namespace TaggedMarkup

/-- What a piece of work comes to. -/
inductive Progress where
  /-- these pieces are to be done in its place -/
  | next (works : List Work)
  /-- the piece, as it now stands, has to wait -/
  | wait (work : Work)

namespace Render

/-- The error for a root that is falsy. -/
def falsyRoot (value : Value) : Error :=
  .invalidRoot ("Expected a non-falsy argument, got: " ++ value.text)

/-- The error for a root of an unusable kind. -/
def unusableRoot (value : Value) : Error :=
  .invalidRoot ("Expected a string or an object, got: " ++ value.typeName)

/-- The rules for roots that need no waiting. -/
def root (value : Value) : List Work :=
  match value with
  | .undefined => [.fail (.invalidRoot "Expected an argument")]
  | .list members => members.map .root
  | value =>
    if value.isFalsy then [.fail (falsyRoot value)]
    else match value with
      | .str _ | .object _ | .element _ | .sequence _ | .pending _ => [.item value]
      | _ => [.fail (unusableRoot value)]

/-- The text of an attribute, for the kinds of values that have one. -/
def attributeText? (name : String) : Value → Option String
  | .bool true => some (" " ++ name)
  | .str text => some (" " ++ name ++ "=\"" ++ Escape.text text ++ "\"")
  | .number d => some (" " ++ name ++ "=\"" ++ d.text ++ "\"")
  | _ => none

/-- The value makes the attribute go away, whatever its name. -/
def isSkipped : Value → Bool
  | .undefined | .null | .bool false => true
  | _ => false

/-- The rule for one prop of a tag. -/
def prop (name : String) (value : Value) (w : World) : List Work × World :=
  if isSkipped value then ([], w)
  else if !Name.isAttribute name then ([.fail (.invalidAttributeName name)], w)
  else match attributeText? name value with
    | some text => ([.emit text], w)
    | none => ([], w.note (.droppedProp name value.typeName))

/-- The rule for a tag. -/
def tag (name : String) (e : Element) : List Work :=
  let lowered := Case.lowered name
  let attributes := e.props.map fun p => Work.prop p.1 p.2
  if Name.isVoid name then
    .emit ("<" ++ lowered) :: attributes ++ [.emit " />"]
  else if Name.isTag lowered then
    .emit ("<" ++ lowered) :: attributes ++
      [.emit ">", .children e, .emit ("</" ++ lowered ++ ">")]
  else
    [.fail (.invalidTagName lowered)]

/-- The rule for trusted markup. -/
def markup : Value → Work
  | .str text => .emit text
  | other => .fail (.invalidRawResult other.typeName)

/-- The rule for the outcome of a component. -/
def result (raw : Bool) (outcome : Outcome) : List Work :=
  match outcome with
  | .error error => [.fail error]
  | .ok value =>
    if raw then
      match value with
      | .pending cell => [.await cell none .markup]
      | value => [markup value]
    else
      [.item value]

/-- The rule for an element. -/
def element (e : Element) (w : World) : List Work × World :=
  match e.type with
  | .missing => ([.fail (.malformed (Value.element e).toJson.text)], w)
  | .fragment => ([.children e], w)
  | .tag name => (tag name e, w)
  | .component component =>
    let (outcome, w) := w.callComponent component e.props e.children
    (result e.raw outcome, w)
  | .invalid typeName => ([.fail (.invalidElementType typeName)], w)

/-- What has not been drawn becomes work: member by member, or through a window, which keeps the
values `kept`. -/
def feed (ahead task : Nat) (feed : Feed) (kept : List Value) (w : World) : List Work × World :=
  if ahead ≤ 1 then
    ([.draw feed], w)
  else
    let (window, w) := w.newWindow task
    ([.ahead { window, feed, kept, members := [] }], w)

/-- The rule for the members of a list. -/
def members (ahead task : Nat) (values kept : List Value) (w : World) : List Work × World :=
  if ahead ≤ 1 then (values.map .item, w) else feed ahead task (.ofList values) kept w

/-- Take a sequence. Whoever comes first gets all of it. -/
def take (sequence : Nat) (w : World) : Feed × World :=
  match w.sequences[sequence]? with
  | none => (.ofList [], w)
  | some cell =>
    if cell.taken then (.ofList [], w)
    else
      ({ origin := some (sequence, cell.label), members := cell.members },
        { w with sequences := w.sequences.modify sequence fun cell => { cell with taken := true } })

/-- The rules for items. -/
def item (ahead task : Nat) (value : Value) (w : World) : List Work × World :=
  match value with
  | .undefined | .null => ([.emit ""], w)
  | .str text => ([.emit (Escape.text text)], w)
  | .number d => ([.emit d.text], w)
  | .list values => members ahead task values [] w
  | .sequence cell =>
    let (drawn, w) := take cell w
    feed ahead task drawn [] w
  | .pending cell => ([.await cell none .item], w)
  | .element e => element e w
  | .object entries =>
    if Entries.contains "type" entries then element (Element.ofEntries 0 entries) w
    else ([.fail (.malformed value.toJson.text)], w)
  | .bool _ | .component _ => ([.fail (.invalidItemType value.typeName)], w)

/-- What is done with the outcome of a pending value. -/
def resume (resumption : Resumption) (outcome : Outcome) : List Work :=
  match outcome with
  | .error error => [.fail error]
  | .ok value =>
    match resumption with
    | .root => [.settled value]
    | .item => [.item value]
    | .markup => [markup value]

end Render

/-- The next member of a feed, if it can be drawn. -/
inductive Draw where
  | member (value : Value)
  | notYet
  | exhausted

namespace Feed

/-- Note that the next member is drawn. -/
def noteDrawn (f : Feed) (w : World) : World :=
  match f.origin with
  | some (sequence, label) => w.note (.drawn sequence label f.index)
  | none => w

/-- Draw the next member, or set a timer for it on behalf of a task. -/
def draw (task : Nat) (f : Feed) (w : World) : Draw × Feed × World :=
  match f.members with
  | [] => (.exhausted, f, w)
  | (delay, value) :: rest =>
    let drawn : Draw × Feed × World :=
      (.member value, { f with index := f.index + 1, members := rest, deadline := none },
        f.noteDrawn w)
    match f.deadline with
    | some deadline => if deadline ≤ w.clock then drawn else (.notYet, f, w)
    | none =>
      if delay = 0 then drawn
      else (.notYet, { f with deadline := some (w.clock + delay) }, w.setTimer delay (.task task))

end Feed

namespace Work

/-- Do one piece of work, on behalf of a task. Fragments, errors and lists in work stay as they are:
it is for the task to hand them on. -/
def step (ahead task : Nat) (work : Work) (w : World) : Progress × World :=
  match work with
  | .note event => (.next [], w.note event)
  | .root (.pending cell) => (.next [.await cell none .root], w)
  | .root value => (.next [.settled value], w)
  | .settled value => (.next (Render.root value), w)
  | .item value =>
    let (works, w) := Render.item ahead task value w
    (.next works, w)
  | .await cell seat resumption =>
    match w.await (.task task) cell seat with
    | (.ready outcome, w) => (.next (Render.resume resumption outcome), w)
    | (.notYet seat, w) => (.wait (.await cell (some seat) resumption), w)
  | .prop name value =>
    let (works, w) := Render.prop name value w
    (.next works, w)
  | .children e =>
    let (works, w) := Render.members ahead task e.children [.element e] w
    (.next works, w)
  | .draw feed =>
    match feed.draw task w with
    | (.member value, feed, w) => (.next [.item value, .draw feed], w)
    | (.notYet, feed, w) => (.wait (.draw feed), w)
    | (.exhausted, _, w) => (.next [], w)
  | .emit _ | .fail _ | .ahead _ => (.wait work, w)

end Work

end TaggedMarkup
