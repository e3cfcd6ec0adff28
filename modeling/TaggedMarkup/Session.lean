import TaggedMarkup.Host.Recipe
import TaggedMarkup.Render.Stream

/-!
# Sessions

Several bindings and caches under **names** of their own, in one world. A name holds one handle on its binding:
giving the name away, or binding it anew, releases that handle.

Compiled templates are numbered in the order in which they first show up in a session.
-/

namespace TaggedMarkup

/-- The names of a session. -/
structure Session where
  caches : List (String × Nat) := []
  bindings : List (String × Nat) := []
  /-- the serial numbers of the templates that have shown up, in order -/
  shown : List Nat := []

namespace Session

/-- The number of a cache. The name `global` always is the shared cache's. -/
def cache (name : String) (s : Session) : Nat :=
  if name = "global" then 0 else (Entries.get? name s.caches).getD 0

/-- The number under which a compiled template is shown. -/
def number (serial : Nat) (s : Session) : Nat × Session :=
  match s.shown.idxOf? serial with
  | some index => (index, s)
  | none => (s.shown.length, { s with shown := s.shown ++ [serial] })

end Session

namespace World

/-- Change the workshop and write down what it reports. -/
def atWorkshop {α : Type} (f : Workshop Bench → α × List Report × Workshop Bench) (w : World) :
    α × World :=
  let (a, reports, workshop) := f w.workshop
  (a, { w with workshop }.noteAll reports)

/-- Release a handle on a binding. -/
def release (binding : Nat) (w : World) : World :=
  (w.atWorkshop fun workshop => ((), workshop.release binding)).2

/-- The compiled form of a template for a binding. -/
def compiledFor (binding : Nat) (statics : Statics) (w : World) : Nat × World :=
  w.atWorkshop (·.compiledFor binding statics)

/-- Look a template up in a cache, where the same lookup with other parts comes between the miss and
the compilation. -/
def race (cache binding : Nat) (statics : Statics) (inner : List String) (w : World) :
    Nat × World :=
  let key : TemplateKey := ⟨binding, statics.id⟩
  w.atWorkshop fun workshop => workshop.obtain cache key fun workshop =>
    let (_, reports, workshop) := workshop.obtain cache key (·.compile inner)
    let (serial, more, workshop) := workshop.compile statics.parts
    (serial, reports ++ more, workshop)

/-- Drop a binding's entries from a cache, and count them. -/
def purge (cache binding : Nat) (w : World) : Nat × World := w.atWorkshop (·.purge cache binding)

/-- Drop every entry of a cache. -/
def clearCache (cache : Nat) (w : World) : World :=
  { w with workshop := w.workshop.clear cache }

/-- The recorded calls since there were `mark` of them, in order. -/
def callsSince (mark : Nat) (w : World) : List FactoryCall :=
  (w.bench.calls.take (w.bench.calls.length - mark)).reverse

end World

namespace Session

/-- Name a new cache. -/
def addCache (name : String) (cache : TemplateCache) (s : Session) (w : World) :
    Session × World :=
  let (number, workshop) := w.workshop.addCache cache
  ({ s with caches := Entries.put name number s.caches }, { w with workshop })

/-- Let a name hold the latest handle on a binding; the handle it held is released. -/
def hold (name : String) (binding : Nat) (s : Session) (w : World) : Session × World :=
  let w := match Entries.get? name s.bindings with
    | some old => w.release old
    | none => w
  ({ s with bindings := Entries.put name binding s.bindings }, w)

/-- Name a new binding. -/
def bind (name : String) (binding : Binding Bench) (s : Session) (w : World) : Session × World :=
  let (number, workshop) := w.workshop.bind binding
  s.hold name number { w with workshop }

/-- Take another handle on a named binding, under another name. -/
def clone (binding : Nat) (name : String) (s : Session) (w : World) : Session × World :=
  s.hold name binding { w with workshop := w.workshop.hold binding }

/-- Give a name away, and tell whether it held anything. -/
def drop (name : String) (s : Session) (w : World) : Bool × Session × World :=
  match Entries.get? name s.bindings with
  | some binding =>
    (true, { s with bindings := s.bindings.filter fun entry => entry.1 ≠ name },
      w.release binding)
  | none => (false, s, w)

end Session

end TaggedMarkup
