import TaggedMarkup.Cache
import TaggedMarkup.Config
import TaggedMarkup.Template.Scanner
import TaggedMarkup.Template.Evaluate

/-!
# The workshop

Where templates are compiled, kept and used. A **binding** is a factory together with a cache and a
configuration; its number is never given out again. Compiled templates are cached for each binding
and identity, so what is folded in a template was built by one factory only. When the last handle
on a binding is released, its entries leave its cache.

All tables only grow; a number, once given out, stays valid. Cache 0 is the shared one that bindings
use unless told otherwise.
-/

namespace TaggedMarkup

/-- A compiled template with what has been folded in it. -/
structure Compiled where
  template : Template
  folds : Folds := []

namespace Compiled

/-- Nothing compiled and nothing folded. -/
def empty : Compiled := ⟨⟨[], 0⟩, []⟩

end Compiled

/-- Under which a compiled template is cached. -/
structure TemplateKey where
  /-- the number of the binding -/
  binding : Nat
  /-- the identity of the parts -/
  id : String
  deriving DecidableEq, Repr

/-- A cache of compiled templates, by serial number. -/
abbrev TemplateCache := Cache TemplateKey Nat

/-- A factory bound to a cache and a configuration. -/
structure Binding (σ : Type) where
  factory : Factory σ
  cache : Nat
  config : TemplateConfig
  /-- the number of handles on the binding -/
  handles : Nat := 1

/-- What the workshop reports. -/
inductive Report where
  /-- a template was compiled into this many blocks -/
  | compiled (blocks : Nat)
  | noticed (notice : Notice)
  /-- this many compiled templates left a cache with their binding -/
  | purged (count : Nat)
  deriving DecidableEq, Repr

/-- The templates, caches and bindings there are. -/
structure Workshop (σ : Type) where
  templates : List Compiled := []
  caches : List TemplateCache := [{}]
  bindings : List (Binding σ) := []
  /-- the clock by which cached templates expire -/
  age : Nat := 0

namespace Workshop

variable {σ : Type}

/-- The compiled template with a serial number. -/
def compiled (serial : Nat) (s : Workshop σ) : Compiled := s.templates.getD serial .empty

/-- The cache with a number. -/
def cache (cache : Nat) (s : Workshop σ) : TemplateCache := s.caches.getD cache {}

/-- The values that are folded in cached templates. -/
def folded (s : Workshop σ) : List Value :=
  s.caches.flatMap fun c =>
    c.entries.flatMap fun entry => (s.compiled entry.value).folds.map (·.2)

/-- Compile parts, under the next serial number. -/
def compile (parts : List String) (s : Workshop σ) : Nat × List Report × Workshop σ :=
  let template := Template.compile parts
  (s.templates.length, [.compiled template.blocks.length],
    { s with templates := s.templates ++ [⟨template, []⟩] })

/-- Look a template up in a cache, and on a miss make it. If it has got there meanwhile, the one that
got there first is used; the lookup was counted already. -/
def obtain (cache : Nat) (key : TemplateKey) (make : Workshop σ → Nat × List Report × Workshop σ)
    (s : Workshop σ) : Nat × List Report × Workshop σ :=
  let (found, c) := (s.cache cache).get s.age key
  let s := { s with caches := s.caches.set cache c }
  match found with
  | some serial => (serial, [], s)
  | none =>
    let (serial, reports, s) := make s
    let c := s.cache cache
    match c.peek s.age key with
    | some first => (first, reports, s)
    | none => (serial, reports, { s with caches := s.caches.set cache (c.insert s.age key serial).2 })

/-- The compiled form of a template for a binding. -/
def compiledFor (binding : Nat) (statics : Statics) (s : Workshop σ) :
    Nat × List Report × Workshop σ :=
  match s.bindings[binding]? with
  | some b =>
    match b.config.cacheMode with
    | .none => s.compile statics.parts
    | .normal => s.obtain b.cache ⟨binding, statics.id⟩ (·.compile statics.parts)
  | none => s.compile statics.parts

/-- Evaluate a compiled template and keep what it folds. -/
def evaluate (factory : Factory σ) (fold : Bool) (serial : Nat) (values : List Value) (host : σ)
    (s : Workshop σ) : Value × σ × List Report × Workshop σ :=
  let c := s.compiled serial
  let setting : Setting σ := { template := serial, factory, fold, values }
  let (value, pass) := setting.evaluate c.template c.folds host
  (value, pass.host, pass.notices.map .noticed,
    { s with templates := s.templates.set serial { c with folds := pass.folds } })

/-- Use a template with a binding. -/
def call (binding : Nat) (statics : Statics) (values : List Value) (host : σ) (s : Workshop σ) :
    Value × σ × List Report × Workshop σ :=
  match s.bindings[binding]? with
  | some b =>
    let (serial, reports, s) := s.compiledFor binding statics
    let (value, host, more, s) := s.evaluate b.factory b.config.fold serial values host
    (value, host, reports ++ more, s)
  | none => (.undefined, host, [], s)

/-- A new cache. -/
def addCache (c : TemplateCache) (s : Workshop σ) : Nat × Workshop σ :=
  (s.caches.length, { s with caches := s.caches ++ [c] })

/-- A new binding, with one handle on it. -/
def bind (b : Binding σ) (s : Workshop σ) : Nat × Workshop σ :=
  (s.bindings.length, { s with bindings := s.bindings ++ [b] })

/-- Take one more handle on a binding. -/
def hold (binding : Nat) (s : Workshop σ) : Workshop σ :=
  { s with bindings := s.bindings.modify binding fun b => { b with handles := b.handles + 1 } }

/-- Drop a binding's entries from a cache. Dropping none goes unreported. -/
def purge (cache binding : Nat) (s : Workshop σ) : Nat × List Report × Workshop σ :=
  let (removed, c) := (s.cache cache).retain fun key => key.binding ≠ binding
  (removed, if removed = 0 then [] else [.purged removed],
    { s with caches := s.caches.set cache c })

/-- Give one handle on a binding back. With the last one the binding's entries leave its cache. -/
def release (binding : Nat) (s : Workshop σ) : List Report × Workshop σ :=
  match s.bindings[binding]? with
  | some b =>
    let s := { s with bindings := s.bindings.set binding { b with handles := b.handles - 1 } }
    if b.handles = 1 then (s.purge b.cache binding).2 else ([], s)
  | none => ([], s)

/-- Drop every entry of a cache. -/
def clear (cache : Nat) (s : Workshop σ) : Workshop σ :=
  { s with caches := s.caches.set cache (s.cache cache).clear }

/-- Let time pass for the caches. -/
def wait (time : Nat) (s : Workshop σ) : Workshop σ := { s with age := s.age + time }

end Workshop

end TaggedMarkup
