import TaggedMarkup.Json

/-!
# Configurations

What can be chosen about **templates** (whether compiled ones are kept, and whether static elements
are folded) and about **rendering** (how many members are rendered ahead, and how many fragments
make a chunk), with the JSON text of each.
-/

namespace TaggedMarkup

/-- Whether compiled templates are kept. -/
inductive CacheMode where
  /-- compile on every call -/
  | none
  /-- compile once for each identity -/
  | normal
  deriving DecidableEq, Repr

namespace CacheMode

def name : CacheMode → String
  | none => "None"
  | normal => "Normal"

end CacheMode

/-- How a binding compiles and evaluates. -/
structure TemplateConfig where
  cacheMode : CacheMode := .normal
  /-- keep the values of static elements -/
  fold : Bool := true
  deriving DecidableEq, Repr

namespace TemplateConfig

/-- Keep compiled templates and static elements. -/
def aggressive : TemplateConfig := ⟨.normal, true⟩

/-- Keep nothing. -/
def noCaching : TemplateConfig := ⟨.none, false⟩

def toJson (c : TemplateConfig) : Json :=
  .obj [("cache_mode", .str c.cacheMode.name), ("fold_static_subtrees", .bool c.fold)]

end TemplateConfig

/-- How a value is rendered. -/
structure RenderConfig where
  /-- how many members of a list may be in work at once; 0 counts as 1 -/
  concurrency : Nat := 1
  /-- how many fragments make a chunk -/
  buffer : Nat := 64
  deriving DecidableEq, Repr

namespace RenderConfig

/-- Choose how many members may be in work, at least one. -/
def withConcurrency (members : Nat) (c : RenderConfig) : RenderConfig :=
  { c with concurrency := max members 1 }

/-- Choose the size of a chunk, at least one. -/
def withBuffer (fragments : Nat) (c : RenderConfig) : RenderConfig :=
  { c with buffer := max fragments 1 }

def toJson (c : RenderConfig) : Json :=
  .obj [("max_concurrency", .int c.concurrency), ("buffer_size", .int c.buffer)]

end RenderConfig

end TaggedMarkup
