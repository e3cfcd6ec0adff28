import TaggedMarkup.Number.Rounding

/-!
# Caches

A cache with an optional capacity and optional expiry, which counts its hits and misses.

Every entry carries two **stamps** off the cache's own counter: when it was last inserted, and when
it was last inserted or hit. The counter moves on with every insertion and every lookup, so no two
entries share a stamp and the entry to evict is always determined.

An entry is **expired** once the clock has passed its deadline. Expired entries are swept by the
next insertion; until then they are there, but only `remove` hands them out.
-/

namespace TaggedMarkup

/-- Which entry makes room. -/
inductive Eviction where
  /-- the one whose last insertion or hit is oldest -/
  | leastRecent
  /-- the one with the fewest hits, and of those the least recent -/
  | leastFrequent
  /-- the one whose last insertion is oldest -/
  | firstIn
  deriving DecidableEq, Repr

/-- An entry of a cache. -/
structure CacheEntry (κ ν : Type) where
  key : κ
  value : ν
  /-- the last moment at which the entry is alive -/
  deadline : Option Nat
  /-- hits since the last insertion -/
  hits : Nat
  /-- the stamp of the last insertion -/
  inserted : Nat
  /-- the stamp of the last insertion or hit -/
  touched : Nat

/-- A cache. -/
structure Cache (κ ν : Type) where
  entries : List (CacheEntry κ ν) := []
  /-- how many entries fit; without one there is no limit -/
  capacity : Option Nat := none
  /-- how long an entry lives, unless its insertion says otherwise -/
  lifetime : Option Nat := none
  eviction : Eviction := .leastRecent
  /-- the last stamp given out -/
  tick : Nat := 0
  hits : Nat := 0
  misses : Nat := 0

/-- The counts of a cache. -/
structure CacheStats where
  hits : Nat
  misses : Nat
  entries : Nat
  capacity : Option Nat
  deriving DecidableEq, Repr

namespace CacheStats

/-- Hits per lookup, and zero before the first one. -/
def hitRate (s : CacheStats) : Double :=
  if s.hits + s.misses = 0 then .zero else .ofRatio false s.hits (s.hits + s.misses)

end CacheStats

namespace CacheEntry

variable {κ ν : Type}

def isExpired (now : Nat) (e : CacheEntry κ ν) : Bool :=
  match e.deadline with
  | some deadline => deadline < now
  | none => false

/-- The entry after a hit. -/
def touch (tick : Nat) (e : CacheEntry κ ν) : CacheEntry κ ν :=
  { e with hits := e.hits + 1, touched := tick }

/-- Whether `a` makes room before `b`. -/
def goesBefore (eviction : Eviction) (a b : CacheEntry κ ν) : Bool :=
  match eviction with
  | .leastRecent => a.touched < b.touched
  | .leastFrequent => a.hits < b.hits || (a.hits == b.hits && a.touched < b.touched)
  | .firstIn => a.inserted < b.inserted

/-- The entry that makes room, the earliest in the list if several would. -/
def victim? (eviction : Eviction) : List (CacheEntry κ ν) → Option (CacheEntry κ ν)
  | [] => none
  | e :: rest =>
    match victim? eviction rest with
    | none => some e
    | some f => some (if f.goesBefore eviction e then f else e)

end CacheEntry

namespace Cache

variable {κ ν : Type} [DecidableEq κ]

/-- The entry at a key, expired or not. -/
def find? (key : κ) (c : Cache κ ν) : Option (CacheEntry κ ν) :=
  c.entries.find? fun e => e.key = key

/-- The number of entries, expired ones included. -/
def size (c : Cache κ ν) : Nat := c.entries.length

/-- Drop the entry at a key. -/
def erase (key : κ) (c : Cache κ ν) : Cache κ ν :=
  { c with entries := c.entries.filter fun e => e.key ≠ key }

/-- Drop the expired entries. -/
def sweep (now : Nat) (c : Cache κ ν) : Cache κ ν :=
  { c with entries := c.entries.filter fun e => !e.isExpired now }

/-- Drop the entry that makes room. -/
def evict (c : Cache κ ν) : Cache κ ν :=
  match CacheEntry.victim? c.eviction c.entries with
  | some e => c.erase e.key
  | none => c

/-- Make room for a key: only a full cache without that key has to. -/
def makeRoom (key : κ) (c : Cache κ ν) : Cache κ ν :=
  match c.capacity with
  | some capacity => if capacity ≤ c.size ∧ c.find? key = none then c.evict else c
  | none => c

/-- Store a value, for the given time. It replaces the value at the key, and that value is returned. A
cache of capacity zero stores nothing. -/
def insertFor (now : Nat) (lifetime : Option Nat) (key : κ) (value : ν) (c : Cache κ ν) :
    Option ν × Cache κ ν :=
  let c := c.sweep now
  if c.capacity = some 0 then
    (none, c)
  else
    let c := c.makeRoom key
    let tick := c.tick + 1
    let entry := {
      key, value, hits := 0, inserted := tick, touched := tick
      deadline := lifetime.map (now + ·) }
    ((c.find? key).map (·.value),
      { c.erase key with entries := (c.erase key).entries ++ [entry], tick })

/-- Store a value for the cache's own lifetime. -/
def insert (now : Nat) (key : κ) (value : ν) (c : Cache κ ν) : Option ν × Cache κ ν :=
  c.insertFor now c.lifetime key value

/-- Look a key up, and count the lookup. An expired entry is a miss and is dropped. -/
def get (now : Nat) (key : κ) (c : Cache κ ν) : Option ν × Cache κ ν :=
  let tick := c.tick + 1
  match c.find? key with
  | some e =>
    if e.isExpired now then
      (none, { c.erase key with tick, misses := c.misses + 1 })
    else
      let touch (f : CacheEntry κ ν) := if f.key = key then f.touch tick else f
      (some e.value, { c with entries := c.entries.map touch, tick, hits := c.hits + 1 })
  | none => (none, { c with tick, misses := c.misses + 1 })

/-- The value at a key if it is alive; nothing is counted. -/
def peek (now : Nat) (key : κ) (c : Cache κ ν) : Option ν :=
  match c.find? key with
  | some e => if e.isExpired now then none else some e.value
  | none => none

/-- A live entry is there; nothing is counted. -/
def contains (now : Nat) (key : κ) (c : Cache κ ν) : Bool := (c.peek now key).isSome

/-- Take an entry out, expired or not. -/
def remove (key : κ) (c : Cache κ ν) : Option ν × Cache κ ν :=
  ((c.find? key).map (·.value), c.erase key)

/-- Keep only the entries with a key that passes, and count the others. -/
def retain (keep : κ → Bool) (c : Cache κ ν) : Nat × Cache κ ν :=
  let entries := c.entries.filter fun e => keep e.key
  (c.size - entries.length, { c with entries })

/-- Drop every entry and start counting afresh. -/
def clear (c : Cache κ ν) : Cache κ ν := { c with entries := [], hits := 0, misses := 0 }

/-- The counts. -/
def stats (c : Cache κ ν) : CacheStats := ⟨c.hits, c.misses, c.size, c.capacity⟩

end Cache

end TaggedMarkup
