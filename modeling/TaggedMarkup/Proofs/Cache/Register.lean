import TaggedMarkup.Cache

/-!
# Registers

What a cache does, told without stamps. A **register** keeps its items in the order of their last use,
and their keys in the order of their last insertion; whoever makes room is found by going through one
of these orders from the front. What is inserted or hit goes to the back.

Caches and registers are used by the same **requests**, each at some time. After a request one can see
its reply, the number of entries and the counts (`Readout`).
-/

namespace TaggedMarkup

/-- An item of a register. -/
structure Item (κ ν : Type) where
  key : κ
  value : ν
  /-- the last moment at which the item is alive -/
  deadline : Option Nat
  /-- hits since the last insertion -/
  hits : Nat

/-- A register. -/
structure Register (κ ν : Type) where
  /-- the items, the one whose last insertion or hit is oldest first -/
  byUse : List (Item κ ν) := []
  /-- their keys, the one whose last insertion is oldest first -/
  byAge : List κ := []
  /-- how many items fit; without one there is no limit -/
  capacity : Option Nat := none
  /-- how long an item lives, unless its insertion says otherwise -/
  lifetime : Option Nat := none
  eviction : Eviction := .leastRecent
  hits : Nat := 0
  misses : Nat := 0

namespace Item

variable {κ ν : Type}

def isExpired (now : Nat) (i : Item κ ν) : Bool :=
  match i.deadline with
  | some deadline => deadline < now
  | none => false

end Item

namespace Register

variable {κ ν : Type} [DecidableEq κ]

/-- The item at a key, expired or not. -/
def find? (key : κ) (r : Register κ ν) : Option (Item κ ν) := r.byUse.find? fun i => i.key = key

/-- Keep the items that pass, in both orders. -/
def keepOnly (keep : Item κ ν → Bool) (r : Register κ ν) : Register κ ν :=
  let byUse := r.byUse.filter keep
  { r with byUse, byAge := r.byAge.filter fun key => key ∈ byUse.map (·.key) }

/-- Drop the item at a key. -/
def erase (key : κ) (r : Register κ ν) : Register κ ν := r.keepOnly fun i => i.key ≠ key

/-- Drop the expired items. -/
def sweep (now : Nat) (r : Register κ ν) : Register κ ν := r.keepOnly fun i => !i.isExpired now

/-- The key that makes room: the least recently used one, the least recently used one of those with the
fewest hits, or the one that has been there longest. -/
def next? (r : Register κ ν) : Option κ :=
  match r.eviction with
  | .leastRecent => r.byUse.head?.map (·.key)
  | .leastFrequent =>
    (r.byUse.find? fun i => r.byUse.all fun j => i.hits ≤ j.hits).map (·.key)
  | .firstIn => r.byAge.head?

/-- Drop the item that makes room. -/
def evict (r : Register κ ν) : Register κ ν :=
  match r.next? with
  | some key => r.erase key
  | none => r

/-- No further item fits. -/
def isFull (r : Register κ ν) : Bool :=
  match r.capacity with
  | some capacity => capacity ≤ r.byUse.length
  | none => false

/-- Put an item at the back of both orders. -/
def enter (i : Item κ ν) (r : Register κ ν) : Register κ ν :=
  { r with byUse := r.byUse ++ [i], byAge := r.byAge ++ [i.key] }

/-- Store a value, for the given time, in place of the one at the key, which is returned. -/
def insertFor (now : Nat) (lifetime : Option Nat) (key : κ) (value : ν) (r : Register κ ν) :
    Option ν × Register κ ν :=
  let r := r.sweep now
  let old := (r.find? key).map (·.value)
  if r.capacity = some 0 then
    (none, r)
  else
    let r := if r.isFull && old.isNone then r.evict else r
    (old, (r.erase key).enter { key, value, deadline := lifetime.map (now + ·), hits := 0 })

/-- Look a key up, and count the lookup. A hit moves the item to the back of the order of use. -/
def get (now : Nat) (key : κ) (r : Register κ ν) : Option ν × Register κ ν :=
  match r.find? key with
  | some i =>
    if i.isExpired now then
      (none, { r.erase key with misses := r.misses + 1 })
    else
      let others := r.byUse.filter fun j => j.key ≠ key
      (some i.value,
        { r with byUse := others ++ [{ i with hits := i.hits + 1 }], hits := r.hits + 1 })
  | none => (none, { r with misses := r.misses + 1 })

/-- The value at a key if it is alive. -/
def peek (now : Nat) (key : κ) (r : Register κ ν) : Option ν :=
  match r.find? key with
  | some i => if i.isExpired now then none else some i.value
  | none => none

/-- Take an item out, expired or not. -/
def remove (key : κ) (r : Register κ ν) : Option ν × Register κ ν :=
  ((r.find? key).map (·.value), r.erase key)

/-- Keep only the items with a key that passes, and count the others. -/
def retain (keep : κ → Bool) (r : Register κ ν) : Nat × Register κ ν :=
  let left := r.keepOnly fun i => keep i.key
  (r.byUse.length - left.byUse.length, left)

/-- Drop every item and start counting afresh. -/
def clear (r : Register κ ν) : Register κ ν :=
  { r with byUse := [], byAge := [], hits := 0, misses := 0 }

end Register

/-! ## Requests -/

namespace Cache

/-- What can be asked of a cache. -/
inductive Request (κ ν : Type) where
  | insert (key : κ) (value : ν)
  | insertFor (lifetime : Option Nat) (key : κ) (value : ν)
  | get (key : κ)
  | peek (key : κ)
  | contains (key : κ)
  | remove (key : κ)
  | retain (keep : κ → Bool)
  | clear

/-- What a request is answered. -/
inductive Reply (ν : Type) where
  | value (value : Option ν)
  | present (there : Bool)
  | count (removed : Nat)
  | done
  deriving DecidableEq, Repr

/-- What can be seen after a request. -/
structure Readout (ν : Type) where
  reply : Reply ν
  size : Nat
  hits : Nat
  misses : Nat
  deriving DecidableEq, Repr

variable {κ ν : Type} [DecidableEq κ]

/-- Do what is asked. -/
def perform (now : Nat) (request : Request κ ν) (c : Cache κ ν) : Reply ν × Cache κ ν :=
  match request with
  | .insert key value => let (old, c) := c.insert now key value; (.value old, c)
  | .insertFor lifetime key value =>
    let (old, c) := c.insertFor now lifetime key value
    (.value old, c)
  | .get key => let (found, c) := c.get now key; (.value found, c)
  | .peek key => (.value (c.peek now key), c)
  | .contains key => (.present (c.contains now key), c)
  | .remove key => let (old, c) := c.remove key; (.value old, c)
  | .retain keep => let (removed, c) := c.retain keep; (.count removed, c)
  | .clear => (.done, c.clear)

/-- Do what is asked, one request after the other. The order in which the entries are gone through may
be another one before each request: `shuffle` says which, by the number of requests left. -/
def performAll (shuffle : Nat → List (CacheEntry κ ν) → List (CacheEntry κ ν)) :
    List (Nat × Request κ ν) → Cache κ ν → List (Readout ν) × Cache κ ν
  | [], c => ([], c)
  | (now, request) :: rest, c =>
    let shuffled := { c with entries := shuffle rest.length c.entries }
    let (reply, c) := shuffled.perform now request
    let (readouts, last) := performAll shuffle rest c
    (⟨reply, c.size, c.hits, c.misses⟩ :: readouts, last)

end Cache

namespace Register

variable {κ ν : Type} [DecidableEq κ]

/-- Do what is asked. -/
def perform (now : Nat) (request : Cache.Request κ ν) (r : Register κ ν) :
    Cache.Reply ν × Register κ ν :=
  match request with
  | .insert key value => let (old, r) := r.insertFor now r.lifetime key value; (.value old, r)
  | .insertFor lifetime key value =>
    let (old, r) := r.insertFor now lifetime key value
    (.value old, r)
  | .get key => let (found, r) := r.get now key; (.value found, r)
  | .peek key => (.value (r.peek now key), r)
  | .contains key => (.present (r.peek now key).isSome, r)
  | .remove key => let (old, r) := r.remove key; (.value old, r)
  | .retain keep => let (removed, r) := r.retain keep; (.count removed, r)
  | .clear => (.done, r.clear)

/-- Do what is asked, one request after the other. -/
def performAll : List (Nat × Cache.Request κ ν) → Register κ ν →
    List (Cache.Readout ν) × Register κ ν
  | [], r => ([], r)
  | (now, request) :: rest, r =>
    let (reply, r) := r.perform now request
    let (readouts, last) := performAll rest r
    (⟨reply, r.byUse.length, r.hits, r.misses⟩ :: readouts, last)

end Register

end TaggedMarkup
