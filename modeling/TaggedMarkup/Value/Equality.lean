import TaggedMarkup.Value.Basic

/-!
# Equality of values

Values are compared by what they hold: lists in order, maps **regardless of order**, numbers as
numbers. Components, pending values and sequences are equal only to themselves. Elements are equal
if they are the same element or look alike, so only a NaN outside every element keeps a value from
being equal to itself.
-/

namespace TaggedMarkup.Value

mutual

/-- Equality of values. -/
def equals : Value → Value → Bool
  | undefined, undefined => true
  | null, null => true
  | bool a, bool b => a == b
  | number a, number b => a.equals b
  | str a, str b => a == b
  | list a, list b => listEquals a b
  | sequence a, sequence b => a == b
  | pending a, pending b => a == b
  | element ⟨stamp, type, props, children, raw⟩, element f =>
    stamp == f.stamp ||
      (type == f.type && props.length == f.props.length && entriesWithin props f.props &&
        listEquals children f.children && raw == f.raw)
  | component a, component b => a.cell == b.cell
  | object a, object b => a.length == b.length && entriesWithin a b
  | _, _ => false

/-- Equality of lists, member by member. -/
def listEquals : List Value → List Value → Bool
  | [], [] => true
  | a :: as, b :: bs => equals a b && listEquals as bs
  | _, _ => false

/-- Every entry has an equal one at its key. -/
def entriesWithin : List (String × Value) → List (String × Value) → Bool
  | [], _ => true
  | (key, a) :: rest, entries =>
    (match Entries.get? key entries with
      | some b => equals a b
      | none => false) && entriesWithin rest entries

end

end TaggedMarkup.Value
