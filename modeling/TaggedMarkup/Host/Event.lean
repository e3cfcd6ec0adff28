import TaggedMarkup.Template.Workshop

/-!
# Events

What can be observed of a run besides its result: the **host's** own steps (components called,
pending values started and finished, sequence members drawn), the **library's** reports, and the
way of members through the **windows** in which they are rendered ahead.

Every step of the host is an event; its text is shown only if the host gave it a label. The events
of windows are never shown.
-/

namespace TaggedMarkup

/-- Something that happened. -/
inductive Event where
  | called (component : Nat) (label : Option String)
  | started (pending : Nat) (label : Option String)
  | finished (pending : Nat) (label : Option String)
  /-- the member of a sequence with this number was drawn -/
  | drawn (sequence : Nat) (label : Option String) (index : Nat)
  | reported (report : Report)
  /-- a prop of a kind that has no attribute was left out -/
  | droppedProp (name typeName : String)
  /-- the member with this number came into a window -/
  | entered (window member : Nat)
  /-- the member had its first turn -/
  | began (window member : Nat)
  /-- every fragment of the member was handed on -/
  | left (window member : Nat)
  deriving DecidableEq, Repr

namespace Report

/-- The line that a report makes. -/
def text : Report → String
  | compiled blocks => "DEBUG compiled template blocks=" ++ blocks.repr
  | noticed (.ignoredSpread typeName) =>
    "DEBUG ignored spread of a non-map value value_type=" ++ typeName
  | noticed (.folded block) => "TRACE folded static subtree block=" ++ block.repr
  | purged count => "DEBUG purged compiled templates removed=" ++ count.repr

end Report

namespace Event

/-- The line that an event makes, if it is shown. -/
def text? : Event → Option String
  | called _ label => label.map ("call " ++ ·)
  | started _ label => label.map ("start " ++ ·)
  | finished _ label => label.map ("end " ++ ·)
  | drawn _ label index => label.map fun label => "pull " ++ label ++ " " ++ index.repr
  | reported report => some report.text
  | droppedProp name typeName =>
    some ("WARN Unexpected prop value type prop=" ++ name ++ " value_type=" ++ typeName)
  | entered _ _ | began _ _ | left _ _ => none

end Event

end TaggedMarkup
