import TaggedMarkup.Proofs.Render.Calm
import TaggedMarkup.Proofs.Render.Lineups

/-!
# The way of members through their windows

A member **enters** its window when it is drawn, **begins** with its first turn, and has **left** when the
last of its fragments is handed on. The log says which members passed, window by window.

A log is **orderly** if each passage was admissible when it happened: the members pass each point in their
order, none leaves before it began or begins before it entered, and a member enters only while fewer than
`ahead` of those before it have not left.

A list in work is **steady** if the log agrees with what it looks like: the members that entered are those
that were drawn, those that have not left are there, and those that have not begun stand at its end,
untouched, and wait in the queue.
-/

namespace TaggedMarkup

/-! ## Passages -/

/-- A point that members pass. -/
inductive Passage where
  | entered
  | began
  | left
  deriving DecidableEq

/-- The member that passes the point in the window with this event. -/
def Event.passing? (passage : Passage) (window : Nat) : Event → Option Nat
  | .entered at_ member => if passage = .entered ∧ at_ = window then some member else none
  | .began at_ member => if passage = .began ∧ at_ = window then some member else none
  | .left at_ member => if passage = .left ∧ at_ = window then some member else none
  | _ => none

/-- The members that passed the point in the window, in the order in which they did. -/
def passed (passage : Passage) (window : Nat) (log : List (Nat × Event)) : List Nat :=
  log.reverse.filterMap fun entry => entry.2.passing? passage window

/-- How many passed. -/
abbrev count (passage : Passage) (window : Nat) (log : List (Nat × Event)) : Nat :=
  (passed passage window log).length

/-- After this log, with room for so many members, the event may happen. -/
def Event.Admissible (ahead : Nat) (log : List (Nat × Event)) : Event → Prop
  | .entered window member => member = count .entered window log ∧
      member < count .left window log + ahead
  | .began window member => member = count .began window log ∧ member < count .entered window log
  | .left window member => member = count .left window log ∧ member < count .began window log
  | _ => True

/-- Each event was admissible when it happened. -/
def Orderly (ahead : Nat) : List (Nat × Event) → Prop
  | [] => True
  | (_, event) :: log => event.Admissible ahead log ∧ Orderly ahead log

section

variable {passage : Passage} {window ahead : Nat} {event : Event} {log new : List (Nat × Event)}

theorem passed_cons (passage : Passage) (window time : Nat) (event : Event)
    (log : List (Nat × Event)) :
    passed passage window ((time, event) :: log) =
      passed passage window log ++ (event.passing? passage window).toList := by
  rw [passed, List.reverse_cons, List.filterMap_append]
  cases h : event.passing? passage window with
  | none => simp [passed, h]
  | some member => simp [passed, h]

theorem count_cons (passage : Passage) (window time : Nat) (event : Event)
    (log : List (Nat × Event)) : count passage window ((time, event) :: log) =
      count passage window log + (event.passing? passage window).toList.length := by
  rw [count, passed_cons, List.length_append]

theorem Event.passing?_of_ne (h : event.window? ≠ some window) :
    event.passing? passage window = none := by
  cases event with
  | entered at_ | began at_ | left at_ =>
    have hat : at_ ≠ window := fun hat => h (congrArg some hat)
    simp [Event.passing?, hat]
  | _ => rfl

/-- Nobody passes here in an event about another window, or about none. -/
theorem passed_cons_of_ne (h : event.window? ≠ some window) (passage : Passage) (time : Nat)
    (log : List (Nat × Event)) :
    passed passage window ((time, event) :: log) = passed passage window log := by
  rw [passed_cons, Event.passing?_of_ne h]
  exact List.append_nil _

/-- Nobody passes in events that are not about windows. -/
theorem passed_append (h : ∀ entry ∈ new, entry.2.window? = none) :
    passed passage window (new ++ log) = passed passage window log := by
  induction new with
  | nil => rfl
  | cons entry rest ih =>
    rw [List.forall_mem_cons] at h
    rw [List.cons_append, passed_cons_of_ne (by simp [h.1]), ih h.2]

theorem Event.admissible_of_window? (h : event.window? = none) : event.Admissible ahead log := by
  cases event with
  | entered | began | left => cases h
  | _ => trivial

theorem Orderly.append (horderly : Orderly ahead log) (h : ∀ entry ∈ new, entry.2.window? = none) :
    Orderly ahead (new ++ log) := by
  induction new with
  | nil => exact horderly
  | cons entry rest ih =>
    rw [List.forall_mem_cons] at h
    exact ⟨Event.admissible_of_window? h.1, ih h.2⟩

/-- Members passed in order, no more than `ahead` of them inside. -/
structure WithinWindow (ahead window : Nat) (log : List (Nat × Event)) : Prop where
  entered : passed .entered window log = List.range (count .entered window log)
  began : passed .began window log = List.range (count .began window log)
  left : passed .left window log = List.range (count .left window log)
  began_le : count .began window log ≤ count .entered window log
  left_le : count .left window log ≤ count .began window log
  entered_le : count .entered window log ≤ count .left window log + ahead

/-- Where the same members passed, the same order holds. -/
theorem WithinWindow.congr {other : List (Nat × Event)} (h : WithinWindow ahead window log)
    (hsame : ∀ passage, passed passage window other = passed passage window log) :
    WithinWindow ahead window other := by
  obtain ⟨hentered, hbegan, hleft, hbegan_le, hleft_le, hentered_le⟩ := h
  constructor <;> simpa only [count, hsame]

/-- Numbers in order stay so with the next one. -/
theorem range_append_singleton {members : List Nat} (h : members = List.range members.length) :
    members ++ [members.length] = List.range (members.length + 1) := by
  rw [List.range_succ, ← h]

/-- One more event that was admissible. -/
theorem WithinWindow.cons (h : WithinWindow ahead window log) (time : Nat)
    (hevent : event.Admissible ahead log) : WithinWindow ahead window ((time, event) :: log) := by
  by_cases hwindow : event.window? = some window
  · obtain ⟨hentered, hbegan, hleft, hbegan_le, hleft_le, hentered_le⟩ := h
    -- one list of members has become longer, by the number that was next
    cases event with
    | entered at_ member =>
      cases hwindow
      obtain ⟨rfl, hlt⟩ := hevent
      have hpassed := range_append_singleton hentered
      constructor <;> simp [passed_cons, count_cons, Event.passing?] <;> first | assumption | omega
    | began at_ member =>
      cases hwindow
      obtain ⟨rfl, hlt⟩ := hevent
      have hpassed := range_append_singleton hbegan
      constructor <;> simp [passed_cons, count_cons, Event.passing?] <;> first | assumption | omega
    | left at_ member =>
      cases hwindow
      obtain ⟨rfl, hlt⟩ := hevent
      have hpassed := range_append_singleton hleft
      constructor <;> simp [passed_cons, count_cons, Event.passing?] <;> first | assumption | omega
    | _ => cases hwindow
  · exact h.congr fun passage => passed_cons_of_ne hwindow passage time log

/-- At every moment that an orderly log tells of, every window is in order. -/
theorem Orderly.withinWindow (h : Orderly ahead log) (window : Nat) {early : List (Nat × Event)}
    (hearly : early <:+ log) : WithinWindow ahead window early := by
  induction log generalizing early with
  | nil =>
    cases List.suffix_nil.mp hearly
    constructor <;> simp [count, passed]
  | cons entry rest ih =>
    rcases List.suffix_cons_iff.mp hearly with rfl | hrest
    · exact (ih h.2 (List.suffix_refl rest)).cons entry.1 h.1
    · exact ih h.2 hrest

end

end TaggedMarkup
