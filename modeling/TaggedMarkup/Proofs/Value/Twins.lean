import Mathlib.Data.List.Forall2
import TaggedMarkup.Render.Rules

/-!
# Twins

Two runs that make the same values may give the **pending values** among them other numbers, because one of
the runs makes some more of them in between, and the elements other stamps. A *renaming* tells which number
of the one run stands for which number of the other, and two values are **twins** if they are the same but
for renamed numbers and for stamps.

Whatever is read off twins, but for stamps and numbers, is the same or are twins again.
-/

namespace TaggedMarkup

/-- The number in the other run of each pending value of this one, by number. A run that goes on adds to
it. -/
abbrev Renaming := List Nat

mutual

/-- The same value, but for renamed pending values and for stamps. -/
inductive Value.Twin (ρ : Renaming) : Value → Value → Prop
  | undefined : Value.Twin ρ .undefined .undefined
  | null : Value.Twin ρ .null .null
  | bool (b : Bool) : Value.Twin ρ (.bool b) (.bool b)
  | number (d : Double) : Value.Twin ρ (.number d) (.number d)
  | str (s : String) : Value.Twin ρ (.str s) (.str s)
  | list {xs ys : List Value} : List.Forall₂ (Value.Twin ρ) xs ys → Value.Twin ρ (.list xs) (.list ys)
  | sequence (cell : Nat) : Value.Twin ρ (.sequence cell) (.sequence cell)
  | pending {p q : Nat} : ρ[p]? = some q → Value.Twin ρ (.pending p) (.pending q)
  | element {e f : Element} : e.type = f.type → e.raw = f.raw → Entries.Twin ρ e.props f.props →
    List.Forall₂ (Value.Twin ρ) e.children f.children → Value.Twin ρ (.element e) (.element f)
  | component (c : Component) : Value.Twin ρ (.component c) (.component c)
  | object {entries entries' : Props} : Entries.Twin ρ entries entries' →
    Value.Twin ρ (.object entries) (.object entries')

/-- The same keys, with twins. -/
inductive Entries.Twin (ρ : Renaming) : Props → Props → Prop
  | nil : Entries.Twin ρ [] []
  | cons {key : String} {x y : Value} {rest rest' : Props} : Value.Twin ρ x y →
    Entries.Twin ρ rest rest' → Entries.Twin ρ ((key, x) :: rest) ((key, y) :: rest')

end

variable {ρ σ : Renaming} {x y : Value} {xs ys more more' : List Value} {entries entries' : Props}

/-- A number that has been told stays. -/
theorem Renaming.grow {p q : Nat} (hρ : ρ <+: σ) (h : ρ[p]? = some q) : σ[p]? = some q := by
  obtain ⟨more, rfl⟩ := hρ
  rw [List.getElem?_append_left (List.getElem?_eq_some_iff.mp h).1, h]

mutual

/-- Twins stay twins when the renaming grows. -/
theorem Value.Twin.mono (hρ : ρ <+: σ) : ∀ {x y : Value}, Value.Twin ρ x y → Value.Twin σ x y
  | _, _, .undefined => .undefined
  | _, _, .null => .null
  | _, _, .bool b => .bool b
  | _, _, .number d => .number d
  | _, _, .str s => .str s
  | _, _, .list h => .list (Value.Twin.monoAll hρ h)
  | _, _, .sequence cell => .sequence cell
  | _, _, .pending h => .pending (Renaming.grow hρ h)
  | _, _, .element htype hraw hprops hchildren =>
    .element htype hraw (hprops.mono hρ) (Value.Twin.monoAll hρ hchildren)
  | _, _, .component c => .component c
  | _, _, .object h => .object (h.mono hρ)

theorem Value.Twin.monoAll (hρ : ρ <+: σ) :
    ∀ {xs ys : List Value}, List.Forall₂ (Value.Twin ρ) xs ys → List.Forall₂ (Value.Twin σ) xs ys
  | _, _, .nil => .nil
  | _, _, .cons h hrest => .cons (h.mono hρ) (Value.Twin.monoAll hρ hrest)

theorem Entries.Twin.mono (hρ : ρ <+: σ) :
    ∀ {entries entries' : Props}, Entries.Twin ρ entries entries' → Entries.Twin σ entries entries'
  | _, _, .nil => .nil
  | _, _, .cons h hrest => .cons (h.mono hρ) (hrest.mono hρ)

end

/-! ## What is read off -/

namespace Value.Twin

theorem typeName (h : Twin ρ x y) : x.typeName = y.typeName := by cases h <;> rfl

theorem isNullish (h : Twin ρ x y) : x.isNullish = y.isNullish := by cases h <;> rfl

theorem isList (h : Twin ρ x y) : x.isList = y.isList := by cases h <;> rfl

theorem toElementType (h : Twin ρ x y) : x.toElementType = y.toElementType := by cases h <;> rfl

theorem isSkipped (h : Twin ρ x y) : Render.isSkipped x = Render.isSkipped y := by cases h <;> rfl

theorem attributeText? (h : Twin ρ x y) (name : String) :
    Render.attributeText? name x = Render.attributeText? name y := by
  cases h <;> rfl

mutual

/-- Twins have the same string form. -/
theorem text : ∀ {x y : Value}, Twin ρ x y → x.text = y.text
  | _, _, .list h => by rw [Value.text, Value.text, memberTexts h]
  | _, _, .undefined | _, _, .null | _, _, .bool _ | _, _, .number _ | _, _, .str _
  | _, _, .sequence _ | _, _, .component _ => rfl
  | _, _, .pending _ | _, _, .element .. | _, _, .object _ => by rw [Value.text, Value.text]

theorem memberTexts : ∀ {xs ys : List Value}, List.Forall₂ (Twin ρ) xs ys →
    Value.memberTexts xs = Value.memberTexts ys
  | _, _, .nil => rfl
  | _, _, .cons h hrest => by
    rw [Value.memberTexts, Value.memberTexts, h.isNullish, text h, memberTexts hrest]

end

theorem append (h : List.Forall₂ (Twin ρ) xs ys) (hmore : List.Forall₂ (Twin ρ) more more') :
    List.Forall₂ (Twin ρ) (xs ++ more) (ys ++ more') := List.rel_append h hmore

/-- Splicing twins gives twins. -/
theorem splice (h : List.Forall₂ (Twin ρ) xs ys) :
    List.Forall₂ (Twin ρ) (Value.splice xs) (Value.splice ys) := by
  induction h with
  | nil => exact .nil
  | cons hxy _ ih =>
    cases hxy with
    | list hmembers => exact append hmembers ih
    | _ => exact .cons (by constructor <;> assumption) ih

theorem any_isList (h : List.Forall₂ (Twin ρ) xs ys) : xs.any Value.isList = ys.any Value.isList := by
  induction h with
  | nil => rfl
  | cons hxy _ ih => rw [List.any_cons, List.any_cons, hxy.isList, ih]

theorem getD (h : List.Forall₂ (Twin ρ) xs ys) (index : Nat) :
    Twin ρ (xs.getD index .undefined) (ys.getD index .undefined) := by
  induction h generalizing index with
  | nil => exact .undefined
  | cons hxy _ ih =>
    cases index with
    | zero => exact hxy
    | succ index => exact ih index

end Value.Twin

namespace Entries.Twin

theorem get? (key : String) (h : Entries.Twin ρ entries entries') :
    Option.Rel (Value.Twin ρ) (Entries.get? key entries) (Entries.get? key entries') := by
  induction entries generalizing entries' with
  | nil =>
    cases h
    exact .none
  | cons entry rest ih =>
    cases h with
    | cons hxy hrest =>
      rw [Entries.get?, Entries.get?]
      split
      · exact .some hxy
      · exact ih hrest

theorem contains (key : String) : ∀ {entries entries' : Props}, Entries.Twin ρ entries entries' →
    Entries.contains key entries = Entries.contains key entries'
  | _, _, .nil => rfl
  | _, _, .cons _ hrest => congrArg (_ || ·) (hrest.contains key)

theorem put (key : String) (hxy : Value.Twin ρ x y) (h : Entries.Twin ρ entries entries') :
    Entries.Twin ρ (Entries.put key x entries) (Entries.put key y entries') := by
  induction entries generalizing entries' with
  | nil =>
    cases h
    exact .cons hxy .nil
  | cons entry rest ih =>
    cases h with
    | cons hold hrest =>
      rw [Entries.put, Entries.put]
      split
      · exact .cons hxy hrest
      · exact .cons hold (ih hrest)

theorem merge : ∀ {added added' entries entries' : Props}, Entries.Twin ρ entries entries' →
    Entries.Twin ρ added added' →
      Entries.Twin ρ (Entries.merge entries added) (Entries.merge entries' added')
  | _, _, _, _, h, .nil => h
  | _, _, _, _, h, .cons hxy hrest => (h.put _ hxy).merge hrest

theorem ofList (h : Entries.Twin ρ entries entries') :
    Entries.Twin ρ (Entries.ofList entries) (Entries.ofList entries') := Entries.Twin.nil.merge h

end Entries.Twin

/-- The elements that are read off twins are twins. -/
theorem Entries.Twin.ofEntries (h : Entries.Twin ρ entries entries') (stamp stamp' : Nat) :
    Value.Twin ρ (.element (Element.ofEntries stamp entries))
      (.element (Element.ofEntries stamp' entries')) := by
  have htype := h.get? "type"
  have hprops := h.get? "props"
  have hchildren := h.get? "children"
  have hraw := h.get? "skipStringEscape"
  refine .element ?_ ?_ ?_ ?_ <;> unfold Element.ofEntries <;> dsimp only
  · generalize Entries.get? "type" entries = a, Entries.get? "type" entries' = b at htype
    cases htype with
    | none => rfl
    | some hxy => exact hxy.toElementType
  · generalize Entries.get? "skipStringEscape" entries = a,
      Entries.get? "skipStringEscape" entries' = b at hraw
    cases hraw with
    | none => rfl
    | some hxy => cases hxy <;> rfl
  · generalize Entries.get? "props" entries = a, Entries.get? "props" entries' = b at hprops
    cases hprops with
    | none => exact .nil
    | some hxy =>
      cases hxy with
      | object hentries => exact hentries
      | _ => exact .nil
  · generalize Entries.get? "children" entries = a, Entries.get? "children" entries' = b at hchildren
    cases hchildren with
    | none => exact .nil
    | some hxy =>
      cases hxy with
      | list hmembers => exact hmembers
      | undefined => exact .nil
      | _ => exact .cons (by constructor <;> assumption) .nil

end TaggedMarkup
