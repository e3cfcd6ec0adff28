import Mathlib.Data.List.Forall2
import Mathlib.Data.List.Perm.Subperm
import TaggedMarkup.Proofs.Markup.Stillness
import TaggedMarkup.Proofs.Value.Rereading
import TaggedMarkup.Template.Factory

/-!
# What equality of values is

Equality of values is a partial equivalence: symmetric and transitive, and reflexive **but for NaN**. Neither
is plain from its definition.

* Maps are compared one way only, each entry with what is at its key on the other side. That this is symmetric
  is a matter of counting: if there are as many entries on the other side, there is nothing at another key
  (`mapsAlike_iff`).
* Elements are equal if they are the same element or look alike. That this is transitive rests on **one stamp
  being one element**: a value is *proper* if each of its elements is the one that was built with its stamp.

The order of entries never matters, however deep: a value may be *reordered* on either side of a comparison
(`Reordered.equals_left`). The order of members always does: lists are compared place by place.
-/

namespace TaggedMarkup

/-! ## Numbers -/

namespace Double

variable {a b c : Double}

theorem equals_iff : a.equals b = true ↔
    a.isNaN = false ∧ b.isNaN = false ∧ (a = b ∨ a.isZero = true ∧ b.isZero = true) := by
  have hbits : a.bits = b.bits ↔ a = b := by
    cases a
    cases b
    exact (mk.injEq ..).to_iff.symm
  rw [equals, Bool.and_eq_true, Bool.and_eq_true, Bool.or_eq_true, Bool.and_eq_true, Bool.not_eq_true',
    Bool.not_eq_true', beq_iff_eq, hbits, and_assoc]

theorem equals_symm (h : a.equals b = true) : b.equals a = true := by
  obtain ⟨ha, hb, hsame⟩ := equals_iff.mp h
  exact equals_iff.mpr ⟨hb, ha, hsame.imp Eq.symm And.symm⟩

theorem equals_trans (hab : a.equals b = true) (hbc : b.equals c = true) : a.equals c = true := by
  obtain ⟨ha, -, hab⟩ := equals_iff.mp hab
  obtain ⟨-, hc, hbc⟩ := equals_iff.mp hbc
  refine equals_iff.mpr ⟨ha, hc, ?_⟩
  rcases hab with rfl | hzeros
  · exact hbc
  · rcases hbc with rfl | hzeros'
    · exact .inr hzeros
    · exact .inr ⟨hzeros.1, hzeros'.2⟩

theorem equals_self_iff : a.equals a = true ↔ a.isNaN = false :=
  equals_iff.trans ⟨And.left, fun h => ⟨h, h, .inl rfl⟩⟩

end Double

/-! ## One comparison -/

namespace Value

variable {a b c x y : Value} {as bs cs : List Value} {left right : Props}

/-- Place by place, the members are equal. -/
def ListsAlike (as bs : List Value) : Prop := List.Forall₂ (fun x y => x.equals y = true) as bs

/-- Key by key, there is nothing in either map or the values are equal. -/
def MapsAlike (left right : Props) : Prop :=
  ∀ key, Entries.get? key left = none ∧ Entries.get? key right = none ∨
    ∃ x y, Entries.get? key left = some x ∧ Entries.get? key right = some y ∧ x.equals y = true

/-- The elements cannot be told apart by what they are made of. -/
structure LooksLike (e f : Element) : Prop where
  type : e.type = f.type
  props : MapsAlike e.props f.props
  children : ListsAlike e.children f.children
  raw : e.raw = f.raw

/-- **What makes two values equal**, given what makes their parts equal. -/
inductive Alike : Value → Value → Prop
  | undefined : Alike .undefined .undefined
  | null : Alike .null .null
  | bool (b : Bool) : Alike (.bool b) (.bool b)
  | number {d d' : Double} : d.equals d' = true → Alike (.number d) (.number d')
  | str (s : String) : Alike (.str s) (.str s)
  | list {as bs : List Value} : ListsAlike as bs → Alike (.list as) (.list bs)
  | sequence (cell : Nat) : Alike (.sequence cell) (.sequence cell)
  | pending (cell : Nat) : Alike (.pending cell) (.pending cell)
  | identical {e f : Element} : e.stamp = f.stamp → Alike (.element e) (.element f)
  | lookalike {e f : Element} : LooksLike e f → Alike (.element e) (.element f)
  | component {c d : Component} : c.cell = d.cell → Alike (.component c) (.component d)
  | object {left right : Props} : MapsAlike left right → Alike (.object left) (.object right)

theorem listEquals_iff : ∀ {as bs : List Value}, listEquals as bs = true ↔ ListsAlike as bs
  | [], [] => ⟨fun _ => .nil, fun _ => rfl⟩
  | [], _ :: _ | _ :: _, [] => ⟨nofun, nofun⟩
  | a :: as, b :: bs => by
    rw [listEquals, Bool.and_eq_true, listEquals_iff, ListsAlike, ListsAlike, List.forall₂_cons]

theorem entriesWithin_eq_all (left right : Props) : entriesWithin left right =
    left.all fun entry => (Entries.get? entry.1 right).any (equals entry.2) := by
  induction left with
  | nil => rfl
  | cons entry rest ih =>
    obtain ⟨key, x⟩ := entry
    rw [entriesWithin, List.all_cons, ih]
    cases Entries.get? key right with
    | none => rfl
    | some y => rfl

theorem entriesWithin_iff : entriesWithin left right = true ↔
    ∀ entry ∈ left, ∃ y, Entries.get? entry.1 right = some y ∧ entry.2.equals y = true := by
  simp only [entriesWithin_eq_all, List.all_eq_true, Option.any_eq_true]

/-- In a map each entry is what is at its key. -/
theorem get?_of_mem {key : String} (hkeys : (Entries.keys left).Nodup) (hmem : (key, x) ∈ left) :
    Entries.get? key left = some x := by
  obtain ⟨before, after, rfl⟩ := List.append_of_mem hmem
  exact get?_of_nodup hkeys

theorem mem_keys_iff {key : String} (hkeys : (Entries.keys left).Nodup) :
    key ∈ Entries.keys left ↔ ∃ x, Entries.get? key left = some x := by
  refine ⟨fun h => ?_, fun ⟨x, hx⟩ => List.mem_map.mpr ⟨(key, x), Entries.mem_of_get? hx, rfl⟩⟩
  obtain ⟨⟨_, x⟩, hmem, rfl⟩ := List.mem_map.mp h
  exact ⟨x, get?_of_mem hkeys hmem⟩

theorem length_keys (entries : Props) : (Entries.keys entries).length = entries.length := List.length_map _

/-- **Maps of one size are compared both ways**, although each entry is looked up one way only. -/
theorem mapsAlike_iff (hleft : (Entries.keys left).Nodup) (hright : (Entries.keys right).Nodup) :
    (left.length == right.length && entriesWithin left right) = true ↔ MapsAlike left right := by
  rw [Bool.and_eq_true, beq_iff_eq, entriesWithin_iff, ← length_keys left, ← length_keys right]
  constructor
  · rintro ⟨hlength, hwithin⟩ key
    have hsubset : Entries.keys left ⊆ Entries.keys right := by
      intro k hk
      obtain ⟨x, hx⟩ := (mem_keys_iff hleft).mp hk
      obtain ⟨y, hy, -⟩ := hwithin (k, x) (Entries.mem_of_get? hx)
      exact (mem_keys_iff hright).mpr ⟨y, hy⟩
    have hperm : (Entries.keys left).Perm (Entries.keys right) :=
      (hleft.subperm hsubset).perm_of_length_le (Nat.le_of_eq hlength.symm)
    by_cases hkey : key ∈ Entries.keys left
    · obtain ⟨x, hx⟩ := (mem_keys_iff hleft).mp hkey
      obtain ⟨y, hy, hequals⟩ := hwithin (key, x) (Entries.mem_of_get? hx)
      exact .inr ⟨x, y, hx, hy, hequals⟩
    · have hkey' : key ∉ Entries.keys right := fun h => hkey (hperm.mem_iff.mpr h)
      exact .inl ⟨Entries.get?_eq_none_of_notMem hkey, Entries.get?_eq_none_of_notMem hkey'⟩
  · intro h
    have hsame (key : String) : key ∈ Entries.keys left ↔ key ∈ Entries.keys right := by
      rw [mem_keys_iff hleft, mem_keys_iff hright]
      rcases h key with ⟨hx, hy⟩ | ⟨x, y, hx, hy, -⟩
      · rw [hx, hy]
      · exact ⟨fun _ => ⟨y, hy⟩, fun _ => ⟨x, hx⟩⟩
    refine ⟨((List.perm_ext_iff_of_nodup hleft hright).mpr hsame).length_eq, fun (key, x) hmem => ?_⟩
    rcases h key with ⟨hx, -⟩ | ⟨x', y, hx, hy, hequals⟩
    · exact nomatch (get?_of_mem hleft hmem).symm.trans hx
    · cases (get?_of_mem hleft hmem).symm.trans hx
      exact ⟨y, hy, hequals⟩

theorem equals_element_iff {e f : Element} (he : (Entries.keys e.props).Nodup) (hf : (Entries.keys f.props).Nodup) :
    (element e).equals (element f) = true ↔ e.stamp = f.stamp ∨ LooksLike e f := by
  obtain ⟨stamp, type, props, children, raw⟩ := e
  rw [equals, Bool.or_eq_true, beq_iff_eq, Bool.and_assoc (type == f.type), Bool.and_eq_true, Bool.and_eq_true,
    Bool.and_eq_true, beq_iff_eq, beq_iff_eq, mapsAlike_iff he hf, listEquals_iff]
  exact or_congr_right ⟨fun ⟨⟨⟨htype, hprops⟩, hchildren⟩, hraw⟩ => ⟨htype, hprops, hchildren, hraw⟩,
    fun ⟨htype, hprops, hchildren, hraw⟩ => ⟨⟨⟨htype, hprops⟩, hchildren⟩, hraw⟩⟩

/-- **One comparison**: equality of two values, each key of their maps there once, from that of their parts. -/
theorem equals_iff_alike (ha : a.isKeyed = true) (hb : b.isKeyed = true) : a.equals b = true ↔ Alike a b := by
  cases a with
  | undefined => cases b with
    | undefined => exact ⟨fun _ => .undefined, fun _ => rfl⟩
    | _ => exact ⟨nofun, nofun⟩
  | null => cases b with
    | null => exact ⟨fun _ => .null, fun _ => rfl⟩
    | _ => exact ⟨nofun, nofun⟩
  | bool p => cases b with
    | bool q =>
      rw [equals, beq_iff_eq]
      exact ⟨fun h => h ▸ .bool p, fun | .bool _ => rfl⟩
    | _ => exact ⟨nofun, nofun⟩
  | number d => cases b with
    | number d' => exact ⟨.number, fun | .number h => h⟩
    | _ => exact ⟨nofun, nofun⟩
  | str s => cases b with
    | str t =>
      rw [equals, beq_iff_eq]
      exact ⟨fun h => h ▸ .str s, fun | .str _ => rfl⟩
    | _ => exact ⟨nofun, nofun⟩
  | list as => cases b with
    | list bs =>
      rw [equals, listEquals_iff]
      exact ⟨.list, fun | .list h => h⟩
    | _ => exact ⟨nofun, nofun⟩
  | sequence n => cases b with
    | sequence m =>
      rw [equals, beq_iff_eq]
      exact ⟨fun h => h ▸ .sequence n, fun | .sequence _ => rfl⟩
    | _ => exact ⟨nofun, nofun⟩
  | pending n => cases b with
    | pending m =>
      rw [equals, beq_iff_eq]
      exact ⟨fun h => h ▸ .pending n, fun | .pending _ => rfl⟩
    | _ => exact ⟨nofun, nofun⟩
  | element e => cases b with
    | element f =>
      rw [isKeyed, Bool.and_eq_true, Bool.and_eq_true, decide_eq_true_eq] at ha hb
      rw [equals_element_iff ha.1.1 hb.1.1]
      refine ⟨fun h => h.elim .identical .lookalike, fun h => ?_⟩
      cases h with
      | identical h => exact .inl h
      | lookalike h => exact .inr h
    | _ => exact ⟨nofun, nofun⟩
  | component c => cases b with
    | component d =>
      rw [equals, beq_iff_eq]
      exact ⟨.component, fun | .component h => h⟩
    | _ => exact ⟨nofun, nofun⟩
  | object left => cases b with
    | object right =>
      rw [isKeyed, Bool.and_eq_true, decide_eq_true_eq] at ha hb
      rw [equals, mapsAlike_iff ha.1 hb.1]
      exact ⟨.object, fun | .object h => h⟩
    | _ => exact ⟨nofun, nofun⟩

/-! ## Parts -/

/-- The values that a value is made of. -/
def parts : Value → List Value
  | list members => members
  | element e => e.props.map (·.2) ++ e.children
  | object entries => entries.map (·.2)
  | _ => []

theorem sizeOf_entry_lt {entry : String × Value} {entries : Props} (h : entry ∈ entries) :
    sizeOf entry.2 < sizeOf entries := by
  obtain ⟨key, x⟩ := entry
  have hless := List.sizeOf_lt_of_mem h
  rw [Prod.mk.sizeOf_spec] at hless
  dsimp only
  omega

theorem sizeOf_part_lt (h : x ∈ a.parts) : sizeOf x < sizeOf a := by
  cases a with
  | list members => exact sizeOf_member_lt h
  | element e =>
    rcases List.mem_append.mp h with h | h
    · obtain ⟨entry, hentry, rfl⟩ := List.mem_map.mp h
      obtain ⟨stamp, type, props, children, raw⟩ := e
      have hless := sizeOf_entry_lt hentry
      rw [element.sizeOf_spec, ElementOf.mk.sizeOf_spec]
      dsimp only at hless
      omega
    · exact sizeOf_child_lt h
  | object entries =>
    obtain ⟨entry, hentry, rfl⟩ := List.mem_map.mp h
    have hless := sizeOf_entry_lt hentry
    rw [object.sizeOf_spec]
    omega
  | _ => exact nomatch h

/-- Induction on what a value is made of. -/
@[elab_as_elim]
theorem parts_induction {motive : Value → Prop} (step : ∀ a, (∀ x ∈ a.parts, motive x) → motive a)
    (a : Value) : motive a :=
  step a fun x hx =>
    have := sizeOf_part_lt hx
    parts_induction step x
termination_by sizeOf a

theorem isKeyedAll_eq_all (values : List Value) : isKeyedAll values = values.all isKeyed := by
  induction values with
  | nil => rfl
  | cons value rest ih => rw [isKeyedAll, List.all_cons, ih]

theorem isKeyedEntries_eq_all (entries : Props) : isKeyedEntries entries = entries.all (·.2.isKeyed) := by
  induction entries with
  | nil => rfl
  | cons entry rest ih => rw [isKeyedEntries, List.all_cons, ih]

theorem isKeyed_of_part (ha : a.isKeyed = true) (h : x ∈ a.parts) : x.isKeyed = true := by
  cases a with
  | list members =>
    rw [isKeyed, isKeyedAll_eq_all, List.all_eq_true] at ha
    exact ha x h
  | element e =>
    obtain ⟨stamp, type, props, children, raw⟩ := e
    rw [isKeyed, Bool.and_eq_true, Bool.and_eq_true, isKeyedEntries_eq_all, isKeyedAll_eq_all, List.all_eq_true,
      List.all_eq_true] at ha
    rcases List.mem_append.mp h with h | h
    · obtain ⟨entry, hentry, rfl⟩ := List.mem_map.mp h
      exact ha.1.2 entry hentry
    · exact ha.2 x h
  | object entries =>
    rw [isKeyed, Bool.and_eq_true, isKeyedEntries_eq_all, List.all_eq_true] at ha
    obtain ⟨entry, hentry, rfl⟩ := List.mem_map.mp h
    exact ha.2 entry hentry
  | _ => exact nomatch h

/-! ## Symmetry -/

theorem ListsAlike.symm (h : ListsAlike as bs)
    (hsymm : ∀ x ∈ as, ∀ y ∈ bs, x.equals y = true → y.equals x = true) : ListsAlike bs as := by
  induction h with
  | nil => exact .nil
  | cons hfirst _ ih =>
    exact .cons (hsymm _ List.mem_cons_self _ List.mem_cons_self hfirst)
      (ih fun x hx y hy => hsymm x (List.mem_cons_of_mem _ hx) y (List.mem_cons_of_mem _ hy))

theorem mem_values_of_get? {key : String} (h : Entries.get? key left = some x) : x ∈ left.map (·.2) :=
  List.mem_map.mpr ⟨(key, x), Entries.mem_of_get? h, rfl⟩

theorem MapsAlike.symm (h : MapsAlike left right)
    (hsymm : ∀ x ∈ left.map (·.2), ∀ y ∈ right.map (·.2), x.equals y = true → y.equals x = true) :
    MapsAlike right left := fun key => by
  rcases h key with ⟨hx, hy⟩ | ⟨x, y, hx, hy, hequals⟩
  · exact .inl ⟨hy, hx⟩
  · exact .inr ⟨y, x, hy, hx, hsymm x (mem_values_of_get? hx) y (mem_values_of_get? hy) hequals⟩

theorem Alike.symm (h : Alike a b)
    (hsymm : ∀ x ∈ a.parts, ∀ y ∈ b.parts, x.equals y = true → y.equals x = true) : Alike b a := by
  cases h with
  | undefined => exact .undefined
  | null => exact .null
  | bool b => exact .bool b
  | number h => exact .number (Double.equals_symm h)
  | str s => exact .str s
  | list h => exact .list (h.symm hsymm)
  | sequence cell => exact .sequence cell
  | pending cell => exact .pending cell
  | identical h => exact .identical h.symm
  | lookalike h =>
    refine .lookalike ⟨h.type.symm, h.props.symm fun x hx y hy => ?_, h.children.symm fun x hx y hy => ?_,
      h.raw.symm⟩
    · exact hsymm x (List.mem_append_left _ hx) y (List.mem_append_left _ hy)
    · exact hsymm x (List.mem_append_right _ hx) y (List.mem_append_right _ hy)
  | component h => exact .component h.symm
  | object h => exact .object (h.symm hsymm)

theorem equals_symm (ha : a.isKeyed = true) (hb : b.isKeyed = true) (h : a.equals b = true) : b.equals a = true := by
  induction a using parts_induction generalizing b with
  | step a ih =>
    have hsymm := ((equals_iff_alike ha hb).mp h).symm fun x hx y hy =>
      ih x hx (isKeyed_of_part ha hx) (isKeyed_of_part hb hy)
    exact (equals_iff_alike hb ha).mpr hsymm

/-- **Equality is symmetric.** -/
theorem equals_comm (ha : a.isKeyed = true) (hb : b.isKeyed = true) : a.equals b = b.equals a :=
  Bool.eq_iff_iff.mpr ⟨equals_symm ha hb, equals_symm hb ha⟩

/-! ## Reflexivity -/

/-- The second value is in the first one, in lists and maps and outside every element. -/
inductive Reaches : Value → Value → Prop
  | refl (a : Value) : Reaches a a
  | member {members : List Value} {x y : Value} : x ∈ members → Reaches x y → Reaches (.list members) y
  | entry {entries : Props} {x y : Value} : x ∈ entries.map (·.2) → Reaches x y → Reaches (.object entries) y

theorem Reaches.equals_self (h : a.Reaches b) (ha : a.isKeyed = true) (hself : a.equals a = true) :
    b.equals b = true := by
  induction h with
  | refl => exact hself
  | member hx _ ih =>
    cases (equals_iff_alike ha ha).mp hself with
    | list h => exact ih (isKeyed_of_part ha hx) (List.forall₂_same.mp h _ hx)
  | @entry entries x y hx _ ih =>
    have hkeys : (Entries.keys entries).Nodup := by
      rw [isKeyed, Bool.and_eq_true, decide_eq_true_eq] at ha
      exact ha.1
    cases (equals_iff_alike ha ha).mp hself with
    | object h =>
      obtain ⟨⟨key, x⟩, hmem, rfl⟩ := List.mem_map.mp hx
      refine ih (isKeyed_of_part ha hx) ?_
      rcases h key with ⟨hnone, -⟩ | ⟨x', y', hx', hy', hequals⟩
      · exact nomatch (get?_of_mem hkeys hmem).symm.trans hnone
      · cases (get?_of_mem hkeys hmem).symm.trans hx'
        cases (get?_of_mem hkeys hmem).symm.trans hy'
        exact hequals

/-- **Only a NaN outside every element keeps a value from being equal to itself.** -/
theorem equals_self_iff (ha : a.isKeyed = true) :
    a.equals a = true ↔ ∀ d, a.Reaches (number d) → d.isNaN = false := by
  refine ⟨fun h d hd => Double.equals_self_iff.mp (hd.equals_self ha h), fun h => ?_⟩
  induction a using parts_induction with
  | step a ih =>
    refine (equals_iff_alike ha ha).mpr ?_
    cases a with
    | undefined => exact .undefined
    | null => exact .null
    | bool b => exact .bool b
    | number d => exact .number (Double.equals_self_iff.mpr (h d (.refl _)))
    | str s => exact .str s
    | list members =>
      refine .list (List.forall₂_same.mpr fun x hx => ih x hx (isKeyed_of_part ha hx) fun d hd => ?_)
      exact h d (.member hx hd)
    | sequence cell => exact .sequence cell
    | pending cell => exact .pending cell
    | element e => exact .identical rfl
    | component c => exact .component rfl
    | object entries =>
      refine .object fun key => ?_
      cases hget : Entries.get? key entries with
      | none => exact .inl ⟨rfl, rfl⟩
      | some x =>
        have hx := mem_values_of_get? hget
        exact .inr ⟨x, x, rfl, rfl, ih x hx (isKeyed_of_part ha hx) fun d hd => h d (.entry hx hd)⟩

theorem equals_self_eq_false_iff (ha : a.isKeyed = true) :
    a.equals a = false ↔ ∃ d, a.Reaches (number d) ∧ d.isNaN = true := by
  rw [← Bool.not_eq_true, equals_self_iff ha, not_forall]
  simp only [Classical.not_imp, Bool.not_eq_false]

/-! ## Transitivity -/

theorem ListsAlike.trans (hab : ListsAlike as bs) (hbc : ListsAlike bs cs)
    (htrans : ∀ x ∈ as, ∀ y ∈ bs, ∀ z ∈ cs, x.equals y = true → y.equals z = true → x.equals z = true) :
    ListsAlike as cs := by
  induction hab generalizing cs with
  | nil => exact hbc
  | cons hfirst _ ih =>
    cases hbc with
    | cons hsecond hrest =>
      refine .cons (htrans _ List.mem_cons_self _ List.mem_cons_self _ List.mem_cons_self hfirst hsecond)
        (ih hrest fun x hx y hy z hz => ?_)
      exact htrans x (List.mem_cons_of_mem _ hx) y (List.mem_cons_of_mem _ hy) z (List.mem_cons_of_mem _ hz)

theorem MapsAlike.trans {middle : Props} (hab : MapsAlike left middle) (hbc : MapsAlike middle right)
    (htrans : ∀ x ∈ left.map (·.2), ∀ y ∈ middle.map (·.2), ∀ z ∈ right.map (·.2),
      x.equals y = true → y.equals z = true → x.equals z = true) : MapsAlike left right := fun key => by
  rcases hab key with ⟨hx, hy⟩ | ⟨x, y, hx, hy, hequals⟩
  · rcases hbc key with ⟨-, hz⟩ | ⟨y', -, hy', -⟩
    · exact .inl ⟨hx, hz⟩
    · exact nomatch hy.symm.trans hy'
  · rcases hbc key with ⟨hy', -⟩ | ⟨y', z, hy', hz, hequals'⟩
    · exact nomatch hy.symm.trans hy'
    · cases hy.symm.trans hy'
      exact .inr ⟨x, z, hx, hz, htrans x (mem_values_of_get? hx) y (mem_values_of_get? hy) z
        (mem_values_of_get? hz) hequals hequals'⟩

mutual

/-- The elements in a value, however deep. -/
def elements : Value → List Element
  | list members => elementsOfAll members
  | element ⟨stamp, type, props, children, raw⟩ =>
    ⟨stamp, type, props, children, raw⟩ :: (elementsOfEntries props ++ elementsOfAll children)
  | object entries => elementsOfEntries entries
  | _ => []

def elementsOfAll : List Value → List Element
  | [] => []
  | value :: rest => elements value ++ elementsOfAll rest

def elementsOfEntries : List (String × Value) → List Element
  | [] => []
  | (_, value) :: rest => elements value ++ elementsOfEntries rest

end

/-- A value such as there are: **each key of a map there once, each element the one that was built with its
stamp.** The elements built so far are numbered by their stamps. -/
structure IsProper (built : List Element) (value : Value) : Prop where
  keyed : value.isKeyed = true
  identified : ∀ e ∈ value.elements, built[e.stamp]? = some e

variable {built : List Element}

theorem elementsOfAll_eq_flatMap (values : List Value) : elementsOfAll values = values.flatMap elements := by
  induction values with
  | nil => rfl
  | cons value rest ih => rw [elementsOfAll, List.flatMap_cons, ih]

theorem elementsOfEntries_eq_flatMap (entries : Props) :
    elementsOfEntries entries = (entries.map (·.2)).flatMap elements := by
  induction entries with
  | nil => rfl
  | cons entry rest ih => rw [elementsOfEntries, List.map_cons, List.flatMap_cons, ih]

theorem elements_element (e : Element) :
    (element e).elements = e :: (element e).parts.flatMap elements := by
  obtain ⟨stamp, type, props, children, raw⟩ := e
  rw [elements, elementsOfEntries_eq_flatMap, elementsOfAll_eq_flatMap, ← List.flatMap_append]
  rfl

theorem elements_part_subset (h : x ∈ a.parts) : x.elements ⊆ a.elements := by
  have hparts : x.elements ⊆ a.parts.flatMap elements := fun e he => List.mem_flatMap.mpr ⟨x, h, he⟩
  cases a with
  | list members =>
    rw [elements, elementsOfAll_eq_flatMap]
    exact hparts
  | element e =>
    rw [elements_element]
    exact List.subset_cons_of_subset e hparts
  | object entries =>
    rw [elements, elementsOfEntries_eq_flatMap]
    exact hparts
  | _ => exact nomatch h

theorem IsProper.part (ha : a.IsProper built) (h : x ∈ a.parts) : x.IsProper built :=
  ⟨isKeyed_of_part ha.keyed h, fun e he => ha.identified e (elements_part_subset h he)⟩

/-- What is proper stays so when more elements are built. -/
theorem IsProper.grow {more : List Element} (ha : a.IsProper built) (hmore : built <+: more) : a.IsProper more := by
  obtain ⟨new, rfl⟩ := hmore
  refine ⟨ha.keyed, fun e he => ?_⟩
  have hbuilt := ha.identified e he
  rw [List.getElem?_append_left (List.getElem?_eq_some_iff.mp hbuilt).1, hbuilt]

/-- **A new element is proper**: it takes the next stamp, which no element has. -/
theorem isProper_build {bench : Bench} {type : ElementType} {props : Props} {children : List Value} {raw : Bool}
    (hbench : bench.stamp = built.length) (hkeys : (Entries.keys props).Nodup)
    (hprops : ∀ x ∈ props.map (·.2), x.IsProper built) (hchildren : ∀ x ∈ children, x.IsProper built) :
    (bench.build type props children raw).1.IsProper (built ++ [⟨bench.stamp, type, props, children, raw⟩]) := by
  constructor
  · have hprops' : isKeyedEntries props = true := by
      rw [isKeyedEntries_eq_all, List.all_eq_true]
      exact fun entry hentry => (hprops entry.2 (List.mem_map_of_mem hentry)).keyed
    have hchildren' : isKeyedAll children = true := by
      rw [isKeyedAll_eq_all, List.all_eq_true]
      exact fun child hchild => (hchildren child hchild).keyed
    rw [Bench.build, isKeyed, decide_eq_true hkeys, hprops', hchildren']
    rfl
  · intro e he
    rw [Bench.build, elements_element] at he
    rcases List.mem_cons.mp he with rfl | he
    · rw [hbench, List.getElem?_append_right (Nat.le_refl _), Nat.sub_self]
      rfl
    · obtain ⟨x, hx, he⟩ := List.mem_flatMap.mp he
      have hx' : x.IsProper built := (List.mem_append.mp hx).elim (hprops x) (hchildren x)
      exact (hx'.grow (List.prefix_append _ _)).identified e he

/-- Elements with one stamp are one element. -/
theorem IsProper.eq_of_stamp {e f : Element} (he : (element e).IsProper built) (hf : (element f).IsProper built)
    (h : e.stamp = f.stamp) : e = f := by
  have hbuilt := he.identified e (elements_element e ▸ List.mem_cons_self)
  have hbuilt' := hf.identified f (elements_element f ▸ List.mem_cons_self)
  rw [h, hbuilt'] at hbuilt
  exact (Option.some.inj hbuilt).symm

theorem Alike.trans (hab : Alike a b) (hbc : Alike b c) (ha : a.IsProper built) (hb : b.IsProper built)
    (hc : c.IsProper built)
    (htrans : ∀ x ∈ a.parts, ∀ y ∈ b.parts, ∀ z ∈ c.parts,
      x.equals y = true → y.equals z = true → x.equals z = true) : Alike a c := by
  cases hab with
  | undefined | null | bool | str | sequence | pending => exact hbc
  | number h => cases hbc with
    | number h' => exact .number (Double.equals_trans h h')
  | list h => cases hbc with
    | list h' => exact .list (h.trans h' htrans)
  | identical h =>
    cases ha.eq_of_stamp hb h
    exact hbc
  | lookalike h => cases hbc with
    | identical h' =>
      cases hb.eq_of_stamp hc h'
      exact .lookalike h
    | lookalike h' =>
      refine .lookalike ⟨h.type.trans h'.type, h.props.trans h'.props fun x hx y hy z hz => ?_,
        h.children.trans h'.children fun x hx y hy z hz => ?_, h.raw.trans h'.raw⟩
      · exact htrans x (List.mem_append_left _ hx) y (List.mem_append_left _ hy) z (List.mem_append_left _ hz)
      · exact htrans x (List.mem_append_right _ hx) y (List.mem_append_right _ hy) z (List.mem_append_right _ hz)
  | component h => cases hbc with
    | component h' => exact .component (h.trans h')
  | object h => cases hbc with
    | object h' => exact .object (h.trans h' htrans)

/-- **Equality is transitive**, elements that are the same and elements that look alike in any mixture. -/
theorem equals_trans (ha : a.IsProper built) (hb : b.IsProper built) (hc : c.IsProper built)
    (hab : a.equals b = true) (hbc : b.equals c = true) : a.equals c = true := by
  induction a using parts_induction generalizing b c with
  | step a ih =>
    have hab' := (equals_iff_alike ha.keyed hb.keyed).mp hab
    have hbc' := (equals_iff_alike hb.keyed hc.keyed).mp hbc
    refine (equals_iff_alike ha.keyed hc.keyed).mpr (hab'.trans hbc' ha hb hc fun x hx y hy z hz => ?_)
    exact ih x hx (ha.part hx) (hb.part hy) (hc.part hz)

/-! ## The order of entries -/

/-- **The same value but for the order of entries**, in any maps and props in it. -/
inductive Reordered : Value → Value → Prop
  | refl (a : Value) : Reordered a a
  | trans {a b c : Value} : Reordered a b → Reordered b c → Reordered a c
  | entries {left right : Props} : left.Perm right → Reordered (.object left) (.object right)
  | props (stamp : Nat) (type : ElementType) {left right : Props} (children : List Value) (raw : Bool) :
    left.Perm right →
      Reordered (.element ⟨stamp, type, left, children, raw⟩) (.element ⟨stamp, type, right, children, raw⟩)
  | member (before after : List Value) {x y : Value} : Reordered x y →
    Reordered (.list (before ++ x :: after)) (.list (before ++ y :: after))
  | entry (key : String) (before after : Props) {x y : Value} : Reordered x y →
    Reordered (.object (before ++ (key, x) :: after)) (.object (before ++ (key, y) :: after))
  | prop (stamp : Nat) (type : ElementType) (key : String) (before after : Props) (children : List Value)
    (raw : Bool) {x y : Value} : Reordered x y →
      Reordered (.element ⟨stamp, type, before ++ (key, x) :: after, children, raw⟩)
        (.element ⟨stamp, type, before ++ (key, y) :: after, children, raw⟩)
  | child (stamp : Nat) (type : ElementType) (props : Props) (before after : List Value) (raw : Bool)
    {x y : Value} : Reordered x y →
      Reordered (.element ⟨stamp, type, props, before ++ x :: after, raw⟩)
        (.element ⟨stamp, type, props, before ++ y :: after, raw⟩)

theorem entriesWithin_perm (h : left.Perm right) (entries : Props) :
    entriesWithin right entries = entriesWithin left entries := by
  rw [entriesWithin_eq_all, entriesWithin_eq_all, h.all_eq]

theorem entriesWithin_congr (h : y.equals = x.equals) (key : String) (before after entries : Props) :
    entriesWithin (before ++ (key, y) :: after) entries =
      entriesWithin (before ++ (key, x) :: after) entries := by
  rw [entriesWithin_eq_all, entriesWithin_eq_all, List.all_append, List.all_append, List.all_cons, List.all_cons, h]

theorem listEquals_congr (h : y.equals = x.equals) (before after values : List Value) :
    listEquals (before ++ y :: after) values = listEquals (before ++ x :: after) values := by
  induction before generalizing values with
  | nil => cases values with
    | nil => rfl
    | cons value rest => rw [List.nil_append, List.nil_append, listEquals, listEquals, h]
  | cons first rest ih => cases values with
    | nil => rfl
    | cons value more => rw [List.cons_append, List.cons_append, listEquals, listEquals, ih]

theorem length_congr {α : Type} (x y : α) (before after : List α) :
    (before ++ y :: after).length = (before ++ x :: after).length := by
  rw [List.length_append, List.length_append, List.length_cons, List.length_cons]

/-- **In whatever order the entries come, the same values are equal.** -/
theorem Reordered.equals_left (h : a.Reordered b) : b.equals = a.equals := by
  induction h with
  | refl => rfl
  | trans _ _ ih ih' => rw [ih', ih]
  | entries hperm =>
    funext c
    cases c with
    | object entries => rw [equals, equals, hperm.length_eq, entriesWithin_perm hperm]
    | _ => rfl
  | props stamp type children raw hperm =>
    funext c
    cases c with
    | element e => rw [equals, equals, hperm.length_eq, entriesWithin_perm hperm]
    | _ => rfl
  | member before after _ ih =>
    funext c
    cases c with
    | list values => rw [equals, equals, listEquals_congr ih]
    | _ => rfl
  | entry key before after _ ih =>
    funext c
    cases c with
    | object entries => rw [equals, equals, length_congr, entriesWithin_congr ih]
    | _ => rfl
  | prop stamp type key before after children raw _ ih =>
    funext c
    cases c with
    | element e => rw [equals, equals, length_congr, entriesWithin_congr ih]
    | _ => rfl
  | child stamp type props before after raw _ ih =>
    funext c
    cases c with
    | element e => rw [equals, equals, listEquals_congr ih]
    | _ => rfl

theorem Reordered.isKeyed_eq (h : a.Reordered b) : b.isKeyed = a.isKeyed := by
  have hkeys {left right : Props} (hperm : left.Perm right) :
      decide (Entries.keys right).Nodup = decide (Entries.keys left).Nodup :=
    decide_eq_decide.mpr (hperm.map Prod.fst).nodup_iff.symm
  have hentry (key : String) (before after : Props) (x y : Value) :
      Entries.keys (before ++ (key, y) :: after) = Entries.keys (before ++ (key, x) :: after) := by
    rw [Entries.keys, Entries.keys, List.map_append, List.map_append, List.map_cons, List.map_cons]
  induction h with
  | refl => rfl
  | trans _ _ ih ih' => rw [ih', ih]
  | entries hperm =>
    rw [isKeyed, isKeyed, isKeyedEntries_eq_all, isKeyedEntries_eq_all, hkeys hperm, hperm.all_eq]
  | props stamp type children raw hperm =>
    rw [isKeyed, isKeyed, isKeyedEntries_eq_all, isKeyedEntries_eq_all, hkeys hperm, hperm.all_eq]
  | member before after _ ih =>
    rw [isKeyed, isKeyed, isKeyedAll_eq_all, isKeyedAll_eq_all, List.all_append, List.all_append, List.all_cons,
      List.all_cons, ih]
  | entry key before after _ ih =>
    rw [isKeyed, isKeyed, isKeyedEntries_eq_all, isKeyedEntries_eq_all, List.all_append, List.all_append,
      List.all_cons, List.all_cons, ih, hentry]
  | prop stamp type key before after children raw _ ih =>
    rw [isKeyed, isKeyed, isKeyedEntries_eq_all, isKeyedEntries_eq_all, List.all_append, List.all_append,
      List.all_cons, List.all_cons, ih, hentry]
  | child stamp type props before after raw _ ih =>
    rw [isKeyed, isKeyed, isKeyedAll_eq_all, isKeyedAll_eq_all, List.all_append, List.all_append, List.all_cons,
      List.all_cons, ih]

theorem Reordered.equals_right (h : a.Reordered b) (ha : a.isKeyed = true) (hc : c.isKeyed = true) :
    c.equals b = c.equals a := by
  rw [equals_comm hc (h.isKeyed_eq.trans ha), h.equals_left, equals_comm ha hc]

/-! ## A partial equivalence -/

/-- **Equality of values is a partial equivalence.** It is symmetric and transitive, and a value is not equal to
itself exactly if a NaN can be reached in it through lists and maps, outside every element. What one comparison
looks at is told by `Alike`: elements are equal if they are the same element, or else if they look alike. The
order of entries, in any maps and props, makes no difference to either side of a comparison; lists are equal
exactly if their members are, place by place. -/
theorem equals_partialEquivalence {built : List Element} {a b c : Value} (ha : a.IsProper built)
    (hb : b.IsProper built) (hc : c.IsProper built) :
    a.equals b = b.equals a ∧
      (a.equals b = true → b.equals c = true → a.equals c = true) ∧
      (a.equals a = false ↔ ∃ d, a.Reaches (number d) ∧ d.isNaN = true) ∧
      (a.equals b = true ↔ Alike a b) ∧
      (∀ a', a.Reordered a' → a'.equals b = a.equals b ∧ b.equals a' = b.equals a) ∧
      ∀ as bs : List Value, (list as).equals (list bs) = true ↔
        as.length = bs.length ∧
          ∀ (i : Nat) (hi : i < as.length) (hi' : i < bs.length), as[i].equals bs[i] = true := by
  refine ⟨equals_comm ha.keyed hb.keyed, equals_trans ha hb hc, equals_self_eq_false_iff ha.keyed,
    equals_iff_alike ha.keyed hb.keyed,
    fun a' h => ⟨congrFun h.equals_left b, h.equals_right ha.keyed hb.keyed⟩, fun as bs => ?_⟩
  rw [equals, listEquals_iff]
  exact List.forall₂_iff_get

/-- An element that holds a NaN, one that holds none, and one that looks like the second one: its zero has a
sign and its props come in another order. -/
def gapped : Element := ⟨0, .tag "p", [("gap", .number ⟨0x7FF8000000000000⟩)], [], false⟩

def whole : Element := ⟨1, .tag "b", [("x", .number .zero), ("y", .null)], [.str "t"], false⟩

def turned : Element := ⟨2, .tag "b", [("y", .null), ("x", .number ⟨0x8000000000000000⟩)], [.str "t"], false⟩

theorem equals_partialEquivalence_mixture :
    let a := list [element gapped, element whole]
    let c := list [element gapped, element turned]
    let d := object [("n", number ⟨0x7FF8000000000000⟩), ("p", element whole)]
    let d' := object [("p", element whole), ("n", number ⟨0x7FF8000000000000⟩)]
    a.IsProper [gapped, whole, turned] ∧ c.IsProper [gapped, whole, turned] ∧ d.IsProper [gapped, whole, turned] ∧
      a.equals c = true ∧ c.equals a = true ∧ a.equals a = true ∧ d.equals d = false ∧ d'.equals d = false := by
  intro a c d d'
  have ha : a.IsProper [gapped, whole, turned] := by
    refine ⟨by decide, fun e he => ?_⟩
    have hmem : e ∈ [gapped, whole] := he
    rcases List.mem_pair.mp hmem with rfl | rfl
    · rfl
    · rfl
  have hc : c.IsProper [gapped, whole, turned] := by
    refine ⟨by decide, fun e he => ?_⟩
    have hmem : e ∈ [gapped, turned] := he
    rcases List.mem_pair.mp hmem with rfl | rfl
    · rfl
    · rfl
  have hd : d.IsProper [gapped, whole, turned] := by
    refine ⟨by decide, fun e he => ?_⟩
    have hmem : e ∈ [whole] := he
    cases List.mem_singleton.mp hmem
    rfl
  have hac : a.equals c = true := by decide
  obtain ⟨hcomm, htrans, -⟩ := equals_partialEquivalence ha hc ha
  have hca : c.equals a = true := hcomm ▸ hac
  obtain ⟨-, -, hself, -, horder, -⟩ := equals_partialEquivalence hd hd hd
  have hnumber : d.Reaches (number ⟨0x7FF8000000000000⟩) := .entry List.mem_cons_self (.refl _)
  have hdd : d.equals d = false := hself.mpr ⟨_, hnumber, by decide⟩
  have hturned : d.Reordered d' := .entries (List.Perm.swap _ _ _)
  exact ⟨ha, hc, hd, hac, hca, htrans hac hca, hdd, (horder d' hturned).1.trans hdd⟩

end Value

end TaggedMarkup
