import Mathlib.Data.List.Perm.Subperm
import TaggedMarkup.Host.Recipe
import TaggedMarkup.Proofs.Render.Twins

/-!
# Recipes do not look at numbers

A world is **uniform** if it is its own twin: no code in it looks at the numbers of pending values or at stamps,
and none refers to pending values that are not there. What is made by recipes is like that
(`World.Uniform.define`, `World.Uniform.make`), whatever code a recipe leaves behind for later.
-/

namespace TaggedMarkup

variable {ρ σ : Renaming}

/-! ## Checked templates -/

namespace Checked

theorem roots_twin {xs ys : List Value} (h : List.Forall₂ (Value.Twin ρ) xs ys)
    {next next' : List Value → Action}
    (hnext : ∀ σ xs ys, ρ <+: σ → List.Forall₂ (Value.Twin σ) xs ys →
      Action.Twin σ (next xs) (next' ys)) : Action.Twin ρ (roots xs next) (roots ys next') := by
  induction xs generalizing ρ ys next next' with
  | nil =>
    cases h
    exact hnext ρ _ _ (List.prefix_refl ρ) .nil
  | cons x rest ih =>
    cases h with
    | cons hxy hrest =>
      exact root_twin hxy fun σ _ _ hσ hchecked => ih (Value.Twin.monoAll hσ hrest)
        fun τ _ _ hτ hmore => hnext τ _ _ (hσ.trans hτ) (.cons (hchecked.mono hτ) hmore)

/-- Checking twins does the same. -/
theorem result_twin {x y : Value} (hxy : Value.Twin ρ x y) {next next' : Value → Action}
    (hnext : ∀ σ x y, ρ <+: σ → Value.Twin σ x y → Action.Twin σ (next x) (next' y)) :
    Action.Twin ρ (result x next) (result y next') := by
  have hroot := root_twin hxy hnext
  cases hxy with
  | list hmembers =>
    exact roots_twin (Value.Twin.splice hmembers) fun σ _ _ hσ h => hnext σ _ _ hσ (.list h)
  | _ => exact hroot

theorem template_twin (statics : Statics) {values values' : List Value}
    (hvalues : List.Forall₂ (Value.Twin ρ) values values') {next next' : Value → Action}
    (hnext : ∀ σ x y, ρ <+: σ → Value.Twin σ x y → Action.Twin σ (next x) (next' y)) :
    Action.Twin ρ (template statics values next) (template statics values' next') :=
  .template statics hvalues fun _ _ _ hσ hxy => result_twin hxy fun τ _ _ hτ =>
    hnext τ _ _ (hσ.trans hτ)

end Checked

/-! ## Recipes -/

/-- The same scope, but for twins. -/
structure Scope.Twin (ρ : Renaming) (s t : Scope) : Prop where
  props : Entries.Twin ρ s.props t.props
  children : List.Forall₂ (Value.Twin ρ) s.children t.children

theorem Scope.Twin.mono (hρ : ρ <+: σ) {s t : Scope} (h : Scope.Twin ρ s t) : Scope.Twin σ s t :=
  ⟨h.props.mono hρ, Value.Twin.monoAll hρ h.children⟩

namespace Recipe

mutual

/-- No value that stands in the recipe refers to pending values. -/
def IsWritten : Recipe → Prop
  | .value v => Value.Twin [] v v
  | .named _ | .prop _ | .props | .children | .failure _ | .markup _ => True
  | .object entries => EntriesAreWritten entries
  | .element type entries members _ => type.IsWritten ∧ EntriesAreWritten entries ∧ AreWritten members
  | .list recipes | .checked _ recipes | .template _ recipes | .markupParts _ recipes
  | .iterator _ recipes | .stream _ _ recipes => AreWritten recipes
  | .ofMap recipe | .ready recipe | .pending _ _ recipe | .component _ _ recipe
  | .asynchronous _ _ _ recipe => recipe.IsWritten

def AreWritten : List Recipe → Prop
  | [] => True
  | recipe :: rest => recipe.IsWritten ∧ AreWritten rest

def EntriesAreWritten : List (String × Recipe) → Prop
  | [] => True
  | (_, recipe) :: rest => recipe.IsWritten ∧ EntriesAreWritten rest

end

theorem joined_twin (parts : List String) {xs ys : List Value} (h : List.Forall₂ (Value.Twin ρ) xs ys) :
    joined parts xs = joined parts ys := by
  induction parts generalizing xs ys with
  | nil => rfl
  | cons part rest ih =>
    cases rest with
    | nil => rfl
    | cons next rest =>
      cases h with
      | nil => rfl
      | cons hxy hmore =>
        rw [joined, joined, hxy.text, ih hmore]
        all_goals exact nofun

theorem markup_twin (text : String) {next next' : Value → Action}
    (hnext : ∀ σ x y, ρ <+: σ → Value.Twin σ x y → Action.Twin σ (next x) (next' y)) :
    Action.Twin ρ (.markup text next) (.markup text next') := by
  refine .component (fun _ _ _ _ _ _ _ _ => .give (.str text)) fun σ x y hσ hxy => ?_
  rw [hxy.toElementType]
  exact .element .nil .nil fun τ _ _ hτ => hnext τ _ _ (hσ.trans hτ)

/-- An element that is read off a map. -/
theorem ofEntries_twin {entries entries' : Props} (h : Entries.Twin ρ entries entries')
    {next next' : Value → Action}
    (hnext : ∀ σ x y, ρ <+: σ → Value.Twin σ x y → Action.Twin σ (next x) (next' y)) :
    let e := Element.ofEntries 0 entries
    let f := Element.ofEntries 0 entries'
    Action.Twin ρ (.element e.type e.props e.children e.raw next)
      (.element f.type f.props f.children f.raw next') := by
  cases h.ofEntries 0 0 with
  | element htype hraw hprops hchildren =>
    dsimp only
    rw [htype, hraw]
    exact .element hprops hchildren hnext

theorem sequence_twin {xs ys : List Value} (h : List.Forall₂ (Value.Twin ρ) xs ys) (delay : Nat) :
    List.Forall₂ (fun a b => Value.Twin ρ a.2 b.2) (xs.map fun v => (delay, v))
      (ys.map fun v => (delay, v)) :=
  List.forall₂_map_left_iff.mpr (List.forall₂_map_right_iff.mpr h)

mutual

/-- What a recipe comes to in twin scopes is the same but for twins. -/
theorem action_twin : ∀ (recipe : Recipe), recipe.IsWritten → ∀ {ρ : Renaming} {s t : Scope}
    {next next' : Value → Action}, Scope.Twin ρ s t →
      (∀ σ x y, ρ <+: σ → Value.Twin σ x y → Action.Twin σ (next x) (next' y)) →
        Action.Twin ρ (action recipe s next) (action recipe t next')
  | .value v, h, ρ, s, t, next, next', _, hnext =>
    hnext ρ v v (List.prefix_refl ρ) (h.mono (List.nil_prefix))
  | .list recipes, h, _, _, _, _, _, hst, hnext =>
    actions_twin recipes h hst fun σ _ _ hσ hxs => hnext σ _ _ hσ (.list hxs)
  | .object entries, h, _, _, _, _, _, hst, hnext =>
    entryActions_twin entries h hst fun σ _ _ hσ hmade => hnext σ _ _ hσ (.object hmade.ofList)
  | .named name, _, _, _, _, _, _, _, hnext => .named name hnext
  | .prop name, _, ρ, s, t, next, next', hst, hnext => by
    have hget := hst.props.get? name
    rw [action, action]
    generalize Entries.get? name s.props = a, Entries.get? name t.props = b at hget
    cases hget with
    | none => exact hnext ρ _ _ (List.prefix_refl ρ) .undefined
    | some hxy => exact hnext ρ _ _ (List.prefix_refl ρ) hxy
  | .props, _, ρ, _, _, _, _, hst, hnext => hnext ρ _ _ (List.prefix_refl ρ) (.object hst.props)
  | .children, _, ρ, _, _, _, _, hst, hnext => hnext ρ _ _ (List.prefix_refl ρ) (.list hst.children)
  | .failure message, _, _, _, _, _, _, _, _ => .fail (.componentError message)
  | .element type entries members raw, h, _, _, _, _, _, hst, hnext => by
    refine action_twin type h.1 hst fun σ tag tag' hσ htag => ?_
    refine entryActions_twin entries h.2.1 (hst.mono hσ) fun τ made made' hτ hmade => ?_
    refine actions_twin members h.2.2 (hst.mono (hσ.trans hτ)) fun τ' xs ys hτ' hxs => ?_
    rw [htag.toElementType]
    exact .element (hmade.mono hτ').ofList hxs fun τ'' _ _ hτ'' =>
      hnext τ'' _ _ (hσ.trans (hτ.trans (hτ'.trans hτ'')))
  | .ofMap map, h, _, _, _, _, _, hst, hnext => by
    refine action_twin map h hst fun σ made made' hσ hmade => ?_
    have hnext' := fun τ x y hτ => hnext τ x y (hσ.trans hτ)
    cases hmade with
    | object hentries => exact ofEntries_twin hentries hnext'
    | _ => exact ofEntries_twin .nil hnext'
  | .checked statics recipes, h, _, _, _, _, _, hst, hnext =>
    actions_twin recipes h hst fun _ _ _ hσ hxs => Checked.template_twin statics hxs
      fun τ _ _ hτ => hnext τ _ _ (hσ.trans hτ)
  | .template statics recipes, h, _, _, _, _, _, hst, hnext =>
    actions_twin recipes h hst fun _ _ _ hσ hxs => .template statics hxs
      fun τ _ _ hτ => hnext τ _ _ (hσ.trans hτ)
  | .markup text, _, _, _, _, _, _, _, hnext => markup_twin text hnext
  | .markupParts parts recipes, h, _, _, _, _, _, hst, hnext =>
    actions_twin recipes h hst fun _ _ _ hσ hxs => by
      rw [joined_twin parts hxs]
      exact markup_twin _ fun τ _ _ hτ => hnext τ _ _ (hσ.trans hτ)
  | .ready body, h, _, _, _, _, _, hst, hnext =>
    action_twin body h hst fun _ _ _ hσ hxy => .pending (.give hxy)
      fun τ _ _ hτ => hnext τ _ _ (hσ.trans hτ)
  | .pending label delay body, h, _, _, _, _, _, hst, hnext =>
    .pending (action_twin body h hst fun _ _ _ _ hxy => .give hxy) hnext
  | .iterator label recipes, h, _, _, _, _, _, hst, hnext =>
    actions_twin recipes h hst fun _ _ _ hσ hxs => .sequence (sequence_twin hxs 0)
      fun τ _ _ hτ => hnext τ _ _ (hσ.trans hτ)
  | .stream label delay recipes, h, _, _, _, _, _, hst, hnext =>
    actions_twin recipes h hst fun _ _ _ hσ hxs => .sequence (sequence_twin hxs delay)
      fun τ _ _ hτ => hnext τ _ _ (hσ.trans hτ)
  | .component name label body, h, _, _, _, _, _, _, hnext =>
    .component (fun _ _ _ _ _ _ hprops hchildren => action_twin body h ⟨hprops, hchildren⟩
      fun _ _ _ _ hxy => .give hxy) hnext
  | .asynchronous name label delay body, h, _, _, _, _, _, _, hnext =>
    .component (fun _ _ _ _ _ _ hprops hchildren => .pending
      (action_twin body h ⟨hprops, hchildren⟩ fun _ _ _ _ hxy => .give hxy)
        fun _ _ _ _ hxy => .give hxy) hnext

theorem actions_twin : ∀ (recipes : List Recipe), AreWritten recipes → ∀ {ρ : Renaming} {s t : Scope}
    {next next' : List Value → Action}, Scope.Twin ρ s t →
      (∀ σ xs ys, ρ <+: σ → List.Forall₂ (Value.Twin σ) xs ys → Action.Twin σ (next xs) (next' ys)) →
        Action.Twin ρ (actions recipes s next) (actions recipes t next')
  | [], _, ρ, _, _, _, _, _, hnext => hnext ρ _ _ (List.prefix_refl ρ) .nil
  | recipe :: rest, h, _, _, _, _, _, hst, hnext =>
    action_twin recipe h.1 hst fun _ _ _ hσ hxy => actions_twin rest h.2 (hst.mono hσ)
      fun τ _ _ hτ hmore => hnext τ _ _ (hσ.trans hτ) (.cons (hxy.mono hτ) hmore)

theorem entryActions_twin : ∀ (entries : List (String × Recipe)), EntriesAreWritten entries →
    ∀ {ρ : Renaming} {s t : Scope} {next next' : List (String × Value) → Action}, Scope.Twin ρ s t →
      (∀ σ xs ys, ρ <+: σ → Entries.Twin σ xs ys → Action.Twin σ (next xs) (next' ys)) →
        Action.Twin ρ (entryActions entries s next) (entryActions entries t next')
  | [], _, ρ, _, _, _, _, _, hnext => hnext ρ _ _ (List.prefix_refl ρ) .nil
  | (_, recipe) :: rest, h, _, _, _, _, _, hst, hnext =>
    action_twin recipe h.1 hst fun _ _ _ hσ hxy => entryActions_twin rest h.2 (hst.mono hσ)
      fun τ _ _ hτ hmore => hnext τ _ _ (hσ.trans hτ) (.cons (hxy.mono hτ) hmore)

end

end Recipe

/-! ## Uniform worlds -/

namespace World

/-- No code in the world looks at numbers and stamps, or refers to pending values that are not there. -/
def Uniform (w : World) : Prop := Twin (.range w.pendings.size) w w

/-- The value refers to no pending values but those there are. -/
def Has (w : World) (x : Value) : Prop := Value.Twin (.range w.pendings.size) x x

variable {w : World}

/-- A world is its own twin in one way only. -/
theorem Twin.eq_range (h : Twin ρ w w) : ρ = List.range w.pendings.size := by
  have hsubset : ρ ⊆ List.range w.pendings.size := fun q hq => List.mem_range.mpr (h.below q hq)
  have hnodup : ρ.Nodup := h.sorted.imp Nat.ne_of_lt
  have hperm := (List.subperm_of_subset hnodup hsubset).perm_of_length_le
    (Nat.le_of_eq (List.length_range.trans h.length.symm))
  refine List.Perm.eq_of_pairwise (fun _ _ _ _ hlt hgt => ?_) h.sorted List.pairwise_lt_range hperm
  exact absurd hlt (Nat.lt_asymm hgt)

theorem uniform_empty : World.Uniform {} where
  names := .nil
  components _ := .none
  sequences _ := .none
  workshop := ⟨.nil, rfl, rfl, rfl, fun _ hb => Option.some.inj hb ▸ rfl⟩
  length := rfl
  sorted := .nil
  below := nofun
  jobs := nofun
  outcomes := nofun
  order := nofun
  own := nofun

/-- Code that is its own twin leaves a uniform world, which has what it came to. -/
theorem Uniform.run (h : w.Uniform) {a : Action} (ha : Action.Twin (.range w.pendings.size) a a) :
    (a.run w).2.Uniform ∧ ∀ x, (a.run w).1 = .ok x → (a.run w).2.Has x := by
  obtain ⟨σ, -, ho, hend⟩ := ha.run h
  have hσ := hend.eq_range
  subst hσ
  refine ⟨hend, fun x hx => ?_⟩
  rw [hx] at ho
  cases ho with
  | ok hxx => exact hxx

/-- What a recipe makes in a uniform world is there, and the world stays uniform. -/
theorem Uniform.make (h : w.Uniform) {recipe : Recipe} (hrecipe : recipe.IsWritten) :
    (w.make recipe).2.Uniform ∧ ∀ x, (w.make recipe).1 = .ok x → (w.make recipe).2.Has x :=
  h.run (recipe.action_twin hrecipe ⟨.nil, .nil⟩ fun _ _ _ _ hxy => .give hxy)

theorem Uniform.name (h : w.Uniform) (name : String) {x : Value} (hx : w.Has x) :
    (w.name name x).Uniform :=
  { h with names := h.names.put name hx }

/-- Worlds in which recipes were given names are uniform. -/
theorem Uniform.define (h : w.Uniform) {recipes : List (String × Recipe)}
    (hrecipes : Recipe.EntriesAreWritten recipes) : (w.define recipes).2.Uniform := by
  induction recipes generalizing w with
  | nil => exact h
  | cons entry rest ih =>
    obtain ⟨name, recipe⟩ := entry
    obtain ⟨hmade, hhas⟩ := h.make hrecipes.1
    rw [World.define]
    split
    · rename_i error v hrun
      rw [hrun] at hmade
      exact hmade
    · rename_i x v hrun
      rw [hrun] at hmade hhas
      exact ih (hmade.name name (hhas x rfl)) hrecipes.2

end World

end TaggedMarkup
