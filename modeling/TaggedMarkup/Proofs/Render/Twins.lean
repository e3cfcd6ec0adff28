import TaggedMarkup.Proofs.Render.Visits

/-!
# Twins are visited alike

What the reference traversal does with a value it does with its twin in a twin world: the same fragments
come out, and what is left are twins again. Each rule is followed on both sides at once (`Visit.Mirrors`);
how long a pending value takes, and what is written down on the way, does not matter.
-/

namespace TaggedMarkup

variable {ρ σ τ : Renaming}

/-! ## Checking -/

/-- Checking twins does the same. -/
theorem Checked.root_twin {x y : Value} (hxy : Value.Twin ρ x y) {next next' : Value → Action}
    (hnext : ∀ σ x y, ρ <+: σ → Value.Twin σ x y → Action.Twin σ (next x) (next' y)) :
    Action.Twin ρ (root x next) (root y next') := by
  have hsame := fun x y => hnext ρ x y (List.prefix_refl ρ)
  cases hxy with
  | undefined | null => exact hsame _ _ (.str "")
  | bool b =>
    cases b with
    | true => exact .fail _
    | false => exact hsame _ _ (.str "")
  | number d => exact hsame _ _ (.str d.text)
  | str s => exact hsame _ _ (.str s)
  | list | sequence | component => exact .fail _
  | pending hpq => exact .checking hpq hnext
  | element htype hraw hprops hchildren =>
    rw [root, root, element, element, ← htype, ← Value.Twin.any_isList hchildren, ← hraw]
    split
    · split
      · exact .element hprops (Value.Twin.splice hchildren) hnext
      · exact hsame _ _ (.element htype hraw hprops hchildren)
    · exact .fail _
  | object hentries =>
    cases hentries.ofEntries 0 0 with
    | element htype hraw hprops hchildren =>
      rw [root, root, entries, entries, ← htype, ← hraw]
      split
      · exact .element hprops (Value.Twin.splice hchildren) hnext
      · exact .fail _

theorem World.checkedBody_twin {o o' : Outcome} (h : Outcome.Twin ρ o o') :
    Action.Twin ρ (checkedBody o) (checkedBody o') := by
  cases h with
  | ok hxy => exact Checked.root_twin hxy fun _ _ _ _ hxy => .give hxy
  | error error => exact .fail error

namespace World

variable {u v w : World}

/-! ## Outcomes -/

namespace Twin

variable {p q : Nat}

/-- Twins end with twins. -/
theorem settle (h : Twin ρ w v) (hpq : ρ[p]? = some q) (hopen : v.peek q = none) {o o' : Outcome}
    (ho : Outcome.Twin ρ o o') :
    Twin ρ (w.modifyPending p fun cell => { cell with stage := .done o })
      (v.modifyPending q fun cell => { cell with stage := .done o' }) := by
  obtain ⟨hp, hq⟩ := h.lt_size hpq
  have hlasts := Lasts.setStage q (.done o') v
  exact { h with
    length := h.length.trans Array.size_modify.symm
    below := fun n hn => Nat.lt_of_lt_of_le (h.below n hn) hlasts.size
    jobs := fun {p' q'} hpq' => by
      rw [job?_setStage, job?_setStage]
      exact h.jobs hpq'
    outcomes := fun {p' q'} hpq' => by
      rw [peek_done hp, peek_done hq]
      by_cases heq : p' = p
      · subst heq
        rw [hpq, Option.some.injEq] at hpq'
        rw [if_pos rfl, if_pos hpq'.symm]
        exact .some ho
      · have hne : q' ≠ q := fun hsame => heq (h.inj (hsame ▸ hpq') hpq)
        rw [if_neg heq, if_neg hne]
        exact h.outcomes hpq'
    order := fun pending source hjob => h.order ((job?_setStage ..).symm.trans hjob)
    own := fun {n source answer} hn hjob hpeek => by
      have hne : n ≠ q := fun hsame => hn (hsame ▸ List.mem_of_getElem? hpq)
      rw [job?_setStage] at hjob
      rw [peek_done hq, if_neg hne] at hpeek
      obtain ⟨outcome, houtcome, hanswers⟩ := h.own hn hjob hpeek
      have hsource : source ≠ q := fun hsame => by
        rw [hsame, hopen] at houtcome
        cases houtcome
      refine ⟨outcome, ?_, hanswers.imp fun hxy => hxy.onward (.of_lasts hlasts)⟩
      rw [peek_done hq, if_neg hsource, houtcome] }

/-- A checked form that is no twin ends with the answer to what it checks. -/
theorem settleOwn (h : Twin ρ w v) (hq : q ∉ ρ) {source : Nat}
    (hjob : v.job? q = some (.checking source)) (hopen : v.peek q = none) {outcome answer : Outcome}
    (houtcome : v.peek source = some outcome)
    (hanswers : Checked.Answers (v.IsOwnForm ρ) outcome answer) :
    Twin ρ w (v.modifyPending q fun cell => { cell with stage := .done answer }) := by
  have hsize := lt_size_of_job? hjob
  have hlasts := Lasts.setStage q (.done answer) v
  have hkept : ∀ {n : Nat} {o : Outcome}, v.peek n = some o →
      (v.modifyPending q fun cell => { cell with stage := .done answer }).peek n = some o := by
    intro n o hpeek
    have hne : n ≠ q := fun hsame => by
      rw [hsame, hopen] at hpeek
      cases hpeek
    rw [peek_done hsize, if_neg hne, hpeek]
  exact { h with
    below := fun n hn => Nat.lt_of_lt_of_le (h.below n hn) hlasts.size
    jobs := fun {p' q'} hpq' => by
      rw [job?_setStage]
      exact h.jobs hpq'
    outcomes := fun {p' q'} hpq' => by
      have hne : q' ≠ q := fun hsame => hq (hsame ▸ List.mem_of_getElem? hpq')
      rw [peek_done hsize, if_neg hne]
      exact h.outcomes hpq'
    order := fun pending source hjob => h.order ((job?_setStage ..).symm.trans hjob)
    own := fun {n source' given} hn hjob' hpeek => by
      rw [job?_setStage] at hjob'
      rw [peek_done hsize] at hpeek
      have hthere : ∃ outcome, v.peek source' = some outcome ∧
          Checked.Answers (v.IsOwnForm ρ) outcome given := by
        split at hpeek
        · rename_i hsame
          rw [hsame, hjob] at hjob'
          cases hjob'
          cases hpeek
          exact ⟨outcome, houtcome, hanswers⟩
        · exact h.own hn hjob' hpeek
      obtain ⟨o, ho, hgiven⟩ := hthere
      exact ⟨o, hkept ho, hgiven.imp fun hxy => hxy.onward (.of_lasts hlasts)⟩ }

/-- Twins that run twin code end with twins. -/
theorem finish (h : Twin ρ w v) (hpq : ρ[p]? = some q) (hopen : v.peek q = none) {a b : Action}
    (hbody : Action.Twin ρ a b) (label label' : Option String) :
    ∃ σ, Onward ρ v σ (v.finish q label' b).2 ∧
      Outcome.Twin σ (w.finish p label a).1 (v.finish q label' b).1 ∧
        Twin σ (w.finish p label a).2 (v.finish q label' b).2 := by
  have hnoted := Same.note (.finished q label') v
  obtain ⟨σ, hon, ho, hend⟩ := hbody.run (h.congr (.note (.finished p label) w) hnoted)
  have hopen' : (b.run (v.note (.finished q label'))).2.peek q = none :=
    (Grown.run b _).peek q |>.trans hopen
  refine ⟨σ, ?_, ho, hend.settle (Renaming.grow hon.pre hpq) hopen' ho⟩
  exact (Onward.of_lasts hnoted.grown.toLasts).trans (hon.trans (.of_lasts (.setStage ..)))

end Twin

/-- What comes of a pending value comes of its twin, as a twin. -/
theorem Twin.outcome {p q : Nat} (h : Twin ρ w v) (hpq : ρ[p]? = some q) {depth depth' : Nat}
    (hdepth : p < depth) {o' : Outcome} {v' : World} (ho : v.outcome depth' q = some (o', v')) :
    ∃ σ o w', w.outcome depth p = some (o, w') ∧ Onward ρ v σ v' ∧ Outcome.Twin σ o o' ∧
      Twin σ w' v' := by
  induction depth generalizing ρ p q depth' w v o' v' with
  | zero => cases hdepth
  | succ depth ih =>
    cases depth' with
    | zero => cases ho
    | succ depth' =>
      have houtcomes := h.outcomes hpq
      cases hpeek : w.peek p with
      | some o =>
        rw [hpeek] at houtcomes
        cases hpeek' : v.peek q with
        | none =>
          rw [hpeek'] at houtcomes
          cases houtcomes
        | some answer =>
          rw [hpeek'] at houtcomes
          cases houtcomes with
          | some htwin =>
            rw [outcome_done hpeek'] at ho
            cases ho
            exact ⟨ρ, o, w, outcome_done hpeek depth, .refl .., htwin, h⟩
      | none =>
        have hopen' : v.peek q = none := by
          rw [hpeek] at houtcomes
          cases hpeek' : v.peek q with
          | none => rfl
          | some answer =>
            rw [hpeek'] at houtcomes
            cases houtcomes
        have hjobs := h.jobs hpq
        obtain ⟨hp, hq⟩ := h.lt_size hpq
        have hjob : w.job? p = some w.pendings[p].job :=
          job?_of_getElem? (Array.getElem?_eq_getElem hp)
        have hjob' : v.job? q = some v.pendings[q].job :=
          job?_of_getElem? (Array.getElem?_eq_getElem hq)
        rw [hjob, hjob'] at hjobs
        generalize w.pendings[p].job = job, v.pendings[q].job = job' at hjob hjob' hjobs
        cases hjobs with
        | some hjobs =>
          cases hjobs with
          | after hbody =>
            obtain ⟨u, label, hu, hrun⟩ := outcome_after hjob hpeek depth
            obtain ⟨u', label', hu', hrun'⟩ := outcome_after hjob' hopen' depth'
            rw [hrun'] at ho
            cases ho
            obtain ⟨σ, hon, htwin, hend⟩ := (h.congr hu hu').finish hpq
              ((hu'.peek q).trans hopen') hbody label label'
            exact ⟨σ, _, _, hrun, (Onward.of_lasts hu'.grown.toLasts).trans hon, htwin, hend⟩
          | @checking source source' hsource =>
            have hlt' := h.order hjob'
            have hlt := (h.lt_iff hsource hpq).mpr hlt'
            obtain ⟨u, label, hu, hrun⟩ := outcome_checking hjob hpeek depth
            obtain ⟨u', label', hu', hrun'⟩ := outcome_checking hjob' hopen' depth'
            rw [if_pos hlt] at hrun
            rw [hrun', if_pos hlt'] at ho
            obtain ⟨⟨answer, v₁⟩, hanswer, hfinish⟩ := Option.map_eq_some_iff.mp ho
            cases hfinish
            obtain ⟨σ, o, w₁, hrun₁, hon, htwin, hends⟩ := ih (h.congr hu hu') hsource
              (Nat.lt_of_lt_of_le hlt (Nat.le_of_lt_succ hdepth)) hanswer
            have hopen₁ : v₁.peek q = none :=
              ((awaited_outcome hanswer).passed.later hlt').trans ((hu'.peek q).trans hopen')
            obtain ⟨τ, hon', htwin', hend⟩ := hends.finish (Renaming.grow hon.pre hpq) hopen₁
              (checkedBody_twin htwin) label label'
            refine ⟨τ, _, _, ?_, (Onward.of_lasts hu'.grown.toLasts).trans (hon.trans hon'), htwin', hend⟩
            rw [hrun, hrun₁, Option.map_some]

theorem Twin.callComponent (h : Twin ρ w v) (c : Component) {props props' : Props}
    {children children' : List Value} (hprops : Entries.Twin ρ props props')
    (hchildren : List.Forall₂ (Value.Twin ρ) children children') :
    ∃ σ, Onward ρ v σ (v.callComponent c props' children').2 ∧
      Outcome.Twin σ (w.callComponent c props children).1 (v.callComponent c props' children').1 ∧
        Twin σ (w.callComponent c props children).2 (v.callComponent c props' children').2 := by
  have hcells := h.components c.cell
  unfold World.callComponent
  generalize w.components[c.cell]? = a, v.components[c.cell]? = b at hcells
  cases hcells with
  | none => exact ⟨ρ, .refl .., .ok .undefined, h⟩
  | @some d d' hbody =>
    have hnoted := Same.note (.called c.cell d'.label) v
    obtain ⟨σ, hon, ho, hend⟩ := (hbody ρ _ _ _ _ (List.prefix_refl ρ) hprops hchildren).run
      (h.congr (.note (.called c.cell d.label) w) hnoted)
    exact ⟨σ, (Onward.of_lasts hnoted.grown.toLasts).trans hon, ho, hend⟩

/-- What is taken of a sequence: twins, or nothing on both sides. -/
def TakenTwin (ρ : Renaming) (a b : Option (Option String × List (Nat × Value))) : Prop :=
  Option.Rel (fun s t => List.Forall₂ (fun a b => Value.Twin ρ a.2 b.2) s.2 t.2) a b

/-- Somebody has taken the sequence. -/
def taking (cell : Nat) (w : World) : World :=
  { w with sequences := w.sequences.modify cell fun s => { s with taken := true } }

theorem Twin.take (h : Twin ρ w v) (cell : Nat) :
    TakenTwin ρ (Visit.take cell w).1 (Visit.take cell v).1 ∧
      Lasts v (Visit.take cell v).2 ∧ Twin ρ (Visit.take cell w).2 (Visit.take cell v).2 := by
  have hcells := h.sequences cell
  unfold Visit.take
  generalize hc : w.sequences[cell]? = c, hd : v.sequences[cell]? = d at hcells
  cases hcells with
  | none => exact ⟨.none, .refl v, h⟩
  | @some c d hcd =>
    dsimp only
    rw [hcd.taken]
    split
    · exact ⟨.none, .refl v, h⟩
    · have hgrown : Grown v (v.taking cell) := .of_pendings rfl
      refine ⟨.some hcd.members, hgrown.toLasts, ?_⟩
      have hsame : ∀ c d, SequenceCell.Twin ρ c d →
          SequenceCell.Twin ρ { c with taken := true } { d with taken := true } :=
        fun _ _ hab => ⟨hab.members, rfl⟩
      exact { h with sequences := rel_modify h.sequences hsame cell }

end World

/-! ## Visits on both sides -/

theorem Entries.Twin.forall₂ {entries entries' : Props} (h : Entries.Twin ρ entries entries') :
    List.Forall₂ (fun a b => a.1 = b.1 ∧ Value.Twin ρ a.2 b.2) entries entries' := by
  induction entries generalizing entries' with
  | nil =>
    cases h
    exact .nil
  | cons entry rest ih =>
    cases h with
    | cons hxy hrest => exact .cons ⟨rfl, hxy⟩ (ih hrest)

namespace Visit

variable {α β γ δ : Type}

/-- Whenever the second visit gets through in a world, so does the first one in a twin world, with the same
texts; what they come to is related, and what is left are twins again. -/
def Mirrors (R : Renaming → α → β → Prop) (ρ : Renaming) (m : Visit α) (m' : Visit β) : Prop :=
  ∀ ⦃w v : World⦄, World.Twin ρ w v → ∀ ⦃out' : List Fragment⦄ ⦃b : β⦄ ⦃v' : World⦄,
    m' v = some (out', .ok b, v') → ∃ σ out a w', m w = some (out, .ok a, w') ∧
      out.map (·.text) = out'.map (·.text) ∧ World.Onward ρ v σ v' ∧ R σ a b ∧ World.Twin σ w' v'

/-- The same, of visits that come to nothing. -/
abbrev Alike (ρ : Renaming) (m m' : Visit Unit) : Prop := Mirrors (fun _ _ _ => True) ρ m m'

namespace Mirrors

variable {R : Renaming → α → β → Prop} {S : Renaming → γ → δ → Prop} {m : Visit α} {m' : Visit β}

theorem bind {f : α → Visit γ} {f' : β → Visit δ} (h : Mirrors R ρ m m')
    (hf : ∀ σ a b, ρ <+: σ → R σ a b → Mirrors S σ (f a) (f' b)) :
    Mirrors S ρ (m >>= f) (m' >>= f') := by
  intro w v hwv out' b v' hvisit
  obtain ⟨a', first', second', u', hfirst, hsecond, rfl⟩ := andThen_through hvisit
  obtain ⟨σ, first, a, u, hrun, htexts, hon, ha, hu⟩ := h hwv hfirst
  obtain ⟨τ, second, c, w', hrun', htexts', hon', hc, hw'⟩ := hf σ a a' hon.pre ha hu hsecond
  refine ⟨τ, _, c, w', andThen_eq hrun hrun', ?_, hon.trans hon', hc, hw'⟩
  rw [List.map_append, List.map_append, htexts, htexts']

theorem done {a : α} {b : β} (h : R ρ a b) : Mirrors R ρ (Visit.done a) (Visit.done b) := by
  intro w v hwv out' b v' hvisit
  cases hvisit
  exact ⟨ρ, [], a, w, rfl, rfl, .refl .., h, hwv⟩

theorem fail (m : Visit α) (error : Error) : Mirrors R ρ m (Visit.fail error) := by
  intro w v hwv out' b v' hvisit
  cases hvisit

theorem never (m : Visit α) : Mirrors R ρ m Visit.never := by
  intro w v hwv out' b v' hvisit
  cases hvisit

theorem emit (text : String) : Alike ρ (Visit.emit text) (Visit.emit text) := by
  intro w v hwv out' b v' hvisit
  cases hvisit
  exact ⟨ρ, _, (), w, rfl, rfl, .refl .., trivial, hwv⟩

theorem act {f : World → α × World} {f' : World → β × World}
    (h : ∀ w v, World.Twin ρ w v → ∃ σ, World.Onward ρ v σ (f' v).2 ∧ R σ (f w).1 (f' v).1 ∧
      World.Twin σ (f w).2 (f' v).2) : Mirrors R ρ (Visit.act f) (Visit.act f') := by
  intro w v hwv out' b v' hvisit
  cases hvisit
  obtain ⟨σ, hon, hab, hend⟩ := h w v hwv
  exact ⟨σ, [], _, _, rfl, rfl, hon, hab, hend⟩

/-- Whatever is written down, and how time passes, does not matter. -/
theorem aside {f f' : World → World} (h : ∀ w, World.Same w (f w)) (h' : ∀ w, World.Same w (f' w)) :
    Alike ρ (Visit.act fun w => ((), f w)) (Visit.act fun w => ((), f' w)) :=
  act fun w v hwv => ⟨ρ, .of_lasts (h' v).grown.toLasts, trivial, hwv.congr (h w) (h' v)⟩

theorem each {visit visit' : α → Visit Unit} {xs ys : List α}
    (h : List.Forall₂ (fun x y => ∀ σ, ρ <+: σ → Alike σ (visit x) (visit' y)) xs ys) :
    Alike ρ (Visit.each visit xs) (Visit.each visit' ys) := by
  suffices hall : ∀ σ, ρ <+: σ → Alike σ (Visit.each visit xs) (Visit.each visit' ys) from
    hall ρ (List.prefix_refl ρ)
  induction h with
  | nil => exact fun _ _ => done trivial
  | cons hxy _ ih => exact fun σ hσ => bind (hxy σ hσ) fun τ _ _ hτ _ => ih τ (hσ.trans hτ)

theorem eachTwin {visit visit' : Value → Visit Unit} {xs ys : List Value}
    (h : ∀ σ x y, ρ <+: σ → Value.Twin σ x y → Alike σ (visit x) (visit' y))
    (hxs : List.Forall₂ (Value.Twin ρ) xs ys) :
    Alike ρ (Visit.each visit xs) (Visit.each visit' ys) :=
  each (hxs.imp fun _ _ hxy σ hσ => h σ _ _ hσ (hxy.mono hσ))

theorem ofOutcome {o o' : Outcome} (h : Outcome.Twin ρ o o') :
    Mirrors Value.Twin ρ (Visit.ofOutcome o) (Visit.ofOutcome o') := by
  cases h with
  | ok hxy => exact done hxy
  | error error => exact fail _ error

theorem awaited {p q : Nat} (hpq : ρ[p]? = some q) :
    Mirrors Value.Twin ρ (Visit.awaited p) (Visit.awaited q) := by
  intro w v hwv out' b v' hvisit
  unfold Visit.awaited at hvisit ⊢
  cases ho : v.outcome (q + 1) q with
  | none =>
    rw [ho] at hvisit
    cases hvisit
  | some r =>
    obtain ⟨o', v₁⟩ := r
    obtain ⟨σ, o, w₁, hrun, hon, htwin, hend⟩ := hwv.outcome hpq (Nat.lt_succ_self p) ho
    rw [ho] at hvisit
    rw [hrun]
    obtain ⟨τ, out, a, w', hrun', htexts, hon', hab, hend'⟩ := ofOutcome htwin hend hvisit
    exact ⟨τ, out, a, w', hrun', htexts, hon.trans hon', hab, hend'⟩

/-! ## The rules on both sides -/

theorem prop (name : String) {x y : Value} (hxy : Value.Twin ρ x y) :
    Alike ρ (Visit.prop name x) (Visit.prop name y) := by
  unfold Visit.prop
  rw [hxy.isSkipped, hxy.attributeText?, hxy.typeName]
  split
  · exact done trivial
  · split
    · exact fail _ _
    · split
      · exact emit _
      · exact aside (World.Same.note _) (World.Same.note _)

theorem props {entries entries' : Props} (h : Entries.Twin ρ entries entries') :
    Alike ρ (Visit.each (fun p => Visit.prop p.1 p.2) entries)
      (Visit.each (fun p => Visit.prop p.1 p.2) entries') :=
  each (h.forall₂.imp fun a _ hab _ hσ => hab.1 ▸ prop a.1 (hab.2.mono hσ))

theorem markup {x y : Value} (hxy : Value.Twin ρ x y) : Alike ρ (Visit.markup x) (Visit.markup y) := by
  cases hxy with
  | str s => exact emit s
  | _ => exact fail _ _

theorem called {visit visit' : Value → Visit Unit}
    (h : ∀ σ x y, ρ <+: σ → Value.Twin σ x y → Alike σ (visit x) (visit' y)) (raw : Bool) {x y : Value}
    (hxy : Value.Twin ρ x y) : Alike ρ (Visit.called visit raw x) (Visit.called visit' raw y) := by
  unfold Visit.called
  split
  · cases hxy with
    | pending hpq => exact bind (awaited hpq) fun σ _ _ _ hab => markup hab
    | undefined | null | bool | number | str | list | sequence | element | component | object =>
      exact markup (by constructor <;> assumption)
  · exact h ρ x y (List.prefix_refl ρ) hxy

section

variable {visit visit' : Value → Visit Unit}

/-- The rule for a tag, its children apart. -/
theorem tag (name : String) {e f : Element} (hprops : Entries.Twin ρ e.props f.props)
    (hchildren : ∀ σ, ρ <+: σ → Alike σ (Visit.each visit e.children) (Visit.each visit' f.children)) :
    Alike ρ (Visit.tag visit name e) (Visit.tag visit' name f) := by
  unfold Visit.tag
  split
  · exact (emit _).bind fun σ _ _ hσ _ => (props (hprops.mono hσ)).bind
      fun τ _ _ hτ _ => emit _
  · split
    · exact (emit _).bind fun σ _ _ hσ _ => (props (hprops.mono hσ)).bind
        fun τ _ _ hτ _ => (emit _).bind fun τ' _ _ hτ' _ =>
          (hchildren τ' (hσ.trans (hτ.trans hτ'))).bind fun _ _ _ _ _ => emit _
    · exact fail _ _

variable (h : ∀ σ x y, ρ <+: σ → Value.Twin σ x y → Alike σ (visit x) (visit' y))
include h

theorem component (c : Component) {e f : Element} (hraw : e.raw = f.raw)
    (hprops : Entries.Twin ρ e.props f.props)
    (hchildren : List.Forall₂ (Value.Twin ρ) e.children f.children) :
    Alike ρ (Visit.component visit c e) (Visit.component visit' c f) := by
  have hcall : Mirrors Outcome.Twin ρ (Visit.act (World.callComponent c e.props e.children))
      (Visit.act (World.callComponent c f.props f.children)) :=
    .act fun w v hwv => hwv.callComponent c hprops hchildren
  refine hcall.bind fun σ _ _ hσ ho => (ofOutcome ho).bind fun τ _ _ hτ hxy => ?_
  rw [hraw]
  exact .called (fun τ' x y hτ' => h τ' x y (hσ.trans (hτ.trans hτ'))) _ hxy

theorem element {e f : Element} (hef : Value.Twin ρ (.element e) (.element f)) :
    Alike ρ (Visit.element visit e) (Visit.element visit' f) := by
  cases hef with
  | element htype hraw hprops hchildren =>
    unfold Visit.element
    rw [htype]
    split
    · exact fail _ _
    · exact eachTwin h hchildren
    · exact .tag _ hprops fun σ hσ => eachTwin (fun τ x y hτ => h τ x y (hσ.trans hτ))
        (Value.Twin.monoAll hσ hchildren)
    · exact .component h _ hraw hprops hchildren
    · exact fail _ _

theorem drawn (sequence : Nat) (label label' : Option String)
    {members members' : List (Nat × Value)}
    (hmembers : List.Forall₂ (fun a b => Value.Twin ρ a.2 b.2) members members') (index : Nat) :
    Alike ρ (Visit.drawn visit sequence label index members)
      (Visit.drawn visit' sequence label' index members') := by
  suffices hall : ∀ σ, ρ <+: σ → ∀ index, Alike σ (Visit.drawn visit sequence label index members)
      (Visit.drawn visit' sequence label' index members') from hall ρ (List.prefix_refl ρ) index
  induction hmembers with
  | nil => exact fun _ _ _ => done trivial
  | @cons a b _ _ hxy _ ih =>
    intro σ hσ index
    have hslept : Alike σ (Visit.act fun w => ((), w.sleepUntil (w.clock + a.1)))
        (Visit.act fun w => ((), w.sleepUntil (w.clock + b.1))) :=
      aside (fun w => .sleepUntil _ w) fun w => .sleepUntil _ w
    have hnoted : ∀ τ, Alike τ (Visit.note (.drawn sequence label index))
        (Visit.note (.drawn sequence label' index)) :=
      fun τ => aside (World.Same.note _) (World.Same.note _)
    exact hslept.bind fun τ _ _ hτ _ => (hnoted τ).bind fun τ' _ _ hτ' _ =>
      (h τ' _ _ (hσ.trans (hτ.trans hτ')) (hxy.mono (hσ.trans (hτ.trans hτ')))).bind
        fun τ'' _ _ hτ'' _ => ih τ'' (hσ.trans (hτ.trans (hτ'.trans hτ''))) (index + 1)

theorem sequence (cell : Nat) : Alike ρ (Visit.sequence visit cell) (Visit.sequence visit' cell) := by
  have htake : Mirrors World.TakenTwin ρ (Visit.act (Visit.take cell)) (Visit.act (Visit.take cell)) :=
    .act fun w v hwv => by
      obtain ⟨htaken, hlasts, hend⟩ := hwv.take cell
      exact ⟨ρ, .of_lasts hlasts, htaken, hend⟩
  refine htake.bind fun σ a b hσ htaken => ?_
  cases htaken with
  | none => exact done trivial
  | some hmembers => exact .drawn (fun τ x y hτ => h τ x y (hσ.trans hτ)) cell _ _ hmembers 0

end

/-- Twins are visited alike. -/
theorem item (fuel : Nat) {x y : Value} (hxy : Value.Twin ρ x y) :
    Alike ρ (Visit.item fuel x) (Visit.item fuel y) := by
  induction fuel generalizing ρ x y with
  | zero => exact never _
  | succ fuel ih =>
    have hitems : ∀ σ x y, ρ <+: σ → Value.Twin σ x y → Alike σ (Visit.item fuel x) (Visit.item fuel y) :=
      fun σ x y _ hxy => ih hxy
    cases hxy with
    | undefined | null | str | number => exact emit _
    | list hmembers => exact eachTwin hitems hmembers
    | sequence cell => exact .sequence hitems cell
    | pending hpq => exact (awaited hpq).bind fun σ _ _ _ hab => ih hab
    | element htype hraw hprops hchildren =>
      exact .element hitems (.element htype hraw hprops hchildren)
    | object hentries =>
      rw [Visit.item, Visit.item, hentries.contains]
      split
      · exact .element hitems (hentries.ofEntries 0 0)
      · exact fail _ _
    | bool | component => exact fail _ _

end Mirrors

end Visit

end TaggedMarkup
