import Mathlib
import TaggedMarkup.Proofs.Host.Uniform
import TaggedMarkup.Proofs.Markup.Characters
import TaggedMarkup.Proofs.Markup.Outline
import TaggedMarkup.Proofs.Render.Through

/-!
# Checking is seamless

A template and its checked form are rendered to the same texts (`Checked.template_seamless`). Both renders
are followed side by side, in twin worlds: where the one with the checked form gets through, so does the other
one. The world of the checked form has pending values of its own besides, the checked forms of others.
Awaiting one of them awaits what it checks, which the other world awaits at once (`World.Twin.awaitOwn`).

What is accepted is visited like its form (`Visit.item_ofForm`): a number is text without any character to be
replaced, members of lists in lists are visited one by one anyway, and a map is read as the same element. Only
`false` is not, for its form is the empty text, and a component that is handed a list is given other children
(`Checked.shows`).
-/

namespace TaggedMarkup

variable {ρ σ τ : Renaming}

namespace World

variable {u v w : World}

/-! ## Checked forms of one's own -/

namespace Twin

/-- The second world makes a checked form of a twin, for itself. -/
theorem newOwn (h : Twin ρ w v) {q : Nat} (hq : q ∈ ρ) :
    Twin ρ w (v.newPending { label := none, job := .checking q }).2 ∧
      (v.newPending { label := none, job := .checking q }).2.IsOwnForm ρ (.pending q)
        (.pending v.pendings.size) := by
  have hgrown := Grown.newPending none (.checking q) v
  have hon := Onward.of_lasts (ρ := ρ) hgrown.toLasts
  have hold : ∀ {n : Nat}, n ≠ v.pendings.size →
      (v.newPending { label := none, job := .checking q }).2.job? n = v.job? n :=
    fun hn => job?_newPending_of_ne none (.checking q) hn
  refine ⟨?_, .pending .., ?_⟩
  · exact { h with
      below := fun n hn => Nat.lt_of_lt_of_le (h.below n hn) hgrown.size
      jobs := fun {p' q'} hpq => by
        rw [hold (Nat.ne_of_lt (h.lt_size hpq).2)]
        exact h.jobs hpq
      outcomes := fun {p' q'} hpq => by
        rw [hgrown.peek]
        exact h.outcomes hpq
      order := inOrder_newPending h.order none fun source hsource => by
        cases hsource
        exact h.below q hq
      own := fun {n source answer} hn hjob hpeek => by
        rw [hgrown.peek] at hpeek
        obtain ⟨job, hthere⟩ := exists_job_of_peek hpeek
        rw [hold (Nat.ne_of_lt (lt_size_of_job? hthere))] at hjob
        obtain ⟨outcome, houtcome, hanswers⟩ := h.own hn hjob hpeek
        exact ⟨outcome, (hgrown.peek source).trans houtcome, hanswers.imp fun hxy => hxy.onward hon⟩ }
  · rintro _ _ ⟨⟩ ⟨⟩
    exact ⟨fun hmem => Nat.lt_irrefl _ (h.below _ hmem), job?_newPending none (.checking q) v⟩

/-- The second world checks a twin, for itself. -/
theorem checkRoot (h : Twin ρ w v) {x x' : Value} (hx : Value.Twin ρ x x') {next : Value → Action}
    {z : Value} {v' : World} (hrun : (Checked.root x' next).run v = (.ok z, v')) :
    ∃ y u, (next y).run u = (.ok z, v') ∧ Grown v u ∧ Twin ρ w u ∧ u.IsOwnForm ρ x' y := by
  cases hroot : Checked.rootError? x' with
  | some error =>
    rw [Checked.root_rejected hroot] at hrun
    cases hrun
  | none =>
    by_cases hpending : ∃ q, x' = .pending q
    · obtain ⟨q, rfl⟩ := hpending
      cases hx with
      | pending hpq =>
        obtain ⟨hmade, hform⟩ := h.newOwn (List.mem_of_getElem? hpq)
        exact ⟨_, _, hrun, .newPending none (.checking q) v, hmade, hform⟩
    · have hnot : ∀ q, x' ≠ .pending q := fun q hq => hpending ⟨q, hq⟩
      obtain ⟨y, u, hy, hsame, hform⟩ := Checked.root_same hroot hnot next v
      exact ⟨y, u, hy.symm.trans hrun, hsame.grown, h.congr (.refl w) hsame, .of_form hform hnot⟩

theorem checkRoots (h : Twin ρ w v) {xs xs' : List Value} (hxs : List.Forall₂ (Value.Twin ρ) xs xs')
    {next : List Value → Action} {z : Value} {v' : World}
    (hrun : (Checked.roots xs' next).run v = (.ok z, v')) :
    ∃ ys u, (next ys).run u = (.ok z, v') ∧ Grown v u ∧ Twin ρ w u ∧
      List.Forall₂ (u.IsOwnForm ρ) xs' ys := by
  induction hxs generalizing next v with
  | nil => exact ⟨[], v, hrun, .refl v, h, .nil⟩
  | cons hx _ ih =>
    obtain ⟨y, u, hrest, hgrown, hu, hy⟩ := h.checkRoot hx hrun
    obtain ⟨ys, u', hend, hgrown', hu', hys⟩ := ih hu hrest
    exact ⟨y :: ys, u', hend, hgrown.trans hgrown', hu',
      .cons (hy.onward (.of_lasts hgrown'.toLasts)) hys⟩

/-- A checked form of the second world's own ends with the checked form of what came of its source. -/
theorem finishOwn (h : Twin ρ w v) {q c : Nat} (hc : c ∉ ρ) (hjob : v.job? c = some (.checking q))
    (hopen : v.peek c = none) {x x' y : Value} (hx : Value.Twin ρ x x')
    (hthere : v.peek q = some (.ok x')) {label : Option String} {v' : World}
    (hfinish : v.finish c label (checkedBody (.ok x')) = (.ok y, v')) :
    Lasts v v' ∧ Twin ρ w v' ∧ v'.IsOwnForm ρ x' y ∧ v'.peek q = some (.ok x') := by
  have hnoted := Same.note (.finished c label) v
  unfold World.finish at hfinish
  cases hrun : (checkedBody (.ok x')).run (v.note (.finished c label)) with
  | mk answer u =>
    rw [hrun] at hfinish
    cases hfinish
    obtain ⟨_, _, hgive, hgrown, hu, hform⟩ := (h.congr (.refl w) hnoted).checkRoot hx hrun
    cases hgive
    have hgrown' := hnoted.grown.trans hgrown
    have hjob' := hgrown'.job? hjob
    have hthere' : u.peek q = some (.ok x') := (hgrown'.peek q).trans hthere
    have hlasts := Lasts.setStage c (.done (.ok y)) u
    have hne : q ≠ c := fun hsame => by
      rw [hsame, hopen] at hthere
      cases hthere
    refine ⟨hgrown'.toLasts.trans hlasts, ?_, hform.onward (.of_lasts hlasts), ?_⟩
    · exact hu.settleOwn hc hjob' ((hgrown'.peek c).trans hopen) hthere' (.accepted hform)
    · exact (peek_modifyPending_of_ne hne _ u).trans hthere'

/-- The second world checks the result of a template, for itself. -/
theorem checkResult (h : Twin ρ w v) {r r' y : Value} (hr : Value.Twin ρ r r') {v' : World}
    (hrun : (Checked.result r' .give).run v = (.ok y, v')) :
    Twin ρ w v' ∧ y.isList = r'.isList ∧ List.Forall₂ (v'.IsOwnForm ρ) r'.roots y.members := by
  have hroot : ∀ {r r' : Value}, Value.Twin ρ r r' →
      (Checked.root r' .give).run v = (.ok y, v') →
        Twin ρ w v' ∧ y.isList = false ∧ List.Forall₂ (v'.IsOwnForm ρ) [r'] y.members := by
    intro r r' hr hrun
    obtain ⟨y', u, hgive, -, hu, hy⟩ := h.checkRoot hr hrun
    cases hgive
    refine ⟨hu, hy.1.not_isList, ?_⟩
    have hnot := hy.1.not_isList
    cases y with
    | list => cases hnot
    | _ => exact .cons hy .nil
  have hsingle := hroot hr
  cases hr with
  | list hmembers =>
    obtain ⟨ys, u, hgive, -, hu, hys⟩ := h.checkRoots (Value.Twin.splice hmembers) hrun
    cases hgive
    exact ⟨hu, rfl, hys⟩
  | _ => exact hsingle hrun

/-- The second world awaits a checked form of its own, the first one what is checked. -/
theorem awaitOwn (h : Twin ρ w v) {p q c : Nat} (hpq : ρ[p]? = some q) (hc : c ∉ ρ)
    (hjob : v.job? c = some (.checking q)) {depth : Nat} {y : Value} {v' : World}
    (ho : v.outcome depth c = some (.ok y, v')) :
    ∃ σ x x' w', w.outcome (p + 1) p = some (.ok x, w') ∧ Onward ρ v σ v' ∧ Value.Twin σ x x' ∧
      Twin σ w' v' ∧ v'.IsOwnForm σ x' y ∧ v'.peek q = some (.ok x') := by
  cases depth with
  | zero => cases ho
  | succ depth =>
    cases hpeek : v.peek c with
    | some answer =>
      rw [outcome_done hpeek] at ho
      cases ho
      obtain ⟨outcome, houtcome, hanswers⟩ := h.own hc hjob hpeek
      cases hanswers with
      | @accepted x' _ hform =>
        have houtcomes := h.outcomes hpq
        rw [houtcome] at houtcomes
        cases hthere : w.peek p with
        | none =>
          rw [hthere] at houtcomes
          cases houtcomes
        | some o =>
          rw [hthere] at houtcomes
          cases houtcomes with
          | some htwin =>
            cases htwin with
            | @ok x _ hx =>
              exact ⟨ρ, x, x', w, outcome_done hthere p, .refl .., hx, h, hform, houtcome⟩
    | none =>
      obtain ⟨u, label, hu, hrun⟩ := outcome_checking hjob hpeek depth
      rw [hrun, if_pos (h.order hjob)] at ho
      obtain ⟨⟨o', v₁⟩, hsource, hfinish⟩ := Option.map_eq_some_iff.mp ho
      obtain ⟨σ, o, w₁, hawait, hon, htwin, hend⟩ :=
        (h.congr (.refl w) hu).outcome hpq (Nat.lt_succ_self p) hsource
      have hon' : Onward ρ v σ v₁ := (Onward.of_lasts hu.grown.toLasts).trans hon
      cases htwin with
      | error error => cases hfinish
      | @ok x x' hx =>
        have hq := (h.lt_size hpq).2
        have hawaited := awaited_outcome hsource
        have hopen : v₁.peek c = none :=
          (hawaited.passed.later (h.order hjob)).trans ((hu.peek c).trans hpeek)
        have hnot : c ∉ σ := fun hmem => (hon'.fresh c hmem).elim hc fun hfresh =>
          absurd (lt_size_of_job? hjob) (Nat.not_lt.mpr hfresh)
        obtain ⟨hlasts, hend', hform, hthere⟩ := hend.finishOwn hnot (hon'.lasts.job? hjob) hopen hx
          (hawaited.there (hu.size ▸ hq)) hfinish
        exact ⟨σ, x, x', w₁, hawait, hon'.trans (.of_lasts hlasts), hx, hend', hform, hthere⟩

end Twin

end World

namespace World

variable {v w : World} {x z : Value}

/-- The value is this one, or a pending value that has come to it, through any depth. -/
inductive ResolvesTo (w : World) : Value → Value → Prop
  | self (x : Value) : ResolvesTo w x x
  | through {p : Nat} {x z : Value} : w.peek p = some (.ok x) → ResolvesTo w x z →
    ResolvesTo w (.pending p) z

theorem ResolvesTo.mono (h : w.ResolvesTo x z) (hwv : w.Remembers v) : v.ResolvesTo x z := by
  induction h with
  | self x => exact .self x
  | through hpeek _ ih => exact .through (hwv hpeek) ih

end World

namespace Checked

/-- The element is a component, and is handed a list among its children. -/
def handsList (e : Element) : Bool :=
  match e.type with
  | .component _ => e.children.any Value.isList
  | _ => false

/-- That the value was checked can show: `false` becomes no text, and a component gets other children. -/
def shows : Value → Bool
  | .bool b => !b
  | .element e => handsList e
  | .object map => handsList (Element.ofEntries 0 map)
  | _ => false

/-- A map that is read as an element of a usable type has a type. -/
theorem contains_of_usable {stamp : Nat} {map : Props}
    (h : hasUsableType (Element.ofEntries stamp map).type = true) :
    Entries.contains "type" map = true := by
  have htype : (Element.ofEntries stamp map).type ≠ .missing := by
    intro hmissing
    rw [hmissing] at h
    cases h
  exact Element.contains_of_type htype

end Checked

/-! ## Items -/

namespace Visit

variable {e f : Element}

theorem Mirrors.below {α β : Type} {R : Renaming → α → β → Prop} {m n : Visit α} {m' : Visit β}
    (h : Mirrors R ρ m m') (hmn : Below m n) : Mirrors R ρ n m' := by
  intro w v hwv out' b v' hvisit
  obtain ⟨σ, out, a, w', hrun, hend⟩ := h hwv hvisit
  exact ⟨σ, out, a, w', hmn hrun, hend⟩

/-- Twins are visited alike, also where lists among them were spliced on the second side. -/
theorem Mirrors.eachSpliced (fuel : Nat) {xs ys : List Value} (h : List.Forall₂ (Value.Twin ρ) xs ys) :
    Alike ρ (Visit.each (Visit.item (fuel + 1)) xs) (Visit.each (Visit.item fuel) (Value.splice ys)) :=
  (Mirrors.eachTwin (fun _ _ _ _ => Mirrors.item fuel) (Value.Twin.splice h)).below
    (each_splice fuel xs)

/-- An element is visited like its checked form, if the form does not show. -/
theorem Mirrors.elementForm (fuel stamp : Nat) (hef : Value.Twin ρ (.element e) (.element f))
    (husable : Checked.hasUsableType f.type = true) (hshows : Checked.handsList f = false) :
    Alike ρ (Visit.element (Visit.item (fuel + 1)) e)
      (Visit.element (Visit.item fuel) { f with stamp, children := Value.splice f.children }) := by
  cases hef with
  | element htype hraw hprops hchildren =>
    unfold Visit.element
    dsimp only
    rw [htype]
    cases hf : f.type with
    | missing | invalid typeName =>
      rw [hf] at husable
      cases husable
    | fragment => exact .eachSpliced fuel hchildren
    | tag name =>
      exact .tag name hprops fun σ hσ => .eachSpliced fuel (Value.Twin.monoAll hσ hchildren)
    | component c =>
      rw [Checked.handsList, hf] at hshows
      have hsame := Checked.splice_eq_self (Bool.not_eq_true _ ▸ hshows)
      have hboth : Alike ρ (Visit.component (Visit.item fuel) c e)
          (Visit.component (Visit.item fuel) c
            { f with stamp, children := Value.splice f.children }) :=
        .component (fun _ _ _ _ => Mirrors.item fuel) c hraw hprops (hsame.symm ▸ hchildren)
      exact hboth.below (.component (item_succ fuel) c e)

/-- What is accepted is visited like its checked form, if the form does not show. -/
theorem Mirrors.itemForm (fuel : Nat) {x x' y : Value} (hx : Value.Twin ρ x x')
    (hform : Checked.Form x' y) (hpending : ∀ q, x' ≠ .pending q)
    (hshows : Checked.shows x' = false) :
    Alike ρ (Visit.item (fuel + 1) x) (Visit.item fuel y) := by
  cases fuel with
  | zero => exact .never _
  | succ fuel =>
    cases hform with
    | undefined | null =>
      cases hx
      exact .emit ""
    | false => cases hshows
    | number d =>
      cases hx
      rw [Visit.item, Visit.item, Double.escape_text]
      exact .emit d.text
    | str s =>
      cases hx
      exact .emit _
    | pending q c => exact absurd rfl (hpending q)
    | element stamp husable =>
      cases hx with
      | element htype hraw hprops hchildren =>
        exact .elementForm fuel stamp (.element htype hraw hprops hchildren) husable hshows
    | object stamp husable =>
      cases hx with
      | object hentries =>
        rw [Visit.item, Visit.item, hentries.contains, Checked.contains_of_usable husable, if_pos rfl]
        exact .elementForm fuel stamp (hentries.ofEntries 0 stamp) husable hshows

/-- What a visit that awaits first comes to. -/
theorem through_awaited {c : Nat} {visit : Value → Visit Unit} {v v' : World} {out : List Fragment}
    (hvisit : (awaited c >>= visit) v = some (out, .ok (), v')) :
    ∃ y u, v.outcome (c + 1) c = some (.ok y, u) ∧ visit y u = some (out, .ok (), v') := by
  obtain ⟨o, u, ho⟩ := outcome_of_awaited hvisit
  rw [awaited_bind ho] at hvisit
  cases o with
  | error error => cases hvisit
  | ok y => exact ⟨y, u, ho, (done_bind y visit).symm ▸ hvisit⟩

theorem awaited_eq {p : Nat} {visit : Value → Visit Unit} {w u : World} {x : Value}
    (ho : w.outcome (p + 1) p = some (.ok x, u)) : (awaited p >>= visit) w = visit x u := by
  rw [awaited_bind ho]
  exact congrFun (done_bind x visit) u

/-- What is accepted is visited like its checked form, wherever nothing shows of all it comes to. -/
theorem item_ofForm (fuel : Nat) {w v v' : World} (hwv : World.Twin ρ w v) {x x' y : Value}
    (hx : Value.Twin ρ x x') (hform : v.IsOwnForm ρ x' y) {out' : List Fragment}
    (hvisit : item fuel y v = some (out', .ok (), v'))
    (hshows : ∀ z, v'.ResolvesTo x' z → Checked.shows z = false) :
    ∃ σ out a w', item (fuel + 1) x w = some (out, .ok a, w') ∧
      out.map (·.text) = out'.map (·.text) ∧ World.Onward ρ v σ v' ∧ True ∧ World.Twin σ w' v' := by
  induction fuel generalizing ρ w v x x' y with
  | zero => cases hvisit
  | succ fuel ih =>
    by_cases hpending : ∃ q, x' = .pending q
    · obtain ⟨q, rfl⟩ := hpending
      obtain ⟨hkind, hown⟩ := hform
      cases hkind with
      | pending q c =>
        obtain ⟨hc, hjob⟩ := hown q c rfl rfl
        cases hx with
        | @pending p _ hpq =>
          obtain ⟨y, u, ho, hrest⟩ := through_awaited hvisit
          obtain ⟨σ, x, x', w₁, hawait, hon, hx, hend, hform, hpeek⟩ := hwv.awaitOwn hpq hc hjob ho
          obtain ⟨τ, out, a, w', hrun, htexts, hon', -, hend'⟩ := ih hend hx hform hrest fun z hz =>
            hshows z (.through (Keeps.item fuel y hrest hpeek) hz)
          refine ⟨τ, out, a, w', ?_, htexts, hon.trans hon', trivial, hend'⟩
          rw [item]
          exact (awaited_eq hawait).trans hrun
    · exact Mirrors.itemForm (fuel + 1) hx hform.1 (fun q hq => hpending ⟨q, hq⟩)
        (hshows x' (.self x')) hwv hvisit

/-- So are several, one after the other. -/
theorem each_ofForms (fuel : Nat) {w v v' : World} (hwv : World.Twin ρ w v) {xs xs' ys : List Value}
    (hxs : List.Forall₂ (Value.Twin ρ) xs xs') (hforms : List.Forall₂ (v.IsOwnForm ρ) xs' ys)
    {out' : List Fragment} (hvisit : each (item fuel) ys v = some (out', .ok (), v'))
    (hshows : ∀ x ∈ xs', ∀ z, v'.ResolvesTo x z → Checked.shows z = false) :
    ∃ out w', each (item (fuel + 1)) xs w = some (out, .ok (), w') ∧
      out.map (·.text) = out'.map (·.text) := by
  induction xs generalizing ρ w v xs' ys out' with
  | nil =>
    cases hxs
    cases hforms
    cases hvisit
    exact ⟨[], w, rfl, rfl⟩
  | cons x rest ih =>
    cases hxs with
    | cons hx hrest =>
      cases hforms with
      | cons hy hys =>
        obtain ⟨_, first, second, u, hfirst, hsecond, rfl⟩ := andThen_through hvisit
        obtain ⟨σ, out₁, _, w₁, hrun₁, htexts₁, hon, -, hend⟩ := item_ofForm fuel hwv hx hy hfirst
          fun z hz => hshows _ List.mem_cons_self z
            (hz.mono (Keeps.each (Keeps.item fuel) _ hsecond))
        obtain ⟨out₂, w', hrun₂, htexts₂⟩ := ih hend (Value.Twin.monoAll hon.pre hrest)
          (hys.imp fun _ _ hform => hform.onward hon) hsecond
          fun x hx => hshows x (List.mem_cons_of_mem _ hx)
        refine ⟨_, w', andThen_eq hrun₁ hrun₂, ?_⟩
        rw [List.map_append, List.map_append, htexts₁, htexts₂]

/-- The whole result of a template is visited like its checked form. -/
theorem item_ofResult (fuel : Nat) {w v v' : World} (hwv : World.Twin ρ w v) {r r' y : Value}
    (hr : Value.Twin ρ r r') (hlist : y.isList = r'.isList)
    (hforms : List.Forall₂ (v.IsOwnForm ρ) r'.roots y.members) {out' : List Fragment}
    (hvisit : item fuel y v = some (out', .ok (), v'))
    (hshows : ∀ x ∈ r'.roots, ∀ z, v'.ResolvesTo x z → Checked.shows z = false) :
    ∃ out w', item (fuel + 2) r w = some (out, .ok (), w') ∧
      out.map (·.text) = out'.map (·.text) := by
  by_cases hmembers : ∃ xs', r' = .list xs'
  · obtain ⟨xs', rfl⟩ := hmembers
    cases hr with
    | list hxs =>
      cases y with
      | list ys =>
        cases fuel with
        | zero => cases hvisit
        | succ fuel =>
          obtain ⟨out, w', hrun, htexts⟩ := each_ofForms fuel hwv (Value.Twin.splice hxs) hforms
            hvisit hshows
          exact ⟨out, w', each_splice (fuel + 1) _ hrun, htexts⟩
      | _ => cases hlist
  · have hroots : r'.roots = [r'] ∧ r'.isList = false := by
      cases r' with
      | list xs' => exact absurd ⟨xs', rfl⟩ hmembers
      | _ => exact ⟨rfl, rfl⟩
    have hmembers' : y.members = [y] := by
      rw [hroots.2] at hlist
      cases y with
      | list => cases hlist
      | _ => rfl
    rw [hroots.1] at hshows
    rw [hroots.1, hmembers'] at hforms
    cases hforms with
    | cons hform _ =>
      obtain ⟨σ, out, _, w', hrun, htexts, -⟩ := item_ofForm fuel hwv hr hform hvisit
        (hshows r' List.mem_cons_self)
      exact ⟨out, w', item_succ (fuel + 1) r hrun, htexts⟩

end Visit

/-! ## Uniform worlds -/

/-- A render that gets through leaves a uniform world uniform. -/
theorem RenderStream.uniform_of_drain {w v : World} (hw : w.Uniform) (htime : w.OnTime) {x : Value}
    (hx : w.Has x) (config : RenderConfig) (hconfig : config.concurrency ≤ 1) {fuel : Nat}
    {texts : List String}
    (hdrain : (ofItem config x w).1.drain fuel (ofItem config x w).2 = some (texts, none, v)) :
    v.Uniform := by
  obtain ⟨visits, out, hvisit, -⟩ := visit_of_drain config hconfig htime hw hx hdrain
  obtain ⟨σ, _, _, r, hrun, -, -, -, hend⟩ :=
    Visit.Mirrors.item visits hx (hw.congr (.seen w) (.seen w)) hvisit
  rw [hvisit] at hrun
  cases hrun
  have hsame := (World.Same.seen v).symm
  have hvv := hend.congr hsame hsame
  have hσ := hvv.eq_range
  subst hσ
  exact hvv

/-! ## Checked templates -/

namespace Checked

open World (Uniform Has)

/-- **Checking is seamless.** Let a template come to `r` in a uniform world, and its checked form to `y` from
the same world, and let `y` be rendered to the end by the rules for items, without rendering ahead. Unless a
root of `r` is or comes to `false` or a component that is handed a list, `r` is rendered to the same texts. -/
theorem template_seamless {w u v v' : World} (hw : w.Uniform) (htime : w.OnTime) (statics : Statics)
    {values : List Value} (hvalues : ∀ x ∈ values, w.Has x) {r y : Value}
    (hresult : w.useTemplate 0 statics values = (r, u))
    (hchecked : (template statics values .give).run w = (.ok y, v)) (config : RenderConfig)
    (hconfig : config.concurrency ≤ 1) {fuel : Nat} {texts : List String}
    (hdrain : (RenderStream.ofItem config y v).1.drain fuel (RenderStream.ofItem config y v).2 =
      some (texts, none, v'))
    (hshows : ∀ x ∈ r.roots, ∀ z, v'.ResolvesTo x z → shows z = false) :
    ∃ enough, ∀ fuel ≥ enough, ∃ u', (RenderStream.ofItem config r u).1.drain fuel
      (RenderStream.ofItem config r u).2 = some (texts, none, u') := by
  have hvalues' : List.Forall₂ (Value.Twin (.range w.pendings.size)) values values :=
    List.forall₂_same.mpr hvalues
  obtain ⟨hr, hu⟩ := hw.useTemplate statics hvalues'
  have hutime := htime.run (.template statics values .give)
  change (w.useTemplate 0 statics values).2.OnTime at hutime
  have hrun : (result (w.useTemplate 0 statics values).1 .give).run
      (w.useTemplate 0 statics values).2 = (.ok y, v) := hchecked
  rw [hresult] at hr hu hutime hrun
  -- the checked form in its own world
  obtain ⟨hv, hy⟩ := hw.run (template_twin statics hvalues' fun _ _ _ _ hxy => .give hxy)
  have hvtime := htime.run (template statics values .give)
  rw [hchecked] at hv hy hvtime
  obtain ⟨visits, out, hvisit, rfl⟩ :=
    RenderStream.visit_of_drain config hconfig hvtime hv (hy y rfl) hdrain
  -- the two worlds side by side
  obtain ⟨huv, hlist, hforms⟩ := hu.checkResult hr hrun
  have hlasts := (World.Same.seen v).grown.toLasts
  obtain ⟨out', w', hvisit', htexts⟩ := Visit.item_ofResult visits
    (huv.congr (.seen u) (.seen v)) hr hlist
    (hforms.imp fun _ _ hform => hform.onward (.of_lasts hlasts)) hvisit
    fun x hx z hz => hshows x hx z (hz.mono fun _ _ hpeek => (World.peek_seen v' _) ▸ hpeek)
  rw [← htexts]
  exact RenderStream.drain_of_visit config hconfig hutime hvisit'

end Checked

/-- A pending value that comes to a map, with a list in a list for children. -/
def promise : Recipe := .pending none 1
  (.object [("type", .value (.str "p")), ("children", .list [.list [.value (.str "b")]])])

theorem isWritten_promise : promise.IsWritten := ⟨.str "p", ⟨⟨.str "b", trivial⟩, trivial⟩, trivial⟩

/-- A world in which there is this pending value. -/
def promised : World := (World.make promise {}).2

/-- Lists are spliced, what is no text becomes one, the pending value is wrapped and the map becomes an
element; nothing of this shows. -/
theorem Checked.template_seamless_promised :
    ∃ r u, promised.useTemplate 0 ⟨"", ["", "", "", ""]⟩
        [.list [.str "a", .undefined], .null, .pending 0] = (r, u) ∧
      ∃ enough, ∀ fuel ≥ enough, ∃ u', (RenderStream.ofItem {} r u).1.drain fuel
        (RenderStream.ofItem {} r u).2 =
          some (["a", "", "", "<p", ">", "b", "</p>"], none, u') := by
  let values : List Value := [.list [.str "a", .undefined], .null, .pending 0]
  have hrun : ∃ r u y v v', promised.useTemplate 0 ⟨"", ["", "", "", ""]⟩ values = (r, u) ∧
      (Checked.template ⟨"", ["", "", "", ""]⟩ values .give).run promised = (.ok y, v) ∧
        (RenderStream.ofItem {} y v).1.drain 60 (RenderStream.ofItem {} y v).2 =
          some (["a", "", "", "<p", ">", "b", "</p>"], none, v') ∧
        r.roots = [.str "a", .undefined, .null, .pending 0] ∧
        v'.peek 0 = some (.ok (.object [("type", .str "p"),
          ("children", .list [.list [.str "b"]])])) :=
    ⟨_, _, _, _, _, by cbv, by cbv, by cbv, by cbv, by cbv⟩
  obtain ⟨r, u, y, v, v', hresult, hchecked, hdrain, hroots, hpeek⟩ := hrun
  have hhas : ∀ x ∈ values, promised.Has x := by
    have hsize : promised.pendings.size = 1 := by cbv
    unfold World.Has
    rw [hsize]
    simp only [values, List.forall_mem_cons]
    exact ⟨.list (.cons (.str "a") (.cons .undefined .nil)), .null, .pending rfl, List.forall_mem_nil _⟩
  refine ⟨r, u, hresult, Checked.template_seamless (World.uniform_empty.make isWritten_promise).1
    (World.onTime_empty.run _) ⟨"", ["", "", "", ""]⟩ hhas hresult hchecked {} (by decide) hdrain ?_⟩
  rw [hroots]
  simp only [List.forall_mem_cons]
  refine ⟨?_, ?_, ?_, ?_, List.forall_mem_nil _⟩
  · rintro _ ⟨⟩
    rfl
  · rintro _ ⟨⟩
    rfl
  · rintro _ ⟨⟩
    rfl
  · rintro z (_ | ⟨hfirst, hz⟩)
    · rfl
    · rw [hpeek] at hfirst
      cases hfirst
      cases hz
      rfl

/-- A component that puts the text of its children into trusted markup. -/
def wrap : Recipe := .component "c" none (.markupParts ["<i>", "</i>"] [.children])

/-- A world in which there is this component. -/
def wrapping : World := (World.make wrap {}).2

/-- A component can tell that it was checked: of an empty list and a text, checking leaves the text. -/
theorem Checked.template_shows_wrapping :
    wrapping.Uniform ∧ wrapping.OnTime ∧ ∃ r u y v v',
      wrapping.useTemplate 0 ⟨"", ["<", ">", "x</>"]⟩ [.component ⟨0, "c"⟩, .list []] = (r, u) ∧
        (Checked.template ⟨"", ["<", ">", "x</>"]⟩ [.component ⟨0, "c"⟩, .list []] .give).run wrapping =
          (.ok y, v) ∧
        (RenderStream.ofItem {} y v).1.drain 60 (RenderStream.ofItem {} y v).2 =
          some (["<i>x</i>"], none, v') ∧
        (∀ x ∈ r.roots, ∀ z, v'.ResolvesTo x z → z ≠ .bool false) ∧
        ¬∃ enough, ∀ fuel ≥ enough, ∃ u', (RenderStream.ofItem {} r u).1.drain fuel
          (RenderStream.ofItem {} r u).2 = some (["<i>x</i>"], none, u') := by
  have hwrap : wrap.IsWritten := ⟨trivial, trivial⟩
  have htime : wrapping.OnTime := World.onTime_empty.run _
  have hrun : ∃ e u y v v' out r', wrapping.useTemplate 0 ⟨"", ["<", ">", "x</>"]⟩
      [.component ⟨0, "c"⟩, .list []] = (.element e, u) ∧
      (Checked.template ⟨"", ["<", ">", "x</>"]⟩ [.component ⟨0, "c"⟩, .list []] .give).run wrapping =
        (.ok y, v) ∧
      (RenderStream.ofItem {} y v).1.drain 60 (RenderStream.ofItem {} y v).2 =
        some (["<i>x</i>"], none, v') ∧
      Visit.item 5 (.element e) u.seen = some (out, .ok (), r') ∧
      out.map (·.text) = ["<i>,x</i>"] :=
    ⟨_, _, _, _, _, _, _, by cbv, by cbv, by cbv, by cbv, by cbv⟩
  obtain ⟨e, u, y, v, v', out, r', hresult, hchecked, hdrain, hvisit, htexts⟩ := hrun
  have hutime := htime.run
    (.template ⟨"", ["<", ">", "x</>"]⟩ [.component ⟨0, "c"⟩, .list []] .give)
  change (wrapping.useTemplate 0 ⟨"", ["<", ">", "x</>"]⟩
    [.component ⟨0, "c"⟩, .list []]).2.OnTime at hutime
  rw [hresult] at hutime
  refine ⟨(World.uniform_empty.make hwrap).1, htime, .element e, u, y, v, v', hresult, hchecked, hdrain,
    ?_, ?_⟩
  · intro x hx z hz
    cases List.mem_singleton.mp hx
    cases hz
    exact fun h => by cases h
  · rintro ⟨enough, hsame⟩
    obtain ⟨enough', hother⟩ := RenderStream.drain_of_visit {} (by decide) hutime hvisit
    obtain ⟨u', hu'⟩ := hsame (max enough enough') (Nat.le_max_left ..)
    obtain ⟨u'', hu''⟩ := hother (max enough enough') (Nat.le_max_right ..)
    rw [htexts, hu', Option.some.injEq, Prod.mk.injEq] at hu''
    exact absurd hu''.1 (by decide)

end TaggedMarkup
