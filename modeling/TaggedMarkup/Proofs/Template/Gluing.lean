import Mathlib
import TaggedMarkup.Proofs.Template.Quotes
import TaggedMarkup.Proofs.Template.Renumbering
import TaggedMarkup.Template.Factory

/-!
# A finished tag leaves nothing behind

Two templates are glued into one: the last part of the first and the first part of the second become one
part. If the first ends with a tag that leaves no element open, the scanner is where it was at the start,
except for what it has built, and for a quote, if one is still open (`EndsAfterTag.parts_eq_onto`).

* With no quote open, it goes on as if the second template stood alone. So the compiled template is both,
  the second renumbered (`EndsAfterTag.compile_glue`), and an evaluation gives the roots of both, one after
  the other (`Setting.evaluate_followedBy`).
* A quote is open only after a comment that began inside one (`Scan.Tidy.isSettled`). Then the tags that
  follow are not read (`glue_after_quoted_comment`).
-/

namespace TaggedMarkup

/-- The parts of two templates as those of one: the last of the first and the first of the second become
one part. -/
def glue : List String → List String → List String
  | [], q => q
  | [last], [] => [last]
  | [last], first :: q => (last ++ first) :: q
  | part :: next :: p, q => part :: glue (next :: p) q

@[simp] theorem glue_nil (p : List String) : glue p [] = p := by
  induction p with
  | nil => rfl
  | cons part p ih =>
    cases p with
    | nil => rfl
    | cons next p => rw [glue, ih]

/-- One part is lost where the templates meet. -/
theorem length_glue {p : List String} (h : p ≠ []) (first : String) (more : List String) :
    (glue p (first :: more)).length = p.length + more.length := by
  induction p with
  | nil => exact absurd rfl h
  | cons part p ih =>
    cases p with
    | nil => exact Nat.add_comm _ _
    | cons next p =>
      have hrest := ih (List.cons_ne_nil next p)
      rw [glue, List.length_cons, hrest, Nat.add_right_comm]
      rfl

/-- The number of elements of a template. -/
def Template.elements (t : Template) : Nat := (Op.blocksOfAll t.root).length

/-- The template that is one template and then another. -/
def Template.followedBy (t u : Template) : Template where
  root := t.root ++ Op.renumberAll t.elements (t.fields + ·) u.root
  fields := t.fields + u.fields

/-- The last character of the last part is a `>`. -/
def EndsInBracket : List String → Prop
  | [] => False
  | [last] => last.toList.getLast? = some '>'
  | _ :: next :: p => EndsInBracket (next :: p)

/-- The last character of a template is the end of a tag, and there no element is open. A `>` in a text
would still be in the buffer. -/
structure EndsAfterTag (p : List String) : Prop where
  bracket : EndsInBracket p
  mode : (Scan.parts p {}).mode = .text
  buffer : (Scan.parts p {}).buffer = []
  frames : (Scan.parts p {}).frames = []

theorem EndsInBracket.ne_nil {p : List String} (h : EndsInBracket p) : p ≠ [] := by
  rintro rfl
  exact h

namespace Scan

/-! ## Reading on -/

/-- Only for a slash does the character after it count. -/
theorem step_following {c : Char} (h : c ≠ '/') (following other : Option Char) (s : Scan) :
    s.step c following = s.step c other := by
  simp only [step, stepTag, h, false_and]

/-- After a `>`, the rest of a part is read as a part of its own. -/
theorem part_append {cs : List Char} (h : cs.getLast? = some '>') (more : List Char) (s : Scan) :
    part (cs ++ more) s = part more (part cs s) := by
  induction cs generalizing s with
  | nil => cases h
  | cons c cs ih =>
    cases cs with
    | nil =>
      obtain rfl : c = '>' := Option.some.inj h
      rw [List.singleton_append, part, step_following (by decide) more.head? none]
      rfl
    | cons next cs =>
      have htail : (next :: cs).getLast? = some '>' := by
        rw [List.getLast?_cons_cons] at h
        exact h
      rw [List.cons_append, part, ih htail]
      rfl

theorem rest_glue {ps : List String} (h : EndsInBracket ps) (first : String) (more : List String)
    (index : Nat) (s : Scan) : rest index (glue ps (first :: more)) s =
      rest (index + ps.length) more (part first.toList (rest index ps s)) := by
  induction ps generalizing index s with
  | nil => exact h.elim
  | cons p ps ih =>
    cases ps with
    | nil =>
      rw [glue, rest, String.toList_append, part_append h]
      rfl
    | cons next ps =>
      have hindex : index + 1 + (next :: ps).length = index + (p :: next :: ps).length := by
        rw [Nat.add_assoc, Nat.add_comm 1]
        rfl
      rw [glue, rest, ih h, hindex]
      rfl

/-- Reading the parts of two templates as those of one is reading on after the first. -/
theorem parts_glue {p : List String} (h : EndsInBracket p) (first : String) (more : List String)
    (s : Scan) : parts (glue p (first :: more)) s =
      rest (p.length - 1) more (part first.toList (parts p s)) := by
  match p, h with
  | [], h => exact h.elim
  | [last], h =>
    rw [glue, parts, String.toList_append, part_append h]
    rfl
  | part' :: next :: ps, h =>
    have htail : EndsInBracket (next :: ps) := h
    rw [glue, parts, rest_glue htail, Nat.zero_add]
    rfl

/-! ## Where reading on starts -/

/-- In an empty text there is nothing to commit. -/
theorem commit_eq {s : Scan} (hmode : s.mode = .text) (hbuffer : s.buffer = []) : s.commit = s := by
  obtain ⟨mode, buffer, quote, root, frames, next⟩ := s
  cases hmode
  cases hbuffer
  have hempty : Trim.text "" = "" := by decide
  simp only [commit, word, List.reverse_nil, String.ofList_nil, hempty, if_true]

/-- A scan in which nothing is pending is finished. -/
theorem finish_eq {s : Scan} (hmode : s.mode = .text) (hbuffer : s.buffer = [])
    (hframes : s.frames = []) : s.finish = s := by
  rw [finish, commit_eq hmode hbuffer, closeAll, hframes]
  rfl

/-- With a quote open, the end of a tag is read as a part of its name. -/
theorem finish_inQuote {s : Scan} (hmode : s.mode = .text) (hbuffer : s.buffer = [])
    (hframes : s.frames = []) {c : Char} (hquote : s.quote = some c) :
    ∃ name, (part "<>x".toList s).finish.root =
      .element s.next [.tag (.fixed (.str name))] :: s.root := by
  -- the element that opens stays open, and the quote in it until `c` is read
  let opened (buffer : List Char) (quote : Option Char) : Scan :=
    ⟨.tagName, buffer, quote, s.root, [⟨s.next, []⟩], s.next + 1⟩
  have hopen : s.step '<' (some '>') = opened [] (some c) := by
    simp only [step, hmode, if_true, commit_eq hmode hbuffer, openElement, hbuffer, hquote, hframes,
      opened]
  have hpart : part "<>x".toList s = step 'x' none (step '>' (some 'x') (opened [] (some c))) := by
    rw [← hopen]
    rfl
  rw [hpart]
  by_cases hbracket : '>' = c
  · subst hbracket
    exact ⟨"x", rfl⟩
  · by_cases hletter : 'x' = c
    · subst hletter
      exact ⟨">", rfl⟩
    · have hfirst : (opened [] (some c)).step '>' (some 'x') = opened ['>'] (some c) :=
        congrArg enterComment (if_neg hbracket)
      have hsecond : (opened ['>'] (some c)).step 'x' none = opened ['x', '>'] (some c) :=
        congrArg enterComment (if_neg hletter)
      rw [hfirst, hsecond]
      exact ⟨">x", rfl⟩

end Scan

namespace EndsAfterTag

variable {p : List String}

theorem finish_parts (h : EndsAfterTag p) : (Scan.parts p {}).finish = Scan.parts p {} :=
  Scan.finish_eq h.mode h.buffer h.frames

theorem next_parts (h : EndsAfterTag p) :
    (Scan.parts p {}).next = (Template.compile p).elements + 1 := by
  have hlength := Scan.length_rows (Scan.wellNumbered_start.parts p).numbered
  have hrows := Scan.rows_finish (Scan.parts p {})
  rw [h.finish_parts] at hrows
  rw [← hlength, hrows, List.length_cons, Template.elements, Template.compile, h.finish_parts]

/-- With no quote open, the scanner is after a tag as at the start, but for what it has built. -/
theorem parts_eq_onto (h : EndsAfterTag p) (hquote : (Scan.parts p {}).quote = none)
    (place : Nat → Nat) : Scan.parts p {} = ({} : Scan).onto (Template.compile p).root.reverse
      (Template.compile p).elements place := by
  have hroot : (Scan.parts p {}).root = (Template.compile p).root.reverse := by
    rw [Template.compile, List.reverse_reverse, h.finish_parts]
  have hnext := h.next_parts
  have hmode := h.mode
  have hbuffer := h.buffer
  have hframes := h.frames
  generalize Scan.parts p {} = s at hquote hroot hnext hmode hbuffer hframes
  obtain ⟨mode, buffer, quote, root, frames, next⟩ := s
  cases hmode
  cases hbuffer
  cases hquote
  cases hroot
  cases hframes
  cases hnext
  rfl

/-- The template of both is that of the first, followed by that of the second with its blocks and fields
after those of the first. -/
theorem compile_glue (h : EndsAfterTag p) (hquote : (Scan.parts p {}).quote = none)
    (q : List String) :
    Template.compile (glue p q) = (Template.compile p).followedBy (Template.compile q) := by
  cases q with
  | nil =>
    have hempty : (Template.compile []).root = [] := rfl
    rw [glue_nil, Template.followedBy, hempty, Op.renumberAll, List.append_nil]
    rfl
  | cons first more =>
    have hlength := length_glue h.bracket.ne_nil first more
    have hread : Scan.parts (glue p (first :: more)) {} =
        (Scan.parts (first :: more) {}).onto (Template.compile p).root.reverse
          (Template.compile p).elements ((Template.compile p).fields + ·) := by
      have hplace : ∀ k < more.length, (Template.compile p).fields + (0 + k) = p.length - 1 + k := by
        intro k hk
        rw [Nat.zero_add]
        rfl
      rw [Scan.parts_glue h.bracket, h.parts_eq_onto hquote ((Template.compile p).fields + ·),
        ← Scan.part_onto, Scan.parts, Scan.rest_onto _ _ _ hplace]
    have hroot : (Template.compile (glue p (first :: more))).root =
        (Template.compile p).root ++ Op.renumberAll (Template.compile p).elements
          ((Template.compile p).fields + ·) (Template.compile (first :: more)).root := by
      rw [Template.compile, hread, ← Scan.finish_onto, Scan.onto, List.reverse_append,
        List.reverse_reverse, ← Op.renumberAll_reverse]
      rfl
    have hfields : (glue p (first :: more)).length - 1 = p.length - 1 + more.length := by
      rw [hlength, Nat.sub_add_comm (List.length_pos_of_ne_nil h.bracket.ne_nil)]
    exact congrArg₂ Template.mk hroot hfields

/-- If whatever follows is read as if it stood alone, no quote is open. -/
theorem quote_eq_none (h : EndsAfterTag p) (hglue : ∀ q : List String,
    Template.compile (glue p q) = (Template.compile p).followedBy (Template.compile q)) :
    (Scan.parts p {}).quote = none := by
  cases hquote : (Scan.parts p {}).quote with
  | none => rfl
  | some c =>
    obtain ⟨name, hname⟩ := Scan.finish_inQuote h.mode h.buffer h.frames hquote
    have hroot := congrArg Template.root (hglue ["<>x"])
    have halone : (Template.compile ["<>x"]).root = [.element 1 [.child (.fixed (.str "x"))]] := by
      cbv
    have hread : (Template.compile (glue p ["<>x"])).root = (Scan.parts p {}).root.reverse ++
        [.element (Scan.parts p {}).next [.tag (.fixed (.str name))]] := by
      rw [Template.compile, Scan.parts_glue h.bracket, Scan.rest, hname, List.reverse_cons]
    have hbefore : (Template.compile p).root = (Scan.parts p {}).root.reverse := by
      rw [Template.compile, h.finish_parts]
    rw [hread, Template.followedBy, halone, hbefore] at hroot
    have hlast := List.append_cancel_left hroot
    simp [Op.renumberAll, Op.renumber] at hlast

end EndsAfterTag

namespace Template

/-- The elements of a compiled template have the numbers from 1 on. -/
theorem mem_numbers_compile {parts : List String} {number : Nat} :
    number ∈ Op.numbersOfAll (compile parts).root ↔
      0 < number ∧ number ≤ (compile parts).elements := by
  have hnumbers : 0 :: Op.numbersOfAll (compile parts).root =
      List.range ((compile parts).elements + 1) := numbers_compile parts
  have hmem : number ∈ 0 :: Op.numbersOfAll (compile parts).root ↔
      number < (compile parts).elements + 1 := by rw [hnumbers, List.mem_range]
  have hnodup : (0 :: Op.numbersOfAll (compile parts).root).Nodup := hnumbers ▸ List.nodup_range
  have hzero := (List.nodup_cons.mp hnodup).1
  constructor
  · intro hn
    exact ⟨Nat.pos_of_ne_zero fun h0 => hzero (h0 ▸ hn),
      Nat.lt_succ_iff.mp (hmem.mp (List.mem_cons_of_mem _ hn))⟩
  · rintro ⟨hpos, hle⟩
    exact (List.mem_cons.mp (hmem.mpr (Nat.lt_succ_of_le hle))).resolve_left (Nat.pos_iff_ne_zero.mp hpos)

/-- A compiled template only has the fields between its parts. -/
theorem renumberAll_compile {parts : List String} {place : Nat → Nat}
    (hplace : ∀ k < (compile parts).fields, place k = k) :
    Op.renumberAll 0 place (compile parts).root = (compile parts).root := by
  cases parts with
  | nil => rfl
  | cons first more =>
    have hrest : ∀ k < more.length, place (0 + k) = 0 + k := by
      intro k hk
      rw [Nat.zero_add]
      exact hplace k hk
    have hread : (Scan.parts (first :: more) {}).onto [] 0 place = Scan.parts (first :: more) {} := by
      rw [Scan.parts, Scan.rest_onto _ _ _ hrest, Scan.part_onto]
      rfl
    have hfinish := Scan.finish_onto [] 0 place (Scan.parts (first :: more) {})
    rw [hread] at hfinish
    have hroot : Op.renumberAll 0 place (Scan.parts (first :: more) {}).finish.root =
        (Scan.parts (first :: more) {}).finish.root :=
      (List.append_nil _).symm.trans (congrArg Scan.root hfinish)
    rw [compile, Op.renumberAll_reverse, hroot]

end Template

/-! ## Evaluating one after the other -/

/-- What is kept for the first template and what is kept for the second, together. -/
structure Folds.Joined (t u : Template) (folds first second : Folds) : Prop where
  first : Folds.Match 0 (Op.numbersOfAll t.root) folds first
  second : Folds.Match t.elements (Op.numbersOfAll u.root) folds second

namespace Setting

variable {σ : Type}

/-- The roots that an evaluation builds. -/
def roots (s : Setting σ) (t : Template) (folds : Folds) (host : σ) : List Value :=
  (s.runAll t.root .root { folds, host }).1.children

theorem evaluate_eq_ofRoots (s : Setting σ) (t : Template) (folds : Folds) (host : σ) :
    (s.evaluate t folds host).1 = ofRoots (s.roots t folds host) := rfl

theorem evaluate_snd (s : Setting σ) (t : Template) (folds : Folds) (host : σ) :
    (s.evaluate t folds host).2 = (s.runAll t.root .root { folds, host }).2 := rfl

/-- The same setting with other values. -/
def given (s : Setting σ) (values : List Value) : Setting σ := { s with values }

theorem shifted_zero (s : Setting σ) (values more : List Value) :
    (s.given values).shifted 0 more = s.given more := by
  simp only [shifted, given, Nat.zero_add]

/-- The first template finds its values and what is kept for it. -/
theorem runAll_first (s : Setting σ) {p : List String} {before : List Value} (after : List Value)
    (hlength : before.length = (Template.compile p).fields) {folds first : Folds}
    (h : Folds.Match 0 (Op.numbersOfAll (Template.compile p).root) folds first) (host : σ) :
    ((s.given (before ++ after)).runAll (Template.compile p).root .root { folds, host }).1 =
        ((s.given before).runAll (Template.compile p).root .root ⟨first, [], host⟩).1 ∧
      ((s.given (before ++ after)).runAll (Template.compile p).root .root { folds, host }).2.Match 0
        (Op.numbersOfAll (Template.compile p).root)
        ((s.given before).runAll (Template.compile p).root .root ⟨first, [], host⟩).2 := by
  -- fields that the template does not have are sent where there is no value
  let place (index : Nat) : Nat :=
    if index < before.length then index else (before ++ after).length + index
  have hvalues : ∀ index, (s.given (before ++ after)).values.getD (place index) .undefined =
      before.getD index .undefined := by
    intro index
    simp only [given, place]
    split
    · rename_i hlt
      exact List.getD_append _ _ _ _ hlt
    · rename_i hge
      rw [List.getD_eq_default _ _ (Nat.le_add_right _ _),
        List.getD_eq_default _ _ (Nat.le_of_not_lt hge)]
  have hroot : Op.renumberAll 0 place (Template.compile p).root = (Template.compile p).root :=
    Template.renumberAll_compile fun k hk => if_pos (hlength ▸ hk)
  have hrun := runAll_renumber hvalues (Template.compile p).root .root
    (fun row hrow => List.mem_map_of_mem hrow)
    (Pass.Match.mk (p := ⟨folds, [], host⟩) (q := ⟨first, [], host⟩) rfl h)
  rw [hroot, shifted_zero] at hrun
  exact hrun

/-- The second template finds, after the first, its values and what is kept for it. -/
theorem runAll_second (s : Setting σ) {t : Template} {before : List Value} (after : List Value)
    (hlength : before.length = t.fields) {u : Template} (d : Draft) {p : Pass σ} {second : Folds}
    {host : σ} (hhost : p.host = host)
    (h : Folds.Match t.elements (Op.numbersOfAll u.root) p.folds second) :
    ((s.given (before ++ after)).runAll (Op.renumberAll t.elements (t.fields + ·) u.root) d p).1 =
        ((s.shifted t.elements after).runAll u.root d ⟨second, [], host⟩).1 ∧
      ((s.given (before ++ after)).runAll (Op.renumberAll t.elements (t.fields + ·) u.root) d
          p).2.Match t.elements (Op.numbersOfAll u.root)
        ((s.shifted t.elements after).runAll u.root d ⟨second, [], host⟩).2 := by
  have hvalues : ∀ index, (s.given (before ++ after)).values.getD (t.fields + index) .undefined =
      after.getD index .undefined := by
    intro index
    rw [← hlength, given, List.getD_append_right _ _ _ _ (Nat.le_add_right _ _),
      Nat.add_sub_cancel_left]
  exact runAll_renumber hvalues u.root d (fun row hrow => List.mem_map_of_mem hrow)
    (Pass.Match.mk (q := ⟨second, [], host⟩) hhost h)

/-- An evaluation of one template is one of `t` and then one of `u`, which goes on with the host as the
first leaves it. -/
structure InTurn (s : Setting σ) (t u whole : Template) (before after : List Value)
    (folds first second : Folds) (host : σ) : Prop where
  /-- the roots of the first, and then those of the second -/
  roots : ((s.given (before ++ after)).evaluate whole folds host).1 =
    ofRoots ((s.given before).roots t first host ++
      (s.shifted t.elements after).roots u second ((s.given before).evaluate t first host).2.host)
  left : ((s.given (before ++ after)).evaluate whole folds host).2.host =
    ((s.shifted t.elements after).evaluate u second
      ((s.given before).evaluate t first host).2.host).2.host
  /-- what is kept afterwards is what the two keep -/
  kept : Folds.Joined t u ((s.given (before ++ after)).evaluate whole folds host).2.folds
    ((s.given before).evaluate t first host).2.folds
    ((s.shifted t.elements after).evaluate u second
      ((s.given before).evaluate t first host).2.host).2.folds

/-- To evaluate two templates as one is to evaluate them in turn. -/
theorem evaluate_followedBy (s : Setting σ) {p q : List String} {whole : Template}
    (hwhole : whole = (Template.compile p).followedBy (Template.compile q))
    {before : List Value} (after : List Value)
    (hlength : before.length = (Template.compile p).fields) {folds first second : Folds}
    (h : Folds.Joined (Template.compile p) (Template.compile q) folds first second) (host : σ) :
    s.InTurn (Template.compile p) (Template.compile q) whole before after folds first second host := by
  obtain ⟨hdraft, hpass⟩ := s.runAll_first after hlength h.first host
  have hwhole : (s.given (before ++ after)).runAll whole.root .root { folds, host } = _ :=
    (congrArg (fun t => (s.given (before ++ after)).runAll t.root .root ⟨folds, [], host⟩)
      hwhole).trans (runAll_append ..)
  generalize hr : (s.given (before ++ after)).runAll (Template.compile p).root .root
    ⟨folds, [], host⟩ = r at hdraft hpass hwhole
  -- the first template leaves alone what is kept for the second
  have hkept : Folds.Match (Template.compile p).elements
      (Op.numbersOfAll (Template.compile q).root) r.2.folds second := by
    intro number hn
    rw [← h.second number hn, ← hr]
    refine lookup_runAll _ _ _ _ fun row hrow heq => ?_
    have hle := (Template.mem_numbers_compile.mp (List.mem_map_of_mem hrow)).2
    have hpos := (Template.mem_numbers_compile.mp hn).1
    omega
  obtain ⟨hdraft', hpass'⟩ := s.runAll_second after hlength r.1 hpass.host hkept
  obtain ⟨hleft, built, hbuilt, hroots⟩ :=
    (s.shifted (Template.compile p).elements after).runAll_children (Template.compile q).root r.1 .root
      ⟨second, [], ((s.given before).runAll (Template.compile p).root .root ⟨first, [], host⟩).2.host⟩
  have hpassed : ((s.given (before ++ after)).evaluate whole folds host).2 = _ :=
    (evaluate_snd ..).trans (congrArg Prod.snd hwhole)
  rw [hleft, ← hpassed] at hpass'
  refine ⟨?_, hpass'.host, ⟨?_, hpass'.folds⟩⟩
  · rw [evaluate_eq_ofRoots]
    refine congrArg ofRoots ?_
    simp only [Setting.roots]
    rw [hwhole, hdraft', hbuilt, hdraft]
    exact congrArg (_ ++ ·) hroots.symm
  · rw [hpassed]
    -- and the second leaves alone what the first keeps
    intro number hn
    refine (lookup_runAll _ _ _ _ fun row hrow heq => ?_).trans (hpass.folds number hn)
    rw [Op.blocksOfAll_renumberAll, List.mem_map] at hrow
    obtain ⟨row', hrow', rfl⟩ := hrow
    have hle := (Template.mem_numbers_compile.mp hn).2
    have hpos := (Template.mem_numbers_compile.mp (List.mem_map_of_mem hrow')).1
    dsimp only at heq
    omega

end Setting

theorem Folds.joined_nil (t u : Template) : Folds.Joined t u [] [] [] :=
  ⟨fun _ _ => rfl, fun _ _ => rfl⟩

/-- A finished tag leaves nothing behind exactly if no quote is open. No quote is open in a text or a
comment unless a comment has begun inside one; and after a tag with no quote open, what follows is read as
if it stood alone, so that an evaluation gives the roots of what has been read and then those of what
follows. -/
theorem glue_after_tag (p : List String) :
    (∀ s : Scan, s.Tidy → (s.mode = .text ∨ ∃ latest, s.mode = .comment latest) →
      s.quote = none) ∧
    (EndsAfterTag p →
      ((Scan.parts p {}).quote = none ↔ ∀ q : List String,
        Template.compile (glue p q) = (Template.compile p).followedBy (Template.compile q)) ∧
      ((Scan.parts p {}).quote = none →
        ∀ (q : List String) (σ : Type) (s : Setting σ) (before after : List Value)
          (folds first second : Folds) (host : σ), before.length = (Template.compile p).fields →
          Folds.Joined (Template.compile p) (Template.compile q) folds first second →
          s.InTurn (Template.compile p) (Template.compile q) (Template.compile (glue p q)) before after
            folds first second host)) := by
  refine ⟨?_, fun hends => ⟨⟨hends.compile_glue, hends.quote_eq_none⟩, ?_⟩⟩
  · rintro s htidy (htext | ⟨latest, hcomment⟩)
    · exact htidy.isSettled.text htext
    · exact htidy.isSettled.comment latest hcomment
  · intro hquote q σ s before after folds first second host hlength hfolds
    exact s.evaluate_followedBy (hends.compile_glue hquote q) after hlength hfolds host

/-- A link, and what may stand after it. -/
def link : List String := ["<a href=", "/>"]

def remark : List String := ["<b>x</b>", "!"]

theorem glue_after_tag_link :
    ({} : Scan).quote = none ∧ glue link remark = ["<a href=", "/><b>x</b>", "!"] ∧
    (Template.compile (glue link remark)).fields = 2 ∧
    (⟨1, Factory.element, true, []⟩ : Setting Bench).InTurn (Template.compile link)
      (Template.compile remark) (Template.compile (glue link remark)) [.str "u"] [.str "v"] [] [] []
      {} := by
  obtain ⟨hquotes, hglue⟩ := glue_after_tag link
  obtain ⟨hcompile, heval⟩ := hglue ⟨rfl, by cbv, by cbv, by cbv⟩
  have hquote : (Scan.parts link {}).quote = none := by cbv
  have hturn := heval hquote remark Bench ⟨1, Factory.element, true, []⟩ [.str "u"] [.str "v"] [] [] []
    {} rfl (Folds.joined_nil _ _)
  exact ⟨hquotes {} .start (.inl rfl), by decide,
    congrArg Template.fields (hcompile.mp hquote remark), hturn⟩

/-- After a comment that begins inside a quote, the quote is still open, and the next tag is not read. -/
theorem glue_after_quoted_comment :
    EndsAfterTag ["<\"!-- -->"] ∧ (Scan.parts ["<\"!-- -->"] {}).quote = some '"' ∧
      Template.compile (glue ["<\"!-- -->"] ["<b/>"]) ≠
        (Template.compile ["<\"!-- -->"]).followedBy (Template.compile ["<b/>"]) := by
  refine ⟨⟨rfl, by cbv, by cbv, by cbv⟩, by cbv, fun h => ?_⟩
  have hroot := congrArg Template.root h
  have hswallowed : (Template.compile (glue ["<\"!-- -->"] ["<b/>"])).root =
      [.element 1 [.tag (.fixed (.str "b/>"))]] := by cbv
  have halone : (Template.compile ["<b/>"]).root = [.element 1 [.tag (.fixed (.str "b"))]] := by cbv
  have hnothing : (Template.compile ["<\"!-- -->"]).root = [] := by cbv
  rw [hswallowed, Template.followedBy, halone, hnothing] at hroot
  simp [Op.renumberAll, Op.renumber, Operand.renumber] at hroot

end TaggedMarkup
