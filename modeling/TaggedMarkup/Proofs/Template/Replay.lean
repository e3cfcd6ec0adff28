import TaggedMarkup.Proofs.Template.Printing

/-!
# Printing is undone

A template that was printed from blueprints, compiled and evaluated with plain elements, gives what the
blueprints denote with the values: the same elements with the same stamps, whether static elements are
kept or not (`Blueprint.evaluate_parts`).

Each list of instructions is said to **dress** an element, where it only changes the props, or to **fill**
it, where it only adds children.
-/

namespace TaggedMarkup

namespace Entries

variable {α : Type}

theorem put_put (key : String) (value other : α) (entries : List (String × α)) :
    put key value (put key other entries) = put key value entries := by
  induction entries with
  | nil => simp [put]
  | cons entry rest ih =>
    obtain ⟨k, v⟩ := entry
    by_cases h : k = key <;> simp [put, h, ih]

end Entries

namespace Op

variable {s : Setting Bench} {ops more : List Op}

/-! ## Props -/

/-- The instructions change the props in this way. They do nothing else to the element but change its
flags, and nothing else at all but report. -/
def Dress (s : Setting Bench) (ops : List Op) (change : Props → Props) : Prop :=
  ∀ (d : Draft) (p : Pass Bench), ∃ props flags notices,
    s.runAll ops d p = ({ d with props, flags }, { p with notices }) ∧
      props.getD [] = change (d.props.getD [])

variable {change further : Props → Props}

theorem dress_nil : Dress s [] id := fun d p => ⟨d.props, d.flags, p.notices, rfl, rfl⟩

theorem Dress.append (h : Dress s ops change) (hmore : Dress s more further) :
    Dress s (ops ++ more) (further ∘ change) := by
  intro d p
  obtain ⟨props, flags, notices, hrun, hprops⟩ := h d p
  obtain ⟨props', flags', notices', hrun', hprops'⟩ :=
    hmore { d with props, flags } { p with notices }
  refine ⟨props', flags', notices', ?_, ?_⟩
  · rw [Setting.runAll_append, hrun, hrun']
  · rw [hprops', hprops]
    rfl

theorem dress_set (name : String) (operand : Operand) :
    Dress s [.set name operand] (Entries.put name (operand.value s.values)) :=
  fun _ p => ⟨_, _, p.notices, rfl, rfl⟩

/-- The props with a value extended by a text. -/
def extend (name text : String) (props : Props) : Props :=
  Entries.put name (.str (((Entries.get? name props).getD .undefined).text ++ text)) props

theorem dress_append (name : String) (operand : Operand) :
    Dress s [.append name operand] (extend name (operand.value s.values).text) :=
  fun _ p => ⟨_, _, p.notices, rfl, rfl⟩

theorem extend_put (name text : String) (value : Value) (props : Props) :
    extend name text (Entries.put name value props) =
      Entries.put name (.str (value.text ++ text)) props := by
  rw [extend, Entries.get?_put_self, Entries.put_put, Option.getD_some]

theorem extend_extend (name text more : String) (props : Props) :
    extend name more (extend name text props) = extend name (text ++ more) props := by
  refine (extend_put name more _ props).trans ?_
  rw [extend, Value.text, String.append_assoc]

theorem dress_spread (first : Nat) :
    Dress s [.spread first] (Blueprint.Attribute.apply s.values first .spread) := by
  intro d p
  have hrun : s.runAll [.spread first] d p =
      ((d.spreadProps (s.values.getD first .undefined)).markOwn true,
        p.noteSpread (s.values.getD first .undefined)) := rfl
  rw [hrun, Blueprint.Attribute.apply]
  cases s.values.getD first .undefined with
  | object entries => exact ⟨_, _, p.notices, rfl, rfl⟩
  | undefined | null => exact ⟨_, _, p.notices, rfl, rfl⟩
  | _ => exact ⟨_, _, _, rfl, rfl⟩

end Op

namespace Blueprint

open Op

variable {s : Setting Bench}

/-- After the first piece, the others extend the value. -/
theorem Piece.dress_rest {name : String} {ops more : List Op} {f : Props → Value} {first : Nat}
    {rest : List Piece} (h : Dress s ops fun props => Entries.put name (f props) props)
    (hrest : Dress s more (if rest = [] then id else extend name (Piece.contentAll s.values first rest))) :
    Dress s (ops ++ more) fun props => Entries.put name
      (if rest = [] then f props
        else .str ((f props).text ++ Piece.contentAll s.values first rest)) props := by
  have hall := h.append hrest
  split at hall
  · rename_i hempty
    simp only [if_pos hempty]
    exact hall
  · rename_i hmore
    simp only [if_neg hmore]
    have hchange : (extend name (Piece.contentAll s.values first rest) ∘ fun props =>
        Entries.put name (f props) props) = fun props => Entries.put name
          (.str ((f props).text ++ Piece.contentAll s.values first rest)) props :=
      funext fun props => extend_put name _ (f props) props
    exact hchange ▸ hall

/-- The pieces of a value that has begun extend it, by the text before them too. -/
theorem Piece.dress_begun (name : String) {pieces : List Piece} (h : ∀ piece ∈ pieces, piece.IsSound)
    (before : String) (first : Nat) :
    Dress s (Piece.ops name true before first pieces)
      (if before = "" ∧ pieces = [] then id
        else extend name (before ++ Piece.contentAll s.values first pieces)) := by
  induction pieces generalizing before first with
  | nil =>
    by_cases hempty : before = ""
    · rw [if_pos ⟨hempty, rfl⟩, Piece.ops, if_pos ⟨hempty, rfl⟩]
      exact dress_nil
    · rw [if_neg (fun hboth => hempty hboth.1), Piece.ops, if_neg (fun hboth => hempty hboth.1),
        Piece.contentAll, String.append_empty]
      exact dress_append name _
  | cons piece rest ih =>
    have ih := ih fun other hmem => h other (List.mem_cons_of_mem _ hmem)
    rw [if_neg (fun hboth => List.cons_ne_nil _ _ hboth.2), Piece.contentAll]
    cases piece with
    | text content =>
      have hcontent : content ≠ "" := (h _ List.mem_cons_self).1
      have htext := ih (before ++ content) first
      rw [if_neg (fun hboth => hcontent (String.append_eq_empty_iff.mp hboth.1).2),
        String.append_assoc] at htext
      rw [Piece.print, Print.gaps_ofText, Nat.add_zero]
      exact htext
    | hole =>
      have hbegin : Dress s (if before = "" then [Piece.op name true (.field first)]
          else [Piece.op name true (.fixed (.str before)), Piece.op name true (.field first)])
          (extend name (before ++ Piece.hole.content s.values first)) := by
        split
        · rename_i hempty
          rw [hempty, String.empty_append]
          exact dress_append name _
        · have hboth := (dress_append (s := s) name (.fixed (.str before))).append
            (dress_append name (.field first))
          exact (funext (extend_extend name before _) : extend name _ ∘ extend name before = _) ▸ hboth
      have hrest := ih "" (first + 1)
      simp only [true_and, String.empty_append] at hrest
      refine (funext fun props => ?_ : _ = extend name _) ▸ Piece.dress_rest hbegin hrest
      -- if nothing comes after the hole, the empty text does
      split
      · rename_i hempty
        rw [hempty, Piece.contentAll, String.append_empty]
        rfl
      · rw [extend, Value.text, String.append_assoc, String.append_assoc]
        rfl

theorem Piece.denote_text (values : List Value) (first : Nat) (content : String) (rest : List Piece) :
    Piece.denote values first (.text content :: rest) =
      .str (Piece.contentAll values first (.text content :: rest)) := rfl

theorem Piece.denote_hole (values : List Value) (first : Nat) (rest : List Piece) :
    Piece.denote values first (.hole :: rest) =
      if rest = [] then values.getD first .undefined
      else .str ((values.getD first .undefined).text ++ Piece.contentAll values (first + 1) rest) := by
  cases rest with
  | nil => rfl
  | cons => rfl

/-- The pieces of a value make it. -/
theorem Piece.dress_ops (name : String) {pieces : List Piece} (h : ∀ piece ∈ pieces, piece.IsSound)
    (before : String) (first : Nat) :
    Dress s (Piece.ops name false before first pieces)
      (Entries.put name (if before = "" then Piece.denote s.values first pieces
        else .str (before ++ Piece.contentAll s.values first pieces))) := by
  induction pieces generalizing before first with
  | nil =>
    rw [Piece.ops, if_neg fun hboth => Bool.false_ne_true hboth.2, Piece.contentAll,
      String.append_empty]
    split
    · rename_i hempty
      rw [hempty]
      exact dress_set name _
    · exact dress_set name _
  | cons piece rest ih =>
    have htail := fun other hmem => h other (List.mem_cons_of_mem _ hmem)
    cases piece with
    | text content =>
      -- the text before the next instruction grows, and is not empty any more
      have hcontent : content ≠ "" := (h _ List.mem_cons_self).1
      have htext := ih htail (before ++ content) first
      rw [if_neg fun hempty => hcontent (String.append_eq_empty_iff.mp hempty).2,
        String.append_assoc] at htext
      have hcontents : Piece.contentAll s.values first (.text content :: rest) =
          content ++ Piece.contentAll s.values first rest := by
        rw [Piece.contentAll, Piece.print, Print.gaps_ofText, Nat.add_zero]
        rfl
      rw [Piece.denote_text, hcontents]
      split
      · rename_i hempty
        rw [hempty, String.empty_append] at htext
        exact hempty ▸ htext
      · exact htext
    | hole =>
      -- the value begins here, with the hole alone or with the text before it
      have hrest := Piece.dress_begun (s := s) name htail "" (first + 1)
      simp only [true_and, String.empty_append] at hrest
      by_cases hempty : before = ""
      · have hall := Piece.dress_rest (f := fun _ => s.values.getD first .undefined)
          (dress_set name (.field first)) hrest
        rw [if_pos hempty, Piece.denote_hole, Piece.ops, if_pos hempty]
        exact hall
      · have hbegin : Dress s [.set name (.fixed (.str before)), .append name (.field first)]
            fun props => Entries.put name
              (.str (before ++ (s.values.getD first .undefined).text)) props := by
          have hboth := (dress_set (s := s) name (.fixed (.str before))).append
            (dress_append name (.field first))
          exact (funext (extend_put name _ (.str before)) : extend name _ ∘ Entries.put name _ = _) ▸ hboth
        rw [if_neg hempty, Piece.ops, if_neg hempty]
        refine (funext fun props => ?_ : _ = Entries.put name _) ▸ Piece.dress_rest hbegin hrest
        split
        · rename_i hnil
          rw [hnil]
          exact congrArg (fun text => Entries.put name (.str (before ++ text)) props)
            String.append_empty.symm
        · rw [Value.text, String.append_assoc]
          rfl

theorem Attribute.dress_ops {a : Attribute} (h : a.IsSound) (first : Nat) :
    Dress s (a.ops first) (a.apply s.values first) := by
  cases a with
  | flag name => exact dress_set name _
  | value name content => exact dress_set name _
  | mixed name pieces => exact Piece.dress_ops name h.2 "" first
  | spread => exact dress_spread first

theorem Attribute.dress_opsAll {attributes : List Attribute} (h : ∀ a ∈ attributes, a.IsSound)
    (first : Nat) :
    Dress s (Attribute.opsAll first attributes) (Attribute.applyAll s.values first attributes) := by
  induction attributes generalizing first with
  | nil => exact dress_nil
  | cons a rest ih =>
    exact (a.dress_ops (h a List.mem_cons_self) first).append
      (ih (fun b hb => h b (List.mem_cons_of_mem _ hb)) _)

end Blueprint

/-! ## Children -/

/-- Nothing is kept for this block and those after it. -/
def Folds.FreeFrom (block : Nat) (folds : Folds) : Prop := ∀ b ≥ block, folds.lookup b = none

theorem Folds.FreeFrom.mono {folds : Folds} {block later : Nat} (h : folds.FreeFrom block)
    (hle : block ≤ later) : folds.FreeFrom later := fun b hb => h b (Nat.le_trans hle hb)

/-- The place that is taken lies before. -/
theorem Folds.FreeFrom.cons {folds : Folds} {block later : Nat} (h : folds.FreeFrom later)
    (hlt : block < later) (value : Value) : Folds.FreeFrom later ((block, value) :: folds) := by
  intro b hb
  rw [List.lookup_cons, beq_false_of_ne (Nat.ne_of_gt (Nat.lt_of_lt_of_le hlt hb))]
  exact h b hb

namespace Op

variable {s : Setting Bench} {ops more : List Op} {block count others : Nat}
  {children further : Nat → List Value}

/-- From the block on, so many elements are built, and the instructions add these children, given the next
stamp. They do nothing else to the element but change its flags. -/
def Fill (s : Setting Bench) (ops : List Op) (block count : Nat) (children : Nat → List Value) : Prop :=
  ∀ (d : Draft) (p : Pass Bench), p.folds.FreeFrom block → ∃ flags q,
    s.runAll ops d p = ({ d with children := d.children ++ children p.host.stamp, flags }, q) ∧
      q.host = { p.host with stamp := p.host.stamp + count } ∧ q.folds.FreeFrom (block + count)

theorem fill_nil (block : Nat) : Fill s [] block 0 fun _ => [] :=
  fun d p hfree => ⟨d.flags, p, by rw [List.append_nil]; rfl, rfl, hfree⟩

theorem Fill.append (h : Fill s ops block count children)
    (hmore : Fill s more (block + count) others further) :
    Fill s (ops ++ more) block (count + others) fun stamp =>
      children stamp ++ further (stamp + count) := by
  intro d p hfree
  obtain ⟨flags, q, hrun, hhost, hkept⟩ := h d p hfree
  obtain ⟨flags', r, hrun', hhost', hkept'⟩ :=
    hmore { d with children := d.children ++ children p.host.stamp, flags } q hkept
  refine ⟨flags', r, ?_, ?_, ?_⟩
  · rw [Setting.runAll_append, hrun, hrun', hhost, List.append_assoc]
  · rw [hhost', hhost, Nat.add_assoc]
  · rw [← Nat.add_assoc]
    exact hkept'

/-- One child, from the template or from a hole. -/
theorem fill_child (operand : Operand) (block : Nat) :
    Fill s [.child operand] block 0 fun _ => [operand.value s.values] :=
  fun _ p hfree => ⟨_, p, rfl, rfl, hfree⟩

/-- An element is built of its tag, its props and its children. -/
theorem fill_element {tag : Blueprint.Tag} {first : Nat} {change : Props → Props}
    (hfactory : s.factory = Factory.element) (hdress : Dress s ops change)
    (hfill : Fill s more (block + 1) count children) :
    Fill s [.element block (tag.ops first ++ ops ++ more)] block (count + 1) fun stamp =>
      [.element ⟨stamp + count, (tag.denote s.values first).toElementType, change [], children stamp,
        false⟩] := by
  intro d p hfree
  obtain ⟨tagged, htag⟩ : ∃ flags, s.runAll (tag.ops first) .element p =
      ({ Draft.element with tag := tag.denote s.values first, flags }, p) := by
    cases tag <;> exact ⟨_, rfl⟩
  obtain ⟨props, dressed, notices, hprops, hchange⟩ :=
    hdress { Draft.element with tag := tag.denote s.values first, flags := tagged } p
  obtain ⟨flags, q, hchildren, hhost, hkept⟩ := hfill
    { Draft.element with tag := tag.denote s.values first, props, flags := dressed } { p with notices }
    (hfree.mono (Nat.le_succ block))
  have hbody : s.runAll (tag.ops first ++ ops ++ more) .element p =
      ({ tag := tag.denote s.values first, props, children := children p.host.stamp, flags }, q) := by
    rw [Setting.runAll_append, Setting.runAll_append, htag, hprops, hchildren]
    rfl
  have hbuild : s.build block (tag.ops first ++ ops ++ more) p =
      (.element ⟨p.host.stamp + count, (tag.denote s.values first).toElementType, change [],
        children p.host.stamp, false⟩, flags,
        { q with host := { p.host with stamp := p.host.stamp + (count + 1) } }) := by
    rw [Setting.build, hbody, hfactory]
    change (Value.element ⟨q.host.stamp, _, props.getD [], _, false⟩, flags,
      { q with host := { q.host with stamp := q.host.stamp + 1 } }) = _
    rw [hhost, hchange]
    rfl
  have hrun : s.runAll [.element block (tag.ops first ++ ops ++ more)] d p =
      s.run (.element block (tag.ops first ++ ops ++ more)) d p := rfl
  rw [Nat.add_right_comm, Nat.add_assoc] at hkept
  rw [hrun, Setting.run_element_built s _ d (hfree block (Nat.le_refl block)), hbuild]
  -- whether the element is kept for later passes or not, it is the child that was built
  split
  · split
    · exact ⟨_, _, rfl, rfl, hkept.cons (by omega) _⟩
    · exact ⟨_, _, rfl, rfl, hkept⟩
  · exact ⟨_, _, rfl, rfl, hkept⟩

end Op

namespace Blueprint

open Op

variable {s : Setting Bench}

/-- The instructions of blueprints build what they denote. -/
theorem fill_opsAll (hfactory : s.factory = Factory.element) : ∀ (blueprints : List Blueprint)
    (_ : IsSoundAll blueprints) (first block : Nat), Fill s (opsAll first block blueprints) block
      (elementsAll blueprints) fun stamp => denoteAll s.values first stamp blueprints
  | [], _, _, block => fill_nil block
  | .text content :: rest, h, first, block =>
    (fill_child (.fixed (.str content)) block).append (fill_opsAll hfactory rest h.2.1 _ _)
  | .comment _ :: rest, h, first, block =>
    (fill_nil block).append (fill_opsAll hfactory rest h.2.1 _ _)
  | .hole :: rest, h, first, block =>
    (fill_child (.field first) block).append (fill_opsAll hfactory rest h.2.1 _ _)
  | .element _ _ children _ :: rest, h, first, block =>
    (fill_element hfactory (Attribute.dress_opsAll h.1.2.1 _)
      (fill_opsAll hfactory children h.1.2.2.1 _ _)).append (fill_opsAll hfactory rest h.2.1 _ _)

/-- **Printing is undone.** The parts of blueprints, compiled and evaluated with plain elements and any
values, give what the blueprints denote. -/
theorem evaluate_parts {blueprints : List Blueprint} (h : IsSoundAll blueprints) (template : Nat)
    (fold : Bool) (values : List Value) (host : Bench) :
    ((Setting.mk template Factory.element fold values).evaluate
      (Template.compile (parts blueprints)) [] host).1 =
        Setting.ofRoots (denoteAll values 0 host.stamp blueprints) := by
  obtain ⟨flags, q, hrun, -, -⟩ := fill_opsAll (s := ⟨template, Factory.element, fold, values⟩) rfl
    blueprints h 0 1 .root { folds := [], host } fun _ _ => rfl
  rw [compile_parts h, Setting.evaluate, hrun]
  rfl

/-- Something of everything. -/
def greeting : List Blueprint :=
  [.element (.named "p") [.flag "hidden", .value "title" "a > 'b'", .mixed "class" [.text "x-", .hole],
    .mixed "id" [.hole], .spread]
    [.text "Hi, ", .hole, .comment " -- ", .element .hole [] [] .void,
      .element .empty [] [.text "!"] .slashes] .tag]

/-- The greeting, with a spread that overrides an attribute before it. -/
theorem evaluate_parts_greeting :
    parts greeting = ["<p hidden title=\"a > 'b'\" class=\"x-", "\" id=\"", "\" ...", ">Hi, ",
        "<!-- -- --><", " /><>!<//></p>"] ∧
      ((Setting.mk 0 Factory.element true
        [.str "big", .null, .object [("class", .bool true), ("lang", .str "en")], .list [], .str "b"]).evaluate
          (Template.compile (parts greeting)) [] {}).1 =
        .element ⟨2, .tag "p", [("hidden", .bool true), ("title", .str "a > 'b'"),
          ("class", .bool true), ("id", .null), ("lang", .str "en")],
          [.str "Hi, ", .list [], .element ⟨0, .tag "b", [], [], false⟩,
            .element ⟨1, .fragment, [], [.str "!"], false⟩], false⟩ := by
  have hsound : IsSoundAll greeting := by decide +kernel
  exact ⟨by decide, (evaluate_parts hsound 0 true _ {}).trans rfl⟩

end Blueprint

end TaggedMarkup
