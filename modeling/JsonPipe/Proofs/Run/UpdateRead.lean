import JsonPipe.Proofs.Run.AssignmentPaths
import JsonPipe.Proofs.Value.Replacement

/-! Reading after an update.

    Reading and writing follow a path by different rules: reading takes one key after the other,
    while a write gathers the slots of all keys, makes a row of candidates for them and puts the row
    in. Where every key is there, both come to the same slots in the same order. So an update with
    one candidate for each slot gives one document (`Run.assign_updated`), in which the path leads
    to the candidates (`Updated.targets`) and everything beside the slots is as before
    (`Updated.frame`). -/

namespace JsonPipe

/-- The selector takes a step, whatever the input of its key. -/
inductive Selector.Takes (call : Call) (scope : Scope) : Selector Pipeline → Step → Prop
  | field {key : Pipeline} {ks : List Value}
    (h : ∀ input, Feed.evaluate call key scope input = .ok ks) (optional : Bool) :
      Takes call scope (.field key optional) (.keys ks)
  | iterate (optional : Bool) : Takes call scope (.iterate optional) .each

/-- A field whose keys are literals. -/
theorem Selector.Takes.literals {call : Call} {scope : Scope} (ks : List Value)
    (h : ∀ k ∈ ks, k.IsJson) (optional : Bool) :
    Takes call scope (.field (elements (ks.map Value.literal)) optional)
      (.keys (ks.map Value.unsigned)) :=
  .field (Feed.evaluate_literals h) optional

/-- What stands anywhere in JSON data is JSON data. -/
theorem Value.IsJson.at? {v w : Value} (h : v.IsJson) {l : List Place} (hw : v.at? l = some w) :
    w.IsJson := by
  induction l generalizing v with
  | nil =>
    cases hw
    exact h
  | cons p l ih =>
    obtain ⟨c, hc, hw⟩ := Option.bind_eq_some_iff.1 hw
    refine ih ?_ hw
    cases h with
    | array hitems =>
      cases p with
      | element i => exact hitems c (List.mem_of_getElem? hc)
      | entry name => cases hc
    | object hsorted hentries =>
      cases p with
      | entry name =>
        obtain ⟨e, he, rfl⟩ := List.mem_map.1 (Entries.mem_values_of_get? hc)
        exact hentries e he
      | element i => cases hc
    | _ => cases hc

theorem Value.IsJson.orderly {v : Value} (h : v.IsJson) : v.Orderly := by
  intro l w hw
  cases h.at? hw with
  | object hsorted hentries => exact hsorted
  | _ => trivial

/-! ### Reading -/

namespace Outcome

variable {α β : Type}

theorem ofList_append (as bs : List α) :
    (ofList as).append (fun _ => ofList bs) = ofList (as ++ bs) := by
  induction as with
  | nil => rfl
  | cons a as ih => simp [ofList, ih]

/-- Feeding the elements of one list puts out what the elements of another stand for. -/
theorem ofList_bind_forall₂ {γ : Type} {R : α → γ → Prop} {f : α → Outcome β}
    {further : γ → List β} {as : List α} {cs : List γ} (h : List.Forall₂ R as cs)
    (hf : ∀ a, ∀ c ∈ cs, R a c → f a = ofList (further c)) :
    (ofList as).bind f = ofList (cs.flatMap further) := by
  induction h with
  | nil => rfl
  | @cons a c as cs hac _ ih =>
    have hrest := ih fun a c hc => hf a c (List.mem_cons_of_mem _ hc)
    rw [ofList, next_bind, hf a c List.mem_cons_self hac, hrest, List.flatMap_cons, ofList_append]

end Outcome

/-- Keys that name places find the parts there, one after the other. -/
theorem Value.field_parts {v : Value} {ks : List Value} (h : v.outline.Admits (.keys ks)) :
    List.Forall₂ (fun k part => v.field k = .ok (some part.2)) ks (v.parts (.keys ks)) := by
  induction ks with
  | nil => exact .nil
  | cons k ks ih =>
    obtain ⟨hk, hks⟩ := List.forall_mem_cons.1 h
    obtain ⟨p, hp⟩ := Option.isSome_iff_exists.1 hk
    obtain ⟨c, hc⟩ := exists_child_of_place? hp
    have hcons : v.parts (.keys (k :: ks)) = (p, c) :: v.parts (.keys ks) := by
      simp [parts, Outline.places, hp, hc]
    rw [hcons]
    exact .cons (field_eq_iff.2 ⟨p, hp, hc⟩) (ih hks)

namespace Run

variable {call : Call} {scope : Scope} {path : List (Selector Pipeline)} {steps : List Step}

/-- Reading along a path that leads through the value puts out the targets. -/
theorem select_targets (hpath : List.Forall₂ (Selector.Takes call scope) path steps) {v : Value}
    (h : v.Walkable steps) (input : Value) (parent : Option Value) :
    select call path scope input v parent = .ofList (v.targets steps) := by
  induction hpath generalizing v parent with
  | nil =>
    rw [select]
    rfl
  | @cons selector s path rest htakes _ ih =>
    obtain ⟨hascending, hadmits, hparts⟩ := h
    cases htakes with
    | @field key ks hkey optional =>
      have hks : pipeline call key scope input = .ofList ks := Feed.run_of_evaluate (hkey input)
      rw [select, hks, Value.targets]
      refine Outcome.ofList_bind_forall₂ (Value.field_parts hadmits) fun k part hpart hk => ?_
      rw [hk]
      exact ih (hparts part hpart) _
    | iterate optional =>
      have hitems : List.Forall₂ (fun item part => item = part.2)
          ((v.parts .each).map Prod.snd) (v.parts .each) :=
        List.forall₂_map_left_iff.2 (List.forall₂_same.2 fun _ _ => rfl)
      rw [select, Value.iterate_eq hadmits hascending, Value.targets]
      refine Outcome.ofList_bind_forall₂ hitems fun item part hpart heq => ?_
      rw [heq]
      exact ih (hparts part hpart) _

end Run

theorem Feed.evaluate_access {call : Call} {scope : Scope} {path : List (Selector Pipeline)}
    {steps : List Step} (hpath : List.Forall₂ (Selector.Takes call scope) path steps) {v : Value}
    (h : v.Walkable steps) :
    evaluate call [.access [] path] scope v = .ok (v.targets steps) := by
  rw [evaluate_eq, Run.pipeline_access, Run.pipeline, Outcome.one_bind, Run.select_targets hpath h,
    Outcome.collect_ofList]

/-! ### Writing -/

/-- The second value is the first with the slots of a path filled. -/
def Updated (fill : Assign.Fill) : List Step → Value → Value → Prop
  | [], v, v' => fill v = .ok [v']
  | s :: rest, v, v' => ∃ g : Value → Value,
    (∀ part ∈ v.parts s, Updated fill rest part.2 (g part.2)) ∧
      Replaced (fun c => c.overwrite (g c)) (v.outline.places s) v v'

/-- A write with one candidate for each target fills the slots. -/
theorem Run.assign_updated {call : Call} {scope : Scope} {path : List (Selector Pipeline)}
    {steps : List Step} (hpath : List.Forall₂ (Selector.Takes call scope) path steps)
    {fill : Assign.Fill} {v : Value} (h : v.Walkable steps)
    (hfill : ∀ t ∈ v.targets steps, ∃ w, fill t = .ok [w]) (input : Value) (op : AssignmentOp) :
    ∃ v', assign call path scope input op fill v = .ok [v'] ∧ Updated fill steps v v' := by
  induction hpath generalizing v with
  | nil =>
    obtain ⟨w, hw⟩ := hfill v List.mem_cons_self
    exact ⟨w, by rw [assign, hw], hw⟩
  | @cons selector s path rest htakes _ ih =>
    obtain ⟨hascending, hadmits, hparts⟩ := h
    have hrest : ∀ c ∈ (v.parts s).map Prod.snd, ∃ c',
        assign call path scope input op fill c = .ok [c'] ∧ Updated fill rest c c' := by
      intro c hc
      obtain ⟨part, hpart, rfl⟩ := List.mem_map.1 hc
      exact ih (hparts part hpart) fun t ht => hfill t (List.mem_flatMap.2 ⟨part, hpart, ht⟩)
    choose! g hg using hrest
    have hone : ∀ part ∈ v.parts s, assign call path scope input op fill part.2 = .ok [g part.2] :=
      fun part hpart => (hg part.2 (List.mem_map_of_mem hpart)).1
    have hupdated : ∀ part ∈ v.parts s, Updated fill rest part.2 (g part.2) :=
      fun part hpart => (hg part.2 (List.mem_map_of_mem hpart)).2
    cases htakes with
    | @field key ks hkey optional =>
      have hks : (pipeline call key scope input).collect = .ok ks := by
        rw [← Feed.evaluate_eq, hkey]
      obtain ⟨v', hv', hreplaced⟩ := Assign.keys_replaced hascending hadmits hone optional
      refine ⟨v', ?_, g, hupdated, hreplaced⟩
      rw [assign, hks]
      exact hv'
    | iterate optional =>
      obtain ⟨v', hv', hreplaced⟩ := Assign.each_replaced hascending hadmits hone optional
      exact ⟨v', by rw [assign, hv'], g, hupdated, hreplaced⟩

/-! ### Reading what was written -/

/-- The second value is what the first is filled with, up to equality. -/
def Filled (fill : Assign.Fill) (t o : Value) : Prop := ∃ w, fill t = .ok [w] ∧ o.same w = true

theorem Filled.forall₂_of_same {fill : Assign.Fill} {ts os us : List Value}
    (h : List.Forall₂ (Filled fill) ts os)
    (hsame : List.Forall₂ (fun u o => u.same o = true) us os) :
    List.Forall₂ (Filled fill) ts us := by
  induction h generalizing us with
  | nil =>
    cases hsame
    exact .nil
  | cons hto _ ih =>
    obtain ⟨w, hw, how⟩ := hto
    cases hsame with
    | cons huo hus =>
      rw [Value.same_iff] at huo how
      exact .cons ⟨w, hw, (Value.same_iff _ _).2 (huo.trans how)⟩ (ih hus)

namespace Updated

variable {fill : Assign.Fill} {steps rest : List Step} {s : Step} {v v' : Value}

theorem outline_eq (h : Updated fill (s :: rest) v v') : v'.outline = v.outline := by
  obtain ⟨g, -, hreplaced⟩ := h
  exact hreplaced.outline_eq

/-- A part that the path leads to is filled in turn, and kept if that makes no difference. -/
theorem child_at (h : Updated fill (s :: rest) v v') {p : Place} (hp : p ∈ v.outline.places s)
    {c : Value} (hc : v.child? p = some c) :
    ∃ c', Updated fill rest c c' ∧ v'.child? p = some (c.overwrite c') := by
  obtain ⟨g, hparts, hreplaced⟩ := h
  refine ⟨g c, hparts (p, c) (Value.mem_parts.2 ⟨hp, hc⟩), ?_⟩
  rw [hreplaced.child_eq, if_pos hp, hc]
  rfl

theorem plain_eq (h : Updated fill (s :: rest) v v') (hplain : v.outline = .plain) : v' = v := by
  obtain ⟨g, -, hreplaced⟩ := h
  exact hreplaced.plain_eq hplain

theorem child_beside (h : Updated fill (s :: rest) v v') {p : Place}
    (hp : p ∉ v.outline.places s) : v'.child? p = v.child? p := by
  obtain ⟨g, -, hreplaced⟩ := h
  rw [hreplaced.child_eq, if_neg hp]

/-- A path that led through the value leads through the updated value. -/
theorem walkable (h : Updated fill steps v v') (hwalk : v.Walkable steps) :
    v'.Walkable steps := by
  induction steps generalizing v v' with
  | nil => trivial
  | cons s rest ih =>
    obtain ⟨hascending, hadmits, hparts⟩ := hwalk
    rw [← h.outline_eq] at hascending hadmits
    refine ⟨hascending, hadmits, fun part hpart => ?_⟩
    obtain ⟨hplace, hchild⟩ := Value.mem_parts.1 hpart
    rw [h.outline_eq] at hplace
    obtain ⟨c, hc⟩ := Value.exists_child hplace
    obtain ⟨c', hupdated, hc'⟩ := h.child_at hplace hc
    have hwalkc : c.Walkable rest := hparts (part.1, c) (Value.mem_parts.2 ⟨hplace, hc⟩)
    rw [hchild, Option.some.injEq] at hc'
    rw [hc']
    rcases c.overwrite_or c' with heq | heq
    · rw [heq]
      exact hwalkc
    · rw [heq]
      exact ih hupdated hwalkc

/-- In the updated value the path leads to what the targets were filled with, up to equality. -/
theorem targets (h : Updated fill steps v v') :
    List.Forall₂ (Filled fill) (v.targets steps) (v'.targets steps) := by
  induction steps generalizing v v' with
  | nil => exact .cons ⟨v', h, (Value.same_iff v' v').2 rfl⟩ .nil
  | cons s rest ih =>
    have hparts : List.Forall₂
        (fun x y => List.Forall₂ (Filled fill) (x.2.targets rest) (y.2.targets rest))
        (v.parts s) (v'.parts s) := by
      refine Value.parts_forall₂
        (R := fun c d => List.Forall₂ (Filled fill) (c.targets rest) (d.targets rest))
        h.outline_eq fun p hp c hc => ?_
      obtain ⟨c', hupdated, hc'⟩ := h.child_at hp hc
      have hsame := Value.targets_of_same rest (c.overwrite_same c')
      exact ⟨c.overwrite c', hc', Filled.forall₂_of_same (ih hupdated) hsame⟩
    exact List.rel_flatMap hparts fun x y hxy => hxy

/-! ### What is not written -/

/-- A path without slots leaves the value alone. -/
theorem eq_of_slots_eq_nil (h : Updated fill steps v v') (hwalk : v.Walkable steps)
    (hslots : v.slots steps = []) : v' = v := by
  induction steps generalizing v v' with
  | nil => cases hslots
  | cons s rest ih =>
    obtain ⟨hascending, -, hparts⟩ := hwalk
    rw [Value.slots, List.flatMap_eq_nil_iff] at hslots
    refine Value.ext_child hascending h.outline_eq h.plain_eq fun p => ?_
    by_cases hp : p ∈ v.outline.places s
    · obtain ⟨c, hc⟩ := Value.exists_child hp
      have hpart : (p, c) ∈ v.parts s := Value.mem_parts.2 ⟨hp, hc⟩
      obtain ⟨c', hupdated, hc'⟩ := h.child_at hp hc
      rw [hc', hc, ih hupdated (hparts _ hpart) (List.map_eq_nil_iff.1 (hslots _ hpart)),
        Value.overwrite_self]
    · exact h.child_beside hp

/-- What is neither at a slot nor below one is as before, or it is above a slot and keeps its
    outline. -/
theorem frame (h : Updated fill steps v v') (hwalk : v.Walkable steps) {l : List Place}
    (hl : ∀ slot ∈ v.slots steps, ¬ slot <+: l) :
    v'.at? l = v.at? l ∨ ((∃ slot ∈ v.slots steps, l <+: slot) ∧
      (v'.at? l).map Value.outline = (v.at? l).map Value.outline) := by
  induction steps generalizing v v' l with
  | nil => exact absurd (List.nil_prefix) (hl [] List.mem_cons_self)
  | cons s rest ih =>
    cases l with
    | nil =>
      -- The value itself is above every slot, and changes only if there is one.
      cases hslots : v.slots (s :: rest) with
      | nil =>
        rw [h.eq_of_slots_eq_nil hwalk hslots]
        exact .inl rfl
      | cons slot slots =>
        refine .inr ⟨⟨slot, List.mem_cons_self, List.nil_prefix⟩, ?_⟩
        simp only [Value.at?, Option.map_some, h.outline_eq]
    | cons p l =>
      by_cases hp : p ∈ v.outline.places s
      · obtain ⟨c, hc⟩ := Value.exists_child hp
        have hpart : (p, c) ∈ v.parts s := Value.mem_parts.2 ⟨hp, hc⟩
        have hslot : ∀ slot ∈ c.slots rest, p :: slot ∈ v.slots (s :: rest) :=
          fun slot hslot => List.mem_flatMap.2 ⟨(p, c), hpart, List.mem_map_of_mem hslot⟩
        obtain ⟨c', hupdated, hc'⟩ := h.child_at hp hc
        simp only [Value.at?, hc, hc', Option.bind_some]
        -- A part that comes out equal is kept as it is.
        rcases c.overwrite_or c' with heq | heq
        · rw [heq]
          exact .inl rfl
        · rw [heq]
          have hbelow : ∀ slot ∈ c.slots rest, ¬ slot <+: l := fun slot hmem hprefix =>
            hl (p :: slot) (hslot slot hmem) (List.cons_prefix_cons.2 ⟨rfl, hprefix⟩)
          refine (ih hupdated (hwalk.2.2 _ hpart) hbelow).imp_right ?_
          rintro ⟨⟨slot, hmem, hprefix⟩, houtline⟩
          exact ⟨⟨p :: slot, hslot slot hmem, List.cons_prefix_cons.2 ⟨rfl, hprefix⟩⟩, houtline⟩
      · left
        rw [Value.at?, Value.at?, h.child_beside hp]

end Updated

/-! ### Updates -/

/-- An update along a path of keys and iterations, on a document in which everything on the path is
    there, with a right side that has one output on each target: there is one document, the path
    leads to these outputs in it, what is beside the slots is unchanged, and what is above them
    keeps its outline. -/
theorem Feed.evaluate_update {call : Call} {scope : Scope} {path : List (Selector Pipeline)}
    {steps : List Step} (hpath : List.Forall₂ (Selector.Takes call scope) path steps)
    {document : Value} (horderly : document.Orderly) (hpresent : document.Present steps)
    {targets : List Value} (hread : evaluate call [.access [] path] scope document = .ok targets)
    {value : Pipeline} (hvalue : ∀ t ∈ targets, ∃ w, evaluate call value scope t = .ok [w]) :
    (document.slots steps).map document.at? = targets.map some ∧
    ∃ updated, evaluate call [.assign [] path .update value] scope document = .ok [updated] ∧
      (∃ outputs, evaluate call [.access [] path] scope updated = .ok outputs ∧
        List.Forall₂ (fun t o => ∃ w, evaluate call value scope t = .ok [w] ∧ o.same w = true)
          targets outputs) ∧
      (∀ l, (∀ slot ∈ document.slots steps, ¬ slot <+: l ∧ ¬ l <+: slot) →
        updated.at? l = document.at? l) ∧
      ∀ l, (∀ slot ∈ document.slots steps, ¬ slot <+: l) →
        (updated.at? l).map Value.outline = (document.at? l).map Value.outline := by
  have hwalk : document.Walkable steps := hpresent.walkable horderly
  obtain rfl : document.targets steps = targets := by
    rw [evaluate_access hpath hwalk] at hread
    exact Except.ok.inj hread
  obtain ⟨updated, hassign, hupdated⟩ :=
    Run.assign_updated hpath hwalk hvalue document .update
  refine ⟨document.map_at?_slots steps, updated, ?_, ⟨_, ?_, hupdated.targets⟩, ?_, ?_⟩
  · have hfill : Run.assigned .update (fun _ => Run.pipeline call value scope document)
        (Run.pipeline call value scope) = evaluate call value scope := by
      funext t
      rw [Run.assigned, evaluate_eq]
    rw [evaluate_eq, Run.pipeline_assign, Run.pipeline, Outcome.one_bind,
      Outcome.collect_ofExcept, hfill, hassign]
  · exact evaluate_access hpath (hupdated.walkable hwalk)
  · intro l hl
    rcases hupdated.frame hwalk fun slot hslot => (hl slot hslot).1 with h | ⟨⟨slot, hmem, h⟩, -⟩
    · exact h
    · exact absurd h (hl slot hmem).2
  · intro l hl
    rcases hupdated.frame hwalk hl with h | ⟨-, h⟩
    · rw [h]
    · exact h

/-- `.a[0, -2]?[]` -/
def firstTwice : List (Selector Pipeline) :=
  [.named "a" false, .field [.concat [[.number (.ofNat 0)], [.number (.ofNat 2), .negate]]] true,
    .iterate false]

/-- The steps of `firstTwice`. -/
def firstTwiceSteps : List Step :=
  [.keys [.string "a"], .keys [.number (.ofNat 0), .number (Number.ofNat 2).neg], .each]

/-- `{"a": [{"x": "p", "y": null}, "q"], "b": true}` -/
def pairDocument : Value :=
  .object [("a", .array [.object [("x", .string "p"), ("y", .null)], .string "q"]),
    ("b", .bool true)]

theorem firstTwice_takes :
    List.Forall₂ (Selector.Takes (Run.call 0) []) firstTwice firstTwiceSteps := by
  refine .cons ?_ (.cons (.field (fun _ => rfl) true) (.cons (.iterate false) .nil))
  exact .literals [.string "a"] (by simp [Value.IsJson.string]) false

theorem firstTwice_toIndex :
    (Number.ofNat 0).toIndex = 0 ∧ (Number.ofNat 2).neg.toIndex = -2 := by decide +kernel

theorem pairDocument_isJson : pairDocument.IsJson := by
  refine .object (by decide) ?_
  simp only [List.mem_cons, List.not_mem_nil, or_false, forall_eq_or_imp, forall_eq]
  refine ⟨.array ?_, .bool true⟩
  simp only [List.mem_cons, List.not_mem_nil, or_false, forall_eq_or_imp, forall_eq]
  refine ⟨.object (by decide) ?_, .string "q"⟩
  simp only [List.mem_cons, List.not_mem_nil, or_false, forall_eq_or_imp, forall_eq]
  exact ⟨.string "p", .null⟩

theorem pairDocument_present : pairDocument.Present firstTwiceSteps := by
  simp [pairDocument, firstTwiceSteps, Value.Present, Value.field, Value.iterate, Entries.get?,
    Items.get?_eq, Items.position?, Items.resolve, firstTwice_toIndex]

theorem slots_pairDocument : pairDocument.slots firstTwiceSteps =
    [[.entry "a", .element 0, .entry "x"], [.entry "a", .element 0, .entry "y"],
      [.entry "a", .element 0, .entry "x"], [.entry "a", .element 0, .entry "y"]] := by
  simp [pairDocument, firstTwiceSteps, Value.slots, Value.parts, Value.outline, Outline.places,
    Outline.place?, Value.child?, Entries.keys, Entries.get?, Items.position?, Items.resolve,
    firstTwice_toIndex]

/-- The first element of an array, named by two indices, has its entries put into arrays. -/
theorem Feed.evaluate_update_firstTwice :
    ∃ updated, evaluate (Run.call 0) [.assign [] firstTwice .update [.array []]] [] pairDocument =
        .ok [updated] ∧
      updated.json = "\x7b\"a\":[\x7b\"x\":[\"p\"],\"y\":[null]\x7d,\"q\"],\"b\":true\x7d" ∧
      (∃ outputs, evaluate (Run.call 0) [.access [] firstTwice] [] updated = .ok outputs ∧
        List.Forall₂ (fun t o => ∃ w, evaluate (Run.call 0) [.array []] [] t = .ok [w] ∧
          o.same w = true) (pairDocument.targets firstTwiceSteps) outputs) ∧
      updated.at? [.entry "a", .element 1] = some (.string "q") := by
  have horderly := pairDocument_isJson.orderly
  have hread := evaluate_access firstTwice_takes (pairDocument_present.walkable horderly)
  have hvalue : ∀ t ∈ pairDocument.targets firstTwiceSteps,
      ∃ w, evaluate (Run.call 0) [.array []] [] t = .ok [w] := fun t _ => ⟨.array [t], rfl⟩
  obtain ⟨-, updated, hupdate, houtputs, hbeside, -⟩ :=
    evaluate_update firstTwice_takes horderly pairDocument_present hread hvalue
  refine ⟨updated, hupdate, ?_, houtputs, ?_⟩
  · have hjson : (evaluate (Run.call 0) [.assign [] firstTwice .update [.array []]] []
        pairDocument).toOption.map (·.map Value.json) =
          some ["\x7b\"a\":[\x7b\"x\":[\"p\"],\"y\":[null]\x7d,\"q\"],\"b\":true\x7d"] := by
      decide +kernel
    rw [hupdate] at hjson
    simpa [Except.toOption] using hjson
  · rw [hbeside _ (by simp [slots_pairDocument])]
    rfl

end JsonPipe
