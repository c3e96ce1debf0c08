import JsonPipe.Proofs.Source.Composition
import JsonPipe.Proofs.Source.Location
import JsonPipe.Proofs.Source.Paths
import JsonPipe.Proofs.Source.RoundTrip

/-! Groups that are accessed.

    A path starts from a group like from any other base: the group is read as the program in it, and
    the selectors behind it as they are read alone. But the base of an access is a pipeline, and a
    point has the empty one. A group that holds no more than that is taken for a point, and behind a
    point no selector has a point of its own: the path is not read, and the text goes on where it
    should end. -/

namespace JsonPipe.Source

open Reader

/-! ### Texts of paths -/

/-- Trivia, and as many selectors as follow. -/
def trail (depth : Nat) : Reader (List (Selector Pipeline)) := do
  skipTrivia
  path (route depth) false

/-- The text is a chain of selectors, the given ones. -/
def IsPath (text : String) (steps : List (Selector Pipeline)) : Prop :=
  ∃ b, trail (text.toList.length + 1) (.start text.toList) = .ok (steps, ⟨b, []⟩)

/-! ### What is behind the cursor

    A name may end right in front of a selector. The text alone is read behind nothing, so the two
    places are not alike; but no selector starts with a character of a name. -/

/-- Places with the same text ahead, whatever is behind them. -/
def Level (c d : Cursor) : Prop := c.after = d.after

/-- Passing over trivia is the same whatever is behind. -/
theorem skipTrivia_level {mode mode' : Cursor.Trivia} {b b' t : List Char} {c : Cursor}
    (hmode : mode.region = mode'.region) (h : Cursor.skipTrivia mode b t = .ok c) :
    ∃ d, Level c d ∧ Cursor.skipTrivia mode' b' t = .ok d := by
  fun_induction Cursor.skipTrivia mode b t generalizing mode' b' with
  | case1 b t ih => cases mode' <;> cases hmode; exact ih rfl h
  | case2 b t ih => cases mode' <;> cases hmode; exact ih rfl h
  | case3 b x t hopen hline hblank ih =>
    cases mode' <;> cases hmode
    rw [Cursor.skipTrivia.eq_3 _ x _ hopen hline, if_pos hblank]
    exact ih rfl h
  | case4 b x t hopen hline hblank =>
    cases mode' <;> cases hmode
    rw [Cursor.skipTrivia.eq_3 _ x _ hopen hline, if_neg hblank]
    cases h
    exact ⟨⟨b', x :: t⟩, rfl, rfl⟩
  | case5 b => cases mode' <;> cases hmode; cases h; exact ⟨⟨b', []⟩, rfl, rfl⟩
  | case6 b t ih => cases mode' <;> cases hmode; exact ih rfl h
  | case7 b x t hend ih =>
    cases mode' <;> cases hmode
    rw [Cursor.skipTrivia.eq_6 _ x _ hend]
    exact ih rfl h
  | case8 b => cases mode' <;> cases hmode; cases h; exact ⟨⟨b', []⟩, rfl, rfl⟩
  | case9 start b t ih => cases mode' <;> cases hmode; exact ih rfl h
  | case10 start b x t hopen ih =>
    cases mode' <;> cases hmode
    rw [Cursor.skipTrivia.eq_9 _ _ _ _ hopen]
    exact ih rfl h
  | case11 start b => cases h

theorem mirrors_skipTrivia_level :
    Mirrors Always Level skipTrivia skipTrivia fun _ => Level := by
  rintro c d hcd ⟨⟩ c' h -
  rw [skipTrivia_eq] at h
  cases hc : Cursor.skipTrivia .between c.before c.after with
  | error e => rw [hc] at h; cases h
  | ok e =>
    rw [hc] at h
    cases h
    have hsame : d = ⟨d.before, c.after⟩ := by rw [show c.after = d.after from hcd]
    obtain ⟨d', hd', hskip⟩ : ∃ d', Level c' d' ∧
        Cursor.skipTrivia .between d.before c.after = .ok d' := skipTrivia_level rfl hc
    refine ⟨d', hd', ?_⟩
    rw [hsame, skipTrivia_eq, hskip]
    rfl

/-- A symbol does not depend on what is behind it, and hides that from what comes after it. -/
theorem mirrors_symbol_level {s : String} (hs : s.toList ≠ []) (opened : List Opening) :
    Mirrors Always Level (symbol s) (symbol s)
      fun hit => bif hit then Seam.same.Settled opened else Level := by
  rintro ⟨b, t⟩ ⟨b', _⟩ ⟨⟩ hit c' h -
  rw [symbol, symbolNotBefore_eq, word] at h ⊢
  have hstands : stands s.toList "".toList.contains false ⟨b', t⟩ =
      stands s.toList "".toList.contains false ⟨b, t⟩ := by simp [stands]
  rw [hstands]
  split at h
  · next hhit =>
    obtain ⟨u, rfl⟩ := prefix_of_stands hhit
    obtain ⟨⟨⟩, e, hskip, hpure⟩ := bind_eq_ok h
    cases hpure
    have halike : Alike (s.toList.reverse ++ b) (s.toList.reverse ++ b') := by
      obtain ⟨x, xs, hx⟩ := List.exists_cons_of_ne_nil (List.reverse_ne_nil_iff.2 hs)
      rw [hx]
      rfl
    rw [IsToken.skipped_append] at hskip
    have hnear : Seam.same.Near .code opened ⟨s.toList.reverse ++ b, u⟩
        ⟨s.toList.reverse ++ b', u⟩ := .past ⟨rfl, halike⟩
    obtain ⟨d, hd, hskip'⟩ := Seam.same.mirrors_skipTrivia hnear hskip trivial
    refine ⟨d, hd, ?_⟩
    rw [if_pos hhit, IsToken.skipped_append, bind_ok hskip']
    rfl
  · next hmiss =>
    cases h
    exact ⟨⟨b', t⟩, rfl, if_neg hmiss⟩

section Selectors

variable {inner inner' : Rule} (hf : Forward inner) (hf' : Forward inner')
  (hinner : Seam.same.Carries Always inner inner')
include hf hf' hinner

theorem mirrors_selector_level :
    Mirrors Always Level (selector inner true) (selector inner' true)
      fun o => bif o.isSome then Seam.same.Settled [] else Level := by
  have hcall : ∀ bound : Bool, Mirrors Always (Seam.same.Settled [.group])
      (do return some (Selector.call (← arguments inner) bound))
      (do return some (Selector.call (← arguments inner') bound))
      fun o => bif o.isSome then Seam.same.Settled [] else Level :=
    fun bound => (mirrors_arguments Seam.same hf hf' hinner).andThen fun _ =>
      mirrors_pure _ fun _ _ h => h
  have hbody : Mirrors Always Level (selectorBody inner true) (selectorBody inner' true)
      fun o => bif o.isSome then Seam.same.Settled [] else Level := by
    refine (mirrors_symbol_level (by decide) []).andThen fun point => ?_
    cases point with
    | true =>
      exact (carries_fieldName Seam.same hf hf' hinner []).andThen fun _ =>
        mirrors_pure _ fun _ _ h => h
    | false =>
      refine (mirrors_symbol_level (by decide) []).andThen fun bracket => ?_
      cases bracket with
      | true =>
        exact (carries_bracket Seam.same hf hf' hinner []).andThen fun _ =>
          mirrors_pure _ fun _ _ h => h
      | false =>
        refine (mirrors_symbol_level (by decide) []).andThen fun arrow => ?_
        cases arrow with
        | true =>
          refine (mirrors_openParen Seam.same).andThen fun paren => ?_
          cases paren with
          | true => exact hcall true
          | false => exact mirrors_expected _ _ _
        | false =>
          refine (mirrors_symbol_level (by decide) [.group]).andThen fun paren => ?_
          cases paren with
          | true => exact hcall false
          | false => exact mirrors_pure none fun _ _ h => h
  refine hbody.andThen fun found => ?_
  cases found with
  | none => exact mirrors_pure none fun _ _ h => h
  | some build =>
    exact (Seam.same.carries_symbolNotBefore (by decide) (by decide) []).andThen fun _ =>
      mirrors_pure _ fun _ _ h => h

theorem mirrors_path_level :
    Mirrors Always Level (path inner false) (path inner' false) fun _ => Level := by
  refine (mirrors_selector_level hf hf' hinner).andThen fun found => ?_
  cases found with
  | none => exact mirrors_pure [] fun _ _ h => h
  | some first =>
    have hmany : Mirrors (fun _ _ => True) (Seam.same.Settled []) (many (selector inner true))
        (many (selector inner' true)) fun _ => Seam.same.Settled [] :=
      Mirrors.many ((carries_selector Seam.same hf hf' hinner true []).imp fun o _ _ h => by
          cases o <;> exact h) (selector_advances hf true) (selector_advances hf' true)
        (fun _ _ => trivial) fun _ _ _ _ _ _ => trivial
    exact hmany.andThen fun _ => mirrors_pure _ fun _ _ h => (Seam.same_linked h).1

end Selectors

/-! ### Where a path starts -/

/-- If the text goes on, it does with a character that a selector starts with. -/
def Selects (t : List Char) : Prop :=
  ∀ x, t.head? = some x → x = '.' ∨ x = '[' ∨ x = '-' ∨ x = '('

/-- A text that is a path is empty or starts with a selector. -/
theorem selects_of_path {inner : Rule} {u : List Char} {steps : List (Selector Pipeline)}
    {b b' : List Char} (h : path inner false ⟨b, u⟩ = .ok (steps, ⟨b', []⟩)) : Selects u := by
  intro x hx
  obtain ⟨t, rfl⟩ := List.head?_eq_some_iff.1 hx
  by_contra hnone
  obtain ⟨hpoint, hbracket, hdash, hparen⟩ : x ≠ '.' ∧ x ≠ '[' ∧ x ≠ '-' ∧ x ≠ '(' := by
    simpa only [not_or] using hnone
  have hlacks : lacks 0 (x :: t) = true := by
    simp [lacks, joints, begins, List.isPrefixOf, hpoint.symm, hbracket.symm, hdash.symm,
      hparen.symm]
  have hread : Takes Anywhere Anywhere (path inner false) (x :: t) [] (x :: t) :=
    path_miss hlacks false
  obtain ⟨b'', -, hmiss⟩ := hread b trivial
  rw [hmiss] at h
  cases h

/-- No selector starts like a name or a question mark. -/
theorem Selects.edge {t : List Char} (h : Selects t) :
    BreaksOff t ∧ begins "?" "?=" t = false := by
  cases t with
  | nil => exact ⟨rfl, rfl⟩
  | cons x t => rcases h x rfl with rfl | rfl | rfl | rfl <;> exact ⟨rfl, rfl⟩

theorem path_eq_many {inner : Rule} (hf : Forward inner) :
    path inner false = many (selector inner true) := by
  rw [many_unroll (selector_advances hf true), path]
  refine congrArg (selector inner true >>= ·) (funext fun found => ?_)
  cases found <;> rfl

/-- A path is read behind anything as it is read alone. -/
theorem IsPath.takes {text : String} {steps : List (Selector Pipeline)} (h : IsPath text steps)
    {depth : Nat} (hdepth : text.toList.length < depth) :
    ∃ u, Takes Anywhere Anywhere skipTrivia text.toList () u ∧
      Takes Anywhere Anywhere (path (route depth) false) u steps [] ∧
      Selects u := by
  obtain ⟨b₁, htrail⟩ := h
  obtain ⟨⟨⟩, ⟨b₀, u⟩, hskip, hpath⟩ := bind_eq_ok htrail
  refine ⟨u, fun b _ => ?_, fun b _ => ?_, selects_of_path hpath⟩
  · obtain ⟨⟨b', _⟩, ⟨⟩, hskip'⟩ :=
      mirrors_skipTrivia_level (c := .start text.toList) (d := ⟨b, text.toList⟩) rfl hskip trivial
    exact ⟨b', trivial, hskip'⟩
  · have hmirrors := mirrors_path_level (forward_route (text.toList.length + 1))
      (forward_route depth) (carries_route Seam.same hdepth)
    obtain ⟨⟨b', _⟩, ⟨⟩, hpath'⟩ := hmirrors (c := ⟨b₀, u⟩) (d := ⟨b, u⟩) rfl hpath trivial
    exact ⟨b', trivial, hpath'⟩

/-- A name with any trivia after it. -/
theorem variableName_trivia {name : String} (hname : IsVariableName name) {t u : List Char}
    (hbreak : BreaksOff t) (hskip : Takes Anywhere Anywhere skipTrivia t () u)
    (hu : BreaksOff u) : Reads variableName (name.toList ++ t) (some name) u := by
  intro b _
  obtain ⟨b', -, hskip'⟩ := hskip (name.toList.reverse ++ b) trivial
  refine ⟨b', .inr hu, ?_⟩
  simp only [variableName, nextName?_append b hname.starts hname.chars hbreak,
    String.ofList_toList, hname.free, Bool.false_eq_true, if_false, hskip']
  rfl

theorem isSolid_of_name {x : Char} (hx : isNameChar x = true) (t : List Char) :
    isSolid (x :: t) = true := by
  have hne : x ≠ '/' ∧ x ≠ '#' := by
    constructor <;> rintro rfl <;> revert hx <;> decide
  exact isSolid_cons (fun _ h => absurd h hne.1) hne.2 (by simp [isBlank_of_isNameChar hx])

theorem stripped_of_isSolid {t : List Char} (h : isSolid t = true) : stripped t = t := by
  unfold stripped
  split
  · cases h
  · rfl

/-- A name and its trivia, in front of nothing or of a selector. -/
theorem named_selector_reads {inner : Rule} {name : String} (hname : IsVariableName name)
    {t u : List Char} (hbreak : BreaksOff t) (hskip : Takes Anywhere Anywhere skipTrivia t () u)
    (hu : Selects u) :
    Reads (selector inner true) ('.' :: (name.toList ++ t)) (some (.named name false)) u := by
  obtain ⟨hbreaks, hmark⟩ := hu.edge
  obtain ⟨x, rest, hcons⟩ : ∃ x rest, name.toList = x :: rest := by
    have hstart := hname.starts
    cases hname : name.toList with
    | nil => rw [hname] at hstart; cases hstart
    | cons x rest => exact ⟨x, rest, rfl⟩
  have hsolid : isSolid (name.toList ++ t) = true := by
    rw [hcons]
    exact isSolid_of_name (hname.chars x (by rw [hcons]; exact List.mem_cons_self)) _
  have hstripped := stripped_of_isSolid hsolid
  have hpoint := symbol_takes Apart "." (t := name.toList ++ t) rfl (by decide)
    (by rw [isTidy, hstripped, hsolid])
  rw [hstripped] at hpoint
  have hfield : Reads (fieldName inner) (name.toList ++ t) [.string name] u :=
    (variableName_trivia hname hbreak hskip hbreaks).bind (takes_pure _)
  have hbody : Reads (selectorBody inner true) ('.' :: (name.toList ++ t))
      (some (.field [.string name])) u :=
    hpoint.bind (hfield.bind (takes_pure _))
  exact hbody.bind ((symbol_miss hmark).bind (takes_pure _))

/-- A name and a path, behind a base. -/
theorem named_path_reads {name : String} (hname : IsVariableName name) {text : String}
    {steps : List (Selector Pipeline)} (h : IsPath text steps) {depth : Nat}
    (hdepth : text.toList.length < depth) :
    Reads (path (route depth) false) ('.' :: (name.toList ++ text.toList))
      (.named name false :: steps) [] := by
  obtain ⟨u, hskip, hpath, hselects⟩ := h.takes hdepth
  have hbreak : BreaksOff text.toList := by
    rw [BreaksOff, ← Bool.not_eq_true]
    intro hchar
    cases htext : text.toList with
    | nil => rw [htext] at hchar; cases hchar
    | cons x t =>
      rw [htext] at hskip hchar
      -- a character of a name is not skipped, but no path starts with one
      obtain ⟨b, -, hskip⟩ := hskip [] trivial
      rw [skipTrivia_eq, skipTrivia_solid (isSolid_of_name hchar t)] at hskip
      cases hskip
      exact absurd hselects.edge.1 (by rw [BreaksOff, hchar]; decide)
  have hmany : Reads (many (selector (route depth) true)) u steps [] := by
    rw [← path_eq_many (forward_route depth)]
    intro b _
    obtain ⟨b', -, hread⟩ := hpath b trivial
    exact ⟨b', .inr rfl, hread⟩
  exact (named_selector_reads hname hbreak hskip hselects).bind (hmany.bind (takes_pure _))

/-! ### Groups in front of a path -/

section Groups

variable {s : String} {p : Pipeline} (h : Pipeline.parse s = .ok p) {depth : Nat}
  (hdepth : s.toList.length < depth) {rest : List Char}
include h hdepth

/-- A group is the base of what a point is behind. -/
theorem accessBase_group :
    Reads (accessBase (route depth)) ('(' :: (s.toList ++ '\n' :: ')' :: '.' :: rest)) (p, [])
      ('.' :: rest) := by
  have hgroup : Reads (group (route depth)) ('(' :: (s.toList ++ '\n' :: ')' :: '.' :: rest)) p
      ('.' :: rest) :=
    group_reads (Seam.newline (')' :: '.' :: rest) rfl) rfl h trivial hdepth rfl rfl
  have hprimary : Reads (primary (route depth))
      ('(' :: (s.toList ++ '\n' :: ')' :: '.' :: rest)) p ('.' :: rest) :=
    Takes.bind (fun b hb => ⟨b, hb, rfl⟩) hgroup
  exact (symbol_miss rfl).bind (hprimary.bind (takes_pure _))

/-- A group with something in it is accessed. -/
theorem valueAccess_group {step : Selector Pipeline} {steps : List (Selector Pipeline)}
    (hp : p ≠ []) (hpath : Reads (path (route depth) false) ('.' :: rest) (step :: steps) []) :
    Reads (valueAccess (route depth)) ('(' :: (s.toList ++ '\n' :: ')' :: '.' :: rest))
      [.access p (step :: steps)] [] := by
  refine (accessBase_group h hdepth).bind ?_
  cases p with
  | nil => exact absurd rfl hp
  | cons i p => exact hpath.bind ((assignmentTo_miss _ _ .nothing).bind (takes_pure _))

omit h in
/-- Behind a group with the empty pipeline no path is read. -/
theorem valueAccess_point_group (h : Pipeline.parse s = .ok []) :
    Reads (valueAccess (route depth)) ('(' :: (s.toList ++ '\n' :: ')' :: '.' :: rest)) []
      ('.' :: rest) := by
  refine (accessBase_group h hdepth).bind ?_
  have hpath : Reads (path (route depth) true) ('.' :: rest) [] ('.' :: rest) := by
    have hbody : Reads (selectorBody (route depth) false) ('.' :: rest) none ('.' :: rest) :=
      (symbol_miss rfl).bind ((symbol_miss rfl).bind ((symbol_miss rfl).bind (takes_pure none)))
    exact Takes.bind (hbody.bind (takes_pure none)) (takes_pure [])
  exact hpath.bind (takes_pure _)

end Groups

/-! ### Where the text goes on with a point -/

theorem lacks_point (level : Nat) (rest : List Char) : lacks (level + 1) ('.' :: rest) = true := by
  match level with
  | 0 | 1 | 2 | 3 | 4 | 5 | 6 | 7 => rfl
  | level + 8 => rfl

/-- Above the level of selectors a point is nothing that a level looks for. -/
theorem climb_point {inner : Rule} {t rest : List Char} {p : Pipeline} (hbare : Bare t)
    (h : Reads (rung inner 0) t p ('.' :: rest)) {level : Nat} (hlevel : level ≤ 9) :
    Reads (rung inner level) t p ('.' :: rest) := by
  induction level with
  | zero => exact h
  | succ level ih =>
    exact step_up hlevel (ih (Nat.le_of_succ_le hlevel)) (lacks_point level rest)
      fun _ => hbare.no_word "not" rfl

/-- A program that goes on behind its pipeline is reported there. -/
theorem parse_of_rest {t rest : List Char} {p : Pipeline} {x : Char} (hsolid : isSolid t = true)
    (h : Reads (pipe (route (t.length + 1))) t p (x :: rest)) :
    ∃ read, t = read ++ x :: rest ∧
      Pipeline.parse (String.ofList t) = .error ⟨.program, "expected EOT", bytes read⟩ := by
  obtain ⟨b, -, hpipe⟩ := h [] (.inl rfl)
  obtain ⟨read, htext, hoffset⟩ := ((forward_pipe (forward_route _)).ends hpipe).of_start
  refine ⟨read, htext, ?_⟩
  change pipe (route (t.length + 1)) (.start t) = _ at hpipe
  have hskip : skipTrivia (.start t) = .ok ((), .start t) := by
    rw [skipTrivia_eq, Cursor.start, skipTrivia_solid hsolid]
    rfl
  have hprogram : program (t.length + 1) (.start t) =
      .error ⟨.program, "expected EOT", bytes read⟩ := by
    rw [program, bind_ok hskip, bind_ok hpipe, ← hoffset]
    rfl
  rw [Pipeline.parse, String.toList_ofList]
  simp only [hprogram]
  rfl

end JsonPipe.Source

namespace JsonPipe

open Source

/-- A program in parentheses is the base of the path behind it, unless it is the empty pipeline:
    then the point of the path is where the program should have ended. -/
theorem Pipeline.parse_group_path {s name text : String} {p : Pipeline}
    {steps : List (Selector Pipeline)} (hs : Pipeline.parse s = .ok p)
    (hname : IsVariableName name) (hpath : IsPath text steps) :
    Pipeline.parse ("(" ++ s ++ "\n)." ++ name ++ text) =
      if p.isEmpty then .error ⟨.program, "expected EOT", ("(" ++ s ++ "\n)").utf8ByteSize⟩
      else .ok [.access p (.named name false :: steps)] := by
  have htext : "(" ++ s ++ "\n)." ++ name ++ text = String.ofList
      ('(' :: (s.toList ++ '\n' :: ')' :: '.' :: (name.toList ++ text.toList))) := by
    apply String.toList_injective
    simp
  have hdepth : s.toList.length <
      ('(' :: (s.toList ++ '\n' :: ')' :: '.' :: (name.toList ++ text.toList))).length := by
    simp only [List.length_cons, List.length_append]
    omega
  have hdepth' : text.toList.length <
      ('(' :: (s.toList ++ '\n' :: ')' :: '.' :: (name.toList ++ text.toList))).length := by
    simp only [List.length_cons, List.length_append]
    omega
  have hbare := Bare.paren (s.toList ++ '\n' :: ')' :: '.' :: (name.toList ++ text.toList))
  rw [htext]
  cases p with
  | cons i p =>
    have haccess := valueAccess_group hs hdepth (List.cons_ne_nil i p)
      (named_path_reads hname hpath hdepth')
    have hdisjunction := climb (Nat.zero_le 9) (Nat.le_refl 9) (hbare.negation haccess) rfl
      fun _ => hbare.no_word "not" rfl
    exact parse_of_reads (program_of_pipe rfl
      (pipe_one (attempt_one hdisjunction (hbare.no_word "try" rfl)) rfl rfl))
  | nil =>
    have haccess : Reads (valueAccess _) ('(' :: (s.toList ++ '\n' :: ')' :: '.' ::
        (name.toList ++ text.toList))) [] ('.' :: (name.toList ++ text.toList)) :=
      valueAccess_point_group hdepth hs
    have hdisjunction := climb_point hbare (hbare.negation haccess) (Nat.le_refl 9)
    obtain ⟨read, hread, hparse⟩ := parse_of_rest rfl
      (pipe_one (attempt_one hdisjunction (hbare.no_word "try" rfl)) rfl rfl)
    have hgroup : read = ("(" ++ s ++ "\n)").toList := by
      have hsplit : ("(" ++ s ++ "\n)").toList ++ '.' :: (name.toList ++ text.toList) =
          read ++ '.' :: (name.toList ++ text.toList) := by
        rw [← hread]
        simp
      exact (List.append_cancel_right hsplit).symm
    rw [hparse, hgroup, bytes, String.ofList_toList]
    rfl

/-- A group that ends in a comment, in front of a path that starts with one. -/
theorem Pipeline.parse_group_path_comments :
    ∃ p steps, Pipeline.parse "try f # )" = .ok p ∧ IsVariableName "tried" ∧
      IsPath "# (\n[0]?.b" steps ∧ p.print = "try (f)" ∧ steps.length = 2 ∧
      Pipeline.parse ("(" ++ "try f # )" ++ "\n)." ++ "tried" ++ "# (\n[0]?.b") =
        .ok [.access p (.named "tried" false :: steps)] := by
  have hprint : (Pipeline.parse "try f # )").toOption.map Pipeline.print = some "try (f)" := by
    decide +kernel
  have htrail : (trail 11 (.start "# (\n[0]?.b".toList)).toOption.map
      (fun r => (r.1.length, r.2.after)) = some (2, []) := by
    decide +kernel
  have hname : IsVariableName "tried" :=
    ⟨by decide, List.all_eq_true.1 (by decide), by decide⟩
  cases hp : Pipeline.parse "try f # )" with
  | error e => rw [hp] at hprint; cases hprint
  | ok p =>
    cases hsteps : trail 11 (.start "# (\n[0]?.b".toList) with
    | error e => rw [hsteps] at htrail; cases htrail
    | ok r =>
      obtain ⟨steps, b, after⟩ := r
      rw [hp] at hprint
      rw [hsteps] at htrail
      obtain ⟨hlength, hafter⟩ := Prod.mk.inj (Option.some.inj htrail)
      subst hafter
      have hpath : IsPath "# (\n[0]?.b" steps := ⟨b, hsteps⟩
      have hne : p.isEmpty = false := by
        cases p with
        | nil => revert hprint; decide
        | cons i p => rfl
      have hparse := Pipeline.parse_group_path hp hname hpath
      rw [hne] at hparse
      exact ⟨p, steps, rfl, hname, hpath, Option.some.inj hprint, hlength, hparse⟩

/-- The group with a point alone cannot be accessed. -/
theorem Pipeline.parse_point_group :
    Pipeline.parse "." = .ok [] ∧ IsVariableName "a" ∧ IsPath "" [] ∧
      Pipeline.parse ("(" ++ "." ++ "\n)." ++ "a" ++ "") =
        .error ⟨.program, "expected EOT", 4⟩ ∧
      Pipeline.parse ("(" ++ "." ++ "\n)." ++ "a" ++ "") ≠ .ok [.access [] [.named "a" false]] := by
  have herror : Pipeline.parse ("(" ++ "." ++ "\n)." ++ "a" ++ "") =
      .error ⟨.program, "expected EOT", 4⟩ := by
    have hread : (match Pipeline.parse ("(" ++ "." ++ "\n)." ++ "a" ++ "") with
        | .ok _ => none
        | .error e => some e) = some ⟨.program, "expected EOT", 4⟩ := by decide +kernel
    cases hparse : Pipeline.parse ("(" ++ "." ++ "\n)." ++ "a" ++ "") with
    | ok p => rw [hparse] at hread; cases hread
    | error e => rw [hparse] at hread; rw [Option.some.inj hread]
  refine ⟨?_, ⟨by decide, List.all_eq_true.1 (by decide), by decide⟩, ⟨[], rfl⟩, herror, ?_⟩
  · exact Pipeline.parse_print (p := []) Source.readable_nil
  · rw [herror]
    exact nofun

end JsonPipe
