import JsonPipe.Proofs.Source.Fluency
import JsonPipe.Proofs.Source.SeamGrammar

/-! Programs in larger programs.

    The text of a program can be put in parentheses or brackets, or in front of a bar: it is read
    there as it is read alone. The end of the text and what follows it make a seam. -/

namespace JsonPipe.Source

open Reader

/-! ### Where a program ends -/

/-- The end of a text, against a new line and a symbol that closes a pipeline. -/
def Seam.newline (r : List Char) (hr : isClosing r = true) : Seam where
  short := []
  long := '\n' :: r
  rest := some r
  allows _ := True
  short_blank := Seam.same.short_blank
  long_edged x hx := by cases hx; decide
  rest_closing _ h := by cases h; exact hr
  short_eq_nil := Seam.same.short_eq_nil
  crosses {mode mode' b b' c} hmode _ _ h := by
    have hskip : Cursor.skipTrivia .between ('\n' :: b') r = .ok ⟨'\n' :: b', r⟩ :=
      skipTrivia_solid (isSolid_of_isClosing hr) _
    cases mode <;> cases mode' <;> cases hmode <;> cases h
    · exact ⟨_, ⟨rfl, rfl⟩, hskip⟩
    · exact ⟨_, ⟨rfl, rfl⟩, hskip⟩

/-- The end of a text that does not end in a comment up to the end of the line, against a symbol
    that closes a pipeline. -/
def Seam.flush (r : List Char) (hr : isClosing r = true) : Seam where
  short := []
  long := r
  rest := some r
  allows region := region ≠ .line
  short_blank := Seam.same.short_blank
  long_edged := edged_of_isClosing hr
  rest_closing _ h := by cases h; exact hr
  short_eq_nil _ _ _ := rfl
  crosses {mode mode' b b' c} hmode hline _ h := by
    have hskip : Cursor.skipTrivia .between b' r = .ok ⟨b', r⟩ :=
      skipTrivia_solid (isSolid_of_isClosing hr) _
    cases mode <;> cases mode' <;> cases hmode <;> cases h
    · exact ⟨_, ⟨rfl, rfl⟩, hskip⟩
    · exact absurd rfl hline

/-- A program is read in front of a closing symbol that is no bar as it is read alone. -/
theorem passage_closed {σ : Seam} (hshort : σ.short = []) {r : List Char} (hrest : σ.rest = some r)
    (hr : r.head? ≠ some '|') {s : String} {p : Pipeline} (h : Pipeline.parse s = .ok p)
    (hallows : σ.allows (Region.atEnd s)) {depth : Nat} (hdepth : s.toList.length < depth)
    {b : List Char} (hb : BreaksOff b) :
    ∃ b', passage depth ⟨b, s.toList ++ σ.long⟩ = .ok (p, ⟨b', r⟩) := by
  obtain ⟨b₁, hpassage⟩ := parse_eq_ok.1 h
  have hstart : σ.Near .code [] (.start s.toList) ⟨b, s.toList ++ σ.long⟩ := by
    have hnear : σ.Near .code [] ⟨[], s.toList ++ σ.short⟩ ⟨b, s.toList ++ σ.long⟩ :=
      .ahead hb.symm hallows
    rwa [hshort, List.append_nil] at hnear
  have hwithin : σ.Within '|' ⟨b₁, []⟩ := by
    intro r' hr' hbar
    rw [hrest] at hr'
    cases hr'
    exact absurd hbar hr
  obtain ⟨⟨b', t⟩, hend, hpassage'⟩ := mirrors_passage σ hdepth hstart hpassage hwithin
  have hjoined := hend.at_end rfl
  rw [hrest] at hjoined
  obtain ⟨-, rfl⟩ := hjoined
  exact ⟨b', hpassage'⟩

/-! ### Brackets -/

/-- What comes after an opening symbol is read with that symbol behind it. -/
theorem symbol_bind {α : Type} (x : Char) (f : Bool → Reader α) (b t : List Char) :
    (symbol (String.singleton x) >>= f) ⟨b, x :: t⟩ =
      (skipTrivia >>= fun _ => f true) ⟨x :: b, t⟩ := by
  have hstands : stands [x] "".toList.contains false ⟨b, x :: t⟩ = true := by
    have hpassed : [x].isPrefixOf (x :: t) = true := by simp
    show ([x].isPrefixOf (x :: t) && !t.head?.any "".toList.contains && true) = true
    rw [hpassed, any_none_of]
    rfl
  have hsymbol : symbol (String.singleton x) ⟨b, x :: t⟩ =
      (do skipTrivia; return true : Reader Bool) ⟨x :: b, t⟩ := by
    rw [symbol, symbolNotBefore_eq, String.toList_singleton, word, if_pos hstands]
    rfl
  show (symbol (String.singleton x) ⟨b, x :: t⟩ >>= fun r => f r.1 r.2) = _
  rw [hsymbol]
  show ((skipTrivia ⟨x :: b, t⟩ >>= fun r => Except.ok (true, r.2)) >>= fun r => f r.1 r.2) =
    (skipTrivia ⟨x :: b, t⟩ >>= fun r => f true r.2)
  cases skipTrivia ⟨x :: b, t⟩ <;> rfl

theorem symbol_ne_head {x : Char} {c : Cursor} (h : c.after.head? ≠ some x) :
    symbol (String.singleton x) c = .ok (false, c) := by
  have hstands : stands [x] "".toList.contains false c = false := by
    rw [← Bool.not_eq_true]
    intro hstands
    obtain ⟨t, ht⟩ := prefix_of_stands hstands
    exact h (by rw [← ht]; rfl)
  rw [symbol, symbolNotBefore_eq, String.toList_singleton, word, hstands]
  rfl

/-- A closing symbol with the text after it. -/
theorem closing_reads {α : Type} {x : Char} (hx : isNameChar x = false) (a : α)
    (construct : Construct) (what : String) {rest : List Char} (hrest : isTidy rest = true) :
    Takes Anywhere Apart (closing (symbol (String.singleton x)) a construct what) (x :: rest) a
      (stripped rest) := by
  have hsymbol := symbol_takes Anywhere (String.singleton x) (by simpa [BreaksOff] using hx)
    (by simp) hrest
  rw [String.toList_singleton, List.singleton_append] at hsymbol
  exact hsymbol.bind (takes_pure a)

section Brackets

variable (σ : Seam) (hshort : σ.short = []) {s : String} {p : Pipeline}
  (h : Pipeline.parse s = .ok p) (hallows : σ.allows (Region.atEnd s)) {depth : Nat}
  (hdepth : s.toList.length < depth) {rest : List Char} (hrest : isTidy rest = true)
include hshort h hallows hdepth hrest

/-- A program in parentheses is a group. -/
theorem group_reads (hclose : σ.rest = some (')' :: rest)) :
    Reads (group (route depth)) ('(' :: (s.toList ++ σ.long)) p (stripped rest) := by
  intro b _
  obtain ⟨b', hpassage⟩ := passage_closed hshort hclose (by simp) h hallows hdepth
    (b := '(' :: b) rfl
  obtain ⟨b'', hb'', hend⟩ := closing_reads (x := ')') rfl p .group "expected ')'" hrest b' trivial
  refine ⟨b'', hb'', ?_⟩
  have hgroup : group (route depth) ⟨b, '(' :: (s.toList ++ σ.long)⟩ =
      (passage depth >>= fun p => closing (symbol ")") p .group "expected ')'")
        ⟨'(' :: b, s.toList ++ σ.long⟩ := by
    rw [passage, bind_assoc]
    exact symbol_bind '(' _ b _
  rw [hgroup, bind_ok hpassage]
  exact hend

omit hshort h hallows hdepth hrest in
/-- No pipeline starts with a closing bracket or with the sign of an assignment. -/
theorem head_of_pipe {c e : Cursor} (hpipe : pipe (route depth) c = .ok (p, e)) :
    c.after.head? ≠ some ']' ∧ c.after.head? ≠ some '=' := by
  obtain ⟨b, t⟩ := c
  constructor
  · intro hhead
    obtain ⟨t, rfl⟩ := List.head?_eq_some_iff.1 hhead
    cases depth <;> cases hpipe
  · intro hhead
    obtain ⟨t, rfl⟩ := List.head?_eq_some_iff.1 hhead
    cases depth <;> cases hpipe

/-- A program in brackets is an array. -/
theorem array_reads (hclose : σ.rest = some (']' :: rest)) :
    Reads (arrayConstructor (route depth)) ('[' :: (s.toList ++ σ.long)) [.array p]
      (stripped rest) := by
  intro b _
  obtain ⟨b', hpassage⟩ := passage_closed hshort hclose (by simp) h hallows hdepth
    (b := '[' :: b) rfl
  obtain ⟨b'', hb'', hend⟩ := closing_reads (x := ']') rfl [Instruction.array p]
    .arrayConstructor "expected ']'" hrest b' trivial
  refine ⟨b'', hb'', ?_⟩
  obtain ⟨⟨⟩, d, hskip, hpipe⟩ := bind_eq_ok hpassage
  have hmiss : symbol "]" d = .ok (false, d) := symbol_ne_head (x := ']') (head_of_pipe hpipe).1
  calc arrayConstructor (route depth) ⟨b, '[' :: (s.toList ++ σ.long)⟩
      = (skipTrivia >>= fun _ => symbol "]" >>= fun closed => if closed then
          pure [.array [.void]] else pipe (route depth) >>= fun p => closing (symbol "]") [.array p]
            .arrayConstructor "expected ']'") ⟨'[' :: b, s.toList ++ σ.long⟩ :=
        symbol_bind '[' _ b _
    _ = .ok ([.array p], ⟨b'', stripped rest⟩) := by
        rw [bind_ok hskip, bind_ok hmiss]
        show (pipe (route depth) >>= _) d = _
        rw [bind_ok hpipe]
        exact hend

end Brackets

/-- A primary expression is read where an item of a pipeline is looked for. -/
theorem route_of_primary {depth : Nat} {t u : List Char} {p : Pipeline} (hbare : Bare t)
    (hpoint : begins "." "" t = false) (h : Reads (primary (route depth)) t p u)
    (hend : ends 9 u = true) : Reads (route (depth + 1)) t p u := by
  have hlowest : Reads (rung (route depth) 0) t p u :=
    hbare.negation (valueAccess_primary hpoint h (ends_mono (Nat.zero_le 9) hend))
  have hdisjunction : Reads (disjunction (route depth)) t p u :=
    climb (Nat.zero_le 9) (Nat.le_refl 9) hlowest hend fun _ => hbare.no_word "not" rfl
  exact attempt_one hdisjunction (hbare.no_word "try" rfl)

/-- A primary expression that is the whole text is the program. -/
theorem parse_of_primary {t : List Char} {p : Pipeline} (hbare : Bare t) (hopens : opens t = true)
    (hpoint : begins "." "" t = false) (h : Reads (primary (route t.length)) t p []) :
    Pipeline.parse (String.ofList t) = .ok p :=
  parse_of_reads (program_of_pipe hopens (pipe_one (route_of_primary hbare hpoint h rfl) rfl rfl))

/-! ### Bars -/

/-- One more item of a pipeline. -/
abbrev barred (inner : Rule) : Reader (Option Pipeline) :=
  another (symbolNotBefore "|" "=") (outputs inner)

theorem barred_advances {inner : Rule} (hf : Forward inner) :
    Advances (barred inner) fun o => o.isSome :=
  another_advances (symbolNotBefore_advances (by decide)) (forward_outputs hf)

/-- A pipeline is read item by item, with a bar in front of each but the first. -/
theorem pipe_eq_ok {inner : Rule} (hf : Forward inner) {c e : Cursor} {p : Pipeline} :
    pipe inner c = .ok (p, e) ↔ ∃ first more d, outputs inner c = .ok (first, d) ∧
      Loops (barred inner) d more e ∧ (first :: more).flatten = p := by
  constructor
  · intro h
    obtain ⟨items, e, hitems, h⟩ := bind_eq_ok h
    obtain ⟨first, d, hfirst, hmore⟩ := bind_eq_ok hitems
    obtain ⟨more, e, hmore, hpure⟩ := bind_eq_ok hmore
    cases hpure
    cases h
    exact ⟨first, more, d, hfirst, (many_eq_ok (barred_advances hf)).1 hmore, (splice_eq _).symm⟩
  · rintro ⟨first, more, d, hfirst, hmore, rfl⟩
    have hitems : separated (symbolNotBefore "|" "=") (outputs inner) c =
        .ok (first :: more, e) := by
      rw [separated_eq, bind_ok hfirst, bind_ok ((many_eq_ok (barred_advances hf)).2 hmore)]
      rfl
    rw [← splice_eq]
    exact bind_ok hitems

theorem word_miss {phrase : List Char} {refused : Char → Bool} {apart : Bool} {c d : Cursor}
    (h : word phrase refused apart c = .ok (false, d)) : d = c := by
  rw [word] at h
  split at h
  · obtain ⟨_, _, -, hpure⟩ := bind_eq_ok h
    cases hpure
  · cases h
    rfl

/-- The items of a pipeline up to the end of the first text are read in the second too, which may
    go on with more items. -/
theorem loops_barred (σ : Seam) {inner inner' : Rule} (houtputs : σ.Carries Always (outputs inner)
    (outputs inner')) {opened : List Opening} {c d e : Cursor} {more : List Pipeline}
    (h : Loops (barred inner) c more e) (hcd : σ.Settled opened c d) :
    ∃ d', σ.Settled opened e d' ∧ ∀ {more' : List Pipeline} {e' : Cursor},
      Loops (barred inner') d' more' e' → Loops (barred inner') d (more ++ more') e' := by
  induction h generalizing d with
  | done h =>
    obtain ⟨hit, c', hbar, h⟩ := bind_eq_ok h
    cases hit with
    | true =>
      obtain ⟨_, _, -, hpure⟩ := bind_eq_ok h
      cases hpure
    | false =>
      cases h
      rw [symbolNotBefore_eq] at hbar
      rw [word_miss hbar]
      exact ⟨d, hcd, id⟩
  | @more c₀ c₁ e p more h _ ih =>
    obtain ⟨hit, c', hbar, h⟩ := bind_eq_ok h
    cases hit with
    | false => cases h
    | true =>
      obtain ⟨q, c'', houtput, hpure⟩ := bind_eq_ok h
      cases hpure
      obtain ⟨d', hd', hbar'⟩ := mirrors_bar σ hcd hbar (.inl rfl)
      obtain ⟨d'', hd'', houtput'⟩ := houtputs opened hd' houtput trivial
      obtain ⟨f, hf, hmore⟩ := ih hd''
      refine ⟨f, hf, fun hloops => .more ?_ (hmore hloops)⟩
      rw [barred, another, bind_ok hbar']
      exact bind_ok houtput'

theorem bar_hit {b t : List Char} {c : Cursor} (ht : t.head? ≠ some '=')
    (hskip : skipTrivia ⟨'|' :: b, t⟩ = .ok ((), c)) :
    symbolNotBefore "|" "=" ⟨b, '|' :: t⟩ = .ok (true, c) := by
  have hstands : stands ['|'] "=".toList.contains false ⟨b, '|' :: t⟩ = true := by
    have hrefused : t.head?.any "=".toList.contains = false := by
      cases t with
      | nil => rfl
      | cons x t => simpa using ht
    show (['|'].isPrefixOf ('|' :: t) && !t.head?.any "=".toList.contains && true) = true
    rw [hrefused]
    rfl
  rw [symbolNotBefore_eq]
  show word ['|'] "=".toList.contains false ⟨b, '|' :: t⟩ = _
  rw [word, if_pos hstands]
  exact bind_ok hskip

/-- A program does not start with the sign of an assignment. -/
theorem head_of_parse {s : String} {p : Pipeline} (h : Pipeline.parse s = .ok p) :
    s.toList.head? ≠ some '=' := by
  intro hhead
  obtain ⟨t, ht⟩ := List.head?_eq_some_iff.1 hhead
  obtain ⟨b, hpassage⟩ := parse_eq_ok.1 h
  obtain ⟨⟨⟩, c, hskip, hpipe⟩ := bind_eq_ok hpassage
  rw [ht] at hskip
  cases hskip
  exact (head_of_pipe hpipe).2 rfl

/-- A program is read anywhere as it is read alone. -/
theorem passage_anywhere {s : String} {p : Pipeline} (h : Pipeline.parse s = .ok p) {depth : Nat}
    (hdepth : s.toList.length < depth) {b : List Char} (hb : BreaksOff b) :
    ∃ b', passage depth ⟨b, s.toList⟩ = .ok (p, ⟨b', []⟩) := by
  obtain ⟨b₁, hpassage⟩ := parse_eq_ok.1 h
  have hstart : Seam.same.Near .code [] ⟨[], s.toList ++ []⟩ ⟨b, s.toList ++ []⟩ :=
    .ahead hb.symm trivial
  rw [List.append_nil] at hstart
  have hwithin : Seam.same.Within '|' ⟨b₁, []⟩ := fun r hr => by cases hr
  obtain ⟨⟨b', t⟩, hend, hpassage'⟩ := mirrors_passage Seam.same hdepth hstart hpassage hwithin
  obtain ⟨rfl, -⟩ : [] = t ∧ Alike b₁ b' := hend.at_end rfl
  exact ⟨b', hpassage'⟩

/-- A program after a bar is read as further items of a pipeline. -/
theorem loops_program {t : String} {q : Pipeline} (ht : Pipeline.parse t = .ok q) {depth : Nat}
    (hdepth : t.toList.length < depth) (b : List Char) :
    ∃ more b', Loops (barred (route depth)) ⟨b, '|' :: t.toList⟩ more ⟨b', []⟩ ∧
      more.flatten = q := by
  obtain ⟨b', hpassage⟩ := passage_anywhere ht hdepth (b := '|' :: b) rfl
  obtain ⟨⟨⟩, e, hskip, hpipe⟩ := bind_eq_ok hpassage
  obtain ⟨first, more, e₁, hfirst, hmore, rfl⟩ := (pipe_eq_ok (forward_route _)).1 hpipe
  have hbarred : barred (route depth) ⟨b, '|' :: t.toList⟩ = .ok (some first, e₁) := by
    rw [barred, another, bind_ok (bar_hit (head_of_parse ht) hskip)]
    exact bind_ok hfirst
  exact ⟨first :: more, b', .more hbarred hmore, rfl⟩

/-- Two programs with a bar in between. -/
theorem passage_bar {s t : String} {p q : Pipeline} (hs : Pipeline.parse s = .ok p)
    (ht : Pipeline.parse t = .ok q) {depth : Nat} (hdepth : s.toList.length < depth)
    (hdepth' : t.toList.length < depth) :
    ∃ b, passage depth (.start (s.toList ++ '\n' :: '|' :: t.toList)) = .ok (p ++ q, ⟨b, []⟩) := by
  have hclosing : isClosing ('|' :: t.toList) = true := by
    simpa [isClosing] using head_of_parse ht
  let σ := Seam.newline ('|' :: t.toList) hclosing
  have houtputs : σ.Carries Always (outputs (route (s.toList.length + 1)))
      (outputs (route depth)) :=
    carries_outputs σ (forward_route _) (forward_route _) (carries_route σ hdepth)
  obtain ⟨b₁, hpassage⟩ := parse_eq_ok.1 hs
  obtain ⟨⟨⟩, c, hskip, hpipe⟩ := bind_eq_ok hpassage
  obtain ⟨first, more, c₁, hfirst, hmore, rfl⟩ := (pipe_eq_ok (forward_route _)).1 hpipe
  have hstart : σ.Near .code [] ⟨[], s.toList ++ []⟩ (.start (s.toList ++ σ.long)) :=
    .ahead rfl trivial
  rw [List.append_nil] at hstart
  obtain ⟨d, hd, hskip' : skipTrivia (.start (s.toList ++ '\n' :: '|' :: t.toList)) = .ok ((), d)⟩ :=
    σ.mirrors_skipTrivia hstart hskip trivial
  obtain ⟨d₁, hd₁, hfirst'⟩ := houtputs [] hd hfirst trivial
  obtain ⟨⟨b₂, u⟩, hd₂, hextend⟩ := loops_barred σ houtputs hmore hd₁
  obtain ⟨-, rfl⟩ : [] = [] ∧ u = '|' :: t.toList := hd₂.at_end rfl
  obtain ⟨more', b₃, hmore', rfl⟩ := loops_program ht hdepth' b₂
  refine ⟨b₃, ?_⟩
  rw [passage, bind_ok hskip']
  refine (pipe_eq_ok (forward_route _)).2 ⟨first, more ++ more', d₁, hfirst', hextend hmore', ?_⟩
  simp

/-- A program in parentheses, and another one behind a bar. -/
theorem parse_group_bar {s t : String} {p q : Pipeline} (hs : Pipeline.parse s = .ok p)
    (ht : Pipeline.parse t = .ok q) : Pipeline.parse ("(" ++ s ++ "\n) |" ++ t) = .ok (p ++ q) := by
  let σ := Seam.newline (')' :: ' ' :: '|' :: t.toList) rfl
  have htext : ("(" ++ s ++ "\n) |" ++ t).toList = '(' :: (s.toList ++ σ.long) := by
    simp [σ, Seam.newline]
  have hsize : s.toList.length < ('(' :: (s.toList ++ σ.long)).length := by
    rw [List.length_cons, List.length_append]; omega
  have hsize' : t.toList.length < ('(' :: (s.toList ++ σ.long)).length + 1 := by
    simp [σ, Seam.newline]
    omega
  rw [parse_eq_ok, htext]
  generalize ('(' :: (s.toList ++ σ.long)).length = depth at hsize hsize'
  have hgroup : Reads (group (route depth)) ('(' :: (s.toList ++ σ.long)) p ('|' :: t.toList) :=
    group_reads σ rfl hs trivial hsize rfl rfl
  have houtputs : Reads (outputs (route (depth + 1))) ('(' :: (s.toList ++ σ.long)) p
      ('|' :: t.toList) :=
    outputs_one (route_of_primary (.paren _) rfl
      (Takes.bind (fun b hb => ⟨b, hb, rfl⟩) hgroup) rfl) rfl
  obtain ⟨b, -, hfirst⟩ := houtputs [] (.inl rfl)
  obtain ⟨more, b', hmore, rfl⟩ := loops_program ht hsize' b
  refine ⟨b', ?_⟩
  have hskip : skipTrivia (.start ('(' :: (s.toList ++ σ.long))) =
      .ok ((), .start ('(' :: (s.toList ++ σ.long))) := rfl
  rw [passage, bind_ok hskip]
  exact (pipe_eq_ok (forward_route _)).2 ⟨p, more, _, hfirst, hmore, rfl⟩

end JsonPipe.Source

namespace JsonPipe

open Source

/-- The texts of programs compose as the programs do. -/
theorem Pipeline.parse_compose {s t : String} {p q : Pipeline} (hs : Pipeline.parse s = .ok p)
    (ht : Pipeline.parse t = .ok q) :
    Pipeline.parse ("(" ++ s ++ "\n)") = .ok p ∧
      Pipeline.parse ("[" ++ s ++ "\n]") = .ok [.array p] ∧
      Pipeline.parse (s ++ "\n|" ++ t) = .ok (p ++ q) := by
  refine ⟨?_, ?_, ?_⟩
  · let σ := Seam.newline [')'] rfl
    have htext : "(" ++ s ++ "\n)" = String.ofList ('(' :: (s.toList ++ σ.long)) := by
      apply String.toList_injective
      simp [σ, Seam.newline]
    have hdepth : s.toList.length < ('(' :: (s.toList ++ σ.long)).length := by
      rw [List.length_cons, List.length_append]; omega
    rw [htext]
    refine parse_of_primary (.paren _) rfl rfl (Takes.bind (fun b hb => ⟨b, hb, rfl⟩) ?_)
    exact group_reads σ rfl hs trivial hdepth rfl rfl
  · let σ := Seam.newline [']'] rfl
    have htext : "[" ++ s ++ "\n]" = String.ofList ('[' :: (s.toList ++ σ.long)) := by
      apply String.toList_injective
      simp [σ, Seam.newline]
    have hdepth : s.toList.length < ('[' :: (s.toList ++ σ.long)).length := by
      rw [List.length_cons, List.length_append]; omega
    rw [htext]
    refine parse_of_primary (.bracket _) rfl rfl (Takes.bind (fun b hb => ⟨b, hb, rfl⟩) ?_)
    exact array_reads σ rfl hs trivial hdepth rfl rfl
  · have htext : (s ++ "\n|" ++ t).toList = s.toList ++ '\n' :: '|' :: t.toList := by simp
    rw [parse_eq_ok, htext]
    exact passage_bar hs ht (by rw [List.length_append]; omega) (by simp; omega)

/-- Both programs end in a comment, and the first could go on with a handler. -/
theorem Pipeline.parse_compose_comments :
    ∃ p q, Pipeline.parse "try f # )" = .ok p ∧ Pipeline.parse "x.k? # |" = .ok q ∧
      (p.print = "try (f)" ∧ q.print = "(x)[(\"k\")]?") ∧
      Pipeline.parse ("(" ++ "try f # )" ++ "\n)") = .ok p ∧
      Pipeline.parse ("[" ++ "try f # )" ++ "\n]") = .ok [.array p] ∧
      Pipeline.parse ("try f # )" ++ "\n|" ++ "x.k? # |") = .ok (p ++ q) := by
  have hprint : (Pipeline.parse "try f # )").toOption.map Pipeline.print = some "try (f)" := by
    decide +kernel
  have hprint' : (Pipeline.parse "x.k? # |").toOption.map Pipeline.print = some "(x)[(\"k\")]?" := by
    decide +kernel
  cases hp : Pipeline.parse "try f # )" with
  | error e => rw [hp] at hprint; cases hprint
  | ok p =>
    cases hq : Pipeline.parse "x.k? # |" with
    | error e => rw [hq] at hprint'; cases hprint'
    | ok q =>
      rw [hp] at hprint
      rw [hq] at hprint'
      exact ⟨p, q, rfl, rfl, ⟨Option.some.inj hprint, Option.some.inj hprint'⟩,
        Pipeline.parse_compose hp hq⟩

end JsonPipe
