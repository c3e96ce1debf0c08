import JsonPipe.Proofs.Source.Reading
import JsonPipe.Source.Grammar

/-! Readers go forward.

    A reader ends, or fails, at a place that is further on in the same text (`Forward`). The steps
    that are repeated take at least one character whenever they yield something (`Advances`), so
    the bound on repetitions is never reached and `many` is a loop without a bound (`Loops`). -/

namespace JsonPipe

/-! ### Places further on -/

/-- The second place is further on in the same text, or it is the same place. -/
def Cursor.Leads (c d : Cursor) : Prop :=
  ∃ run, c.after = run ++ d.after ∧ d.before = run.reverse ++ c.before

namespace Cursor.Leads

variable {c d e : Cursor}

theorem refl (c : Cursor) : c.Leads c := ⟨[], rfl, rfl⟩

theorem trans (h : c.Leads d) (h' : d.Leads e) : c.Leads e := by
  obtain ⟨run, hafter, hbefore⟩ := h
  obtain ⟨run', hafter', hbefore'⟩ := h'
  exact ⟨run ++ run', by simp [hafter, hafter'], by simp [hbefore, hbefore']⟩

/-- One character further on. -/
theorem cons (b t : List Char) (x : Char) : Cursor.Leads ⟨b, x :: t⟩ ⟨x :: b, t⟩ := ⟨[x], rfl, rfl⟩

theorem length_le (h : c.Leads d) : d.after.length ≤ c.after.length := by
  obtain ⟨run, hafter, -⟩ := h
  rw [hafter, List.length_append]
  omega

theorem after_ne_nil (h : c.Leads d) (hd : d.after ≠ []) : c.after ≠ [] := by
  obtain ⟨run, hafter, -⟩ := h
  rw [hafter]
  exact List.append_ne_nil_of_right_ne_nil run hd

end Cursor.Leads

namespace Source

open Reader

variable {α β ω : Type}

/-! ### Runs of readers -/

theorem bind_eq_ok {r : Reader α} {f : α → Reader β} {c d : Cursor} {b : β}
    (h : (r >>= f) c = .ok (b, d)) : ∃ a e, r c = .ok (a, e) ∧ f a e = .ok (b, d) := by
  have hsplit : (r >>= f) c = (r c >>= fun p => f p.1 p.2) := rfl
  rw [hsplit] at h
  cases hr : r c with
  | error e => rw [hr] at h; cases h
  | ok p => rw [hr] at h; exact ⟨p.1, p.2, rfl, h⟩

/-- The reader ends, or fails, at a place further on. -/
structure Forward (r : Reader α) : Prop where
  ends : ∀ {c d : Cursor} {a : α}, r c = .ok (a, d) → c.Leads d
  fails : ∀ {c : Cursor} {e : SyntaxError}, r c = .error e → ∃ d, c.Leads d ∧ e.offset = d.offset

/-- What the reader yields of the given kind takes at least one character. -/
def Advances (r : Reader α) (P : α → Prop) : Prop :=
  ∀ ⦃c d : Cursor⦄ ⦃a : α⦄, r c = .ok (a, d) → P a → d.after.length < c.after.length

theorem forward_pure (a : α) : Forward (pure a : Reader α) where
  ends {c d x} h := by cases h; exact .refl c
  fails {c e} h := by cases h

theorem forward_expected (construct : Construct) (what : String) :
    Forward (expected construct what : Reader α) where
  ends {c d x} h := by cases h
  fails {c e} h := by cases h; exact ⟨c, .refl c, rfl⟩

theorem Forward.bind {r : Reader α} {f : α → Reader β} (hr : Forward r)
    (hf : ∀ a, Forward (f a)) : Forward (r >>= f) where
  ends {c d b} h := by
    obtain ⟨a, e, hre, hfd⟩ := bind_eq_ok h
    exact (hr.ends hre).trans ((hf a).ends hfd)
  fails {c e} h := by
    cases hrc : r c with
    | error x =>
      have heq : (r >>= f) c = .error x := by
        show (r c >>= fun p => f p.1 p.2) = _
        rw [hrc]
        rfl
      rw [heq] at h
      cases h
      exact hr.fails hrc
    | ok p =>
      obtain ⟨a, c'⟩ := p
      rw [bind_ok hrc] at h
      obtain ⟨d, hd, hoffset⟩ := (hf a).fails h
      exact ⟨d, (hr.ends hrc).trans hd, hoffset⟩

theorem Forward.map {r : Reader α} (f : α → β) (hr : Forward r) : Forward (f <$> r) := by
  rw [map_eq_pure_bind]
  exact hr.bind fun a => forward_pure _

/-- What comes after something that advances may stay where it is. -/
theorem Advances.bind {r : Reader α} {f : α → Reader β} {P : α → Prop} {Q : β → Prop}
    (hr : Advances r P) (hf : ∀ a, Forward (f a))
    (hP : ∀ ⦃a b c d⦄, f a c = .ok (b, d) → Q b → P a) : Advances (r >>= f) Q := by
  intro c d b h hb
  obtain ⟨a, e, hre, hfd⟩ := bind_eq_ok h
  exact Nat.lt_of_le_of_lt ((hf a).ends hfd).length_le (hr hre (hP hfd hb))

theorem Forward.bind_both {r : Reader α} {f : α → Reader β} {P : α → Prop} {Q : β → Prop}
    (hr : Forward r) (hf : ∀ a, Forward (f a)) (hadvances : Advances r P)
    (hP : ∀ ⦃a b c d⦄, f a c = .ok (b, d) → Q b → P a) :
    Forward (r >>= f) ∧ Advances (r >>= f) Q :=
  ⟨hr.bind hf, hadvances.bind hf hP⟩

theorem Forward.bind_advances {r : Reader α} {f : α → Reader β} {Q : β → Prop} (hr : Forward r)
    (hf : ∀ a, Advances (f a) Q) : Advances (r >>= f) Q := by
  intro c d b h hb
  obtain ⟨a, e, hre, hfd⟩ := bind_eq_ok h
  exact Nat.lt_of_lt_of_le (hf a hfd hb) (hr.ends hre).length_le

/-- What takes a character is not at the end of the text. -/
theorem Advances.after_ne_nil {r : Reader α} {P : α → Prop} (hr : Advances r P) {c d : Cursor}
    {a : α} (h : r c = .ok (a, d)) (ha : P a) : c.after ≠ [] := by
  have hlt := hr h ha
  rintro hnil
  rw [hnil] at hlt
  exact Nat.not_lt_zero _ hlt

/-! ### Basic readers -/

theorem forward_peek : Forward peek where
  ends {c d x} h := by cases h; exact .refl c
  fails {c e} h := by cases h

theorem forward_take : Forward take where
  ends {c d x} h := by
    obtain ⟨b, t⟩ := c
    cases t with
    | nil => cases h; exact .refl _
    | cons y t => cases h; exact .cons b t y
  fails {c e} h := by
    obtain ⟨b, t⟩ := c
    cases t <;> cases h

theorem take_advances : Advances take (· ≠ none) := by
  rintro ⟨b, t⟩ d o h ho
  cases t with
  | nil => cases h; exact absurd rfl ho
  | cons x t => cases h; exact Nat.lt_succ_self _

theorem forward_takeOneOf (set : String) : Forward (takeOneOf set) where
  ends {c d x} h := by
    obtain ⟨b, t⟩ := c
    cases t with
    | nil => cases h; exact .refl _
    | cons y t =>
      simp only [takeOneOf] at h
      split at h
      · cases h; exact .cons b t y
      · cases h; exact .refl _
  fails {c e} h := by
    obtain ⟨b, t⟩ := c
    cases t with
    | nil => cases h
    | cons y t =>
      simp only [takeOneOf] at h
      split at h <;> cases h

theorem span_leads (p : Char → Bool) (c : Cursor) : c.Leads (c.span p).2 :=
  ⟨c.after.takeWhile p, List.takeWhile_append_dropWhile.symm, rfl⟩

theorem forward_takeWhile (p : Char → Bool) : Forward (takeWhile p) where
  ends {c d x} h := by cases h; exact span_leads p c
  fails {c e} h := by cases h

/-- A phrase that is passed over is what the text starts with. -/
theorem pass?_leads {phrase : List Char} {c d : Cursor} (h : c.pass? phrase = some d) :
    c.after = phrase ++ d.after ∧ d.before = phrase.reverse ++ c.before := by
  obtain ⟨b, t⟩ := c
  rw [pass?_eq] at h
  split at h
  · next hphrase =>
    obtain ⟨rest, rfl⟩ := List.isPrefixOf_iff_prefix.1 hphrase
    cases h
    simp
  · cases h

theorem forward_takePhrase (phrase : String) : Forward (takePhrase phrase) where
  ends {c d x} h := by
    rw [takePhrase] at h
    split at h
    · next e he => cases h; exact ⟨_, pass?_leads he⟩
    · cases h; exact .refl c
  fails {c e} h := by
    rw [takePhrase] at h
    split at h <;> cases h

/-- Passing over trivia from a place ends further on; a comment that is never closed is reported
    where it starts, which is further on unless the place is already inside. -/
def Skips (mode : Cursor.Trivia) (c : Cursor) : Except SyntaxError Cursor → Prop
  | .ok d => c.Leads d
  | .error e => ∃ d, (c.Leads d ∨ mode = .block d) ∧ e.offset = d.offset

theorem Skips.step {mode mode' : Cursor.Trivia} {c d : Cursor} {r : Except SyntaxError Cursor}
    (h : Skips mode' d r) (hstep : c.Leads d)
    (hmode : ∀ start, mode' = .block start → c.Leads start ∨ mode = .block start) :
    Skips mode c r := by
  cases r with
  | ok e => exact hstep.trans h
  | error x =>
    obtain ⟨e, he | he, hoffset⟩ := h
    · exact ⟨e, .inl (hstep.trans he), hoffset⟩
    · exact ⟨e, hmode e he, hoffset⟩

theorem skipTrivia_skips (mode : Cursor.Trivia) (b t : List Char) :
    Skips mode ⟨b, t⟩ (Cursor.skipTrivia mode b t) := by
  fun_induction Cursor.skipTrivia mode b t with
  | case1 b t ih =>
    refine ih.step ⟨['/', '*'], rfl, rfl⟩ ?_
    rintro start ⟨⟩
    exact .inl (.refl _)
  | case2 b t ih => exact ih.step (.cons b t '#') (by rintro start ⟨⟩)
  | case3 b x t _ _ _ ih => exact ih.step (.cons b t x) (by rintro start ⟨⟩)
  | case4 b x t => exact .refl _
  | case5 b => exact .refl _
  | case6 b t ih => exact ih.step (.cons b t '\n') (by rintro start ⟨⟩)
  | case7 b x t _ ih => exact ih.step (.cons b t x) (by rintro start ⟨⟩)
  | case8 b => exact .refl _
  | case9 start b t ih => exact ih.step ⟨['*', '/'], rfl, rfl⟩ (by rintro start ⟨⟩)
  | case10 start b x t _ ih => exact ih.step (.cons b t x) fun _ h => .inr h
  | case11 start b => exact ⟨start, .inr rfl, rfl⟩

theorem skipTrivia_eq (c : Cursor) :
    skipTrivia c = (Cursor.skipTrivia .between c.before c.after).map fun d => ((), d) := by
  rw [skipTrivia]
  cases Cursor.skipTrivia .between c.before c.after <;> rfl

theorem forward_skipTrivia : Forward skipTrivia where
  ends {c d x} h := by
    have hskips := skipTrivia_skips .between c.before c.after
    rw [skipTrivia_eq] at h
    cases hc : Cursor.skipTrivia .between c.before c.after with
    | error e => rw [hc] at h; cases h
    | ok d' =>
      rw [hc] at h hskips
      cases h
      exact hskips
  fails {c e} h := by
    have hskips := skipTrivia_skips .between c.before c.after
    rw [skipTrivia_eq] at h
    cases hc : Cursor.skipTrivia .between c.before c.after with
    | ok d' => rw [hc] at h; cases h
    | error e' =>
      rw [hc] at h hskips
      cases h
      obtain ⟨d, hd | hd, hoffset⟩ := hskips
      · exact ⟨d, hd, hoffset⟩
      · cases hd

/-- The place after the given number of characters. -/
def skipped (n : Nat) (c : Cursor) : Cursor := ⟨(c.after.take n).reverse ++ c.before, c.after.drop n⟩

theorem skipped_leads (n : Nat) (c : Cursor) : c.Leads (skipped n c) :=
  ⟨c.after.take n, (List.take_append_drop n c.after).symm, rfl⟩

/-- The phrase is what the text starts with, and none of the refused characters comes after it. -/
def heads (phrase : List Char) (refused : Char → Bool) (t : List Char) : Bool :=
  phrase.isPrefixOf t && !(t.drop phrase.length).head?.any refused

/-- The phrase is what follows, and, if it has to stand apart, no name ends right before it. -/
def stands (phrase : List Char) (refused : Char → Bool) (apart : Bool) (c : Cursor) : Bool :=
  heads phrase refused c.after && !(apart && c.before.head?.any isNameChar)

/-- Takes a phrase with the trivia after it if it stands there, and else stays. -/
def word (phrase : List Char) (refused : Char → Bool) (apart : Bool) : Reader Bool := fun c =>
  if stands phrase refused apart c then
    (do skipTrivia; return true : Reader Bool) (skipped phrase.length c)
  else .ok (false, c)

theorem take_of_isPrefixOf {phrase t : List Char} (h : phrase.isPrefixOf t = true) :
    t.take phrase.length = phrase :=
  (List.prefix_iff_eq_take.1 (List.isPrefixOf_iff_prefix.1 h)).symm

theorem symbolNotBefore_eq (s refused : String) :
    symbolNotBefore s refused = word s.toList refused.toList.contains false := by
  funext ⟨b, t⟩
  rw [symbolNotBefore, pass?_eq, word, stands, heads]
  by_cases hs : s.toList.isPrefixOf t = true
  · have htake := take_of_isPrefixOf hs
    simp only [hs, if_true, Bool.true_and, Bool.false_and, Bool.not_false, Bool.and_true]
    cases (t.drop s.toList.length).head?.any refused.toList.contains with
    | true => rfl
    | false =>
      simp only [skipped, htake]
      rfl
  · simp only [hs, Bool.false_eq_true, if_false, Bool.false_and]

theorem keyword_eq (w : String) : keyword w = word w.toList isNameChar true := by
  funext ⟨b, t⟩
  rw [keyword, pass?_eq, word, stands, heads]
  by_cases hw : w.toList.isPrefixOf t = true
  · have htake := take_of_isPrefixOf hw
    simp only [hw, if_true, Bool.true_and]
    cases (t.drop w.toList.length).head?.any isNameChar with
    | true => rfl
    | false =>
      cases b.head?.any isNameChar with
      | true => rfl
      | false =>
        simp only [skipped, htake]
        rfl
  · simp only [hw, Bool.false_eq_true, if_false, Bool.false_and]

section Word

variable (phrase : List Char) (refused : Char → Bool) (apart : Bool)

theorem forward_word : Forward (word phrase refused apart) := by
  have hword : Forward (do skipTrivia; return true : Reader Bool) :=
    forward_skipTrivia.bind fun _ => forward_pure true
  constructor
  · intro c d hit h
    rw [word] at h
    split at h
    · exact (skipped_leads _ c).trans (hword.ends h)
    · cases h; exact .refl c
  · intro c e h
    rw [word] at h
    split at h
    · obtain ⟨d, hd, hoffset⟩ := hword.fails h
      exact ⟨d, (skipped_leads _ c).trans hd, hoffset⟩
    · cases h

variable {phrase refused apart}

theorem prefix_of_stands {c : Cursor} (h : stands phrase refused apart c = true) :
    phrase <+: c.after := by
  rw [stands, heads, Bool.and_eq_true, Bool.and_eq_true] at h
  exact List.isPrefixOf_iff_prefix.1 h.1.1

theorem word_advances (hne : phrase ≠ []) : Advances (word phrase refused apart) (· = true) := by
  rintro c d a h rfl
  rw [word] at h
  split at h
  · next hstands =>
    have hlength := (prefix_of_stands hstands).length_le
    have hpos := List.length_pos_iff.2 hne
    have hle := ((forward_skipTrivia.bind fun _ => forward_pure true).ends h).length_le
    simp only [skipped, List.length_drop] at hle
    omega
  · cases h

end Word

theorem forward_symbolNotBefore (s refused : String) : Forward (symbolNotBefore s refused) :=
  symbolNotBefore_eq s refused ▸ forward_word _ _ _

theorem forward_symbol (s : String) : Forward (symbol s) := forward_symbolNotBefore s ""

theorem symbolNotBefore_advances {s refused : String} (hs : s.toList ≠ []) :
    Advances (symbolNotBefore s refused) (· = true) :=
  symbolNotBefore_eq s refused ▸ word_advances hs

theorem forward_keyword (w : String) : Forward (keyword w) := keyword_eq w ▸ forward_word _ _ _

theorem keyword_advances {w : String} (hw : w.toList ≠ []) : Advances (keyword w) (· = true) :=
  keyword_eq w ▸ word_advances hw

theorem nextName?_leads {c d : Cursor} {s : String} (h : nextName? c = some (s, d)) :
    c.Leads d := by
  rw [nextName?] at h
  split at h
  · cases h; exact span_leads isNameChar c
  · cases h

/-- Takes a name with the trivia after it if it passes a test, and else stays. -/
def nameIf (test : String → Bool) : Reader (Option String) := fun c =>
  match nextName? c with
  | some (s, d) =>
    if test s then (do skipTrivia; return some s : Reader (Option String)) d else .ok (none, c)
  | none => .ok (none, c)

theorem name_eq : name = nameIf fun _ => true := by
  funext c
  rw [name, nameIf]
  cases nextName? c <;> rfl

theorem variableName_eq : variableName = nameIf fun s => !keywords.contains s := by
  funext c
  rw [variableName, nameIf]
  cases nextName? c with
  | none => rfl
  | some p =>
    simp only
    cases keywords.contains p.1 <;> rfl

theorem forward_nameIf (test : String → Bool) : Forward (nameIf test) := by
  have hnamed : ∀ s : String, Forward (do skipTrivia; return some s) :=
    fun s => forward_skipTrivia.bind fun _ => forward_pure _
  constructor
  · intro c d a h
    rw [nameIf] at h
    split at h
    · next s e he =>
      split at h
      · exact (nextName?_leads he).trans ((hnamed s).ends h)
      · cases h; exact .refl c
    · cases h; exact .refl c
  · intro c e h
    rw [nameIf] at h
    split at h
    · next s d hd =>
      split at h
      · obtain ⟨d', hd', hoffset⟩ := (hnamed s).fails h
        exact ⟨d', (nextName?_leads hd).trans hd', hoffset⟩
      · cases h
    · cases h

theorem forward_name : Forward name := name_eq ▸ forward_nameIf _

theorem forward_variableName : Forward variableName := variableName_eq ▸ forward_nameIf _

theorem forward_firstSymbol (operators : List (String × String × ω)) :
    Forward (firstSymbol operators) := by
  induction operators with
  | nil => exact forward_pure none
  | cons s operators ih =>
    refine (forward_symbolNotBefore _ _).bind fun hit => ?_
    cases hit with
    | true => exact forward_pure _
    | false => exact ih

theorem firstSymbol_advances {operators : List (String × String × ω)}
    (hoperators : ∀ s ∈ operators, s.1.toList ≠ []) :
    Advances (firstSymbol operators) fun o => o.isSome := by
  induction operators with
  | nil =>
    intro c d o h ho
    cases h
    cases ho
  | cons s operators ih =>
    obtain ⟨hs, hrest⟩ := List.forall_mem_cons.1 hoperators
    intro c d o h ho
    obtain ⟨hit, e, hsym, h⟩ := bind_eq_ok h
    cases hit with
    | true =>
      cases h
      exact symbolNotBefore_advances hs hsym rfl
    | false =>
      have hle := ((forward_symbolNotBefore _ _).ends hsym).length_le
      exact Nat.lt_of_lt_of_le (ih hrest h ho) hle

/-! ### Repetition -/

theorem repeatAlong_cons (step : Reader (Option α)) (x : Char) (bound : List Char) :
    repeatAlong step (x :: bound) = do
      match ← step with
      | none => return []
      | some a => return a :: (← repeatAlong step bound) := by
  funext c
  rw [repeatAlong]
  show _ = (step c >>= _)
  cases step c with
  | error e => rfl
  | ok p =>
    obtain ⟨o, d⟩ := p
    cases o <;> rfl

theorem forward_repeatAlong {step : Reader (Option α)} (hstep : Forward step)
    (bound : List Char) : Forward (repeatAlong step bound) := by
  induction bound with
  | nil => exact hstep.bind fun o => forward_pure o.toList
  | cons x bound ih =>
    rw [repeatAlong_cons]
    refine hstep.bind fun o => ?_
    cases o with
    | none => exact forward_pure []
    | some a => exact ih.bind fun as => forward_pure (a :: as)

theorem forward_many {step : Reader (Option α)} (hstep : Forward step) : Forward (many step) where
  ends {c _ _} h := (forward_repeatAlong hstep c.after).ends h
  fails {c _} h := (forward_repeatAlong hstep c.after).fails h

/-- A step is taken until it yields nothing. -/
inductive Loops (step : Reader (Option α)) : Cursor → List α → Cursor → Prop
  | done {c d : Cursor} (h : step c = .ok (none, d)) : Loops step c [] d
  | more {c d e : Cursor} {a : α} {as : List α} (h : step c = .ok (some a, d))
      (hrest : Loops step d as e) : Loops step c (a :: as) e

theorem Loops.leads {step : Reader (Option α)} (hstep : Forward step) {c d : Cursor}
    {as : List α} (h : Loops step c as d) : c.Leads d := by
  induction h with
  | done h => exact hstep.ends h
  | more h _ ih => exact (hstep.ends h).trans ih

/-- The bound is not reached: at its end the text has ended too, and the step yields nothing. -/
theorem repeatAlong_loops {step : Reader (Option α)} (hstep : Advances step fun o => o.isSome)
    {bound : List Char} {c d : Cursor} {as : List α} (hbound : c.after.length ≤ bound.length) :
    repeatAlong step bound c = .ok (as, d) ↔ Loops step c as d := by
  induction bound generalizing c as with
  | nil =>
    have hnil : c.after = [] := List.length_eq_zero_iff.1 (Nat.le_zero.1 hbound)
    constructor
    · intro h
      obtain ⟨o, e, ho, h⟩ := bind_eq_ok (r := step) (f := fun o => pure o.toList) h
      cases h
      cases o with
      | none => exact .done ho
      | some a => exact absurd hnil (hstep.after_ne_nil ho rfl)
    · intro h
      cases h with
      | done h => exact bind_ok (f := fun o => pure o.toList) h
      | more h _ => exact absurd hnil (hstep.after_ne_nil h rfl)
  | cons x bound ih =>
    rw [repeatAlong_cons]
    have hshort : ∀ {a e}, step c = .ok (some a, e) → e.after.length ≤ bound.length := by
      intro a e h
      have hlt := hstep h rfl
      rw [List.length_cons] at hbound
      omega
    constructor
    · intro h
      obtain ⟨o, e, ho, h⟩ := bind_eq_ok h
      cases o with
      | none => cases h; exact .done ho
      | some a =>
        obtain ⟨as', e', hrest, h⟩ := bind_eq_ok h
        cases h
        exact .more ho ((ih (hshort ho)).1 hrest)
    · intro h
      cases h with
      | done h => rw [bind_ok h]; rfl
      | more h hrest =>
        rw [bind_ok h]
        exact bind_ok ((ih (hshort h)).2 hrest)

theorem many_eq_ok {step : Reader (Option α)} (hstep : Advances step fun o => o.isSome)
    {c d : Cursor} {as : List α} : many step c = .ok (as, d) ↔ Loops step c as d :=
  repeatAlong_loops hstep (Nat.le_refl _)

/-- One more item after a separator. -/
def another (separator : Reader Bool) (item : Reader α) : Reader (Option α) := do
  if ← separator then return some (← item) else return none

theorem forward_another {separator : Reader Bool} {item : Reader α} (hsep : Forward separator)
    (hitem : Forward item) : Forward (another separator item) := by
  refine hsep.bind fun hit => ?_
  cases hit with
  | true => exact hitem.bind fun a => forward_pure _
  | false => exact forward_pure _

theorem another_advances {separator : Reader Bool} {item : Reader α}
    (hsep : Advances separator (· = true)) (hitem : Forward item) :
    Advances (another separator item) fun o => o.isSome := by
  refine hsep.bind (fun hit => ?_) ?_
  · cases hit with
    | true => exact hitem.bind fun a => forward_pure _
    | false => exact forward_pure _
  · intro hit o c d h ho
    cases hit with
    | true => rfl
    | false => cases h; cases ho

theorem separated_eq (separator : Reader Bool) (item : Reader α) :
    separated separator item = do
      let first ← item
      let more ← many (another separator item)
      return first :: more := rfl

theorem forward_separated {separator : Reader Bool} {item : Reader α} (hsep : Forward separator)
    (hitem : Forward item) : Forward (separated separator item) :=
  hitem.bind fun _ => (forward_many (forward_another hsep hitem)).bind fun _ => forward_pure _

/-- One more item after a comma, or nothing after the closing symbol. -/
def anotherUntil (close : String) (construct : Construct) (what : String) (item : Reader α) :
    Reader (Option α) := do
  if ← symbol close then return none
  if ← symbol "," then return some (← item)
  expected construct what

theorem forward_anotherUntil (close : String) (construct : Construct) (what : String)
    {item : Reader α} (hitem : Forward item) :
    Forward (anotherUntil close construct what item) := by
  refine (forward_symbol close).bind fun closed => ?_
  cases closed with
  | true => exact forward_pure _
  | false =>
    refine (forward_symbol ",").bind fun comma => ?_
    cases comma with
    | true => exact hitem.bind fun a => forward_pure _
    | false => exact forward_expected _ _

/-- The closing symbol is taken as well, so every step takes something. -/
theorem anotherUntil_advances {close : String} (construct : Construct) (what : String)
    (hclose : close.toList ≠ []) {item : Reader α} (hitem : Forward item) :
    Advances (anotherUntil close construct what item) fun _ => True := by
  intro c d o h _
  obtain ⟨closed, c', hsym, h⟩ := bind_eq_ok h
  have hle := ((forward_symbol close).ends hsym).length_le
  cases closed with
  | true =>
    cases h
    exact symbolNotBefore_advances hclose hsym rfl
  | false =>
    obtain ⟨comma, c'', hcomma, h⟩ := bind_eq_ok h
    cases comma with
    | true =>
      obtain ⟨a, e, ha, h⟩ := bind_eq_ok h
      cases h
      have hlt := symbolNotBefore_advances (by decide) hcomma rfl
      have hle' := (hitem.ends ha).length_le
      omega
    | false => cases h

theorem forward_listUntil (close : String) (construct : Construct) (what : String)
    {item : Reader α} (hitem : Forward item) : Forward (listUntil close construct what item) := by
  refine (forward_symbol close).bind fun closed => ?_
  cases closed with
  | true => exact forward_pure _
  | false =>
    exact hitem.bind fun _ =>
      (forward_many (forward_anotherUntil close construct what hitem)).bind fun _ => forward_pure _

end Source

end JsonPipe
