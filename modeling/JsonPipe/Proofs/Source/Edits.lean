import JsonPipe.Proofs.Source.Rereading

/-! Programs with other numbers and with voids.

    A program that was parsed can be edited before it is printed: any number can take the place of a
    number in it, also one without a literal, and instructions without outputs can be put in
    anywhere (`Pipeline.Edited`). Whatever comes of it has a text that can be read
    (`Pipeline.Edited.readAs`). -/

namespace JsonPipe

/-- An assignment to its target as a whole, which is how `name += value` is parsed. -/
def Instruction.isWholeAssignment : Instruction → Bool
  | .assign _ path _ _ => path.isEmpty
  | _ => false

/-- The pipeline with instructions without outputs put in. -/
inductive Pipeline.WithVoids : Pipeline → Pipeline → Prop
  | nil : WithVoids [] []
  | keep {p q : Pipeline} (i : Instruction) : WithVoids p q → WithVoids (i :: p) (i :: q)
  | void {p q : Pipeline} : WithVoids p q → WithVoids p (.void :: q)

/-- A number becomes any number, and any other instruction the same one with edited operands. The
    target of an assignment to all of it stays. -/
inductive Instruction.EditedBy (R : Pipeline → Pipeline → Prop) : Instruction → Instruction → Prop
  | number (n m : Number) : EditedBy R (.number n) (.number m)
  | wholeAssignment {value value' : Pipeline} (base : Pipeline) (op : AssignmentOp) :
    R value value' → EditedBy R (.assign base [] op value) (.assign base [] op value')
  | other {i j : Instruction} : i.isWholeAssignment = false → i.Alike R j → EditedBy R i j

/-- Other numbers are in the place of numbers of the pipeline, at any depth, and instructions
    without outputs have been put into it and into all pipelines in it, but not beside an assignment
    to all of its target. -/
inductive Pipeline.Edited : Pipeline → Pipeline → Prop
  | intro {p q r : Pipeline} : List.Forall₂ (Instruction.EditedBy Pipeline.Edited) p q →
    q.WithVoids r → (p.any Instruction.isWholeAssignment = true → r = q) → Pipeline.Edited p r

/-! ### Texts for all that regular instructions become -/

/-- The operands can be read. -/
abbrev Pipeline.HasText (p : Pipeline) : Prop := ∃ q, p.ReadAs q

section Lists

variable {α β γ κ : Type}

theorem exists_forall₂_of_forall₂ {R : α → β → Prop} {S : β → γ → Prop} {as : List α} {bs : List β}
    (h : List.Forall₂ R as bs) (hRS : ∀ a b, R a b → ∃ c, S b c) : ∃ cs, List.Forall₂ S bs cs := by
  induction h with
  | nil => exact ⟨[], .nil⟩
  | cons hab _ ih =>
    obtain ⟨c, hc⟩ := hRS _ _ hab
    obtain ⟨cs, hcs⟩ := ih
    exact ⟨c :: cs, .cons hc hcs⟩

theorem forall₂_ne_nil {R : α → β → Prop} {as : List α} {bs : List β} (h : List.Forall₂ R as bs)
    (hne : as ≠ []) : bs ≠ [] := by
  rintro rfl
  exact hne (List.forall₂_nil_right_iff.1 h)

theorem forall_keys_of_forall₂ {R : α → α → Prop} {P : κ → Prop} {steps steps' : List (κ × α)}
    (h : List.Forall₂ (Prod.RProd Eq R) steps steps') (hP : ∀ s ∈ steps, P s.1) :
    ∀ s ∈ steps', P s.1 := by
  induction h with
  | nil => exact hP
  | cons hs _ ih =>
    obtain ⟨rfl, _⟩ := hs
    obtain ⟨hfirst, hrest⟩ := List.forall_mem_cons.1 hP
    exact List.forall_mem_cons.2 ⟨hfirst, ih hrest⟩

theorem forall_mem_right {P : β → Prop} {as : List α} {bs : List β}
    (h : List.Forall₂ (fun _ b => P b) as bs) : ∀ b ∈ bs, P b := by
  induction h with
  | nil => exact List.forall_mem_nil _
  | cons hb _ ih => exact List.forall_mem_cons.2 ⟨hb, ih⟩

end Lists

/-- Steps, each with an operand that can be read. -/
theorem exists_keyed {κ : Type} {steps steps' : List (κ × Pipeline)}
    (h : List.Forall₂ (Prod.RProd Eq fun _ q => Pipeline.HasText q) steps steps') :
    ∃ read, List.Forall₂ (Prod.RProd Eq Pipeline.ReadAs) steps' read := by
  refine exists_forall₂_of_forall₂ h ?_
  rintro _ ⟨k, q⟩ ⟨_, r, hr⟩
  exact ⟨(k, r), rfl, hr⟩

theorem exists_path {path path' : List (Selector Pipeline)}
    (h : List.Forall₂ (Selector.Alike fun _ q => Pipeline.HasText q) path path') :
    ∃ read, List.Forall₂ (Selector.Alike Pipeline.ReadAs) path' read := by
  refine exists_forall₂_of_forall₂ h ?_
  intro s t hst
  cases hst with
  | field optional hkey => exact hkey.imp' _ fun _ => .field optional
  | iterate optional => exact ⟨_, .iterate optional⟩
  | slice optional hstart hstop =>
    obtain ⟨_, hstart⟩ := hstart
    obtain ⟨_, hstop⟩ := hstop
    exact ⟨_, .slice optional hstart hstop⟩
  | call bound optional hargs =>
    obtain ⟨_, hargs⟩ := exists_forall₂_of_forall₂ hargs fun _ _ h => h
    exact ⟨_, .call bound optional hargs⟩

namespace Instruction

/-- An array can be read if its elements can, also where these are written as none. -/
theorem exists_array {body body' : Pipeline} (h : body.ReadAs body') :
    ∃ w, (Instruction.array body).ReadAs w := by
  by_cases hvoid : body = [.void]
  · subst hvoid
    exact ⟨_, .emptyArray⟩
  · exact ⟨_, .regular (.array hvoid) (.array h)⟩

theorem exists_attempt {body body' handler handler' : Pipeline} (hbody : body.ReadAs body')
    (hhandler : handler.ReadAs handler') : ∃ w, (Instruction.attempt body handler).ReadAs w := by
  by_cases hvoid : handler = [.void]
  · subst hvoid
    exact ⟨_, .suppress hbody⟩
  · exact ⟨_, .regular (.attempt body hvoid) (.attempt hbody hhandler)⟩

/-- A regular instruction with other operands has a text if they have. -/
theorem Regular.exists_readAs {i j : Instruction} (hi : i.Regular)
    (h : i.Alike (fun _ q => Pipeline.HasText q) j) : ∃ w, j.ReadAs w := by
  cases h with
  | null => exact ⟨_, .regular .null .null⟩
  | bool b => exact ⟨_, .regular (.bool b) (.bool b)⟩
  | number n => exact ⟨_, .number n⟩
  | string s => exact ⟨_, .regular (.string s) (.string s)⟩
  | negate => exact ⟨_, .regular .negate .negate⟩
  | not => exact ⟨_, .regular .not .not⟩
  | «variable» name => exact ⟨_, .regular hi (.variable name)⟩
  | interpolated after hparts =>
    cases hi with
    | interpolated hne =>
      obtain ⟨_, hread⟩ := exists_keyed hparts
      exact ⟨_, .regular (.interpolated (forall₂_ne_nil hparts hne)) (.interpolated after hread)⟩
  | define name hbody =>
    cases hi with
    | define _ hname =>
      obtain ⟨_, hread⟩ := hbody
      exact ⟨_, .regular (.define _ hname) (.define name hread)⟩
  | function params hbody =>
    cases hi with
    | function _ hparams =>
      obtain ⟨_, hread⟩ := hbody
      exact ⟨_, .regular (.function _ hparams) (.function params hread)⟩
  | access hbase hpath =>
    cases hi with
    | access _ hne =>
      obtain ⟨_, hbase⟩ := hbase
      obtain ⟨_, hread⟩ := exists_path hpath
      exact ⟨_, .regular (.access _ (forall₂_ne_nil hpath hne)) (.access hbase hread)⟩
  | assign op hbase hpath hvalue =>
    cases hi with
    | assign _ _ _ hne hcall =>
      obtain ⟨_, hbase⟩ := hbase
      obtain ⟨_, hvalue⟩ := hvalue
      obtain ⟨_, hread⟩ := exists_path hpath
      have hcall := (any_isCall_alike hpath).trans hcall
      exact ⟨_, .regular (.assign _ op _ (forall₂_ne_nil hpath hne) hcall)
        (.assign op hbase hread hvalue)⟩
  | calculate hbase hsteps =>
    cases hi with
    | calculate _ level hne hlevel =>
      obtain ⟨_, hbase⟩ := hbase
      obtain ⟨_, hread⟩ := exists_keyed hsteps
      have hlevel := forall_keys_of_forall₂ (P := (·.isMultiplicative = level)) hsteps hlevel
      exact ⟨_, .regular (.calculate _ level (forall₂_ne_nil hsteps hne) hlevel)
        (.calculate hbase hread)⟩
  | compare hbase hsteps =>
    cases hi with
    | compare _ level hne hlevel =>
      obtain ⟨_, hbase⟩ := hbase
      obtain ⟨_, hread⟩ := exists_keyed hsteps
      have hlevel := forall_keys_of_forall₂ (P := (·.isEquality = level)) hsteps hlevel
      exact ⟨_, .regular (.compare _ level (forall₂_ne_nil hsteps hne) hlevel)
        (.compare hbase hread)⟩
  | branch harms hotherwise =>
    cases hi with
    | branch _ hne =>
      obtain ⟨_, hread⟩ := exists_forall₂_of_forall₂ harms
        (S := Prod.RProd Pipeline.ReadAs Pipeline.ReadAs) (by
          rintro _ ⟨condition, body⟩ ⟨⟨condition', hcondition⟩, ⟨body', hbody⟩⟩
          exact ⟨(condition', body'), hcondition, hbody⟩)
      have hne := forall₂_ne_nil harms hne
      cases hotherwise with
      | none => exact ⟨_, .regular (.branch none hne) (.branch hread .none)⟩
      | some hp =>
        obtain ⟨_, hp⟩ := hp
        exact ⟨_, .regular (.branch (some _) hne) (.branch hread (.some hp))⟩
  | and hoperands =>
    cases hi with
    | and hlength =>
      obtain ⟨_, hread⟩ := exists_forall₂_of_forall₂ hoperands fun _ _ h => h
      exact ⟨_, .regular (.and (hoperands.length_eq ▸ hlength)) (.and hread)⟩
  | or hoperands =>
    cases hi with
    | or hlength =>
      obtain ⟨_, hread⟩ := exists_forall₂_of_forall₂ hoperands fun _ _ h => h
      exact ⟨_, .regular (.or (hoperands.length_eq ▸ hlength)) (.or hread)⟩
  | coalesce hoperands =>
    cases hi with
    | coalesce hlength =>
      obtain ⟨_, hread⟩ := exists_forall₂_of_forall₂ hoperands fun _ _ h => h
      exact ⟨_, .regular (.coalesce (hoperands.length_eq ▸ hlength)) (.coalesce hread)⟩
  | concat hoperands =>
    cases hi with
    | concat hlength =>
      obtain ⟨_, hread⟩ := exists_forall₂_of_forall₂ hoperands fun _ _ h => h
      exact ⟨_, .regular (.concat (hoperands.length_eq ▸ hlength)) (.concat hread)⟩
  | attempt hbody hhandler =>
    obtain ⟨_, hbody⟩ := hbody
    obtain ⟨_, hhandler⟩ := hhandler
    exact exists_attempt hbody hhandler
  | array hbody =>
    obtain ⟨_, hbody⟩ := hbody
    exact exists_array hbody
  | object hfields =>
    obtain ⟨_, hread⟩ := exists_forall₂_of_forall₂ hfields (S := Field.Alike Pipeline.ReadAs) (by
      rintro _ _ ⟨optional, ⟨key, hkey⟩, ⟨value, hvalue⟩⟩
      exact ⟨_, .mk optional hkey hvalue⟩)
    exact ⟨_, .regular (.object _) (.object hread)⟩
  | void => cases hi

end Instruction

/-! ### Edited programs -/

/-- Voids put in can be read where the rest can. -/
theorem Pipeline.WithVoids.hasText {p q : Pipeline} (h : p.WithVoids q)
    (hp : ∀ i ∈ p, ∃ w, i.ReadAs w) : q.HasText := by
  induction h with
  | nil => exact ⟨[], .nil⟩
  | keep i _ ih =>
    obtain ⟨⟨w, hi⟩, hp⟩ := List.forall_mem_cons.1 hp
    obtain ⟨q, hq⟩ := ih hp
    exact ⟨_, .cons hi hq⟩
  | void _ ih =>
    obtain ⟨q, hq⟩ := ih hp
    exact ⟨_, .cons .void hq⟩

theorem Pipeline.Edited.hasText {p q : Pipeline} (h : p.Edited q)
    (hp : ∀ i ∈ p, ∀ j, i.EditedBy Edited j → ∃ w, j.ReadAs w) : q.HasText := by
  obtain ⟨hedited, hvoids, -⟩ := h
  exact hvoids.hasText (forall_mem_right (forall₂_imp_of_mem hedited hp))

/-- Only voids can be put beside the void that stands for an operand that was left out. -/
theorem Pipeline.Edited.hasText_void {q : Pipeline} (h : Pipeline.Edited [.void] q) :
    q.HasText := by
  refine h.hasText (List.forall_mem_singleton.2 fun j hj => ?_)
  cases hj with
  | other _ halike =>
    cases halike
    exact ⟨_, .void⟩

/-- An assignment to all of its target stays alone, and only its value is edited. -/
theorem Pipeline.Edited.wholeAssignment {base value q : Pipeline} {op : AssignmentOp}
    (h : Pipeline.Edited [.assign base [] op value] q) :
    ∃ value', value.Edited value' ∧ q = [.assign base [] op value'] := by
  obtain ⟨hedited, -, hwhole⟩ := h
  rw [hwhole rfl]
  cases hedited with
  | cons hi hnil =>
    cases hnil
    cases hi with
    | wholeAssignment base op hvalue => exact ⟨_, hvalue, rfl⟩
    | other hno _ => cases hno

/-- An instruction that can come out of a text still has a text when it is edited. -/
theorem Instruction.Readable.edited {i : Instruction} (h : i.Readable) :
    ∀ j, i.EditedBy Pipeline.Edited j → ∃ w, j.ReadAs w := by
  refine byParts (motive := fun i => ∀ j, i.EditedBy Pipeline.Edited j → ∃ w, j.ReadAs w)
    ?regular ?redefine ?suppress ?emptyArray h
  case regular =>
    intro i hi ih j hj
    cases hj with
    | number n m => exact ⟨_, .number m⟩
    | wholeAssignment base op hvalue =>
      cases hi with
      | assign _ _ _ hne => exact absurd rfl hne
    | other _ halike =>
      exact hi.exists_readAs (halike.imp fun p hp q hpq => hpq.hasText (ih p hp))
  case redefine =>
    intro name op value hname hop ih j hj
    cases hj with
    | other _ halike =>
      cases halike with
      | define _ hbody =>
        obtain ⟨value', hvalue, rfl⟩ := hbody.wholeAssignment
        obtain ⟨_, hread⟩ := hvalue.hasText ih
        exact ⟨_, .redefine hname hop hread⟩
  case suppress =>
    intro body ih j hj
    cases hj with
    | other _ halike =>
      cases halike with
      | attempt hbody hhandler =>
        obtain ⟨_, hbody⟩ := hbody.hasText ih
        obtain ⟨_, hhandler⟩ := hhandler.hasText_void
        exact exists_attempt hbody hhandler
  case emptyArray =>
    intro j hj
    cases hj with
    | other _ halike =>
      cases halike with
      | array hbody =>
        obtain ⟨_, hbody⟩ := hbody.hasText_void
        exact exists_array hbody

/-- What can come out of a text still has a text when it is edited. -/
theorem Pipeline.Edited.readAs {p q : Pipeline} (h : p.Edited q) (hp : p.Readable) :
    ∃ r, q.ReadAs r :=
  h.hasText fun i hi => (hp i hi).edited

end JsonPipe
