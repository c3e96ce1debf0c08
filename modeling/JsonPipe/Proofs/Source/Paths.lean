import JsonPipe.Proofs.Source.Fluency

/-! Reading paths back.

    A path is written selector by selector, each in brackets or as the arguments of a call, and
    what comes after it is either the end of its instruction or the symbol of an assignment. -/

namespace JsonPipe.Source

open Reader

/-! ### Operands with commas in between -/

/-- What comes after the first of several operands. -/
def operandsTail (separator : String) (more : List Pipeline) (rest : List Char) : List Char :=
  more.foldr (fun p t => separator.toList ++ groupText p t) rest

theorem operandsText_cons (separator : String) (p : Pipeline) (more : List Pipeline)
    (rest : List Char) :
    operandsText separator (p :: more) rest = groupText p (operandsTail separator more rest) := by
  induction more generalizing p with
  | nil => rfl
  | cons q more ih =>
    show groupText p (separator.toList ++ operandsText separator (q :: more) rest) = _
    rw [ih]
    rfl

theorem length_groupText (p : Pipeline) (t : List Char) :
    t.length + 2 ≤ (groupText p t).length := by
  have := (pipelineText_fronts p).length_le (')' :: t)
  simp only [List.length_cons] at this ⊢
  omega

/-! ### Selectors -/

/-- The text of one selector. -/
def selectorText : Selector Pipeline → List Char → List Char
  | .field key optional, t => '[' :: groupText key (']' :: markText optional t)
  | .iterate optional, t => '[' :: ']' :: markText optional t
  | .slice start stop optional, t =>
    '[' :: groupText start (':' :: groupText stop (']' :: markText optional t))
  | .call args bound optional, t =>
    (if bound then "->(".toList else "(".toList) ++
      operandsText ", " args (')' :: markText optional t)

theorem pathText_eq (path : List (Selector Pipeline)) (rest : List Char) :
    pathText path rest = path.foldr selectorText rest := by
  induction path with
  | nil => rfl
  | cons s path ih =>
    rw [List.foldr_cons, ← ih]
    cases s <;> rfl

/-- Text that may come after a selector or a point: nothing that would be taken for a part of it. -/
structure AfterSelector (t : List Char) : Prop where
  isTidy : isTidy t = true
  breaksOff : BreaksOff t
  noMark : begins "?" "?=" (stripped t) = false
  notRefused : t.head?.any "?=".toList.contains = false
  noName : (stripped t).head?.any isNameStart = false
  noQuote : (stripped t).head?.any (· == '"') = false

theorem Follows.afterSelector {t : List Char} (h : Follows t) : AfterSelector t := by
  cases h <;> exact ⟨rfl, rfl, rfl, rfl, rfl, rfl⟩

theorem afterSelector_selectorText (s : Selector Pipeline) (t : List Char) :
    AfterSelector (selectorText s t) := by
  cases s with
  | call args bound optional => cases bound <;> exact ⟨rfl, rfl, rfl, rfl, rfl, rfl⟩
  | _ => exact ⟨rfl, rfl, rfl, rfl, rfl, rfl⟩

theorem AfterSelector.pathText {t : List Char} (h : AfterSelector t)
    (path : List (Selector Pipeline)) : AfterSelector (pathText path t) := by
  rw [pathText_eq]
  cases path with
  | nil => exact h
  | cons s path => exact afterSelector_selectorText s _

theorem stripped_selectorText (s : Selector Pipeline) (t : List Char) :
    stripped (selectorText s t) = selectorText s t := by
  cases s with
  | call args bound optional => cases bound <;> rfl
  | _ => rfl

theorem length_selectorText (s : Selector Pipeline) (t : List Char) :
    t.length + 2 ≤ (selectorText s t).length := by
  cases s with
  | field key optional =>
    have hkey := length_groupText key (']' :: markText optional t)
    have hmark := (markText_fronts optional).length_le t
    simp only [selectorText, List.length_cons] at hkey ⊢
    omega
  | iterate optional =>
    have hmark := (markText_fronts optional).length_le t
    simp only [selectorText, List.length_cons]
    omega
  | slice start stop optional =>
    have hstart := length_groupText start (':' :: groupText stop (']' :: markText optional t))
    have hstop := length_groupText stop (']' :: markText optional t)
    have hmark := (markText_fronts optional).length_le t
    simp only [selectorText, List.length_cons] at hstart hstop ⊢
    omega
  | call args bound optional =>
    have hargs := (operandsText_fronts ", " args).length_le (')' :: markText optional t)
    have hmark := (markText_fronts optional).length_le t
    have hparen : 1 ≤ (if bound then "->(".toList else "(".toList).length := by
      cases bound <;> decide
    simp only [selectorText, List.length_append, List.length_cons] at hargs ⊢
    omega

theorem isTidy_markText (optional : Bool) {t : List Char} (h : isTidy t = true) :
    isTidy (markText optional t) = true := by
  cases optional with
  | false => exact h
  | true => rfl

/-- The question mark of a selector is read back. -/
theorem optionalMark_reads (optional : Bool) {t : List Char} (h : AfterSelector t) :
    Reads optionalMark (stripped (markText optional t)) optional (stripped t) := by
  cases optional with
  | false => exact symbol_miss h.noMark
  | true => exact symbol_hit Apart "?" "?=" rfl (by decide) h.notRefused h.isTidy

section Selectors

variable {inner : Rule} {size : Nat} (hf : Fluent inner size)
include hf

/-- The arguments of a call are read back. -/
theorem arguments_reads {args args' : List Pipeline}
    (hargs : List.Forall₂ Pipeline.ReadAs args args') {t : List Char} (htidy : isTidy t = true)
    (hsize : (operandsText ", " args (')' :: t)).length ≤ size) :
    Reads (arguments inner) (operandsText ", " args (')' :: t)) args' (stripped t) := by
  have hclose := symbol_takes Apart ")" rfl (by decide) htidy
  cases hargs with
  | nil => exact hclose.bind (takes_pure _)
  | cons hp hmore =>
    rw [operandsText_cons] at hsize ⊢
    refine listUntil_reads _ _ groupText
      (fun t => isTidy t = true ∧ endsArgument (stripped t) = true)
      ((List.Forall₂.cons hp hmore).imp ?_) (fun _ _ _ => rfl)
      (fun _ => rfl) (fun _ => rfl) (fun _ => ⟨rfl, rfl⟩) ?_ ⟨rfl, rfl⟩ hclose hsize
    · intro p q hpq t ht hsize
      exact hf.argument p q t hpq ht.1 ht.2 hsize
    · intro q _ t
      have := length_groupText q t
      omega

/-- What stands between brackets is read back, up to its question mark. -/
theorem selectorBody_reads (dotted : Bool) {s s' : Selector Pipeline}
    (hs : s.Alike Pipeline.ReadAs s') {t : List Char} (ht : isTidy t = true)
    (hsize : (selectorText s t).length ≤ size + 1) :
    ∃ build : Bool → Selector Pipeline, build s.optional = s' ∧
      Reads (selectorBody inner dotted) (selectorText s t) (some build)
        (stripped (markText s.optional t)) := by
  have hpoint : Reads (symbol ".") (selectorText s t) false (selectorText s t) := by
    refine symbol_miss ?_
    cases s with
    | call args bound optional => cases bound <;> rfl
    | _ => rfl
  -- no selector is written with a point, so it makes no difference whether one is looked for
  suffices h : ∃ build : Bool → Selector Pipeline, build s.optional = s' ∧
      Reads (selectorBody inner false) (selectorText s t) (some build)
        (stripped (markText s.optional t)) by
    obtain ⟨build, hbuild, hreads⟩ := h
    refine ⟨build, hbuild, ?_⟩
    cases dotted with
    | false => exact hreads
    | true => exact hpoint.bind hreads
  have hmark := isTidy_markText s.optional ht
  have hclose := symbol_takes Apart "]" rfl (by decide) hmark
  cases hs with
  | @field key key' optional hkey =>
    have hkey := hf.pipe key key' _ hkey rfl rfl (Nat.le_of_succ_le_succ hsize)
    refine ⟨.field key', rfl, ?_⟩
    refine (symbol_takes Apart "[" rfl (by decide) rfl).bind (Takes.bind ?_ (takes_pure _))
    refine (symbol_miss rfl).bind ((symbol_miss rfl).bind (hkey.bind ?_))
    exact hclose.bind (takes_pure _)
  | iterate optional =>
    refine ⟨.iterate, rfl, ?_⟩
    refine (symbol_takes Apart "[" rfl (by decide) rfl).bind (Takes.bind ?_ (takes_pure _))
    exact hclose.bind (takes_pure _)
  | @slice start start' stop stop' optional hstart hstop =>
    have hstart := hf.pipe start start' _ hstart rfl rfl (Nat.le_of_succ_le_succ hsize)
    have hlength := length_groupText start
      (':' :: groupText stop (']' :: markText optional t))
    have hstop := hf.pipe stop stop' (']' :: markText optional t) hstop rfl rfl (by
      simp only [selectorText, List.length_cons] at hsize hlength ⊢
      omega)
    refine ⟨.slice start' stop', rfl, ?_⟩
    refine (symbol_takes Apart "[" rfl (by decide) rfl).bind (Takes.bind ?_ (takes_pure _))
    refine (symbol_miss rfl).bind ((symbol_miss rfl).bind (hstart.bind ?_))
    refine (symbol_miss rfl).bind ((symbol_takes Apart ":" rfl (by decide) rfl).bind ?_)
    refine Takes.bind ((symbol_miss rfl).bind (hstop.bind ?_)) (takes_pure _)
    exact hclose.bind (takes_pure _)
  | @call args args' bound optional hargs =>
    have htidy : isTidy (operandsText ", " args (')' :: markText optional t)) = true ∧
        stripped (operandsText ", " args (')' :: markText optional t)) =
          operandsText ", " args (')' :: markText optional t) := by
      cases args with
      | nil => exact ⟨rfl, rfl⟩
      | cons p more =>
        rw [operandsText_cons]
        exact ⟨rfl, rfl⟩
    have hopen := symbol_takes Apart "(" rfl (by decide) htidy.1
    rw [htidy.2] at hopen
    have hparen : 1 ≤ (if bound then "->(".toList else "(".toList).length := by
      cases bound <;> decide
    have hmark : isTidy (markText optional t) = true := hmark
    have hargs := arguments_reads hf hargs hmark (by
      simp only [selectorText, List.length_append] at hsize
      omega)
    cases bound with
    | true =>
      refine ⟨.call args' true, rfl, ?_⟩
      refine (symbol_miss rfl).bind ((symbol_takes Apart "->" rfl (by decide) rfl).bind ?_)
      exact hopen.bind (hargs.bind (takes_pure _))
    | false =>
      refine ⟨.call args' false, rfl, ?_⟩
      refine (symbol_miss rfl).bind ((symbol_miss ?_).bind (hopen.bind (hargs.bind (takes_pure _))))
      rfl

/-- A selector is read back. -/
theorem selector_reads (dotted : Bool) {s s' : Selector Pipeline}
    (hs : s.Alike Pipeline.ReadAs s') {t : List Char} (ht : AfterSelector t)
    (hsize : (selectorText s t).length ≤ size + 1) :
    Reads (selector inner dotted) (selectorText s t) (some s') (stripped t) := by
  obtain ⟨build, hbuild, hbody⟩ := selectorBody_reads hf dotted hs ht.isTidy hsize
  refine hbody.bind ((optionalMark_reads s.optional ht).bind ?_)
  rw [hbuild]
  exact takes_pure _

/-- A path is read back. -/
theorem path_reads {path path' : List (Selector Pipeline)}
    (hpath : List.Forall₂ (Selector.Alike Pipeline.ReadAs) path path') {t : List Char}
    (ht : AfterSelector t) (hend : lacks 0 (stripped t) = true) (afterPoint : Bool)
    (hsize : (pathText path t).length ≤ size + 1) :
    Reads (Source.path inner afterPoint) (stripped (pathText path t)) path' (stripped t) := by
  cases hpath with
  | nil => exact path_miss hend afterPoint
  | @cons s s' more more' hs hmore =>
    have htail := ht.pathText more
    rw [pathText_eq] at htail hsize ⊢
    have hshort := length_selectorText s (more.foldr selectorText t)
    rw [List.foldr_cons] at hsize ⊢
    rw [stripped_selectorText]
    refine (selector_reads hf _ hs htail hsize).bind ?_
    have hstep : List.Forall₂ (fun x x' => ∀ u, AfterSelector u →
        (selectorText x u).length ≤ size + 1 →
          Reads (selector inner true) (stripped (selectorText x u)) (some x') (stripped u))
        more more' := by
      refine hmore.imp fun x x' hx u hu hsize => ?_
      rw [stripped_selectorText]
      exact selector_reads hf true hx hu hsize
    have hrepeats := repeats_related AfterSelector hstep (fun x _ => afterSelector_selectorText x)
      ht (fun x _ => length_selectorText x) (by omega) (selector_miss hend true)
    exact hrepeats.many.bind (takes_pure _)

/-! ### Assignments -/

/-- An assignment is read back. -/
theorem assignment_reads (op : AssignmentOp) {value value' : Pipeline}
    (hvalue : value.ReadAs value') {rest : List Char} (hrest : Follows rest)
    (hsize : (operatorText op.symbol (groupText value rest)).length ≤ size + 1) :
    Reads (assignment inner) (stripped (operatorText op.symbol (groupText value rest)))
      (some (op, value')) (stripped rest) := by
  have hsymbol : Reads (firstSymbol assignmentSymbols)
      (stripped (operatorText op.symbol (groupText value rest))) (some op)
      (groupText value rest) := by
    intro b _
    cases op with
    | arithmetic op => cases op <;> exact ⟨_, .inr rfl, rfl⟩
    | _ => exact ⟨_, .inr rfl, rfl⟩
  refine hsymbol.bind ((hf.operand value value' rest hvalue hrest.isTidy hrest.ends ?_).bind
    (takes_pure _))
  simp only [operatorText, List.length_append, List.length_cons] at hsize ⊢
  omega

theorem assignmentTo_reads {path : List (Selector Pipeline)}
    (hcall : path.any Selector.isCall = false) (op : AssignmentOp) {value value' : Pipeline}
    (hvalue : value.ReadAs value') {rest : List Char} (hrest : Follows rest)
    (hsize : (operatorText op.symbol (groupText value rest)).length ≤ size + 1) :
    Reads (assignmentTo inner path) (stripped (operatorText op.symbol (groupText value rest)))
      (some (op, value')) (stripped rest) := by
  rw [assignmentTo, hcall]
  exact assignment_reads hf op hvalue hrest hsize

end Selectors

/-- Where an instruction ends there is no assignment. -/
theorem assignmentTo_miss (inner : Rule) (path : List (Selector Pipeline)) {rest : List Char}
    (hrest : Follows rest) :
    Reads (assignmentTo inner path) (stripped rest) none (stripped rest) := by
  rw [assignmentTo]
  split
  · exact takes_pure none
  · exact (firstSymbol_miss hrest.no_assignment).bind (takes_pure none)

/-- The text after a path: the end of its instruction or an assignment. -/
structure AfterPath (t : List Char) : Prop extends AfterSelector t where
  noSelector : lacks 0 (stripped t) = true

theorem Follows.afterPath {t : List Char} (h : Follows t) : AfterPath t :=
  ⟨h.afterSelector, ends_mono (Nat.zero_le 9) h.ends⟩

theorem afterPath_operatorText (op : AssignmentOp) (value : Pipeline) (rest : List Char) :
    AfterPath (operatorText op.symbol (groupText value rest)) := by
  cases op with
  | arithmetic op => cases op <;> exact ⟨⟨rfl, rfl, rfl, rfl, rfl, rfl⟩, rfl⟩
  | _ => exact ⟨⟨rfl, rfl, rfl, rfl, rfl, rfl⟩, rfl⟩

/-! ### What a path starts from -/

/-- A point is where a path starts that is not after anything. -/
theorem accessBase_point (inner : Rule) {t : List Char} (h : AfterSelector t) :
    Reads (accessBase inner) ('.' :: t) ([], []) (stripped t) := by
  have hpeek : Reads peek (stripped t) (stripped t).head? (stripped t) := fun b hb => ⟨b, hb, rfl⟩
  have hquote : (stripped t).head? ≠ some '"' := by
    intro heq
    have := h.noQuote
    rw [heq] at this
    cases this
  refine (symbol_takes Apart "." rfl (by decide) h.isTidy).bind ?_
  refine (variableName_miss h.noName).bind (hpeek.bind ?_)
  rw [if_neg hquote]
  exact takes_pure _

/-- A point alone is read as the empty pipeline. -/
theorem point_reads {inner : Rule} {rest : List Char} (hrest : Follows rest) :
    Reads (valueAccess inner) ('.' :: rest) [] (stripped rest) := by
  have hafter := hrest.afterPath
  exact (accessBase_point inner hafter.toAfterSelector).bind
    ((path_miss hafter.noSelector _).bind (takes_pure _))

/-- The text of what a path starts from. -/
def baseText : Pipeline → List Char → List Char
  | [], t => '.' :: t
  | b :: base, t => groupText (b :: base) t

theorem bare_baseText (base : Pipeline) (t : List Char) : Bare (baseText base t) := by
  cases base with
  | nil => exact .point t
  | cons b base => exact .paren _

theorem length_baseText (base : Pipeline) (t : List Char) :
    t.length + 1 ≤ (baseText base t).length := by
  cases base with
  | nil => exact Nat.le_refl _
  | cons b base => exact Nat.le_of_succ_le (length_groupText (b :: base) t)

/-- The instruction that a path stands for, with what is assigned to it if anything is. -/
def accessed (base : Pipeline) (path : List (Selector Pipeline)) :
    Option (AssignmentOp × Pipeline) → Instruction
  | some (op, value) => .assign base path op value
  | none => .access base path

section Accesses

variable {inner : Rule} {size : Nat} (hf : Fluent inner size) {base base' : Pipeline}
  (hbase : base.ReadAs base')
include hf hbase

theorem accessBase_reads {t : List Char} (ht : AfterSelector t)
    (hsize : (baseText base t).length ≤ size + 1) :
    Reads (accessBase inner) (baseText base t) (base', []) (stripped t) := by
  cases base with
  | nil =>
    cases hbase
    exact accessBase_point inner ht
  | cons b base =>
    have hprimary : Reads (primary inner) (groupText (b :: base) t) base' (stripped t) :=
      Takes.bind (fun b hb => ⟨b, hb, rfl⟩)
        (hf.group (b :: base) base' t hbase ht.isTidy rfl hsize)
    exact (symbol_miss rfl).bind (hprimary.bind (takes_pure _))

/-- A path is read back with what it starts from and what is assigned to it. -/
theorem valueAccess_reads {path path' : List (Selector Pipeline)} {t u : List Char}
    {target : Option (AssignmentOp × Pipeline)} (hne : path ≠ [])
    (hpath : List.Forall₂ (Selector.Alike Pipeline.ReadAs) path path') (ht : AfterPath t)
    (htarget : Reads (assignmentTo inner path') (stripped t) target u)
    (hsize : (baseText base (pathText path t)).length ≤ size + 1) :
    Reads (valueAccess inner) (baseText base (pathText path t)) [accessed base' path' target] u := by
  have hlength := length_baseText base (pathText path t)
  have hselectors := path_reads hf hpath ht.toAfterSelector ht.noSelector (base'.isEmpty && true)
    (by omega)
  refine (accessBase_reads hf hbase (ht.toAfterSelector.pathText path) hsize).bind
    (hselectors.bind ?_)
  cases hpath with
  | nil => exact absurd rfl hne
  | cons _ _ =>
    refine htarget.bind ?_
    cases target <;> exact takes_pure _

end Accesses

end JsonPipe.Source
