/-! Choosing one candidate from each of several lists.

    `product` lists the choices by recursion, and `choice` computes the choice of a given number by
    division with remainder; the last list counts fastest in both. `forChoices` makes the choices
    one at a time, so that a call which fails is the last one. If one of the lists is empty there
    is nothing to choose, and that is found out first. -/

namespace JsonPipe

variable {α β : Type}

/-- Every choice of one element from each list, the last list varying fastest. -/
def product : List (List α) → List (List α)
  | [] => [[]]
  | xs :: rest => xs.flatMap fun x => (product rest).map (x :: ·)

/-- Calls `f` on every way to go on from the elements chosen so far, which are in reverse. -/
def forChoicesFrom {m : Type → Type} [Monad m] (f : List α → m (List β)) (chosen : List α) :
    List (List α) → m (List β)
  | [] => f chosen.reverse
  | xs :: rest => return (← xs.mapM fun x => forChoicesFrom f (x :: chosen) rest).flatten

/-- Calls `f` on every choice in order and joins the results. -/
def forChoices {m : Type → Type} [Monad m] (lists : List (List α)) (f : List α → m (List β)) :
    m (List β) :=
  if lists.any List.isEmpty then return [] else forChoicesFrom f [] lists

/-- The choice with the number `n`, and the quotient that is left of `n`. -/
def choice (n : Nat) : List (List α) → Nat × List α
  | [] => (n, [])
  | xs :: rest =>
    let (q, row) := choice n rest
    match xs[q % xs.length]? with
    | some x => (q / xs.length, x :: row)
    | none => (q / xs.length, row)

/-- There is no choice from an empty list. -/
theorem product_eq_nil_of_any {lists : List (List α)} (h : lists.any List.isEmpty = true) :
    product lists = [] := by
  induction lists with
  | nil => simp at h
  | cons xs rest ih =>
    rw [List.any_cons, Bool.or_eq_true] at h
    rcases h with hx | hr
    · rw [List.isEmpty_iff] at hx
      simp [product, hx]
    · simp [product, ih hr]

/-- Calls on all elements of a list succeed if every one does. -/
theorem mapM_eq_ok_map {ε : Type} {f : α → Except ε β} {g : α → β} {xs : List α} :
    xs.mapM f = .ok (xs.map g) ↔ ∀ x ∈ xs, f x = .ok (g x) := by
  induction xs with
  | nil => simp [pure, Except.pure]
  | cons x xs ih =>
    rw [List.mapM_cons, List.forall_mem_cons, ← ih]
    cases f x <;> cases xs.mapM f <;> simp [bind, Except.bind, pure, Except.pure]

/-- Calls on the elements of a list, list by list or one after the other. -/
theorem flatten_mapM_flatMap {γ : Type} {m : Type → Type} [Monad m] [LawfulMonad m]
    (f : β → m (List γ)) (g : α → List β) (xs : List α) :
    List.flatten <$> (xs.flatMap g).mapM f =
      List.flatten <$> xs.mapM fun x => List.flatten <$> (g x).mapM f := by
  induction xs with
  | nil => rfl
  | cons x xs ih =>
    have htail : ∀ ys : List γ,
        (fun zs => ys ++ List.flatten zs) <$> (xs.flatMap g).mapM f =
          (fun zs => ys ++ List.flatten zs) <$>
            xs.mapM fun x => List.flatten <$> (g x).mapM f := by
      intro ys
      have hmap := congrArg (fun r => (ys ++ ·) <$> r) ih
      simpa only [Functor.map_map] using hmap
    simp [htail]

end JsonPipe
