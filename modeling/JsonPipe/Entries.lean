/-! Entries: what is stored under which name.

    Objects, scope frames and tables of named values are lists of entries in ascending order of
    their names, by code points, without repetition. Every operation below keeps that order, so an
    object has one representation and is shown, compared and iterated in the order of its keys. -/

namespace JsonPipe

/-- Values under names. -/
abbrev Entries (α : Type) := List (String × α)

namespace Entries

variable {α β : Type}

/-- The names, in order. -/
def keys (es : Entries α) : List String := es.map (·.1)

/-- The values, in the order of their names. -/
def values (es : Entries α) : List α := es.map (·.2)

/-- The value under a name. -/
def get? (name : String) : Entries α → Option α
  | [] => none
  | (k, a) :: rest => if name = k then some a else get? name rest

/-- Stores a value under a name, in place of what was there. -/
def insert (name : String) (a : α) : Entries α → Entries α
  | [] => [(name, a)]
  | (k, b) :: rest =>
    if name = k then (name, a) :: rest
    else if name < k then (name, a) :: (k, b) :: rest
    else (k, b) :: insert name a rest

/-- Removes the value under a name. -/
def erase (name : String) : Entries α → Entries α
  | [] => []
  | (k, b) :: rest => if name = k then rest else (k, b) :: erase name rest

/-- Stores pairs one after the other; of a repeated name the last value stays. -/
def ofList (pairs : List (String × α)) : Entries α :=
  pairs.foldl (fun es p => es.insert p.1 p.2) []

/-- The names ascend strictly. -/
def Sorted (es : Entries α) : Prop := es.keys.Pairwise (· < ·)

@[simp] theorem get?_nil (name : String) : get? name ([] : Entries α) = none := rfl

/-- What was stored last under a name is found there. -/
theorem get?_insert_self (name : String) (a : α) (es : Entries α) :
    get? name (es.insert name a) = some a := by
  induction es with
  | nil => simp [insert, get?]
  | cons e rest ih =>
    obtain ⟨k, b⟩ := e
    by_cases h : name = k
    · simp [insert, get?, h]
    · by_cases hl : name < k <;> simp [insert, get?, h, hl, ih]

/-- Storing under one name leaves the other names alone. -/
theorem get?_insert_of_ne {name other : String} (h : other ≠ name) (a : α) (es : Entries α) :
    get? other (es.insert name a) = get? other es := by
  induction es with
  | nil => simp [insert, get?, h]
  | cons e rest ih =>
    obtain ⟨k, b⟩ := e
    by_cases hk : name = k
    · subst hk
      simp [insert, get?, h]
    · by_cases hl : name < k
      · simp [insert, get?, hk, hl, h]
      · simp only [insert, hk, hl, if_false, get?, ih]

end Entries

end JsonPipe
