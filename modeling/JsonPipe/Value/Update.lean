import JsonPipe.Failure
import JsonPipe.Product
import JsonPipe.Value.Order

/-! Updates of objects and arrays.

    A write that would put a value where an equal one stands keeps the one that is there. Arrays
    grow under writes beyond either end: past the last element they are padded up to the new one,
    and an index before the first element shifts the others to the right.

    Rows of choices are counted before they are made, in a word of 64 bits. A product of counts that
    does not fit, if only on the way to the last slot, breaks the run off. -/

namespace JsonPipe

/-- What happens to one entry of an object. -/
inductive Change where
  | set (value : Value)
  | delete

namespace Value

/-- The value that stands after a write of `new` over `old`. -/
def overwrite (old new : Value) : Value := if old.same new then old else new

end Value

namespace Entries

/-- Stores a value, unless an equal one is there. -/
def write (name : String) (value : Value) (es : Entries Value) : Entries Value :=
  match es.get? name with
  | some old => es.insert name (old.overwrite value)
  | none => es.insert name value

/-- Applies a change to one entry. -/
def change (es : Entries Value) : String × Change → Entries Value
  | (name, .set value) => es.write name value
  | (name, .delete) => es.erase name

/-- Applies changes one after the other. -/
def changeAll (es : Entries Value) (changes : List (String × Change)) : Entries Value :=
  changes.foldl change es

/-- Writes values one after the other. -/
def writeAll (es : Entries Value) (pairs : List (String × Value)) : Entries Value :=
  pairs.foldl (fun es p => es.write p.1 p.2) es

end Entries

namespace Items

/-- Where an index points, counted from the start; a negative index counts from the end. -/
def resolve (length : Nat) (index : Int) : Int := if index < 0 then length + index else index

/-- Writes one element, with padding where the array has to grow. -/
def write (filler : Value) (items : List Value) (index : Int) (value : Value) : List Value :=
  match resolve items.length index with
  | .ofNat i =>
    match items[i]? with
    | some old => items.set i (old.overwrite value)
    | none => items ++ List.replicate (i - items.length) filler ++ [value]
  | .negSucc missing => value :: List.replicate missing filler ++ items

/-- Writes elements one after the other, each index counted in what the writes before it left. -/
def writeAll (filler : Value) (items : List Value) (changes : List (Int × Value)) : List Value :=
  changes.foldl (fun items c => write filler items c.1 c.2) items

/-- The items, cut or padded with null to a given length. -/
def fit (length : Nat) (items : List Value) : List Value :=
  items.take length ++ List.replicate (length - items.length) .null

/-- A product, if a 64-bit word can hold it. -/
def timesInWord (n k : Nat) : Option Nat := if n * k < UInt64.size then some (n * k) else none

/-- The number of choices, multiplied from the first slot on, if no product on the way outgrows the
    word. -/
def choiceCount (slots : List (List Value)) : Option Nat :=
  slots.foldlM (fun n slot => timesInWord n slot.length) 1

/-- What is made of the number of choices, if there is one. -/
def counted {α : Type} (slots : List (List Value)) (make : Nat → α) : Except Failure α :=
  match choiceCount slots with
  | some n => .ok (make n)
  | none => .error (.of .overflow)

theorem map_counted {α β : Type} (f : α → β) (slots : List (List Value)) (make : Nat → α) :
    (counted slots make).map f = counted slots fun n => f (make n) := by
  rw [counted, counted]
  cases choiceCount slots <;> rfl

/-- Every row with one candidate in each slot, written over the source row; the last slot varies
    fastest. -/
def combinations (source : List Value) (slots : List (List Value)) :
    Except Failure (List (List Value)) :=
  counted slots fun n => (List.range n).map fun i =>
    List.zipWith Value.overwrite (fit slots.length source) (choice i slots).2

end Items

end JsonPipe
