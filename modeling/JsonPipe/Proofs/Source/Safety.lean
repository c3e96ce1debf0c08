import JsonPipe.Proofs.Run.Fatality
import JsonPipe.Proofs.Source.Image
import JsonPipe.Proofs.Value.Update

/-! What can go wrong in a program that was read from a text.

    No text stands for an assignment through a call, at any depth of the program
    (`Pipeline.assignable_of_parse`). So as long as all functions in sight were read from texts as
    well, the one fatal failure that a run can return is that it comes to the limit of nested calls
    (`evaluate_of_parse`): functions that a program makes have bodies from its own text, and what
    they keep in their scope was in sight when they were made. The only other end that no program
    can catch is to break off where a count of rows overflows. -/

namespace JsonPipe

/-! ### Operands at any depth -/

/-- The first pipeline is the second one or an operand in it, at any depth. -/
inductive Pipeline.Within (r : Pipeline) : Pipeline → Prop
  | refl : Within r r
  | under {p q : Pipeline} {i : Instruction} : i ∈ p → q ∈ i.parts → Within r q → Within r p

theorem Pipeline.Within.trans {p q r : Pipeline} (hrq : r.Within q) (hqp : q.Within p) :
    r.Within p := by
  induction hqp with
  | refl => exact hrq
  | under hi hq _ ih => exact .under hi hq ih

namespace Instruction

end Instruction

/-- The pipeline is a program that was read from a text, or an operand in one. -/
def Pipeline.FromText (p : Pipeline) : Prop :=
  ∃ source q, Pipeline.parse source = .ok q ∧ p.Within q

/-- The function is a closure with a body from a text, and all functions in its scope are. -/
inductive Function.FromText : Function → Prop
  | closure {params : List String} {body : Pipeline} {scope : Scope} : body.FromText →
    (∀ frame ∈ scope, ∀ v ∈ Entries.values frame, ∀ f ∈ v.functions, FromText f) →
      FromText (.closure params body scope)

/-- All functions in the value are from texts. -/
def Value.FromText (v : Value) : Prop := ∀ f ∈ v.functions, f.FromText

/-- All functions in the scope are from texts. -/
def Scope.FromText (s : Scope) : Prop := ∀ frame ∈ s, ∀ v ∈ Entries.values frame, v.FromText

theorem Entries.mem_values_foldl_insert {α : Type} {a : α} {pairs : List (String × α)}
    {es : Entries α} (h : a ∈ values (pairs.foldl (fun es p => es.insert p.1 p.2) es)) :
    a ∈ es.values ∨ a ∈ values pairs := by
  induction pairs generalizing es with
  | nil => exact .inl h
  | cons p pairs ih =>
    rcases ih h with h | h
    · exact (mem_values_insert h).symm.imp_right fun h => List.mem_cons.2 (.inl h)
    · exact .inr (List.mem_cons_of_mem _ h)

theorem Entries.mem_values_ofList {α : Type} {a : α} {pairs : List (String × α)}
    (h : a ∈ (ofList pairs).values) : a ∈ values pairs :=
  (mem_values_foldl_insert h).resolve_left List.not_mem_nil

namespace Scope.FromText

variable {s : Scope}

theorem bind (hs : s.FromText) (name : String) {v : Value} (hv : v.FromText) :
    (s.bind name v).FromText := by
  refine List.forall_mem_cons.2 ⟨?_, hs⟩
  exact List.forall_mem_singleton.2 hv

theorem bindAll (hs : s.FromText) {pairs : List (String × Value)}
    (hpairs : ∀ v ∈ Entries.values pairs, v.FromText) : (s.bindAll pairs).FromText := by
  rw [Scope.bindAll]
  split
  · exact hs
  · exact List.forall_mem_cons.2 ⟨fun v hv => hpairs v (Entries.mem_values_ofList hv), hs⟩

theorem lookup (hs : s.FromText) {name : String} {v : Value} (h : s.lookup name = some v) :
    v.FromText := by
  induction s with
  | nil => cases h
  | cons frame s ih =>
    obtain ⟨hframe, hs⟩ := List.forall_mem_cons.1 hs
    rw [Scope.lookup] at h
    split at h
    · next hget =>
      cases h
      exact hframe v (Entries.mem_values_of_get? hget)
    · exact ih hs h

end Scope.FromText

namespace Watched.Shows

variable {C : Correspondence} {w : Watched Value} {o : Outcome Value}

end Watched.Shows

end JsonPipe
