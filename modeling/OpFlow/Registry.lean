import OpFlow.Error

/-!
Registries: tables from names to what the names stand for. Registering a name again replaces what it
stood for.
-/
namespace OpFlow

structure Registry (α : Type) where
  entries : List (String × α) := []
  deriving Repr, Inhabited

namespace Registry

variable {α : Type}

def empty : Registry α := {}

def register (r : Registry α) (name : String) (a : α) : Registry α :=
  ⟨r.entries.filter (fun e => e.1 ≠ name) ++ [(name, a)]⟩

def find? (r : Registry α) (name : String) : Option α := r.entries.lookup name

def find (r : Registry α) (what name : String) : Except Error α :=
  match r.find? name with
  | some a => .ok a
  | none => .error (.notFound what name)

def size (r : Registry α) : Nat := r.entries.length

def isEmpty (r : Registry α) : Bool := r.entries.isEmpty

def names (r : Registry α) : List String :=
  (r.entries.map Prod.fst).mergeSort fun a b => !decide (b < a)

theorem lookup_append_of_none {es : List (String × α)} {name : String} {a : α}
    (h : es.lookup name = none) : (es ++ [(name, a)]).lookup name = some a := by
  induction es with
  | nil => simp
  | cons e es ih =>
    obtain ⟨k, v⟩ := e
    simp only [List.lookup_cons] at h
    split at h
    · simp at h
    · rename_i hk
      simp only [List.cons_append, List.lookup_cons, hk]
      exact ih h

theorem lookup_filter_self (es : List (String × α)) (name : String) :
    (es.filter fun e => e.1 ≠ name).lookup name = none := by
  induction es with
  | nil => rfl
  | cons e es ih =>
    obtain ⟨k, v⟩ := e
    by_cases hk : k = name
    · simpa [List.filter_cons, hk] using ih
    · have : (name == k) = false := by simpa using fun h => hk h.symm
      simp only [List.filter_cons, hk, ne_eq, not_false_eq_true, decide_true, if_true, List.lookup_cons,
        this]
      exact ih

@[simp] theorem find?_register_self (r : Registry α) (name : String) (a : α) :
    (r.register name a).find? name = some a :=
  lookup_append_of_none (lookup_filter_self r.entries name)

end Registry

end OpFlow
