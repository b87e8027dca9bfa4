/-!
Finite maps as lists of pairs, for maps with few entries. The last value set under a key is the one
that is found, and erasing a key forgets it.
-/
namespace OpFlow

/-- A finite map; of two entries with one key the first counts. -/
structure Assoc (κ α : Type) where
  entries : List (κ × α) := []
  deriving Repr, Inhabited

namespace Assoc

variable {κ α : Type} [DecidableEq κ]

def empty : Assoc κ α := {}

def find (k : κ) : List (κ × α) → Option α
  | [] => none
  | (j, a) :: rest => if j = k then some a else find k rest

def get? (m : Assoc κ α) (k : κ) : Option α := find k m.entries

def erase (m : Assoc κ α) (k : κ) : Assoc κ α := ⟨m.entries.filter fun e => e.1 ≠ k⟩

def set (m : Assoc κ α) (k : κ) (a : α) : Assoc κ α := ⟨(k, a) :: (m.erase k).entries⟩

def modify (m : Assoc κ α) (k : κ) (f : α → α) : Assoc κ α :=
  match m.get? k with
  | some a => m.set k (f a)
  | none => m

def size (m : Assoc κ α) : Nat := m.entries.length

@[simp] theorem find_nil (k : κ) : find k ([] : List (κ × α)) = none := rfl

theorem find_cons (k : κ) (e : κ × α) (es : List (κ × α)) :
    find k (e :: es) = if e.1 = k then some e.2 else find k es := rfl

@[simp] theorem get?_empty (k : κ) : (empty : Assoc κ α).get? k = none := rfl

theorem find_filter_self (k : κ) (es : List (κ × α)) :
    find k (es.filter fun e => e.1 ≠ k) = none := by
  induction es with
  | nil => rfl
  | cons e es ih =>
    simp only [List.filter_cons]
    split
    · simp_all [find_cons]
    · exact ih

theorem find_filter_of_ne {j k : κ} (h : j ≠ k) (es : List (κ × α)) :
    find k (es.filter fun e => e.1 ≠ j) = find k es := by
  induction es with
  | nil => rfl
  | cons e es ih =>
    simp only [List.filter_cons]
    split
    · simp only [find_cons, ih]
    · have : e.1 = j := by simp_all
      simp_all [find_cons]

@[simp] theorem get?_erase_self (m : Assoc κ α) (k : κ) : (m.erase k).get? k = none :=
  find_filter_self k m.entries

theorem get?_erase_of_ne (m : Assoc κ α) {j k : κ} (h : j ≠ k) :
    (m.erase j).get? k = m.get? k := find_filter_of_ne h m.entries

@[simp] theorem get?_set_self (m : Assoc κ α) (k : κ) (a : α) : (m.set k a).get? k = some a := by
  simp [get?, set, find_cons]

theorem get?_set_of_ne (m : Assoc κ α) {j k : κ} (h : j ≠ k) (a : α) :
    (m.set j a).get? k = m.get? k := by
  simp only [get?, set, find_cons, h, if_false]
  exact find_filter_of_ne h m.entries

def keys (m : Assoc κ α) : List κ := m.entries.map Prod.fst

theorem mem_keys_iff (m : Assoc κ α) (k : κ) : k ∈ m.keys ↔ (m.get? k).isSome := by
  obtain ⟨entries⟩ := m
  simp only [keys, get?]
  induction entries with
  | nil => simp
  | cons e entries ih =>
    rw [List.map_cons, List.mem_cons, ih, find_cons]
    split
    · next h => simp [h]
    · next h => simp [Ne.symm h]

theorem keys_erase (m : Assoc κ α) (k : κ) : (m.erase k).keys = m.keys.filter (· ≠ k) := by
  simp only [keys, erase, List.filter_map]
  rfl

theorem nodup_keys_erase {m : Assoc κ α} (h : m.keys.Nodup) (k : κ) : (m.erase k).keys.Nodup := by
  rw [keys_erase]
  exact h.filter _

theorem nodup_keys_set {m : Assoc κ α} (h : m.keys.Nodup) (k : κ) (a : α) :
    (m.set k a).keys.Nodup := by
  refine List.nodup_cons.2 ⟨fun hk => ?_, nodup_keys_erase h k⟩
  simpa using ((m.erase k).mem_keys_iff k).1 hk

theorem size_eq_zero {m : Assoc κ α} (h : ∀ k, m.get? k = none) : m.size = 0 := by
  obtain ⟨entries⟩ := m
  cases entries with
  | nil => rfl
  | cons e entries =>
    have := h e.1
    simp [get?, find_cons] at this

end Assoc

end OpFlow
