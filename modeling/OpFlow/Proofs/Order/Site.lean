import OpFlow.Machine.Execution
import OpFlow.Proofs.Order.Meaning

/-!
Where a run stands in program order: the region it executes, and the arena from which this region
starts when everything before it has been done. The sites of nested runs follow from that of the run
around them. What a slot holds before an operation is what the last operation before it left there
that writes the slot.
-/
namespace OpFlow

open Machine (Scope CallKey)

variable {α : Type}

structure Site (α : Type) where
  region : Program α
  arena : Arena

namespace Meaning

variable [Leaf α] (m : Meaning α) {op : Operation α} {ops : List (Operation α)} {a : Arena}

/-! ### Sequences -/

theorem sequence_append (ops ops' : List (Operation α)) (a : Arena) :
    (m.sequence (ops ++ ops') a).1 = (m.sequence ops' (m.sequence ops a).1).1 := by
  induction ops generalizing a with
  | nil => rw [sequence_nil, List.nil_append]
  | cons op ops ih => simp only [List.cons_append, sequence_cons, ih]

theorem size_sequence (ops : List (Operation α)) (a : Arena) :
    (m.sequence ops a).1.size = a.size :=
  (m.confines_sequence ops).size a

theorem sequence_ok (h : ∀ j op, ops[j]? = some op →
    (m.operation op (m.sequence (ops.take j) a).1).2 = .ok ()) : (m.sequence ops a).2 = .ok () := by
  induction ops generalizing a with
  | nil => rw [sequence_nil]
  | cons op ops ih =>
    have hhead := h 0 op rfl
    rw [List.take_zero, sequence_nil] at hhead
    rw [sequence_cons, hhead]
    refine ih fun j op' hj => ?_
    have := h (j + 1) op' hj
    rwa [List.take_succ_cons, sequence_cons] at this

/-- Operations come to the error of the first that fails. -/
theorem sequence_error {i : Nat} {e : Error} (hi : ops[i]? = some op)
    (hbefore : ∀ j < i, ∀ op, ops[j]? = some op →
      (m.operation op (m.sequence (ops.take j) a).1).2 = .ok ())
    (h : (m.operation op (m.sequence (ops.take i) a).1).2 = .error e) :
    (m.sequence ops a).2 = .error (e.attributedTo op.info) := by
  induction ops generalizing a i with
  | nil => cases hi
  | cons op' ops ih =>
    cases i with
    | zero =>
      obtain rfl := Option.some.inj hi
      rw [List.take_zero, sequence_nil] at h
      rw [sequence_cons, h, first]
    | succ i =>
      have hhead := hbefore 0 (Nat.succ_pos i) op' rfl
      rw [List.take_zero, sequence_nil] at hhead
      rw [sequence_cons, hhead]
      rw [List.take_succ_cons, sequence_cons] at h
      refine ih hi (fun j hj op'' hop => ?_) h
      have := hbefore (j + 1) (Nat.succ_lt_succ hj) op'' hop
      rwa [List.take_succ_cons, sequence_cons] at this

/-! ### Sites -/

/-- The arena that an operation of a region finds. -/
noncomputable def before (x : Site α) (j : Nat) : Arena :=
  (m.sequence (x.region.ops.take j) x.arena).1

/-- The nested run of this number of an operation that finds this arena, if it comes to it. -/
inductive Nests : Operation α → Arena → Nat → Site α → Prop
  | body {info : OpInfo} {body : Program α} {a : Arena} : Nests (.call info body) a 0 ⟨body, a⟩
  | branch {info : OpInfo} {index : Slice} {type : IndexType} {branches : List (Program α)}
      {bytes : Bytes} {branch : Program α} {a : Arena} (hread : a.read index = .ok bytes)
      (hbranch : branches[type.choose branches.length bytes]? = some branch) :
    Nests (.conditional info index type branches) a 0 ⟨branch, a⟩
  | turn {info : OpInfo} {predicate : Slice} {condition body : Program α} {trips : Option Nat}
      {n iteration : Nat} {inBody : Bool} {a a' : Arena}
      (hgoing : Turning.after predicate trips (m.region condition) (m.region body) n a =
        (a', .going iteration inBody)) :
    Nests (.loop info predicate condition body trips) a n
      ⟨if inBody || trips.isSome then body else condition, a'⟩

inductive Inside (x : Site α) : Scope → Site α → Prop
  | here : Inside x [] x
  | nested {y z : Site α} {op : Operation α} {j n : Nat} {scope : Scope} (hy : Inside x scope y)
      (hop : y.region.ops[j]? = some op) (hz : m.Nests op (m.before y j) n z) :
    Inside x ((j, n) :: scope) z

/-- What a call is a call of, and the arena that it finds in program order. -/
def Calls (x : Site α) (c : CallKey) (op : Operation α) (a : Arena) : Prop :=
  ∃ y, m.Inside x c.run.scope y ∧ y.region.ops[c.node]? = some op ∧ a = m.before y c.node

variable {m} {x y z : Site α} {j k n : Nat} {scope : Scope} {c d : CallKey} {a' : Arena}
  {op' : Operation α}

theorem Nests.unique (h : m.Nests op a n y) (h' : m.Nests op a n z) : z = y := by
  cases h with
  | body =>
    cases h'
    rfl
  | branch hread hbranch =>
    cases h' with
    | branch hread' hbranch' =>
      obtain rfl := Except.ok.inj (hread.symm.trans hread')
      rw [Option.some.inj (hbranch.symm.trans hbranch')]
  | turn hgoing =>
    cases h' with
    | turn hgoing' =>
      obtain ⟨rfl, hturning⟩ := Prod.mk.inj (hgoing.symm.trans hgoing')
      obtain ⟨-, rfl⟩ := Turning.going.inj hturning
      rfl

theorem Inside.unique (h : m.Inside x scope y) (h' : m.Inside x scope z) : z = y := by
  induction h generalizing z with
  | here =>
    cases h'
    rfl
  | nested _ hop hn ih =>
    cases h' with
    | nested hy' hop' hn' =>
      obtain rfl := ih hy'
      obtain rfl := Option.some.inj (hop.symm.trans hop')
      exact hn.unique hn'

theorem Calls.unique (h : m.Calls x c op a) (h' : m.Calls x c op' a') : op' = op ∧ a' = a := by
  obtain ⟨y, hy, hop, rfl⟩ := h
  obtain ⟨y', hy', hop', rfl⟩ := h'
  obtain rfl := hy.unique hy'
  exact ⟨Option.some.inj (hop'.symm.trans hop), rfl⟩

theorem Inside.calls (h : m.Inside x (c.nested n).scope z) :
    ∃ op a, m.Calls x c op a ∧ m.Nests op a n z := by
  cases h with
  | nested hy hop hn => exact ⟨_, _, ⟨_, hy, hop, rfl⟩, hn⟩

theorem Calls.inside (h : m.Calls x c op a) (hn : m.Nests op a n z) :
    m.Inside x (c.nested n).scope z := by
  obtain ⟨y, hy, hop, rfl⟩ := h
  exact .nested hy hop hn

theorem Nests.mem_nested (h : m.Nests op a n z) : z.region ∈ op.nested := by
  cases h with
  | body => exact List.mem_singleton_self _
  | branch _ hbranch => exact List.mem_of_getElem? hbranch
  | turn =>
    simp only [Operation.nested, List.mem_cons, List.not_mem_nil, or_false]
    split
    · exact .inr rfl
    · exact .inl rfl

theorem Calls.within (h : m.Calls x c op a) (h' : m.Calls x d op' a')
    (hd : d.run = c.nested n) : op'.footprint.Within op.footprint := by
  obtain ⟨z, hz, hop', -⟩ := h'
  rw [hd] at hz
  obtain ⟨op'', a'', hc, hn⟩ := hz.calls
  obtain ⟨rfl, rfl⟩ := h.unique hc
  exact Operation.within_of_mem_ops hn.mem_nested (List.mem_of_getElem? hop')

theorem size_before (x : Site α) (j : Nat) : (m.before x j).size = x.arena.size :=
  m.size_sequence _ _

theorem Nests.size (h : m.Nests op a n z) : z.arena.size = a.size := by
  cases h with
  | body | branch => rfl
  | @turn info predicate condition body trips _ _ _ _ _ hgoing =>
    have := (m.confines_after info predicate condition body trips n).size a
    rwa [hgoing] at this

theorem Inside.size (h : m.Inside x scope y) : y.arena.size = x.arena.size := by
  induction h with
  | here => rfl
  | nested _ _ hn ih => rw [hn.size, size_before, ih]

/-! ### Slots -/

theorem before_zero (x : Site α) : m.before x 0 = x.arena := by
  rw [before, List.take_zero, sequence_nil]

theorem before_succ (hop : x.region.ops[j]? = some op) :
    m.before x (j + 1) = (m.operation op (m.before x j)).1 := by
  rw [before, List.take_add_one, hop, sequence_append, Option.toList_some, sequence_cons,
    sequence_nil]
  rfl

theorem before_of_length_le (hj : x.region.ops.length ≤ j) :
    m.before x j = (m.region x.region x.arena).1 := by
  rw [before, List.take_of_length_le hj, region_eq]

theorem before_slot {i : Nat} (hjk : j ≤ k) (hw : ∀ l op, j ≤ l → l < k →
    x.region.ops[l]? = some op → op.footprint.writes (.slot i) = false) :
    (m.before x k).slots[i]? = (m.before x j).slots[i]? := by
  induction hjk with
  | refl => rfl
  | @step k hjk ih =>
    refine Eq.trans ?_ (ih fun l op hl hlk => hw l op hl (Nat.lt_succ_of_lt hlk))
    cases hop : x.region.ops[k]? with
    | none =>
      have hk := List.getElem?_eq_none_iff.1 hop
      rw [before_of_length_le hk, before_of_length_le (Nat.le_succ_of_le hk)]
    | some op =>
      rw [before_succ hop]
      exact (m.confines_operation op).frame _ i (hw k op hjk (Nat.lt_succ_self k) hop)

end Meaning

end OpFlow
