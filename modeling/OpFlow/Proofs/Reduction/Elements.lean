import OpFlow.Reduction

/-!
Reductions element by element. Byte strings of one length that is a whole number of elements can be
reduced, and each element of the result is the fold of the elements at its place; other strings
cannot, as soon as there are two of them.
-/
namespace OpFlow

theorem Bytes.length_of_mem_blocks {width count : Nat} {b : Bytes} (h : b.length = count * width) :
    ∀ s ∈ b.blocks width count, s.length = width := by
  induction count generalizing b with
  | zero => simp [blocks]
  | succ count ih =>
    rw [Nat.succ_mul] at h
    refine List.forall_mem_cons.2 ⟨?_, ih ?_⟩
    · rw [List.length_take, h]
      omega
    · rw [List.length_drop, h, Nat.add_sub_cancel]

theorem Bytes.blocks_flatten {width : Nat} {l : List Bytes} (h : ∀ b ∈ l, b.length = width) :
    blocks width l.length l.flatten = l := by
  induction l with
  | nil => rfl
  | cons b l ih =>
    obtain ⟨hb, hl⟩ := List.forall_mem_cons.1 h
    rw [List.length_cons, List.flatten_cons, blocks, List.take_left' hb, List.drop_left' hb, ih hl]

theorem Bytes.length_flatten {width : Nat} {l : List Bytes} (h : ∀ b ∈ l, b.length = width) :
    l.flatten.length = l.length * width := by
  induction l with
  | nil => simp
  | cons b l ih =>
    obtain ⟨hb, hl⟩ := List.forall_mem_cons.1 h
    rw [List.flatten_cons, List.length_append, hb, ih hl, List.length_cons, Nat.succ_mul,
      Nat.add_comm]

namespace Reduction

variable {t : ElementType} {k : ReductionKind} {a b c : Bytes} {len : Nat}

def elementAt (t : ElementType) (j : Nat) (b : Bytes) : Bytes := (b.drop (j * t.width)).take t.width

/-- Byte strings of one length, which is a whole number of elements. -/
def Uniform (t : ElementType) (inputs : List Bytes) : Prop :=
  ∃ len, t.width ∣ len ∧ ∀ b ∈ inputs, b.length = len

theorem length_elementAt (hb : b.length = len) {j : Nat} (hj : j < len / t.width) :
    (elementAt t j b).length = t.width := by
  have hle : (j + 1) * t.width ≤ len :=
    Nat.le_trans (Nat.mul_le_mul_right _ hj) (Nat.div_mul_le_self _ _)
  rw [Nat.succ_mul] at hle
  rw [elementAt, List.length_take, List.length_drop]
  omega

theorem getElem?_elements {j : Nat} (hj : j < b.length / t.width) :
    (elements t b)[j]? = some (elementAt t j b) := Bytes.getElem?_blocks hj

@[simp] theorem length_elements (t : ElementType) (b : Bytes) :
    (elements t b).length = b.length / t.width := Bytes.length_blocks _ _ _

theorem flatten_elements (hw : t.width ∣ b.length) : (elements t b).flatten = b :=
  Bytes.flatten_blocks_of_length (Nat.div_mul_cancel hw).symm

theorem ext_elementAt (hw : t.width ∣ len) (ha : a.length = len) (hb : b.length = len)
    (h : ∀ j < len / t.width, elementAt t j a = elementAt t j b) : a = b := by
  rw [← flatten_elements (b := a) (ha.symm ▸ hw), ← flatten_elements (b := b) (hb.symm ▸ hw)]
  refine congrArg List.flatten (List.ext_getElem? fun j => ?_)
  by_cases hj : j < len / t.width
  · rw [getElem?_elements (ha.symm ▸ hj), getElem?_elements (hb.symm ▸ hj), h j hj]
  · rw [List.getElem?_eq_none (by simpa [ha] using hj),
      List.getElem?_eq_none (by simpa [hb] using hj)]

/-! ### Two strings -/

theorem reduce_of_length (k : ReductionKind) (hw : t.width ∣ len) (ha : a.length = len)
    (hb : b.length = len) : ∃ c, reduce t k a b = .ok c ∧ c.length = len ∧
      ∀ j < len / t.width, elementAt t j c = ofElements t k (elementAt t j a) (elementAt t j b) := by
  have hreduce : reduce t k a b =
      .ok (List.zipWith (ofElements t k) (elements t a) (elements t b)).flatten := by
    rw [reduce, if_neg (by simp [ha, hb]), if_neg (by simp [ha, Nat.mod_eq_zero_of_dvd hw])]
  -- the reduced elements fill the result, so its elements are they
  have hwidth : ∀ x ∈ List.zipWith (ofElements t k) (elements t a) (elements t b),
      x.length = t.width := by
    intro x hx
    obtain ⟨j, hj, rfl⟩ := List.mem_iff_getElem.1 hx
    rw [List.getElem_zipWith]
    exact length_ofElements t k _ _
  have hcount : (List.zipWith (ofElements t k) (elements t a) (elements t b)).length =
      len / t.width := by simp [ha, hb]
  have hlength := Bytes.length_flatten hwidth
  rw [hcount, Nat.div_mul_cancel hw] at hlength
  refine ⟨_, hreduce, hlength, fun j hj => ?_⟩
  have helements := Bytes.blocks_flatten hwidth
  rw [hcount] at helements
  have hget := getElem?_elements (t := t) (hlength.symm ▸ hj)
  rw [elements, hlength, helements, List.getElem?_zipWith, getElem?_elements (ha.symm ▸ hj),
    getElem?_elements (hb.symm ▸ hj)] at hget
  exact (Option.some.inj hget).symm

theorem length_of_reduce (h : reduce t k a b = .ok c) :
    b.length = a.length ∧ t.width ∣ a.length ∧ c.length = a.length := by
  rw [reduce] at h
  split at h
  · cases h
  · next hlength =>
    split at h
    · cases h
    · next hwhole =>
      have hb : b.length = a.length := (Decidable.of_not_not hlength).symm
      have hw : t.width ∣ a.length := Nat.dvd_of_mod_eq_zero (Decidable.of_not_not hwhole)
      obtain ⟨c', hc', hlen, -⟩ := reduce_of_length k hw rfl hb
      rw [reduce, if_neg hlength, if_neg hwhole] at hc'
      rw [h] at hc'
      exact ⟨hb, hw, Except.ok.inj hc' ▸ hlen⟩

theorem kind_of_reduce {e : Error} (h : reduce t k a b = .error e) : e.kind = .invalidArgument := by
  rw [reduce] at h
  split at h
  · rw [← Except.error.inj h]; rfl
  · split at h
    · rw [← Except.error.inj h]; rfl
    · cases h

/-! ### Many strings -/

theorem reduceAll_of_length (k : ReductionKind) (hw : t.width ∣ len) {first : Bytes}
    {rest : List Bytes} (h : ∀ b ∈ first :: rest, b.length = len) :
    ∃ c, reduceAll t k (first :: rest) = .ok c ∧ c.length = len ∧
      ∀ j < len / t.width, elementAt t j c =
        (rest.map (elementAt t j)).foldl (ofElements t k) (elementAt t j first) := by
  induction rest generalizing first with
  | nil => exact ⟨first, rfl, h first (by simp), fun _ _ => rfl⟩
  | cons second rest ih =>
    obtain ⟨hfirst, hsecond, hrest⟩ : first.length = len ∧ second.length = len ∧
      ∀ b ∈ rest, b.length = len := by simpa using h
    obtain ⟨acc, hacc, hlength, helements⟩ := reduce_of_length k hw hfirst hsecond
    obtain ⟨c, hc, hclength, hcelements⟩ := ih (List.forall_mem_cons.2 ⟨hlength, hrest⟩)
    refine ⟨c, ?_, hclength, fun j hj => ?_⟩
    · rw [reduceAll, List.foldlM_cons, hacc]
      exact hc
    · rw [hcelements j hj, helements j hj]
      rfl

/-- Strings that can be folded have the length of what they are folded into. -/
theorem length_of_foldlM {rest : List Bytes} (h : rest.foldlM (reduce t k) a = .ok c) :
    (∀ b ∈ rest, b.length = a.length) ∧ (rest ≠ [] → t.width ∣ a.length) ∧ c.length = a.length := by
  induction rest generalizing a with
  | nil =>
    obtain rfl : a = c := Except.ok.inj h
    simp
  | cons b rest ih =>
    rw [List.foldlM_cons] at h
    cases hreduce : reduce t k a b with
    | error e => rw [hreduce] at h; cases h
    | ok acc =>
      rw [hreduce] at h
      obtain ⟨hb, hw, hacc⟩ := length_of_reduce hreduce
      obtain ⟨hrest, -, hc⟩ := ih h
      refine ⟨List.forall_mem_cons.2 ⟨hb, fun b' hb' => (hrest b' hb').trans hacc⟩, fun _ => hw, ?_⟩
      exact hc.trans hacc

theorem kind_of_foldlM {rest : List Bytes} {e : Error}
    (h : rest.foldlM (reduce t k) a = .error e) : e.kind = .invalidArgument := by
  induction rest generalizing a with
  | nil => cases h
  | cons b rest ih =>
    rw [List.foldlM_cons] at h
    cases hreduce : reduce t k a b with
    | error e' =>
      rw [hreduce] at h
      exact Except.error.inj h ▸ kind_of_reduce hreduce
    | ok acc =>
      rw [hreduce] at h
      exact ih h

theorem kind_of_reduceAll {inputs : List Bytes} {e : Error} (h : reduceAll t k inputs = .error e) :
    e.kind = .invalidArgument := by
  cases inputs with
  | nil => rw [← Except.error.inj h]; rfl
  | cons first rest => exact kind_of_foldlM h

theorem reduceAll_eq_ok_iff (k : ReductionKind) {inputs : List Bytes} (h : 2 ≤ inputs.length) :
    (∃ c, reduceAll t k inputs = .ok c) ↔ Uniform t inputs := by
  obtain _ | ⟨first, _ | ⟨second, rest⟩⟩ := inputs
  · cases h
  · simp at h
  · constructor
    · rintro ⟨c, hc⟩
      obtain ⟨hrest, hw, -⟩ := length_of_foldlM hc
      exact ⟨first.length, hw (by simp), List.forall_mem_cons.2 ⟨rfl, hrest⟩⟩
    · rintro ⟨len, hw, hlength⟩
      obtain ⟨c, hc, -⟩ := reduceAll_of_length k hw hlength
      exact ⟨c, hc⟩

end Reduction

end OpFlow
