import Mathlib.Algebra.BigOperators.Group.List.Lemmas
import Mathlib.Data.Int.ModEq
import OpFlow.Proofs.Reduction.Elements

/-!
Reductions of integers and truth values. Sums and products are those of the numbers that the
elements denote, up to the width of the type; a minimum or maximum is the least or greatest of the
elements; truth values reduce to whether any or all of them are true. None of this depends on the
order of the elements.
-/
namespace OpFlow

namespace Bytes

theorem toNat_ofInt (width : Nat) (n : Int) :
    ((ofInt width n).toNat : Int) = n % 2 ^ (8 * width) := by
  have hpow : ((Nat.pow 256 width : Nat) : Int) = 2 ^ (8 * width) := by
    rw [Nat.pow_eq, Nat.cast_pow, pow_mul]
    rfl
  have hpos : (0 : Int) < 2 ^ (8 * width) := Int.pow_pos (by decide)
  rw [ofInt, toNat_ofNat, hpow, Int.natCast_emod, hpow,
    Int.toNat_of_nonneg (Int.emod_nonneg _ hpos.ne'), Int.emod_emod_of_dvd _ dvd_rfl]

theorem toNat_lt_pow {width : Nat} {b : Bytes} (h : b.length = width) :
    (b.toNat : Int) < 2 ^ (8 * width) := by
  have hlt := b.toNat_lt
  rw [h, Nat.pow_eq, show 256 = 2 ^ 8 from rfl, ← pow_mul] at hlt
  exact_mod_cast hlt

theorem eq_of_toNat_eq {a b : Bytes} (hlength : a.length = b.length) (h : a.toNat = b.toNat) :
    a = b := by
  rw [← ofNat_toNat a, ← ofNat_toNat b, hlength, h]

end Bytes

def ElementType.isFloat : ElementType → Bool
  | f32 | f64 => true
  | pred | u8 | s32 | s64 => false

namespace Reduction

variable {t : ElementType} {k : ReductionKind}

def number : ElementType → Bytes → Int
  | .s32, b | .s64, b => b.toInt
  | .pred, b | .u8, b | .f32, b | .f64, b => b.toNat

/-- The element to which numbers reduce: their sum or product as far as the width goes, or the least
or greatest of them. -/
def IsReducedNumber (t : ElementType) (k : ReductionKind) (xs : List Bytes) (b : Bytes) : Prop :=
  match k with
  | .sum => (b.toNat : Int) = (xs.map (number t)).sum % 2 ^ (8 * t.width)
  | .product => (b.toNat : Int) = (xs.map (number t)).prod % 2 ^ (8 * t.width)
  | .min => b ∈ xs ∧ ∀ x ∈ xs, number t b ≤ number t x
  | .max => b ∈ xs ∧ ∀ x ∈ xs, number t x ≤ number t b

def IsReducedTruth (k : ReductionKind) (xs : List Bytes) (b : Bytes) : Prop :=
  match k with
  | .sum | .max => b = [if ∃ x ∈ xs, x.toNat ≠ 0 then 1 else 0]
  | .product | .min => b = [if ∀ x ∈ xs, x.toNat ≠ 0 then 1 else 0]

def IsReduced (t : ElementType) (k : ReductionKind) (xs : List Bytes) (b : Bytes) : Prop :=
  b.length = t.width ∧ if t = .pred then IsReducedTruth k xs b else IsReducedNumber t k xs b

theorem number_modEq (t : ElementType) {b : Bytes} (h : b.length = t.width) :
    number t b ≡ b.toNat [ZMOD 2 ^ (8 * t.width)] := by
  have hsigned : b.toInt ≡ b.toNat [ZMOD 2 ^ (8 * t.width)] := by
    have hpow : ((Nat.pow 256 b.length : Nat) : Int) = 2 ^ (8 * t.width) := by
      rw [h, Nat.pow_eq, Nat.cast_pow, pow_mul]
      rfl
    rw [Bytes.toInt, ← hpow]
    exact Int.bmod_emod
  cases t <;> first | exact hsigned | exact Int.ModEq.rfl

theorem toNat_eq_emod {n : Int} {b : Bytes} (h : b.length = t.width)
    (hn : (b.toNat : Int) ≡ n [ZMOD 2 ^ (8 * t.width)]) :
    (b.toNat : Int) = n % 2 ^ (8 * t.width) := by
  rw [← hn, Int.emod_eq_of_lt (Int.natCast_nonneg _) (Bytes.toNat_lt_pow h)]

theorem number_inj {a b : Bytes} (ha : a.length = t.width) (hb : b.length = t.width)
    (h : number t a = number t b) : a = b := by
  refine Bytes.eq_of_toNat_eq (ha.trans hb.symm) (Int.natCast_inj.1 ?_)
  have hmod := (number_modEq t ha).symm.trans (h ▸ number_modEq t hb)
  rw [toNat_eq_emod ha hmod, ← toNat_eq_emod hb Int.ModEq.rfl]

theorem ofInt_number {b : Bytes} (h : b.length = t.width) : .ofInt t.width (number t b) = b := by
  refine Bytes.eq_of_toNat_eq (by simp [h]) (Int.natCast_inj.1 ?_)
  rw [Bytes.toNat_ofInt]
  exact (toNat_eq_emod h (number_modEq t h).symm).symm

theorem ofElements_eq (ht : t.isFloat = false) (hp : t ≠ .pred) (k : ReductionKind) (x y : Bytes) :
    ofElements t k x y = .ofInt t.width (ofInts k (number t x) (number t y)) := by
  cases t with
  | pred => exact absurd rfl hp
  | u8 | s32 | s64 => rfl
  | f32 | f64 => cases ht

theorem length_foldl (k : ReductionKind) {x : Bytes} (hx : x.length = t.width) (xs : List Bytes) :
    (xs.foldl (ofElements t k) x).length = t.width := by
  induction xs generalizing x with
  | nil => exact hx
  | cons y xs ih => exact ih (length_ofElements t k x y)

/-! ### Sums and products -/

theorem toNat_foldl_modEq (ht : t.isFloat = false) (hp : t ≠ .pred)
    (hop : ∀ a b c d, a ≡ b [ZMOD 2 ^ (8 * t.width)] → c ≡ d [ZMOD 2 ^ (8 * t.width)] →
      ofInts k a c ≡ ofInts k b d [ZMOD 2 ^ (8 * t.width)])
    {x : Bytes} {n : Int} (hx : x.length = t.width)
    (hn : number t x ≡ n [ZMOD 2 ^ (8 * t.width)]) (xs : List Bytes) :
    ((xs.foldl (ofElements t k) x).toNat : Int) ≡ (xs.map (number t)).foldl (ofInts k) n
      [ZMOD 2 ^ (8 * t.width)] := by
  induction xs generalizing x n with
  | nil => exact (number_modEq t hx).symm.trans hn
  | cons y xs ih =>
    have hy := length_ofElements t k x y
    refine ih hy ((number_modEq t hy).trans ?_)
    rw [ofElements_eq ht hp, Bytes.toNat_ofInt]
    exact (Int.mod_modEq _ _).trans (hop _ _ _ _ hn Int.ModEq.rfl)

theorem foldl_sum (n : Int) (ns : List Int) : ns.foldl (ofInts .sum) n = (n :: ns).sum := by
  induction ns generalizing n with
  | nil => simp
  | cons m ns ih =>
    rw [List.foldl_cons, ih]
    simp [ofInts, add_assoc]

theorem foldl_product (n : Int) (ns : List Int) : ns.foldl (ofInts .product) n = (n :: ns).prod := by
  induction ns generalizing n with
  | nil => simp
  | cons m ns ih =>
    rw [List.foldl_cons, ih]
    simp [ofInts, mul_assoc]

/-! ### Minima and maxima -/

/-- Choosing the better of two again and again finds the best. -/
theorem foldl_select {f : Bytes → Bytes → Bytes} (best : Bytes → Bytes → Prop) {width : Nat}
    (hrefl : ∀ a, best a a) (htrans : ∀ a b c, best a b → best b c → best a c)
    (hf : ∀ a b, a.length = width → b.length = width →
      (f a b = a ∨ f a b = b) ∧ best (f a b) a ∧ best (f a b) b)
    {x : Bytes} {xs : List Bytes} (h : ∀ b ∈ x :: xs, b.length = width) :
    xs.foldl f x ∈ x :: xs ∧ ∀ b ∈ x :: xs, best (xs.foldl f x) b := by
  induction xs generalizing x with
  | nil => simp [hrefl]
  | cons y xs ih =>
    obtain ⟨hx, hy, hxs⟩ : x.length = width ∧ y.length = width ∧ ∀ b ∈ xs, b.length = width := by
      simpa using h
    obtain ⟨hor, hbestx, hbesty⟩ := hf x y hx hy
    have hlength : (f x y).length = width := by rcases hor with h | h <;> rw [h] <;> assumption
    obtain ⟨hmem, hbest⟩ := ih (List.forall_mem_cons.2 ⟨hlength, hxs⟩)
    obtain ⟨hfirst, hrest⟩ := List.forall_mem_cons.1 hbest
    refine ⟨?_, List.forall_mem_cons.2 ⟨htrans _ _ _ hfirst hbestx,
      List.forall_mem_cons.2 ⟨htrans _ _ _ hfirst hbesty, hrest⟩⟩⟩
    rw [List.foldl_cons]
    rcases List.mem_cons.1 hmem with heq | hmem
    · rw [heq]
      rcases hor with h | h <;> simp [h]
    · exact List.mem_cons_of_mem _ (List.mem_cons_of_mem _ hmem)

theorem ofElements_min (ht : t.isFloat = false) (hp : t ≠ .pred) {x y : Bytes}
    (hx : x.length = t.width) (hy : y.length = t.width) :
    ofElements t .min x y = if number t x ≤ number t y then x else y := by
  rw [ofElements_eq ht hp, ofInts, min_def]
  split
  · exact ofInt_number hx
  · exact ofInt_number hy

theorem ofElements_max (ht : t.isFloat = false) (hp : t ≠ .pred) {x y : Bytes}
    (hx : x.length = t.width) (hy : y.length = t.width) :
    ofElements t .max x y = if number t x ≤ number t y then y else x := by
  rw [ofElements_eq ht hp, ofInts, max_def]
  split
  · exact ofInt_number hy
  · exact ofInt_number hx

theorem isReduced_min (ht : t.isFloat = false) (hp : t ≠ .pred) {x : Bytes} {xs : List Bytes}
    (h : ∀ b ∈ x :: xs, b.length = t.width) :
    xs.foldl (ofElements t .min) x ∈ x :: xs ∧
      ∀ b ∈ x :: xs, number t (xs.foldl (ofElements t .min) x) ≤ number t b := by
  refine foldl_select (fun a b => number t a ≤ number t b) (fun _ => le_rfl)
    (fun _ _ _ => le_trans) (fun a b ha hb => ?_) h
  rw [ofElements_min ht hp ha hb]
  split
  · next hle => exact ⟨.inl rfl, le_rfl, hle⟩
  · next hle => exact ⟨.inr rfl, (not_le.1 hle).le, le_rfl⟩

theorem isReduced_max (ht : t.isFloat = false) (hp : t ≠ .pred) {x : Bytes} {xs : List Bytes}
    (h : ∀ b ∈ x :: xs, b.length = t.width) :
    xs.foldl (ofElements t .max) x ∈ x :: xs ∧
      ∀ b ∈ x :: xs, number t b ≤ number t (xs.foldl (ofElements t .max) x) := by
  refine foldl_select (fun a b => number t b ≤ number t a) (fun _ => le_rfl)
    (fun _ _ _ hab hbc => le_trans hbc hab) (fun a b ha hb => ?_) h
  rw [ofElements_max ht hp ha hb]
  split
  · next hle => exact ⟨.inr rfl, hle, le_rfl⟩
  · next hle => exact ⟨.inl rfl, le_rfl, (not_le.1 hle).le⟩

/-! ### Truth values -/

def truth (p : Bool) : Bytes := [if p then 1 else 0]

theorem ofElements_pred (k : ReductionKind) (x y : Bytes) :
    ofElements .pred k x y = truth (ofBools k (x.toNat != 0) (y.toNat != 0)) := rfl

theorem foldl_truth (k : ReductionKind) (p : Bool) (xs : List Bytes) :
    xs.foldl (ofElements .pred k) (truth p) =
      truth ((xs.map fun x => x.toNat != 0).foldl (ofBools k) p) := by
  induction xs generalizing p with
  | nil => rfl
  | cons x xs ih =>
    have hp : ((truth p).toNat != 0) = p := by cases p <;> rfl
    rw [List.foldl_cons, ofElements_pred, hp, ih]
    rfl

theorem foldl_or (p : Bool) (ps : List Bool) : ps.foldl (· || ·) p = (p || ps.any id) := by
  induction ps generalizing p with
  | nil => simp
  | cons q ps ih => rw [List.foldl_cons, ih, List.any_cons, Bool.or_assoc]; rfl

theorem foldl_and (p : Bool) (ps : List Bool) : ps.foldl (· && ·) p = (p && ps.all id) := by
  induction ps generalizing p with
  | nil => simp
  | cons q ps ih => rw [List.foldl_cons, ih, List.all_cons, Bool.and_assoc]; rfl

theorem foldl_pred (k : ReductionKind) (x y : Bytes) (xs : List Bytes) :
    (y :: xs).foldl (ofElements .pred k) x =
      truth (((y :: xs).map fun x => x.toNat != 0).foldl (ofBools k) (x.toNat != 0)) := by
  rw [List.foldl_cons, ofElements_pred, foldl_truth]
  rfl

theorem truth_any (xs : List Bytes) :
    truth (xs.any fun x => x.toNat != 0) = [if ∃ x ∈ xs, x.toNat ≠ 0 then 1 else 0] := by
  simp [truth]

theorem truth_all (xs : List Bytes) :
    truth (xs.all fun x => x.toNat != 0) = [if ∀ x ∈ xs, x.toNat ≠ 0 then 1 else 0] := by
  simp [truth]

/-- Folding two elements or more gives the element to which they reduce. -/
theorem isReduced_foldl (ht : t.isFloat = false) (k : ReductionKind) {x y : Bytes} {xs : List Bytes}
    (h : ∀ b ∈ x :: y :: xs, b.length = t.width) :
    IsReduced t k (x :: y :: xs) ((y :: xs).foldl (ofElements t k) x) := by
  have hx := h x List.mem_cons_self
  have hlength := length_foldl k hx (y :: xs)
  refine ⟨hlength, ?_⟩
  split
  · next hp =>
    subst hp
    rw [foldl_pred]
    cases k with
    | sum | max =>
      rw [show ofBools _ = (· || ·) from rfl, foldl_or, IsReducedTruth, ← truth_any]
      simp
    | product | min =>
      rw [show ofBools _ = (· && ·) from rfl, foldl_and, IsReducedTruth, ← truth_all]
      simp
  · next hp =>
    cases k with
    | sum =>
      have hsum := toNat_foldl_modEq (k := .sum) ht hp (fun _ _ _ _ hab hcd => hab.add hcd)
        hx Int.ModEq.rfl (y :: xs)
      rw [foldl_sum] at hsum
      exact toNat_eq_emod hlength hsum
    | product =>
      have hprod := toNat_foldl_modEq (k := .product) ht hp (fun _ _ _ _ hab hcd => hab.mul hcd)
        hx Int.ModEq.rfl (y :: xs)
      rw [foldl_product] at hprod
      exact toNat_eq_emod hlength hprod
    | min => exact isReduced_min ht hp h
    | max => exact isReduced_max ht hp h

/-- Elements reduce to one element, in whatever order they are taken. -/
theorem IsReduced.unique {xs ys : List Bytes} {b c : Bytes} (hb : IsReduced t k xs b)
    (hc : IsReduced t k ys c) (h : xs.Perm ys) : b = c := by
  obtain ⟨hblength, hb⟩ := hb
  obtain ⟨hclength, hc⟩ := hc
  split at hb
  · next hp =>
    rw [if_pos hp] at hc
    cases k with
    | sum | max | product | min =>
      simp only [IsReducedTruth, h.mem_iff] at hb
      exact hb.trans hc.symm
  · next hp =>
    rw [if_neg hp] at hc
    cases k with
    | sum =>
      refine Bytes.eq_of_toNat_eq (hblength.trans hclength.symm) (Int.natCast_inj.1 ?_)
      exact hb.trans ((h.map (number t)).sum_eq ▸ hc.symm)
    | product =>
      refine Bytes.eq_of_toNat_eq (hblength.trans hclength.symm) (Int.natCast_inj.1 ?_)
      exact hb.trans ((h.map (number t)).prod_eq ▸ hc.symm)
    | min =>
      have hle := hb.2 c (h.mem_iff.2 hc.1)
      exact number_inj hblength hclength (le_antisymm hle (hc.2 b (h.mem_iff.1 hb.1)))
    | max =>
      have hle := hb.2 c (h.mem_iff.2 hc.1)
      exact number_inj hblength hclength (le_antisymm (hc.2 b (h.mem_iff.1 hb.1)) hle)

end Reduction

end OpFlow
