import Mathlib.Data.Nat.Factors
import Mathlib.Data.Nat.ModEq
import Mathlib.Dynamics.PeriodicPts.Defs
import Mathlib.Order.Interval.Finset.Nat
import Mathlib.Tactic.NormNum.Prime
import OpFlow.Proofs.Random.Steps

/-!
The period of the generator. The states obey a linear recurrence of order 64, so 64 bits say what
any number of steps makes of a state. Computed by squaring, they show that `2 ^ 64 - 1` steps lead
back to every state, and that for each prime factor `p` of it `(2 ^ 64 - 1) / p` steps lead back to
zero only.
-/
namespace OpFlow

open Function

namespace Random

/-! ### States from their predecessors -/

/-- The exclusive or of some of the first `n` states from `x` on: those that are named by the bits of
`c`, of which the lowest one names `x` itself. -/
def combine : Nat → Nat → UInt64 → UInt64
  | 0, _, _ => 0
  | n + 1, c, x => (if c % 2 = 1 then x else 0) ^^^ shift (combine n (c / 2) x)

theorem xorLinear_combine (n c : Nat) : XorLinear (combine n c) := by
  induction n generalizing c with
  | zero => exact fun _ _ => UInt64.xor_self.symm
  | succ n ih =>
    have hfirst : XorLinear fun x => if c % 2 = 1 then x else 0 := fun x y => by
      dsimp only
      split
      · rfl
      · exact UInt64.xor_self.symm
    exact hfirst.xor (xorLinear_shift.comp (ih (c / 2)))

theorem combine_xor (n c d : Nat) (x : UInt64) :
    combine n (c ^^^ d) x = combine n c x ^^^ combine n d x := by
  induction n generalizing c d with
  | zero => exact UInt64.xor_self.symm
  | succ n ih =>
    have hfirst : (if (c ^^^ d) % 2 = 1 then x else 0) =
        (if c % 2 = 1 then x else 0) ^^^ (if d % 2 = 1 then x else 0) := by
      simp only [Nat.xor_mod_two_eq_one]
      by_cases hc : c % 2 = 1 <;> by_cases hd : d % 2 = 1 <;> simp [hc, hd]
    simp only [combine, hfirst, Nat.xor_div_two, ih, xorLinear_shift _ _]
    ac_rfl

theorem combine_zero (n : Nat) (x : UInt64) : combine n 0 x = 0 := by
  have h : combine n 0 x = combine n 0 x ^^^ combine n 0 x := combine_xor n 0 0 x
  rwa [UInt64.xor_self] at h

theorem combine_one (n : Nat) (x : UInt64) : combine (n + 1) 1 x = x := by
  simp [combine, combine_zero, xorLinear_shift.zero]

theorem combine_two_mul (n c : Nat) (x : UInt64) :
    combine (n + 1) (2 * c) x = shift (combine n c x) := by
  simp [combine]

theorem combine_succ (n c : Nat) (x : UInt64) :
    combine (n + 1) c x = combine n c x ^^^ (if c.testBit n then shift^[n] x else 0) := by
  induction n generalizing c with
  | zero => simp [combine, xorLinear_shift.zero]
  | succ n ih =>
    have hlast : shift (if (c / 2).testBit n then shift^[n] x else 0) =
        if c.testBit (n + 1) then shift^[n + 1] x else 0 := by
      rw [Nat.testBit_div_two, apply_ite shift, xorLinear_shift.zero, iterate_succ_apply']
    rw [combine, ih, xorLinear_shift, hlast, ← UInt64.xor_assoc]
    rfl

/-- Which states cancel, from any state on: the coefficients of the characteristic polynomial of the
step. -/
def recurrence : Nat := 0x1013ed4a358913201

theorem combine_recurrence (x : UInt64) : combine 64 recurrence x = shift^[64] x := by
  -- by linearity it is enough to try the single bits
  have hcancel : combine 65 recurrence x = 0 :=
    (xorLinear_combine 65 recurrence).eq_zero_of_bits (by decide +kernel) x
  rw [combine_succ, if_pos (by decide), UInt64.xor_eq_zero_iff] at hcancel
  exact hcancel

/-! ### Many steps at once -/

/-- The bits for one step more, brought back to 64 by the recurrence. -/
def advance (c : Nat) : Nat := 2 * c ^^^ c / 2 ^ 63 % 2 * recurrence

theorem combine_advance (c : Nat) (x : UInt64) :
    combine 64 (advance c) x = shift (combine 64 c x) := by
  rw [combine_succ 63 c, xorLinear_shift, advance, combine_xor, combine_two_mul,
    Nat.testBit_eq_decide_div_mod_eq]
  rcases Nat.mod_two_eq_zero_or_one (c / 2 ^ 63) with hlow | hhigh
  · rw [hlow, Nat.zero_mul, combine_zero, if_neg (by decide), xorLinear_shift.zero]
  · rw [hhigh, Nat.one_mul, combine_recurrence, if_pos (by decide), ← iterate_succ_apply' shift]

/-- The bits for a combination of combinations: a product of polynomials, by Horner's rule over the
lowest `n` bits of the first factor. -/
def product : Nat → Nat → Nat → Nat
  | 0, _, _ => 0
  | n + 1, c, d => c % 2 * d ^^^ advance (product n (c / 2) d)

theorem combine_product (n c d : Nat) (x : UInt64) :
    combine 64 (product n c d) x = combine n c (combine 64 d x) := by
  induction n generalizing c with
  | zero => exact combine_zero ..
  | succ n ih =>
    have hfirst : combine 64 (c % 2 * d) x = if c % 2 = 1 then combine 64 d x else 0 := by
      rcases Nat.mod_two_eq_zero_or_one c with heven | hodd
      · rw [heven, Nat.zero_mul, combine_zero, if_neg (by decide)]
      · rw [hodd, Nat.one_mul, if_pos rfl]
    rw [product, combine_xor, hfirst, combine_advance, ih]
    rfl

/-- The bits for `e` steps, by squaring, over the lowest `n` bits of `e`. -/
def power : Nat → Nat → Nat
  | 0, _ => 1
  | n + 1, e =>
    let square := product 64 (power n (e / 2)) (power n (e / 2))
    if e % 2 = 1 then advance square else square

theorem combine_power {n e : Nat} (he : e < 2 ^ n) (x : UInt64) :
    combine 64 (power n e) x = shift^[e] x := by
  induction n generalizing e x with
  | zero =>
    obtain rfl := Nat.lt_one_iff.1 he
    exact combine_one ..
  | succ n ih =>
    have hhalf : e / 2 < 2 ^ n := by omega
    have hsquare : combine 64 (product 64 (power n (e / 2)) (power n (e / 2))) x =
        shift^[e / 2 + e / 2] x := by
      rw [combine_product, ih hhalf, ih hhalf, iterate_add_apply]
    rw [power]
    rcases Nat.mod_two_eq_zero_or_one e with heven | hodd
    · rw [if_neg (by omega), hsquare, show e / 2 + e / 2 = e by omega]
    · rw [if_pos hodd, combine_advance, hsquare, ← iterate_succ_apply' shift,
        show (e / 2 + e / 2).succ = e by omega]

/-! ### The period -/

theorem iterate_shift_period (x : UInt64) : shift^[2 ^ 64 - 1] x = x := by
  have hbits : power 64 (2 ^ 64 - 1) = 1 := by decide +kernel
  rw [← combine_power (n := 64) (by decide), hbits, combine_one]

/-- The prime factors of the period, each with the bits of a combination that undoes the change which
the period divided by it makes. -/
def undoings : List (Nat × Nat) :=
  [(3, 0xd742ca58f5d785e2), (5, 0xa3f64d1fb612f669), (17, 0x63f43995a1b49645),
    (257, 0x7d573a75b5260c4d), (641, 0x1ead61508d13286), (65537, 0xed7248a2317d33b1),
    (6700417, 0x483b08aa5d3741b5)]

theorem product_undoings : ∀ u ∈ undoings,
    product 64 u.2 (power 64 ((2 ^ 64 - 1) / u.1) ^^^ 1) = 1 := by
  -- each of these is a long computation, so they are made one at a time
  repeat refine List.forall_mem_cons.2 ⟨by decide +kernel, ?_⟩
  exact List.forall_mem_nil _

theorem exists_undoing {p : Nat} (hp : p.Prime) (hdvd : p ∣ 2 ^ 64 - 1) :
    ∃ u ∈ undoings, u.1 = p := by
  have hfactors : (undoings.map Prod.fst).Perm (2 ^ 64 - 1).primeFactorsList :=
    Nat.primeFactorsList_unique (by decide) (by norm_num [undoings])
  exact List.mem_map.1 (hfactors.mem_iff.2 ((Nat.mem_primeFactorsList (by decide)).2 ⟨hp, hdvd⟩))

theorem eq_zero_of_isPeriodicPt {p : Nat} (hp : p.Prime) (hdvd : p ∣ 2 ^ 64 - 1) {x : UInt64}
    (hx : IsPeriodicPt shift ((2 ^ 64 - 1) / p) x) : x = 0 := by
  obtain ⟨u, hu, rfl⟩ := exists_undoing hp hdvd
  have hlt : (2 ^ 64 - 1) / u.1 < 2 ^ 64 := (Nat.div_le_self ..).trans_lt (by decide)
  have hchange : combine 64 (power 64 ((2 ^ 64 - 1) / u.1) ^^^ 1) x = 0 := by
    rw [combine_xor, combine_power hlt, combine_one, hx.eq, UInt64.xor_self]
  calc x = combine 64 1 x := (combine_one ..).symm
    _ = combine 64 u.2 (combine 64 (power 64 ((2 ^ 64 - 1) / u.1) ^^^ 1) x) := by
      rw [← combine_product, product_undoings u hu]
    _ = 0 := by rw [hchange, (xorLinear_combine 64 u.2).zero]

theorem minimalPeriod_shift {x : UInt64} (hx : x ≠ 0) : minimalPeriod shift x = 2 ^ 64 - 1 := by
  obtain ⟨k, hk⟩ := IsPeriodicPt.minimalPeriod_dvd (iterate_shift_period x)
  by_contra hne
  have hk1 : k ≠ 1 := by
    rintro rfl
    exact hne (by rw [hk, Nat.mul_one])
  -- a smaller period would divide the full one by more than a prime factor
  have hp : k.minFac.Prime := Nat.minFac_prime hk1
  obtain ⟨l, hl⟩ := Nat.minFac_dvd k
  have hperiod : 2 ^ 64 - 1 = k.minFac * (minimalPeriod shift x * l) := by
    rw [hk, Nat.mul_left_comm, ← hl]
  have hshorter : IsPeriodicPt shift ((2 ^ 64 - 1) / k.minFac) x := by
    rw [hperiod, Nat.mul_div_cancel_left _ hp.pos]
    exact (isPeriodicPt_minimalPeriod shift x).mul_const l
  exact hx (eq_zero_of_isPeriodicPt hp ⟨_, hperiod⟩ hshorter)

theorem iterate_shift_eq_iff {x : UInt64} (hx : x ≠ 0) (m n : Nat) :
    shift^[m] x = shift^[n] x ↔ m ≡ n [MOD 2 ^ 64 - 1] := by
  have hlt : ∀ n, n % (2 ^ 64 - 1) < minimalPeriod shift x := fun n => by
    rw [minimalPeriod_shift hx]
    exact Nat.mod_lt n (by decide)
  have hmod : ∀ n, shift^[n % (2 ^ 64 - 1)] x = shift^[n] x := fun n => by
    rw [← minimalPeriod_shift hx, iterate_mod_minimalPeriod_eq]
  rw [← hmod m, ← hmod n, iterate_eq_iterate_iff_of_lt_minimalPeriod (hlt m) (hlt n)]
  rfl

theorem shift_eq_self_iff {x : UInt64} : shift x = x ↔ x = 0 := by
  constructor
  · intro h
    by_contra hx
    have hmod : 1 ≡ 0 [MOD 2 ^ 64 - 1] := (iterate_shift_eq_iff hx 1 0).1 h
    exact absurd hmod (by decide)
  · rintro rfl
    exact xorLinear_shift.zero

theorem bijOn_shift : Set.BijOn shift {x | x ≠ 0} {x | x ≠ 0} := by
  refine ⟨fun x hx => mt shift_eq_zero_iff.1 hx, injective_shift.injOn, fun x hx => ?_⟩
  -- going round the whole cycle but for one step leads to the state before
  refine ⟨shift^[2 ^ 64 - 2] x, iterate_shift_ne_zero hx _, ?_⟩
  rw [← iterate_succ_apply' shift]
  exact iterate_shift_period x

/-! ### The words of a seed -/

theorem word_ofSeed_eq_iff (seed : UInt64) (i j : Nat) :
    (ofSeed seed).word i = (ofSeed seed).word j ↔ i ≡ j [MOD 2 ^ 64 - 1] := by
  rw [word_eq, word_eq, iterate_shift_eq_iff (ofSeed_state_ne_zero seed)]
  exact ⟨Nat.ModEq.add_right_cancel' 1, Nat.ModEq.add_right 1⟩

theorem word_ofSeed_ne_zero (seed : UInt64) (n : Nat) : (ofSeed seed).word n ≠ 0 := by
  rw [word_eq]
  exact iterate_shift_ne_zero (ofSeed_state_ne_zero seed) _

/-- The words of one period differ and are as many as there are words but zero. -/
theorem exists_word_ofSeed (seed : UInt64) {x : UInt64} (hx : x ≠ 0) :
    ∃ n < 2 ^ 64 - 1, (ofSeed seed).word n = x := by
  let drawn : Nat → Nat := fun n => ((ofSeed seed).word n).toNat
  have hmaps : Set.MapsTo drawn (Finset.range (2 ^ 64 - 1)) (Finset.Ioo 0 (2 ^ 64)) := by
    intro n _
    have hne : drawn n ≠ 0 := fun h => word_ofSeed_ne_zero seed n (UInt64.toNat_inj.1 h)
    exact Finset.mem_coe.2 (Finset.mem_Ioo.2 ⟨Nat.pos_of_ne_zero hne, UInt64.toNat_lt _⟩)
  have hinj : Set.InjOn drawn (Finset.range (2 ^ 64 - 1)) := by
    intro i hi j hj h
    have hmod : i ≡ j [MOD 2 ^ 64 - 1] := (word_ofSeed_eq_iff seed i j).1 (UInt64.toNat_inj.1 h)
    exact hmod.eq_of_lt_of_lt (Finset.mem_range.1 hi) (Finset.mem_range.1 hj)
  have hcard : (Finset.Ioo 0 (2 ^ 64)).card ≤ (Finset.range (2 ^ 64 - 1)).card := by
    rw [Nat.card_Ioo, Finset.card_range, Nat.sub_zero]
  have hpos : 0 < x.toNat := Nat.pos_of_ne_zero fun h => hx (UInt64.toNat_inj.1 h)
  obtain ⟨n, hn, hword⟩ := Finset.surjOn_of_injOn_of_card_le drawn hmaps hinj hcard
    (Finset.mem_coe.2 (Finset.mem_Ioo.2 ⟨hpos, x.toNat_lt⟩))
  exact ⟨n, Finset.mem_range.1 hn, UInt64.toNat_inj.1 hword⟩

/-- The generator never sticks. From no seed and after no number of calls is a state or a word zero.
The step is injective on all states and a permutation of those that are not zero, and only zero is
left as it is. The words of a seed repeat after `2 ^ 64 - 1` calls and no sooner: two calls give the
same word only if whole periods lie between them, and each word but zero is given once in a period.
So the tasks of a lab are picked by words that go through this cycle, one for each task. -/
theorem never_sticks {τ : Type} :
    (∀ (seed : UInt64) (n : Nat), ((ofSeed seed).after n).state ≠ 0 ∧ (ofSeed seed).word n ≠ 0) ∧
    Injective shift ∧ Set.BijOn shift {x | x ≠ 0} {x | x ≠ 0} ∧ (∀ x, shift x = x ↔ x = 0) ∧
    (∀ (seed : UInt64) (i j : Nat),
      (ofSeed seed).word i = (ofSeed seed).word j ↔ i ≡ j [MOD 2 ^ 64 - 1]) ∧
    (∀ seed x : UInt64, x ≠ 0 → ∃ n < 2 ^ 64 - 1, (ofSeed seed).word n = x) ∧
    ∀ (seed : UInt64) (j : Lab.Journal τ), Lab.Journal.Course seed j →
      j.lab.random = (ofSeed seed).after j.started.length ∧
      ∀ t l, j.lab.take? = some (t, l) →
        j.queued[((ofSeed seed).word j.started.length).toNat % j.queued.length]? = some t := by
  refine ⟨fun seed n => ⟨?_, word_ofSeed_ne_zero seed n⟩, injective_shift, bijOn_shift,
    fun _ => shift_eq_self_iff, word_ofSeed_eq_iff, fun seed _ => exists_word_ofSeed seed,
    fun _ _ h => ⟨h.drawn, fun _ _ => h.picked⟩⟩
  rw [state_after]
  exact iterate_shift_ne_zero (ofSeed_state_ne_zero seed) n

/-- From the seed zero: the first word comes again after a period, a word of ones comes up, and of
two tasks the second is started, as the first word is odd. -/
theorem never_sticks_zero_seed :
    (ofSeed 0).word 0 = 1082269761 ∧ (ofSeed 0).word (2 ^ 64 - 1) = 1082269761 ∧
    (∃ n, (ofSeed 0).word n = 0xffffffffffffffff) ∧
    ∃ j : Lab.Journal Nat, Lab.Journal.Course 0 j ∧ j.queued = [10, 20] ∧
      ∀ t l, j.lab.take? = some (t, l) → t = 20 := by
  obtain ⟨-, -, -, -, hperiod, hall, hlab⟩ := @never_sticks Nat
  have hfirst : (ofSeed 0).word 0 = 1082269761 := by decide
  have hnew : @Lab.Journal.Course Nat 0 _ := .new
  have hcourse := (hnew.submit 10).submit 20
  obtain ⟨n, -, hn⟩ := hall 0 0xffffffffffffffff (by decide)
  refine ⟨hfirst, ?_, ⟨n, hn⟩, _, hcourse, rfl, fun t l ht => ?_⟩
  · rw [← hfirst]
    exact (hperiod 0 _ 0).2 (by decide)
  · have hpick := (hlab 0 _ hcourse).2 t l ht
    exact Option.some.inj (hpick.symm.trans (by decide))

end Random

end OpFlow
