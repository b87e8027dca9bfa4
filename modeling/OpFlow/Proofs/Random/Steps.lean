import Mathlib.Algebra.GroupWithZero.Nat
import Mathlib.Logic.Function.Iterate
import OpFlow.Proofs.Lab.Conservation

/-!
The steps of the generator. Each of the three xor-shifts adds to a word a linear function of it that
comes to nothing when it is repeated, so the step as a whole is linear and injective. A lab draws
one word for each task that it starts, and that word says where in the queue the task stands.
-/
namespace OpFlow

open Function

namespace Random

/-! ### Linear maps of words -/

def XorLinear (f : UInt64 → UInt64) : Prop := ∀ x y, f (x ^^^ y) = f x ^^^ f y

def mixed (f : UInt64 → UInt64) (x : UInt64) : UInt64 := x ^^^ f x

theorem toNat_bit {n : Nat} (hn : n < 64) : (1 <<< UInt64.ofNat n : UInt64).toNat = 2 ^ n := by
  have hpow : 2 ^ n < 2 ^ 64 := Nat.pow_lt_pow_right (by decide) hn
  rw [UInt64.toNat_shiftLeft, UInt64.toNat_ofNat', Nat.mod_mod_of_dvd _ (by decide),
    Nat.mod_eq_of_lt hn, UInt64.toNat_one, Nat.one_shiftLeft, Nat.mod_eq_of_lt hpow]

theorem xor_two_pow_lt {a n : Nat} (hge : 2 ^ n ≤ a) (hlt : a < 2 ^ (n + 1)) :
    a ^^^ 2 ^ n < 2 ^ n := by
  refine Nat.lt_pow_two_of_testBit _ fun i hi => ?_
  rw [Nat.testBit_xor, Nat.testBit_two_pow]
  rcases Nat.eq_or_lt_of_le hi with rfl | hi
  · rw [Nat.testBit_of_two_pow_le_and_two_pow_add_one_gt hge hlt, decide_eq_true rfl, Bool.xor_self]
  · have htop : a.testBit i = false :=
      Nat.testBit_lt_two_pow (Nat.lt_of_lt_of_le hlt (Nat.pow_le_pow_right (by decide) hi))
    rw [htop, decide_eq_false (Nat.ne_of_lt hi), Bool.xor_self]

namespace XorLinear

variable {f g : UInt64 → UInt64}

theorem zero (hf : XorLinear f) : f 0 = 0 := by
  have h : f 0 = f 0 ^^^ f 0 := hf 0 0
  rwa [UInt64.xor_self] at h

theorem comp (hf : XorLinear f) (hg : XorLinear g) : XorLinear (f ∘ g) := fun x y => by
  rw [comp_apply, hg x y, hf (g x)]
  rfl

theorem iterate (hf : XorLinear f) (n : Nat) : XorLinear f^[n] := by
  induction n with
  | zero => exact fun _ _ => rfl
  | succ n ih => exact ih.comp hf

theorem xor (hf : XorLinear f) (hg : XorLinear g) : XorLinear fun x => f x ^^^ g x := fun x y => by
  simp only [hf x y, hg x y]
  ac_rfl

theorem mix (hf : XorLinear f) : XorLinear (mixed f) := xor (fun _ _ => rfl) hf

theorem mixed_mixed (hf : XorLinear f) (x : UInt64) :
    mixed f (mixed f x) = mixed f^[2] x := by
  have hcancel : ∀ a b c : UInt64, a ^^^ b ^^^ (b ^^^ c) = a ^^^ c := fun a b c => by
    rw [UInt64.xor_assoc, ← UInt64.xor_assoc b b c, UInt64.xor_self, UInt64.zero_xor]
  calc x ^^^ f x ^^^ f (x ^^^ f x) = x ^^^ f x ^^^ (f x ^^^ f (f x)) := by rw [hf]
    _ = x ^^^ f (f x) := hcancel ..

/-- Mixing loses no word if the map comes to nothing when it is repeated. -/
theorem injective_mixed (hf : XorLinear f) {m : Nat} (hm : ∀ x, f^[2 ^ m] x = 0) :
    Injective (mixed f) := by
  -- mixing twice is mixing with a map that comes to nothing twice as soon
  induction m generalizing f with
  | zero =>
    have hsame : ∀ x, mixed f x = x := fun x => by
      rw [mixed, show f x = 0 from hm x, UInt64.xor_zero]
    intro x y h
    rwa [hsame, hsame] at h
  | succ m ih =>
    have htwice : Injective (mixed f^[2]) := by
      refine ih (hf.iterate 2) fun x => ?_
      rw [← iterate_mul, ← Nat.pow_succ']
      exact hm x
    refine Injective.of_comp (f := mixed f) fun x y h => htwice ?_
    rwa [comp_apply, comp_apply, hf.mixed_mixed, hf.mixed_mixed] at h

/-- A linear map that sends each single bit to zero sends every word to zero. -/
theorem eq_zero_of_bits (hf : XorLinear f) (hbits : ∀ i < 64, f (1 <<< UInt64.ofNat i) = 0)
    (x : UInt64) : f x = 0 := by
  -- the highest bit is taken away until none is left
  have hbelow : ∀ n ≤ 64, ∀ y : UInt64, y.toNat < 2 ^ n → f y = 0 := by
    intro n hn
    induction n with
    | zero =>
      intro y hy
      have hzero : y = 0 := UInt64.toNat_inj.1 (Nat.lt_one_iff.1 hy)
      rw [hzero, hf.zero]
    | succ n ih =>
      intro y hy
      rcases Nat.lt_or_ge y.toNat (2 ^ n) with hlt | hge
      · exact ih (Nat.le_of_succ_le hn) y hlt
      · have hlower : (y ^^^ 1 <<< UInt64.ofNat n).toNat < 2 ^ n := by
          rw [UInt64.toNat_xor, toNat_bit hn]
          exact xor_two_pow_lt hge hy
        have hrest : f (y ^^^ 1 <<< UInt64.ofNat n) = 0 := ih (Nat.le_of_succ_le hn) _ hlower
        rwa [hf, hbits n hn, UInt64.xor_zero] at hrest
  exact hbelow 64 (Nat.le_refl 64) x x.toNat_lt

end XorLinear

/-! ### The three xor-shifts -/

theorem xorLinear_shiftLeft (k : UInt64) : XorLinear (· <<< k) := fun _ _ => UInt64.shiftLeft_xor

theorem xorLinear_shiftRight (k : UInt64) : XorLinear (· >>> k) := fun _ _ => UInt64.shiftRight_xor

theorem toNat_iterate_shiftLeft (k x : UInt64) (n : Nat) :
    ((· <<< k)^[n] x).toNat = x.toNat * 2 ^ (k.toNat % 64 * n) % 2 ^ 64 := by
  induction n with
  | zero => simp [Nat.mod_eq_of_lt x.toNat_lt]
  | succ n ih =>
    rw [iterate_succ_apply', UInt64.toNat_shiftLeft, ih, Nat.shiftLeft_eq, Nat.mod_mul_mod,
      Nat.mul_assoc, ← Nat.pow_add, Nat.mul_succ]

theorem toNat_iterate_shiftRight (k x : UInt64) (n : Nat) :
    ((· >>> k)^[n] x).toNat = x.toNat / 2 ^ (k.toNat % 64 * n) := by
  induction n with
  | zero => simp
  | succ n ih =>
    rw [iterate_succ_apply', UInt64.toNat_shiftRight, ih, Nat.shiftRight_eq_div_pow,
      Nat.div_div_eq_div_mul, ← Nat.pow_add, Nat.mul_succ]

theorem injective_mixed_shiftLeft {k : UInt64} (hk : 0 < k.toNat % 64) :
    Injective (mixed (· <<< k)) := by
  refine (xorLinear_shiftLeft k).injective_mixed (m := 6) fun x => UInt64.toNat_inj.1 ?_
  have hdvd : 2 ^ 64 ∣ x.toNat * 2 ^ (k.toNat % 64 * 64) :=
    Nat.dvd_mul_left_of_dvd (Nat.pow_dvd_pow 2 (Nat.le_mul_of_pos_left 64 hk)) _
  rw [toNat_iterate_shiftLeft]
  exact Nat.mod_eq_zero_of_dvd hdvd

theorem injective_mixed_shiftRight {k : UInt64} (hk : 0 < k.toNat % 64) :
    Injective (mixed (· >>> k)) := by
  refine (xorLinear_shiftRight k).injective_mixed (m := 6) fun x => UInt64.toNat_inj.1 ?_
  have hpow : 2 ^ 64 ≤ 2 ^ (k.toNat % 64 * 64) :=
    Nat.pow_le_pow_right (by decide) (Nat.le_mul_of_pos_left 64 hk)
  rw [toNat_iterate_shiftRight]
  exact Nat.div_eq_of_lt (Nat.lt_of_lt_of_le x.toNat_lt hpow)

/-! ### One step -/

theorem shift_eq : shift = mixed (· <<< 17) ∘ mixed (· >>> 7) ∘ mixed (· <<< 13) := rfl

theorem xorLinear_shift : XorLinear shift := by
  rw [shift_eq]
  exact (xorLinear_shiftLeft 17).mix.comp
    ((xorLinear_shiftRight 7).mix.comp (xorLinear_shiftLeft 13).mix)

theorem injective_shift : Injective shift := by
  rw [shift_eq]
  exact (injective_mixed_shiftLeft (by decide)).comp
    ((injective_mixed_shiftRight (by decide)).comp (injective_mixed_shiftLeft (by decide)))

theorem shift_eq_zero_iff {x : UInt64} : shift x = 0 ↔ x = 0 :=
  injective_shift.eq_iff' xorLinear_shift.zero

theorem iterate_shift_ne_zero {x : UInt64} (hx : x ≠ 0) (n : Nat) : shift^[n] x ≠ 0 := by
  induction n with
  | zero => exact hx
  | succ n ih =>
    rw [iterate_succ_apply']
    exact mt shift_eq_zero_iff.1 ih

/-! ### Any number of calls -/

/-- The generator after `n` words have been drawn. -/
def after (r : Random) (n : Nat) : Random := (fun r => r.next.2)^[n] r

def word (r : Random) (n : Nat) : UInt64 := (r.after n).next.1

theorem after_succ (r : Random) (n : Nat) : r.after (n + 1) = (r.after n).next.2 :=
  iterate_succ_apply' ..

theorem state_after (r : Random) (n : Nat) : (r.after n).state = shift^[n] r.state := by
  induction n with
  | zero => rfl
  | succ n ih => rw [after_succ, iterate_succ_apply', ← ih]; rfl

theorem word_eq (r : Random) (n : Nat) : r.word n = shift^[n + 1] r.state := by
  rw [iterate_succ_apply', ← state_after]
  rfl

end Random

/-! ### The words that a lab draws -/

namespace Lab

variable {τ : Type}

theorem drawn_of_take? {l l' : Lab τ} {t : τ} (h : l.take? = some (t, l')) :
    l.queue[l.random.next.1.toNat % l.queue.size]? = some t ∧ l'.random = l.random.next.2 := by
  unfold take? at h
  dsimp only [Random.index] at h
  split at h
  · next hget =>
    obtain ⟨rfl, rfl⟩ := Prod.mk.inj (Option.some.inj h)
    exact ⟨hget, rfl⟩
  · cases h

@[simp] theorem random_submits (l : Lab τ) (ts : List τ) :
    (ts.foldl submit l).random = l.random := by
  induction ts generalizing l with
  | nil => rfl
  | cons t ts ih => exact ih (l.submit t)

namespace Journal

variable {seed : UInt64} {j j' : Journal τ}

def Drawn (seed : UInt64) (j : Journal τ) : Prop :=
  j.lab.random = (Random.ofSeed seed).after j.started.length

theorem Drawn.start (h : j.Drawn seed) {t : τ} {l : Lab τ} (ht : j.lab.take? = some (t, l))
    (children : List τ) : (j.start t l children).Drawn seed := by
  have hlength : (j.start t l children).started.length = j.started.length + 1 :=
    List.length_append
  rw [Drawn, hlength, Random.after_succ, ← h, ← (drawn_of_take? ht).2]
  exact random_submits l children

theorem Drawn.step (h : j.Drawn seed) {answer : LabStep} (hs : Steps j answer j') :
    j'.Drawn seed := by
  cases hs with
  | idle => exact h
  | ran ht children => exact h.start ht children
  | panicked ht children => exact h.start ht children

theorem Drawn.drain (h : j.Drawn seed) {answer : Except String Nat} (hd : Drains j answer j') :
    j'.Drawn seed := by
  induction hd with
  | idle hs => exact h.step hs
  | ran hs _ ih => exact ih (h.step hs)
  | panicked hs => exact h.step hs

theorem Course.drawn (h : Course seed j) : j.Drawn seed := by
  induction h with
  | new => rfl
  | submit _ t ih => exact ih
  | step _ hs ih => exact ih.step hs
  | drain _ hd ih => exact ih.drain hd

theorem Course.picked (h : Course seed j) {t : τ} {l : Lab τ} (ht : j.lab.take? = some (t, l)) :
    j.queued[((Random.ofSeed seed).word j.started.length).toNat % j.queued.length]? = some t := by
  rw [Random.word, ← h.drawn]
  simpa [queued] using (drawn_of_take? ht).1

end Journal

end Lab

end OpFlow
