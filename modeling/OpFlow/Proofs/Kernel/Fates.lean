import Mathlib.Data.List.Induction
import Mathlib.Data.List.Nodup
import OpFlow.Platform

/-!
Fates of threads. A kernel that runs in parallel is a countdown: each of its threads goes away in one
of four ways, in any order, and the last one ends the operation. A verdict says what all fates
together mean for the operation, without a look at their order.
-/
namespace OpFlow

open Machine (CallKey)

/-- What becomes of a thread of a kernel that is a task of its own. -/
inductive Fate
  | returned
  | failed (error : Error)
  | panicked (text : String)
  /-- It was never run. -/
  | dropped

namespace Fate

def isLost : Fate → Bool
  | panicked _ | dropped => true
  | returned | failed _ => false

def ofRun : Except Fault Unit → Fate
  | .ok () => returned
  | .error (.error e) => failed e
  | .error (.panic text) => panicked text

end Fate

/-- What the fates of all threads mean for the operation. -/
structure Verdict (fates : List (Nat × Fate)) (o : Outcome) : Prop where
  ok : o = .ok () ↔ ∀ f ∈ fates, f.2 = .returned
  /-- If no thread was lost the error is that of the lowest index. -/
  first : (∀ f ∈ fates, f.2.isLost = false) → ∀ e, o = .error e ↔
    ∃ l, (l, .failed e) ∈ fates ∧ ∀ l' e', (l', .failed e') ∈ fates → l ≤ l'
  lost : (∃ f ∈ fates, f.2.isLost = true) →
    o = .error .promiseDropped ∧ Error.promiseDropped.kind = .unavailable

namespace Verdict

variable {fates fates' : List (Nat × Fate)} {o o' : Outcome}

theorem unique (h : Verdict fates o) (h' : Verdict fates o') : o = o' := by
  by_cases hlost : ∃ f ∈ fates, f.2.isLost = true
  · exact (h.lost hlost).1.trans (h'.lost hlost).1.symm
  · have hnone : ∀ f ∈ fates, f.2.isLost = false := fun f hf =>
      Bool.eq_false_iff.2 fun hl => hlost ⟨f, hf, hl⟩
    cases o with
    | ok u => exact (h'.ok.2 (h.ok.1 rfl)).symm
    | error e => exact ((h'.first hnone e).2 ((h.first hnone e).1 rfl)).symm

theorem congr (h : Verdict fates o) (heq : ∀ f, f ∈ fates' ↔ f ∈ fates) : Verdict fates' o := by
  refine ⟨?_, ?_, ?_⟩
  · simpa only [heq] using h.ok
  · simpa only [heq] using h.first
  · simpa only [heq] using h.lost

theorem cons_returned (h : Verdict fates o) (l : Nat) : Verdict ((l, .returned) :: fates) o := by
  obtain ⟨hok, hfirst, hlost⟩ := h
  refine ⟨by simpa using hok, ?_, ?_⟩
  · simpa [Fate.isLost] using hfirst
  · simpa [Fate.isLost] using hlost

/-- The error of the first thread that fails is the error of all, unless one of them was lost. -/
theorem cons_failed {l : Nat} {e : Error} (hlt : ∀ f ∈ fates, l < f.1)
    (hkept : ∀ f ∈ fates, f.2.isLost = false) : Verdict ((l, .failed e) :: fates) (.error e) := by
  refine ⟨by simp, fun _ e' => ⟨?_, ?_⟩, ?_⟩
  · rintro ⟨⟩
    refine ⟨l, List.mem_cons_self, fun l' e' hmem => ?_⟩
    rcases List.mem_cons.1 hmem with heq | hmem
    · exact Nat.le_of_eq (Prod.mk.inj heq).1.symm
    · exact Nat.le_of_lt (hlt _ hmem)
  · rintro ⟨l', hmem, hle⟩
    rcases List.mem_cons.1 hmem with heq | hmem
    · cases heq
      rfl
    · exact absurd (hle l e List.mem_cons_self) (Nat.not_le_of_lt (hlt _ hmem))
  · rintro ⟨f, hf, hl⟩
    rcases List.mem_cons.1 hf with rfl | hf
    · cases hl
    · rw [hkept f hf] at hl
      cases hl

end Verdict

namespace Gathering

def part (g : Gathering) (l : Nat) : Fate → Gathering
  | .returned => g.ended l (.ok ())
  | .failed e => g.ended l (.error e)
  | .panicked _ | .dropped => g.lose

def parts (g : Gathering) (fates : List (Nat × Fate)) : Gathering :=
  fates.foldl (fun g f => g.part f.1 f.2) g

variable (g : Gathering) (l : Nat) (f : Fate) (fates : List (Nat × Fate))

@[simp] theorem parts_nil : g.parts [] = g := rfl

@[simp] theorem parts_cons : g.parts ((l, f) :: fates) = (g.part l f).parts fates := rfl

@[simp] theorem parts_append_singleton :
    g.parts (fates ++ [(l, f)]) = (g.parts fates).part l f := by simp [parts]

@[simp] theorem call_part : (g.part l f).call = g.call := by cases f <;> rfl

@[simp] theorem remaining_part : (g.part l f).remaining = g.remaining - 1 := by cases f <;> rfl

theorem lost_part : (g.part l f).lost = g.lost + if f.isLost then 1 else 0 := by cases f <;> rfl

@[simp] theorem call_parts : (g.parts fates).call = g.call := by
  induction fates using List.reverseRecOn with
  | nil => rfl
  | append_singleton fates f ih => rw [parts_append_singleton, call_part, ih]

@[simp] theorem remaining_parts : (g.parts fates).remaining = g.remaining - fates.length := by
  induction fates using List.reverseRecOn with
  | nil => rfl
  | append_singleton fates f ih =>
    rw [parts_append_singleton, remaining_part, ih, List.length_append, List.length_singleton,
      Nat.sub_sub]

theorem lost_parts : (g.parts fates).lost = 0 ↔ g.lost = 0 ∧ ∀ f ∈ fates, f.2.isLost = false := by
  induction fates using List.reverseRecOn with
  | nil => simp
  | append_singleton fates f ih =>
    rw [parts_append_singleton, lost_part, List.forall_mem_append, List.forall_mem_singleton,
      ← and_assoc, ← ih]
    cases f.2.isLost <;> simp

def Lowest (fates : List (Nat × Fate)) : Option (Nat × Error) → Prop
  | none => ∀ l e, (l, Fate.failed e) ∉ fates
  | some (l, e) => (l, .failed e) ∈ fates ∧ ∀ l' e', (l', .failed e') ∈ fates → l ≤ l'

variable {g l f fates}

theorem Lowest.part (h : Lowest fates g.firstError) :
    Lowest (fates ++ [(l, f)]) (g.part l f).firstError := by
  cases f with
  | failed e =>
    cases hfirst : g.firstError with
    | none =>
      rw [hfirst] at h
      simp only [Gathering.part, ended, hfirst]
      refine ⟨by simp, fun l' e' hmem => ?_⟩
      rcases List.mem_append.1 hmem with hmem | hmem
      · exact absurd hmem (h l' e')
      · obtain ⟨rfl, -⟩ := Prod.mk.inj (List.mem_singleton.1 hmem)
        exact Nat.le_refl _
    | some x =>
      obtain ⟨k, e₀⟩ := x
      rw [hfirst] at h
      obtain ⟨hmem, hle⟩ := h
      simp only [Gathering.part, ended, hfirst]
      split
      · next hlt =>
        refine ⟨by simp, fun l' e' hmem' => ?_⟩
        rcases List.mem_append.1 hmem' with hmem' | hmem'
        · exact Nat.le_trans (Nat.le_of_lt hlt) (hle l' e' hmem')
        · obtain ⟨rfl, -⟩ := Prod.mk.inj (List.mem_singleton.1 hmem')
          exact Nat.le_refl _
      · next hlt =>
        refine ⟨List.mem_append_left _ hmem, fun l' e' hmem' => ?_⟩
        rcases List.mem_append.1 hmem' with hmem' | hmem'
        · exact hle l' e' hmem'
        · obtain ⟨rfl, -⟩ := Prod.mk.inj (List.mem_singleton.1 hmem')
          exact Nat.le_of_not_lt hlt
  | returned | panicked | dropped =>
    show Lowest _ g.firstError
    unfold Lowest at h ⊢
    split at h <;> simpa using h

theorem lowest_parts (hg : g.firstError = none) (fates : List (Nat × Fate)) :
    Lowest fates (g.parts fates).firstError := by
  induction fates using List.reverseRecOn with
  | nil =>
    rw [parts_nil, hg]
    intro l e hmem
    cases hmem
  | append_singleton fates f ih =>
    rw [parts_append_singleton]
    exact ih.part

theorem gathered_of_remaining (h : 0 < g.remaining) : Platform.gathered g = [] := by
  rw [Platform.gathered, outcome?, if_pos (Nat.ne_of_gt h)]

/-- The last part ends the operation as the verdict says. -/
theorem gathered_parts {c : CallKey} (hdistinct : (fates.map Prod.fst).Nodup) :
    ∃ o, Platform.gathered (({ call := c, remaining := fates.length } : Gathering).parts fates) =
      [.settle c o] ∧ Verdict fates o := by
  obtain ⟨g, hg⟩ : ∃ g, ({ call := c, remaining := fates.length } : Gathering).parts fates = g :=
    ⟨_, rfl⟩
  have hcall : g.call = c := by rw [← hg, call_parts]
  have hremaining : g.remaining = 0 := by
    rw [← hg, remaining_parts]
    exact Nat.sub_self _
  have hlost : g.lost = 0 ↔ ∀ f ∈ fates, f.2.isLost = false := by
    rw [← hg, lost_parts]
    exact and_iff_right rfl
  have hlowest : Lowest fates g.firstError := hg ▸ lowest_parts rfl fates
  rw [hg, Platform.gathered, outcome?, if_neg (not_not.2 hremaining), hcall]
  by_cases hnone : g.lost = 0
  · have hkept := hlost.1 hnone
    have hnot : ¬ ∃ f ∈ fates, f.2.isLost = true := fun ⟨f, hf, hl⟩ => by
      rw [hkept f hf] at hl
      cases hl
    rw [if_neg (not_not.2 hnone)]
    cases hfirst : g.firstError with
    | none =>
      rw [hfirst] at hlowest
      refine ⟨.ok (), rfl, ⟨fun _ => ?_, fun _ => rfl⟩, fun _ e => ⟨fun h => (by cases h), ?_⟩,
        fun h => absurd h hnot⟩
      · rintro ⟨l, f⟩ hf
        cases f with
        | returned => rfl
        | failed e => exact absurd hf (hlowest l e)
        | panicked | dropped => cases hkept _ hf
      · rintro ⟨l, hmem, -⟩
        exact absurd hmem (hlowest l e)
    | some x =>
      obtain ⟨l, e⟩ := x
      rw [hfirst] at hlowest
      obtain ⟨hmem, hle⟩ := hlowest
      refine ⟨.error e, rfl, ⟨fun h => (by cases h), fun h => ?_⟩, fun _ e' => ⟨?_, ?_⟩,
        fun h => absurd h hnot⟩
      · cases h _ hmem
      · rintro ⟨⟩
        exact ⟨l, hmem, hle⟩
      · rintro ⟨l', hmem', hle'⟩
        obtain rfl : l = l' := Nat.le_antisymm (hle _ _ hmem') (hle' _ _ hmem)
        cases List.inj_on_of_nodup_map hdistinct hmem hmem' rfl
        rfl
  · have hexists : ∃ f ∈ fates, f.2.isLost = true := by
      by_contra hno
      exact hnone (hlost.2 fun f hf => Bool.eq_false_iff.2 fun hl => hno ⟨f, hf, hl⟩)
    obtain ⟨f, hf, hl⟩ := hexists
    rw [if_pos hnone]
    refine ⟨.error .promiseDropped, rfl, ⟨fun h => (by cases h), fun h => ?_⟩, fun h => ?_,
      fun _ => ⟨rfl, rfl⟩⟩
    · rw [h f hf] at hl
      cases hl
    · rw [h f hf] at hl
      cases hl

end Gathering

end OpFlow
