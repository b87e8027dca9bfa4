import OpFlow.Proofs.Spmd.Delivery
import Mathlib.Data.Set.Basic

/-!
Changes of an arena under a set of uses. A change keeps to the uses if it leaves every byte alone
that no slice among the written ones covers, and if what it does is decided by the slots that the
uses name. Such changes compose, so a long one is as good as its steps.
-/
namespace OpFlow

/-- The slice covers byte `k` of a slot. -/
def Slice.Covers (s : Slice) (slot k : Nat) : Prop :=
  s.index = slot ∧ s.offset ≤ k ∧ k < s.offset + s.size

theorem Bytes.getElem?_splice {b new : Bytes} {offset k : Nat} (h : offset + new.length ≤ b.length)
    (hk : ¬ (offset ≤ k ∧ k < offset + new.length)) : (b.splice offset new)[k]? = b[k]? := by
  have htake : (b.take offset).length = offset := by simp; omega
  rw [Bytes.splice, List.append_assoc]
  by_cases hlt : k < offset
  · rw [List.getElem?_append_left (by omega), List.getElem?_take_of_lt hlt]
  · rw [List.getElem?_append_right (by omega), List.getElem?_append_right (by omega),
      List.getElem?_drop]
    congr 1
    omega

namespace Arena

def byte? (a : Arena) (slot k : Nat) : Option UInt8 := a.slots[slot]?.bind fun b => b[k]?

/-- One arena has come from another by writing inside the slices that may be written. -/
structure Framed (U : Set BufferUse) (a a' : Arena) : Prop where
  size : a'.size = a.size
  length : ∀ x : Nat, a'.slots[x]?.map List.length = a.slots[x]?.map List.length
  byte : ∀ x k, a'.byte? x k ≠ a.byte? x k → ∃ s, .write s ∈ U ∧ s.Covers x k

/-- Two arenas have as many slots, and hold the same in those that are named. -/
structure Agree (U : Set BufferUse) (a a' : Arena) : Prop where
  size : a'.size = a.size
  slot : ∀ u ∈ U, a'.slots[u.slice.index]? = a.slots[u.slice.index]?

structure Obeys {β : Type} (U : Set BufferUse) (g : Arena → Arena × β) : Prop where
  framed : ∀ a : Arena, a.Framed U (g a).1
  result : ∀ a a' : Arena, a.Agree U a' → (g a').2 = (g a).2
  agree : ∀ a a' : Arena, a.Agree U a' → (g a).1.Agree U (g a').1

def pasted (dst : Slice) : Except Error Bytes → Arena → Arena × Outcome
  | .ok new => attempt fun a => a.write dst new
  | .error e => fun a => (a, .error e)

variable {U V : Set BufferUse} {a a' a'' : Arena} {s : Slice} {β γ : Type}

theorem Framed.refl (U : Set BufferUse) (a : Arena) : a.Framed U a :=
  ⟨rfl, fun _ => rfl, fun _ _ h => absurd rfl h⟩

theorem Framed.trans (h : a.Framed U a') (h' : a'.Framed U a'') : a.Framed U a'' where
  size := h'.size.trans h.size
  length x := (h'.length x).trans (h.length x)
  byte x k hne := by
    by_cases hmid : a''.byte? x k = a'.byte? x k
    · exact h.byte x k (hmid ▸ hne)
    · exact h'.byte x k hmid

theorem Agree.refl (U : Set BufferUse) (a : Arena) : a.Agree U a := ⟨rfl, fun _ _ => rfl⟩

theorem Agree.read {u : BufferUse} (h : a.Agree U a') (hu : u ∈ U) (hs : u.slice.index = s.index) :
    a'.read s = a.read s := read_congr h.size (hs ▸ h.slot u hu)

namespace Obeys

theorem pure (U : Set BufferUse) (b : β) : Obeys U fun a => (a, b) :=
  ⟨.refl U, fun _ _ _ => rfl, fun _ _ h => h⟩

theorem bind {g : Arena → Arena × β} {h : β → Arena → Arena × γ} (hg : Obeys U g)
    (hh : ∀ b, Obeys U (h b)) : Obeys U fun a => h (g a).2 (g a).1 where
  framed a := (hg.framed a).trans ((hh _).framed _)
  result a a' ha := by
    rw [hg.result a a' ha]
    exact (hh _).result _ _ (hg.agree a a' ha)
  agree a a' ha := by
    rw [hg.result a a' ha]
    exact (hh _).agree _ _ (hg.agree a a' ha)

theorem andThen {g : Arena → Arena × β} {both : Arena → Arena × γ} (h : β → Arena → Arena × γ)
    (hg : Obeys U g) (hh : ∀ b, Obeys U (h b)) (heq : ∀ a, both a = h (g a).2 (g a).1) :
    Obeys U both := by
  rw [funext heq]
  exact hg.bind hh

theorem map {g : Arena → Arena × β} (hg : Obeys U g) (f : β → γ) :
    Obeys U fun a => ((g a).1, f (g a).2) := hg.bind fun b => .pure U (f b)

theorem read {u : BufferUse} (hu : u ∈ U) (hs : u.slice.index = s.index) :
    Obeys U fun a => (a, a.read s) :=
  ⟨.refl U, fun _ _ h => h.read hu hs, fun _ _ h => h⟩

/-- Changing a slice that may be written, and not its size. -/
theorem modify (hs : .write s ∈ U) {f : Bytes → Bytes}
    (hf : ∀ b : Bytes, b.length = s.size → (f b).length = s.size) :
    Obeys U (attempt fun a => a.modify s f) := by
  -- either the slice cannot be read and nothing happens, or just its bytes change
  have hcases : ∀ a : Arena, (∃ e, a.read s = .error e ∧
      attempt (fun a => a.modify s f) a = (a, .error e)) ∨
      ∃ old, a.read s = .ok old ∧ attempt (fun a => a.modify s f) a =
        (⟨a.slots.modify s.index fun b => b.splice s.offset (f old)⟩, .ok ()) := fun a => by
    cases hread : a.read s with
    | error e => exact .inl ⟨e, rfl, by rw [attempt, modify_of_read_error hread]⟩
    | ok old => exact .inr ⟨old, rfl, by rw [attempt, modify_of_read hread]⟩
  have halike : ∀ a a' : Arena, a.Agree U a' →
      (attempt (fun a => a.modify s f) a').2 = (attempt (fun a => a.modify s f) a).2 ∧
        (attempt (fun a => a.modify s f) a).1.Agree U (attempt (fun a => a.modify s f) a').1 :=
    fun a a' h => by
      have hread : a'.read s = a.read s := h.read hs rfl
      rcases hcases a with ⟨e, he, heq⟩ | ⟨old, he, heq⟩ <;>
        rcases hcases a' with ⟨e', he', heq'⟩ | ⟨old', he', heq'⟩ <;>
        rw [hread, he] at he' <;> cases he' <;> rw [heq, heq']
      · exact ⟨rfl, h⟩
      · refine ⟨rfl, by simpa [size] using h.size, fun u hu => ?_⟩
        simp only [Array.getElem?_modify, h.slot u hu]
  refine ⟨fun a => ?_, fun a a' h => (halike a a' h).1, fun a a' h => (halike a a' h).2⟩
  rcases hcases a with ⟨e, -, heq⟩ | ⟨old, hread, heq⟩
  · rw [heq]
    exact .refl U a
  · obtain ⟨b, hb, hbound, -⟩ := read_eq_ok_iff.1 hread
    have hnew := hf old (length_of_read hread)
    have hfits : s.offset + (f old).length ≤ b.length := by omega
    rw [heq]
    refine ⟨by simp [size], fun x => ?_, fun x k hne => ?_⟩
    · simp only [Array.getElem?_modify]
      split
      · next hx =>
        subst hx
        simp [hb, Bytes.length_splice hfits]
      · rfl
    · simp only [byte?, Array.getElem?_modify] at hne
      split at hne
      · next hx =>
        subst hx
        refine ⟨s, hs, rfl, ?_⟩
        by_contra hk
        refine hne ?_
        simpa [hb] using Bytes.getElem?_splice hfits (hnew.symm ▸ hk)
      · exact absurd rfl hne

theorem write (hs : .write s ∈ U) (new : Bytes) : Obeys U (attempt fun a => a.write s new) := by
  by_cases hlen : new.length = s.size
  · have heq : (fun a : Arena => a.write s new) = fun a => a.modify s fun _ => new := by
      funext a
      rw [Arena.write, if_neg (not_not.2 hlen)]
    rw [heq]
    exact modify hs fun _ _ => hlen
  · have heq : (attempt fun a => a.write s new) = fun a => (a, .error (.invalidArgument
        ("cannot write " ++ toString new.length ++ " bytes into " ++ s.describe))) := by
      funext a
      rw [attempt, Arena.write, if_pos hlen]
    rw [heq]
    exact .pure U _

/-- Copying a slice of a slot that is named over one that may be written. -/
theorem copy {src dst : Slice} {u : BufferUse} (hu : u ∈ U) (hsrc : u.slice.index = src.index)
    (hdst : .write dst ∈ U) : Obeys U (attempt fun a => a.copy src dst) := by
  by_cases hlen : src.size = dst.size
  · have heq : (attempt fun a => a.copy src dst) = fun a => pasted dst (a.read src) a := by
      funext a
      rw [attempt, Arena.copy, if_neg (not_not.2 hlen)]
      cases hread : a.read src with
      | error e => rfl
      | ok new =>
        have hnew : new.length = dst.size := (length_of_read hread).trans hlen
        rw [pasted, attempt, Arena.write, if_neg (not_not.2 hnew)]
        rfl
    rw [heq]
    refine (read hu hsrc).bind fun r => ?_
    cases r with
    | error e => exact .pure U _
    | ok new => exact write hdst new
  · have heq : (attempt fun a => a.copy src dst) = fun a => (a, .error (.invalidArgument
        ("copy size mismatch: " ++ src.describe ++ " -> " ++ dst.describe))) := by
      funext a
      rw [attempt, Arena.copy, if_pos hlen]
    rw [heq]
    exact .pure U _

/-- Overwriting a slice that may be written with what a participant receives. -/
theorem receive (hs : .write s ∈ U) (received : Except Error (Option Bytes)) :
    Obeys U (Arena.receive received s) := by
  have hmap : ∀ {g : Arena → Except Error Arena}, Obeys U (attempt g) →
      Obeys U fun a => ((attempt g a).1, (attempt g a).2.mapError Fault.error) := fun hg => hg.map _
  cases received with
  | error e => exact .pure U _
  | ok received =>
    by_cases hcapacity : received.isNone ∧ memoryLimit ≤ s.size
    · have heq : Arena.receive (.ok received) s = fun a => (a, .error .capacity) := by
        funext a
        rw [Arena.receive, if_pos hcapacity]
      rw [heq]
      exact .pure U _
    · cases received with
      | some bytes =>
        have heq : Arena.receive (.ok (some bytes)) s = fun a =>
            ((attempt (fun a => a.write s bytes) a).1,
              (attempt (fun a => a.write s bytes) a).2.mapError .error) := by
          funext a
          rw [Arena.receive, if_neg hcapacity]
        rw [heq]
        exact hmap (write hs bytes)
      | none =>
        have heq : Arena.receive (.ok none) s = fun a =>
            ((attempt (fun a => a.modify s fun old => old.map fun _ => 0) a).1,
              (attempt (fun a => a.modify s fun old => old.map fun _ => 0) a).2.mapError
                .error) := by
          funext a
          rw [Arena.receive, if_neg hcapacity]
        rw [heq]
        exact hmap (modify hs fun b hb => by simpa using hb)

end Obeys

end Arena

end OpFlow
