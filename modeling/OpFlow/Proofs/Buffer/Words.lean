import OpFlow.Proofs.Frame.Routine

/-!
The table in machine words, where the end of a slice may be no word, a range that leaves its bytes
panics, and what was changed before a failure would stay changed. The checks come before all of
that: on slots of machine size the same is done as in exact numbers.
-/
namespace OpFlow

def checkedAdd (a b : Nat) : Option Nat := if a + b < wordSize then some (a + b) else none

namespace Bytes

def range (b : Bytes) (start stop : Nat) : Except Fault Bytes :=
  if start ≤ stop ∧ stop ≤ b.length then .ok ((b.drop start).take (stop - start))
  else .error (.panic "range out of bounds")

def overwrite (b : Bytes) (start stop : Nat) (f : Bytes → Bytes) : Except Fault Bytes := do
  let old ← b.range start stop
  if (f old).length = old.length then return b.splice start (f old)
  else throw (.panic "source slice length does not match destination slice length")

def copyWithin (b : Bytes) (start stop target : Nat) : Except Fault Bytes := do
  let moved ← b.range start stop
  if target + moved.length ≤ b.length then return b.splice target moved
  else throw (.panic "dest is out of bounds")

end Bytes

namespace Routine

variable {σ α : Type}

def raise (r : Except Fault α) : Routine σ α :=
  match r with
  | .ok x => pure x
  | .error fault => throw fault

theorem runOn_raise (r : Except Fault α) (s : σ) : (raise r : Routine σ α).runOn s = (s, r) := by
  cases r <;> rfl

theorem runOn_lift (r : Except Error α) (s : σ) :
    (lift r : Routine σ α).runOn s = (s, r.mapError .error) := by
  cases r <;> rfl

theorem runOn_get (s : σ) : (get : Routine σ σ).runOn s = (s, .ok s) := rfl

end Routine

namespace Arena

/-- Refuses a slice that a slot of `length` bytes does not hold, or whose end is no word. -/
def checkWords (s : Slice) (length : Nat) : Except Error Unit :=
  let refusal := .error (.invalidArgument (s.describe ++ " exceeds slot size " ++ toString length))
  match checkedAdd s.offset s.size with
  | some stop => if stop ≤ length then .ok () else refusal
  | none => refusal

def borrow (s : Slice) : Routine Arena Bytes := do
  let b ← Routine.lift ((← get).slot s.index)
  Routine.lift (checkWords s b.length)
  return b

def store (index : Nat) (b : Bytes) : Routine Arena Unit := do
  set (⟨(← get).slots.setIfInBounds index b⟩ : Arena)

def readOut (s : Slice) : Routine Arena Bytes := do
  let b ← borrow s
  Routine.raise (b.range s.offset s.stop)

def changeIn (s : Slice) (f : Bytes → Bytes) : Routine Arena Unit := do
  let b ← borrow s
  store s.index (← Routine.raise (b.overwrite s.offset s.stop f))

def writeIn (s : Slice) (new : Bytes) : Routine Arena Unit := do
  if new.length ≠ s.size then
    Routine.fail (.invalidArgument
      ("cannot write " ++ toString new.length ++ " bytes into " ++ s.describe))
  changeIn s fun _ => new

def copyOver (src dst : Slice) : Routine Arena Unit := do
  if src.size ≠ dst.size then
    Routine.fail (.invalidArgument
      ("copy size mismatch: " ++ src.describe ++ " -> " ++ dst.describe))
  if src.index = dst.index then
    let b ← borrow src
    Routine.lift (checkWords dst b.length)
    store src.index (← Routine.raise (b.copyWithin src.offset src.stop dst.offset))
  else
    let moved ← readOut src
    changeIn dst fun _ => moved

/-- Every slot is of a size that a word can say. -/
def OfWords (a : Arena) : Prop :=
  ∀ (index : Nat) (b : Bytes), a.slots[index]? = some b → b.length < wordSize

def ending (g : Arena → Except Error Arena) (a : Arena) : Arena × Except Fault Unit :=
  ((attempt g a).1, (attempt g a).2.mapError .error)

variable {a : Arena} {s src dst : Slice} {b new : Bytes} {f : Bytes → Bytes} {length : Nat}

theorem ending_ok {g : Arena → Except Error Arena} {a' : Arena} (h : g a = .ok a') :
    ending g a = (a', .ok ()) := by
  rw [ending, attempt, h]
  rfl

theorem ending_error {g : Arena → Except Error Arena} {e : Error} (h : g a = .error e) :
    ending g a = (a, .error (.error e)) := by
  rw [ending, attempt, h]
  rfl

theorem checkWords_eq (hlength : length < wordSize) : checkWords s length = checkBounds s length := by
  unfold checkWords checkedAdd checkBounds
  by_cases hword : s.offset + s.size < wordSize
  · rw [if_pos hword]
  · rw [if_neg hword, if_neg (by omega)]

theorem stop_eq (hfits : s.offset + s.size ≤ length) (hlength : length < wordSize) :
    s.stop = s.offset + s.size := by
  rw [Slice.stop, saturatingAdd]
  omega

theorem range_eq (hfits : s.offset + s.size ≤ b.length) (hlength : b.length < wordSize) :
    b.range s.offset s.stop = .ok ((b.drop s.offset).take s.size) := by
  rw [stop_eq hfits hlength, Bytes.range, if_pos ⟨by omega, hfits⟩, Nat.add_sub_cancel_left]

theorem overwrite_eq (hfits : s.offset + s.size ≤ b.length) (hlength : b.length < wordSize)
    (hf : ∀ b : Bytes, b.length = s.size → (f b).length = s.size) :
    b.overwrite s.offset s.stop f = .ok (b.splice s.offset (f ((b.drop s.offset).take s.size))) := by
  have hold : ((b.drop s.offset).take s.size).length = s.size := by
    rw [List.length_take_of_le]
    rw [List.length_drop]
    omega
  rw [Bytes.overwrite, range_eq hfits hlength]
  simp only [bind, Except.bind]
  rw [if_pos ((hf _ hold).trans hold.symm)]
  rfl

theorem copyWithin_eq (hsrc : src.offset + src.size ≤ b.length)
    (hdst : dst.offset + dst.size ≤ b.length) (hsize : src.size = dst.size)
    (hlength : b.length < wordSize) : b.copyWithin src.offset src.stop dst.offset =
      .ok (b.splice dst.offset ((b.drop src.offset).take src.size)) := by
  rw [Bytes.copyWithin, range_eq hsrc hlength]
  simp only [bind, Except.bind]
  rw [if_pos]
  · rfl
  · rw [List.length_take, List.length_drop]
    omega

theorem slots_modify_eq (hb : a.slots[s.index]? = some b) (f : Bytes → Bytes) :
    a.slots.modify s.index f = a.slots.setIfInBounds s.index (f b) := by
  obtain ⟨hlt, rfl⟩ := Array.getElem?_eq_some_iff.1 hb
  refine Array.ext_getElem? fun k => ?_
  rw [Array.getElem?_modify, Array.getElem?_setIfInBounds]
  by_cases hk : s.index = k
  · subst hk
    simp [hlt]
  · simp [hk]

theorem read_of_slot (hb : a.slots[s.index]? = some b) :
    a.read s = checkBounds s b.length >>= fun _ => .ok ((b.drop s.offset).take s.size) := by
  simp only [read, slot, hb]
  rfl

theorem fits_of_checkBounds (h : checkBounds s length = .ok ()) : s.offset + s.size ≤ length := by
  by_contra hfits
  rw [checkBounds, if_neg hfits] at h
  cases h

/-- A slice is found just as without words: its slot, or the same refusal. -/
theorem runOn_borrow (ha : a.OfWords) (s : Slice) :
    (∃ b, a.slots[s.index]? = some b ∧ s.offset + s.size ≤ b.length ∧ b.length < wordSize ∧
      a.read s = .ok ((b.drop s.offset).take s.size) ∧ (borrow s).runOn a = (a, .ok b)) ∨
    ∃ e, a.read s = .error e ∧ (borrow s).runOn a = (a, .error (.error e)) := by
  simp only [borrow, Routine.runOn_bind, Routine.runOn_get, Routine.runOn_lift]
  cases hb : a.slots[s.index]? with
  | none => exact .inr ⟨_, by rw [read, slot, hb]; rfl, by rw [slot, hb]; rfl⟩
  | some b =>
    have hlength := ha _ _ hb
    rw [read_of_slot hb, slot, hb]
    dsimp only [Except.mapError]
    rw [checkWords_eq hlength]
    cases hcheck : checkBounds s b.length with
    | ok => exact .inl ⟨b, rfl, fits_of_checkBounds hcheck, hlength, rfl, rfl⟩
    | error e => exact .inr ⟨e, rfl, rfl⟩

theorem runOn_readOut (ha : a.OfWords) (s : Slice) :
    (readOut s).runOn a = (a, (a.read s).mapError .error) := by
  rw [readOut, Routine.runOn_bind]
  rcases runOn_borrow ha s with ⟨b, -, hfits, hlength, hread, hrun⟩ | ⟨e, hread, hrun⟩
  · rw [hrun, hread]
    dsimp only
    rw [Routine.runOn_raise, range_eq hfits hlength]
    rfl
  · rw [hrun, hread]
    rfl

theorem runOn_changeIn (ha : a.OfWords) (hf : ∀ b : Bytes, b.length = s.size → (f b).length = s.size) :
    (changeIn s f).runOn a = ending (fun a => a.modify s f) a := by
  rw [changeIn, Routine.runOn_bind]
  rcases runOn_borrow ha s with ⟨b, hb, hfits, hlength, hread, hrun⟩ | ⟨e, hread, hrun⟩
  · rw [hrun, ending_ok (modify_of_read hread), slots_modify_eq hb]
    dsimp only
    rw [overwrite_eq hfits hlength hf]
    rfl
  · rw [hrun, ending_error (modify_of_read_error hread)]

theorem runOn_writeIn (ha : a.OfWords) (s : Slice) (new : Bytes) :
    (writeIn s new).runOn a = ending (fun a => a.write s new) a := by
  by_cases hsize : new.length ≠ s.size
  · rw [writeIn, if_pos hsize, ending_error (by rw [Arena.write, if_pos hsize])]
    rfl
  · have hwrite : (fun a : Arena => a.write s new) = fun a => a.modify s fun _ => new := by
      funext a
      rw [Arena.write, if_neg hsize]
    rw [writeIn, if_neg hsize, hwrite]
    exact runOn_changeIn ha fun _ _ => not_not.1 hsize

theorem copy_of_sizes (hsize : src.size = dst.size) :
    a.copy src dst = a.read src >>= fun new => a.modify dst fun _ => new := by
  rw [copy, if_neg (not_not.2 hsize)]

/-- Inside one slot both slices are checked before any byte is moved, and the bytes that arrive are
those from before, wherever the slices overlap. -/
theorem runOn_copyOver_within (ha : a.OfWords) (hsize : src.size = dst.size)
    (hindex : src.index = dst.index) :
    (copyOver src dst).runOn a = ending (fun a => a.copy src dst) a := by
  rw [copyOver, if_neg (not_not.2 hsize), if_pos hindex]
  change (borrow src >>= fun b => _).runOn a = _
  rw [Routine.runOn_bind]
  rcases runOn_borrow ha src with ⟨b, hb, hfits, hlength, hread, hrun⟩ | ⟨e, hread, hrun⟩
  · have hslot : a.slots[dst.index]? = some b := hindex ▸ hb
    rw [hrun]
    dsimp only
    rw [Routine.runOn_bind, Routine.runOn_lift, checkWords_eq hlength]
    cases hcheck : checkBounds dst b.length with
    | error e =>
      have hdst : a.read dst = .error e := by
        rw [read_of_slot hslot, hcheck]
        rfl
      rw [ending_error (e := e)]
      · rfl
      · rw [copy_of_sizes hsize, hread]
        exact modify_of_read_error hdst
    | ok =>
      have hdst : a.read dst = .ok ((b.drop dst.offset).take dst.size) := by
        rw [read_of_slot hslot, hcheck]
        rfl
      have hcopy : a.copy src dst = .ok ⟨a.slots.setIfInBounds src.index
          (b.splice dst.offset ((b.drop src.offset).take src.size))⟩ := by
        rw [copy_of_sizes hsize, hread, hindex]
        exact (modify_of_read hdst).trans (by rw [slots_modify_eq hslot])
      rw [ending_ok hcopy]
      dsimp only [Except.mapError]
      rw [copyWithin_eq hfits (fits_of_checkBounds hcheck) hsize hlength]
      rfl
  · rw [hrun, ending_error (e := e)]
    rw [copy_of_sizes hsize, hread]
    rfl

theorem runOn_copyOver_between (ha : a.OfWords) (hsize : src.size = dst.size)
    (hindex : src.index ≠ dst.index) :
    (copyOver src dst).runOn a = ending (fun a => a.copy src dst) a := by
  rw [copyOver, if_neg (not_not.2 hsize), if_neg hindex]
  change (readOut src >>= fun moved => changeIn dst fun _ => moved).runOn a = _
  rw [Routine.runOn_bind, runOn_readOut ha]
  cases hread : a.read src with
  | error e =>
    rw [ending_error (e := e)]
    · rfl
    · rw [copy_of_sizes hsize, hread]
      rfl
  | ok moved =>
    have hcopy : ending (fun a => a.copy src dst) a = ending (fun a => a.modify dst fun _ => moved) a := by
      rw [ending, ending, attempt, copy_of_sizes hsize, hread]
      rfl
    rw [hcopy]
    exact runOn_changeIn ha fun _ _ => (length_of_read hread).trans hsize

theorem runOn_copyOver (ha : a.OfWords) (src dst : Slice) :
    (copyOver src dst).runOn a = ending (fun a => a.copy src dst) a := by
  by_cases hsize : src.size = dst.size
  · by_cases hindex : src.index = dst.index
    · exact runOn_copyOver_within ha hsize hindex
    · exact runOn_copyOver_between ha hsize hindex
  · rw [copyOver, if_pos hsize, ending_error (by rw [copy, if_pos hsize])]
    rfl

end Arena

end OpFlow
