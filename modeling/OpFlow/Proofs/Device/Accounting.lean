import OpFlow.Device
import Mathlib.Algebra.BigOperators.Group.List.Basic
import Mathlib.Algebra.GroupWithZero.Nat
import Mathlib.Data.List.Induction
import Mathlib.Order.Bounds.Defs
import Mathlib.Order.Nat

/-!
What the counters of an allocator say. Books are kept beside it, of the answers alone: what was handed
out, refused or lost, and how many bytes there were after each request. A request for more than any
memory holds is counted before it panics, so its bytes are lost: nobody holds them, and nobody can give
them back. But for that the counters agree with the books, and no limit is passed.
-/
namespace OpFlow

namespace DeviceSession

/-- A request to a session. A memory that is not held can neither be set nor given back. -/
inductive Request
  | allocate (ordinal : Int) (size : Nat)
  | fill (memory : Nat) (byte : UInt8)
  | free (memory : Nat)

def bytesOf (m : Option Memory) : Nat := (m.map fun m => m.bytes.length).getD 0

/-- The bytes of all memories that were handed out and not given back. -/
def held (s : DeviceSession) : Nat := (s.memories.toList.map bytesOf).sum

theorem sum_map_set {α : Type} (f : α → Nat) {xs : List α} {i : Nat} {x : α} (hi : xs[i]? = some x)
    (y : α) : ((xs.set i y).map f).sum + f x = (xs.map f).sum + f y := by
  induction xs generalizing i with
  | nil => simp at hi
  | cons z xs ih =>
    cases i with
    | zero =>
      obtain rfl : z = x := by simpa using hi
      simp only [List.set_cons_zero, List.map_cons, List.sum_cons]
      omega
    | succ i =>
      have := ih (by simpa using hi)
      simp only [List.set_cons_succ, List.map_cons, List.sum_cons]
      omega

variable {s : DeviceSession} {m : Memory} {i : Nat}

theorem held_push (s : DeviceSession) (a : Allocator) (x : Option Memory) :
    ({ s with allocator := a, memories := s.memories.push x } : DeviceSession).held =
      s.held + bytesOf x := by
  simp [held]

theorem held_set (hi : s.held? i = some m) (a : Allocator) (x : Option Memory) :
    ({ s with allocator := a, memories := s.memories.setIfInBounds i x } : DeviceSession).held +
      m.bytes.length = s.held + bytesOf x := by
  have hentry : s.memories.toList[i]? = some (some m) := by
    rw [Array.getElem?_toList]
    exact Option.join_eq_some_iff.1 hi
  have := sum_map_set bytesOf hentry x
  rwa [← Array.toList_setIfInBounds] at this

theorem held_fill (s : DeviceSession) (i : Nat) (byte : UInt8) : (s.fill i byte).1.held = s.held ∧
    (s.fill i byte).1.allocator = s.allocator := by
  unfold fill
  cases hi : s.held? i with
  | none => exact ⟨rfl, rfl⟩
  | some m =>
    have := held_set hi s.allocator (some { m with bytes := m.bytes.map fun _ => byte })
    simp only [bytesOf, Option.map_some, Option.getD_some, List.length_map] at this
    exact ⟨Nat.add_right_cancel this, rfl⟩

theorem held_free (s : DeviceSession) (i : Nat) : ∃ n, (s.free i).1.held + n = s.held ∧
    (s.free i).1.allocator = { s.allocator with inUse := s.allocator.inUse - n } := by
  unfold free
  cases hi : s.held? i with
  | none => exact ⟨0, rfl, rfl⟩
  | some m => exact ⟨m.bytes.length, held_set hi (s.allocator.release m) none, rfl⟩

/-- What becomes of a request for memory: it is refused, or its bytes are counted, and they are handed
out unless no memory holds so many. -/
inductive Allocates (s : DeviceSession) (ordinal : Int) (size : Nat) :
    DeviceSession × Except Fault Memory → Prop
  | refused {s' : DeviceSession} {e : Error} (hkind : e.kind = .resourceExhausted)
      (hallocator : s'.allocator = { s.allocator with refused := s.allocator.refused + 1 })
      (hheld : s'.held = s.held) : Allocates s ordinal size (s', .error (.error e))
  | counted {s' : DeviceSession} {answer : Except Fault Memory} {wanted : Nat}
      (hwanted : wanted = saturatingAdd s.allocator.inUse size)
      (hlimit : ∀ l, s.allocator.limit = some l → wanted ≤ l)
      (hallocator : s'.allocator = { s.allocator with
        count := s.allocator.count + 1
        inUse := wanted
        peak := max s.allocator.peak wanted })
      (hanswer : (memoryLimit ≤ size ∧ answer = .error .capacity ∧ s'.held = s.held) ∨
        size < memoryLimit ∧ ∃ m, answer = .ok m ∧ m.bytes.length = size ∧ s'.held = s.held + size) :
      Allocates s ordinal size (s', answer)

theorem allocates (s : DeviceSession) (ordinal : Int) (size : Nat) :
    Allocates s ordinal size (s.allocate ordinal size) := by
  unfold allocate Allocator.allocate
  dsimp only
  by_cases hover : s.allocator.limit.any (· < saturatingAdd s.allocator.inUse size)
  · rw [if_pos hover]
    exact .refused rfl rfl ((held_push s _ none).trans (Nat.add_zero _))
  · have hlimit : ∀ l, s.allocator.limit = some l → saturatingAdd s.allocator.inUse size ≤ l :=
      fun l hl => by simpa [hl] using hover
    rw [if_neg hover]
    by_cases hsize : memoryLimit ≤ size
    · rw [if_pos hsize]
      exact .counted rfl hlimit rfl (.inl ⟨hsize, rfl, rfl⟩)
    · rw [if_neg hsize]
      refine .counted rfl hlimit rfl (.inr ⟨Nat.lt_of_not_le hsize, _, rfl, by simp, ?_⟩)
      refine (held_push s _ _).trans ?_
      simp [bytesOf]

end DeviceSession

open DeviceSession (Request)

/-- A session with books of what it has answered. -/
structure Books where
  session : DeviceSession
  granted : Nat := 0
  refused : Nat := 0
  panicked : Nat := 0
  /-- The bytes that were asked for by requests that panicked. -/
  lost : Nat := 0
  /-- The bytes that were held or lost at the start and after each request. -/
  totals : List Nat := [0]

namespace Books

def total (b : Books) : Nat := b.session.held + b.lost

def closed (b : Books) : Books := { b with totals := b.total :: b.totals }

def noted (b : Books) (size : Nat) : DeviceSession × Except Fault Memory → Books
  | (session, .ok _) => { b with session, granted := b.granted + 1 }
  | (session, .error (.error _)) => { b with session, refused := b.refused + 1 }
  | (session, .error (.panic _)) =>
    { b with session, panicked := b.panicked + 1, lost := b.lost + size }

def serve (b : Books) : Request → Books
  | .allocate ordinal size => (b.noted size (b.session.allocate ordinal size)).closed
  | .fill i byte => { b with session := (b.session.fill i byte).1 : Books }.closed
  | .free i => { b with session := (b.session.free i).1 : Books }.closed

def ofRun (limit : Option Nat) (rs : List Request) : Books :=
  rs.foldl serve { session := { allocator := { limit } } }

/-- The counters of an allocator with this limit agree with the books. -/
structure Agree (limit : Option Nat) (b : Books) : Prop where
  limited : b.session.allocator.limit = limit
  count : b.session.allocator.count = b.granted + b.panicked
  refused : b.session.allocator.refused = b.refused
  inUse : b.session.allocator.inUse = b.total
  peak : IsGreatest {n | n ∈ b.totals} b.session.allocator.peak
  current : b.total ∈ b.totals
  bound : ∀ l, limit = some l → b.total ≤ l
  lost : b.panicked = 0 → b.lost = 0

variable {limit : Option Nat} {b b' : Books}

theorem agree_start (limit : Option Nat) : Agree limit { session := { allocator := { limit } } } where
  limited := rfl
  count := rfl
  refused := rfl
  inUse := rfl
  peak := ⟨List.mem_singleton.2 rfl, fun _ hn => (List.mem_singleton.1 hn).le⟩
  current := List.mem_singleton.2 rfl
  bound _ _ := Nat.zero_le _
  lost _ := rfl

theorem Agree.total_le_peak (h : b.Agree limit) : b.total ≤ b.session.allocator.peak :=
  h.peak.2 h.current

/-- The books agree with the counters once the total is noted, if the highest total was raised with it. -/
theorem Agree.closed (h : b.Agree limit) (htotals : b'.totals = b.totals)
    (hlimited : b'.session.allocator.limit = limit)
    (hcount : b'.session.allocator.count = b'.granted + b'.panicked)
    (hrefused : b'.session.allocator.refused = b'.refused)
    (hinUse : b'.session.allocator.inUse = b'.total)
    (hpeak : b'.session.allocator.peak = max b.session.allocator.peak b'.total)
    (hbound : ∀ l, limit = some l → b'.total ≤ l) (hlost : b'.panicked = 0 → b'.lost = 0) :
    b'.closed.Agree limit := by
  refine ⟨hlimited, hcount, hrefused, hinUse, ?_, List.mem_cons_self, hbound, hlost⟩
  change IsGreatest {n | n ∈ b'.total :: b'.totals} b'.session.allocator.peak
  rw [hpeak, htotals]
  refine ⟨?_, fun n hn => ?_⟩
  · rcases Nat.le_total b.session.allocator.peak b'.total with hle | hle
    · rw [Nat.max_eq_right hle]
      exact List.mem_cons_self
    · rw [Nat.max_eq_left hle]
      exact List.mem_cons_of_mem _ h.peak.1
  · rcases List.mem_cons.1 hn with rfl | hn
    · exact Nat.le_max_right ..
    · exact (h.peak.2 hn).trans (Nat.le_max_left ..)

/-- Nothing is counted too low because it is no machine word: a limit keeps all totals below the
largest word, or this total is a word. -/
def Fits (limit : Option Nat) (total : Nat) : Prop :=
  (∃ l, limit = some l ∧ l + 1 < wordSize) ∨ total < wordSize

theorem saturatingAdd_of_fits {n size : Nat} (hfits : Fits limit (n + size))
    (hlimit : ∀ l, limit = some l → saturatingAdd n size ≤ l) : saturatingAdd n size = n + size := by
  unfold saturatingAdd at hlimit ⊢
  rcases hfits with ⟨l, rfl, hl⟩ | hlt
  · have := hlimit l rfl
    omega
  · omega

/-- More bytes are counted, whether they are held or lost. -/
theorem Agree.counted (h : b.Agree limit) {size : Nat} (htotals : b'.totals = b.totals)
    (htotal : b'.total = b.total + size)
    (hanswered : b'.granted + b'.panicked = b.granted + b.panicked + 1)
    (hrefused : b'.refused = b.refused) (hlost : b'.panicked = 0 → b'.lost = 0)
    (hfits : Fits limit b'.total)
    (hlimit : ∀ l, limit = some l → saturatingAdd b.session.allocator.inUse size ≤ l)
    (hallocator : b'.session.allocator = { b.session.allocator with
      count := b.session.allocator.count + 1
      inUse := saturatingAdd b.session.allocator.inUse size
      peak := max b.session.allocator.peak (saturatingAdd b.session.allocator.inUse size) }) :
    b'.closed.Agree limit := by
  have hexact : saturatingAdd b.session.allocator.inUse size = b'.total := by
    rw [htotal] at hfits ⊢
    rw [h.inUse] at hlimit ⊢
    exact saturatingAdd_of_fits hfits hlimit
  rw [hexact] at hallocator hlimit
  refine h.closed htotals ?_ ?_ ?_ ?_ ?_ hlimit hlost
  all_goals rw [hallocator]
  · exact h.limited
  · exact (congrArg (· + 1) h.count).trans hanswered.symm
  · exact h.refused.trans hrefused.symm

theorem Agree.allocate (h : b.Agree limit) (ordinal : Int) (size : Nat)
    (hfits : Fits limit (b.serve (.allocate ordinal size)).total) :
    (b.serve (.allocate ordinal size)).Agree limit := by
  have hcases := b.session.allocates ordinal size
  rw [serve] at hfits ⊢
  generalize b.session.allocate ordinal size = x at hcases hfits ⊢
  cases hcases with
  | @refused s' e hkind hallocator hheld =>
    have htotal : (b.noted size (s', .error (.error e))).total = b.total :=
      congrArg (· + b.lost) hheld
    refine h.closed rfl ?_ ?_ ?_ ?_ ?_ (fun l hl => htotal ▸ h.bound l hl) h.lost
    all_goals rw [show (b.noted size (s', .error (.error e))).session = s' from rfl, hallocator]
    · exact h.limited
    · exact h.count
    · exact congrArg (· + 1) h.refused
    · exact h.inUse.trans htotal.symm
    · rw [htotal]
      exact (Nat.max_eq_left h.total_le_peak).symm
  | @counted s' answer wanted hwanted hlimit hallocator hanswer =>
    subst hwanted
    rw [h.limited] at hlimit
    rcases hanswer with ⟨-, rfl, hheld⟩ | ⟨-, m, rfl, -, hheld⟩
    · refine h.counted rfl ?_ (Nat.add_assoc _ _ _).symm rfl (fun hnone => ?_) hfits hlimit hallocator
      · change s'.held + (b.lost + size) = b.session.held + b.lost + size
        omega
      · exact absurd hnone (Nat.succ_ne_zero _)
    · refine h.counted rfl ?_ ?_ rfl h.lost hfits hlimit hallocator
      · change s'.held + b.lost = b.session.held + b.lost + size
        omega
      · exact Nat.add_right_comm _ _ _

theorem Agree.fill (h : b.Agree limit) (i : Nat) (byte : UInt8) :
    (b.serve (.fill i byte)).Agree limit := by
  obtain ⟨hheld, hallocator⟩ := b.session.held_fill i byte
  have htotal : (b.session.fill i byte).1.held + b.lost = b.total := congrArg (· + b.lost) hheld
  refine h.closed rfl ?_ ?_ ?_ ?_ ?_ (fun l hl => htotal.trans_le (h.bound l hl)) h.lost
  all_goals rw [hallocator]
  · exact h.limited
  · exact h.count
  · exact h.refused
  · exact h.inUse.trans htotal.symm
  · exact ((congrArg _ htotal).trans (Nat.max_eq_left h.total_le_peak)).symm

theorem Agree.free (h : b.Agree limit) (i : Nat) : (b.serve (.free i)).Agree limit := by
  obtain ⟨n, hheld, hallocator⟩ := b.session.held_free i
  have htotal : (b.session.free i).1.held + b.lost + n = b.total := by
    rw [total, ← hheld]
    omega
  have hle : (b.session.free i).1.held + b.lost ≤ b.total := by omega
  refine h.closed rfl ?_ ?_ ?_ ?_ ?_ (fun l hl => hle.trans (h.bound l hl)) h.lost
  all_goals rw [hallocator]
  · exact h.limited
  · exact h.count
  · exact h.refused
  · change b.session.allocator.inUse - n = (b.session.free i).1.held + b.lost
    rw [h.inUse]
    omega
  · exact (Nat.max_eq_left (hle.trans h.total_le_peak)).symm

theorem Agree.serve (h : b.Agree limit) (r : Request) (hfits : Fits limit (b.serve r).total) :
    (b.serve r).Agree limit := by
  cases r with
  | allocate ordinal size => exact h.allocate ordinal size hfits
  | fill i byte => exact h.fill i byte
  | free i => exact h.free i

theorem totals_serve (b : Books) (r : Request) :
    (b.serve r).totals = (b.serve r).total :: b.totals := by
  cases r with
  | allocate ordinal size =>
    rw [serve]
    rcases b.session.allocate ordinal size with ⟨s', (e | text) | m⟩ <;> rfl
  | fill i byte => rfl
  | free i => rfl

theorem ofRun_append (limit : Option Nat) (rs : List Request) (r : Request) :
    ofRun limit (rs ++ [r]) = (ofRun limit rs).serve r := by
  rw [ofRun, List.foldl_append]
  rfl

theorem agree_ofRun (limit : Option Nat) (rs : List Request)
    (hfits : (∃ l, limit = some l ∧ l + 1 < wordSize) ∨
      ∀ n ∈ (ofRun limit rs).totals, n < wordSize) : (ofRun limit rs).Agree limit := by
  induction rs using List.reverseRecOn with
  | nil => exact agree_start limit
  | append_singleton rs r ih =>
    rw [ofRun_append] at hfits ⊢
    rw [totals_serve, List.forall_mem_cons] at hfits
    exact (ih (hfits.imp_right And.right)).serve r (hfits.imp_right And.left)

/-- After any requests to an allocator, with a limit or without, the counters say what the books say:
how many requests were granted, or lost in a panic, and how many refused, how many bytes are held or
lost, and what the most of them were at any time. The limit was never passed, and as long as nothing
panics nothing is lost. A refusal for the limit changes nothing else. A request that panics asks for
more than any memory holds, and counts as if it had been granted. -/
theorem accounting (limit : Option Nat) (rs : List Request)
    (hfits : (∃ l, limit = some l ∧ l + 1 < wordSize) ∨
      ∀ n ∈ (ofRun limit rs).totals, n < wordSize) :
    let b := ofRun limit rs
    let a := b.session.allocator
    a.count = b.granted + b.panicked ∧ a.refused = b.refused ∧
    a.inUse = b.session.held + b.lost ∧ IsGreatest {n | n ∈ b.totals} a.peak ∧
    (∀ l, limit = some l → a.inUse ≤ l) ∧ (b.panicked = 0 → b.lost = 0) ∧
    (∀ ordinal size e, (b.session.allocate ordinal size).2 = .error (.error e) →
      e.kind = .resourceExhausted ∧
        (b.session.allocate ordinal size).1.allocator = { a with refused := a.refused + 1 }) ∧
    ∀ ordinal size text, (b.session.allocate ordinal size).2 = .error (.panic text) →
      memoryLimit ≤ size ∧ (b.session.allocate ordinal size).1.allocator = { a with
        count := a.count + 1
        inUse := saturatingAdd a.inUse size
        peak := max a.peak (saturatingAdd a.inUse size) } := by
  intro b a
  have h := agree_ofRun limit rs hfits
  refine ⟨h.count, h.refused, h.inUse, h.peak, fun l hl => h.inUse.trans_le (h.bound l hl), h.lost,
    fun ordinal size e he => ?_, fun ordinal size text htext => ?_⟩
  · have hcases := b.session.allocates ordinal size
    generalize b.session.allocate ordinal size = x at hcases he ⊢
    cases hcases with
    | refused hkind hallocator =>
      cases he
      exact ⟨hkind, hallocator⟩
    | counted _ _ _ hanswer =>
      rcases hanswer with ⟨-, rfl, -⟩ | ⟨-, m, rfl, -⟩ <;> cases he
  · have hcases := b.session.allocates ordinal size
    generalize b.session.allocate ordinal size = x at hcases htext ⊢
    cases hcases with
    | refused => cases htext
    | counted hwanted _ hallocator hanswer =>
      subst hwanted
      rcases hanswer with ⟨hsize, -⟩ | ⟨-, m, rfl, -⟩
      · exact ⟨hsize, hallocator⟩
      · cases htext

theorem accounting_limited :
    let b := ofRun (some 4) [.allocate 0 2, .allocate 0 5, .allocate 0 1, .free 0]
    let a := b.session.allocator
    b.granted = 2 ∧ b.panicked = 0 ∧ b.session.held = 1 ∧ a.count = b.granted + b.panicked ∧
      a.refused = 1 ∧ a.inUse = b.session.held + b.lost ∧ b.lost = 0 ∧ a.inUse ≤ 4 ∧
      IsGreatest {n | n ∈ b.totals} 3 := by
  intro b a
  obtain ⟨hcount, hrefused, hinUse, hpeak, hbound, hlost, -⟩ :=
    accounting (some 4) [.allocate 0 2, .allocate 0 5, .allocate 0 1, .free 0]
      (.inl ⟨4, rfl, by decide⟩)
  exact ⟨rfl, rfl, rfl, hcount, hrefused, hinUse, hlost rfl, hbound 4 rfl, hpeak⟩

theorem accounting_of_panicked :
    let b := ofRun none [.allocate 0 memoryLimit]
    let a := b.session.allocator
    b.granted = 0 ∧ b.session.held = 0 ∧ a.count = 1 ∧ a.inUse = memoryLimit ∧
      a.peak = memoryLimit := by
  decide +kernel

end Books

end OpFlow
