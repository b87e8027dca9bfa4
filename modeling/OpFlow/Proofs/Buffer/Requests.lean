import OpFlow.Proofs.Buffer.Words
import Mathlib.Data.Set.Insert

/-!
What a call on the table may do. It succeeds exactly when every slice that it names lies in a slot, to
the end, and the sizes agree; otherwise it is refused and the table stays as it was. A call that
succeeds changes no byte outside the slice it writes, and leaves there the bytes it was given, or those
that the source had before the call, also where source and destination overlap.
-/
namespace OpFlow.Arena

structure Shows (a : Arena) (s : Slice) (bytes : Bytes) : Prop where
  length : bytes.length = s.size
  byte : ∀ k < s.size, bytes[k]? = a.byte? s.index (s.offset + k)

/-- A call on the table. -/
inductive Request
  | read (s : Slice)
  /-- Borrows a slice to change its bytes in place, of which there stay as many. -/
  | edit (s : Slice) (f : Bytes → Bytes) (keeps : ∀ b : Bytes, (f b).length = b.length)
  | write (s : Slice) (new : Bytes)
  | copy (src dst : Slice)

def change (g : Arena → Except Error Arena) (a : Arena) : Arena × Except Error Bytes :=
  ((attempt g a).1, (attempt g a).2.map fun _ => [])

namespace Request

def serve (a : Arena) : Request → Arena × Except Error Bytes
  | read s => (a, a.read s)
  | edit s f _ => change (fun a => a.modify s f) a
  | write s new => change (fun a => a.write s new) a
  | copy src dst => change (fun a => a.copy src dst) a

def routine : Request → Routine Arena Bytes
  | read s => readOut s
  | edit s f _ => changeIn s f >>= fun _ => pure []
  | write s new => writeIn s new >>= fun _ => pure []
  | copy src dst => copyOver src dst >>= fun _ => pure []

def uses : Request → Set BufferUse
  | read s => {.read s}
  | edit s _ _ => {.write s}
  | write s _ => {.write s}
  | copy src dst => {.read src, .write dst}

/-- The sizes that a call names agree. -/
def Sized : Request → Prop
  | read _ => True
  | edit .. => True
  | write s new => new.length = s.size
  | copy src dst => src.size = dst.size

/-- A call that found `a`, left `a'` and gave some bytes has done what it is for. -/
def Done (a a' : Arena) (given : Bytes) : Request → Prop
  | read s => a.Shows s given
  | edit s f _ => ∃ old, a.Shows s old ∧ a'.Shows s (f old)
  | write s new => a'.Shows s new
  | copy src dst => ∃ moved, a.Shows src moved ∧ a'.Shows dst moved

end Request

section Changes

variable {a a' : Arena} {s src dst : Slice} {f : Bytes → Bytes} {new bytes given : Bytes} {e : Error}
  {g : Arena → Except Error Arena}

theorem shows_of_read (h : a.read s = .ok bytes) : a.Shows s bytes := by
  refine ⟨length_of_read h, fun k hk => ?_⟩
  obtain ⟨b, hb, -, rfl⟩ := read_eq_ok_iff.1 h
  rw [byte?, hb, Option.bind_some, List.getElem?_take_of_lt hk, List.getElem?_drop]

theorem kind_of_read (h : a.read s = .error e) : e.kind = .invalidArgument := by
  cases hb : a.slots[s.index]? with
  | none =>
    rw [read, slot, hb] at h
    cases h
    rfl
  | some b =>
    rw [read_of_slot hb, checkBounds] at h
    split at h
    · cases h
    · cases h
      rfl

theorem exists_modify_iff : (∃ a', a.modify s f = .ok a') ↔ a.Holds s := by
  rw [← exists_read_iff]
  constructor
  · rintro ⟨a', h⟩
    cases hread : a.read s with
    | ok old => exact ⟨old, rfl⟩
    | error e =>
      rw [modify_of_read_error hread] at h
      cases h
  · rintro ⟨old, h⟩
    exact ⟨_, modify_of_read h⟩

theorem kind_of_modify (h : a.modify s f = .error e) : e.kind = .invalidArgument := by
  cases hread : a.read s with
  | ok old =>
    rw [modify_of_read hread] at h
    cases h
  | error e' =>
    rw [modify_of_read_error hread] at h
    cases h
    exact kind_of_read hread

theorem shows_of_modify (hf : ∀ b : Bytes, b.length = s.size → (f b).length = s.size)
    (h : a.modify s f = .ok a') : ∃ old, a.Shows s old ∧ a'.Shows s (f old) := by
  obtain ⟨old, hold⟩ := exists_read_iff.2 (exists_modify_iff.1 ⟨a', h⟩)
  obtain ⟨a'', hmodify, hread⟩ := read_modify hold (hf _ (length_of_read hold))
  obtain rfl : a'' = a' := Except.ok.inj (hmodify.symm.trans h)
  exact ⟨old, shows_of_read hold, shows_of_read hread⟩

theorem write_of_size (hsize : new.length = s.size) : a.write s new = a.modify s fun _ => new := by
  rw [Arena.write, if_neg (not_not.2 hsize)]

theorem exists_write_iff : (∃ a', a.write s new = .ok a') ↔ new.length = s.size ∧ a.Holds s := by
  by_cases hsize : new.length = s.size
  · rw [write_of_size hsize, exists_modify_iff, and_iff_right hsize]
  · simp [Arena.write, hsize]

theorem kind_of_write (h : a.write s new = .error e) : e.kind = .invalidArgument := by
  by_cases hsize : new.length = s.size
  · rw [write_of_size hsize] at h
    exact kind_of_modify h
  · rw [Arena.write, if_pos hsize] at h
    cases h
    rfl

theorem shows_of_write (h : a.write s new = .ok a') : a'.Shows s new := by
  obtain ⟨hsize, -⟩ := exists_write_iff.1 ⟨a', h⟩
  rw [write_of_size hsize] at h
  obtain ⟨-, -, hnew⟩ := shows_of_modify (fun _ _ => hsize) h
  exact hnew

theorem copy_of_read (hsize : src.size = dst.size) (h : a.read src = .ok bytes) :
    a.copy src dst = a.modify dst fun _ => bytes := by
  rw [copy_of_sizes hsize, h]
  rfl

theorem exists_copy_iff :
    (∃ a', a.copy src dst = .ok a') ↔ src.size = dst.size ∧ a.Holds src ∧ a.Holds dst := by
  by_cases hsize : src.size = dst.size
  · rw [and_iff_right hsize, ← exists_read_iff (s := src)]
    cases hread : a.read src with
    | ok moved => simp [copy_of_read hsize hread, exists_modify_iff]
    | error e => simp [copy_of_sizes hsize, hread, bind, Except.bind]
  · simp [copy, hsize]

theorem kind_of_copy (h : a.copy src dst = .error e) : e.kind = .invalidArgument := by
  by_cases hsize : src.size = dst.size
  · cases hread : a.read src with
    | ok moved =>
      rw [copy_of_read hsize hread] at h
      exact kind_of_modify h
    | error e' =>
      rw [copy_of_sizes hsize, hread] at h
      cases h
      exact kind_of_read hread
  · rw [copy, if_pos hsize] at h
    cases h
    rfl

theorem shows_of_copy (h : a.copy src dst = .ok a') : ∃ moved, a.Shows src moved ∧ a'.Shows dst moved := by
  obtain ⟨hsize, hsrc, -⟩ := exists_copy_iff.1 ⟨a', h⟩
  obtain ⟨moved, hread⟩ := exists_read_iff.2 hsrc
  rw [copy_of_read hsize hread] at h
  obtain ⟨-, -, hmoved⟩ := shows_of_modify (fun _ _ => (length_of_read hread).trans hsize) h
  exact ⟨moved, shows_of_read hread, hmoved⟩

theorem change_cases (g : Arena → Except Error Arena) (a : Arena) :
    (∃ a', g a = .ok a' ∧ change g a = (a', .ok [])) ∨
      ∃ e, g a = .error e ∧ change g a = (a, .error e) := by
  rw [change, attempt]
  cases g a with
  | ok a' => exact .inl ⟨a', rfl, rfl⟩
  | error e => exact .inr ⟨e, rfl, rfl⟩

theorem exists_change_iff : (∃ given, (change g a).2 = .ok given) ↔ ∃ a', g a = .ok a' := by
  rcases change_cases g a with ⟨a', hg, hchange⟩ | ⟨e, hg, hchange⟩ <;> simp [hg, hchange]

theorem change_error (h : (change g a).2 = .error e) : g a = .error e ∧ (change g a).1 = a := by
  rcases change_cases g a with ⟨a', -, hchange⟩ | ⟨e', hg, hchange⟩
  · rw [hchange] at h
    cases h
  · rw [hchange] at h ⊢
    cases h
    exact ⟨hg, rfl⟩

theorem change_ok (h : (change g a).2 = .ok given) : g a = .ok (change g a).1 := by
  rcases change_cases g a with ⟨a', hg, hchange⟩ | ⟨e', -, hchange⟩
  · rw [hchange]
    exact hg
  · rw [hchange] at h
    cases h

end Changes

namespace Request

variable {r : Request} {a : Arena} {e : Error} {given : Bytes}

theorem runOn_changing {change' : Routine Arena Unit} {g : Arena → Except Error Arena}
    (h : change'.runOn a = ending g a) : (change' >>= fun _ => pure []).runOn a =
      ((change g a).1, (change g a).2.mapError .error) := by
  rw [Routine.runOn_bind, h, ending, change, attempt]
  cases g a <;> rfl

theorem runOn_routine (ha : a.OfWords) (r : Request) :
    r.routine.runOn a = ((r.serve a).1, (r.serve a).2.mapError .error) := by
  cases r with
  | read s => exact runOn_readOut ha s
  | edit s f keeps => exact runOn_changing (runOn_changeIn ha fun b hb => (keeps b).trans hb)
  | write s new => exact runOn_changing (runOn_writeIn ha s new)
  | copy src dst => exact runOn_changing (runOn_copyOver ha src dst)

theorem exists_serve_iff :
    (∃ given, (r.serve a).2 = .ok given) ↔ r.Sized ∧ ∀ u ∈ r.uses, a.Holds u.slice := by
  cases r with
  | read s => simp [serve, Sized, uses, exists_read_iff, BufferUse.read]
  | edit s f keeps =>
    simp [serve, Sized, uses, exists_change_iff, exists_modify_iff, BufferUse.write]
  | write s new => simp [serve, Sized, uses, exists_change_iff, exists_write_iff, BufferUse.write]
  | copy src dst =>
    simp [serve, Sized, uses, exists_change_iff, exists_copy_iff, BufferUse.read, BufferUse.write]

theorem serve_error (h : (r.serve a).2 = .error e) :
    e.kind = .invalidArgument ∧ (r.serve a).1 = a := by
  cases r with
  | read s => exact ⟨kind_of_read h, rfl⟩
  | edit s f keeps =>
    obtain ⟨hrefused, hsame⟩ := change_error h
    exact ⟨kind_of_modify hrefused, hsame⟩
  | write s new =>
    obtain ⟨hrefused, hsame⟩ := change_error h
    exact ⟨kind_of_write hrefused, hsame⟩
  | copy src dst =>
    obtain ⟨hrefused, hsame⟩ := change_error h
    exact ⟨kind_of_copy hrefused, hsame⟩

theorem framed_serve (r : Request) (a : Arena) : a.Framed r.uses (r.serve a).1 := by
  cases r with
  | read s => exact .refl _ a
  | edit s f keeps =>
    have hs : BufferUse.write s ∈ (edit s f keeps).uses := Set.mem_singleton _
    exact (Obeys.modify hs fun b hb => (keeps b).trans hb).framed a
  | write s new =>
    have hs : BufferUse.write s ∈ (write s new).uses := Set.mem_singleton _
    exact (Obeys.write hs new).framed a
  | copy src dst =>
    have hsrc : BufferUse.read src ∈ (copy src dst).uses := Set.mem_insert _ _
    have hdst : BufferUse.write dst ∈ (copy src dst).uses := Set.mem_insert_of_mem _ rfl
    exact (Obeys.copy hsrc rfl hdst).framed a

theorem done_serve (h : (r.serve a).2 = .ok given) : r.Done a (r.serve a).1 given := by
  cases r with
  | read s => exact shows_of_read h
  | edit s f keeps => exact shows_of_modify (fun b hb => (keeps b).trans hb) (change_ok h)
  | write s new => exact shows_of_write (change_ok h)
  | copy src dst => exact shows_of_copy (change_ok h)

/-- A call succeeds exactly when its sizes agree and the table holds its slices; then it has done what
it is for, and no more. Else it is refused for its arguments and the table is as it was. In machine
words nothing more can happen. -/
theorem serve_atomic (r : Request) (a : Arena) (ha : a.OfWords) :
    r.routine.runOn a = ((r.serve a).1, (r.serve a).2.mapError .error) ∧
    ((∃ given, (r.serve a).2 = .ok given) ↔ r.Sized ∧ ∀ u ∈ r.uses, a.Holds u.slice) ∧
    (∀ e, (r.serve a).2 = .error e → e.kind = .invalidArgument ∧ (r.serve a).1 = a) ∧
    ∀ given, (r.serve a).2 = .ok given →
      a.Framed r.uses (r.serve a).1 ∧ r.Done a (r.serve a).1 given :=
  ⟨runOn_routine ha r, exists_serve_iff, fun _ => serve_error,
    fun _ h => ⟨framed_serve r a, done_serve h⟩⟩

/-- Three bytes move up by one inside their slot. -/
theorem serve_atomic_overlapping :
    let a := ofSlots [[1, 2, 3, 4]]
    let r := copy ⟨0, 0, 3⟩ ⟨0, 1, 3⟩
    a.OfWords ∧ r.serve a = (ofSlots [[1, 1, 2, 3]], .ok []) ∧
      r.routine.runOn a = (ofSlots [[1, 1, 2, 3]], .ok []) ∧
      a.Framed r.uses (ofSlots [[1, 1, 2, 3]]) ∧ r.Done a (ofSlots [[1, 1, 2, 3]]) [] := by
  intro a r
  have ha : a.OfWords := fun index b hb => by
    cases index with
    | zero =>
      obtain rfl : [1, 2, 3, 4] = b := by simpa [a, ofSlots] using hb
      decide
    | succ index => simp [a, ofSlots] at hb
  have hserve : r.serve a = (ofSlots [[1, 1, 2, 3]], .ok []) := rfl
  obtain ⟨hwords, -, -, hdone⟩ := serve_atomic r a ha
  rw [hserve] at hwords hdone
  exact ⟨ha, hserve, hwords, hdone [] rfl⟩

end Request

end OpFlow.Arena
