import OpFlow.CustomCall
import OpFlow.Kernel
import OpFlow.Proofs.Frame.Bytes
import Mathlib.Logic.Equiv.Prod

/-!
Routines that touch an arena only through a frame: they read the slices that the frame lends them and
change the bytes of those among them that they may write, and of the arena they see nothing else.
Such a routine keeps to the uses of its frame, whatever it computes and wherever it stops. All the
sample kernels and handlers are of this kind.
-/
namespace OpFlow

namespace Routine

variable {σ ρ β γ : Type}

theorem runOn_bind (r : Routine σ γ) (f : γ → Routine σ β) (s : σ) :
    (r >>= f).runOn s = match r.runOn s with
      | (s', .ok x) => (f x).runOn s'
      | (s', .error e) => (s', .error e) := by
  unfold runOn ExceptT.run StateT.run
  simp only [bind, ExceptT.bind, ExceptT.mk, StateT.bind]
  cases r s with
  | mk ending s' => cases ending <;> rfl

def beside (e : σ ≃ Arena × ρ) (x : ρ) (r : Routine σ β) (a : Arena) : Arena × ρ × Except Fault β :=
  let out := r.runOn (e.symm (a, x))
  ((e out.1).1, (e out.1).2, out.2)

def besideNext (e : σ ≃ Arena × ρ) (f : γ → Routine σ β) :
    ρ × Except Fault γ → Arena → Arena × ρ × Except Fault β
  | (x, .ok z) => (f z).beside e x
  | (x, .error fault) => fun a => (a, x, .error fault)

section Beside

variable (e : σ ≃ Arena × ρ) (x : ρ)

theorem beside_pure (y : β) : (pure y : Routine σ β).beside e x = fun a => (a, x, .ok y) := by
  funext a
  change ((e (e.symm (a, x))).1, (e (e.symm (a, x))).2, _) = _
  rw [Equiv.apply_symm_apply]
  rfl

theorem beside_throw (fault : Fault) :
    (throw fault : Routine σ β).beside e x = fun a => (a, x, .error fault) := by
  funext a
  change ((e (e.symm (a, x))).1, (e (e.symm (a, x))).2, _) = _
  rw [Equiv.apply_symm_apply]
  rfl

theorem beside_bind (r : Routine σ γ) (f : γ → Routine σ β) (a : Arena) :
    (r >>= f).beside e x a = besideNext e f (r.beside e x a).2 (r.beside e x a).1 := by
  rw [beside, beside, runOn_bind]
  rcases r.runOn (e.symm (a, x)) with ⟨s, fault | z⟩
  · rfl
  · dsimp only [besideNext, beside]
    rw [show ((e s).1, (e s).2) = e s from rfl, Equiv.symm_apply_apply]

theorem beside_lift (r : Except Error β) : (Routine.lift r : Routine σ β).beside e x =
    fun a => (a, x, r.mapError .error) := by
  cases r with
  | ok y => exact beside_pure e x y
  | error error => exact beside_throw e x _

theorem beside_modifyGet (f : σ → β × σ) : (modifyGet f : Routine σ β).beside e x =
    fun a => ((e (f (e.symm (a, x))).2).1, (e (f (e.symm (a, x))).2).2,
      .ok (f (e.symm (a, x))).1) := rfl

theorem beside_get (a : Arena) :
    (get : Routine σ σ).beside e x a = (a, x, .ok (e.symm (a, x))) := by
  change ((e (e.symm (a, x))).1, (e (e.symm (a, x))).2, _) = _
  rw [Equiv.apply_symm_apply]
  rfl

theorem beside_read (s : Slice) :
    (do Routine.lift ((e (← get)).1.read s) : Routine σ Bytes).beside e x =
      fun a => (a, x, (a.read s).mapError .error) := by
  funext a
  rw [beside_bind, beside_get]
  dsimp only [besideNext]
  rw [beside_lift, Equiv.apply_symm_apply]

theorem beside_modify (s : Slice) (f : Bytes → Bytes) : (do
      let st ← get
      let a ← Routine.lift ((e st).1.modify s f)
      set (e.symm (a, (e st).2)) : Routine σ PUnit).beside e x =
    fun a => ((Arena.attempt (fun a => a.modify s f) a).1, x,
      (Arena.attempt (fun a => a.modify s f) a).2.mapError .error) := by
  funext a
  rw [beside_bind, beside_get]
  dsimp only [besideNext]
  rw [beside_bind, beside_lift, Equiv.apply_symm_apply, Arena.attempt]
  cases a.modify s f with
  | error error => rfl
  | ok a' =>
    change ((e (e.symm (a', x))).1, (e (e.symm (a', x))).2, _) = _
    rw [Equiv.apply_symm_apply]
    rfl

theorem beside_aside (f : ρ → β × ρ) :
    (modifyGet fun st => ((f (e st).2).1, e.symm ((e st).1, (f (e st).2).2)) :
      Routine σ β).beside e x = fun a => (a, (f x).2, .ok (f x).1) := by
  funext a
  rw [beside_modifyGet]
  simp only [Equiv.apply_symm_apply]

end Beside

/-- The routine sees of the arena in its state, beside which there is some rest, only slices that are
lent to it, and changes only the bytes of those it may write. -/
inductive Through (e : σ ≃ Arena × ρ) (reads writes : List Slice) :
    {β : Type} → Routine σ β → Prop
  | pure {β : Type} (x : β) : Through e reads writes (Pure.pure x)
  | throw {β : Type} (fault : Fault) :
      Through e reads writes (MonadExcept.throw fault : Routine σ β)
  | bind {β γ : Type} {r : Routine σ γ} {f : γ → Routine σ β} (hr : Through e reads writes r)
      (hf : ∀ x, Through e reads writes (f x)) : Through e reads writes (r >>= f)
  | read {s : Slice} (hs : s ∈ reads ∨ s ∈ writes) :
      Through e reads writes (do Routine.lift ((e (← get)).1.read s))
  | modify {s : Slice} (hs : s ∈ writes) {f : Bytes → Bytes}
      (hf : ∀ b : Bytes, b.length = s.size → (f b).length = s.size) :
      Through e reads writes (do
        let st ← get
        let a ← Routine.lift ((e st).1.modify s f)
        set (e.symm (a, (e st).2)))
  /-- It does something to the rest. -/
  | aside {β : Type} (f : ρ → β × ρ) :
      Through e reads writes (modifyGet fun st => ((f (e st).2).1, e.symm ((e st).1, (f (e st).2).2)))

namespace Through

variable {e : σ ≃ Arena × ρ} {reads writes : List Slice}

theorem fail (error : Error) : Through e reads writes (Routine.fail error : Routine σ β) :=
  .throw _

theorem panic (text : String) : Through e reads writes (Routine.panic text : Routine σ β) :=
  .throw _

theorem lift (r : Except Error β) : Through e reads writes (Routine.lift r) := by
  cases r with
  | ok x => exact .pure x
  | error error => exact .fail error

theorem byteAt (bytes : Bytes) (i : Nat) : Through e reads writes (Routine.byteAt bytes i) := by
  unfold Routine.byteAt
  split
  · exact .pure _
  · exact .fail _

theorem readThen {s : Slice} (hs : s ∈ reads ∨ s ∈ writes) {f : Bytes → Routine σ β}
    (hf : ∀ b, Through e reads writes (f b)) :
    Through e reads writes (get >>= fun st => Routine.lift ((e st).1.read s) >>= f) := by
  rw [← bind_assoc]
  exact .bind (.read hs) hf

theorem borrow {xs : List Slice} (hxs : ∀ s ∈ xs, s ∈ reads ∨ s ∈ writes) (i : Nat)
    (error : Error) : Through e reads writes (match xs[i]? with
      | some s => get >>= fun st => Routine.lift ((e st).1.read s)
      | none => Routine.fail error) := by
  split
  · next hs => exact .read (hxs _ (List.mem_of_getElem? hs))
  · exact .fail error

theorem takeThen {xs : List Slice} (hxs : ∀ s ∈ xs, s ∈ reads ∨ s ∈ writes) (i : Nat)
    (error : Error) {f : Slice → Routine σ β} (hf : ∀ s ∈ xs, Through e reads writes (f s)) :
    Through e reads writes ((match xs[i]? with
      | some s => get >>= fun st => Routine.lift ((e st).1.read s) >>= fun _ => Pure.pure s
      | none => Routine.fail error) >>= f) := by
  split
  · next s hs =>
    have hmem := List.mem_of_getElem? hs
    simp only [bind_assoc, pure_bind]
    exact .readThen (hxs s hmem) fun _ => hf s hmem
  · change Through e reads writes (Routine.fail error)
    exact .fail error

theorem write {s : Slice} (hs : s ∈ writes) {bytes : Bytes} (hlen : bytes.length = s.size) :
    Through e reads writes (do
      let st ← get
      let a ← Routine.lift ((e st).1.write s bytes)
      set (e.symm (a, (e st).2))) := by
  have heq : ∀ a : Arena, a.write s bytes = a.modify s fun _ => bytes := fun a => by
    rw [Arena.write, if_neg (not_not.2 hlen)]
  simp only [heq]
  exact .modify hs fun _ _ => hlen

theorem look {f : ρ → Routine σ β} (hf : ∀ x, Through e reads writes (f x)) :
    Through e reads writes (get >>= fun st => f (e st).2) := by
  have heq : (get >>= fun st => f (e st).2) =
      (modifyGet fun st => ((e st).2, e.symm ((e st).1, (e st).2)) : Routine σ ρ) >>= f := by
    have hsame : (fun st => ((e st).2, e.symm ((e st).1, (e st).2))) = fun st => ((e st).2, st) :=
      funext fun st => by rw [show ((e st).1, (e st).2) = e st from rfl, Equiv.symm_apply_apply]
    rw [hsame]
    rfl
  rw [heq]
  exact .bind (.aside fun x => (x, x)) hf

theorem adjust (f : ρ → ρ) : Through e reads writes
    (modifyGet fun st => (PUnit.unit, e.symm ((e st).1, f (e st).2)) : Routine σ PUnit) :=
  .aside fun x => (PUnit.unit, f x)

theorem forIn {γ : Type} (xs : List γ) (init : β) {f : γ → β → Routine σ (ForInStep β)}
    (hf : ∀ x acc, Through e reads writes (f x acc)) :
    Through e reads writes (ForIn.forIn xs init f) := by
  induction xs generalizing init with
  | nil =>
    rw [List.forIn_nil]
    exact .pure _
  | cons x xs ih =>
    rw [List.forIn_cons]
    refine (hf x init).bind fun step => ?_
    cases step with
    | done acc => exact .pure _
    | yield acc => exact ih acc

/-- A routine that goes through a frame keeps to the frame's uses, whatever the rest of its state. -/
theorem obeys {U : Set BufferUse} (hreads : ∀ s ∈ reads, .read s ∈ U)
    (hwrites : ∀ s ∈ writes, .write s ∈ U) {r : Routine σ β} (h : Through e reads writes r) (x : ρ) :
    Arena.Obeys U (r.beside e x) := by
  induction h generalizing x with
  | pure y =>
    rw [beside_pure]
    exact .pure U _
  | throw fault =>
    rw [beside_throw]
    exact .pure U _
  | bind _ _ ihr ihf =>
    rw [funext (beside_bind e x _ _)]
    refine (ihr x).bind fun y => ?_
    obtain ⟨x, fault | z⟩ := y
    · exact .pure U _
    · exact ihf z x
  | @read s hs =>
    have hnamed : ∃ u ∈ U, u.slice.index = s.index :=
      hs.elim (fun hs => ⟨_, hreads s hs, rfl⟩) fun hs => ⟨_, hwrites s hs, rfl⟩
    obtain ⟨u, hu, hindex⟩ := hnamed
    rw [beside_read]
    exact (Arena.Obeys.read hu hindex).map fun r => (x, r.mapError Fault.error)
  | @modify s hs f hf =>
    rw [beside_modify]
    exact (Arena.Obeys.modify (hwrites s hs) hf).map fun o => (x, o.mapError Fault.error)
  | aside f =>
    rw [beside_aside]
    exact .pure U _

end Through

end Routine

/-! ### Kernels -/

def Kernel.parts : Arena ≃ Arena × Unit := (Equiv.prodPUnit Arena).symm

/-- A kernel touches buffers only through its frame. -/
def Kernel.Framed (k : Kernel) : Prop :=
  ∀ f, (k f).Through Kernel.parts f.arguments f.results

namespace KernelFrame

open Routine (Through)

variable (f : KernelFrame) {β : Type}

theorem through_argument (i : Nat) : Through Kernel.parts f.arguments f.results (f.argument i) :=
  .borrow (fun _ => .inl) i _

theorem through_argumentByte (i k : Nat) :
    Through Kernel.parts f.arguments f.results (f.argumentByte i k) :=
  (f.through_argument i).bind fun bytes => .byteAt bytes k

theorem through_result_bind (i : Nat) {g : Slice → Routine Arena β}
    (hg : ∀ s ∈ f.results, Through Kernel.parts f.arguments f.results (g s)) :
    Through Kernel.parts f.arguments f.results (f.result i >>= g) :=
  .takeThen (fun _ => .inr) i _ hg

theorem through_result (i : Nat) : Through Kernel.parts f.arguments f.results (f.result i) := by
  rw [← bind_pure (f.result i)]
  exact f.through_result_bind i fun s _ => .pure s

theorem through_updateByte (i k : Nat) (g : UInt8 → UInt8) :
    Through Kernel.parts f.arguments f.results (f.updateByte i k g) :=
  f.through_result_bind i fun s hs => .readThen (.inr hs) fun bytes =>
    (Through.byteAt bytes k).bind fun b => .modify hs fun bytes hlen => by simpa using hlen

theorem through_setByte (i k : Nat) (b : UInt8) :
    Through Kernel.parts f.arguments f.results (f.setByte i k b) := f.through_updateByte i k _

theorem through_setResult (i : Nat) (bytes : Bytes) :
    Through Kernel.parts f.arguments f.results (f.setResult i bytes) :=
  f.through_result_bind i fun s hs => by
    split
    · exact .fail _
    · next hlen => exact .write hs (not_not.1 hlen)

end KernelFrame

/-- The sample kernels touch buffers only through their frames. -/
theorem Kernel.framed_builtin : ∀ entry ∈ builtin.entries, Kernel.Framed entry.2 := by
  simp only [builtin, List.forall_mem_cons, List.not_mem_nil, false_imp_iff, implies_true, and_true]
  refine ⟨fun f => ?_, fun f => ?_, fun f => ?_, fun f => ?_, fun f => ?_, fun f => ?_, fun f => ?_,
    fun f => ?_, fun f => ?_, fun f => ?_, fun f => ?_, fun f => ?_, fun f => ?_, fun f => ?_,
    fun f => ?_, fun f => ?_, fun f => ?_⟩
  · exact (f.through_argumentByte 0 0).bind fun b => f.through_setByte 0 0 _
  · exact (f.through_argumentByte 0 0).bind fun b => f.through_setByte 0 0 _
  · exact f.through_updateByte 0 0 _
  · exact (f.through_argumentByte 0 0).bind fun a => (f.through_argumentByte 1 0).bind fun b =>
      f.through_setByte 0 0 _
  · exact (f.through_argumentByte 0 0).bind fun a => f.through_setResult 0 _
  · refine .bind (.forIn _ _ fun i total => ?_) fun total => .bind (.forIn _ _ fun i u => ?_) ?_
    · exact (f.through_argumentByte i 0).bind fun b => .pure _
    · exact (f.through_setByte i 0 _).bind fun u => .pure _
    · exact fun u => .pure _
  · exact (f.through_argumentByte 0 _).bind fun b => f.through_setByte 0 _ _
  · exact f.through_setByte 0 _ _
  · exact f.through_updateByte 0 0 _
  · exact .fail _
  · exact .fail _
  · refine (f.through_argumentByte 0 0).bind fun b => ?_
    split
    · exact .fail _
    · exact f.through_updateByte 0 0 _
  · exact .panic _
  · dsimp only
    split
    · exact .panic _
    · exact f.through_updateByte 0 0 _
  · exact (f.through_argument _).bind fun b => .pure _
  · exact (f.through_result _).bind fun s => .pure _
  · exact .fail _

/-! ### Handlers -/

def CallState.parts : CallState ≃ Arena × Option Allocator where
  toFun s := (s.arena, s.allocator)
  invFun x := ⟨x.1, x.2⟩
  left_inv _ := rfl
  right_inv _ := rfl

/-- A handler touches buffers only through its frame. -/
def Handler.Framed (h : Handler) : Prop :=
  ∀ f, (h f).Through CallState.parts f.operands f.results

namespace CallFrame

open Routine (Through)

variable (f : CallFrame) {β : Type}

theorem store_eq (m : Arena → Except Error Arena) : (do
      let st ← get
      let arena ← Routine.lift (m st.arena)
      modify fun st => { st with arena } : Routine CallState PUnit) = (do
      let st ← get
      let a ← Routine.lift (m (CallState.parts st).1)
      set (CallState.parts.symm (a, (CallState.parts st).2))) := by
  funext st
  change (Routine.lift (m st.arena) >>= fun arena => modify fun st => { st with arena } :
      Routine CallState PUnit) st =
    (Routine.lift (m st.arena) >>= fun a => set (CallState.parts.symm (a, st.allocator))) st
  cases m st.arena <;> rfl

theorem through_operand (i : Nat) : Through CallState.parts f.operands f.results (f.operand i) :=
  .borrow (fun _ => .inl) i _

theorem through_result_bind (i : Nat) {g : Slice → Routine CallState β}
    (hg : ∀ s ∈ f.results, Through CallState.parts f.operands f.results (g s)) :
    Through CallState.parts f.operands f.results (f.result i >>= g) :=
  .takeThen (fun _ => .inr) i _ hg

theorem through_result (i : Nat) : Through CallState.parts f.operands f.results (f.result i) := by
  rw [← bind_pure (f.result i)]
  exact f.through_result_bind i fun s _ => .pure s

theorem through_setResult (i : Nat) (bytes : Bytes) :
    Through CallState.parts f.operands f.results (f.setResult i bytes) :=
  f.through_result_bind i fun s hs => by
    split
    · exact .fail _
    · next hlen =>
      rw [store_eq fun a => a.write s bytes]
      exact .write hs (not_not.1 hlen)

theorem through_setFirstByte (i : Nat) (b : UInt8) :
    Through CallState.parts f.operands f.results (f.setFirstByte i b) :=
  f.through_result_bind i fun s hs => .readThen (.inr hs) fun bytes =>
    (Through.byteAt bytes 0).bind fun _ => by
      rw [store_eq fun a => a.modify s fun bytes => bytes.set 0 b]
      exact .modify hs fun bytes hlen => by simpa using hlen

/-- Memory from this allocator, if there is one. -/
def allocateFrom (f : CallFrame) (size : Nat) : Option Allocator → Routine CallState Memory
  | none => Routine.fail (.configuration "no allocator")
  | some a => do
    modify fun st => { st with allocator := some (a.allocate f.ordinal size).1 }
    match (a.allocate f.ordinal size).2 with
    | .ok m => return m
    | .error fault => throw fault

theorem through_allocate (size : Nat) :
    Through CallState.parts f.operands f.results (f.allocate size) := by
  refine Through.look (e := CallState.parts) (f := f.allocateFrom size) fun allocator => ?_
  cases allocator with
  | none => exact .fail _
  | some a =>
    refine (Through.adjust fun _ => some (a.allocate f.ordinal size).1).bind fun _ => ?_
    split
    · exact .pure _
    · exact .throw _

end CallFrame

/-- The sample handlers touch buffers only through their frames. -/
theorem Handler.framed_builtin : ∀ entry ∈ builtin.entries, Handler.Framed entry.2 := by
  simp only [builtin, List.forall_mem_cons, List.not_mem_nil, false_imp_iff, implies_true, and_true]
  refine ⟨fun f => ?_, fun f => ?_, fun f => ?_, fun f => ?_, fun f => ?_, fun f => ?_, fun f => ?_,
    fun f => ?_, fun f => ?_, fun f => ?_, fun f => ?_, fun f => ?_, fun f => ?_, fun f => ?_,
    fun f => ?_, fun f => ?_, fun f => ?_⟩
  · exact .pure _
  · dsimp only
    split
    · exact .fail _
    · exact (Routine.Through.lift _).bind fun factor => (f.through_operand 0).bind fun bytes =>
        f.through_setResult 0 _
  · exact f.through_setResult 0 _
  · dsimp only
    split
    · exact .fail _
    · exact f.through_setResult 0 _
  · refine (f.through_operand 0).bind fun bytes => (Routine.Through.byteAt bytes 0).bind fun size =>
      (f.through_allocate _).bind fun m => ?_
    split
    · exact (Routine.Through.adjust (Option.map (·.release m))).bind fun _ =>
        f.through_setFirstByte 0 size
    · exact f.through_setFirstByte 0 size
  · exact f.through_setResult 0 _
  · exact f.through_setResult 0 _
  · exact f.through_setResult 0 _
  · exact (f.through_operand _).bind fun bytes => .pure _
  · exact (f.through_result _).bind fun s => .pure _
  · exact .fail _
  · exact .fail _
  · exact .fail _
  · exact .fail _
  · exact .fail _
  · exact .fail _
  · exact .panic _

end OpFlow
