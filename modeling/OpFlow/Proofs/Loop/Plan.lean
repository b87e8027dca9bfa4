import OpFlow.Operation

/-!
What a loop is to do: the nested runs it starts, in which order, what it reads between them, and with
what it ends. A plan is a whole history of a loop, told by iterations. The same is told step by step
by the phases of a loop, and every history that leads to a phase is the beginning of a plan.
-/
namespace OpFlow

/-- What happens to a loop. -/
inductive LoopEvent (α : Type)
  | started (number : Nat) (region : Program α)
  | ended (number : Nat) (outcome : Outcome)
  /-- The predicate was read. -/
  | read (result : Except Error Bytes)
  | settled (outcome : Outcome)

variable {α : Type} {condition body : Program α} {trips : Option Nat} {i n : Nat}
  {t : List (LoopEvent α)} {o : Outcome} {e : Error} {bytes : Bytes}

def holds (bytes : Bytes) : Bool := bytes.head?.any (· != 0)

def countedRounds (body : Program α) (n : Nat) : List (LoopEvent α) :=
  (List.range n).flatMap fun i => [.started i body, .ended i (.ok ())]

def testedRounds (condition body : Program α) (reads : List Bytes) : List (LoopEvent α) :=
  reads.zipIdx.flatMap fun (bytes, i) =>
    [.started (2 * i) condition, .ended (2 * i) (.ok ()), .read (.ok bytes),
      .started (2 * i + 1) body, .ended (2 * i + 1) (.ok ())]

/-- All that a loop may do until it is settled, and with what. A loop with a trip count turns its body
so many times, unless one fails; any other turns condition and body until the predicate does not
hold, unless one of them or the read fails. -/
inductive LoopPlan (condition body : Program α) :
    Option Nat → List (LoopEvent α) → Outcome → Prop
  | counted {n : Nat} : LoopPlan condition body (some n) (countedRounds body n) (.ok ())
  | failedTurn {n k : Nat} {e : Error} (hk : k < n) : LoopPlan condition body (some n)
      (countedRounds body k ++ [.started k body, .ended k (.error e)]) (.error e)
  | tested {reads : List Bytes} {bytes : Bytes} (hreads : ∀ x ∈ reads, holds x)
      (hbytes : holds bytes = false) : LoopPlan condition body none
      (testedRounds condition body reads ++ [.started (2 * reads.length) condition,
        .ended (2 * reads.length) (.ok ()), .read (.ok bytes)]) (.ok ())
  | failedCondition {reads : List Bytes} {e : Error} (hreads : ∀ x ∈ reads, holds x) :
    LoopPlan condition body none
      (testedRounds condition body reads ++ [.started (2 * reads.length) condition,
        .ended (2 * reads.length) (.error e)]) (.error e)
  | failedRead {reads : List Bytes} {e : Error} (hreads : ∀ x ∈ reads, holds x) :
    LoopPlan condition body none
      (testedRounds condition body reads ++ [.started (2 * reads.length) condition,
        .ended (2 * reads.length) (.ok ()), .read (.error e)]) (.error e)
  | failedBody {reads : List Bytes} {bytes : Bytes} {e : Error} (hreads : ∀ x ∈ reads, holds x)
      (hbytes : holds bytes) : LoopPlan condition body none
      (testedRounds condition body reads ++ [.started (2 * reads.length) condition,
        .ended (2 * reads.length) (.ok ()), .read (.ok bytes),
        .started (2 * reads.length + 1) body, .ended (2 * reads.length + 1) (.error e)]) (.error e)

theorem countedRounds_succ (body : Program α) (n : Nat) : countedRounds body (n + 1) =
    countedRounds body n ++ [.started n body, .ended n (.ok ())] := by
  simp [countedRounds, List.range_succ]

theorem testedRounds_append (condition body : Program α) (reads : List Bytes) (bytes : Bytes) :
    testedRounds condition body (reads ++ [bytes]) = testedRounds condition body reads ++
      [.started (2 * reads.length) condition, .ended (2 * reads.length) (.ok ()),
        .read (.ok bytes), .started (2 * reads.length + 1) body,
        .ended (2 * reads.length + 1) (.ok ())] := by
  simp [testedRounds, List.zipIdx_append]

/-- Where a loop is. -/
inductive LoopPhase
  /-- It is to start its next nested run, or to end. -/
  | between (iteration : Nat) (inBody : Bool)
  /-- A nested run goes on. -/
  | inside (iteration : Nat) (inBody : Bool)
  /-- Its condition has ended, and the predicate is to be read. -/
  | testing (iteration : Nat)
  | ending (outcome : Outcome)
  | finished (outcome : Outcome)

def loopNumber (trips : Option Nat) (iteration : Nat) (inBody : Bool) : Nat :=
  if trips.isSome then iteration else 2 * iteration + inBody.toNat

/-- What leads a loop to a phase. -/
inductive LoopPath (condition body : Program α) (trips : Option Nat) :
    LoopPhase → List (LoopEvent α) → Prop
  | fresh : LoopPath condition body trips (.between 0 false) []
  | start {i : Nat} {inBody : Bool} {t : List (LoopEvent α)}
      (h : LoopPath condition body trips (.between i inBody) t)
      (hgo : inBody = false → trips.any (· ≤ i) = false) :
    LoopPath condition body trips (.inside i (inBody || trips.isSome))
      (t ++ [.started (loopNumber trips i inBody)
        (if inBody || trips.isSome then body else condition)])
  | finished {i : Nat} {t : List (LoopEvent α)}
      (h : LoopPath condition body trips (.between i false) t) (hall : trips.any (· ≤ i) = true) :
    LoopPath condition body trips (.ending (.ok ())) t
  | failed {i : Nat} {inBody : Bool} {t : List (LoopEvent α)} {e : Error}
      (h : LoopPath condition body trips (.inside i inBody) t) :
    LoopPath condition body trips (.ending (.error e))
      (t ++ [.ended (loopNumber trips i inBody) (.error e)])
  | turned {i : Nat} {t : List (LoopEvent α)}
      (h : LoopPath condition body trips (.inside i true) t) :
    LoopPath condition body trips (.between (i + 1) false)
      (t ++ [.ended (loopNumber trips i true) (.ok ())])
  | came {i : Nat} {t : List (LoopEvent α)}
      (h : LoopPath condition body trips (.inside i false) t) :
    LoopPath condition body trips (.testing i) (t ++ [.ended (loopNumber trips i false) (.ok ())])
  | again {i : Nat} {t : List (LoopEvent α)} {bytes : Bytes}
      (h : LoopPath condition body trips (.testing i) t) (hbytes : holds bytes = true) :
    LoopPath condition body trips (.between i true) (t ++ [.read (.ok bytes)])
  | enough {i : Nat} {t : List (LoopEvent α)} {bytes : Bytes}
      (h : LoopPath condition body trips (.testing i) t) (hbytes : holds bytes = false) :
    LoopPath condition body trips (.ending (.ok ())) (t ++ [.read (.ok bytes)])
  | unread {i : Nat} {t : List (LoopEvent α)} {e : Error}
      (h : LoopPath condition body trips (.testing i) t) :
    LoopPath condition body trips (.ending (.error e)) (t ++ [.read (.error e)])
  | settled {t : List (LoopEvent α)} {o : Outcome}
      (h : LoopPath condition body trips (.ending o) t) :
    LoopPath condition body trips (.finished o) (t ++ [.settled o])

namespace LoopPath

theorem trips_eq_none (h : LoopPath condition body trips (.inside i false) t) : trips = none := by
  generalize hphase : LoopPhase.inside i false = phase at h
  cases h with
  | start h hgo =>
    have hin := (LoopPhase.inside.inj hphase).2
    clear hgo
    exact (by simpa using hin.symm : _ ∧ trips = none).2
  | _ => cases hphase

/-- What has happened to a loop with a trip count that is at a phase. -/
def Counted (condition body : Program α) (n : Nat) (t : List (LoopEvent α)) : LoopPhase → Prop
  | .between i inBody => inBody = false ∧ i ≤ n ∧ t = countedRounds body i
  | .inside i inBody => inBody = true ∧ i < n ∧ t = countedRounds body i ++ [.started i body]
  | .testing _ => False
  | .ending o => LoopPlan condition body (some n) t o
  | .finished o => ∃ t', LoopPlan condition body (some n) t' o ∧ t = t' ++ [.settled o]

theorem counted {phase : LoopPhase} (h : LoopPath condition body (some n) phase t) :
    Counted condition body n t phase := by
  induction h with
  | fresh => exact ⟨rfl, Nat.zero_le n, rfl⟩
  | @start i inBody t h hgo ih =>
    obtain ⟨rfl, -, rfl⟩ := ih
    have hlt : i < n := by simpa using hgo rfl
    exact ⟨rfl, hlt, by simp [loopNumber]⟩
  | @finished i t h hall ih =>
    obtain ⟨-, hle, rfl⟩ := ih
    have hge : n ≤ i := by simpa using hall
    obtain rfl := Nat.le_antisymm hge hle
    exact .counted
  | @failed i inBody t e h ih =>
    obtain ⟨rfl, hlt, rfl⟩ := ih
    simpa [Counted, loopNumber] using LoopPlan.failedTurn hlt
  | @turned i t h ih =>
    obtain ⟨-, hlt, rfl⟩ := ih
    exact ⟨rfl, hlt, by simp [loopNumber, countedRounds_succ]⟩
  | came h ih => cases ih.1
  | again _ _ ih | enough _ _ ih | unread _ ih => exact ih.elim
  | settled h ih => exact ⟨_, ih, rfl⟩

def conditionDone (condition : Program α) (i : Nat) : List (LoopEvent α) :=
  [.started (2 * i) condition, .ended (2 * i) (.ok ())]

/-- What has happened to a loop without a trip count that is at a phase. -/
def Tested (condition body : Program α) (t : List (LoopEvent α)) : LoopPhase → Prop
  | .between i false => ∃ reads, (∀ x ∈ reads, holds x) ∧ reads.length = i ∧
      t = testedRounds condition body reads
  | .between i true => ∃ reads bytes, (∀ x ∈ reads, holds x) ∧ reads.length = i ∧ holds bytes ∧
      t = testedRounds condition body reads ++ (conditionDone condition i ++ [.read (.ok bytes)])
  | .inside i false => ∃ reads, (∀ x ∈ reads, holds x) ∧ reads.length = i ∧
      t = testedRounds condition body reads ++ [.started (2 * i) condition]
  | .inside i true => ∃ reads bytes, (∀ x ∈ reads, holds x) ∧ reads.length = i ∧ holds bytes ∧
      t = testedRounds condition body reads ++
        (conditionDone condition i ++ [.read (.ok bytes), .started (2 * i + 1) body])
  | .testing i => ∃ reads, (∀ x ∈ reads, holds x) ∧ reads.length = i ∧
      t = testedRounds condition body reads ++ conditionDone condition i
  | .ending o => LoopPlan condition body none t o
  | .finished o => ∃ t', LoopPlan condition body none t' o ∧ t = t' ++ [.settled o]

theorem tested {phase : LoopPhase} (h : LoopPath condition body none phase t) :
    Tested condition body t phase := by
  induction h with
  | fresh => exact ⟨[], by simp, rfl, rfl⟩
  | @start i inBody t h hgo ih =>
    cases inBody with
    | false =>
      obtain ⟨reads, hreads, rfl, rfl⟩ := ih
      exact ⟨reads, hreads, rfl, by simp [loopNumber]⟩
    | true =>
      obtain ⟨reads, bytes, hreads, rfl, hbytes, rfl⟩ := ih
      exact ⟨reads, bytes, hreads, rfl, hbytes, by simp [loopNumber]⟩
  | finished h hall => simp at hall
  | @failed i inBody t e h ih =>
    cases inBody with
    | false =>
      obtain ⟨reads, hreads, rfl, rfl⟩ := ih
      simpa [Tested, loopNumber] using LoopPlan.failedCondition hreads
    | true =>
      obtain ⟨reads, bytes, hreads, rfl, hbytes, rfl⟩ := ih
      simpa [Tested, loopNumber, conditionDone] using LoopPlan.failedBody hreads hbytes
  | @turned i t h ih =>
    obtain ⟨reads, bytes, hreads, rfl, hbytes, rfl⟩ := ih
    refine ⟨reads ++ [bytes], ?_, by simp, ?_⟩
    · simpa [or_imp, forall_and] using ⟨hreads, hbytes⟩
    · simp [loopNumber, conditionDone, testedRounds_append]
  | @came i t h ih =>
    obtain ⟨reads, hreads, rfl, rfl⟩ := ih
    exact ⟨reads, hreads, rfl, by simp [loopNumber, conditionDone]⟩
  | @again i t bytes h hbytes ih =>
    obtain ⟨reads, hreads, rfl, rfl⟩ := ih
    exact ⟨reads, bytes, hreads, rfl, hbytes, by simp⟩
  | @enough i t bytes h hbytes ih =>
    obtain ⟨reads, hreads, rfl, rfl⟩ := ih
    simpa [Tested, conditionDone] using LoopPlan.tested hreads hbytes
  | @unread i t e h ih =>
    obtain ⟨reads, hreads, rfl, rfl⟩ := ih
    simpa [Tested, conditionDone] using LoopPlan.failedRead hreads
  | settled h ih => exact ⟨_, ih, rfl⟩

theorem planned_of_finished (h : LoopPath condition body trips (.finished o) t) :
    ∃ t', LoopPlan condition body trips t' o ∧ t = t' ++ [.settled o] := by
  cases trips with
  | none => exact h.tested
  | some n => exact h.counted

/-- Whatever happens to a loop is the beginning of a plan. -/
theorem planned {phase : LoopPhase} (h : LoopPath condition body trips phase t) :
    ∃ t' o, LoopPlan condition body trips t' o ∧ t <+: t' ++ [.settled o] := by
  have hwhole : ∀ {t₁} (t₂ : List (LoopEvent α)) {o}, LoopPlan condition body trips (t₁ ++ t₂) o →
      ∃ t' o, LoopPlan condition body trips t' o ∧ t₁ <+: t' ++ [.settled o] := fun {_} _ {_} h =>
    ⟨_, _, h, by simp⟩
  -- a run that is to go on may fail, so what has happened begins a plan that ends with a failure
  let e : Error := .promiseDropped
  cases trips with
  | some n =>
    have hcounted := h.counted
    cases phase with
    | between i inBody =>
      obtain ⟨-, hle, rfl⟩ := hcounted
      rcases Nat.lt_or_eq_of_le hle with hlt | rfl
      · exact hwhole _ (.failedTurn (e := e) hlt)
      · exact ⟨_, _, .counted, by simp⟩
    | inside i inBody =>
      obtain ⟨-, hlt, rfl⟩ := hcounted
      exact hwhole [.ended i (.error e)] (by simpa using .failedTurn hlt)
    | testing i => exact hcounted.elim
    | ending o => exact ⟨t, o, hcounted, by simp⟩
    | finished o =>
      obtain ⟨t', hplan, rfl⟩ := hcounted
      exact ⟨t', o, hplan, by simp⟩
  | none =>
    have htested := h.tested
    cases phase with
    | between i inBody =>
      cases inBody with
      | false =>
        obtain ⟨reads, hreads, rfl, rfl⟩ := htested
        exact hwhole _ (.failedRead (e := e) hreads)
      | true =>
        obtain ⟨reads, bytes, hreads, rfl, hbytes, rfl⟩ := htested
        exact hwhole [.started (2 * reads.length + 1) body,
          .ended (2 * reads.length + 1) (.error e)]
          (by simpa [conditionDone] using .failedBody hreads hbytes)
    | inside i inBody =>
      cases inBody with
      | false =>
        obtain ⟨reads, hreads, rfl, rfl⟩ := htested
        exact hwhole [.ended (2 * reads.length) (.error e)]
          (by simpa using .failedCondition hreads)
      | true =>
        obtain ⟨reads, bytes, hreads, rfl, hbytes, rfl⟩ := htested
        exact hwhole [.ended (2 * reads.length + 1) (.error e)]
          (by simpa [conditionDone] using .failedBody hreads hbytes)
    | testing i =>
      obtain ⟨reads, hreads, rfl, rfl⟩ := htested
      exact hwhole [.read (.error e)] (by simpa [conditionDone] using .failedRead hreads)
    | ending o => exact ⟨t, o, htested, by simp⟩
    | finished o =>
      obtain ⟨t', hplan, rfl⟩ := htested
      exact ⟨t', o, hplan, by simp⟩

theorem settled_mem_iff {phase : LoopPhase} (h : LoopPath condition body trips phase t) :
    .settled o ∈ t ↔ phase = .finished o := by
  induction h with
  | settled h ih => simp [ih, eq_comm]
  | _ => simp_all

end LoopPath

end OpFlow
