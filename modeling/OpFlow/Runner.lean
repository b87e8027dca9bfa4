import OpFlow.Runner.Lab
import OpFlow.Runner.Pool

/-!
Runners: whatever takes tasks to run them, at once or later. A runner that accepts a task either has
it run now or keeps it; a closed pool drops every task it is offered.
-/
namespace OpFlow

inductive Runner (τ : Type)
  /-- Runs every task at once. -/
  | inline
  /-- Runs a task when it is told to, in an order that its seed determines. -/
  | lab (lab : Lab τ)
  /-- Runs tasks in the order in which they come. -/
  | pool (pool : WorkerPool τ)
  deriving Inhabited

/-- What becomes of a task that is offered to a runner. -/
inductive Offer (τ : Type)
  | now
  | kept (runner : Runner τ)
  | dropped

namespace Runner

variable {τ : Type}

def offer (r : Runner τ) (t : τ) : Offer τ :=
  match r with
  | inline => .now
  | lab l => .kept (lab (l.submit t))
  | pool p =>
    match p.submit? t with
    | some p => .kept (pool p)
    | none => .dropped

def next? : Runner τ → Option (τ × Runner τ)
  | pool p => p.take?.map fun (t, p) => (t, pool p)
  | inline | lab _ => none

def returned : Runner τ → Runner τ
  | pool p => pool p.returned
  | lab l => lab l.returned
  | inline => inline

def queued : Runner τ → List τ
  | inline => []
  | lab l => l.queue.toList
  | pool p => p.queue

theorem queued_offer {r r' : Runner τ} {t : τ} (h : r.offer t = .kept r') :
    r'.queued = r.queued ++ [t] := by
  cases r with
  | inline => simp [offer] at h
  | lab l => simp only [offer, Offer.kept.injEq] at h; subst h; simp [queued, Lab.submit]
  | pool p =>
    simp only [offer, WorkerPool.submit?] at h
    split at h
    · rename_i q hq
      simp only [Offer.kept.injEq] at h
      split at hq
      · simp at hq
      · simp only [Option.some.injEq] at hq
        subst h hq
        rfl
    · simp at h

end Runner

end OpFlow
