import OpFlow.Machine
import Mathlib.Logic.Function.Iterate

/-!
A crew: threads that share a world. Each thread has an agenda of its own, and a move lets one thread
do its first item, lets a thread take any queued task, loses a queued task, lets something happen
outside, or starts another execution. So the runs of a crew are all interleavings of the items that
the machine works off, for every order of tasks and of events. What happens is noted in a log.
-/
namespace OpFlow

instance : DecidableEq Outcome
  | .ok (), .ok () => isTrue rfl
  | .error e, .error e' =>
    if h : e = e' then isTrue (h ▸ rfl) else isFalse fun he => h (Except.error.inj he)
  | .ok (), .error _ => isFalse nofun
  | .error _, .ok () => isFalse nofun

def Runner.isClosed {τ : Type} : Runner τ → Bool
  | pool p => p.closed
  | inline | lab _ => false

/-- A runner gives one of the tasks it keeps, in whatever order it pleases. -/
def Runner.Gives {τ : Type} (r : Runner τ) (t : τ) (rest : Runner τ) : Prop :=
  r.queued.Perm (t :: rest.queued) ∧ rest.isClosed = r.isClosed

namespace Machine

variable {α σ ι : Type}

/-- What is noted of a run. -/
inductive Event
  | started (run : RunKey)
  /-- An operation was called. -/
  | launched (call : CallKey)
  /-- A poisoned node was passed over. -/
  | skipped (call : CallKey)
  /-- The task of a node was lost. -/
  | dropped (call : CallKey)
  /-- The event of an operation has resolved, and its run has gone on. -/
  | ended (call : CallKey) (outcome : Outcome)
  /-- A loop has asked for a nested run of that number. -/
  | turned (call : CallKey) (number : Nat)
  /-- The event of a run has resolved. -/
  | resolved (run : RunKey) (outcome : Outcome)
  deriving DecidableEq

/-- What a world notes when it does an item. -/
def World.noted (w : World α σ ι) : Item α ι → List Event
  | .start r _ => [.started r]
  | .visit r node =>
    match w.run? r with
    | some ⟨_, .scheduled s _⟩ => if s.isPoisoned node then [.skipped ⟨r, node⟩] else []
    | _ => []
  | .submit r node =>
    match w.offer ((w.runnerOf? r.host).getD w.runners.size) (.visit r node) with
    | .dropped => [.dropped ⟨r, node⟩]
    | .now | .kept _ => []
  | .call c => if (w.operation? c).isSome then [.launched c] else []
  | .returned c =>
    match w.call? c with
    | some ⟨.settled o, _⟩ => [.ended c o]
    | _ => []
  | .settle c o | .effect (.settle c o) =>
    match w.call? c with
    | some ⟨.awaited, _⟩ => [.ended c o]
    | _ => []
  | .settleRun r o => [.resolved r o]
  | .iterate c =>
    match w.call? c with
    | some ⟨_, some l⟩ => [.turned c l.started]
    | _ => []
  | .release _ | .iterated _ | .effect (.work _) | .effect (.submit _ _) => []

def Item.begins : Item α ι → List (RunKey × Program α)
  | .start r region => [(r, region)]
  | _ => []

/-- A world in which nothing has been executed yet. -/
structure World.IsFresh (w : World α σ ι) : Prop where
  agenda : w.agenda = []
  executions : ∀ h ∈ w.hosts, h.executions = #[]
  queued : ∀ r ∈ w.runners, r.queued = []

/-- Threads that share a world, whose own agenda is not used. -/
structure Crew (α σ ι : Type) where
  world : World α σ ι
  threads : List (List (Item α ι)) := []
  log : List Event := []
  /-- All runs so far, with their regions. -/
  begun : List (RunKey × Program α) := []

namespace Crew

def seenBy (s : Crew α σ ι) (agenda : List (Item α ι)) : World α σ ι := { s.world with agenda }

/-- The crew after its thread `i`, whose first item was `item`, has changed the world to `w`. -/
def after (s : Crew α σ ι) (i : Nat) (item : Item α ι) (w : World α σ ι) : Crew α σ ι where
  world := { w with agenda := [] }
  threads := s.threads.set i w.agenda
  log := s.log ++ s.world.noted item
  begun := s.begun ++ item.begins

def spawn (s : Crew α σ ι) (agenda : List (Item α ι)) : Crew α σ ι :=
  { s with threads := s.threads ++ [agenda] }

def lose (b : Backend α σ ι) (s : Crew α σ ι) : Task ι → Crew α σ ι
  | .visit r node => { s.spawn [.release r] with log := s.log ++ [.dropped ⟨r, node⟩] }
  | .work i =>
    let (device, effects) := b.discard i s.world.device
    { s with world := { s.world with device } }.spawn (effects.map .effect)

/-- What may happen next. -/
inductive Choice (σ ι : Type)
  /-- A thread does its first item. -/
  | act (thread : Nat)
  /-- A new thread does a task that a runner gives. -/
  | take (runner : Nat) (task : Task ι) (rest : Runner (Task ι))
  /-- A runner loses a task. -/
  | drop (runner : Nat) (task : Task ι) (rest : Runner (Task ι))
  /-- The device changes by itself, and a new thread does what follows. -/
  | outside (change : σ → σ × List (Effect ι))
  /-- A new thread starts an execution of a host's program. -/
  | execute (host : Nat)

/-- One move of a crew. -/
inductive Move [Leaf α] (b : Backend α σ ι) : Choice σ ι → Crew α σ ι → Crew α σ ι → Prop
  | act {s : Crew α σ ι} {i : Nat} {item : Item α ι} {rest : List (Item α ι)}
      {w : World α σ ι} (hi : s.threads[i]? = some (item :: rest))
      (hw : (s.seenBy (item :: rest)).step? b = some w) : Move b (.act i) s (s.after i item w)
  | take {s : Crew α σ ι} {k : Nat} {r rest : Runner (Task ι)} {t : Task ι}
      (hk : s.world.runners[k]? = some r) (hr : r.Gives t rest) :
      Move b (.take k t rest) s
        ({ s with world := s.world.setRunner k rest }.spawn (World.tasks t))
  | drop {s : Crew α σ ι} {k : Nat} {r rest : Runner (Task ι)} {t : Task ι}
      (hk : s.world.runners[k]? = some r) (hr : r.Gives t rest) :
      Move b (.drop k t rest) s (lose b { s with world := s.world.setRunner k rest } t)
  | outside {s : Crew α σ ι} (change : σ → σ × List (Effect ι)) :
      Move b (.outside change) s
        ({ s with world := { s.world with device := (change s.world.device).1 } }.spawn
          ((change s.world.device).2.map .effect))
  | execute {s : Crew α σ ι} {k : Nat} {h : Host α} (hk : s.world.hosts[k]? = some h) :
      Move b (.execute k) s
        ({ s with world := s.world.modifyHost k fun h =>
            { h with executions := h.executions.push {} } }.spawn
          [.start ⟨k, h.executions.size, []⟩ h.program])

/-- A crew that some choices lead to from a world in which nothing has been executed yet. -/
inductive Reachable [Leaf α] (b : Backend α σ ι) : Crew α σ ι → Prop
  | fresh {w : World α σ ι} (h : w.IsFresh) : Reachable b { world := w }
  | move {s t : Crew α σ ι} {c : Choice σ ι} (hs : Reachable b s) (hm : Move b c s t) :
      Reachable b t

section Act

variable [Leaf α] {b : Backend α σ ι} {s : Crew α σ ι}

def act (b : Backend α σ ι) (i : Nat) (s : Crew α σ ι) : Crew α σ ι :=
  match s.threads[i]? with
  | some (item :: rest) => ((s.seenBy (item :: rest)).step? b).elim s (s.after i item)
  | _ => s

/-- The crew after a new thread has come that starts an execution of a host's program. -/
def execute (k : Nat) (s : Crew α σ ι) : Crew α σ ι :=
  match s.world.hosts[k]? with
  | some h =>
    { s with world := s.world.modifyHost k fun h =>
        { h with executions := h.executions.push {} } }.spawn
      [.start ⟨k, h.executions.size, []⟩ h.program]
  | none => s

theorem act_eq {i : Nat} {item : Item α ι} {rest : List (Item α ι)} {w : World α σ ι}
    (hi : s.threads[i]? = some (item :: rest)) (hw : (s.seenBy (item :: rest)).step? b = some w) :
    s.act b i = s.after i item w := by
  simp only [act, hi, hw, Option.elim_some]

theorem act_cases (b : Backend α σ ι) (s : Crew α σ ι) (i : Nat) :
    s.act b i = s ∨ Move b (.act i) s (s.act b i) := by
  cases hi : s.threads[i]? with
  | none => exact .inl (by simp only [act, hi])
  | some items =>
    cases items with
    | nil => exact .inl (by simp only [act, hi])
    | cons item rest =>
      obtain ⟨w, hw⟩ : ∃ w, (s.seenBy (item :: rest)).step? b = some w := ⟨_, rfl⟩
      exact .inr (act_eq hi hw ▸ .act hi hw)

theorem Reachable.act (h : Reachable b s) (i : Nat) : Reachable b (s.act b i) := by
  rcases act_cases b s i with heq | hm
  · rwa [heq]
  · exact h.move hm

theorem Reachable.acts (h : Reachable b s) (i n : Nat) :
    Reachable b ((Crew.act b i)^[n] s) := by
  induction n generalizing s with
  | zero => exact h
  | succ n ih => exact ih (h.act i)

theorem Reachable.execute (h : Reachable b s) (k : Nat) : Reachable b (s.execute k) := by
  unfold Crew.execute
  split
  case h_1 hk => exact h.move (.execute hk)
  case h_2 => exact h

end Act

end Crew

/-- A backend whose operations do nothing and end at once, as `f` says. -/
def Backend.ending (f : CallKey → Outcome) : Backend α Unit ι where
  launch c _ _ _ := ((), .ok [.settle c (f c)])
  perform _ _ := ((), [], none)
  discard _ _ := ((), [])
  read _ _ _ := .ok []

end Machine

end OpFlow
