import OpFlow.Proofs.Machine.Steps

/-!
What a crew shows of each of its runs: the items on all threads, the tasks in all queues and the
events of the log each give at most one sign of one run, and every move takes away and brings the
signs of the items, tasks and events that it takes away and brings.
-/
namespace OpFlow.Machine

variable {α σ ι : Type}

def Item.sign : Item α ι → Option (RunKey × Sign)
  | .start r _ => some (r, .start)
  | .visit r node | .submit r node => some (r, .node node .turn)
  | .release r => some (r, .hold)
  | .call c => some (c.run, .node c.node .call)
  | .returned c => some (c.run, .node c.node .returned)
  | .settleRun r o => some (r, .closing o)
  | .settle _ _ | .iterate _ | .iterated _ | .effect _ => none

theorem CallKey.nested_ne (c : CallKey) (n : Nat) : c.nested n ≠ c.run := fun h => by
  have : (c.nested n).scope.length = c.run.scope.length := congrArg (fun r => r.scope.length) h
  simp [CallKey.nested] at this

def Item.owner : Item α ι → Option RunKey
  | .start r _ | .visit r _ | .submit r _ | .release r | .settleRun r _ => some r
  | .call c | .returned c | .settle c _ | .iterate c | .iterated c | .effect (.settle c _) => some c.run
  | .effect (.work _) | .effect (.submit _ _) => none

def Task.sign : Task ι → Option (RunKey × Sign)
  | .visit r node => some (r, .node node .queued)
  | .work _ => none

def Event.sign : Event → Option (RunKey × Sign)
  | .started r => some (r, .started)
  | .launched c => some (c.run, .node c.node .launched)
  | .skipped c => some (c.run, .node c.node .skipped)
  | .dropped c => some (c.run, .node c.node .dropped)
  | .ended c o => some (c.run, .node c.node (.ended o))
  | .resolved r o => some (r, .resolved o)
  | .turned _ _ => none

def signsOf (r : RunKey) (signs : List (RunKey × Sign)) : List Sign :=
  signs.filterMap fun y => if y.1 = r then some y.2 else none

@[simp] theorem signsOf_nil (r : RunKey) : signsOf r [] = [] := rfl

@[simp] theorem signsOf_append (r : RunKey) (xs ys : List (RunKey × Sign)) :
    signsOf r (xs ++ ys) = signsOf r xs ++ signsOf r ys := List.filterMap_append

@[simp] theorem signsOf_cons (r : RunKey) (x : RunKey × Sign) (xs : List (RunKey × Sign)) :
    signsOf r (x :: xs) = if x.1 = r then x.2 :: signsOf r xs else signsOf r xs := by
  simp only [signsOf, List.filterMap_cons]
  split <;> simp_all

@[simp] theorem signsOf_toList_some (r : RunKey) (x : RunKey × Sign) :
    signsOf r (some x).toList = if x.1 = r then [x.2] else [] := by
  simp [Option.toList]

@[simp] theorem signsOf_toList_none (r : RunKey) : signsOf r (none : Option _).toList = [] := rfl

theorem signsOf_eq_nil {r r' : RunKey} {signs : List (RunKey × Sign)} (h : ∀ y ∈ signs, y.1 = r)
    (hne : r' ≠ r) : signsOf r' signs = [] := by
  rw [signsOf, List.filterMap_eq_nil_iff]
  exact fun y hy => if_neg (by rw [h y hy]; exact hne.symm)

theorem count_signsOf (r : RunKey) (signs : List (RunKey × Sign)) (x : Sign) :
    (signsOf r signs).count x = signs.count (r, x) := by
  induction signs with
  | nil => rfl
  | cons y ys ih =>
    obtain ⟨r', x'⟩ := y
    simp only [signsOf_cons, List.count_cons]
    by_cases hr : r' = r
    · simp [hr, List.count_cons, ih]
    · simp [hr, ih]

theorem count_flatMap_set {β γ : Type} [BEq γ] (f : β → List γ) {xs : List β} {i : Nat}
    {y : β} (hy : xs[i]? = some y) (z : β) (x : γ) :
    ((xs.set i z).flatMap f).count x + (f y).count x =
      (xs.flatMap f).count x + (f z).count x := by
  induction xs generalizing i with
  | nil => simp at hy
  | cons u us ih =>
    cases i with
    | zero =>
      obtain rfl : u = y := by simpa using hy
      simp
      omega
    | succ i =>
      have := ih (i := i) (by simpa using hy)
      simp only [List.set_cons_succ, List.flatMap_cons, List.count_append]
      omega

def threadSigns (items : List (Item α ι)) : List (RunKey × Sign) := items.filterMap Item.sign

@[simp] theorem threadSigns_nil : threadSigns ([] : List (Item α ι)) = [] := rfl

@[simp] theorem threadSigns_cons (item : Item α ι) (items : List (Item α ι)) :
    threadSigns (item :: items) = item.sign.toList ++ threadSigns items := by
  simp only [threadSigns, List.filterMap_cons]
  cases item.sign <;> rfl

@[simp] theorem threadSigns_append (xs ys : List (Item α ι)) :
    threadSigns (xs ++ ys) = threadSigns xs ++ threadSigns ys := List.filterMap_append

@[simp] theorem signsOf_submit (r : RunKey) (nodes : List Nat) :
    signsOf r (threadSigns (nodes.map (Item.submit r : Nat → Item α ι))) =
      nodes.map fun k => Sign.node k .turn := by
  induction nodes with
  | nil => rfl
  | cons k ks ih => simpa [Item.sign] using ih

theorem owner_of_sign {item : Item α ι} {y : RunKey × Sign} (h : y ∈ item.sign.toList) :
    item.owner = some y.1 := by
  cases item <;> simp_all [Item.sign, Item.owner]

theorem owner_of_begins {item : Item α ι} {x : RunKey × Program α} (h : x ∈ item.begins) :
    item.owner = some x.1 := by
  cases item <;> simp_all [Item.begins, Item.owner]

theorem owner_of_noted {w : World α σ ι} {item : Item α ι} {y : RunKey × Sign}
    (h : y ∈ (w.noted item).filterMap Event.sign) : item.owner = some y.1 := by
  cases item with
  | effect e =>
    cases e with
    | settle c o =>
      simp only [World.noted] at h
      split at h <;> simp_all [Event.sign, Item.owner]
    | work | submit => simp [World.noted] at h
  | visit | submit | call | returned | settle | iterate =>
    simp only [World.noted] at h
    repeat' split at h
    all_goals simp_all [Event.sign, Item.owner]
  | _ => simp_all [World.noted, Event.sign, Item.owner]

namespace Crew

def signs (s : Crew α σ ι) : List (RunKey × Sign) :=
  s.threads.flatMap threadSigns ++ s.world.kept.filterMap Task.sign ++ s.log.filterMap Event.sign

/-- What a crew shows of a run. -/
def view (s : Crew α σ ι) (r : RunKey) : RunView α where
  concurrent := (s.world.runnerOf? r.host).isSome
  run := s.world.run? r
  regions := s.begun.filterMap fun x => if x.1 = r then some x.2 else none
  progress := fun node => (s.world.call? ⟨r, node⟩).map Call.progress
  count := fun x => s.signs.count (r, x)

theorem count_view (s : Crew α σ ι) (r : RunKey) (x : Sign) :
    (s.view r).count x = s.signs.count (r, x) := rfl

variable {s : Crew α σ ι} {i : Nat} {item : Item α ι} {rest items : List (Item α ι)}
  {tasks : List (Task ι)} {w : World α σ ι} {run : RunKey → Option (Run α)}
  {call : CallKey → Option Call}

def signsIn (items : List (Item α ι)) (tasks : List (Task ι)) (events : List Event) :
    List (RunKey × Sign) :=
  threadSigns items ++ tasks.filterMap Task.sign ++ events.filterMap Event.sign

theorem count_signs_after (hi : s.threads[i]? = some (item :: rest))
    (h : (s.seenBy rest).Became w items tasks run call) (x : RunKey × Sign) :
    (s.after i item w).signs.count x + item.sign.toList.count x =
      s.signs.count x + (signsIn items tasks (s.world.noted item)).count x := by
  have hthreads := count_flatMap_set threadSigns hi w.agenda x
  have hkept : (w.kept.filterMap Task.sign).count x =
      ((tasks ++ s.world.kept).filterMap Task.sign).count x := (h.kept.filterMap _).count_eq x
  have hitem : (threadSigns (item :: rest)).count x =
      item.sign.toList.count x + (threadSigns rest).count x := by
    rw [threadSigns_cons, List.count_append]
  have hagenda : threadSigns w.agenda = threadSigns items ++ threadSigns rest := by
    rw [h.agenda, threadSigns_append]
    rfl
  have hworld : ({ w with agenda := [] } : World α σ ι).kept = w.kept := rfl
  rw [hagenda] at hthreads
  simp only [signs, after, signsIn, hworld, List.filterMap_append, List.count_append] at *
  omega

/-- The view of a run after a thread has done an item. -/
theorem moves_after (hi : s.threads[i]? = some (item :: rest))
    (h : (s.seenBy rest).Became w items tasks run call) {r : RunKey}
    (hbegins : ∀ x ∈ item.begins, x.1 ≠ r) :
    (s.view r).Moves ((s.after i item w).view r) (signsOf r item.sign.toList)
      (signsOf r (signsIn items tasks (s.world.noted item))) where
  concurrent := by
    have : ({ w with agenda := [] } : World α σ ι).runnerOf? = s.world.runnerOf? := h.runner
    simp only [view, after, this]
  regions := by
    have hnone : item.begins.filterMap (fun x => if x.1 = r then some x.2 else none) = [] := by
      rw [List.filterMap_eq_nil_iff]
      exact fun x hx => if_neg (hbegins x hx)
    simp [view, after, hnone]
  count := fun x => by
    simp only [count_signsOf, count_view]
    exact count_signs_after hi h (r, x)

theorem run_view_after (h : (s.seenBy rest).Became w items tasks run call) (r : RunKey) :
    ((s.after i item w).view r).run = run r := congrFun h.run r

theorem progress_view_after (h : (s.seenBy rest).Became w items tasks run call) (r : RunKey)
    (node : Nat) :
    ((s.after i item w).view r).progress node = (call ⟨r, node⟩).map Call.progress :=
  congrArg (Option.map Call.progress) (congrFun h.call ⟨r, node⟩)

theorem progress_view_update {c : CallKey} {y : Option Call}
    (h : (s.seenBy rest).Became w items tasks run (Function.update s.world.call? c y))
    (r : RunKey) (node : Nat) :
    ((s.after i item w).view r).progress node =
      if c = ⟨r, node⟩ then y.map Call.progress else (s.view r).progress node := by
  rw [progress_view_after h, Function.update_apply]
  by_cases hc : c = ⟨r, node⟩
  · simp [hc]
  · rw [if_neg fun h => hc h.symm, if_neg hc]
    rfl

theorem view_eq_of_moves {s' : Crew α σ ι} {r : RunKey}
    (hm : (s.view r).Moves (s'.view r) [] []) (hrun : s'.world.run? r = s.world.run? r)
    (hcall : ∀ node, (s'.world.call? ⟨r, node⟩).map Call.progress =
      (s.world.call? ⟨r, node⟩).map Call.progress) : s'.view r = s.view r := by
  have hcount : (s'.view r).count = (s.view r).count := funext fun x => by simpa using hm.count x
  have hconcurrent := hm.concurrent
  have hregions := hm.regions
  simp only [view] at hcount hconcurrent hregions ⊢
  simp only [hcount, hconcurrent, hregions, hrun, RunView.mk.injEq, true_and, and_true]
  exact funext hcall

theorem count_signs_spawn (s : Crew α σ ι) (agenda : List (Item α ι)) (x : RunKey × Sign) :
    (s.spawn agenda).signs.count x = s.signs.count x + (threadSigns agenda).count x := by
  simp only [signs, spawn, List.flatMap_append, List.flatMap_singleton, List.count_append]
  omega

end Crew

end OpFlow.Machine
