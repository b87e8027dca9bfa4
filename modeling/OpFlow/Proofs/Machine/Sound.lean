import OpFlow.Proofs.Machine.Signs

/-!
Every run of a crew is in order: it has not begun, it is empty, it takes its operations one after
the other, or it goes by its graph; and while a scheduled run goes on, every thread that has
something to do for it still holds it.
-/
namespace OpFlow.Machine

variable {α σ ι : Type}

namespace RunView

/-- A run that has not begun; its start may be about to be done. -/
structure Idle (V : RunView α) : Prop where
  regions : V.regions = []
  run : V.run = none
  progress : ∀ j, V.progress j = none
  start : V.count .start ≤ 1
  count : ∀ y, y ≠ .start → V.count y = 0

/-- A run of an empty region, which ends as soon as it has begun. -/
structure Empty (V : RunView α) (region : Program α) : Prop where
  regions : V.regions = [region]
  empty : region.ops = []
  run : V.run = none
  progress : ∀ j, V.progress j = none
  start : V.count .start = 0
  started : V.count .started = 1
  closing : V.count (.closing (.ok ())) + V.count (.resolved (.ok ())) = 1
  count : ∀ y, y ≠ .started → y ≠ .closing (.ok ()) → y ≠ .resolved (.ok ()) → V.count y = 0

end RunView

def Item.minds (r : RunKey) : Item α ι → Prop
  | .visit r' _ | .submit r' _ | .settleRun r' _ => r' = r
  | .call c | .returned c => c.run = r
  | .start _ _ | .release _ | .settle _ _ | .iterate _ | .iterated _ | .effect _ => False

/-- What a thread does for a run comes before it lets go of the run. -/
def Covered (r : RunKey) : List (Item α ι) → Prop
  | [] => True
  | item :: rest => (item.minds r → .release r ∈ rest) ∧ Covered r rest

theorem Item.sign_of_minds {r : RunKey} {item : Item α ι} (h : item.minds r) :
    ∃ x, item.sign = some (r, x) := by
  cases item <;> simp_all [Item.minds, Item.sign]

def Sign.isToDo : Sign → Bool
  | .closing _ | .node _ .turn | .node _ .call | .node _ .returned => true
  | _ => false

theorem Item.minds_of_sign {r : RunKey} {item : Item α ι} {x : Sign} (h : item.sign = some (r, x))
    (hx : x.isToDo) : item.minds r := by
  cases item <;> simp only [Item.sign, Option.some.injEq, Prod.mk.injEq, reduceCtorEq] at h <;>
    obtain ⟨rfl, rfl⟩ := h <;> first | rfl | cases hx

theorem Task.sign_ne {r : RunKey} {t : Task ι} {x : Sign} (hx : x.isToDo) :
    t.sign ≠ some (r, x) := by
  rintro h
  cases t <;> simp only [Task.sign, Option.some.injEq, Prod.mk.injEq, reduceCtorEq] at h
  obtain ⟨rfl, rfl⟩ := h
  cases hx

theorem Event.sign_ne {r : RunKey} {e : Event} {x : Sign} (hx : x.isToDo) :
    e.sign ≠ some (r, x) := by
  rintro h
  cases e <;> simp only [Event.sign, Option.some.injEq, Prod.mk.injEq, reduceCtorEq] at h <;>
    obtain ⟨rfl, rfl⟩ := h <;> cases hx

theorem covered_append {r : RunKey} {items rest : List (Item α ι)}
    (h : ∀ item ∈ items, item.minds r → .release r ∈ rest) (hrest : Covered r rest) :
    Covered r (items ++ rest) := by
  induction items with
  | nil => exact hrest
  | cons item items ih =>
    refine ⟨fun hm => ?_, ih fun x hx => h x (List.mem_cons_of_mem _ hx)⟩
    exact List.mem_append_right _ (h item List.mem_cons_self hm)

theorem covered_of_not_minds {r : RunKey} {items : List (Item α ι)}
    (h : ∀ item ∈ items, ¬ item.minds r) : Covered r items := by
  have hnil : Covered r (items ++ []) :=
    covered_append (fun item hi hm => absurd hm (h item hi)) trivial
  rwa [List.append_nil] at hnil

theorem Covered.release_mem {r : RunKey} {items : List (Item α ι)} (h : Covered r items)
    {item : Item α ι} (hi : item ∈ items) (hm : item.minds r) : .release r ∈ items := by
  induction items with
  | nil => cases hi
  | cons x xs ih =>
    rcases List.mem_cons.1 hi with rfl | hi
    · exact List.mem_cons_of_mem _ (h.1 hm)
    · exact List.mem_cons_of_mem _ (ih h.2 hi)

theorem not_minds_of_signsOf {r : RunKey} {items : List (Item α ι)}
    (h : signsOf r (threadSigns items) = []) : ∀ item ∈ items, ¬ item.minds r := by
  intro item hi hm
  obtain ⟨x, hx⟩ := Item.sign_of_minds hm
  have hmem : x ∈ signsOf r (threadSigns items) := by
    rw [signsOf, List.mem_filterMap]
    exact ⟨(r, x), List.mem_filterMap.2 ⟨item, hi, hx⟩, by simp⟩
  rw [h] at hmem
  cases hmem

namespace Crew

variable [Leaf α]

/-- A run of a crew is in order. -/
inductive RunSound (s : Crew α σ ι) (r : RunKey) : Prop
  | idle (h : (s.view r).Idle)
  | empty {region : Program α} (h : (s.view r).Empty region)
  | ordered {region : Program α} {st : Nat → NodeState} {fin : Option Outcome}
    (h : (s.view r).Ordered region st fin)
  | scheduled {region : Program α} {st : Nat → NodeState} {t : Schedule} {holders : Nat}
    {fin : Option Outcome} (h : (s.view r).Scheduled region st t holders fin)
    (hc : fin = none ∨ t.isComplete → ∀ items ∈ s.threads, Covered r items)

/-- A run has begun, or is about to. -/
def HasBegun (s : Crew α σ ι) (r : RunKey) : Prop :=
  0 < (s.view r).count .start + (s.view r).count .started

/-- All runs of a crew are in order, those that have begun belong to an execution, and the nested
runs of a call begin after it and have the numbers that it has given away. -/
structure Sound (s : Crew α σ ι) : Prop where
  run : ∀ r, s.RunSound r
  known : ∀ r, s.HasBegun r → s.world.Knows r
  fresh : ∀ c n, s.HasBegun (c.nested n) → 0 < (s.view c.run).marks c.node .launched ∧
    ∀ p l, s.world.call? c = some ⟨p, some l⟩ → n < l.started

variable {s : Crew α σ ι} {r : RunKey} {i : Nat} {item : Item α ι} {rest items : List (Item α ι)}
  {tasks : List (Task ι)} {w : World α σ ι} {run : RunKey → Option (Run α)}
  {call : CallKey → Option Call}

theorem RunSound.frame {s' : Crew α σ ι} (h : s.RunSound r) (hview : s'.view r = s.view r)
    (hcovered : (∀ items ∈ s.threads, Covered r items) → ∀ items ∈ s'.threads, Covered r items) :
    s'.RunSound r := by
  cases h with
  | idle h => exact .idle (hview ▸ h)
  | empty h => exact .empty (hview ▸ h)
  | ordered h => exact .ordered (hview ▸ h)
  | scheduled h hc => exact .scheduled (hview ▸ h) fun hopen => hcovered (hc hopen)

omit [Leaf α] in
theorem mem_threads (hi : s.threads[i]? = some (item :: rest)) : item :: rest ∈ s.threads :=
  List.mem_of_getElem? hi

omit [Leaf α] in
theorem covered_after (hw : Covered r w.agenda)
    (h : ∀ items ∈ s.threads, Covered r items) :
    ∀ items ∈ (s.after i item w).threads, Covered r items := fun items hmem => by
  rcases List.mem_or_eq_of_mem_set hmem with hmem | rfl
  · exact h items hmem
  · exact hw

omit [Leaf α] in
theorem covered_of_minds (hi : s.threads[i]? = some (item :: rest))
    (h : (s.seenBy rest).Became w items tasks run call) (hm : item.minds r)
    (hall : ∀ items ∈ s.threads, Covered r items) :
    ∀ items ∈ (s.after i item w).threads, Covered r items := by
  have hitem := hall _ (mem_threads hi)
  refine covered_after ?_ hall
  rw [h.agenda]
  exact covered_append (fun _ _ _ => hitem.1 hm) hitem.2

/-- A thread does something that does not concern a run. -/
theorem RunSound.other (hs : s.RunSound r) (hi : s.threads[i]? = some (item :: rest))
    (h : (s.seenBy rest).Became w items tasks run call) (hbegins : ∀ x ∈ item.begins, x.1 ≠ r)
    (hout : signsOf r item.sign.toList = [])
    (hinn : signsOf r (signsIn items tasks (s.world.noted item)) = [])
    (hrun : run r = s.world.run? r)
    (hcall : ∀ node, (call ⟨r, node⟩).map Call.progress =
      (s.world.call? ⟨r, node⟩).map Call.progress) : (s.after i item w).RunSound r := by
  refine hs.frame (view_eq_of_moves ?_ ?_ ?_) fun hall => ?_
  · have hm := moves_after hi h hbegins
    rwa [hout, hinn] at hm
  · exact (run_view_after h r).trans hrun
  · exact fun node => (progress_view_after h r node).trans (hcall node)
  · refine covered_after ?_ hall
    rw [h.agenda]
    refine covered_append (fun x hx hm => absurd hm (not_minds_of_signsOf ?_ x hx))
      (hall _ (mem_threads hi)).2
    simp only [signsIn, signsOf_append, List.append_eq_nil_iff] at hinn
    exact hinn.1.1

omit [Leaf α] in
theorem count_pos_of_head (hi : s.threads[i]? = some (item :: rest)) {x : Sign}
    (hx : item.sign = some (r, x)) : 0 < (s.view r).count x := by
  rw [count_view, List.count_pos_iff, signs]
  refine List.mem_append_left _ (List.mem_append_left _ (List.mem_flatMap.2 ⟨_, mem_threads hi, ?_⟩))
  exact List.mem_filterMap.2 ⟨item, List.mem_cons_self, hx⟩

end Crew

end OpFlow.Machine
