import OpFlow.Proofs.Async.Progress
import OpFlow.Async.Session

/-!
A network that is used by one thread at a time. What it does is what a crew does of which one thread
works until it has nothing left to do, so what holds of crews holds of it after every request.
-/
namespace OpFlow

namespace Cells

variable {α κ κ' : Type}

def mapWaiters (f : κ → κ') (cs : Cells α κ) : Cells α κ' :=
  cs.map fun cell => ⟨cell.result, cell.waiters.map f⟩

variable (f : κ → κ') (cs : Cells α κ)

@[simp] theorem size_mapWaiters : (cs.mapWaiters f).size = cs.size := Array.size_map

@[simp] theorem result?_mapWaiters (c : Nat) : (cs.mapWaiters f).result? c = cs.result? c := by
  simp only [result?, mapWaiters, Array.getElem?_map]
  cases cs[c]? <;> rfl

@[simp] theorem isSettled_mapWaiters (c : Nat) : (cs.mapWaiters f).isSettled c = cs.isSettled c := by
  rw [isSettled, result?_mapWaiters, isSettled]

theorem mapWaiters_add (r : Option (Except Error α)) :
    (cs.add r).mapWaiters f = (cs.mapWaiters f).add r := by
  simp [mapWaiters, add]

theorem mapWaiters_register (c : Nat) (w : κ) :
    (cs.register c w).mapWaiters f = (cs.mapWaiters f).register c (f w) := by
  refine Array.ext_getElem? fun i => ?_
  simp only [mapWaiters, register, Array.getElem?_map, Array.getElem?_modify]
  split
  · cases cs[i]? <;> simp
  · rfl

theorem mapWaiters_settle (c : Nat) (r : Except Error α) : (cs.mapWaiters f).settle c r =
    ((cs.settle c r).1.mapWaiters f, (cs.settle c r).2.map f) := by
  unfold settle
  simp only [mapWaiters, Array.getElem?_map]
  rcases cs[c]? with _ | ⟨_ | _, _⟩ <;> simp

theorem allWaiters_mapWaiters : (cs.mapWaiters f).allWaiters = cs.allWaiters.map f := by
  simp [allWaiters, mapWaiters, List.flatMap_map, List.map_flatMap]

end Cells

namespace Async

variable {α : Type}

def NetworkOf.plain (n : NetworkOf α (Ticketed α)) : Network α :=
  { n with cells := n.cells.mapWaiters Prod.snd }

def Turn.plain (turn : Turn α (Ticketed α)) : Turn α (Job α) :=
  { network := turn.network.plain, woken := turn.woken.map Prod.snd, next := turn.next }

namespace NetworkOf

variable (n : NetworkOf α (Ticketed α)) (t : Nat)

theorem result?_plain : n.plain.cells.result? = n.cells.result? :=
  funext fun _ => Cells.result?_mapWaiters ..

theorem size_plain : n.plain.cells.size = n.cells.size := Cells.size_mapWaiters ..

theorem withCell_plain (r : Option (Result α)) : n.plain.withCell r = (n.withCell r).plain := by
  simp only [withCell, plain, Cells.mapWaiters_add]

theorem joined_plain : n.plain.joined = n.joined := by
  have herror : n.plain.errorOf = n.errorOf := funext fun c => by
    rw [errorOf, errorOf, result?_plain]
  funext inputs
  rw [joined, joined, herror]

theorem settleCell_plain (c : Nat) (r : Result α) :
    n.plain.settleCell c r = (n.settleCell c r).plain := by
  simp only [settleCell, plain, Turn.plain, Cells.mapWaiters_settle]

theorem attach_plain (c : Nat) (k : Job α) :
    n.plain.attach id c k = (n.attach (Prod.mk t) c k).plain := by
  have hsettled : n.plain.cells.isSettled c = n.cells.isSettled c := Cells.isSettled_mapWaiters ..
  unfold attach
  rw [hsettled]
  split
  · rfl
  · simp only [plain, Turn.plain, Cells.mapWaiters_register]
    rfl

theorem derive_plain (c : Nat) (f : Content α → Result α) :
    n.plain.derive c f = (n.derive c f).plain := by
  simp only [derive, result?_plain, size_plain, withCell_plain]
  cases n.cells.result? c <;> rfl

theorem join_plain (inputs : List Nat) : n.plain.join inputs = (n.join inputs).plain := by
  have hsettled : n.plain.cells.isSettled = n.cells.isSettled :=
    funext fun _ => Cells.isSettled_mapWaiters ..
  simp only [join, hsettled, joined_plain, size_plain, withCell_plain]
  split
  · cases n.joined inputs <;> rfl
  · rfl

theorem cellOf?_plain : n.plain.cellOf? = n.cellOf? := funext fun source => by cases source <;> rfl

/-- What becomes of a handle does not depend on how registrations are kept. -/
theorem act_plain (a : Action α) : n.plain.act id a = (n.act (Prod.mk t) a).plain := by
  have hhandles : n.plain.handles = n.handles := rfl
  have hevents : n.plain.eventHandles = n.eventHandles := rfl
  have hpromised : n.plain.promised? = n.promised? := rfl
  cases a with
  | note | all => rfl
  | promise | settled =>
    simp only [act, withCell_plain, size_plain]
    rfl
  | share h =>
    simp only [act, hhandles]
    cases n.handles[h]? <;> rfl
  | derive source f =>
    simp only [act, cellOf?_plain, derive_plain]
    cases n.cellOf? source <;> rfl
  | join sources =>
    simp only [act, cellOf?_plain, join_plain]
    cases sources.mapM n.cellOf? <;> rfl
  | settle h r =>
    simp only [act, hpromised]
    cases n.promised? h with
    | none => rfl
    | some c => exact settleCell_plain { n with promises := n.promises.erase h } c (r.map .value)
  | follow h next =>
    simp only [act, hhandles, n.attach_plain t]
    cases n.handles[h]? <;> rfl
  | followEvent h next =>
    simp only [act, hevents, n.attach_plain t]
    cases n.eventHandles[h]? <;> rfl

theorem step_plain (j : Job α) : n.plain.step id j = (n.step (Prod.mk t) j).plain := by
  cases j with
  | act a => exact n.act_plain t a
  | attach c k => exact n.attach_plain t c k
  | derive source target f =>
    simp only [step, result?_plain, settleCell_plain]
    cases n.cells.result? source <;> rfl
  | countDown j =>
    have hjoins : n.plain.joins = n.joins := rfl
    simp only [step, hjoins]
    cases n.joins[j]? <;> rfl
  | complete inputs target => simp only [step, joined_plain, settleCell_plain]

end NetworkOf

namespace Crew

open NetworkOf

variable {s : Crew α} {i : Nat}

def jobs (s : Crew α) (i : Nat) : List (Job α) := (s.agenda i).filterMap Piece.job?

theorem runs_jobs (hs : s.Sound) : ∀ k ∈ s.jobs i, s.network.Runs k := fun k hk => by
  obtain ⟨p, hp, hk⟩ := List.mem_filterMap.1 hk
  exact hs.placed.runs k (List.mem_filterMap.2 ⟨p, mem_pieces hp, hk⟩)

/-- A thread that works alone does what a network does of itself, and comes to an end in time. -/
theorem runFor_plain (hs : s.Sound) (i fuel : Nat) (hfuel : sizes (s.network.work (s.jobs i)) ≤ fuel) :
    ∃ s', Leads s s' ∧ s'.agenda i = [] ∧ (∀ k, k ≠ i → s'.agenda k = s.agenda k) ∧
      s'.network.plain = Network.runFor fuel s.network.plain (s.jobs i) := by
  induction hload : s.load using Nat.strongRecOn generalizing s fuel with
  | ind load ih =>
    subst hload
    cases hagenda : s.agenda i with
    | nil =>
      refine ⟨s, .refl, hagenda, fun _ _ => rfl, ?_⟩
      rw [jobs, hagenda]
      cases fuel <;> rfl
    | cons p rest =>
      obtain ⟨s₁, hact⟩ : ∃ s₁, s.act? i = some s₁ := by
        rw [act?, hagenda]
        exact ⟨_, rfl⟩
      obtain ⟨q, rest', others, hacted⟩ := acted hact
      obtain ⟨rfl, rfl⟩ := List.cons.inj (hacted.before.symm.trans hagenda)
      have hs₁ := hs.act hact
      have hload := load_act hs hact
      -- the thread goes on in the same way with the fuel that is left
      have hgo : ∀ fuel', sizes (s₁.network.work (s₁.jobs i)) ≤ fuel' →
          Network.runFor fuel' s₁.network.plain (s₁.jobs i) =
            Network.runFor fuel s.network.plain (s.jobs i) →
          ∃ s', Leads s s' ∧ s'.agenda i = [] ∧ (∀ k, k ≠ i → s'.agenda k = s.agenda k) ∧
            s'.network.plain = Network.runFor fuel s.network.plain (s.jobs i) :=
        fun fuel' hfuel' hrun => by
          obtain ⟨s', hl, hnil, helse, hplain⟩ := ih s₁.load hload hs₁ fuel' hfuel' rfl
          exact ⟨s', .head (.act hact) hl, hnil,
            fun k hk => (helse k hk).trans (hacted.elsewhere k hk), hplain.trans hrun⟩
      cases q with
      | waiter w =>
        have hjobs : s₁.jobs i = s.jobs i := by
          rw [jobs, hacted.after, jobs, hacted.before]
          rfl
        have hnetwork : s₁.network = s.network := hacted.network
        exact hgo fuel (by rwa [hnetwork, hjobs]) (by rw [hnetwork, hjobs])
      | back c =>
        have hjobs : s₁.jobs i = s.jobs i := by
          rw [jobs, hacted.after, jobs, hacted.before]
          rfl
        have hnetwork : s₁.network = s.network := hacted.network
        exact hgo fuel (by rwa [hnetwork, hjobs]) (by rw [hnetwork, hjobs])
      | job j =>
        have hjobs : s.jobs i = j :: rest'.filterMap Piece.job? := by
          rw [jobs, hacted.before]
          rfl
        have hjobs₁ : s₁.jobs i = (s.network.step (Prod.mk s.log.length) j).free
            (rest'.filterMap Piece.job?) := by
          rw [jobs, hacted.after, List.filterMap_append, filterMap_begun, Turn.free]
        have hlt := (deed (n := s.network) (Prod.mk s.log.length) s.log.length j).sizes_lt
          (hs.placed.todo (hjobs ▸ runs_jobs hs))
        rw [hjobs] at hfuel
        obtain ⟨m, rfl⟩ : ∃ m, fuel = m + 1 := ⟨fuel - 1, by omega⟩
        refine hgo m ?_ ?_
        · rw [hacted.network, hjobs₁]
          exact Nat.le_of_lt_succ (Nat.lt_of_lt_of_le hlt hfuel)
        · rw [hacted.network, hjobs₁, hjobs, Network.runFor, s.network.step_plain s.log.length]
          rfl

/-- Whatever is done to a network by itself is done by a thread of a crew. -/
theorem perform_plain (hs : s.Reachable) (hidle : s.Idle) (a : Action α) :
    ∃ s', Leads s s' ∧ s'.Idle ∧ s'.network.plain = s.network.plain.perform a := by
  have henter : Leads s (s.enter a) := .single (.enter a)
  have hjobs : (s.enter a).jobs s.threads.length = [.act a] := by
    rw [jobs, agenda_enter, if_pos rfl]
    rfl
  have hfuel : sizes ((s.enter a).network.work ((s.enter a).jobs s.threads.length)) =
      s.network.plain.waiting + sizes [.act a] := by
    have hwaiting : s.network.plain.waiting = sizes (s.network.cells.allWaiters.map Prod.snd) := by
      rw [← Cells.allWaiters_mapWaiters]
      rfl
    rw [hjobs, work, sizes_append, hwaiting]
    exact Nat.add_comm ..
  obtain ⟨s', hl, hnil, hrest, hplain⟩ :=
    runFor_plain (hs.leads henter).sound s.threads.length _ (Nat.le_of_eq hfuel)
  refine ⟨s', henter.trans hl, fun k => ?_, hplain.trans ?_⟩
  · by_cases hk : k = s.threads.length
    · exact hk ▸ hnil
    · exact (hrest k hk).trans ((s.agenda_enter a k).trans ((if_neg hk).trans (hidle k)))
  · rw [hjobs]
    rfl

theorem answer_cases (n : Network Int) (request : Request) :
    (answer n request).1 = n ∨ ∃ a, (answer n request).1 = n.perform a := by
  cases request with
  | promise | ready | failed | share | map | atLeast | join | joinEvents | happened | followEvent
  | perform => exact .inr ⟨_, rfl⟩
  | same | sameEvent | wait | state | describe | describeEvent => exact .inl rfl
  | describePromise h =>
    simp only [answer]
    split <;> exact .inl rfl

/-- After every request of a dialogue the network is that of a crew at rest. -/
theorem session_plain (requests : List Request) : ∃ s : Crew Int, s.Reachable ∧ s.Idle ∧
    s.network.plain = requests.foldl (fun n request => (answer n request).1) {} := by
  have hrun : ∀ (s : Crew Int), s.Reachable → s.Idle → ∃ s' : Crew Int, s'.Reachable ∧ s'.Idle ∧
      s'.network.plain = requests.foldl (fun n request => (answer n request).1) s.network.plain := by
    induction requests with
    | nil => exact fun s hs hidle => ⟨s, hs, hidle, rfl⟩
    | cons request requests ih =>
      intro s hs hidle
      rw [List.foldl_cons]
      rcases answer_cases s.network.plain request with heq | ⟨a, heq⟩
      · rw [heq]
        exact ih s hs hidle
      · obtain ⟨s', hl, hidle', hplain⟩ := perform_plain hs hidle a
        rw [heq, ← hplain]
        exact ih s' (hs.leads hl) hidle'
  have hempty : ({} : Crew Int).network.plain = {} := by simp [plain, Cells.mapWaiters]
  exact hempty ▸ hrun {} .refl fun i => rfl

end Crew

end Async

end OpFlow
