import OpFlow.Proofs.Machine.Steps

/-!
What the machine does by itself. Executing, scheduling, awaiting and settling leave the device alone,
and they neither carry out what the backend has asked for nor ask for more.
-/
namespace OpFlow.Machine

variable {α σ ι : Type}

/-- What the backend has asked for with an item. That a call ends is the same as an item and as an
effect. -/
def Item.effect? : Item α ι → Option (Effect ι)
  | .settle c o => some (.settle c o)
  | .effect e => some e
  | .start _ _ | .visit _ _ | .submit _ _ | .release _ | .call _ | .returned _ | .settleRun _ _
  | .iterate _ | .iterated _ => none

def Task.effect? : Task ι → Option (Effect ι)
  | .work i => some (.work i)
  | .visit _ _ => none

namespace World

/-- The machine has gone on by itself. -/
structure Inner (w w' : World α σ ι) : Prop where
  device : w'.device = w.device
  agenda : ∃ items, w'.agenda = items ++ w.agenda ∧ ∀ x ∈ items, x.effect? = none
  kept : (w'.kept.filterMap Task.effect?).Perm (w.kept.filterMap Task.effect?)

namespace Inner

variable {w w' : World α σ ι}

theorem refl (w : World α σ ι) : w.Inner w := ⟨rfl, ⟨[], rfl, by simp⟩, .refl _⟩

theorem of_eq (h : w.Inner w') {u : World α σ ι} (hdevice : u.device = w'.device)
    (hrunners : u.runners = w'.runners) (hagenda : u.agenda = w'.agenda) : w.Inner u := by
  have hkept : u.kept = w'.kept := by rw [World.kept, World.kept, hrunners]
  exact ⟨hdevice.trans h.device, hagenda ▸ h.agenda, hkept ▸ h.kept⟩

theorem push (h : w.Inner w') {items : List (Item α ι)} (hitems : ∀ x ∈ items, x.effect? = none) :
    w.Inner (w'.push items) := by
  obtain ⟨before, hbefore, hnone⟩ := h.agenda
  refine ⟨h.device, ⟨items ++ before, by simp [hbefore], fun x hx => ?_⟩, h.kept⟩
  rcases List.mem_append.1 hx with hx | hx
  · exact hitems x hx
  · exact hnone x hx

theorem count (h : w.Inner w') (r : RunKey) (f : Stats → Stats) : w.Inner (w'.count r f) :=
  h.of_eq (device_count w' r f) (runners_count w' r f) (agenda_count w' r f)

theorem setRun (h : w.Inner w') (r : RunKey) (x : Run α) : w.Inner (w'.setRun r x) :=
  h.of_eq rfl rfl rfl

theorem setCall (h : w.Inner w') (c : CallKey) (y : Call) : w.Inner (w'.setCall c y) :=
  h.of_eq rfl rfl rfl

theorem eraseCall (h : w.Inner w') (c : CallKey) : w.Inner (w'.eraseCall c) := h.of_eq rfl rfl rfl

theorem keep (h : w.Inner w') {k : Nat} {q q' : Runner (Task ι)} {r : RunKey} {node : Nat}
    (hk : w'.runners[k]? = some q) (hq : q.offer (.visit r node) = .kept q') :
    w.Inner (w'.setRunner k q') := by
  refine ⟨h.device, h.agenda, ?_⟩
  have hkept := (((Became.refl w').keep hk hq).kept.filterMap Task.effect?)
  exact hkept.trans h.kept

theorem completeNode (h : w.Inner w') (r : RunKey) (region : Program α) (s : Schedule)
    (holders node : Nat) (failed atOnce : Bool) :
    w.Inner (w'.completeNode r region s holders node failed atOnce) := by
  have hset := h.setRun r ⟨region, .scheduled (s.complete node failed).1 holders⟩
  have hsubmit : ∀ nodes : List Nat, ∀ x ∈ nodes.map (Item.submit r : Nat → Item α ι),
      x.effect? = none := fun nodes x hx => by
    obtain ⟨k, -, rfl⟩ := List.mem_map.1 hx
    rfl
  -- the nodes that have become ready are visited, submitted or both
  have hvisit : ∀ (nodes : List Nat) (node : Nat),
      ∀ x ∈ nodes.map (Item.submit r : Nat → Item α ι) ++ [.visit r node], x.effect? = none :=
    fun nodes node x hx => by
      rcases List.mem_append.1 hx with hx | hx
      · exact hsubmit _ x hx
      · obtain rfl := List.mem_singleton.1 hx
        rfl
  have hrelease : ∀ nodes : List Nat,
      ∀ x ∈ nodes.map (Item.submit r : Nat → Item α ι) ++ [.release r], x.effect? = none :=
    fun nodes x hx => by
      rcases List.mem_append.1 hx with hx | hx
      · exact hsubmit _ x hx
      · obtain rfl := List.mem_singleton.1 hx
        rfl
  rw [World.completeNode]
  dsimp only
  split
  · refine (hset.count r _).push (List.forall_mem_cons.2 ⟨rfl, ?_⟩)
    split
    · simp
    · exact hvisit _ _
    · exact hrelease _
  · refine hset.push ?_
    split
    · simp
    · exact hvisit _ _
    · exact hrelease _

theorem finish (h : w.Inner w') (c : CallKey) (o : Outcome) (atOnce : Bool) :
    w.Inner (w'.finish c o atOnce) := by
  have herase := h.eraseCall c
  rw [World.finish]
  dsimp only
  split
  · exact herase
  · split
    · exact (herase.count _ _).push (by simp [Item.effect?])
    · split
      · exact herase.push (by simp [Item.effect?])
      · exact herase.push (by simp [Item.effect?])
  · split
    · exact (herase.count _ _).completeNode _ _ _ _ _ _ _
    · exact herase.completeNode _ _ _ _ _ _ _

theorem hold (h : w.Inner w') (r : RunKey) : w.Inner (w'.hold r) := by
  rw [World.hold]
  split
  · exact h.setRun _ _
  · exact h

end Inner

variable (w : World α σ ι)

theorem inner_start [Leaf α] (r : RunKey) (region : Program α) : w.Inner (w.start r region) := by
  rw [World.start]
  split
  · exact (Inner.refl w).push (by simp [Item.effect?])
  · dsimp only
    split
    · refine (((Inner.refl w).count _ _).setRun _ _).push fun x hx => ?_
      simp only [List.mem_append, List.mem_map, List.mem_singleton] at hx
      rcases hx with ⟨k, -, rfl⟩ | rfl <;> rfl
    · exact (((Inner.refl w).count _ _).setRun _ _).push (by simp [Item.effect?])

theorem inner_visit (r : RunKey) (node : Nat) : w.Inner (w.visit r node) := by
  rw [visit]
  split
  · split
    · exact (Inner.refl w).completeNode _ _ _ _ _ _ _
    · split
      · exact (Inner.refl w).of_eq rfl rfl rfl
      · exact ((Inner.refl w).setRun _ _).push (by simp [Item.effect?])
  · exact .refl w

theorem inner_submit (r : RunKey) (node : Nat) : w.Inner (w.submit r node) := by
  have h := (Inner.refl w).hold r
  rw [submit]
  split
  case h_1 => exact h.push (by simp [tasks, Item.effect?])
  case h_2 q' hq =>
    simp only [offer] at hq
    split at hq
    case h_1 q hk => exact h.keep hk hq
    case h_2 => cases hq
  case h_3 => exact h.push (by simp [Item.effect?])

theorem inner_release (r : RunKey) : w.Inner (w.release r) := by
  rw [release]
  split
  · split
    · exact (Inner.refl w).push (by simp [Item.effect?])
    · exact (Inner.refl w).setRun _ _
  · exact .refl w

theorem inner_settle (c : CallKey) (o : Outcome) : w.Inner (w.settle c o) := by
  rw [settle]
  split
  · exact (Inner.refl w).setCall _ _
  · exact (Inner.refl w).finish _ _ _
  · exact .refl w
  · exact .refl w

theorem inner_returned (c : CallKey) : w.Inner (w.returned c) := by
  rw [returned]
  split
  · exact (Inner.refl w).finish _ _ _
  · exact ((Inner.refl w).hold _).setCall _ _
  · exact .refl w

theorem device_call_leaf {w : World α σ ι} {b : Backend α σ ι} {c : CallKey} {info : OpInfo} {a : α}
    (hop : w.operation? c = some (.leaf info a)) :
    (w.call b c).device = (b.launch c info a w.device).1 := by
  rcases hlaunch : b.launch c info a w.device with ⟨device, text | effects⟩
  · simp only [World.call, hop, device_setCall, device_count, hlaunch]
    rfl
  · simp only [World.call, hop, device_setCall, device_count, hlaunch]
    rfl

theorem inner_settleRun (b : Backend α σ ι) {r : RunKey} (hr : r.caller? = none) (o : Outcome) :
    w.Inner (w.settleRun b r o) := by
  rw [settleRun, hr]
  exact (Inner.refl w).of_eq rfl rfl rfl

end World

end OpFlow.Machine
