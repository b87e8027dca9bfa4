import OpFlow.Proofs.Machine.Endings

/-!
Operations that end while they are started. Such an operation has ended as soon as its thread has done
what the start asks for. If it is what made an execution fail, then the execution fails with its error,
attributed to the operation.
-/
namespace OpFlow.Machine

variable {α σ ι : Type}

/-- A start that lets its operation end at once: by what it asks for, or by a panic. -/
inductive EndsAtOnce (c : CallKey) : Except String (List (Effect ι)) → Outcome → Prop
  | settles (o : Outcome) : EndsAtOnce c (.ok [.settle c o]) o
  | panics (text : String) : EndsAtOnce c (.error text) (.error (.panicked text))

theorem EndsAtOnce.eq_settle {c : CallKey} {r : Except String (List (Effect ι))} {o : Outcome}
    (h : EndsAtOnce c r o) {e : Effect ι} (he : e ∈ r.toOption.getD []) : e = .settle c o := by
  cases h with
  | settles => exact List.mem_singleton.1 he
  | panics => cases he

theorem EndsAtOnce.of_opens {b : Backend α σ ι} {d : σ} {c : CallKey} {info : OpInfo} {a : α}
    {opening : List (Item α ι)} {l : Option LoopState} {o : Outcome}
    (h : EndsAtOnce c (b.launch c info a d).2 o)
    (hopens : World.Opens b d c (.leaf info a) opening l) :
    ∃ x : Item α ι, x.Settles c o ∧ opening = [x] := by
  cases hopens with
  | leaf hlaunch =>
    rw [hlaunch] at h
    cases h
    exact ⟨_, .inr rfl, rfl⟩
  | panicked hlaunch =>
    rw [hlaunch] at h
    cases h
    exact ⟨_, .inl rfl, rfl⟩

namespace Crew

variable [Leaf α] {b : Backend α σ ι} {s t u : Crew α σ ι} {i : Nat} {c : CallKey} {o : Outcome}
  {item : Item α ι} {rest : List (Item α ι)}

theorem exists_act (b : Backend α σ ι) (hi : s.threads[i]? = some (item :: rest))
    (hstart : ∀ r region, item ≠ .start r region) : ∃ w items tasks run call,
      s.act b i = s.after i item w ∧ (s.seenBy rest).Became w items tasks run call ∧
        CallMove b (s.seenBy rest) item items call := by
  obtain ⟨w, hw⟩ : ∃ w, (s.seenBy (item :: rest)).step? b = some w := ⟨_, rfl⟩
  obtain ⟨items, tasks, run, call, hb, hm⟩ :=
    World.step_cases rfl hw fun r region h => absurd h (hstart r region)
  exact ⟨w, items, tasks, run, call, act_eq hi hw, hb, hm⟩

/-- The start of a call asks for its end. -/
theorem act_call {info : OpInfo} {a : α} (hi : s.threads[i]? = some (.call c :: rest))
    (hop : s.world.operation? c = some (.leaf info a))
    (h : EndsAtOnce c (b.launch c info a s.world.device).2 o) :
    ∃ x : Item α ι, x.Settles c o ∧ (s.act b i).threads[i]? = some (x :: .returned c :: rest) ∧
      ∃ l, (s.act b i).world.call? c = some ⟨.entered, l⟩ := by
  obtain ⟨w, items, tasks, run, call, hact, hb, hm⟩ := exists_act b hi (by simp)
  have hcall : (s.after i (.call c) w).world.call? = call := hb.call
  have hthread := threads_after hi hb
  rw [hact]
  cases hm with
  | spares hitem => exact hitem.elim
  | uncalled hnone => cases hnone.symm.trans hop
  | called hop' hopens =>
    obtain rfl := Option.some.inj (hop.symm.trans hop')
    obtain ⟨x, hx, rfl⟩ := h.of_opens hopens
    exact ⟨x, hx, hthread, _, by rw [hcall, Function.update_self]⟩
  | ended hitem =>
    rcases hitem with ⟨hitem, -⟩ | ⟨hitem | hitem, -⟩ <;> cases hitem
  | settled hitem | void hitem => rcases hitem with hitem | hitem <;> cases hitem

/-- The end is noted with the call, whose start has not returned. -/
theorem act_settle (hx : item.Settles c o) (hi : s.threads[i]? = some (item :: rest)) {l : Option LoopState}
    (hc : s.world.call? c = some ⟨.entered, l⟩) : (s.act b i).threads[i]? = some rest ∧
      (s.act b i).world.call? c = some ⟨.settled o, l⟩ := by
  have hseen : (s.seenBy rest).call? c = some ⟨.entered, l⟩ := hc
  have hstart : ∀ r region, item ≠ .start r region := by rcases hx with rfl | rfl <;> simp
  obtain ⟨w, items, tasks, run, call, hact, hb, hm⟩ := exists_act b hi hstart
  have hcall : (s.after i item w).world.call? = call := hb.call
  have hthread := threads_after hi hb
  rw [hact]
  rcases hm.settling hx with ⟨l', hentered, rfl, hsettled⟩ | ⟨l', hawaited⟩ | ⟨-, hvoid⟩
  · cases hseen.symm.trans hentered
    exact ⟨hthread, hcall ▸ hsettled⟩
  · cases hseen.symm.trans hawaited
  · obtain ⟨o', ho'⟩ := hvoid _ _ hseen
    cases ho'

theorem act_returned (hi : s.threads[i]? = some (.returned c :: rest)) {l : Option LoopState}
    (hc : s.world.call? c = some ⟨.settled o, l⟩) : .ended c o ∈ (s.act b i).log := by
  obtain ⟨w, -, -, -, -, hact, -, -⟩ := exists_act b hi (by simp)
  rw [hact]
  exact List.mem_append_right _ (World.ended_mem_noted (.inl ⟨rfl, hc⟩))

theorem ended_of_endsAtOnce {info : OpInfo} {a : α} (hi : s.threads[i]? = some (.call c :: rest))
    (hop : s.world.operation? c = some (.leaf info a))
    (h : EndsAtOnce c (b.launch c info a s.world.device).2 o) :
    .ended c o ∈ ((act b i)^[2] (s.act b i)).log := by
  obtain ⟨x, hx, hthread, l, hentered⟩ := act_call hi hop h
  obtain ⟨hthread', hsettled⟩ := act_settle hx hthread hentered
  exact act_returned hthread' hsettled

theorem Reachable.not_resolved_nested (h : Reachable b s) (hleaf : s.IsLeaf c) (n : Nat) :
    .resolved (c.nested n) o ∉ s.log := fun hn => by
  obtain ⟨info, a, hbelongs⟩ := hleaf
  obtain ⟨inner, hinner⟩ := h.sound.exists_begun hn
  obtain ⟨op, hop, hmem⟩ := h.mem_nested (.inl hinner)
  obtain rfl := hbelongs.unique h.sound hop
  cases hmem

theorem ReachableWhile.error_of_traces {op : Operation α} {host execution : Nat} {e e' : Error}
    (h : ReachableWhile Faithful b s)
    (hkept : ∀ c, c.run.host = host → c.run.execution = execution → .dropped c ∉ s.log)
    (ho : s.world.outcome? host execution = some (.error e'))
    (htraces : s.Traces ⟨host, execution, []⟩ c e) (hop : s.Belongs c op) :
    e' = e.attributedTo op.info := by
  have hresolved := h.reachable.resolved_of_outcome ho
  obtain ⟨region, hr⟩ := h.reachable.sound.exists_begun hresolved
  obtain ⟨c₀, e₀, op₀, htraces₀, hop₀, rfl⟩ := h.exists_traces hkept hr hresolved
  obtain ⟨rfl, rfl⟩ := htraces₀.unique h htraces
  rw [hop₀.unique h.reachable.sound hop]

end Crew

end OpFlow.Machine
