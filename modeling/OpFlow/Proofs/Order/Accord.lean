import OpFlow.Proofs.Order.Waiting

/-!
When an execution accords with program order. What has ended has come to what program order says,
and a slot holds what it holds before some operation in program order as soon as those before it
that write the slot have ended well and no other that writes it has been launched. So each operation
finds in the slots that it declares what it finds there in program order.
-/
namespace OpFlow

open Machine

variable {α : Type} [Leaf α]

def Meaning.Reserves (m : Meaning α) (x : Site α) (r : RunKey) (i : Nat) : Prop :=
  ∀ c n op a, r = c.nested n → m.Calls x c op a → .slot i ∈ op.footprint.places

namespace Machine

namespace Crew

variable {s t : Crew α Bench Empty} {d d' : Bench} {m : Meaning α} {P : Conduct α} {x y z : Site α}
  {k i j : Nat} {r : RunKey} {c : CallKey} {op : Operation α} {a : Arena} {o : Outcome}

/-- Of the operations of a run that write a slot, those before the node `j` have ended well, and no
other has been launched. -/
structure Current (s : Crew α Bench Empty) (r : RunKey) (region : Program α) (i j : Nat) : Prop where
  before : ∀ l < j, ∀ op, region.ops[l]? = some op → op.footprint.writes (.slot i) →
    .ended ⟨r, l⟩ (.ok ()) ∈ s.log
  after : ∀ l, j ≤ l → ∀ op, region.ops[l]? = some op → op.footprint.writes (.slot i) →
    .launched ⟨r, l⟩ ∉ s.log

/-- How a call in flight stands that has found the arena `a`. -/
inductive Stood (m : Meaning α) (s : Crew α Bench Empty) (d : Bench) (c : CallKey)
    (op : Operation α) (a : Arena) (y : Call) : Prop
  | nests {stage : Stage} (hop : ∀ info act, op ≠ .leaf info act) (hx : s.Shows c stage)
      (h : m.Stands a d.arena op stage y)
  | leaf {info : OpInfo} {act : α} (hop : op = .leaf info act) (h : s.Awaits m d c op a y)

/-- The runs and the slots of a host's execution, with this bench, are as the site says in program
order. -/
structure Grounded (m : Meaning α) (x : Site α) (k : Nat) (s : Crew α Bench Empty) (d : Bench) :
    Prop where
  sited : ∀ r region, s.HasRegion r region → r.host = k ∧ r.execution = 0 ∧
    ∃ y, m.Inside x r.scope y ∧ y.region = region
  size : d.arena.size = x.arena.size
  ended : ∀ c o op a, .ended c o ∈ s.log → m.Calls x c op a → (m.operation op a).2 = o
  slots : ∀ r y i j, r = ⟨k, 0, []⟩ ∨ s.Pending r → m.Inside x r.scope y →
    m.Reserves x r i → s.Current r y.region i j → d.arena.slots[i]? = (m.before y j).slots[i]?
  waits : ∀ c, d.waiting c ≠ none → ∃ info act, s.InFlight c (.leaf info act)
  asked : ∀ c o, s.Asked c o → s.IsLeaf c ∧ .launched c ∈ s.log
  settles : ∀ items ∈ s.threads, ∀ c o, .settle c o ∈ items →
    ∃ op, s.Belongs c op ∧ ∀ info act, op ≠ .leaf info act

structure Accords (m : Meaning α) (x : Site α) (k : Nat) (s : Crew α Bench Empty) (d : Bench) : Prop
    extends s.Grounded m x k d where
  calls : ∀ c op a y, s.world.call? c = some y → m.Calls x c op a → s.Stood m d c op a y

/-! ### What operations find -/

theorem Grounded.site (h : s.Grounded m x k d) (hs : s.Sound) (hop : s.world.operation? c = some op) :
    ∃ y, m.Inside x c.run.scope y ∧ y.region.ops[c.node]? = some op ∧ (c.run, y.region) ∈ s.begun ∧
      s.Pending c.run ∧ c.run.host = k ∧ c.run.execution = 0 := by
  obtain ⟨region, hrun, hnode⟩ := Option.bind_eq_some_iff.1 hop
  have halive := (hs.run c.run).alive hrun
  have hmem : (c.run, region.region) ∈ s.begun := mem_begun_iff.2 (by simp [halive.regions])
  obtain ⟨hhost, hexecution, y, hy, hregion⟩ := h.sited _ _ (.inl hmem)
  exact ⟨y, hy, hregion ▸ hnode, hregion ▸ hmem, halive.pending, hhost, hexecution⟩

theorem conflicts_of_writes {r : Program α} {l : Nat} {op' : Operation α} (hop : r.ops[j]? = some op)
    (hop' : r.ops[l]? = some op') (hi : .slot i ∈ op.footprint.places)
    (hw : op'.footprint.writes (.slot i)) : r.graph.conflicts l j :=
  Graph.conflicts_build_iff.2 ⟨_, _, by simp [Region.footprints, hop'],
    by simp [Region.footprints, hop],
    Footprint.conflicts_iff.2 ⟨_, Footprint.mem_places_of_writes hw, hi, .inl hw⟩⟩

theorem conflicts_comm {r : Program α} {l : Nat} (h : r.graph.conflicts l j) :
    r.graph.conflicts j l := by
  rw [Region.graph, Graph.conflicts_build_comm] at h
  exact h

variable {n : Nat} {item : Item α Empty} {rest items : List (Item α Empty)}
  {tasks : List (Task Empty)} {w : World α Bench Empty} {run : RunKey → Option (Run α)}
  {call : CallKey → Option Call}

/-- The slots that an operation declares are current before it as it is called. -/
theorem Sound.current_of_call (hs : s.Sound) (ht : (s.after n (.call c) w).Sound)
    (hn : s.threads[n]? = some (.call c :: rest)) {region : Program α}
    (hbegun : (c.run, region) ∈ s.begun) (hop : region.ops[c.node]? = some op)
    (hcall : s.world.operation? c = some op) (hi : .slot i ∈ op.footprint.places) :
    s.Current c.run region i c.node := by
  have hlaunched : .launched c ∈ (s.after n (.call c) w).log :=
    List.mem_append_right _ (mem_noted_launched.2 ⟨rfl, by rw [hcall]; rfl⟩)
  have hnew := hs.not_launched_of_call hn
  refine ⟨fun l hl op' hop' hw => ?_, fun l hl op' hop' hw hlaunched' => ?_⟩
  · have hended := ((ht.run c.run).ended_of_launched (List.mem_append_left _ hbegun) hl
      (conflicts_of_writes hop hop' hi hw) hlaunched).1
    refine (List.mem_append.1 hended).resolve_right fun hnoted => ?_
    obtain ⟨l', ⟨hitem, -⟩ | ⟨hitem | hitem, -⟩⟩ := World.mem_noted_ended hnoted <;> cases hitem
  · rcases Nat.eq_or_lt_of_le hl with rfl | hlt
    · exact hnew hlaunched'
    · exact hnew (hs.launched_of_ended ((hs.run c.run).ended_of_launched hbegun hlt
        (conflicts_comm (conflicts_of_writes hop hop' hi hw)) hlaunched').1)

theorem Grounded.found (h : s.Grounded m x k d) (hs : s.Sound) (ht : (s.after n (.call c) w).Sound)
    (hn : s.threads[n]? = some (.call c :: rest)) (hop : s.world.operation? c = some op)
    (hcalls : m.Calls x c op a) : d.arena.AgreeOn op.footprint a := by
  obtain ⟨y, hy, hnode, hbegun, hpending, -⟩ := h.site hs hop
  obtain ⟨y', hy', hnode', rfl⟩ := id hcalls
  obtain rfl := hy.unique hy'
  refine ⟨?_, fun i hi => h.slots _ y' i _ (.inr hpending) hy (fun c' n' op' a' hrun hcalls' => ?_)
    (hs.current_of_call ht hn hbegun hnode hop hi)⟩
  · rw [h.size, Meaning.size_before, hy.size]
  · exact (hcalls'.within hcalls hrun).places hi

/-- A nested run that is to begin has its site, and the slots that the operation around it declares
hold what they hold at that site. -/
theorem Accords.starts (h : s.Accords m x k s.world.device) (hs : s.Sound)
    (ht : (s.after n item w).Sound)
    (hn : s.threads[n]? = some (item :: rest))
    (hm : CallMove P.backend (s.seenBy rest) item items call) {number : Nat} {region : Program α}
    (hmem : .start (c.nested number) region ∈ items) : ∃ op a z, s.world.operation? c = some op ∧
      m.Calls x c op a ∧ m.Nests op a number z ∧ z.region = region ∧
        s.world.device.arena.AgreeOn op.footprint z.arena := by
  have hplain : (∀ x ∈ items, Item.IsPlain x) → False := fun hall => (hall _ hmem).start _ _ rfl
  have hinj : ∀ {c' : CallKey} {number' region'}, c.nested number = c'.nested number' ∧
      region = region' → c = c' ∧ number = number' ∧ region = region' := fun h => by
    obtain ⟨rfl, rfl⟩ := CallKey.nested_inj.1 h.1
    exact ⟨rfl, rfl, h.2⟩
  have hread : ∀ {op : Operation α} {a slice}, op.steering? = some slice →
      s.world.device.arena.AgreeOn op.footprint a →
        s.world.device.arena.read slice = a.read slice := fun h hA =>
    hA.read (Operation.mem_places_of_steering h)
  cases hm with
  | spares _ hitems | ended _ hitems => exact (hplain hitems).elim
  | @called c' op opening l hop hopens =>
    obtain ⟨y, hy, hnode, -⟩ := h.site hs hop
    have hcalls : m.Calls x c' op (m.before y c'.node) := ⟨y, hy, hnode, rfl⟩
    have hfound := h.found hs ht hn hop hcalls
    cases hopens with
    | body =>
      obtain ⟨rfl, rfl, rfl⟩ := hinj (by simpa using hmem)
      exact ⟨_, _, _, hop, hcalls, .body, rfl, hfound⟩
    | branch hbytes hbranch =>
      obtain ⟨rfl, rfl, rfl⟩ := hinj (by simpa using hmem)
      exact ⟨_, _, _, hop, hcalls, .branch ((hread rfl hfound).symm.trans hbytes) hbranch, rfl, hfound⟩
    | _ => simp at hmem
  | @turns c' p l l' items info predicate condition body trips hop hc hturns =>
    obtain ⟨y, hy, hnode, -⟩ := h.site hs hop
    have hcalls : m.Calls x c' _ (m.before y c'.node) := ⟨y, hy, hnode, rfl⟩
    have hturn : ∀ {stage}, s.Shows c' stage → stage = .turn := fun hx =>
      Stage.eq_turn (hx.pos_of_token hn rfl (by simp))
    cases h.calls c' _ _ _ hc hcalls with
    | leaf hleaf => cases hleaf
    | nests _ hx hstands =>
      obtain rfl := hturn hx
      cases hstands with
      | turning hx => cases hx
      | turn hgoing harena =>
        cases hturns with
        | finished => simp at hmem
        | body hin =>
          obtain ⟨rfl, rfl, rfl⟩ := hinj (by simpa using hmem)
          exact ⟨_, _, _, hop, hcalls, .turn hgoing, by simp only [if_pos hin], harena⟩
        | condition hin htrips =>
          obtain ⟨rfl, rfl, rfl⟩ := hinj (by simpa using hmem)
          exact ⟨_, _, _, hop, hcalls, .turn hgoing, by simp [hin, htrips], harena⟩
  | advances _ _ hadv | goesOn _ _ _ hadv => cases hadv <;> simp at hmem
  | passed => simp at hmem
  | _ => cases hmem

/-- An operation that ends has done what it does in program order. -/
theorem Accords.done (h : s.Accords m x k s.world.device) (hs : s.Sound)
    (hn : s.threads[n]? = some (item :: rest)) (hended : .ended c o ∈ s.world.noted item)
    (hcalls : m.Calls x c op a) : (∃ y, s.world.call? c = some y) ∧
      m.Done op a o s.world.device.arena := by
  obtain ⟨l, hc⟩ := World.mem_noted_ended hended
  have hcalled : ∃ p, s.world.call? c = some ⟨p, l⟩ := by
    rcases hc with ⟨-, hc⟩ | ⟨-, hc⟩ <;> exact ⟨_, hc⟩
  obtain ⟨p, hy⟩ := hcalled
  refine ⟨⟨_, hy⟩, ?_⟩
  obtain ⟨-, op', hop⟩ := hs.operation_of_call hy
  obtain ⟨y, hsite, hnode, hbegun, -⟩ := h.site hs hop
  obtain ⟨rfl, rfl⟩ := Meaning.Calls.unique ⟨y, hsite, hnode, rfl⟩ hcalls
  have hbelongs : s.Belongs c op := ⟨_, hbegun, hnode⟩
  cases h.calls _ _ _ _ hy hcalls with
  | @nests stage hnot hx hstands =>
    have hleaf : ¬ s.IsLeaf c := fun hleaf => by
      obtain ⟨info, act, rfl⟩ := (hs.isLeaf_iff hop).1 hleaf
      exact hnot _ _ rfl
    rcases hc with ⟨rfl, hc⟩ | ⟨rfl | rfl, hc⟩
    · cases hy.symm.trans hc
      have hquiet : stage = .quiet := by
        by_contra hne
        exact (hy ▸ hx.fits).unsettled hne o rfl
      subst hquiet
      cases hstands with
      | settled hdone => exact hdone
      | turning hx => cases hx
    · have hpos := hx.settle hleaf o ▸ count_tokens_pos hn rfl
      obtain rfl := Stage.eq_settling hpos
      cases hstands with
      | settling hdone => exact hdone
      | turning hx => cases hx
    · exact absurd (h.asked c o (asked_of_head hn)).1 hleaf
  | leaf hop' hawaits =>
    rcases hc with ⟨rfl, hc⟩ | ⟨rfl | rfl, hc⟩
    · cases hy.symm.trans hc
      exact hawaits.settled o rfl
    · obtain ⟨op', hbelongs', hnot⟩ := h.settles _ (mem_threads hn) c o List.mem_cons_self
      obtain rfl := hbelongs.unique hs hbelongs'
      exact absurd hop' (hnot _ _)
    · exact hawaits.asked o (asked_of_head hn)

end Crew

end Machine

end OpFlow
