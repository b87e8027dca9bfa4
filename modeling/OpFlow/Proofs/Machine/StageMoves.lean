import OpFlow.Proofs.Machine.Nesting

/-!
Every call of a crew is at some stage in every state that it can reach, if its backend settles leaf
operations only.
-/
namespace OpFlow.Machine

variable {α σ ι : Type} {b : Backend α σ ι}

theorem CallKey.nested_inj {c c' : CallKey} {n n' : Nat} :
    c.nested n = c'.nested n' ↔ c = c' ∧ n = n' := by
  obtain ⟨⟨_, _, _⟩, _⟩ := c
  obtain ⟨⟨_, _, _⟩, _⟩ := c'
  simp only [CallKey.nested, RunKey.mk.injEq, CallKey.mk.injEq, List.cons.injEq, Prod.mk.injEq]
  constructor <;> intro h <;> simp_all

theorem RunKey.eq_nested {r : RunKey} {c : CallKey} (h : r.caller? = some c) :
    ∃ n, r = c.nested n := by
  unfold RunKey.caller? at h
  split at h
  · cases h
  · rename_i node n scope hscope
    obtain rfl := Option.some.inj h
    refine ⟨n, ?_⟩
    obtain ⟨host, execution, scope'⟩ := r
    obtain rfl : scope' = (node, n) :: scope := hscope
    rfl

/-- The call that an item is about, or that a nested run belongs to. -/
def Item.key? : Item α ι → Option CallKey
  | .call c | .returned c | .settle c _ | .iterate c | .iterated c | .effect (.settle c _) => some c
  | .settleRun r _ => r.caller?
  | .start _ _ | .visit _ _ | .submit _ _ | .release _ | .effect (.work _) | .effect (.submit _ _) =>
    none

theorem Item.Settles.key? {item : Item α ι} {c : CallKey} {o : Outcome} (h : item.Settles c o) :
    item.key? = some c := by rcases h with rfl | rfl <;> rfl

def AreOf (c : CallKey) (items : List (Item α ι)) : Prop :=
  ∀ x ∈ items, (∀ c' k, x.token = some (c', k) → c' = c) ∧
    ∀ c' n region, x = .start (c'.nested n) region → c' = c

theorem areOf_of_isPlain {c : CallKey} {items : List (Item α ι)} (h : ∀ x ∈ items, x.IsPlain) :
    AreOf c items := fun x hx =>
  ⟨fun c' k hk => absurd ((h x hx).token.symm.trans hk) (by simp),
    fun c' n region hx' => absurd hx' ((h x hx).start _ _)⟩

theorem areOf_opening {d : σ} {c : CallKey} {op : Operation α} {opening : List (Item α ι)}
    {l : Option LoopState} (h : World.Opens b d c op opening l) : AreOf c (opening ++ [.returned c]) := by
  intro x hx
  cases h <;> simp_all [Item.token]
  case leaf =>
    rcases hx with ⟨e, -, rfl⟩ | rfl <;> simp
  all_goals rcases hx with rfl | rfl <;> simp [CallKey.nested_inj]

theorem areOf_advance {d : σ} {c : CallKey} {op : Option (Operation α)} {l l' : LoopState}
    {o : Outcome} {items : List (Item α ι)} (h : World.Advances b d c op l o items l') :
    AreOf c items := by
  intro x hx
  cases h <;> simp_all [Item.token]

theorem areOf_turn {c : CallKey} {condition body : Program α} {trips : Option Nat}
    {l l' : LoopState} {items : List (Item α ι)}
    (h : World.Turns c condition body trips l items l') : AreOf c items := by
  intro x hx
  cases h <;> simp_all [Item.token]
  all_goals rcases hx with rfl | rfl <;> simp [CallKey.nested_inj]

/-- An item leaves all calls but one alone. -/
theorem CallMove.other {w : World α σ ι} {item : Item α ι} {items : List (Item α ι)}
    {call : CallKey → Option Call} (h : CallMove b w item items call) {c : CallKey}
    (hc : item.key? ≠ some c) : call c = w.call? c ∧ ∃ c', c' ≠ c ∧ AreOf c' items := by
  have hne : ∀ {c' : CallKey}, item.key? = some c' → c' ≠ c := fun hk h => hc (hk.trans (h ▸ rfl))
  have hother : ∃ c', c' ≠ c := ⟨⟨c.run, c.node + 1⟩, fun h => by
    have := congrArg CallKey.node h
    simp at this⟩
  obtain ⟨c₁, hc₁⟩ := hother
  have hnil : AreOf c₁ ([] : List (Item α ι)) := areOf_of_isPlain (by simp)
  cases h with
  | spares hitem hitems => exact ⟨rfl, c₁, hc₁, areOf_of_isPlain hitems⟩
  | uncalled | unreturned | void | turnless | loopless | late => exact ⟨rfl, c₁, hc₁, hnil⟩
  | called hop h =>
    exact ⟨Function.update_of_ne (hne rfl).symm _ _, _, hne rfl, areOf_opening h⟩
  | awaited => exact ⟨Function.update_of_ne (hne rfl).symm _ _, c₁, hc₁, hnil⟩
  | ended hitem hitems =>
    have hkey := hne (by rcases hitem with ⟨rfl, -⟩ | ⟨h, -⟩; exacts [rfl, h.key?])
    exact ⟨Function.update_of_ne hkey.symm _ _, c₁, hc₁, areOf_of_isPlain hitems⟩
  | settled hitem => exact ⟨Function.update_of_ne (hne hitem.key?).symm _ _, c₁, hc₁, hnil⟩
  | turns hop hc' h => exact ⟨Function.update_of_ne (hne rfl).symm _ _, _, hne rfl, areOf_turn h⟩
  | advances hc' hl h =>
    exact ⟨Function.update_of_ne (hne rfl).symm _ _, _, hne rfl, areOf_advance h⟩
  | waits => exact ⟨Function.update_of_ne (hne rfl).symm _ _, c₁, hc₁, hnil⟩
  | passed hr hc' =>
    refine ⟨rfl, _, hne hr, fun x hx => ?_⟩
    obtain rfl := List.mem_singleton.1 hx
    simp [Item.token]
  | noted hr => exact ⟨Function.update_of_ne (hne hr).symm _ _, c₁, hc₁, hnil⟩
  | goesOn hr hc' hl h =>
    exact ⟨Function.update_of_ne (hne hr).symm _ _, _, hne hr, areOf_advance h⟩

/-- An item by which the backend settles a call settles a leaf operation. -/
def Item.sparesControl (w : World α σ ι) : Item α ι → Bool
  | .effect (.settle c _) => (w.operation? c).all fun op => match op with
    | .leaf _ _ => true
    | .call _ _ | .conditional _ _ _ _ | .loop _ _ _ _ _ => false
  | _ => true

namespace Crew

variable [Leaf α] {s : Crew α σ ι} {r : RunKey} {i : Nat} {item : Item α ι}
  {rest items : List (Item α ι)} {tasks : List (Task ι)} {w : World α σ ι}
  {run : RunKey → Option (Run α)} {call : CallKey → Option Call} {c : CallKey} {x x' : Stage}

/-- The backend has only asked for leaf operations to be settled: nobody else resolves the event of
an operation that runs nested regions. -/
def Faithful (s : Crew α σ ι) : Prop :=
  ∀ items ∈ s.threads, ∀ c o, .effect (.settle c o) ∈ items →
    ∀ op, s.world.operation? c = some op → ∃ info a, op = .leaf info a

omit [Leaf α] in
theorem faithful_iff : s.Faithful ↔
    ∀ items ∈ s.threads, ∀ x ∈ items, x.sparesControl s.world := by
  constructor
  · intro h items hitems x hx
    cases x with
    | effect e =>
      cases e with
      | settle c o =>
        cases hop : s.world.operation? c with
        | none => simp [Item.sparesControl, hop]
        | some op =>
          obtain ⟨info, a, rfl⟩ := h items hitems c o hx op hop
          simp [Item.sparesControl, hop]
      | _ => rfl
    | _ => rfl
  · intro h items hitems c o hx op hop
    have := h items hitems _ hx
    cases op with
    | leaf info a => exact ⟨info, a, rfl⟩
    | _ => simp [Item.sparesControl, hop] at this

omit [Leaf α] in
instance : Decidable s.Faithful := decidable_of_iff' _ faithful_iff

/-- A call of whose stage an item changes nothing. -/
theorem Shows.same (hs : s.Sound) (h : s.Shows c x) (hi : s.threads[i]? = some (item :: rest))
    (hb : (s.seenBy rest).Became w items tasks run call) (hfits : x.Fits (call c))
    (htoken : ∀ k, (∀ o, k = .settle o → ¬ s.IsLeaf c) → item.token ≠ some (c, k))
    (hitems : ∃ c', c' ≠ c ∧ AreOf c' items) (hitem : ∀ n o, item ≠ .settleRun (c.nested n) o) :
    (s.after i item w).Shows c x := by
  obtain ⟨c', hne, hof⟩ := hitems
  have hstart : ∀ n region, .start (c.nested n) region ∉ items := fun n region hmem =>
    hne ((hof _ hmem).2 c n region rfl).symm
  refine h.after hs hi hb (fun n region hmem => absurd hmem (hstart n region)) hfits (fun k hk => ?_)
    (fun n => ?_) fun hleaf => ?_
  · have hout : item.token.toList.count (c, k) = 0 := by
      rw [List.count_eq_zero]
      simpa [eq_comm] using htoken k hk
    have hin : (items.filterMap Item.token).count (c, k) = 0 := by
      rw [List.count_eq_zero, List.mem_filterMap]
      rintro ⟨y, hy, hyk⟩
      exact hne ((hof y hy).1 c k hyk).symm
    omega
  · simp [hstart, hitem]
  · rcases isLeaf_after hleaf with hl | ⟨region, rfl⟩
    · exact h.leaf hl
    · have hidle := (hs.idle_of_start hi).progress c.node
      have hnone : s.world.call? c = none := by simpa [view] using hidle
      have := h.fits
      rw [hnone] at this
      exact this.eq_quiet

omit [Leaf α] in
theorem isLeaf_after_iff (h : item.begins = []) : (s.after i item w).IsLeaf c ↔ s.IsLeaf c := by
  refine ⟨fun hl => ?_, fun hl => hl.after⟩
  rcases isLeaf_after hl with hl | ⟨region, rfl⟩
  · exact hl
  · cases h

theorem Shows.come (hs : s.Sound) (h : s.Shows c x) (hi : s.threads[i]? = some (item :: rest))
    (hb : (s.seenBy rest).Became w items tasks run call) (hleaf : ¬ s.IsLeaf c)
    (hbegins : item.begins = []) (hstart : ∀ n region, .start (c.nested n) region ∉ items)
    (hfits : x'.Fits (call c))
    (htokens : ∀ k, x'.weight k + item.token.toList.count (c, k) =
      x.weight k + (items.filterMap Item.token).count (c, k))
    (hnested : ∀ n, x'.nested? = some n ↔
      x.nested? = some n ∧ ∀ o, item ≠ .settleRun (c.nested n) o) : (s.after i item w).Shows c x' :=
  h.after hs hi hb (fun n region hmem => absurd hmem (hstart n region)) hfits (fun k _ => htokens k)
    (fun n => by simp [hnested, hstart]) fun hl => absurd ((isLeaf_after_iff hbegins).1 hl) hleaf

/-- What follows from the end of a nested run. -/
theorem Shows.advance (hs : s.Sound) (h : s.Shows c x) (hi : s.threads[i]? = some (item :: rest))
    {y : Option Call}
    (hb : (s.seenBy rest).Became w items tasks run (Function.update s.world.call? c y))
    {p : Progress} {l l' : LoopState} {o : Outcome} (hy : y = some ⟨p, some l'⟩)
    (hadv : World.Advances b s.world.device c (s.world.operation? c) l o items l')
    (hp : ∀ o, p ≠ .settled o) (hleaf : ¬ s.IsLeaf c) (hbegins : item.begins = [])
    (htokens : ∀ k, item.token.toList.count (c, k) = x.weight k)
    (hnested : ∀ n, x.nested? = some n → ∃ o, item = .settleRun (c.nested n) o) :
    (s.after i item w).Shows c (.next items) := by
  have hstart : ∀ n region, .start (c.nested n) region ∉ items := fun n region => by
    cases hadv <;> simp
  have hquiet : (Stage.next items).nested? = none := by
    cases hadv <;> rfl
  refine h.come hs hi hb hleaf hbegins hstart ?_ (fun k => ?_) fun n => ?_
  · rw [Function.update_self, hy]
    cases hadv <;> first | exact hp | trivial
  · have hnext : (Stage.next items).weight k = (items.filterMap Item.token).count (c, k) := by
      cases hadv <;> cases k <;> simp [Stage.next, Item.token, List.count_cons]
    rw [htokens, hnext]
    omega
  · simp only [hquiet, reduceCtorEq, false_iff, not_and, not_forall, ne_eq, not_not]
    exact hnested n

omit [Leaf α] in
theorem key?_of_token {k : Token} (h : item.token = some (c, k)) : item.key? = some c := by
  cases item <;> simp_all [Item.token, Item.key?]

theorem Sound.isLeaf_iff (hs : s.Sound) {op : Operation α} (hop : s.world.operation? c = some op) :
    s.IsLeaf c ↔ ∃ info a, op = .leaf info a := by
  constructor
  · rintro ⟨info, a, hb⟩
    exact ⟨info, a, (hs.belongs hop).unique hs hb ▸ rfl⟩
  · rintro ⟨info, a, rfl⟩
    exact ⟨info, a, hs.belongs hop⟩

/-- The stage of an operation once it has been called. -/
theorem Shows.open (hs : s.Sound) (h : s.Shows c x) (hi : s.threads[i]? = some (.call c :: rest))
    {op : Operation α} {opening : List (Item α ι)} {l : Option LoopState}
    (hop : s.world.operation? c = some op) (hopens : World.Opens b s.world.device c op opening l)
    (hb : (s.seenBy rest).Became w (opening ++ [.returned c]) tasks run
      (Function.update s.world.call? c (some { loop := l }))) :
    ∃ x', (s.after i (.call c) w).Shows c x' ∧ StageMove b s.world c (.call c) x x' := by
  obtain ⟨hnone, hnew⟩ := hs.call?_of_call hi
  have hx : x = .quiet := by
    have := h.fits
    rw [hnone] at this
    exact this.eq_quiet
  subst hx
  have hleaf := hs.isLeaf_iff hop
  have hgo : ∀ x' : Stage, x'.Fits (some { loop := l }) →
      (∀ k, (∀ o, k = .settle o → ¬ s.IsLeaf c) →
        x'.weight k = (opening.filterMap Item.token).count (c, k)) →
      (∀ n, x'.nested? = some n ↔ ∃ region, .start (c.nested n) region ∈ opening) →
      (s.IsLeaf c → x' = .quiet) → (s.after i (.call c) w).Shows c x' := by
    intro x' hfits htokens hnested hquiet
    refine h.after hs hi hb (fun n region _ => hnew n) (by rwa [Function.update_self]) (fun k hk => ?_)
      (fun n => ?_) fun hl => hquiet ((isLeaf_after_iff rfl).1 hl)
    · have hreturned : ([.returned c] : List (Item α ι)).filterMap Item.token = [] := rfl
      rw [htokens k hk, List.filterMap_append, hreturned, List.append_nil]
      simp [Item.token]
    · rw [hnested]
      simp [Stage.nested?]
  cases hopens with
  | leaf hlaunch =>
    refine ⟨.quiet, hgo .quiet trivial (fun k _ => ?_) (by simp [Stage.nested?]) fun _ => rfl, .same⟩
    rw [List.filterMap_eq_nil_iff.2 (by simp [Item.token])]
    cases k <;> rfl
  | panicked hlaunch =>
    refine ⟨.quiet, hgo .quiet trivial (fun k hk => ?_) (by simp [Stage.nested?]) fun _ => rfl, .same⟩
    cases k with
    | settle o => exact absurd (hleaf.2 ⟨_, _, rfl⟩) (hk o rfl)
    | _ => simp [Item.token]
  | body =>
    refine ⟨.inside 0, hgo _ (by simp [Stage.Fits]) (fun k _ => ?_) (fun n => ?_)
      (fun hl => by simp at hleaf; exact absurd hl hleaf), .body hop⟩
    · cases k <;> rfl
    · simp [Stage.nested?, CallKey.nested_inj, eq_comm]
  | branch hread hbranch =>
    refine ⟨.inside 0, hgo _ (by simp [Stage.Fits]) (fun k _ => ?_) (fun n => ?_)
      (fun hl => by simp at hleaf; exact absurd hl hleaf), .branch hop hread hbranch⟩
    · cases k <;> rfl
    · simp [Stage.nested?, CallKey.nested_inj, eq_comm]
  | unread hread =>
    refine ⟨.settling _, hgo _ (by simp [Stage.Fits]) (fun k _ => ?_) (by simp [Stage.nested?])
      (fun hl => by simp at hleaf; exact absurd hl hleaf), .unread hop hread⟩
    cases k <;> simp [Item.token, List.count_cons]
  | nothing hread hbranch =>
    refine ⟨.quiet, hgo _ trivial (fun k _ => ?_) (by simp [Stage.nested?]) fun _ => rfl, .same⟩
    cases k <;> simp [Item.token]
  | loop =>
    refine ⟨.turn, hgo _ (by simp [Stage.Fits]) (fun k _ => ?_) (by simp [Stage.nested?])
      (fun hl => by simp at hleaf; exact absurd hl hleaf), .loop hop⟩
    cases k <;> simp [Item.token]

omit [Leaf α] in
theorem areOf_nil : ∃ c', c' ≠ c ∧ AreOf c' ([] : List (Item α ι)) := by
  refine ⟨⟨c.run, c.node + 1⟩, fun h => ?_, areOf_of_isPlain (by simp)⟩
  have := congrArg CallKey.node h
  simp at this

omit [Leaf α] in
theorem areOf_plain (h : ∀ x ∈ items, x.IsPlain) : ∃ c', c' ≠ c ∧ AreOf c' items := by
  obtain ⟨c', hne, -⟩ := areOf_nil (α := α) (ι := ι) (c := c)
  exact ⟨c', hne, areOf_of_isPlain h⟩

theorem Shows.nested_of_settleRun (hs : s.Sound) (h : s.Shows c x) {n : Nat} {o : Outcome}
    (hi : s.threads[i]? = some (.settleRun (c.nested n) o :: rest)) : x.nested? = some n :=
  (h.nested n).1 ⟨hs.hasBegun_of_settleRun hi, hs.not_resolved_of_settleRun hi⟩

omit [Leaf α] in
theorem count_tokens_pos (hi : s.threads[i]? = some (item :: rest)) {y : CallKey × Token}
    (hy : item.token = some y) : 0 < s.tokens.count y := by
  rw [List.count_pos_iff, tokens, List.mem_flatMap]
  exact ⟨_, mem_threads hi, List.mem_filterMap.2 ⟨_, List.mem_cons_self, hy⟩⟩

/-- The stage of a call that is settled. -/
theorem Shows.settled (hs : s.Sound) (hf : s.Faithful) (h : s.Shows c x)
    (hi : s.threads[i]? = some (item :: rest)) {o : Outcome} (hitem : item.Settles c o)
    (hcall : s.world.call? c ≠ none) {y : Option Call}
    (hb : (s.seenBy rest).Became w items tasks run (Function.update s.world.call? c y))
    (hitems : ∀ x ∈ items, x.IsPlain) :
    ∃ x', (s.after i item w).Shows c x' ∧ StageMove b s.world c item x x' := by
  have hquiet : (s.after i item w).IsLeaf c → Stage.quiet = .quiet := fun _ => rfl
  have hstart : ∀ n region, .start (c.nested n) region ∉ items := fun n region hmem =>
    (hitems _ hmem).start _ _ rfl
  have hrun : ∀ n o', item ≠ .settleRun (c.nested n) o' := by
    rcases hitem with rfl | rfl <;> simp
  have hplain : items.filterMap Item.token = [] :=
    List.filterMap_eq_nil_iff.2 fun x hx => (hitems x hx).token
  by_cases hleaf : s.IsLeaf c
  · obtain rfl := h.leaf hleaf
    refine ⟨.quiet, h.after hs hi hb (fun n region hmem => absurd hmem (hstart n region)) trivial
      (fun k hk => ?_) (fun n => ?_) hquiet, .same⟩
    · rw [hplain]
      rcases hitem with rfl | rfl
      · cases k with
        | settle o' => exact absurd hleaf (hk o' rfl)
        | _ => simp [Item.token]
      · simp [Item.token]
    · simp [Stage.nested?, hstart]
  · rcases hitem with rfl | rfl
    · have hpos : 0 < x.weight (.settle o) := by
        rw [← h.settle hleaf o]
        exact count_tokens_pos hi rfl
      obtain rfl := Stage.eq_settling hpos
      refine ⟨.quiet, h.after hs hi hb (fun n region hmem => absurd hmem (hstart n region)) trivial
        (fun k _ => ?_) (fun n => ?_) hquiet, .settled⟩
      · rw [hplain]
        cases k <;> simp [Item.token, List.count_cons]
      · simp [Stage.nested?, hstart]
    · obtain ⟨y, hy⟩ := Option.ne_none_iff_exists'.1 hcall
      obtain ⟨-, op, hop⟩ := hs.operation_of_call hy
      obtain ⟨info, a, rfl⟩ := hf _ (mem_threads hi) c o List.mem_cons_self op hop
      exact absurd ((hs.isLeaf_iff hop).2 ⟨info, a, rfl⟩) hleaf

omit [Leaf α] in
theorem key?_of_sparesCalls (h : item.sparesCalls) : item.key? = none := by
  cases item with
  | effect e => cases e <;> first | rfl | cases h
  | settleRun r o => exact RunKey.caller?_eq_none.2 h
  | _ => first | rfl | cases h

omit [Leaf α] in
theorem Shows.pos_of_token (h : s.Shows c x) (hi : s.threads[i]? = some (item :: rest)) {k : Token}
    (hk : item.token = some (c, k)) (hturn : ∀ o, k ≠ .settle o) : 0 < x.weight k := by
  have hpos := count_tokens_pos hi hk
  cases k with
  | settle o => exact absurd rfl (hturn o)
  | iterate => rwa [← h.iterate]
  | iterated => rwa [← h.iterated]

/-- The stage of a loop that takes its next turn. -/
theorem Shows.turn (hs : s.Sound) (h : s.Shows c .turn)
    (hi : s.threads[i]? = some (.iterate c :: rest)) {info : OpInfo} {predicate : Slice}
    {condition body : Program α} {trips : Option Nat} {p : Progress} {l l' : LoopState}
    (hop : s.world.operation? c = some (.loop info predicate condition body trips))
    (hc : s.world.call? c = some ⟨p, some l⟩)
    (hturns : World.Turns c condition body trips l items l')
    (hb : (s.seenBy rest).Became w items tasks run
      (Function.update s.world.call? c (some ⟨p, some l'⟩))) :
    ∃ x', (s.after i (.iterate c) w).Shows c x' ∧ StageMove b s.world c (.iterate c) .turn x' := by
  have hp : ∀ o, p ≠ .settled o := by
    have := h.fits
    rw [hc] at this
    exact this.unsettled (by simp)
  have hleaf : ¬ (s.after i (.iterate c) w).IsLeaf c := by
    rw [isLeaf_after_iff rfl, hs.isLeaf_iff hop]
    simp
  have hnew : ∀ n, n = l.started → ¬ s.HasBegun (c.nested n) := fun n hn hbegun => by
    have := (hs.fresh c n hbegun).2 p l hc
    omega
  have hstarted : ∀ region, items = [.start (c.nested l.started) region, .iterated c] →
      l'.progress = .entered → (s.after i (.iterate c) w).Shows c (.started l.started) := by
    rintro region rfl hl
    have htokens : ([.start (c.nested l.started) region, .iterated c] : List (Item α ι)).filterMap
        Item.token = [(c, .iterated)] := rfl
    refine h.after hs hi hb (fun n region' hmem => hnew n ?_) ?_ (fun k _ => ?_) (fun n => ?_)
      fun hl => absurd hl hleaf
    · have : n = l.started ∧ region' = region := by simpa [CallKey.nested_inj] using hmem
      exact this.1
    · rw [Function.update_self]
      exact ⟨hp, hl⟩
    · rw [htokens]
      cases k <;> simp [Item.token]
    · simp [Stage.nested?, CallKey.nested_inj, eq_comm]
  cases hturns with
  | finished hin hall =>
    refine ⟨.settling (.ok ()), h.after hs hi hb (by simp) ?_ (fun k _ => ?_) (by simp [Stage.nested?])
      (fun hl => absurd hl hleaf), .turned hop hc (.finished hin hall) (.inl ⟨rfl, rfl⟩)⟩
    · rw [Function.update_self]
      exact hp
    · cases k <;> simp [Item.token, List.count_cons]
  | body hin hmore =>
    exact ⟨_, hstarted _ rfl rfl, .turned hop hc (.body hin hmore) (.inr ⟨rfl, rfl⟩)⟩
  | condition hin htrips =>
    exact ⟨_, hstarted _ rfl rfl, .turned hop hc (.condition hin htrips) (.inr ⟨rfl, rfl⟩)⟩

/-- The stage of a call that is settled when it is no longer in flight, or was settled before. -/
theorem Shows.void (hs : s.Sound) (h : s.Shows c x) (hi : s.threads[i]? = some (item :: rest))
    {o : Outcome} (hitem : item.Settles c o)
    (hc : ∀ p l, s.world.call? c = some ⟨p, l⟩ → ∃ o', p = .settled o')
    (hb : (s.seenBy rest).Became w [] tasks run s.world.call?) :
    (s.after i item w).Shows c x := by
  have hx : x = .quiet := by
    by_contra hne
    obtain ⟨p, l, hy, hp⟩ := h.fits.exists_of_ne_quiet hne
    obtain ⟨o, rfl⟩ := hc p l hy
    exact hp o rfl
  subst hx
  refine h.same hs hi hb trivial (fun k hk htoken => ?_) areOf_nil ?_
  · have hpos := count_tokens_pos hi htoken
    rcases hitem with rfl | rfl
    · obtain rfl : _ = k := (Prod.mk.inj (Option.some.inj htoken)).2
      rw [h.settle (hk _ rfl)] at hpos
      cases hpos
    · cases htoken
  · rcases hitem with rfl | rfl <;> simp

/-- The stage of what is asked for a turn and is no loop. -/
theorem Shows.turnless (hs : s.Sound) (h : s.Shows c .turn)
    (hi : s.threads[i]? = some (.iterate c :: rest))
    (hno : ∀ info predicate condition body trips p l,
      s.world.operation? c = some (.loop info predicate condition body trips) →
        s.world.call? c ≠ some ⟨p, some l⟩)
    (hb : (s.seenBy rest).Became w [] tasks run s.world.call?) :
    (s.after i (.iterate c) w).Shows c .quiet ∧
      StageMove b s.world c (.iterate c) .turn .quiet := by
  have hleaf : ¬ s.IsLeaf c := fun hl => by cases h.leaf hl
  refine ⟨h.come hs hi hb hleaf rfl (by simp) trivial (fun k => ?_) (by simp [Stage.nested?]),
    .lost fun info predicate condition body trips hop => ?_⟩
  · cases k <;> simp [Item.token]
  · have hfits := h.fits
    obtain ⟨p, l, hc, -⟩ := hfits.exists_of_ne_quiet (by simp)
    rw [hc] at hfits
    cases l with
    | none => exact hfits
    | some l => exact hno _ _ _ _ _ p l hop hc

/-- The stage of a loop when the start of its nested run has returned. -/
theorem Shows.of_iterated (hs : s.Sound) (h : s.Shows c x)
    (hi : s.threads[i]? = some (.iterated c :: rest))
    (hb : (s.seenBy rest).Became w items tasks run call)
    (hm : CallMove b (s.seenBy rest) (.iterated c) items call) :
    ∃ x', (s.after i (.iterated c) w).Shows c x' ∧ StageMove b s.world c (.iterated c) x x' := by
  have hfits := h.fits
  have hpos : 0 < x.weight .iterated := h.pos_of_token hi rfl (by simp)
  have hleaf : ¬ s.IsLeaf c := fun hl => by simp [h.leaf hl] at hpos
  cases hm with
  | spares hitem => cases hitem
  | ended hitem | settled hitem | void hitem => simp [Item.Settles] at hitem
  | advances hc hl hadv =>
    rw [show s.world.call? _ = _ from hc] at hfits
    rcases Stage.eq_started_or_closing hpos with ⟨n, rfl⟩ | ⟨o', rfl⟩
    · cases hl.symm.trans hfits.2
    · obtain rfl := Progress.settled.inj (hl.symm.trans hfits.2)
      refine ⟨_, h.advance hs hi hb rfl hadv hfits.1 hleaf rfl (fun k => ?_)
        (by simp [Stage.nested?]), .advances hc hadv⟩
      cases k <;> simp [Item.token]
  | waits hc hl =>
    rw [show s.world.call? _ = _ from hc] at hfits
    rcases Stage.eq_started_or_closing hpos with ⟨n, rfl⟩ | ⟨o', rfl⟩
    · refine ⟨.inside n, h.come hs hi hb hleaf rfl (by simp) ?_ (fun k => ?_)
        (by simp [Stage.nested?]), .waits⟩
      · rw [Function.update_self]
        exact ⟨hfits.1, rfl⟩
      · cases k <;> simp [Item.token]
    · exact absurd hfits.2 (hl o')
  | loopless hc =>
    obtain ⟨p, l, hy⟩ := hfits.exists_loop hpos
    exact absurd hy (hc p l)

/-- The stage of a call when its nested run ends. -/
theorem Shows.of_settleRun (hs : s.Sound) (h : s.Shows c x) {n : Nat} {o : Outcome}
    (hi : s.threads[i]? = some (.settleRun (c.nested n) o :: rest))
    (hb : (s.seenBy rest).Became w items tasks run call)
    (hm : CallMove b (s.seenBy rest) (.settleRun (c.nested n) o) items call) :
    ∃ x', (s.after i (.settleRun (c.nested n) o) w).Shows c x' ∧
      StageMove b s.world c (.settleRun (c.nested n) o) x x' := by
  have hfits := h.fits
  have hnested := h.nested_of_settleRun hs hi
  have hleaf : ¬ s.IsLeaf c := fun hl => by simp [h.leaf hl, Stage.nested?] at hnested
  have hcaller : ∀ {c'}, (c.nested n).caller? = some c' → c = c' := fun {c'} hr =>
    Option.some.inj ((CallKey.caller?_nested c n).symm.trans hr)
  cases hm with
  | spares hitem => cases hitem
  | ended hitem | settled hitem | void hitem => simp [Item.Settles] at hitem
  | passed hr hc =>
    obtain rfl := hcaller hr
    rw [show s.world.call? _ = _ from hc] at hfits
    rcases Stage.eq_of_nested? hnested with rfl | rfl
    · refine ⟨.settling _, h.come hs hi hb hleaf rfl (by simp) ?_ (fun k => ?_) (fun m => ?_),
        .passed hc⟩
      · rw [show (s.seenBy rest).call? _ = _ from hc]
        exact hfits
      · cases k <;> simp [Item.token, List.count_cons]
      · simp [Stage.nested?, CallKey.nested_inj]
    · cases hfits
  | noted hr hc hl =>
    obtain rfl := hcaller hr
    rw [show s.world.call? _ = _ from hc] at hfits
    rcases Stage.eq_of_nested? hnested with rfl | rfl
    · cases hl.symm.trans hfits.2
    · refine ⟨.closing _, h.come hs hi hb hleaf rfl (by simp) ?_ (fun k => ?_) (fun m => ?_), .noted⟩
      · rw [Function.update_self]
        exact ⟨hfits.1, rfl⟩
      · cases k <;> simp [Item.token]
      · simp [Stage.nested?, CallKey.nested_inj]
  | goesOn hr hc hl hadv =>
    obtain rfl := hcaller hr
    rw [show s.world.call? _ = _ from hc] at hfits
    rcases Stage.eq_of_nested? hnested with rfl | rfl
    · refine ⟨_, h.advance hs hi hb rfl hadv hfits.1 hleaf rfl (fun k => ?_) (fun m hm => ?_),
        .goesOn hc hadv⟩
      · cases k <;> simp [Item.token]
      · obtain rfl : n = m := by simpa [Stage.nested?] using hm
        exact ⟨_, rfl⟩
    · cases hl.symm.trans hfits.2
  | late hr hc =>
    obtain rfl := hcaller hr
    obtain ⟨p, l, hy, hp⟩ := hfits.exists_of_ne_quiet fun hq => by simp [hq, Stage.nested?] at hnested
    obtain ⟨l', o', rfl, hl⟩ := hc p l hy
    rw [hy] at hfits
    rcases Stage.eq_of_nested? hnested with rfl | rfl <;> cases hl.symm.trans hfits.2

theorem Shows.untouched (hs : s.Sound) (h : s.Shows c x) (hi : s.threads[i]? = some (item :: rest))
    (hb : (s.seenBy rest).Became w items tasks run call) (hfits : x.Fits (call c))
    (htoken : item.token = none) (hitems : ∃ c', c' ≠ c ∧ AreOf c' items)
    (hrun : ∀ n o, item ≠ .settleRun (c.nested n) o) :
    ∃ x', (s.after i item w).Shows c x' ∧ StageMove b s.world c item x x' :=
  ⟨x, h.same hs hi hb hfits (by simp [htoken]) hitems hrun, .same⟩

/-- The stage of a call that ends. -/
theorem Shows.ended {p : Progress} {l : Option LoopState} (hs : s.Sound) (hf : s.Faithful)
    (h : s.Shows c x) (hi : s.threads[i]? = some (item :: rest))
    (hitem : item = .returned c ∧ p = .settled o ∨ item.Settles c o)
    (hc : s.world.call? c = some ⟨p, l⟩) (hitems : ∀ y ∈ items, y.IsPlain)
    (hb : (s.seenBy rest).Became w items tasks run (Function.update s.world.call? c none)) :
    ∃ x', (s.after i item w).Shows c x' ∧ StageMove b s.world c item x x' := by
  rcases hitem with ⟨rfl, rfl⟩ | hitem
  · have hx : x = .quiet := by
      have hfits := h.fits
      rw [hc] at hfits
      by_contra hne
      exact hfits.unsettled hne _ rfl
    subst hx
    exact h.untouched hs hi hb trivial rfl (areOf_plain hitems) (by simp)
  · exact h.settled hs hf hi hitem (by simp [hc]) hb hitems

/-- How the stage of a call changes with an item. -/
theorem Shows.move (hs : s.Sound) (hf : s.Faithful) (h : s.Shows c x)
    (hi : s.threads[i]? = some (item :: rest))
    (hb : (s.seenBy rest).Became w items tasks run call)
    (hm : CallMove b (s.seenBy rest) item items call) :
    ∃ x', (s.after i item w).Shows c x' ∧ StageMove b s.world c item x x' := by
  by_cases hkey : item.key? = some c
  case neg =>
    obtain ⟨hcall, hother⟩ := hm.other hkey
    refine ⟨x, h.same hs hi hb ?_ (fun k _ hk => hkey (key?_of_token hk)) hother
      (fun n o ho => hkey (by rw [ho]; rfl)), .same⟩
    rw [hcall]
    exact h.fits
  by_cases hrun : ∃ n o, item = .settleRun (c.nested n) o
  · obtain ⟨n, o, rfl⟩ := hrun
    exact h.of_settleRun hs hi hb hm
  by_cases hiterated : item = .iterated c
  · subst hiterated
    exact h.of_iterated hs hi hb hm
  have hfits := h.fits
  cases hm with
  | spares hitem =>
    rw [key?_of_sparesCalls hitem] at hkey
    cases hkey
  | uncalled | unreturned =>
    obtain rfl := Option.some.inj hkey
    exact h.untouched hs hi hb hfits rfl areOf_nil (by simp)
  | called hop hopens =>
    obtain rfl := Option.some.inj hkey
    exact h.open hs hi hop hopens hb
  | awaited hc =>
    obtain rfl := Option.some.inj hkey
    refine h.untouched hs hi hb ?_ rfl areOf_nil (by simp)
    rw [show s.world.call? _ = _ from hc] at hfits
    rw [Function.update_self]
    exact hfits.await
  | ended hitem hitems =>
    rcases hitem with ⟨rfl, hc⟩ | ⟨hitem, hc⟩
    · obtain rfl := Option.some.inj hkey
      exact h.ended hs hf hi (.inl ⟨rfl, rfl⟩) hc hitems hb
    · obtain rfl := Option.some.inj (hitem.key?.symm.trans hkey)
      exact h.ended hs hf hi (.inr hitem) hc hitems hb
  | settled hitem hc =>
    obtain rfl := Option.some.inj (hitem.key?.symm.trans hkey)
    exact h.settled hs hf hi hitem (fun hnone => by cases hnone.symm.trans hc) hb (by simp)
  | void hitem hc =>
    obtain rfl := Option.some.inj (hitem.key?.symm.trans hkey)
    exact ⟨x, h.void hs hi hitem hc hb, .same⟩
  | turns hop hc hturns =>
    obtain rfl := Option.some.inj hkey
    obtain rfl := Stage.eq_turn (h.pos_of_token hi rfl (by simp))
    exact h.turn hs hi hop hc hturns hb
  | turnless hno =>
    obtain rfl := Option.some.inj hkey
    obtain rfl := Stage.eq_turn (h.pos_of_token hi rfl (by simp))
    exact ⟨.quiet, h.turnless hs hi hno hb⟩
  | advances | waits | loopless =>
    obtain rfl := Option.some.inj hkey
    exact absurd rfl hiterated
  | passed hr | noted hr | goesOn hr | late hr =>
    obtain rfl := Option.some.inj (hr.symm.trans hkey)
    obtain ⟨n, rfl⟩ := RunKey.eq_nested hr
    exact absurd ⟨n, _, rfl⟩ hrun

omit [Leaf α] in
theorem Spawned.hasBegun_iff {s' : Crew α σ ι} {agenda : List (Item α ι)} {events : List Event}
    (h : s.Spawned s' tasks agenda events) (hstart : ∀ region, .start r region ∉ agenda)
    (hstarted : .started r ∉ events) : s'.HasBegun r ↔ s.HasBegun r := by
  have hcount : ∀ x, x = Sign.start ∨ x = Sign.started →
      s'.signs.count (r, x) = s.signs.count (r, x) := fun x hx => by
    have hin : (threadSigns agenda ++ events.filterMap Event.sign).count (r, x) = 0 := by
      rw [List.count_eq_zero, List.mem_append, threadSigns, List.mem_filterMap, List.mem_filterMap]
      rintro (⟨y, hy, hsign⟩ | ⟨e, he, hsign⟩)
      · rcases hx with rfl | rfl
        · obtain ⟨region, rfl⟩ := sign_start_iff.1 hsign
          exact hstart region hy
        · cases y <;> simp [Item.sign] at hsign
      · rcases hx with rfl | rfl
        · cases e <;> simp [Event.sign] at hsign
        · obtain rfl : e = .started r := by cases e <;> simp_all [Event.sign]
          exact hstarted he
    have hout : (tasks.filterMap Task.sign).count (r, x) = 0 := by
      rw [List.count_eq_zero, List.mem_filterMap]
      rintro ⟨t, -, hsign⟩
      rcases hx with rfl | rfl <;> cases t <;> simp [Task.sign] at hsign
    have := h.count (r, x)
    omega
  simp only [HasBegun, count_view, hcount _ (.inl rfl), hcount _ (.inr rfl)]

omit [Leaf α] in
/-- A new thread changes nothing of calls. -/
theorem Shows.spawned {s' : Crew α σ ι} {agenda : List (Item α ι)} {events : List Event}
    (h : s.Shows c x) (hsp : s.Spawned s' tasks agenda events) (hlog : s'.log = s.log ++ events)
    (hagenda : ∀ y ∈ agenda, y.token = none ∧ ∀ r region, y = .start r region → r.scope = [])
    (hevents : ∀ e ∈ events, ∃ c, e = .dropped c) : s'.Shows c x := by
  have htokens : s'.tokens = s.tokens := by
    have hnone : agenda.filterMap Item.token = [] :=
      List.filterMap_eq_nil_iff.2 fun y hy => (hagenda y hy).1
    simp [tokens, hsp.threads, hnone]
  have hleaf : s'.IsLeaf c ↔ s.IsLeaf c := by
    simp only [IsLeaf, Belongs, hsp.begun]
  have hpending : ∀ n, s'.Pending (c.nested n) ↔ s.Pending (c.nested n) := fun n => by
    have hresolved : ∀ o, .resolved (c.nested n) o ∉ events := fun o hmem => by
      obtain ⟨c', hc'⟩ := hevents _ hmem
      cases hc'
    have hstarted : .started (c.nested n) ∉ events := fun hmem => by
      obtain ⟨c', hc'⟩ := hevents _ hmem
      cases hc'
    have hstart : ∀ region, .start (c.nested n) region ∉ agenda := fun region hmem => by
      cases (hagenda _ hmem).2 _ _ rfl
    rw [Pending, Pending, hsp.hasBegun_iff hstart hstarted]
    simp [hlog, hresolved]
  refine ⟨?_, ?_, ?_, fun hn o => ?_, fun n => ?_, fun hl => h.leaf (hleaf.1 hl)⟩
  · rw [hsp.call]
    exact h.fits
  · rw [htokens, h.iterate]
  · rw [htokens, h.iterated]
  · rw [htokens, h.settle (fun hl => hn (hleaf.2 hl))]
  · rw [hpending, h.nested]

omit [Leaf α] in
/-- What is not done by a thread only brings a new thread, which has no token and no nested run. -/
theorem Move.spawned_of_ne_act {s' : Crew α σ ι} [Leaf α] {ch : Choice σ ι} (hm : Move b ch s s')
    (hch : ∀ i, ch ≠ .act i) :
    ∃ tasks agenda events, s.Spawned s' tasks agenda events ∧ s'.log = s.log ++ events ∧
      (∀ y ∈ agenda, y.token = none ∧ ∀ r region, y = .start r region → r.scope = []) ∧
      ∀ e ∈ events, ∃ c, e = .dropped c := by
  cases hm with
  | act => exact absurd rfl (hch _)
  | @take _ k q q' t hk hq =>
    have h := spawned_of_give s hk hq s.world.device (World.tasks t) []
    rw [List.append_nil] at h
    refine ⟨_, _, _, h, (List.append_nil _).symm, ?_, by simp⟩
    cases t <;> simp [World.tasks, Item.token]
  | @drop _ k q q' t hk hq =>
    cases t with
    | visit r j =>
      have h := spawned_of_give s hk hq s.world.device [.release r] [.dropped ⟨r, j⟩]
      exact ⟨_, _, _, h, rfl, by simp [Item.token], by simp⟩
    | work y =>
      have h := spawned_of_give s hk hq (b.discard y s.world.device).1
        ((b.discard y s.world.device).2.map .effect) []
      rw [List.append_nil] at h
      exact ⟨_, _, _, h, (List.append_nil _).symm, by simp [Item.token], by simp⟩
  | outside change =>
    exact ⟨_, _, _, spawned_outside s change, (List.append_nil _).symm, by simp [Item.token],
      by simp⟩
  | execute hk =>
    exact ⟨_, _, _, spawned_of_execute s hk, (List.append_nil _).symm, by simp [Item.token],
      by simp⟩

omit [Leaf α] in
theorem Move.spawned {s' : Crew α σ ι} [Leaf α] {ch : Choice σ ι} (hm : Move b ch s s') :
    (∃ i item rest w, s.threads[i]? = some (item :: rest) ∧
      (s.seenBy (item :: rest)).step? b = some w ∧ s' = s.after i item w) ∨
    ∃ tasks agenda events, s.Spawned s' tasks agenda events ∧ s'.log = s.log ++ events ∧
      (∀ y ∈ agenda, y.token = none ∧ ∀ r region, y = .start r region → r.scope = []) ∧
      ∀ e ∈ events, ∃ c, e = .dropped c := by
  by_cases hch : ∃ i, ch = .act i
  · obtain ⟨i, rfl⟩ := hch
    cases hm with
    | act hi hw => exact .inl ⟨_, _, _, _, hi, hw, rfl⟩
  · exact .inr (hm.spawned_of_ne_act fun i hi => hch ⟨i, hi⟩)

omit [Leaf α] in
theorem hasBegun_of_head {region : Program α} (hi : s.threads[i]? = some (.start r region :: rest)) :
    s.HasBegun r := Nat.lt_of_lt_of_le (count_pos_of_head hi rfl) (Nat.le_add_right _ _)

/-- A crew that some choices lead to from states in which `P` holds. -/
inductive ReachableWhile (P : Crew α σ ι → Prop) (b : Backend α σ ι) : Crew α σ ι → Prop
  | fresh {w : World α σ ι} (h : w.IsFresh) : ReachableWhile P b { world := w }
  | move {s t : Crew α σ ι} {c : Choice σ ι} (hs : ReachableWhile P b s) (hp : P s)
      (hm : Move b c s t) : ReachableWhile P b t

theorem ReachableWhile.reachable {P : Crew α σ ι → Prop} (h : ReachableWhile P b s) :
    Reachable b s := by
  induction h with
  | fresh h => exact .fresh h
  | move _ _ hm ih => exact ih.move hm

theorem ReachableWhile.act {P : Crew α σ ι → Prop} (h : ReachableWhile P b s) (hp : P s) (i : Nat) :
    ReachableWhile P b (s.act b i) := by
  rcases act_cases b s i with heq | hm
  · rwa [heq]
  · exact h.move hp hm

theorem ReachableWhile.acts {P : Crew α σ ι → Prop} (h : ReachableWhile P b s) (i n : Nat)
    (hp : ∀ k < n, P ((Crew.act b i)^[k] s)) : ReachableWhile P b ((Crew.act b i)^[n] s) := by
  induction n with
  | zero => exact h
  | succ n ih =>
    rw [Function.iterate_succ_apply']
    exact (ih fun k hk => hp k (Nat.lt_succ_of_lt hk)).act (hp n (Nat.lt_succ_self n)) i

/-- Every call is at some stage. -/
theorem ReachableWhile.shows (h : ReachableWhile Faithful b s) (c : CallKey) :
    ∃ x, s.Shows c x := by
  induction h generalizing c with
  | fresh hw =>
    refine ⟨.quiet, trivial, rfl, rfl, fun _ _ => rfl, fun n => ?_, fun _ => rfl⟩
    have hnone : ¬ ({ world := _ } : Crew α σ ι).HasBegun (c.nested n) := fun hb => by
      have hknows := (sound_fresh hw).known _ hb
      simp [World.Knows, hw.execution?_eq_none] at hknows
    simp [Pending, hnone, Stage.nested?]
  | @move s t ch hr hf hm ih =>
    obtain ⟨x, hx⟩ := ih c
    have hs := hr.reachable.sound
    rcases hm.spawned with ⟨i, item, rest, w, hi, hw, rfl⟩ | ⟨tasks, agenda, events, hsp, hlog, ha, he⟩
    · obtain ⟨items, tasks, run, call, hb, hc⟩ := World.step_cases rfl hw fun r region hr =>
        hs.known r (hasBegun_of_head (hr ▸ hi))
      obtain ⟨x', hx', -⟩ := hx.move hs hf hi hb hc
      exact ⟨x', hx'⟩
    · exact ⟨x, hx.spawned hsp hlog ha he⟩

end Crew

end OpFlow.Machine
