import OpFlow.Proofs.Machine.Outcome

/-!
What the log says. A node is launched, skipped, dropped or ended as often as its log says so, a run
is resolved at most once, and an execution has the outcome with which its outermost run was resolved.
-/
namespace OpFlow.Machine

variable {α σ ι : Type}

/-- The event that gives a sign, if one does. -/
def Event.ofSign : RunKey × Sign → Option Event
  | (r, .started) => some (.started r)
  | (r, .resolved o) => some (.resolved r o)
  | (r, .node j .launched) => some (.launched ⟨r, j⟩)
  | (r, .node j .skipped) => some (.skipped ⟨r, j⟩)
  | (r, .node j .dropped) => some (.dropped ⟨r, j⟩)
  | (r, .node j (.ended o)) => some (.ended ⟨r, j⟩ o)
  | _ => none

theorem Event.ofSign_eq {e : Event} {y : RunKey × Sign} (h : e.sign = some y) :
    ofSign y = some e := by
  cases e <;> cases h <;> rfl

theorem Event.sign_inj {e e' : Event} {y : RunKey × Sign} (h : e.sign = some y)
    (h' : e'.sign = some y) : e' = e :=
  Option.some.inj ((ofSign_eq h').symm.trans (ofSign_eq h))

theorem Item.ofSign_eq_none {item : Item α ι} {y : RunKey × Sign} (h : item.sign = some y) :
    Event.ofSign y = none := by
  cases item <;> cases h <;> rfl

theorem Task.ofSign_eq_none {t : Task ι} {y : RunKey × Sign} (h : t.sign = some y) :
    Event.ofSign y = none := by
  cases t with
  | visit r j =>
    cases h
    rfl
  | work => cases h

namespace Crew

variable {s : Crew α σ ι} {r : RunKey}

theorem count_filterMap_sign {y : RunKey × Sign} {e : Event} (he : e.sign = some y)
    (log : List Event) : (log.filterMap Event.sign).count y = log.count e := by
  induction log with
  | nil => rfl
  | cons e' log ih =>
    rw [List.filterMap_cons, List.count_cons, ← ih]
    by_cases h : e' = e
    · subst h
      simp [he]
    · have hne : e'.sign ≠ some y := fun hy => h (Event.sign_inj he hy)
      split
      case h_1 => simp [h]
      case h_2 y' hy' =>
        have : y' ≠ y := fun hyy => hne (hyy ▸ hy')
        simp [h, this]

/-- What the log notes of a run is seen as often as it is noted. -/
theorem count_view_of_event (s : Crew α σ ι) {e : Event} {x : Sign} (he : e.sign = some (r, x)) :
    (s.view r).count x = s.log.count e := by
  have hthreads : (s.threads.flatMap threadSigns).count (r, x) = 0 := by
    simp only [List.count_eq_zero, List.mem_flatMap, threadSigns, List.mem_filterMap, not_exists,
      not_and]
    intro _ _ item _ h
    have := (Item.ofSign_eq_none h).symm.trans (Event.ofSign_eq he)
    cases this
  have hkept : (s.world.kept.filterMap Task.sign).count (r, x) = 0 := by
    simp only [List.count_eq_zero, List.mem_filterMap, not_exists, not_and]
    intro t _ h
    have := (Task.ofSign_eq_none h).symm.trans (Event.ofSign_eq he)
    cases this
  rw [count_view, signs, List.count_append, List.count_append, hthreads, hkept,
    count_filterMap_sign he]
  omega

theorem marks_launched (s : Crew α σ ι) (r : RunKey) (j : Nat) :
    (s.view r).marks j .launched = s.log.count (.launched ⟨r, j⟩) := s.count_view_of_event rfl

theorem marks_skipped (s : Crew α σ ι) (r : RunKey) (j : Nat) :
    (s.view r).marks j .skipped = s.log.count (.skipped ⟨r, j⟩) := s.count_view_of_event rfl

theorem marks_dropped (s : Crew α σ ι) (r : RunKey) (j : Nat) :
    (s.view r).marks j .dropped = s.log.count (.dropped ⟨r, j⟩) := s.count_view_of_event rfl

theorem marks_ended (s : Crew α σ ι) (r : RunKey) (j : Nat) (o : Outcome) :
    (s.view r).marks j (.ended o) = s.log.count (.ended ⟨r, j⟩ o) := s.count_view_of_event rfl

theorem count_resolved (s : Crew α σ ι) (r : RunKey) (o : Outcome) :
    (s.view r).count (.resolved o) = s.log.count (.resolved r o) := s.count_view_of_event rfl

theorem count_resolved_pos {s : Crew α σ ι} {r : RunKey} {o : Outcome} (ho : .resolved r o ∈ s.log) :
    0 < (s.view r).count (.resolved o) := by
  rw [count_resolved]
  exact List.count_pos_iff.2 ho

def settlement (r : RunKey) : Item α ι → Option Outcome
  | .settleRun r' o => if r' = r then some o else none
  | _ => none

def resolution (r : RunKey) : Event → Option Outcome
  | .resolved r' o => if r' = r then some o else none
  | _ => none

/-- All outcomes with which a run has been resolved or is about to be. -/
def endings (s : Crew α σ ι) (r : RunKey) : List Outcome :=
  s.threads.flatten.filterMap (settlement r) ++ s.log.filterMap (resolution r)

theorem count_filterMap_eq {β γ δ : Type} [BEq γ] [LawfulBEq γ] [BEq δ] [LawfulBEq δ]
    (f : β → Option γ) (g : β → Option δ) {x : γ} {y : δ} (h : ∀ z, f z = some x ↔ g z = some y)
    (xs : List β) : (xs.filterMap f).count x = (xs.filterMap g).count y := by
  induction xs with
  | nil => rfl
  | cons z zs ih =>
    have hz := h z
    simp only [List.filterMap_cons]
    cases hf : f z <;> cases hg : g z <;> simp_all [List.count_cons]
    split <;> simp_all

theorem count_endings (s : Crew α σ ι) (r : RunKey) (o : Outcome) :
    (s.endings r).count o = (s.view r).count (.closing o) + (s.view r).count (.resolved o) := by
  have hitem : ∀ item : Item α ι, settlement r item = some o ↔ item.sign = some (r, .closing o) :=
    fun item => by cases item <;> simp [settlement, Item.sign]
  have hevent : ∀ e : Event, resolution r e = some o ↔ e.sign = some (r, .resolved o) :=
    fun e => by cases e <;> simp [resolution, Event.sign]
  have hthreads : s.threads.flatten.filterMap Item.sign = s.threads.flatMap threadSigns := by
    rw [List.filterMap_flatten, List.flatMap_def]
    rfl
  have hkept : ∀ x : Sign, (x = .closing o ∨ x = .resolved o) →
      (s.world.kept.filterMap Task.sign).count (r, x) = 0 := fun x hx => by
    simp only [List.count_eq_zero, List.mem_filterMap, not_exists, not_and]
    intro t _ h
    rcases hx with rfl | rfl <;> cases t <;> simp [Task.sign] at h
  have hover : (s.view r).count (.closing o) =
      (s.threads.flatten.filterMap (settlement r)).count o := by
    have hlog : (s.log.filterMap Event.sign).count (r, .closing o) = 0 := by
      simp only [List.count_eq_zero, List.mem_filterMap, not_exists, not_and]
      intro e _ h
      cases e <;> simp [Event.sign] at h
    rw [count_filterMap_eq _ _ hitem, hthreads, count_view, signs, List.count_append,
      List.count_append, hkept _ (.inl rfl), hlog]
    omega
  have hresolved : (s.view r).count (.resolved o) = (s.log.filterMap (resolution r)).count o := by
    rw [count_filterMap_eq _ _ hevent, count_resolved,
      count_filterMap_sign (e := .resolved r o) rfl]
  rw [endings, List.count_append, hover, hresolved]

theorem eq_toList_of_count {β : Type} [DecidableEq β] {xs : List β} {y : Option β}
    (h : ∀ x, xs.count x = if y = some x then 1 else 0) : xs = y.toList := by
  have hmem : ∀ x ∈ xs, y = some x := fun x hx => by
    have := h x
    by_contra hne
    rw [if_neg hne, List.count_eq_zero] at this
    exact this hx
  cases xs with
  | nil =>
    cases y with
    | none => rfl
    | some y => simpa using h y
  | cons x xs =>
    obtain rfl := hmem x List.mem_cons_self
    have hx := h x
    rw [if_pos rfl, List.count_cons_self] at hx
    cases xs with
    | nil => rfl
    | cons x' xs =>
      obtain rfl : x = x' := Option.some.inj (hmem x' (by simp))
      simp at hx

variable [Leaf α]

/-- A run is settled with one outcome, or not at all. -/
theorem RunSound.endings (h : s.RunSound r) : ∃ fin, s.endings r = Option.toList fin := by
  cases h with
  | idle h =>
    refine ⟨none, eq_toList_of_count fun o => ?_⟩
    rw [count_endings, h.count _ (by simp), h.count _ (by simp)]
    simp
  | empty h =>
    refine ⟨some (.ok ()), eq_toList_of_count fun o => ?_⟩
    rw [count_endings]
    by_cases ho : o = .ok ()
    · subst ho
      simpa using h.closing
    · rw [h.count _ (by simp) (by simpa using ho) (by simp),
        h.count _ (by simp) (by simp) (by simpa using ho), if_neg fun heq => ho (by simpa using heq.symm)]
  | ordered h => exact ⟨_, eq_toList_of_count fun o => (s.count_endings r o).trans (h.closing o)⟩
  | scheduled h => exact ⟨_, eq_toList_of_count fun o => (s.count_endings r o).trans (h.closing o)⟩

theorem RunSound.length_endings (h : s.RunSound r) : (s.endings r).length ≤ 1 := by
  obtain ⟨fin, hfin⟩ := h.endings
  rw [hfin]
  cases fin <;> simp

omit [Leaf α] in
theorem mem_endings_of_log {o : Outcome} (h : .resolved r o ∈ s.log) :
    o ∈ s.log.filterMap (resolution r) :=
  List.mem_filterMap.2 ⟨_, h, by simp [resolution]⟩

theorem RunSound.endings_eq (h : s.RunSound r) {o : Outcome} (ho : .resolved r o ∈ s.log) :
    s.endings r = [o] := by
  have hmem : o ∈ s.endings r := List.mem_append_right _ (mem_endings_of_log ho)
  obtain ⟨o', ho'⟩ := List.length_eq_one_iff.1
    (Nat.le_antisymm h.length_endings (List.length_pos_of_mem hmem))
  rw [ho', List.mem_singleton] at hmem
  rw [ho', hmem]

omit [Leaf α] in
theorem mem_settlements {i : Nat} {rest : List (Item α ι)} {o : Outcome}
    (hi : s.threads[i]? = some (.settleRun r o :: rest)) :
    o ∈ s.threads.flatten.filterMap (settlement r) := by
  refine List.mem_filterMap.2 ⟨.settleRun r o, List.mem_flatten.2 ⟨_, mem_threads hi, ?_⟩, ?_⟩
  · exact List.mem_cons_self
  · simp [settlement]

theorem Sound.hasBegun_of_settleRun (hs : s.Sound) {i : Nat} {rest : List (Item α ι)}
    {o : Outcome} (hi : s.threads[i]? = some (.settleRun r o :: rest)) : s.HasBegun r := by
  have hover : 0 < (s.view r).count (.closing o) := count_pos_of_head hi rfl
  unfold HasBegun
  cases hs.run r with
  | idle h => rw [h.count _ (by simp)] at hover; cases hover
  | empty h => rw [h.started]; omega
  | ordered h => rw [h.started]; omega
  | scheduled h => rw [h.started]; omega

theorem Sound.not_resolved_of_settleRun (hs : s.Sound) {i : Nat} {rest : List (Item α ι)}
    {o : Outcome} (hi : s.threads[i]? = some (.settleRun r o :: rest)) (o' : Outcome) :
    .resolved r o' ∉ s.log := fun ho' => by
  have hlen := (hs.run r).length_endings
  have h1 := List.length_pos_of_mem (mem_settlements hi)
  have h2 := List.length_pos_of_mem (mem_endings_of_log ho')
  rw [Crew.endings, List.length_append] at hlen
  omega

omit [Leaf α] in
theorem mem_noted_resolved {w : World α σ ι} {item : Item α ι} {o : Outcome} :
    .resolved r o ∈ w.noted item ↔ item = .settleRun r o := by
  cases item with
  | settleRun r' o' => simp [World.noted, eq_comm]
  | effect e =>
    cases e <;> simp only [World.noted]
    case settle => split <;> simp
    all_goals simp
  | _ =>
    simp only [World.noted]
    repeat' split
    all_goals simp

/-- The outcome of an execution is that of its outermost run. -/
theorem Reachable.outcome {b : Backend α σ ι} (h : Reachable b s) {o : Outcome}
    (hr : r.scope = []) (ho : .resolved r o ∈ s.log) :
    s.world.outcome? r.host r.execution = some o := by
  induction h with
  | fresh hw => cases ho
  | @move s t c hs hm ih =>
    have hsound := hs.sound
    cases hm with
    | @act _ i item rest w hi hw =>
      change w.outcome? r.host r.execution = some o
      have hout : ∀ k e, (s.seenBy (item :: rest)).outcome? k e = s.world.outcome? k e :=
        fun _ _ => rfl
      simp only [after, List.mem_append, mem_noted_resolved] at ho
      by_cases hitem : ∃ r' o', item = .settleRun r' o' ∧ r'.scope = []
      · obtain ⟨r', o', rfl, hr'⟩ := hitem
        obtain rfl := Option.some.inj hw
        change ((s.seenBy rest).settleRun b r' o').outcome? r.host r.execution = some o
        rw [World.outcome?_settleRun (w := s.seenBy rest) hr'
          (hsound.known r' (hsound.hasBegun_of_settleRun hi))]
        by_cases heq : r' = r
        · subst heq
          rcases ho with ho | ho
          · exact absurd ho (hsound.not_resolved_of_settleRun hi o)
          · obtain rfl : o' = o := by simpa using ho
            simp
        · rcases ho with ho | ho
          · rw [if_neg fun hk => heq ?_]
            · exact ih ho
            · obtain ⟨_, _, _⟩ := r
              obtain ⟨_, _, _⟩ := r'
              simp_all
          · simp [heq] at ho
      · have hlog : .resolved r o ∈ s.log := by
          rcases ho with ho | rfl
          · exact ho
          · exact absurd ⟨r, o, rfl, hr⟩ hitem
        rw [World.outcome?_step rfl hw fun r' o' h hr' => hitem ⟨r', o', h, hr'⟩, hout]
        exact ih hlog
    | take hk hq => exact ih ho
    | @drop _ k q rest t hk hq =>
      cases t with
      | visit r' j => exact ih (by simpa [lose, spawn] using ho)
      | work x => exact ih ho
    | outside change => exact ih ho
    | @execute _ k host hk =>
      have ho' : .resolved r o ∈ s.log := ho
      have hpush := execution?_push s.world k hk
      change (World.outcome? _ r.host r.execution) = _
      simp only [World.outcome?, spawn, hpush]
      have hold := ih ho'
      rw [if_neg]
      · exact hold
      · rintro ⟨h1, h2⟩
        rw [h1, h2] at hold
        simp [World.outcome?, World.execution?, hk] at hold

/-- An execution that has an outcome has been resolved with it. -/
theorem Reachable.resolved_of_outcome {b : Backend α σ ι} (h : Reachable b s) {k e : Nat}
    {o : Outcome} (ho : s.world.outcome? k e = some o) : .resolved ⟨k, e, []⟩ o ∈ s.log := by
  induction h with
  | @fresh w hw =>
    obtain ⟨x, hx, -⟩ := Option.bind_eq_some_iff.1 ho
    obtain ⟨host, hk, he⟩ := Option.bind_eq_some_iff.1 hx
    rw [hw.executions host (Array.mem_of_getElem? hk)] at he
    cases he
  | @move s t c hs hm ih =>
    have hsound := hs.sound
    cases hm with
    | @act _ i item rest w hi hw =>
      change w.outcome? k e = some o at ho
      by_cases hitem : ∃ r' o', item = .settleRun r' o' ∧ r'.scope = []
      · obtain ⟨⟨k', e', scope⟩, o', rfl, rfl⟩ := hitem
        obtain rfl := Option.some.inj hw
        change ((s.seenBy rest).settleRun b ⟨k', e', []⟩ o').outcome? k e = some o at ho
        rw [World.outcome?_settleRun (w := s.seenBy rest) rfl
          (hsound.known _ (hsound.hasBegun_of_settleRun hi))] at ho
        refine List.mem_append.2 ?_
        split at ho
        case isTrue heq =>
          obtain ⟨rfl, rfl⟩ := heq
          obtain rfl := Option.some.inj ho
          exact .inr (mem_noted_resolved.2 rfl)
        case isFalse => exact .inl (ih ho)
      · rw [World.outcome?_step rfl hw fun r' o' h hr' => hitem ⟨r', o', h, hr'⟩] at ho
        exact List.mem_append_left _ (ih ho)
    | take => exact ih ho
    | @drop _ _ _ _ task =>
      cases task with
      | visit => exact List.mem_append_left _ (ih ho)
      | work => exact ih ho
    | outside => exact ih ho
    | @execute _ k' host hk =>
      refine ih ?_
      change World.outcome? _ k e = some o at ho
      simp only [World.outcome?, spawn, execution?_push s.world k' hk] at ho
      split at ho
      case isTrue => cases ho
      case isFalse => exact ho

end Crew

end OpFlow.Machine
