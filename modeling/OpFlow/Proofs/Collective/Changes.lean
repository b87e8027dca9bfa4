import OpFlow.Collective.Transport
import OpFlow.Proofs.Async.Cells

/-!
What a step of an exchange leaves as it is. An arrival changes the group of its own key at most, and
no cell that is there; waiting for a cell and settling it leave all groups, and every other cell.
-/
namespace OpFlow

namespace Rendezvous

variable {V κ : Type} (r : Rendezvous V κ) (k : RendezvousKey) (g : RendezvousGroup V) (isNew : Bool)

/-- A rendezvous has changed at most the group of one key, and may have got new cells. -/
structure ChangedAt (r r' : Rendezvous V κ) (k : RendezvousKey) : Prop where
  group : ∀ j, k ≠ j → r'.group? j = r.group? j
  result : ∀ c, r'.result? c = r.result? c
  waiters : ∀ c, r'.cells.waiters c = r.cells.waiters c
  size : r.cells.size ≤ r'.cells.size

theorem changedAt_groupFor : r.ChangedAt (r.groupFor k).1 k := by
  rcases r.groupFor_fst k with h | h
  · rw [h]
    exact ⟨fun _ _ => rfl, fun _ => rfl, fun _ => rfl, Nat.le_refl _⟩
  · rw [h]
    exact ⟨fun _ _ => rfl, fun c => r.cells.result?_fresh c, r.cells.waiters_fresh, by simp⟩

theorem changedAt_leave : r.ChangedAt (r.leave k g isNew).1 k := by
  unfold leave
  split
  · exact ⟨fun j hj => group?_store_of_ne r hj g, fun _ => rfl, fun _ => rfl, Nat.le_refl _⟩
  · exact ⟨fun j hj => group?_forget_of_ne r hj, fun _ => rfl, fun _ => rfl, Nat.le_refl _⟩

theorem enter_eq {rank : Nat} (hrank : rank < k.size)
    (hfree : (r.groupFor k).2.slots[rank]?.join = none) (value : V) :
    r.enter k rank value =
      (r.groupFor k).1.leave k ((r.groupFor k).2.add rank value) (r.group? k).isNone := by
  rw [enter, if_neg (Nat.not_le_of_lt hrank)]
  simp [hfree]

theorem ChangedAt.trans {r r' r'' : Rendezvous V κ} {k : RendezvousKey} (h : r.ChangedAt r' k)
    (h' : r'.ChangedAt r'' k) : r.ChangedAt r'' k :=
  ⟨fun j hj => (h'.group j hj).trans (h.group j hj), fun c => (h'.result c).trans (h.result c),
    fun c => (h'.waiters c).trans (h.waiters c), Nat.le_trans h.size h'.size⟩

theorem changedAt_enter (rank : Nat) (value : V) : r.ChangedAt (r.enter k rank value).1 k := by
  have hself : r.ChangedAt r k := ⟨fun _ _ => rfl, fun _ => rfl, fun _ => rfl, Nat.le_refl _⟩
  have hfor := r.changedAt_groupFor k
  unfold enter
  split
  · exact hself
  · dsimp only
    split
    · exact hfor
    · exact hfor.trans (changedAt_leave _ _ _ _)

theorem cells_lapse (cell : Nat) : (r.lapse k cell).1.cells = r.cells := by
  unfold lapse
  split
  · split <;> rfl
  · rfl

theorem kind_of_lapse {cell : Nat} {e : Error} (h : (r.lapse k cell).2 = some e) :
    e.kind = .rendezvousTimeout := by
  unfold lapse at h
  split at h
  · split at h
    · dsimp only at h
      split at h <;> cases h
      rfl
    · cases h
  · cases h

theorem result?_expire_or (cell d : Nat) : (r.expire k cell).1.result? d = r.result? d ∨
    ∃ e, (r.expire k cell).1.result? d = some (.error e) ∧ e.kind = .rendezvousTimeout := by
  have hcells := r.cells_lapse k cell
  have hkind : ∀ {e}, (r.lapse k cell).2 = some e → e.kind = .rendezvousTimeout := r.kind_of_lapse k
  unfold expire
  generalize r.lapse k cell = lapsed at hcells hkind
  obtain ⟨r', _ | e⟩ := lapsed
  · exact .inl (congrArg (fun cells : Cells (List V) κ => cells.result? d) hcells)
  · refine (Cells.result?_settle_or cell (.error e) d).imp (fun h => h.trans ?_) fun h => ⟨e, h, hkind rfl⟩
    exact congrArg (fun cells : Cells (List V) κ => cells.result? d) hcells

end Rendezvous

namespace Transport

variable {κ : Type} (t : Transport κ) (k : ExchangeKind) (c : Nat)

/-- The groups of a transport are the same, and so is how many cells there are. -/
structure KeepsGroups (t t' : Transport κ) : Prop where
  group : ∀ k room, (t'.get k).group? room = (t.get k).group? room
  size : ∀ k, (t'.get k).cells.size = (t.get k).cells.size

/-- A transport has changed at most the group of one key of one kind, and may have got new cells. -/
structure ChangedAt (t t' : Transport κ) (k : ExchangeKind) (room : RendezvousKey) : Prop where
  group : ∀ {l j}, (k = l → room ≠ j) → (t'.get l).group? j = (t.get l).group? j
  result : ∀ l c, (t'.get l).result? c = (t.get l).result? c
  waiters : ∀ l c, (t'.get l).cells.waiters c = (t.get l).cells.waiters c
  size : ∀ l, (t.get l).cells.size ≤ (t'.get l).cells.size

theorem changedAt_set {k : ExchangeKind} {r : Rendezvous (List Bytes) κ} {room : RendezvousKey}
    (h : (t.get k).ChangedAt r room) : t.ChangedAt (t.set k r) k room := by
  refine ⟨fun {l j} hne => ?_, fun l c => ?_, fun l c => ?_, fun l => ?_⟩ <;> rw [get_set] <;> split
  · next hl => exact hl ▸ h.group j (hne hl)
  · rfl
  · next hl => exact hl ▸ h.result c
  · rfl
  · next hl => exact hl ▸ h.waiters c
  · rfl
  · next hl => exact hl ▸ h.size
  · exact Nat.le_refl _

theorem keepsGroups_set {r : Rendezvous (List Bytes) κ}
    (hgroup : ∀ room, r.group? room = (t.get k).group? room)
    (hsize : r.cells.size = (t.get k).cells.size) : t.KeepsGroups (t.set k r) := by
  refine ⟨fun l room => ?_, fun l => ?_⟩ <;> rw [get_set] <;> split
  · next hl => exact hl ▸ hgroup room
  · rfl
  · next hl => exact hl ▸ hsize
  · rfl

theorem keepsGroups_register (w : κ) : t.KeepsGroups (t.register k c w) :=
  t.keepsGroups_set k (fun _ => rfl) (Cells.size_register _ _ _)

theorem keepsGroups_settle (values : List (List Bytes)) :
    t.KeepsGroups (t.settle k c values).1 :=
  t.keepsGroups_set k (fun _ => rfl) (Cells.size_settle _ _ _)

theorem result?_register (w : κ) (l : ExchangeKind) (d : Nat) :
    ((t.register k c w).get l).result? d = (t.get l).result? d := by
  rw [register, get_set]
  split
  · next hl => exact hl ▸ Cells.result?_register _ _ _ _
  · rfl

theorem changedAt_enter (x : Exchange) (key : RendezvousKey) (rank : Nat) (blocks : List Bytes) :
    t.ChangedAt (t.enter x key rank blocks).1 x.kind key := by
  unfold enter
  split
  · exact ⟨fun _ => rfl, fun _ _ => rfl, fun _ _ => rfl, fun _ => Nat.le_refl _⟩
  · exact t.changedAt_set (Rendezvous.changedAt_enter _ _ _ _)

theorem result?_settle_or (values : List (List Bytes)) (l : ExchangeKind) (d : Nat) :
    ((t.settle k c values).1.get l).result? d = (t.get l).result? d ∨
      ((t.settle k c values).1.get l).result? d = some (.ok values) := by
  rw [settle, get_set]
  split
  · next hl => exact hl ▸ Cells.result?_settle_or c (.ok values) d
  · exact .inl rfl

theorem result?_expire_or (x : Expiry) (l : ExchangeKind) (d : Nat) :
    ((t.expire x).1.get l).result? d = (t.get l).result? d ∨
      ∃ e, ((t.expire x).1.get l).result? d = some (.error e) ∧ e.kind = .rendezvousTimeout := by
  rw [expire, get_set]
  split
  · next hl => exact hl ▸ Rendezvous.result?_expire_or _ x.key x.cell d
  · exact .inl rfl

theorem result?_settle_of_ne (values : List (List Bytes)) {l : ExchangeKind} {d : Nat}
    (h : (k, c) ≠ (l, d)) :
    ((t.settle k c values).1.get l).result? d = (t.get l).result? d := by
  rw [settle, get_set]
  split
  · next hl =>
    subst hl
    exact Cells.result?_settle_of_ne (fun hc => h (by rw [hc])) _
  · rfl

theorem result?_settle_of_ne_none (values : List (List Bytes)) {l : ExchangeKind} {d : Nat}
    (h : (t.get l).result? d ≠ none) :
    ((t.settle k c values).1.get l).result? d = (t.get l).result? d := by
  rw [settle, get_set]
  split
  · next hl => exact hl ▸ Cells.result?_settle_of_ne_none _ (hl ▸ h) _
  · rfl

theorem result?_settle_self {c : Nat} (values : List (List Bytes)) (hc : c < (t.get k).cells.size)
    (h : (t.get k).result? c = none) :
    ((t.settle k c values).1.get k).result? c = some (.ok values) := by
  rw [settle, get_set, if_pos rfl]
  exact Cells.result?_settle_self hc h _

end Transport

end OpFlow
