import OpFlow.Proofs.Async.Ownership

/-!
Every step keeps everything in its place: the cells that are referred to are there, each pending cell
has one owner, and joins count the inputs that are missing.
-/
namespace OpFlow.Async

variable {α : Type}

def Turn.free (turn : Turn α (Ticketed α)) (others : List (Job α)) : List (Job α) :=
  turn.woken.map Prod.snd ++ turn.next ++ others

theorem Job.Awaits.of_registers {n : NetworkOf α (Ticketed α)} {j k : Job α} {c : Nat}
    (h : n.Registers j c k) (hj : n.Runs j) : k.Awaits c := by
  rcases h with rfl | ⟨h, next, rfl, -⟩
  · exact hj.2
  · trivial

namespace NetworkOf

variable {n n' : NetworkOf α (Ticketed α)} {free others : List (Job α)} {made : Made α} {c d t : Nat}
  {j k : Job α} {turn : Turn α (Ticketed α)} {notes : List (Event α)}

/-! ### Names -/

namespace NamedAs

theorem cells (h : n.NamedAs n' c) : n'.cells = n.cells := by rcases h with rfl | rfl <;> rfl

theorem joins (h : n.NamedAs n' c) : n'.joins = n.joins := by rcases h with rfl | rfl <;> rfl

theorem promises (h : n.NamedAs n' c) : n'.promises = n.promises := by rcases h with rfl | rfl <;> rfl

theorem handles (h : n.NamedAs n' c) {i x : Nat} (hi : n.handles[i]? = some x) :
    n'.handles[i]? = some x := by
  rcases h with rfl | rfl
  · obtain ⟨hlt, rfl⟩ := Array.getElem?_eq_some_iff.1 hi
    exact Array.getElem?_push_lt hlt
  · exact hi

theorem size_le (h : n.NamedAs n' c) : n.handles.size ≤ n'.handles.size := by
  rcases h with rfl | rfl
  · simp [named]
  · exact Nat.le_refl _

theorem names (h : n.NamedAs n' c) (hd : n'.Names d) : n.Names d ∨ d = c := by
  obtain ⟨source, hsource⟩ := hd
  rcases h with rfl | rfl
  · cases source with
    | event i => exact .inl ⟨.event i, hsource⟩
    | value i =>
      simp only [named, cellOf?, Array.getElem?_push] at hsource
      split at hsource
      · exact .inr (Option.some.inj hsource).symm
      · exact .inl ⟨.value i, hsource⟩
  · cases source with
    | value i => exact .inl ⟨.value i, hsource⟩
    | event i =>
      simp only [namedEvent, cellOf?, Array.getElem?_push] at hsource
      split at hsource
      · exact .inr (Option.some.inj hsource).symm
      · exact .inl ⟨.event i, hsource⟩

theorem promised (h : n.NamedAs n' c) (hkept : ∀ i ∈ n.promises, i < n.handles.size) :
    n'.promised = n.promised := by
  rw [NetworkOf.promised, NetworkOf.promised, h.promises]
  refine List.filterMap_congr fun i hi => ?_
  obtain ⟨x, hx⟩ : ∃ x, n.handles[i]? = some x := ⟨_, Array.getElem?_eq_getElem (hkept i hi)⟩
  rw [hx, h.handles hx]

end NamedAs

theorem names_of_handles (hh : n'.handles = n.handles) (he : n'.eventHandles = n.eventHandles)
    (hd : n'.Names d) : n.Names d := by
  obtain ⟨source, hsource⟩ := hd
  refine ⟨source, ?_⟩
  cases source with
  | value i => rwa [cellOf?, hh] at hsource
  | event i => rwa [cellOf?, he] at hsource

/-! ### Jobs -/

theorem Runs.mono (h : n.Runs j) (hsize : n.cells.size ≤ n'.cells.size)
    (hresult : ∀ d r, n.cells.result? d = some r → n'.cells.result? d = some r) : n'.Runs j := by
  have hsettled : ∀ {d}, n.cells.isSettled d → n'.cells.isSettled d := fun {d} hd => by
    obtain ⟨r, hr⟩ := Cells.isSettled_iff.1 hd
    exact Cells.isSettled_iff.2 ⟨r, hresult d r hr⟩
  cases j with
  | act | countDown => trivial
  | attach c k => exact ⟨Nat.lt_of_lt_of_le h.1 hsize, h.2⟩
  | derive source target f => exact hsettled h
  | complete inputs target =>
    exact List.all_eq_true.2 fun d hd => hsettled (List.all_eq_true.1 h d hd)

theorem Runs.of_awaits (h : k.Awaits c) (hc : n.cells.isSettled c) : n.Runs k := by
  cases k with
  | act | countDown => trivial
  | derive source target f => exact (show source = c from h) ▸ hc
  | attach | complete => cases h

theorem owns?_of_registers (h : n.Registers j c k) : k.owns? = j.owns? := by
  rcases h with rfl | ⟨h, next, rfl, ⟨rfl, -⟩ | ⟨rfl, -⟩⟩ <;> rfl

theorem join?_of_registers (h : n.Registers j c k) : k.join? = j.join? := by
  rcases h with rfl | ⟨h, next, rfl, ⟨rfl, -⟩ | ⟨rfl, -⟩⟩ <;> rfl

theorem lt_of_registers (hp : n.Placed (j :: others)) (h : n.Registers j c k) :
    c < n.cells.size := by
  have hj := hp.runs j List.mem_cons_self
  rcases h with rfl | ⟨h, next, rfl, ⟨rfl, hc⟩ | ⟨rfl, hc⟩⟩
  · exact hj.1
  · exact hp.named c (names_of_handle hc)
  · exact hp.named c (names_of_eventHandle hc)

theorem work_register (hc : c < n.cells.size) (k : Job α) (free : List (Job α)) :
    (({ n with cells := n.cells.register c (t, k) } : NetworkOf α (Ticketed α)).work free).Perm
      (k :: n.work free) := by
  have hperm := (Cells.perm_allWaiters_register n.cells hc (t, k)).map Prod.snd
  exact (hperm.append_left free).trans List.perm_middle

theorem work_settleCell (c : Nat) (r : Result α) (others : List (Job α)) :
    ((n.settleCell c r).network.work ((n.settleCell c r).free others)).Perm (n.work others) := by
  have hperm := (Cells.perm_allWaiters_settle n.cells c r).map Prod.snd
  rw [List.map_append] at hperm
  have hswap : ∀ u v w : List (Job α), ((u ++ [] ++ v) ++ w).Perm (v ++ (u ++ w)) := fun u v w => by
    rw [List.append_nil, ← List.append_assoc v]
    exact List.perm_append_comm.append_right w
  exact (hswap _ _ _).trans (hperm.append_left others)

theorem filterMap_acts {β : Type} {f : Job α → Option β} (hf : ∀ a, f (.act a) = none)
    (actions : List (Action α)) (l : List (Job α)) :
    (actions.map Job.act ++ l).filterMap f = l.filterMap f := by
  have hnone : (actions.map Job.act).filterMap f = [] :=
    List.filterMap_eq_nil_iff.2 fun k hk => by
      obtain ⟨a, -, rfl⟩ := List.mem_map.1 hk
      exact hf a
  rw [List.filterMap_append, hnone, List.nil_append]

def countDowns (inputs : List Nat) (j : Nat) : List (Job α) :=
  inputs.map fun c => .attach c (.countDown j)

theorem owns?_countDowns (inputs : List Nat) (i : Nat) (l : List (Job α)) :
    (countDowns inputs i ++ l).filterMap Job.owns? = l.filterMap Job.owns? := by
  have hnone : (countDowns inputs i : List (Job α)).filterMap Job.owns? = [] :=
    List.filterMap_eq_nil_iff.2 fun k hk => by
      obtain ⟨c, -, rfl⟩ := List.mem_map.1 hk
      rfl
  rw [List.filterMap_append, hnone, List.nil_append]

/-- What may be owed for a join of so many inputs that are missing. -/
def owed (inputs : List Nat) (target remaining : Nat) : List (Nat × Origin α) :=
  if remaining = 0 then [] else [(target, .joined inputs)]

theorem owed_countDown (inputs : List Nat) (target m : Nat) :
    (if m = 1 then [Job.complete inputs target] else []).filterMap Job.owns? ++
      owed inputs target (m - 1) = (owed inputs target m : List (Nat × Origin α)) := by
  rcases m with _ | _ | m <;> rfl

theorem openJoins_set {i : Nat} {join : Join} (hj : n.joins[i]? = some join) (m : Nat) :
    ∃ rest, n.openJoins.Perm (owed join.inputs join.target join.remaining ++ rest) ∧
      ({ n with joins := n.joins.setIfInBounds i { join with remaining := m } } :
        NetworkOf α (Ticketed α)).openJoins.Perm (owed join.inputs join.target m ++ rest) := by
  have hget : n.joins.toList[i]? = some join := by simpa using hj
  obtain ⟨rest, hold, hnew⟩ := exists_flatMap_perm (fun join : Join =>
    (owed join.inputs join.target join.remaining : List (Nat × Origin α))) hget
  refine ⟨rest, hold, ?_⟩
  rw [openJoins, Array.toList_setIfInBounds]
  exact hnew { join with remaining := m }

theorem pending_of_joinOf {inputs : List Nat} (h : joinOf (inputs.map n.cells.result?) = none) :
    ∃ c ∈ inputs, n.cells.result? c = none := by
  by_contra hall
  have hsome : (inputs.map n.cells.result?).all Option.isSome := by
    simp only [List.all_map, List.all_eq_true, Function.comp_apply]
    intro c hc
    exact Option.isSome_iff_ne_none.2 fun hnone => hall ⟨c, hc, hnone⟩
  simp only [joinOf, hsome, if_true] at h
  cases h

namespace Owned

theorem pending_of_mem (h : n.Owned free made) {o : Origin α} (hc : (c, o) ∈ n.owners free) :
    n.cells.IsPending c := by
  have hpos := List.count_pos_iff.2 (List.mem_map_of_mem (f := Prod.fst) hc)
  rw [h.owned] at hpos
  by_contra hnot
  rw [if_neg hnot] at hpos
  cases hpos

theorem of_named (h : n.Owned free made) (hp : n.Placed free) (hn : n.NamedAs n' c) :
    n'.Owned free made := by
  refine h.same (by rw [hn.cells]) (by rw [hn.cells]) ?_
  rw [owners, owners, hn.promised hp.kept, openJoins, openJoins, hn.joins, work, work, hn.cells]

theorem of_work {free' : List (Job α)} (h : n.Owned free made)
    (hwork : ((n.work free').filterMap Job.owns?).Perm ((n.work free).filterMap Job.owns?)) :
    n.Owned free' made :=
  h.same rfl rfl ((hwork.append_left _).append_right _)

theorem perm {free' : List (Job α)} (h : n.Owned free made) (hperm : free'.Perm free) :
    n.Owned free' made :=
  h.of_work ((hperm.append_right _).filterMap _)

end Owned

namespace Placed

theorem rest (hp : n.Placed (j :: others)) : n.Placed others :=
  { hp with runs := fun k hk => hp.runs k (List.mem_cons_of_mem j hk) }

end Placed

theorem promised_promise (hkept : ∀ i ∈ n.promises, i < n.handles.size) :
    ({ (n.withCell none).named n.cells.size with promises := n.promises ++ [n.handles.size] } :
      NetworkOf α (Ticketed α)).promised = n.promised ++ [n.cells.size] := by
  have hold : n.promises.filterMap (fun i => (n.handles.push n.cells.size)[i]?) =
      n.promises.filterMap fun i => n.handles[i]? :=
    List.filterMap_congr fun i hi => Array.getElem?_push_lt (hkept i hi) |>.trans
      (Array.getElem?_eq_getElem (hkept i hi)).symm
  have hnew : (n.handles.push n.cells.size)[n.handles.size]? = some n.cells.size :=
    Array.getElem?_push_size
  simp only [promised, named, withCell, List.filterMap_append, hold, List.filterMap_cons, hnew,
    List.filterMap_nil]

theorem promised_erase {i : Nat} (hc : n.promised? i = some c) :
    n.promised.Perm
      (c :: ({ n with promises := n.promises.erase i } : NetworkOf α (Ticketed α)).promised) := by
  unfold promised? at hc
  split at hc
  · next hmem =>
    have hperm := List.perm_cons_erase (List.contains_iff_mem.1 hmem)
    refine (hperm.filterMap _).trans ?_
    rw [List.filterMap_cons, hc]
    rfl
  · cases hc

theorem Owned.settleCell (h : n.Owned (j :: others) made) {o : Origin α} {r : Result α}
    (hj : j.owns? = some (c, o)) (hr : o.outcome? n.cells.result? = some r) :
    (n.settleCell c r).network.Owned ((n.settleCell c r).free others) made := by
  have howners : (n.owners (j :: others)).Perm
      ((c, o) :: (n.settleCell c r).network.owners ((n.settleCell c r).free others)) := by
    have hwork := (work_settleCell (n := n) c r others).filterMap Job.owns?
    rw [owners, work, List.cons_append, List.filterMap_cons, hj]
    exact ((hwork.symm.cons _).append_left _ |>.trans List.perm_middle).append_right _
  have hpending := h.pending_of_mem (howners.mem_iff.2 List.mem_cons_self)
  exact h.settle hpending (Cells.size_settle ..) (Cells.result?_settle hpending _) howners (.inr hr)

/-! ### What a step does to the owners -/

theorem owners_registered (hp : n.Placed (j :: others)) (hj : n.Registers j c k) :
    (({ n with cells := n.cells.register c (t, k) } : NetworkOf α (Ticketed α)).owners others).Perm
      (n.owners (j :: others)) := by
  have hwork := (work_register (t := t) (lt_of_registers hp hj) k others).filterMap Job.owns?
  have hsame : (k :: n.work others).filterMap Job.owns? =
      (n.work (j :: others)).filterMap Job.owns? := by
    rw [work, work, List.cons_append, List.filterMap_cons, List.filterMap_cons,
      owns?_of_registers hj]
  exact ((hsame ▸ hwork).append_left _).append_right _

theorem owners_promised (hkept : ∀ i ∈ n.promises, i < n.handles.size) :
    (({ (n.withCell none).named n.cells.size with promises := n.promises ++ [n.handles.size] } :
      NetworkOf α (Ticketed α)).owners others).Perm
      ((n.cells.size, .promise) :: n.owners others) := by
  rw [owners, owners, promised_promise hkept, work, work]
  simp only [withCell, named, Cells.allWaiters_add, openJoins, List.map_append]
  exact (List.perm_append_comm.append_right _).append_right _

theorem owners_derived (hkept : ∀ i ∈ n.promises, i < n.handles.size)
    (f : Content α → Result α) :
    (((n.withCell none).named n.cells.size).owners
      (.attach c (.derive c n.cells.size f) :: others)).Perm
      ((n.cells.size, .derived c f) :: n.owners others) := by
  have hpromised : ((n.withCell none).named n.cells.size).promised = n.promised :=
    NamedAs.promised (n := n.withCell none) (.inl rfl) hkept
  rw [owners, owners, hpromised, work, work]
  simp only [withCell, named, Cells.allWaiters_add, openJoins, List.cons_append,
    List.filterMap_cons, Job.owns?]
  exact List.perm_middle.append_right _

theorem owners_joined {inputs : List Nat} (hne : inputs ≠ []) :
    (({ (n.withCell none).namedEvent n.cells.size with
        joins := n.joins.push ⟨inputs, inputs.length, n.cells.size⟩ } :
      NetworkOf α (Ticketed α)).owners (countDowns inputs n.joins.size ++ others)).Perm
      ((n.cells.size, .joined inputs) :: n.owners others) := by
  have hlength : inputs.length ≠ 0 := Nat.ne_of_gt (List.length_pos_iff.2 hne)
  have hpromised : ((n.withCell none).namedEvent n.cells.size).promised = n.promised := rfl
  rw [owners, owners, work, work]
  simp only [withCell, namedEvent, Cells.allWaiters_add, openJoins, Array.toList_push,
    List.flatMap_append, List.flatMap_cons, List.flatMap_nil, List.append_nil, if_neg hlength,
    List.append_assoc, owns?_countDowns]
  simp only [← List.append_assoc]
  exact List.perm_append_comm

theorem owners_kept {i : Nat} {r : Except Error α} (hc : n.promised? i = some c) :
    (n.owners (Job.act (.settle i r) :: others)).Perm ((c, .promise) ::
      (settleCell { n with promises := n.promises.erase i } c (r.map .value)).network.owners
        ((settleCell { n with promises := n.promises.erase i } c (r.map .value)).free others)) := by
  have hwork := (work_settleCell (n := { n with promises := n.promises.erase i }) c
    (r.map .value) others).filterMap Job.owns?
  exact (((promised_erase hc).map (·, .promise)).append hwork.symm).append_right _

theorem owners_counted {i : Nat} {join : Join} (hj : n.joins[i]? = some join) :
    (({ n with joins := n.joins.setIfInBounds i { join with remaining := join.remaining - 1 } } :
      NetworkOf α (Ticketed α)).owners
        ((if join.remaining = 1 then [.complete join.inputs join.target] else []) ++ others)).Perm
      (n.owners (.countDown i :: others)) := by
  obtain ⟨rest, hold, hnew⟩ := openJoins_set hj (join.remaining - 1)
  refine .trans (hnew.append_left _) (.trans ?_ (hold.symm.append_left _))
  rw [← owed_countDown _ _ join.remaining, work, work]
  simp only [List.cons_append, List.filterMap_append, List.filterMap_cons, Job.owns?,
    List.append_assoc]
  refine .append_left _ ((List.perm_append_comm_assoc ..).trans (.append_left _ ?_))
  exact List.perm_append_comm_assoc ..

/-- Every step keeps one owner for each pending cell. -/
theorem Deed.keeps_owned (hd : n.Deed (Prod.mk t) t j turn notes) (hp : n.Placed (j :: others))
    (h : n.Owned (j :: others) made) :
    turn.network.Owned (turn.free others) (made ++ notes.filterMap Event.made?) := by
  -- a job that is done with owns nothing, unless it settles its cell
  have hdone : j.owns? = none → n.Owned others made := fun hj => h.of_work (by
    rw [work, work, List.cons_append, List.filterMap_cons, hj])
  have hnone : made ++ ([] : List (Event α)).filterMap Event.made? = made := List.append_nil _
  have hnone' : ∀ c, made ++ [(Event.registered t c : Event α)].filterMap Event.made? = made :=
    fun c => List.append_nil _
  cases hd with
  | idle =>
    rw [hnone]
    exact hdone rfl
  | noted =>
    rw [hnone]
    exact (hdone rfl).same rfl rfl (.refl _)
  | shared hc hn =>
    rw [hnone]
    exact (hdone rfl).of_named hp.rest hn
  | @split actions =>
    rw [hnone]
    refine (hdone rfl).of_work (.of_eq ?_)
    rw [work, work, Turn.free, List.append_assoc]
    simp only [List.map_nil, List.nil_append]
    exact filterMap_acts (fun _ => rfl) actions _
  | registered hj hc =>
    rw [hnone']
    exact h.same (Cells.size_register ..) (funext fun d => Cells.result?_register ..)
      (owners_registered hp hj)
  | atOnce hj hc =>
    rw [hnone']
    refine h.of_work (.of_eq ?_)
    rw [work, work, Turn.free, List.cons_append, List.filterMap_cons, ← owns?_of_registers hj]
    rfl
  | promised =>
    exact (hdone rfl).add (x := none) (by simp [withCell, named])
      (fun d => Cells.result?_add ..) (owners_promised hp.kept) (by simp)
  | @made a n' o r hn ho hrefs hinputs =>
    refine (hdone rfl).add (x := some r) (by simp [hn.cells, withCell])
      (fun d => by rw [hn.cells]; exact Cells.result?_add ..) ?_ (by simpa using ho)
    have hpromised : n'.promised = n.promised := hn.promised hp.kept
    rw [owners, owners, hpromised, openJoins, openJoins, hn.joins, work, work, hn.cells]
    simp [withCell, Turn.free]
  | trivial hinputs ho =>
    exact (Owned.trivial (hdone rfl) hp.rest ho).of_named hp.rest (.inr rfl)
  | derived hname hc =>
    exact (hdone rfl).add (x := none) (by simp [withCell, named])
      (fun d => Cells.result?_add ..) (owners_derived hp.kept _) (by simp)
  | joined _ hinputs ho =>
    obtain ⟨c, hc, -⟩ := pending_of_joinOf ho
    exact (hdone rfl).add (x := none) (by simp [withCell, namedEvent])
      (fun d => Cells.result?_add ..) (owners_joined (List.ne_nil_of_mem hc)) (by simp)
  | @kept i c r hc =>
    have howners : (n.owners (.act (.settle i r) :: others)).Perm _ := owners_kept hc
    have hpending := h.pending_of_mem (howners.mem_iff.2 List.mem_cons_self)
    exact (List.append_nil made).symm ▸ h.settle hpending (Cells.size_settle ..)
      (Cells.result?_settle hpending _) howners (.inl rfl)
  | fired hr =>
    exact (List.append_nil made).symm ▸ h.settleCell rfl (by simp [Origin.outcome?, hr])
  | stuck hr =>
    have hsettled := hp.runs _ List.mem_cons_self
    rw [Runs, Cells.isSettled_eq_false_iff.2 hr] at hsettled
    cases hsettled
  | uncounted hj =>
    rw [hnone]
    exact hdone rfl
  | counted hj =>
    rw [hnone]
    exact h.same rfl rfl (owners_counted hj)
  | completed =>
    have hruns := hp.runs _ List.mem_cons_self
    exact (List.append_nil made).symm ▸ h.settleCell rfl ((joinOf_eq _).trans (if_pos hruns))

end NetworkOf

end OpFlow.Async
