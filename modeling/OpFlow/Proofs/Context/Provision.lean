import OpFlow.Platform
import OpFlow.Proofs.Context.Parts
import OpFlow.Proofs.Machine.Device

/-!
Operations and the context of their run. An operation that uses a part of the context, or the place of
its device, fails at once if that is not there. In a context that was made for a program nothing is
missing that an operation of the program uses, however deep it is; and contexts stay as they are.
-/
namespace OpFlow

open Machine (CallKey Crew Effect)

/-- The error says that a part of a context is not there, or that a device is not in its
assignment. -/
def Error.Missing (e : Error) : Prop :=
  ∃ m : Error, ((∃ x : Part, m = x.unset) ∨ ∃ d, m = DeviceAssignment.unassigned d) ∧
    e.kind = m.kind ∧ e.message = m.message

namespace Error.Missing

variable {e : Error}

theorem kind (h : e.Missing) : e.kind = .configuration := by
  obtain ⟨m, ⟨x, rfl⟩ | ⟨d, rfl⟩, hkind, -⟩ := h
  · cases x <;> exact hkind
  · exact hkind

theorem congr {e' : Error} (h : e.Missing) (hkind : e'.kind = e.kind)
    (hmessage : e'.message = e.message) : e'.Missing :=
  let ⟨m, hm, hk, ht⟩ := h
  ⟨m, hm, hkind.trans hk, hmessage.trans ht⟩

theorem not_of_head {text : String} (h : text.toList.head? = some 'r') :
    ¬ (Error.configuration text).Missing := by
  rintro ⟨m, ⟨x, rfl⟩ | ⟨d, rfl⟩, -, hmessage⟩
  · cases x <;> obtain rfl : text = _ := Option.some.inj hmessage <;> cases h
  · obtain rfl : text = _ := Option.some.inj hmessage
    simp at h

end Error.Missing

namespace Primitive

def uses (x : Part) : Primitive → Bool
  | scripted _ _ _ => false
  | op => x.isFor op.kind

/-- An operation misses what it uses: a part of the context, or its device in the assignment. -/
inductive Misses (ctx : RunContext) (op : Primitive) : Error → Prop
  | part {x : Part} (hop : op.uses x) (hx : ctx.has x = false) : Misses ctx op x.unset
  | device {place : CollectiveContext} (hop : op.uses .collective)
      (hplace : ctx.collective = some place) (hd : place.device ∉ place.assignment.devices) :
    Misses ctx op (DeviceAssignment.unassigned place.device)

/-- An operation may fail with an error because the code that it runs reports it: a thread of its
kernel does, or its end is prescribed. -/
inductive Reports (ctx : RunContext) (e : Error) : Primitive → Prop
  | kernel {name : String} {arguments results : List Slice} {grid : Grid} {ks : Registry Kernel}
      {kernel : Kernel} {linear : Nat} {a : Arena} (hctx : ctx.kernels = some ks)
      (hfind : Kernel.find ks name = .ok kernel)
      (h : ((kernel ⟨grid.point linear, grid, arguments, results⟩).runOn a).2 = .error (.error e)) :
    Reports ctx e (.kernel name arguments results grid)
  | failing {kind : OpKind} {footprint : Footprint} :
    Reports ctx e (.scripted kind footprint (.fail e))
  | deferred {kind : OpKind} {footprint : Footprint} :
    Reports ctx e (.scripted kind footprint .defer)

end Primitive

namespace RunContext

variable {o : RunOptions} {p : Program Primitive} {shared : Registry Handler} {ctx : RunContext}

theorem not_misses_of_forProgram (h : forProgram o p shared = .ok ctx) {info : OpInfo} {op : Primitive}
    (hop : p.Occurs (.leaf info op)) (e : Error) : ¬ op.Misses ctx e := by
  have hhas : ∀ {x : Part}, op.uses x → ctx.has x = true := fun {x} hx =>
    (has_iff_needs h x).2 ⟨_, hop, by cases op <;> first | exact hx | cases hx⟩
  rintro (⟨hx, hnot⟩ | ⟨-, hplace, hd⟩)
  · exact Bool.false_ne_true (hnot.symm.trans (hhas hx))
  · exact hd ((DeviceAssignment.exists_logicalId_iff _ _).1 (exists_logicalId_of_forProgram h hplace))

variable {e : Error}

theorem requireKernels_eq_error_iff :
    ctx.requireKernels = .error e ↔ ctx.has .kernels = false ∧ e = Part.kernels.unset := by
  unfold requireKernels has
  cases ctx.kernels <;> simp [eq_comm]

theorem requireFeeds_eq_error_iff :
    ctx.requireFeeds = .error e ↔ ctx.has .feeds = false ∧ e = Part.feeds.unset := by
  unfold requireFeeds has
  cases ctx.feeds <;> simp [eq_comm]

theorem requireCollective_eq_error_iff :
    ctx.requireCollective = .error e ↔ ctx.has .collective = false ∧ e = Part.collective.unset := by
  unfold requireCollective has
  cases ctx.collective <;> simp [eq_comm]

theorem requireCustomCall_eq_error_iff :
    ctx.requireCustomCall = .error e ↔ ctx.has .customCall = false ∧ e = Part.customCall.unset := by
  unfold requireCustomCall has
  cases ctx.customCall <;> simp [eq_comm]

end RunContext

namespace Primitive.Misses

variable {ctx : RunContext} {op : Primitive} {e : Error}

theorem of_collective (hop : op.uses .collective) (h : ctx.requireCollective = .error e) :
    op.Misses ctx e := by
  obtain ⟨hx, rfl⟩ := RunContext.requireCollective_eq_error_iff.1 h
  exact .part hop hx

theorem of_device {place : CollectiveContext} (hop : op.uses .collective)
    (hplace : ctx.requireCollective = .ok place)
    (h : place.assignment.logicalId place.device = .error e) : op.Misses ctx e := by
  unfold RunContext.requireCollective at hplace
  unfold DeviceAssignment.logicalId at h
  split at hplace <;> cases hplace
  split at h <;> cases h
  next hctx _ hd => exact .device hop hctx (List.idxOf?_eq_none_iff.1 hd)

end Primitive.Misses

namespace Platform

variable (p : Platform) (c : CallKey) (info : OpInfo) {e : Error}

theorem entry_of_place_error {op : Collective} {ctx : CollectiveContext}
    (hctx : (p.contextOf c.run.host).requireCollective = .ok ctx)
    (hplace : ctx.assignment.logicalId ctx.device = .error e) : p.entry c info op = .error e := by
  simp [entry, Collective.membership, hctx, hplace, bind, Except.bind]

/-- An operation that misses what it uses fails with that at once, and does nothing else. -/
theorem launch_of_misses {op : Primitive} (h : op.Misses (p.contextOf c.run.host) e) :
    launch c info op p = (p, .ok [.settle c (.error e)]) := by
  cases h with
  | @part x hop hx =>
    cases op with
    | copy | advanceRandom | scripted => cases x <;> cases hop
    | kernel name arguments results grid =>
      obtain rfl : x = .kernels := by cases x <;> first | rfl | cases hop
      rw [launch, launchKernel, RunContext.requireKernels_eq_error_iff.2 ⟨hx, rfl⟩]
      rfl
    | infeed destinations token =>
      obtain rfl : x = .feeds := by cases x <;> first | rfl | cases hop
      rw [launch, launchInfeed, RunContext.requireFeeds_eq_error_iff.2 ⟨hx, rfl⟩]
      rfl
    | outfeed sources token =>
      obtain rfl : x = .feeds := by cases x <;> first | rfl | cases hop
      rw [launch, launchOutfeed, RunContext.requireFeeds_eq_error_iff.2 ⟨hx, rfl⟩]
      rfl
    | placeId axis destination =>
      obtain rfl : x = .collective := by cases x <;> first | rfl | (cases axis <;> cases hop)
      rw [launch, launchPlaceId, RunContext.requireCollective_eq_error_iff.2 ⟨hx, rfl⟩]
      rfl
    | collective op =>
      obtain rfl : x = .collective := by
        obtain ⟨exchange, _⟩ := op
        cases x <;> first | rfl | (cases exchange <;> cases hop)
      have hentry : p.entry c info op = .error Part.collective.unset := by
        rw [entry, RunContext.requireCollective_eq_error_iff.2 ⟨hx, rfl⟩]
        rfl
      rw [launch, launchCollective, hentry]
      rfl
    | customCall target config operands results =>
      obtain rfl : x = .customCall := by cases x <;> first | rfl | cases hop
      rw [launch, launchCustomCall, RunContext.requireCustomCall_eq_error_iff.2 ⟨hx, rfl⟩]
      rfl
  | @device ctx hop hplace hd =>
    have hctx : (p.contextOf c.run.host).requireCollective = .ok ctx := by
      rw [RunContext.requireCollective, hplace]
    have hlogical : ctx.assignment.logicalId ctx.device =
        .error (DeviceAssignment.unassigned ctx.device) := by
      rw [DeviceAssignment.logicalId, List.idxOf?_eq_none_iff.2 hd]
    cases op with
    | copy | advanceRandom | scripted | kernel | infeed | outfeed | customCall => cases hop
    | placeId axis destination =>
      rw [launch, launchPlaceId]
      simp [hctx, hlogical, bind, Except.bind, endedBy, onArena]
      rfl
    | collective op =>
      rw [launch, launchCollective, p.entry_of_place_error c info hctx hlogical]
      rfl

end Platform

/-! ### Contexts stay as they are -/

namespace Platform

variable (p : Platform)

theorem contextOf_modifyHost (h : Nat) {f : HostState → HostState}
    (hf : ∀ s, (f s).context = s.context) : (p.modifyHost h f).contextOf = p.contextOf := by
  funext k
  simp only [contextOf, host?, modifyHost, Array.getElem?_modify]
  split
  · subst_vars
    cases p.hosts[k]? <;> simp [hf]
  · rfl

@[simp] theorem contextOf_setArena (h : Nat) (a : Arena) :
    (p.setArena h a).contextOf = p.contextOf := contextOf_modifyHost p h fun _ => rfl

@[simp] theorem contextOf_onArena (h : Nat) (f : Arena → Except Error Arena) :
    (p.onArena h f).1.contextOf = p.contextOf := by
  unfold onArena
  split <;> simp

@[simp] theorem contextOf_endedBy (c : CallKey) (f : Arena → Except Error Arena) :
    (p.endedBy c f).1.contextOf = p.contextOf := contextOf_onArena p c.run.host f

@[simp] theorem contextOf_endedWith (c : CallKey) (a : Arena) (r : Except Fault Unit) :
    (p.endedWith c a r).1.contextOf = p.contextOf := by
  unfold endedWith
  split <;> exact contextOf_setArena ..

@[simp] theorem contextOf_fill (t : FeedTaker) (bytes : Bytes) :
    (p.fill t bytes).1.contextOf = p.contextOf := by
  have hwrite : ∀ h, (p.writeFed h t.destination bytes).1.contextOf = p.contextOf := fun h => by
    unfold writeFed
    split
    · rfl
    · exact contextOf_onArena ..
  unfold fill
  split
  · rfl
  · exact hwrite _

@[simp] theorem contextOf_takeAll (h intake part : Nat) (destinations : List Slice) :
    (p.takeAll h intake part destinations).1.contextOf = p.contextOf := by
  induction destinations generalizing p part with
  | nil => rfl
  | cons destination rest ih =>
    rw [takeAll]
    split
    · rfl
    · dsimp only
      refine (ih _ _).trans ?_
      split
      · rw [contextOf_fill]
        exact contextOf_modifyHost p h fun _ => rfl
      · exact contextOf_modifyHost p h fun _ => rfl

@[simp] theorem contextOf_putOut (h : Nat) (bytes : Bytes) :
    (p.putOut h bytes).contextOf = p.contextOf := contextOf_modifyHost p h fun _ => rfl

@[simp] theorem contextOf_foldl_putOut (h : Nat) (buffers : List Bytes) :
    (buffers.foldl (fun p b => p.putOut h b) p).contextOf = p.contextOf := by
  induction buffers generalizing p with
  | nil => rfl
  | cons b buffers ih => exact (ih _).trans (contextOf_putOut p h b)

@[simp] theorem contextOf_handOut (ts : List Participant) :
    (p.handOut ts).1.contextOf = p.contextOf := by
  cases ts with
  | nil => rfl
  | cons t rest =>
    have hdeliver : (p.deliver t).1.contextOf = p.contextOf := by
      unfold deliver
      split
      · rfl
      · split
        · rfl
        · exact contextOf_onArena ..
    rw [handOut]
    split <;> rename_i heq <;> rw [heq] at hdeliver <;> exact hdeliver

/-- The start of an operation leaves the contexts as they are. -/
theorem contextOf_launch (c : CallKey) (info : OpInfo) (op : Primitive) :
    (launch c info op p).1.contextOf = p.contextOf := by
  cases op with
  | copy src dst => exact contextOf_endedBy ..
  | kernel name arguments results grid =>
    rw [launch, launchKernel]
    split
    · rfl
    · dsimp only
      split
      · exact contextOf_endedWith ..
      · rfl
      · exact contextOf_endedWith ..
  | infeed destinations token =>
    rw [launch, launchInfeed]
    repeat' split
    · rfl
    · rfl
    · exact contextOf_takeAll ..
  | outfeed sources token =>
    rw [launch, launchOutfeed]
    split
    · rfl
    · exact contextOf_foldl_putOut ..
  | advanceRandom state delta generator => exact contextOf_endedBy ..
  | placeId axis destination => exact contextOf_endedBy ..
  | collective op =>
    rw [launch, launchCollective]
    repeat' split
    all_goals rfl
  | customCall target config operands results =>
    rw [launch, launchCustomCall]
    split
    · rfl
    · exact (contextOf_endedWith ..).trans (contextOf_modifyHost p _ fun _ => rfl)
  | scripted kind footprint script =>
    cases script with
    | write slice bytes => exact contextOf_endedBy ..
    | _ => rfl

theorem contextOf_perform (x : Work) : (backend.perform x p).1.contextOf = p.contextOf := by
  cases x with
  | attend t =>
    change (p.attend t).1.contextOf = _
    unfold attend
    split
    · exact contextOf_handOut ..
    · rfl
  | resolve values t => rfl
  | handOut ts => exact contextOf_handOut p ts
  | thread gridRun linear =>
    change (p.runThread gridRun linear).1.contextOf = _
    unfold runThread
    split
    · rfl
    · exact contextOf_setArena ..

theorem contextOf_discard (x : Work) : (backend.discard x p).1.contextOf = p.contextOf := by
  cases x with
  | attend | resolve | handOut => rfl
  | thread gridRun linear =>
    change (p.loseThread gridRun).1.contextOf = _
    unfold loseThread
    split <;> rfl

end Platform

namespace Machine.Crew

variable {s t s₀ : Crew Primitive Platform Work} {ch : Choice Platform Work}
  {cs : List (Choice Platform Work)}

/-- What happens outside leaves the contexts of runs as they are. -/
def Choice.KeepsContexts (ch : Choice Platform Work) : Prop :=
  ∀ change, ch = .outside change → ∀ p, (change p).1.contextOf = p.contextOf

theorem Move.contextOf (hm : Move Platform.backend ch s t) (hch : ch.KeepsContexts) :
    t.world.device.contextOf = s.world.device.contextOf := by
  obtain ⟨f, hf, hdevice, -⟩ := hm.turn
  rw [hdevice]
  cases hf with
  | idle => rfl
  | launch => exact Platform.contextOf_launch ..
  | perform => exact Platform.contextOf_perform ..
  | discard => exact Platform.contextOf_discard ..
  | outside => exact hch _ rfl _

end Machine.Crew

end OpFlow
