import OpFlow.Proofs.Frame.Strangers

/-!
What becomes of a handler's failure. The call ends with an execution error that names its target. An
error of another kind becomes the cause of that error, with everything it says of itself; an execution
error gives way to it, and leaves only its cause and the operation that it named. The call ends while
its thread starts it, and who executed the program gets that error if nothing failed before.
-/
namespace OpFlow

open Machine (CallKey World Crew EndsAtOnce)

/-- The error tells of a handler of `target` that failed with `e`. If that is no execution error then
it is the cause; of an execution error there remains the cause that it had. -/
structure Error.TellsOf (E : Error) (target : String) (e : Error) : Prop where
  kind : E.kind = .execution
  message : E.message = some ("custom call '" ++ target ++ "' failed")
  cause : e.kind ≠ .execution → E.cause? = some e ∧ E.causeText = some e.display
  kept : e.kind = .execution → E.cause? = e.cause? ∧ E.causeText = e.causeText

theorem Error.TellsOf.attributedTo {E e : Error} {target : String} (h : E.TellsOf target e)
    (info : OpInfo) : (E.attributedTo info).TellsOf target e where
  kind := (kind_attributedTo E info).trans h.kind
  message := (message_attributedTo E info).trans h.message
  cause he := by simpa using h.cause he
  kept he := by simpa using h.kept he

namespace Handler

theorem tellsOf_wrapError (target : String) (e : Error) : (wrapError target e).TellsOf target e := by
  by_cases he : e.kind = .execution
  · rw [wrapError, if_pos he]
    cases e <;> exact ⟨he, rfl, fun hne => absurd he hne, fun _ => ⟨rfl, rfl⟩⟩
  · rw [wrapError, if_neg he]
    exact ⟨rfl, rfl, fun _ => ⟨rfl, rfl⟩, fun h => absurd h he⟩

theorem context_wrapError (target : String) (e : Error) :
    (wrapError target e).context = if e.kind = .execution then e.context else {} := by
  by_cases he : e.kind = .execution
  · rw [wrapError, if_pos he, if_pos he]
    cases e <;> rfl
  · rw [wrapError, if_neg he, if_neg he]
    rfl

/-- What an operation ends with when its handler has ended so. -/
def outcome (target : String) : Except Fault Unit → Outcome
  | .ok () => .ok ()
  | .error (.error e) => .error (wrapError target e)
  | .error (.panic text) => .error (.panicked text)

end Handler

namespace Platform

variable {p : Platform} {c : CallKey} {info : OpInfo} {target config : String}
  {operands results : List Slice} {ctx : CallContext} {handler : Handler}

def runHandler (p : Platform) (host : Nat) (ctx : CallContext) (handler : Handler)
    (target config : String) (operands results : List Slice) : Except Fault Unit :=
  ((handler ⟨target, config, operands, results, ctx.ordinal, ctx.stream, ctx.context⟩).runOn
    ⟨p.arenaOf host, (p.host? host).bind HostState.allocator⟩).2

theorem handlerOf_eq {context : RunContext} (hctx : context.requireCustomCall = .ok ctx) (target : String) :
    handlerOf context target = (Handler.find ctx.handlers target).map fun handler => (ctx, handler) := by
  simp only [handlerOf, hctx, bind, Except.bind, pure, Except.pure]
  cases Handler.find ctx.handlers target <;> rfl

theorem endsAtOnce_of_missing (hctx : (p.contextOf c.run.host).requireCustomCall = .ok ctx)
    (hfind : ctx.handlers.find? target = none) :
    EndsAtOnce c (backend.launch c info (.customCall target config operands results) p).2
      (.error (.notFound "custom call target" target)) := by
  have hfound : handlerOf (p.contextOf c.run.host) target =
      .error (.notFound "custom call target" target) := by
    rw [handlerOf_eq hctx, Handler.find, Registry.find, hfind]
    rfl
  change EndsAtOnce c (p.launchCustomCall c target config operands results).2 _
  rw [launchCustomCall_of_error hfound]
  exact .settles _

theorem endsAtOnce_endCall (p : Platform) (c : CallKey) (target : String)
    (r : Option Allocator × Except Fault Unit) :
    EndsAtOnce c (p.endCall c target r).2 (Handler.outcome target r.2) := by
  obtain ⟨allocator, (e | text) | u⟩ := r
  · exact .settles _
  · exact .panics _
  · exact .settles _

theorem endsAtOnce_of_found (hctx : (p.contextOf c.run.host).requireCustomCall = .ok ctx)
    (hfind : ctx.handlers.find? target = some handler) :
    EndsAtOnce c (backend.launch c info (.customCall target config operands results) p).2
      (Handler.outcome target
        (p.runHandler c.run.host ctx handler target config operands results)) := by
  have hfound : handlerOf (p.contextOf c.run.host) target = .ok (ctx, handler) := by
    rw [handlerOf_eq hctx, Handler.find, Registry.find, hfind]
    rfl
  change EndsAtOnce c (p.launchCustomCall c target config operands results).2 _
  rw [launchCustomCall_of_ok hfound]
  exact endsAtOnce_endCall _ c target _

end Platform

namespace Machine.Crew

variable {s : Crew Primitive Platform Work} {i : Nat} {c : CallKey} {rest : List (Item Primitive Work)}
  {info : OpInfo} {target config : String} {operands results : List Slice}

/-- A custom call that a thread is about to start. Without a handler of its name it ends with a lookup
error; with one that succeeds it succeeds. If the handler fails with an error, the call ends with an
execution error that tells of it. In each case it ends with the next two items of its thread; whatever
is done instead, it has ended so when no thread has anything to do, and it never ends otherwise. And if
in a later crew the execution has failed without losing a task, and the way down leads to the call, then
the caller has got an error that tells of the handler's just as well, attributed to the call unless the
handler's was an execution error that named an operation. -/
theorem customCall_ends (h : s.Arises) (hi : s.threads[i]? = some (.call c :: rest))
    (hop : s.world.operation? c = some (.leaf info (.customCall target config operands results)))
    {ctx : CallContext}
    (hctx : (s.world.device.contextOf c.run.host).requireCustomCall = .ok ctx) :
    let t := s.act Platform.backend i
    (ctx.handlers.find? target = none →
      t.EndsSo i c (.error (.notFound "custom call target" target)) ∧
        (Error.notFound "custom call target" target).kind = .lookup) ∧
    ∀ handler, ctx.handlers.find? target = some handler →
      let ending := s.world.device.runHandler c.run.host ctx handler target config operands results
      (ending = .ok () → t.EndsSo i c (.ok ())) ∧
      ∀ e, ending = .error (.error e) → ∃ E : Error, t.EndsSo i c (.error E) ∧
        E.TellsOf target e ∧ E.context = (if e.kind = .execution then e.context else {}) ∧
        ∀ u E', Relation.ReflTransGen Goes t u →
          (∀ d, d.run.host = c.run.host → d.run.execution = c.run.execution → .dropped d ∉ u.log) →
          u.world.outcome? c.run.host c.run.execution = some (.error E') →
          (∃ e', u.Traces ⟨c.run.host, c.run.execution, []⟩ c e') →
            E'.TellsOf target e ∧ E'.context =
              if e.kind = .execution ∧ e.context.isEmpty = false then e.context
              else .ofInfo info := by
  intro t
  have hends : ∀ {o}, EndsAtOnce c (Platform.backend.launch c info
      (.customCall target config operands results) s.world.device).2 o → t.EndsSo i c o :=
    fun hends => h.endsSo hi hop hends fun hp => hp.launchCustomCall target config operands results
  refine ⟨fun hfind => ⟨hends (Platform.endsAtOnce_of_missing hctx hfind), rfl⟩,
    fun handler hfind => ?_⟩
  intro ending
  have hended : t.EndsSo i c (Handler.outcome target ending) :=
    hends (Platform.endsAtOnce_of_found hctx hfind)
  refine ⟨fun hok => ?_, fun e he => ?_⟩
  · rwa [hok] at hended
  · rw [he] at hended
    have htells := Handler.tellsOf_wrapError target e
    refine ⟨_, hended, htells, Handler.context_wrapError target e, ?_⟩
    rintro u E' hu hkept ho ⟨e', htraces⟩
    have hlater : Relation.ReflTransGen Goes s u := (goes_act s i).trans hu
    have hbelongs := belongs_later hlater (h.reachable.sound.belongs hop)
    obtain rfl : e' = Handler.wrapError target e :=
      Except.error.inj (hended.only u _ hu htraces.ended)
    obtain rfl := (h.later hlater).reachableWhile.error_of_traces hkept ho htraces hbelongs
    refine ⟨htells.attributedTo info, ?_⟩
    rw [Error.context_attributedTo, Handler.context_wrapError]
    by_cases hkind : e.kind = .execution
    · cases hempty : e.context.isEmpty <;> simp [hkind, hempty, Operation.info]
    · simp [hkind, ErrorContext.isEmpty, Operation.info]

def bareContext : CallContext := ⟨0, none, none, none, Handler.builtin⟩

def callingWorld (target : String) : World Primitive Platform Work where
  device := { hosts := #[{ arena := .ofSlots [], context := { customCall := some bareContext } }]
              transport := .ofTimeout 100 }
  hosts := #[{ program := { ops := [.call { name := "outer" }
    { ops := [.leaf { name := "cc" } (.customCall target "" [] [])] }] } }]

def calling (target : String) (n : Nat) : Crew Primitive Platform Work :=
  (act Platform.backend 0)^[n] (({ world := callingWorld target } : Crew _ _ _).execute 0)

theorem calling_succ (target : String) (n : Nat) :
    (calling target n).act Platform.backend 0 = calling target (n + 1) :=
  (Function.iterate_succ_apply' _ n _).symm

theorem goes_calling (target : String) (m n : Nat) :
    Relation.ReflTransGen Goes (calling target m) (calling target (n + m)) := by
  rw [calling, calling, Function.iterate_add_apply]
  exact goes_acts _ 0 n

theorem arises_calling (target : String) (n : Nat) : (calling target n).Arises := by
  have hidle : (callingWorld target).device.IsIdle := by
    refine ⟨⟨rfl, rfl, fun k s hs => ?_⟩, rfl⟩
    cases k with
    | zero =>
      obtain rfl := Option.some.inj hs
      rfl
    | succ k => cases hs
  have hfresh : Arises { world := callingWorld target } :=
    .fresh ⟨rfl, by simp [callingWorld], by simp [callingWorld]⟩ hidle
  exact (hfresh.move (.execute rfl) nofun).later (goes_acts _ 0 n)

/-- The handler is called by the fourth item, and the execution is over after ten. -/
theorem customCall_ends_broken :
    let c : CallKey := ⟨⟨0, 0, [(0, 0)]⟩, 0⟩
    let e : Error := .invalidArgument "bad operand layout"
    ∃ E E' : Error, .ended c (.error E) ∈ (calling "broken" 6).log ∧
      (calling "broken" 10).world.outcome? 0 0 = some (.error E') ∧
      E.TellsOf "broken" e ∧ E'.TellsOf "broken" e ∧ E'.cause? = some e ∧
      E'.context = .ofInfo { name := "cc" } := by
  intro c e
  let E := Handler.wrapError "broken" e
  let E' := E.attributedTo { name := "cc" }
  let u := calling "broken" 10
  have hstart : (calling "broken" 3).Arises := arises_calling "broken" 3
  have hgoes : Relation.ReflTransGen Goes ((calling "broken" 3).act Platform.backend 0) u := by
    rw [calling_succ]
    exact goes_calling "broken" 4 6
  have ho : u.world.outcome? 0 0 = some (.error E') := by decide +kernel
  have hkept : ∀ d : CallKey, .dropped d ∉ u.log := not_dropped_of_all (by decide +kernel)
  have hleaf : u.IsLeaf c := ⟨{ name := "cc" }, .customCall "broken" "" [] [],
    belongs_later ((goes_act _ 0).trans hgoes) (hstart.reachable.sound.belongs rfl)⟩
  have htraces : u.Traces ⟨0, 0, []⟩ c E := by
    have houter : u.FirstFailure ⟨0, 0, []⟩ 0 E' := ⟨by decide +kernel, by simp⟩
    have hnested : .resolved c.run (.error E') ∈ u.log := by decide +kernel
    have hinner : u.FirstFailure c.run 0 E := ⟨by decide +kernel, by simp⟩
    exact .inside houter hnested (.here hinner fun n e' =>
      (arises_calling "broken" 10).reachable.not_resolved_nested hleaf n)
  obtain ⟨-, hfound⟩ := customCall_ends (i := 0) (c := c) hstart rfl rfl rfl
  obtain ⟨-, hfailed⟩ := hfound _ rfl
  obtain ⟨E₀, hended, htells₀, -, hcaller⟩ := hfailed e rfl
  obtain ⟨htells, hcontext⟩ := hcaller u E' hgoes (fun d _ _ => hkept d) ho ⟨E, htraces⟩
  have hnext : .ended c (.error E₀) ∈ (calling "broken" 6).log := hended.next
  exact ⟨E₀, E', hnext, ho, htells₀, htells, (htells.cause (by decide)).1, hcontext⟩

theorem customCall_forgets_execution_error :
    let c : CallKey := ⟨⟨0, 0, [(0, 0)]⟩, 0⟩
    let e : Error := .execution "inner text"
    ∃ handler E', bareContext.handlers.find? "exec_fail" = some handler ∧
      (calling "exec_fail" 3).world.device.runHandler c.run.host bareContext handler "exec_fail" "" [] []
        = .error (.error e) ∧
      (calling "exec_fail" 10).world.outcome? 0 0 = some (.error E') ∧
      E'.cause? ≠ some e ∧ E'.causeText = none ∧ E'.message ≠ e.message := by
  refine ⟨_, (Handler.wrapError "exec_fail" (.execution "inner text")).attributedTo { name := "cc" }, rfl,
    rfl, ?_, ?_, ?_, ?_⟩ <;> decide +kernel

end Machine.Crew

end OpFlow
