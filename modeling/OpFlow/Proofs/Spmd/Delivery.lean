import OpFlow.Proofs.Spmd.Locality

/-!
What an exchange does to the platform. Joining it and going on with it change nothing but the
transport and its timers, and handing out a result changes one arena, by what the participant
receives. So each of these has a description in terms of what was there before.
-/
namespace OpFlow

open Machine (CallKey Effect)

/-- A slice is overwritten with what a participant receives, or with zeros if that is nothing. -/
def Arena.receive (received : Except Error (Option Bytes)) (destination : Slice) (a : Arena) :
    Arena × Except Fault Unit :=
  match received with
  | .error e => (a, .error (.error e))
  | .ok received =>
    if received.isNone ∧ memoryLimit ≤ destination.size then (a, .error .capacity)
    else
      let (a, o) := a.attempt fun a => match received with
        | some bytes => a.write destination bytes
        | none => a.modify destination fun old => old.map fun _ => 0
      (a, o.mapError .error)

theorem Arena.receive_error (e : Error) (destination : Slice) (a : Arena) :
    receive (.error e) destination a = (a, .error (.error e)) := rfl

theorem Arena.receive_some (bytes : Bytes) (destination : Slice) (a : Arena) :
    receive (.ok (some bytes)) destination a =
      ((attempt (fun a => a.write destination bytes) a).1,
        (attempt (fun a => a.write destination bytes) a).2.mapError .error) := rfl

theorem Arena.receive_none {destination : Slice} (h : destination.size < memoryLimit) (a : Arena) :
    receive (.ok none) destination a =
      ((attempt (fun a => a.modify destination fun old => old.map fun _ => 0) a).1,
        (attempt (fun a => a.modify destination fun old => old.map fun _ => 0) a).2.mapError
          .error) := by
  simp only [receive, if_neg fun hcapacity : _ ∧ _ => Nat.not_le_of_lt h hcapacity.2]

theorem Arena.receive_not_panic {destination : Slice} (h : destination.size < memoryLimit)
    (received : Except Error (Option Bytes)) (a : Arena) (text : String) :
    (receive received destination a).2 ≠ .error (.panic text) := by
  have hmap : ∀ o : Outcome, o.mapError Fault.error ≠ .error (.panic text) := fun o => by
    cases o <;> simp [Except.mapError]
  rcases received with e | (_ | bytes)
  · rw [receive_error]
    simp
  · rw [receive_none h]
    exact hmap _
  · rw [receive_some]
    exact hmap _

theorem Arena.read_modify {a : Arena} {s : Slice} {old : Bytes} {f : Bytes → Bytes}
    (hold : a.read s = .ok old) (hlength : (f old).length = s.size) :
    ∃ a', a.modify s f = .ok a' ∧ a'.read s = .ok (f old) := by
  refine ⟨_, modify_of_read hold, ?_⟩
  obtain ⟨b, hb, hbounds, -⟩ := read_eq_ok_iff.1 hold
  have hfits : s.offset + (f old).length ≤ b.length := hlength ▸ hbounds
  refine read_eq_ok_iff.2 ⟨b.splice s.offset (f old), ?_, ?_, ?_⟩
  · simp [Array.getElem?_modify, hb]
  · rwa [Bytes.length_splice hfits]
  · have hoffset : (b.take s.offset).length = s.offset :=
      List.length_take_of_le (Nat.le_trans (Nat.le_add_right ..) hfits)
    rw [Bytes.splice, List.append_assoc, List.drop_left' hoffset, List.take_left' hlength]

theorem Arena.receive_fitting {a : Arena} {destination : Slice} {bytes : Bytes}
    (ha : a.Holds destination) (hlength : bytes.length = destination.size) :
    (receive (.ok (some bytes)) destination a).2 = .ok () ∧
      (receive (.ok (some bytes)) destination a).1.read destination = .ok bytes := by
  obtain ⟨old, hold⟩ := exists_read_iff.2 ha
  obtain ⟨a', hmodify, hread⟩ := read_modify (f := fun _ => bytes) hold hlength
  have hwrite : a.write destination bytes = .ok a' := by
    rw [write, if_neg (not_not_intro hlength), hmodify]
  simp only [receive_some, attempt, hwrite]
  exact ⟨rfl, hread⟩

theorem Arena.receive_unfitting (a : Arena) {destination : Slice} {bytes : Bytes}
    (hlength : bytes.length ≠ destination.size) :
    receive (.ok (some bytes)) destination a = (a, .error (.error (.invalidArgument
      ("cannot write " ++ toString bytes.length ++ " bytes into " ++ destination.describe)))) := by
  simp only [receive_some, attempt, write, if_pos hlength]
  rfl

theorem Arena.receive_nothing {a : Arena} {destination : Slice} (ha : a.Holds destination)
    (hsmall : destination.size < memoryLimit) :
    (receive (.ok none) destination a).2 = .ok () ∧
      (receive (.ok none) destination a).1.read destination =
        .ok (List.replicate destination.size 0) := by
  obtain ⟨old, hold⟩ := exists_read_iff.2 ha
  have hlength := length_of_read hold
  obtain ⟨a', hmodify, hread⟩ := read_modify (f := fun old => old.map fun _ => 0) hold
    (by rw [List.length_map, hlength])
  simp only [receive_none hsmall, attempt, hmodify]
  refine ⟨rfl, hread.trans ?_⟩
  rw [List.map_const', hlength]

/-- Receiving keeps to what a collective declares. -/
theorem Arena.confines_receive {f : Footprint} {destination : Slice}
    (hw : f.writes (.slot destination.index)) (received : Except Error (Option Bytes)) :
    f.Confines (receive received destination) := by
  have hstay : ∀ e : Fault, f.Confines fun a : Arena => (a, (.error e : Except Fault Unit)) :=
    fun e => ⟨fun _ => rfl, fun _ _ _ => rfl, fun _ _ _ => rfl,
      fun _ _ h x hx => h.slot x (Footprint.mem_places_of_writes hx)⟩
  have hmap : ∀ {g : Arena → Except Error Arena}, f.Confines (attempt g) →
      f.Confines fun a => ((attempt g a).1, (attempt g a).2.mapError Fault.error) := fun hg =>
    ⟨hg.size, hg.frame, fun a a' h => by rw [hg.result a a' h], hg.written⟩
  rcases received with e | (_ | bytes)
  · exact hstay _
  · by_cases hfits : destination.size < memoryLimit
    · rw [funext (receive_none hfits)]
      exact hmap (confines_attempt (r := fun _ => .ok fun old => old.map fun _ => 0) hw
        fun _ _ _ => rfl)
    · have heq : receive (.ok none) destination = fun a => (a, .error .capacity) := by
        funext a
        simp [receive, Nat.le_of_not_lt hfits]
      rw [heq]
      exact hstay _
  · exact hmap (confines_write hw bytes)

namespace Platform

variable (p : Platform)

theorem deliver_eq (t : Participant) : p.deliver t =
    (p.setArena t.call.run.host
        (Arena.receive (p.received t) t.destination (p.arenaOf t.call.run.host)).1,
      (Arena.receive (p.received t) t.destination (p.arenaOf t.call.run.host)).2) := by
  unfold deliver Arena.receive
  cases p.received t with
  | error e => simp only [setArena_arenaOf]
  | ok received =>
    dsimp only
    split
    · simp only [setArena_arenaOf]
    · rewrite [onArena_eq]
      rfl

def handedOut (t : Participant) (rest : List Participant) : Except Fault Unit → List (Effect Work)
  | .ok () => [.settle t.call (.ok ()), .work (.handOut rest)]
  | .error (.error e) => [.settle t.call (.error e), .work (.handOut rest)]
  | .error (.panic text) => abandoned text (t :: rest)

theorem handOut_cons (t : Participant) (rest : List Participant) : p.handOut (t :: rest) =
    (p.setArena t.call.run.host
        (Arena.receive (p.received t) t.destination (p.arenaOf t.call.run.host)).1,
      handedOut t rest
        (Arena.receive (p.received t) t.destination (p.arenaOf t.call.run.host)).2) := by
  rw [handOut, deliver_eq]
  rcases (Arena.receive (p.received t) t.destination (p.arenaOf t.call.run.host)).2 with
    (e | text) | _ <;> rfl

theorem attend_of_settled {t : Participant} {r : Except Error (List (List Bytes))}
    (h : p.transport.contributions? t.exchange.kind t.cell = some r) :
    p.attend t = p.handOut [t] := by
  rw [attend, h]

theorem attend_of_pending {t : Participant}
    (h : p.transport.contributions? t.exchange.kind t.cell = none) :
    p.attend t = ({ p with transport := p.transport.register t.exchange.kind t.cell t }, []) := by
  rw [attend, h]

/-- What is asked for once an exchange has been joined. -/
def joined (c : CallKey) (e : Entry) (destination : Slice) :
    Entrance (List Bytes) → List (Effect Work)
  | .rejected error => [.settle c (.error error)]
  | .waiting cell _ | .filled cell none =>
    [.work (.attend ⟨c, e.exchange, e.rank, cell, destination⟩)]
  | .filled cell (some values) =>
    [.work (.resolve values ⟨c, e.exchange, e.rank, cell, destination⟩)]

theorem launchCollective_of_ok {c : CallKey} {info : OpInfo} {op : Collective} {e : Entry}
    (h : p.entry c info op = .ok e) : ∃ timers, p.launchCollective c info op =
      ({ p with
          transport := (p.transport.enter e.exchange e.key e.rank e.blocks).1
          timers },
        .ok (joined c e op.destination
          (p.transport.enter e.exchange e.key e.rank e.blocks).2)) := by
  rw [launchCollective, h]
  dsimp only
  rcases (p.transport.enter e.exchange e.key e.rank e.blocks).2 with
    error | ⟨cell, _ | _⟩ | ⟨cell, _ | values⟩
  · exact ⟨p.timers, rfl⟩
  · exact ⟨p.timers, rfl⟩
  · exact ⟨_, rfl⟩
  · exact ⟨p.timers, rfl⟩
  · exact ⟨p.timers, rfl⟩

theorem launchCollective_of_error {c : CallKey} {info : OpInfo} {op : Collective} {e : Error}
    (h : p.entry c info op = .error e) :
    p.launchCollective c info op = (p, .ok [.settle c (.error e)]) := by
  rw [launchCollective, h]
  rfl

end Platform

end OpFlow
