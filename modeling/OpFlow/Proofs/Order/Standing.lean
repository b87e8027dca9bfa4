import OpFlow.Proofs.Loop.Resumption
import OpFlow.Proofs.Order.Process

/-!
How the calls of an execution stand in program order. At every stage of a call the arena holds, in
the slots that the operation declares, what program order says that it has done so far. Nothing of
this changes as long as the declared slots do not.
-/
namespace OpFlow

open Machine

namespace Arena

variable {f : Footprint} {a b c : Arena}

theorem AgreeOn.trans (h : a.AgreeOn f b) (h' : b.AgreeOn f c) : a.AgreeOn f c :=
  ⟨h.size.trans h'.size, fun x hx => (h.slot x hx).trans (h'.slot x hx)⟩

end Arena

def Turning.resume (predicate : Slice) (l : LoopState) (a : Arena) (o : Outcome) : Turning :=
  if l.inBody then afterBody l.iteration o else afterCondition predicate l.iteration a o

namespace Meaning

variable {α : Type} [Leaf α] (m : Meaning α)

/-- An operation that has found the arena `a` has come to this outcome, and if that is good it has
left in `A` what it leaves. -/
structure Done (op : Operation α) (a : Arena) (o : Outcome) (A : Arena) : Prop where
  outcome : (m.operation op a).2 = o
  arena : o = .ok () → A.AgreeOn op.footprint (m.operation op a).1

/-- How a call stands of an operation that runs nested regions, at a stage. It has found the arena
`a`, and the arena is `A` now. -/
inductive Stands (a A : Arena) : Operation α → Stage → Call → Prop
  | inside {op : Operation α} {z : Site α} {p : Progress} (hz : m.Nests op a 0 z)
      (hop : m.operation op a = m.region z.region z.arena) : Stands a A op (.inside 0) ⟨p, none⟩
  | turn {info : OpInfo} {predicate : Slice} {condition body : Program α} {trips : Option Nat}
      {a' : Arena} {p : Progress} {l : LoopState}
      (hgoing : Turning.after predicate trips (m.region condition) (m.region body) l.started a =
        (a', .going l.iteration l.inBody))
      (harena : A.AgreeOn (Operation.loop info predicate condition body trips).footprint a') :
      Stands a A (.loop info predicate condition body trips) .turn ⟨p, some l⟩
  | turning {info : OpInfo} {predicate : Slice} {condition body : Program α} {trips : Option Nat}
      {a' : Arena} {p : Progress} {l : LoopState} {x : Stage} {n : Nat} {inBody : Bool}
      (hx : x.nested? = some n) (hn : l.started = n + 1)
      (hgoing : Turning.after predicate trips (m.region condition) (m.region body) n a =
        (a', .going l.iteration inBody))
      (hin : l.inBody = (inBody || trips.isSome))
      (hmore : (!inBody && trips.any (· ≤ l.iteration)) = false) :
      Stands a A (.loop info predicate condition body trips) x ⟨p, some l⟩
  | closing {info : OpInfo} {predicate : Slice} {condition body : Program α} {trips : Option Nat}
      {a' : Arena} {p : Progress} {l : LoopState} {o : Outcome}
      (hafter : Turning.after predicate trips (m.region condition) (m.region body) l.started a =
        (a', .resume predicate l a' o))
      (harena : o = .ok () →
        A.AgreeOn (Operation.loop info predicate condition body trips).footprint a') :
      Stands a A (.loop info predicate condition body trips) (.closing o) ⟨p, some l⟩
  | settling {op : Operation α} {y : Call} {o : Outcome} (h : m.Done op a o A) :
      Stands a A op (.settling o) y
  | settled {op : Operation α} {l : Option LoopState} {o : Outcome} (h : m.Done op a o A) :
      Stands a A op .quiet ⟨.settled o, l⟩

variable {m} {op : Operation α} {a A A' : Arena} {o : Outcome} {x : Stage} {y : Call} {z : Site α}
  {n : Nat} {p : Progress} {l l' : LoopState} {info : OpInfo} {predicate : Slice}
  {condition body : Program α} {trips : Option Nat}

theorem Done.frame (h : m.Done op a o A) (hA : A'.AgreeOn op.footprint A) : m.Done op a o A' :=
  ⟨h.outcome, fun ho => hA.trans (h.arena ho)⟩

theorem Stands.frame (h : m.Stands a A op x y)
    (hA : x.nested? = none → A'.AgreeOn op.footprint A) : m.Stands a A' op x y := by
  cases h with
  | inside hz hop => exact .inside hz hop
  | turn hgoing harena => exact .turn hgoing ((hA rfl).trans harena)
  | turning hx hn hgoing hin hmore => exact .turning hx hn hgoing hin hmore
  | closing hafter harena => exact .closing hafter fun ho => (hA rfl).trans (harena ho)
  | settling h => exact .settling (h.frame (hA rfl))
  | settled h => exact .settled (h.frame (hA rfl))

theorem Stands.progress {p' : Progress} {l : Option LoopState} (h : m.Stands a A op x ⟨p, l⟩)
    (hx : x ≠ .quiet) : m.Stands a A op x ⟨p', l⟩ := by
  cases h with
  | inside hz hop => exact .inside hz hop
  | turn hgoing harena => exact .turn hgoing harena
  | turning hx hn hgoing hin hmore => exact .turning hx hn hgoing hin hmore
  | closing hafter harena => exact .closing hafter harena
  | settling h => exact .settling h
  | settled => exact absurd rfl hx

/-! ### Loops -/

theorem after_succ {a' : Arena} {inBody : Bool} (hn : l.started = n + 1)
    (hgoing : Turning.after predicate trips (m.region condition) (m.region body) n a =
      (a', .going l.iteration inBody))
    (hin : l.inBody = (inBody || trips.isSome))
    (hmore : (!inBody && trips.any (· ≤ l.iteration)) = false) {z : Site α}
    (hz : z = ⟨if inBody || trips.isSome then body else condition, a'⟩) :
    Turning.after predicate trips (m.region condition) (m.region body) l.started a =
      ((m.region z.region z.arena).1, .resume predicate l (m.region z.region z.arena).1
        (m.region z.region z.arena).2) := by
  subst hz
  rw [hn, Turning.after, hgoing, Turning.next, if_neg (by simp [hmore])]
  cases hbody : (inBody || trips.isSome) with
  | true => simp [Turning.resume, hin, hbody]
  | false => simp [Turning.resume, hin, hbody]

theorem Done.of_finished {a' : Arena}
    (h : Turning.after predicate trips (m.region condition) (m.region body) n a = (a', .finished o))
    (hA : o = .ok () → A.AgreeOn (Operation.loop info predicate condition body trips).footprint a') :
    m.Done (.loop info predicate condition body trips) a o A := by
  have hwhole : m.operation (.loop info predicate condition body trips) a = (a', o) := by
    rw [operation, Turning.whole_eq (congrArg Prod.snd h), h]
  exact ⟨congrArg Prod.snd hwhole, fun ho => (congrArg Prod.fst hwhole).symm ▸ hA ho⟩

end Meaning

end OpFlow
