import Mathlib.Data.List.Nodup
import OpFlow.Platform

/-!
The points of a grid. The point of a linear index is its decoding in a mixed radix. The number of
points and the size of a plane stop at the largest word, which does no harm below the number of
points: where the size of a plane stops, all indices that are left lie in the first plane.
-/
namespace OpFlow

namespace Grid

variable {g p q : Grid} {linear : Nat}

/-- The point lies in the grid. -/
structure Contains (g p : Grid) : Prop where
  x : p.x < g.x
  y : p.y < g.y
  z : p.z < g.z

def index (g p : Grid) : Nat := p.x + g.x * (p.y + g.y * p.z)

def points (g : Grid) : List Grid := (List.range g.count).map g.point

theorem count_eq_min (g : Grid) : g.count = min (g.x * g.y * g.z) (wordSize - 1) := by
  rw [count, saturatingMul, saturatingMul]
  rcases Nat.le_total (g.x * g.y) (wordSize - 1) with hle | hle
  · rw [Nat.min_eq_left hle]
  · rw [Nat.min_eq_right hle]
    rcases Nat.eq_zero_or_pos g.z with hz | hz
    · rw [hz, Nat.mul_zero, Nat.mul_zero]
    · rw [Nat.min_eq_right (Nat.le_mul_of_pos_right _ hz),
        Nat.min_eq_right (Nat.le_trans hle (Nat.le_mul_of_pos_right _ hz))]

theorem count_eq_of_lt (h : g.x * g.y * g.z < wordSize) : g.count = g.x * g.y * g.z := by
  rw [count_eq_min, Nat.min_eq_left (Nat.le_sub_one_of_lt h)]

theorem lt_of_lt_count (h : linear < g.count) :
    linear < g.x * g.y * g.z ∧ linear < wordSize - 1 := by
  rw [count_eq_min] at h
  exact ⟨Nat.lt_of_lt_of_le h (Nat.min_le_left ..), Nat.lt_of_lt_of_le h (Nat.min_le_right ..)⟩

theorem pos_of_lt_count (h : linear < g.count) : 0 < g.x ∧ 0 < g.y ∧ 0 < g.z := by
  have hpos : 0 < g.x * g.y * g.z := Nat.zero_lt_of_lt (lt_of_lt_count h).1
  have hplane := Nat.pos_of_mul_pos_right hpos
  exact ⟨Nat.pos_of_mul_pos_right hplane, Nat.pos_of_mul_pos_left hplane,
    Nat.pos_of_mul_pos_left hpos⟩

theorem div_saturatingMul {a b : Nat} (h : linear < wordSize - 1) :
    linear / saturatingMul a b = linear / (a * b) := by
  rw [saturatingMul]
  rcases Nat.le_total (a * b) (wordSize - 1) with hle | hle
  · rw [Nat.min_eq_left hle]
  · rw [Nat.min_eq_right hle, Nat.div_eq_of_lt h, Nat.div_eq_of_lt (Nat.lt_of_lt_of_le h hle)]

theorem point_eq (h : linear < g.count) :
    g.point linear = ⟨linear % g.x, linear / g.x % g.y, linear / g.x / g.y⟩ := by
  obtain ⟨hx, hy, -⟩ := pos_of_lt_count h
  rw [point, Nat.max_eq_left hx, Nat.max_eq_left hy, div_saturatingMul (lt_of_lt_count h).2,
    Nat.div_div_eq_div_mul]

theorem contains_point (h : linear < g.count) : g.Contains (g.point linear) := by
  obtain ⟨hx, hy, -⟩ := pos_of_lt_count h
  rw [point_eq h]
  refine ⟨Nat.mod_lt _ hx, Nat.mod_lt _ hy, ?_⟩
  rw [Nat.div_div_eq_div_mul]
  exact Nat.div_lt_of_lt_mul (lt_of_lt_count h).1

theorem index_point (h : linear < g.count) : g.index (g.point linear) = linear := by
  rw [point_eq h, index, Nat.mod_add_div, Nat.mod_add_div]

theorem Contains.index_lt (hp : g.Contains p) : g.index p < g.x * g.y * g.z := by
  have hplane : p.y + g.y * p.z < g.y * g.z := by
    have hrow : g.y * (p.z + 1) ≤ g.y * g.z := Nat.mul_le_mul_left _ hp.z
    rw [Nat.mul_succ] at hrow
    have := hp.y
    omega
  have hcube : g.x * (p.y + g.y * p.z + 1) ≤ g.x * (g.y * g.z) := Nat.mul_le_mul_left _ hplane
  rw [Nat.mul_succ, ← Nat.mul_assoc g.x g.y g.z] at hcube
  have := hp.x
  rw [index]
  omega

theorem digit_inj {a a' b b' r : Nat} (ha : a < r) (ha' : a' < r) (h : a + r * b = a' + r * b') :
    a = a' ∧ b = b' := by
  constructor
  · rw [← Nat.mod_eq_of_lt ha, ← Nat.add_mul_mod_self_left a r b, h, Nat.add_mul_mod_self_left,
      Nat.mod_eq_of_lt ha']
  · have hquotient : ∀ {c d : Nat}, c < r → (c + r * d) / r = d := fun {c d} hc => by
      rw [Nat.add_mul_div_left _ _ (Nat.zero_lt_of_lt hc), Nat.div_eq_of_lt hc, Nat.zero_add]
    exact (hquotient ha).symm.trans ((congrArg (· / r) h).trans (hquotient ha'))

theorem Contains.index_inj (hp : g.Contains p) (hq : g.Contains q) (h : g.index p = g.index q) :
    p = q := by
  obtain ⟨hx, hrest⟩ := digit_inj hp.x hq.x h
  obtain ⟨hy, hz⟩ := digit_inj hp.y hq.y hrest
  obtain ⟨_, _, _⟩ := p
  subst hx hy hz
  rfl

theorem point_inj {m : Nat} (h : linear < g.count) (hm : m < g.count)
    (heq : g.point linear = g.point m) : linear = m := by
  rw [← index_point h, heq, index_point hm]

theorem nodup_points (g : Grid) : g.points.Nodup :=
  List.nodup_range.map_on fun _ h _ hm =>
    point_inj (List.mem_range.1 h) (List.mem_range.1 hm)

theorem Contains.mem_points (hp : g.Contains p) (hfits : g.x * g.y * g.z < wordSize) :
    p ∈ g.points := by
  have hlt : g.index p < g.count := count_eq_of_lt hfits ▸ hp.index_lt
  exact List.mem_map.2 ⟨g.index p, List.mem_range.2 hlt,
    (contains_point hlt).index_inj hp (index_point hlt)⟩

theorem pointOnWords_eq (g : Grid) (linear : Nat) :
    g.pointOnWords linear = .ok (g.point linear) := by
  have hextent : ∀ n : Nat, (if n = 0 then 1 else n) = max n 1 := fun n => by split <;> omega
  have hpos : ∀ n : Nat, 0 < max n 1 := fun n => Nat.lt_of_lt_of_le Nat.zero_lt_one
    (Nat.le_max_right ..)
  have hplane : 0 < saturatingMul (max g.x 1) (max g.y 1) :=
    Nat.lt_min.2 ⟨Nat.mul_pos (hpos _) (hpos _), by decide⟩
  simp only [pointOnWords, hextent, Word.rem_eq (hpos _), Word.div_eq (hpos _), Word.div_eq hplane,
    bind, Except.bind, pure, Except.pure, point]

end Grid

namespace Platform

/-- Runs a kernel on frames in their order, until one stops early. -/
def runFrames (kernel : Kernel) : List KernelFrame → Arena → Arena × Except Fault Unit
  | [], arena => (arena, .ok ())
  | f :: fs, arena =>
    match (kernel f).runOn arena with
    | (arena, .ok ()) => runFrames kernel fs arena
    | (arena, .error fault) => (arena, .error fault)

theorem runThreads_eq_runFrames (kernel : Kernel) (frameOf : Nat → KernelFrame) (count l : Nat)
    (a : Arena) : runThreads kernel frameOf count l a =
      runFrames kernel ((List.range' l count).map frameOf) a := by
  induction count generalizing l a with
  | zero => rfl
  | succ count ih =>
    rw [runThreads, List.range'_succ, List.map_cons, runFrames]
    rcases (kernel (frameOf l)).runOn a with ⟨a, fault | ⟨⟩⟩
    · rfl
    · exact ih (l + 1) a

end Platform

namespace Grid

/-- The point of a linear index below the number of points lies in the grid, and the index is read
back from it in exact numbers. To compute it nothing is divided by zero, whatever the extents. So
two indices have two points; and if the points can be counted in a word, every point of the grid has
exactly one. The threads that run one after the other go through these points in this order. -/
theorem points_exact (g : Grid) :
    (∀ linear, g.pointOnWords linear = .ok (g.point linear)) ∧
    (∀ linear < g.count, g.Contains (g.point linear) ∧
      (g.point linear).x + g.x * ((g.point linear).y + g.y * (g.point linear).z) = linear) ∧
    (∀ l < g.count, ∀ m < g.count, l ≠ m → g.point l ≠ g.point m) ∧
    (g.x * g.y * g.z < wordSize → ∀ p, g.Contains p → g.points.count p = 1) ∧
    ∀ (kernel : Kernel) (arguments results : List Slice) (a : Arena),
      Platform.runThreads kernel (fun l => ⟨g.point l, g, arguments, results⟩) g.count 0 a =
        Platform.runFrames kernel (g.points.map fun p => ⟨p, g, arguments, results⟩) a := by
  refine ⟨g.pointOnWords_eq, fun _ h => ⟨contains_point h, index_point h⟩,
    fun _ h _ hm hne heq => hne (point_inj h hm heq), fun hfits p hp => ?_,
    fun kernel arguments results a => ?_⟩
  · exact List.count_eq_one_of_mem g.nodup_points (hp.mem_points hfits)
  · rw [Platform.runThreads_eq_runFrames, points, List.map_map, List.range_eq_range']
    rfl

theorem points_exact_large :
    18446744073709551614 < (⟨1099511627776, 1099511627776, 4⟩ : Grid).count ∧
      (⟨1099511627776, 1099511627776, 4⟩ : Grid).Contains
        ((⟨1099511627776, 1099511627776, 4⟩ : Grid).point 18446744073709551614) ∧
      (⟨2, 3, 4⟩ : Grid).Contains ⟨1, 2, 3⟩ ∧ (⟨2, 3, 4⟩ : Grid).points.count ⟨1, 2, 3⟩ = 1 := by
  have hlast : 18446744073709551614 < (⟨1099511627776, 1099511627776, 4⟩ : Grid).count := by decide
  have hcorner : (⟨2, 3, 4⟩ : Grid).Contains ⟨1, 2, 3⟩ := ⟨by decide, by decide, by decide⟩
  exact ⟨hlast, ((points_exact _).2.1 _ hlast).1, hcorner,
    (points_exact _).2.2.2.1 (by decide) _ hcorner⟩

end Grid

end OpFlow
