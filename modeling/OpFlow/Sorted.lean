/-!
Sorted lists, and the first entry of each run of entries that share a key. In a list whose order
keeps equal keys together there is one such entry for each key, and it is the least of them.
-/
namespace OpFlow.Sorted

variable {α κ : Type}

def insert (le : α → α → Bool) (x : α) : List α → List α
  | [] => [x]
  | y :: ys => if le x y then x :: y :: ys else y :: insert le x ys

def ofList (le : α → α → Bool) (xs : List α) : List α := xs.foldr (insert le) []

def firstsAfter [DecidableEq κ] (key : α → κ) (x : α) : List α → List α
  | [] => [x]
  | y :: ys => if key y = key x then firstsAfter key x ys else x :: firstsAfter key y ys

def firsts [DecidableEq κ] (key : α → κ) : List α → List α
  | [] => []
  | x :: xs => firstsAfter key x xs

@[simp] theorem mem_insert {le : α → α → Bool} {x y : α} {xs : List α} :
    y ∈ insert le x xs ↔ y = x ∨ y ∈ xs := by
  induction xs with
  | nil => simp [insert]
  | cons z zs ih =>
    simp only [insert]
    split
    · simp
    · simp [ih, or_left_comm]

@[simp] theorem mem_ofList {le : α → α → Bool} {x : α} {xs : List α} : x ∈ ofList le xs ↔ x ∈ xs := by
  induction xs with
  | nil => simp [ofList]
  | cons y ys ih =>
    rw [ofList, List.foldr_cons, mem_insert, ← ofList, ih, List.mem_cons]

/-- An order by which entries of one key stand next to each other. -/
structure Groups (le : α → α → Bool) (key : α → κ) : Prop where
  trans : ∀ x y z, le x y → le y z → le x z
  total : ∀ x y, le x y ∨ le y x
  antisymm : ∀ x y, le x y → le y x → x = y
  convex : ∀ x y z, le x y → le y z → key x = key z → key y = key x

variable {le : α → α → Bool} {key : α → κ}

theorem Groups.refl (h : Groups le key) (x : α) : le x x := (h.total x x).elim id id

theorem Groups.le_of_mem (h : Groups le key) {x y : α} {xs : List α}
    (hxs : (x :: xs).Pairwise fun a b => le a b) (hy : y ∈ x :: xs) : le x y := by
  rcases List.mem_cons.1 hy with rfl | hy
  · exact h.refl y
  · exact (List.pairwise_cons.1 hxs).1 y hy

theorem Groups.pairwise_insert (h : Groups le key) {x : α} {xs : List α}
    (hxs : xs.Pairwise fun a b => le a b) : (insert le x xs).Pairwise fun a b => le a b := by
  induction xs with
  | nil => simp [insert]
  | cons y ys ih =>
    obtain ⟨hy, hys⟩ := List.pairwise_cons.1 hxs
    simp only [insert]
    split
    case isTrue hxy =>
      refine List.pairwise_cons.2 ⟨fun z hz => ?_, hxs⟩
      rcases List.mem_cons.1 hz with rfl | hz
      · exact hxy
      · exact h.trans _ _ _ hxy (hy z hz)
    case isFalse hxy =>
      refine List.pairwise_cons.2 ⟨fun z hz => ?_, ih hys⟩
      rcases mem_insert.1 hz with rfl | hz
      · exact (h.total z y).resolve_left hxy
      · exact hy z hz

theorem Groups.pairwise_ofList (h : Groups le key) (xs : List α) :
    (ofList le xs).Pairwise fun a b => le a b := by
  induction xs with
  | nil => exact List.Pairwise.nil
  | cons x xs ih => exact h.pairwise_insert ih

variable [DecidableEq κ]

theorem Groups.mem_firstsAfter (h : Groups le key) {x z : α} {xs : List α}
    (hxs : (x :: xs).Pairwise fun a b => le a b) : z ∈ firstsAfter key x xs ↔
      z ∈ x :: xs ∧ ∀ y ∈ x :: xs, key y = key z → le z y := by
  induction xs generalizing x with
  | nil =>
    simp only [firstsAfter, List.mem_singleton, forall_eq]
    exact ⟨fun hz => ⟨hz, fun _ => hz ▸ h.refl z⟩, And.left⟩
  | cons y ys ih =>
    obtain ⟨hx, hys⟩ := List.pairwise_cons.1 hxs
    have hxy := hx y (by simp)
    simp only [firstsAfter]
    split
    case isTrue hkey =>
      rw [ih (List.pairwise_cons.2 ⟨fun w hw => hx w (by simp [hw]), (List.pairwise_cons.1 hys).2⟩)]
      constructor
      · rintro ⟨hz, hleast⟩
        refine ⟨by grind, fun w hw hkw => ?_⟩
        rcases List.mem_cons.1 hw with rfl | hw
        · exact hleast _ (by simp) hkw
        · rcases List.mem_cons.1 hw with rfl | hw
          · exact h.trans _ _ _ (hleast x (by simp) (hkey ▸ hkw)) hxy
          · exact hleast w (by simp [hw]) hkw
      · rintro ⟨hz, hleast⟩
        refine ⟨?_, fun w hw hkw => hleast w (by grind) hkw⟩
        rcases List.mem_cons.1 hz with rfl | hz
        · simp
        · rcases List.mem_cons.1 hz with rfl | hz
          · simp [h.antisymm _ _ (hleast x (by simp) hkey.symm) hxy]
          · simp [hz]
    case isFalse hkey =>
      have hfar : ∀ w ∈ y :: ys, key x ≠ key w := fun w hw heq =>
        hkey (h.convex x y w hxy (h.le_of_mem hys hw) heq)
      rw [List.mem_cons, ih hys]
      constructor
      · rintro (rfl | ⟨hz, hleast⟩)
        · exact ⟨by simp, fun w hw _ => h.le_of_mem hxs hw⟩
        · refine ⟨List.mem_cons_of_mem _ hz, fun w hw hkw => ?_⟩
          rcases List.mem_cons.1 hw with rfl | hw
          · exact absurd hkw (hfar z hz)
          · exact hleast w hw hkw
      · rintro ⟨hz, hleast⟩
        rcases List.mem_cons.1 hz with rfl | hz
        · exact .inl rfl
        · exact .inr ⟨hz, fun w hw hkw => hleast w (List.mem_cons_of_mem _ hw) hkw⟩

theorem Groups.nodup_firstsAfter (h : Groups le key) {x : α} {xs : List α}
    (hxs : (x :: xs).Pairwise fun a b => le a b) : ((firstsAfter key x xs).map key).Nodup := by
  induction xs generalizing x with
  | nil => simp [firstsAfter]
  | cons y ys ih =>
    obtain ⟨hx, hys⟩ := List.pairwise_cons.1 hxs
    simp only [firstsAfter]
    split
    case isTrue =>
      exact ih (List.pairwise_cons.2
        ⟨fun w hw => hx w (by simp [hw]), (List.pairwise_cons.1 hys).2⟩)
    case isFalse hkey =>
      rw [List.map_cons, List.nodup_cons]
      refine ⟨fun hmem => ?_, ih hys⟩
      obtain ⟨w, hw, hkw⟩ := List.mem_map.1 hmem
      have hyw := h.le_of_mem hys ((h.mem_firstsAfter hys).1 hw).1
      exact hkey (h.convex x y w (hx y (by simp)) hyw hkw.symm)

theorem Groups.mem_firsts (h : Groups le key) {z : α} {xs : List α} :
    z ∈ firsts key (ofList le xs) ↔ z ∈ xs ∧ ∀ y ∈ xs, key y = key z → le z y := by
  have hsorted := h.pairwise_ofList xs
  have hmem : ∀ y, y ∈ ofList le xs ↔ y ∈ xs := fun y => mem_ofList
  simp only [← hmem]
  cases hxs : ofList le xs with
  | nil => simp [firsts]
  | cons x rest => exact h.mem_firstsAfter (hxs ▸ hsorted)

theorem Groups.nodup_firsts (h : Groups le key) (xs : List α) :
    ((firsts key (ofList le xs)).map key).Nodup := by
  have hsorted := h.pairwise_ofList xs
  cases hxs : ofList le xs with
  | nil => simp [firsts]
  | cons x rest => exact h.nodup_firstsAfter (hxs ▸ hsorted)

end OpFlow.Sorted
