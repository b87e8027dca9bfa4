import Mathlib
import OpFlow.Settings

/-!
What the values of variables say. A value that is to be a number says one exactly if, without the
blanks at its ends, it is a row of decimal digits, perhaps after a plus sign, whose number is a word.
A value that is to be a truth value says one exactly if it is one of eight words, each letter small or
capital.
-/
namespace OpFlow.Settings

def digit (c : Char) : Nat := c.toNat - '0'.toNat

/-- A text for a machine word. -/
structure IsWord (s : String) (n : Nat) : Prop where
  digits : ∃ cs, (Text.trimmed s = cs ∨ Text.trimmed s = '+' :: cs) ∧ cs ≠ [] ∧
    (∀ c ∈ cs, c.isDigit) ∧ n = Nat.ofDigits 10 (cs.map digit).reverse
  fits : n < wordSize

def Spells (cs : List Char) (word : String) : Prop :=
  List.Forall₂ (fun c d => c = d ∨ c = d.toUpper) cs word.toList

def wordsFor : Bool → List String
  | true => ["true", "1", "yes", "on"]
  | false => ["false", "0", "no", "off"]

/-- A text for a truth value. -/
def IsTruth (s : String) (b : Bool) : Prop := ∃ word ∈ wordsFor b, Spells (Text.trimmed s) word

section Numbers

variable {cs : List Char} {s : String}

theorem digitsValue_eq_ofDigits (h : ∀ c ∈ cs, c.isDigit) :
    Toml.digitsValue 10 cs = Nat.ofDigits 10 (cs.map digit).reverse := by
  induction cs using List.reverseRecOn with
  | nil => rfl
  | append_singleton cs c ih =>
    have hc : c.isDigit := h c (by simp)
    have hcs : ∀ c ∈ cs, c.isDigit := fun d hd => h d (List.mem_append_left _ hd)
    have hplace : Toml.digitsValue 10 (cs ++ [c]) = Toml.digitsValue 10 cs * 10 + digit c := by
      simp only [Toml.digitsValue, List.foldl_append, List.foldl_cons, List.foldl_nil, hc, if_pos,
        digit]
    rw [hplace, ih hcs, List.map_append, List.map_singleton, List.reverse_append,
      List.reverse_singleton, List.singleton_append, Nat.ofDigits_cons]
    omega

def unsigned (s : String) : List Char :=
  match Text.trimmed s with
  | '+' :: cs => cs
  | cs => cs

theorem word?_eq_some (s : String) (n : Nat) : word? s = some n ↔
    (unsigned s ≠ [] ∧ (∀ c ∈ unsigned s, c.isDigit) ∧
      Toml.digitsValue 10 (unsigned s) < wordSize) ∧ Toml.digitsValue 10 (unsigned s) = n := by
  have hdigits : ∀ ds : List Char, (ds.any fun c => !c.isDigit) = true ↔ ¬ ∀ c ∈ ds, c.isDigit :=
    fun ds => by simp
  unfold word? unsigned
  simp only [List.isEmpty_iff, hdigits]
  split <;> grind

theorem unsigned_eq_iff (h : ∀ c ∈ cs, c.isDigit) :
    unsigned s = cs ↔ Text.trimmed s = cs ∨ Text.trimmed s = '+' :: cs := by
  have hsign : ∀ ds, cs ≠ '+' :: ds := fun ds hds =>
    absurd (h '+' (hds ▸ List.mem_cons_self)) (by decide)
  rw [unsigned]
  split
  · next ds hds => simp [hds, (hsign ds).symm]
  · next hplus => exact ⟨.inl, fun heq => heq.resolve_right (hplus cs)⟩

theorem word?_eq_some_iff (s : String) (n : Nat) : word? s = some n ↔ IsWord s n := by
  rw [word?_eq_some]
  constructor
  · rintro ⟨⟨hne, hdigits, hfits⟩, rfl⟩
    exact ⟨⟨unsigned s, (unsigned_eq_iff hdigits).1 rfl, hne, hdigits,
      digitsValue_eq_ofDigits hdigits⟩, hfits⟩
  · rintro ⟨⟨cs, hcs, hne, hdigits, rfl⟩, hfits⟩
    obtain rfl := (unsigned_eq_iff hdigits).2 hcs
    rw [← digitsValue_eq_ofDigits hdigits] at hfits ⊢
    exact ⟨⟨hne, hdigits, hfits⟩, rfl⟩

end Numbers

section Truths

variable {cs : List Char} {word : String} {b : Bool}

theorem toLower_eq_iff {c d : Char} (hd : ¬ d.isUpper) : c.toLower = d ↔ c = d ∨ c = d.toUpper := by
  simp only [Char.isUpper, Char.toLower, Char.toUpper, Char.ext_iff, UInt32.le_iff_toNat_le,
    ← UInt32.toNat_inj] at hd ⊢
  simp at hd ⊢
  -- Whether `c` is a capital letter, and whether `d` is a small one.
  split <;> split <;> simp [UInt32.toNat_add] <;> omega

theorem map_toLower_eq_iff (hword : ∀ d ∈ word.toList, ¬ d.isUpper) :
    String.ofList (cs.map Char.toLower) = word ↔ Spells cs word := by
  rw [← String.toList_inj, String.toList_ofList, Spells]
  generalize word.toList = ds at hword ⊢
  induction cs generalizing ds with
  | nil => cases ds <;> simp
  | cons c cs ih =>
    cases ds with
    | nil => simp
    | cons d ds =>
      rw [List.map_cons, List.cons.injEq, List.forall₂_cons, toLower_eq_iff (hword d (by simp)),
        ih ds fun e he => hword e (List.mem_cons_of_mem _ he)]

theorem not_isUpper_of_mem_wordsFor (h : word ∈ wordsFor b) : ∀ d ∈ word.toList, ¬ d.isUpper := by
  cases b <;> simp only [wordsFor, List.mem_cons, List.not_mem_nil, or_false] at h <;>
    rcases h with rfl | rfl | rfl | rfl <;> simp

theorem isTruth_iff {s : String} : IsTruth s b ↔
    String.ofList ((Text.trimmed s).map Char.toLower) ∈ wordsFor b := by
  constructor
  · rintro ⟨word, hmem, hspells⟩
    rwa [(map_toLower_eq_iff (not_isUpper_of_mem_wordsFor hmem)).2 hspells]
  · intro hmem
    exact ⟨_, hmem, (map_toLower_eq_iff (not_isUpper_of_mem_wordsFor hmem)).1 rfl⟩

theorem not_mem_wordsFor_not (h : word ∈ wordsFor b) : word ∉ wordsFor !b := by
  cases b <;> simp only [wordsFor, List.mem_cons, List.not_mem_nil, or_false] at h <;>
    rcases h with rfl | rfl | rfl | rfl <;> decide

theorem truth?_eq_some_iff (s : String) (b : Bool) : truth? s = some b ↔ IsTruth s b := by
  rw [isTruth_iff, truth?]
  change (if _ ∈ wordsFor true then some true else if _ ∈ wordsFor false then some false else none) =
    some b ↔ _
  generalize String.ofList ((Text.trimmed s).map Char.toLower) = said
  cases b with
  | true => split <;> simp_all
  | false =>
    split
    · next h => simpa using not_mem_wordsFor_not h
    · split <;> simp_all

end Truths

end OpFlow.Settings
