import OpFlow.Bytes

/-!
Bytes as text: two hexadecimal digits for each, the high one first. Reading what was written gives
the bytes back.
-/
namespace OpFlow.Text

def hexDigit (n : Nat) : Char := Nat.digitChar n

def hexValue? (c : Char) : Option Nat :=
  if '0' ≤ c ∧ c ≤ '9' then some (c.toNat - '0'.toNat)
  else if 'a' ≤ c ∧ c ≤ 'f' then some (c.toNat - 'a'.toNat + 10)
  else none

def hexChars (b : Bytes) : List Char :=
  b.flatMap fun x => [hexDigit (x.toNat / 16), hexDigit (x.toNat % 16)]

def ofHexChars? : List Char → Option Bytes
  | [] => some []
  | [_] => none
  | a :: b :: rest => do
    let high ← hexValue? a
    let low ← hexValue? b
    let bytes ← ofHexChars? rest
    some (UInt8.ofNat (16 * high + low) :: bytes)

def hex (b : Bytes) : String := String.ofList (hexChars b)

def ofHex? (s : String) : Option Bytes := ofHexChars? s.toList

theorem hexValue?_hexDigit (n : Fin 16) : hexValue? (hexDigit n) = some n.val := by
  revert n; decide

theorem ofHexChars?_hexChars (b : Bytes) : ofHexChars? (hexChars b) = some b := by
  induction b with
  | nil => rfl
  | cons x b ih =>
    have hx := x.toNat_lt
    have high := hexValue?_hexDigit ⟨x.toNat / 16, by omega⟩
    have low := hexValue?_hexDigit ⟨x.toNat % 16, by omega⟩
    have hcons : hexChars (x :: b) =
        hexDigit (x.toNat / 16) :: hexDigit (x.toNat % 16) :: hexChars b := rfl
    have hval : UInt8.ofNat (16 * (x.toNat / 16) + x.toNat % 16) = x := by
      rw [Nat.div_add_mod]; simp
    simp only [hcons, ofHexChars?, high, low, ih, Option.bind_eq_bind, Option.bind_some, hval]

end OpFlow.Text
