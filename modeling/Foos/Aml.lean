import Mathlib.Data.List.Basic
import Mathlib.Data.Nat.Digits.Defs

/-! Packages of byte-sized constants in the ACPI machine language, with every legal encoding of
their parts. -/
namespace Aml

/-- A byte-sized constant as it may be written. -/
inductive Const where
  | zeroOp
  | oneOp
  | byte (b : UInt8)
  deriving DecidableEq

def Const.value : Const → UInt8
  | .zeroOp => 0
  | .oneOp => 1
  | .byte b => b

def Const.bytes : Const → List UInt8
  | .zeroOp => [0x00]
  | .oneOp => [0x01]
  | .byte b => [0x0A, b]

/-- The two highest bits of the lead byte count the bytes that follow it; with none the length
has six bits, otherwise the lead byte gives its lowest four. -/
structure PkgLength where
  lead : UInt8
  follow : List UInt8
  count : follow.length = lead.toNat / 64
  reserved : follow ≠ [] → lead.toNat / 16 % 4 = 0

def PkgLength.value (l : PkgLength) : Nat :=
  if l.follow = [] then l.lead.toNat % 64
  else l.lead.toNat % 16 + 16 * Nat.ofDigits 256 (l.follow.map UInt8.toNat)

theorem PkgLength.follow_le (l : PkgLength) : l.follow.length ≤ 3 := by
  have hlead := l.lead.toNat_lt
  rw [l.count]
  omega

theorem PkgLength.follow_cases (l : PkgLength) : l.follow = [] ∨ (∃ x, l.follow = [x]) ∨
    (∃ x y, l.follow = [x, y]) ∨ ∃ x y z, l.follow = [x, y, z] := by
  have hle := l.follow_le
  rw [← List.length_eq_zero_iff, ← List.length_eq_one_iff, ← List.length_eq_two,
    ← List.length_eq_three]
  omega

/-- A package with two constants and more; its length counts from the lead byte on, and elements
may be left out at the end. -/
structure Package where
  length : PkgLength
  num : UInt8
  first : Const
  second : Const
  rest : List Const
  enough : 2 + rest.length ≤ num.toNat
  measured : length.value = length.follow.length + 2 +
    (first.bytes ++ second.bytes ++ rest.flatMap Const.bytes).length

/-- The package as far as the second constant. -/
def Package.head (p : Package) : List UInt8 :=
  0x12 :: p.length.lead :: (p.length.follow ++ p.num :: (p.first.bytes ++ p.second.bytes))

def Package.bytes (p : Package) : List UInt8 := p.head ++ p.rest.flatMap Const.bytes

theorem Package.bytes_length (p : Package) : p.bytes.length = 1 + p.length.value := by
  rw [p.measured]
  simp only [bytes, head, List.length_append, List.length_cons]
  omega

theorem Package.two_le_num (p : Package) : 2 ≤ p.num.toNat :=
  Nat.le_trans (Nat.le_add_right 2 _) p.enough

end Aml
