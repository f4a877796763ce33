import Mathlib.Data.Nat.Bitwise
import Mathlib.Tactic.Ring

/-! Unsigned 32-bit arithmetic on natural numbers, with the wrap written out. -/
namespace Word32

def add32 (a b : Nat) : Nat := (a + b) % 4294967296
def sub32 (a b : Nat) : Nat := (a + (4294967296 - b % 4294967296)) % 4294967296

def mul32 (a b : Nat) : Nat := a * b % 4294967296

/-- The processor takes a shift count modulo 32. -/
def shl32 (a n : Nat) : Nat := (a <<< (n % 32)) % 4294967296

theorem add32_of_lt {a b : Nat} (h : a + b < 4294967296) : add32 a b = a + b :=
  Nat.mod_eq_of_lt h

theorem mul32_of_lt {a b : Nat} (h : a * b < 4294967296) : mul32 a b = a * b :=
  Nat.mod_eq_of_lt h

theorem sub32_of_le {a b : Nat} (h : b ≤ a) (ha : a < 4294967296) : sub32 a b = a - b := by
  unfold sub32
  omega

theorem shl32_one {n : Nat} (h : n < 32) : shl32 1 n = 2 ^ n := by
  have hlt : 2 ^ n < 4294967296 := by
    calc 2 ^ n ≤ 2 ^ 31 := Nat.pow_le_pow_right (by omega) (by omega)
      _ < 4294967296 := by omega
  rw [shl32, Nat.mod_eq_of_lt h, Nat.one_shiftLeft, Nat.mod_eq_of_lt hlt]

/-- Masking with `0xFFFFFFFF << n` rounds down to a multiple of `2 ^ n`. -/
theorem and_shl32_ones {a n : Nat} (ha : a < 4294967296) (hn : n < 32) :
    a &&& shl32 0xFFFFFFFF n = a - a % 2 ^ n := by
  have hd : a - a % 2 ^ n = (a >>> n) <<< n := by
    rw [Nat.shiftRight_eq_div_pow, Nat.shiftLeft_eq]
    have h := Nat.mod_add_div a (2 ^ n)
    rw [Nat.mul_comm]
    omega
  rw [hd, shl32, Nat.mod_eq_of_lt hn]
  apply Nat.eq_of_testBit_eq
  intro i
  have hones : (0xFFFFFFFF : Nat) = 2 ^ 32 - 1 := by norm_num
  have hmod : (4294967296 : Nat) = 2 ^ 32 := by norm_num
  rw [hones, hmod]
  simp only [Nat.testBit_and, Nat.testBit_mod_two_pow, Nat.testBit_shiftLeft,
    Nat.testBit_shiftRight, Nat.testBit_two_pow_sub_one]
  by_cases hi : n ≤ i
  · have hin : n + (i - n) = i := by omega
    by_cases h32 : i < 32
    · simp [hi, h32, hin]
      intro _
      omega
    · have hz : a.testBit i = false := Nat.testBit_lt_two_pow (lt_of_lt_of_le ha (by
        calc 4294967296 = 2 ^ 32 := by norm_num
          _ ≤ 2 ^ i := Nat.pow_le_pow_right (by omega) (by omega)))
      simp [hi, hz, hin]
  · simp [hi]

/-- A word read as a signed number, and back. -/
def toInt (a : Nat) : Int := if a < 2147483648 then a else (a : Int) - 4294967296
def ofInt (z : Int) : Nat := (z % 4294967296).toNat

/-- The complement of a word. -/
def not32 (a : Nat) : Nat := (4294967295 ^^^ a) % 4294967296

theorem not32_lt (a : Nat) : not32 a < 2 ^ 32 := Nat.mod_lt _ (by decide)

theorem testBit_not32 (a : Nat) {i : Nat} (hi : i < 32) : (not32 a).testBit i = !a.testBit i := by
  have hones : (4294967295 : Nat).testBit i = true := by
    rw [show 4294967295 = 2 ^ 32 - 1 by decide, Nat.testBit_two_pow_sub_one]
    simpa using hi
  rw [not32, show 4294967296 = 2 ^ 32 by decide, Nat.testBit_mod_two_pow, Nat.testBit_xor, hones]
  simp [hi]

theorem not32_eq {a : Nat} (ha : a < 4294967296) : not32 a = 4294967295 - a := by
  have hpow : 4294967295 - a = 2 ^ 32 - (a + 1) := by omega
  have hlt : 2 ^ 32 - (a + 1) < 2 ^ 32 := by omega
  rw [hpow]
  apply Nat.eq_of_testBit_eq
  intro i
  cases Nat.lt_or_ge i 32 with
  | inl hi =>
    rw [testBit_not32 a hi, Nat.testBit_two_pow_sub_succ (by omega)]
    simp [hi]
  | inr hi =>
    have hbig : 2 ^ 32 ≤ 2 ^ i := Nat.pow_le_pow_right (by omega) hi
    rw [Nat.testBit_lt_two_pow (Nat.lt_of_lt_of_le (not32_lt a) hbig),
      Nat.testBit_lt_two_pow (Nat.lt_of_lt_of_le hlt hbig)]

end Word32
