import Foos.Memory
import Foos.Word

/-! Bit sets kept in memory as an array of 32-bit words. -/
namespace Bitmap
open ByteMemory Word32

/-- The address of the word that holds bit `i`. -/
def wordOf (base i : Nat) : Nat := base + 4 * (i / 32)

def bit (m : Mem) (base i : Nat) : Bool := (load32 m (wordOf base i)).testBit (i % 32)

def setBit (m : Mem) (base i : Nat) : Mem :=
  store32 m (wordOf base i) (load32 m (wordOf base i) ||| shl32 1 (i % 32))

def clearBit (m : Mem) (base i : Nat) : Mem :=
  store32 m (wordOf base i) (load32 m (wordOf base i) &&& not32 (shl32 1 (i % 32)))

theorem shl32_bit (i : Nat) : shl32 1 (i % 32) = 2 ^ (i % 32) :=
  shl32_one (Nat.mod_lt i (by decide))

theorem bit_congr {m m' : Mem} {base i : Nat}
    (h : ∀ y, wordOf base i ≤ y → y < wordOf base i + 4 → m' y = m y) :
    bit m' base i = bit m base i := by
  rw [bit, bit, load32_congr h]

/-- Storing a word changes the bits of that word and no others. -/
theorem bit_store (m : Mem) (base i j v : Nat) (hv : v < 4294967296) :
    bit (store32 m (wordOf base i) v) base j =
      if j / 32 = i / 32 then v.testBit (j % 32) else bit m base j := by
  split
  · rename_i h
    have hw : wordOf base j = wordOf base i := by simp only [wordOf, h]
    rw [bit, hw, load32_store32, Nat.mod_eq_of_lt hv]
  · rename_i h
    refine bit_congr fun y h1 h2 => store32_outside m _ v y ?_
    simp only [wordOf] at *
    omega

theorem bit_setBit (m : Mem) (base i j : Nat) :
    bit (setBit m base i) base j = (decide (j = i) || bit m base j) := by
  have hi : i % 32 < 32 := Nat.mod_lt i (by decide)
  have hlt : load32 m (wordOf base i) ||| shl32 1 (i % 32) < 2 ^ 32 := by
    refine Nat.or_lt_two_pow (load32_lt m _) ?_
    rw [shl32_bit]
    exact Nat.pow_lt_pow_right (by decide) hi
  rw [setBit, bit_store m base i j _ hlt]
  split
  · rename_i h
    have hw : wordOf base j = wordOf base i := by simp only [wordOf, h]
    have heq : i % 32 = j % 32 ↔ j = i := by omega
    rw [bit, hw, Nat.testBit_or, shl32_bit, Nat.testBit_two_pow, Bool.or_comm]
    simp only [heq]
  · rename_i h
    have hne : j ≠ i := by
      rintro rfl
      exact h rfl
    simp [hne]

theorem bit_clearBit (m : Mem) (base i j : Nat) :
    bit (clearBit m base i) base j = (decide (j ≠ i) && bit m base j) := by
  have hlt : load32 m (wordOf base i) &&& not32 (shl32 1 (i % 32)) < 2 ^ 32 :=
    Nat.and_lt_two_pow _ (not32_lt _)
  rw [clearBit, bit_store m base i j _ hlt]
  split
  · rename_i h
    have hw : wordOf base j = wordOf base i := by simp only [wordOf, h]
    have hj : j % 32 < 32 := Nat.mod_lt j (by decide)
    have heq : i % 32 ≠ j % 32 ↔ j ≠ i := by omega
    rw [bit, hw, Nat.testBit_and, testBit_not32 _ hj, shl32_bit, Nat.testBit_two_pow,
      Bool.and_comm]
    simp only [← heq, decide_not]
  · rename_i h
    have hne : j ≠ i := by
      rintro rfl
      exact h rfl
    simp [hne]

theorem setBit_outside {m : Mem} {base i y : Nat}
    (h : y < wordOf base i ∨ wordOf base i + 4 ≤ y) : setBit m base i y = m y :=
  store32_outside m _ _ y h

theorem clearBit_outside {m : Mem} {base i y : Nat}
    (h : y < wordOf base i ∨ wordOf base i + 4 ≤ y) : clearBit m base i y = m y :=
  store32_outside m _ _ y h

end Bitmap
