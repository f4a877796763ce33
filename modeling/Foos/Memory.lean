import Mathlib.Tactic.Ring
import Mathlib.Data.List.Basic
import Mathlib.Tactic.SplitIfs

/-! Byte memory with little-endian words: the store on which C objects live.
Addresses are natural numbers; a word access touches four consecutive bytes. -/
namespace ByteMemory

@[ext]
structure Mem where
  byte : Nat → UInt8

instance : CoeFun Mem fun _ => Nat → UInt8 := ⟨Mem.byte⟩

def store8 (m : Mem) (a : Nat) (v : UInt8) : Mem :=
  ⟨fun x => if x = a then v else m x⟩

def load16 (m : Mem) (a : Nat) : Nat :=
  (m a).toNat + 256 * (m (a + 1)).toNat

def load32 (m : Mem) (a : Nat) : Nat :=
  (m a).toNat + 256 * (m (a + 1)).toNat + 65536 * (m (a + 2)).toNat +
    16777216 * (m (a + 3)).toNat

/-- Byte `i` of a word, least significant first. -/
def byteOf (v i : Nat) : UInt8 := UInt8.ofNat (v / 256 ^ i)

def store32 (m : Mem) (a v : Nat) : Mem := ⟨fun x =>
  if x = a then byteOf v 0 else if x = a + 1 then byteOf v 1
  else if x = a + 2 then byteOf v 2 else if x = a + 3 then byteOf v 3 else m x⟩

/-- `rep stosb` -/
def memset (m : Mem) (s : Nat) (c : UInt8) (n : Nat) : Mem :=
  ⟨fun x => if s ≤ x ∧ x < s + n then c else m x⟩

/-- `rep movsb`: bytes are copied upwards, one after the other. -/
def memcpy (m : Mem) (dest src : Nat) : Nat → Mem
  | 0 => m
  | n+1 => memcpy (store8 m dest (m src)) (dest + 1) (src + 1) n

theorem store8_same (m : Mem) (a : Nat) (v : UInt8) : store8 m a v a = v := by
  simp [store8]

theorem store8_ne (m : Mem) (a x : Nat) (v : UInt8) (h : x ≠ a) :
    store8 m a v x = m x := by
  simp [store8, h]

theorem store32_outside (m : Mem) (a v x : Nat) (h : x < a ∨ a + 4 ≤ x) :
    store32 m a v x = m x := by
  have h0 : x ≠ a := by omega
  have h1 : x ≠ a + 1 := by omega
  have h2 : x ≠ a + 2 := by omega
  have h3 : x ≠ a + 3 := by omega
  simp [store32, h0, h1, h2, h3]

theorem load32_lt (m : Mem) (a : Nat) : load32 m a < 4294967296 := by
  have h0 := (m a).toNat_lt
  have h1 := (m (a + 1)).toNat_lt
  have h2 := (m (a + 2)).toNat_lt
  have h3 := (m (a + 3)).toNat_lt
  unfold load32
  omega

theorem load32_congr {m m' : Mem} {a : Nat} (h : ∀ x, a ≤ x → x < a + 4 → m' x = m x) :
    load32 m' a = load32 m a := by
  simp only [load32, h a (by omega) (by omega), h (a + 1) (by omega) (by omega),
    h (a + 2) (by omega) (by omega), h (a + 3) (by omega) (by omega)]

theorem load32_store32 (m : Mem) (a v : Nat) :
    load32 (store32 m a v) a = v % 4294967296 := by
  simp only [load32, store32, byteOf]
  simp only [if_true, Nat.add_eq_left, OfNat.ofNat_ne_zero, one_ne_zero, if_false,
    Nat.add_left_cancel_iff]
  norm_num
  omega

theorem load32_store32_ne (m : Mem) (a b v : Nat) (h : b + 4 ≤ a ∨ a + 4 ≤ b) :
    load32 (store32 m a v) b = load32 m b :=
  load32_congr fun x h1 h2 => store32_outside m a v x (by omega)

theorem load32_zero {m : Mem} {a : Nat} (h : ∀ x, a ≤ x → x < a + 4 → m x = 0) :
    load32 m a = 0 := by
  simp [load32, h a (by omega) (by omega), h (a + 1) (by omega) (by omega),
    h (a + 2) (by omega) (by omega), h (a + 3) (by omega) (by omega)]

theorem store32_twice (m : Mem) (a v w : Nat) :
    store32 (store32 m a v) a w = store32 m a w := by
  ext x
  simp only [store32]
  split_ifs <;> rfl

theorem store32_load32 (m : Mem) (a : Nat) : store32 m a (load32 m a) = m := by
  have h0 := (m a).toNat_lt
  have h1 := (m (a + 1)).toNat_lt
  have h2 := (m (a + 2)).toNat_lt
  have h3 := (m (a + 3)).toNat_lt
  ext x
  simp only [store32, load32, byteOf]
  split_ifs <;> (try subst x) <;> (try rfl) <;> simp <;> omega

end ByteMemory
