import Foos.Bitmap
import Foos.Kmalloc

/-! The frame bitmap of `kernel/pmem.c`. `frameSet` is the static `frame_set`; the functions
that touch nothing but memory take and return memory. -/
namespace Foos.Pmem
open ByteMemory Word32 Kmalloc

def mappedMemory : Nat := 0x1000000
def pageSize : Nat := 0x1000
def nPages : Nat := mappedMemory / pageSize

def pPresent : Nat := 0x1
def pWritable : Nat := 0x2

def bitIndex (x : Nat) : Nat := x / 32
def bitOffset (x : Nat) : Nat := x % 32

def pmemSet (frameSet : Nat) (m : Mem) (addr : Nat) : Mem :=
  let frame := addr / pageSize
  let word := frameSet + 4 * bitIndex frame
  store32 m word (load32 m word ||| shl32 1 (bitOffset frame))

def pmemClear (frameSet : Nat) (m : Mem) (addr : Nat) : Mem :=
  let frame := addr / pageSize
  let word := frameSet + 4 * bitIndex frame
  store32 m word (load32 m word &&& not32 (shl32 1 (bitOffset frame)))

def pmemTest (frameSet : Nat) (m : Mem) (addr : Nat) : Nat :=
  let frame := addr / pageSize
  load32 m (frameSet + 4 * bitIndex frame) &&& shl32 1 (bitOffset frame)

/-- The new `frame_set`, and memory with the bitmap cleared. -/
def pmemInit (kmalloc : Machine → Nat → Option (Nat × Machine)) (k : Machine) :
    Option (Nat × Machine) :=
  (kmalloc k pageSize).map fun r =>
    (r.1, { r.2 with mem := memset r.2.mem r.1 0 pageSize })

/-- The loop of `pmem_get_free`, with `n` pages to go. -/
def pmemGetFreeFrom (frameSet : Nat) (m : Mem) : Nat → Nat → Nat
  | 0, _ => 0
  | n+1, addr =>
    if pmemTest frameSet m addr = 0 then addr
    else pmemGetFreeFrom frameSet m n (addr + pageSize)

def pmemGetFree (frameSet : Nat) (m : Mem) : Nat := pmemGetFreeFrom frameSet m nPages 0

def pmemMap (frameSet : Nat) (m : Mem) (pg physaddr flags : Nat) : Int × Mem :=
  let physaddr := if physaddr = 0 then pmemGetFree frameSet m else physaddr
  let m := store32 m pg (load32 m pg ||| (physaddr ||| pPresent ||| flags))
  (0, pmemSet frameSet m physaddr)

/-- Frame number `f` is marked in the bitmap. -/
def Taken (frameSet : Nat) (m : Mem) (f : Nat) : Prop := Bitmap.bit m frameSet f = true

instance (frameSet : Nat) (m : Mem) (f : Nat) : Decidable (Taken frameSet m f) :=
  inferInstanceAs (Decidable (_ = _))

variable {frameSet : Nat} {m : Mem}

theorem taken_pmemSet (addr f : Nat) :
    Taken frameSet (pmemSet frameSet m addr) f ↔ f = addr / pageSize ∨ Taken frameSet m f := by
  rw [Taken, show pmemSet frameSet m addr = Bitmap.setBit m frameSet (addr / pageSize) from rfl,
    Bitmap.bit_setBit]
  simp [Taken]

theorem taken_pmemClear (addr f : Nat) :
    Taken frameSet (pmemClear frameSet m addr) f ↔
      f ≠ addr / pageSize ∧ Taken frameSet m f := by
  rw [Taken, show pmemClear frameSet m addr = Bitmap.clearBit m frameSet (addr / pageSize) from
    rfl, Bitmap.bit_clearBit]
  simp [Taken]

theorem pmemTest_zero (frameSet : Nat) (m : Mem) (addr : Nat) :
    pmemTest frameSet m addr = 0 ↔ ¬ Taken frameSet m (addr / pageSize) := by
  have hpos : 0 < 2 ^ (addr / pageSize % 32) := Nat.two_pow_pos _
  rw [pmemTest, bitOffset, Bitmap.shl32_bit, Nat.and_two_pow, Taken, Bitmap.bit]
  change (Bool.toNat _ * _ = 0) ↔ ¬ Nat.testBit _ _ = true
  rw [bitIndex, Bitmap.wordOf]
  cases (load32 m (frameSet + 4 * (addr / pageSize / 32))).testBit (addr / pageSize % 32)
  · simp
  · simp

/-- The word of the bitmap that a page-frame operation on `addr` stores. -/
def wordAt (frameSet addr : Nat) : Nat := Bitmap.wordOf frameSet (addr / pageSize)

theorem pmemSet_outside {addr y : Nat}
    (h : y < wordAt frameSet addr ∨ wordAt frameSet addr + 4 ≤ y) :
    pmemSet frameSet m addr y = m y :=
  Bitmap.setBit_outside h

theorem pmemClear_outside {addr y : Nat}
    (h : y < wordAt frameSet addr ∨ wordAt frameSet addr + 4 ≤ y) :
    pmemClear frameSet m addr y = m y :=
  Bitmap.clearBit_outside h

/-- Addresses below 128 MiB have their bit in the 4096 bytes of the bitmap. -/
theorem wordAt_bounds (frameSet : Nat) {addr : Nat} (h : addr < 0x8000000) :
    frameSet ≤ wordAt frameSet addr ∧ wordAt frameSet addr + 4 ≤ frameSet + pageSize := by
  simp only [wordAt, Bitmap.wordOf, pageSize]
  omega

theorem pmemGetFreeFrom_step (n i : Nat) :
    pmemGetFreeFrom frameSet m (n + 1) (i * pageSize) =
      if Taken frameSet m i then pmemGetFreeFrom frameSet m n ((i + 1) * pageSize)
      else i * pageSize := by
  have hdiv : i * pageSize / pageSize = i := Nat.mul_div_cancel i (by decide)
  have htest := pmemTest_zero frameSet m (i * pageSize)
  rw [hdiv] at htest
  rw [pmemGetFreeFrom, Nat.succ_mul]
  by_cases h : Taken frameSet m i
  · rw [if_pos h, if_neg (fun h0 => htest.mp h0 h)]
  · rw [if_neg h, if_pos (htest.mpr h)]

/-- The search from page `i` on finds the first frame that is not taken. -/
theorem pmemGetFreeFrom_first {n i f : Nat} (hi : i ≤ f) (hf : f < i + n)
    (hfree : ¬ Taken frameSet m f) (hbelow : ∀ g, i ≤ g → g < f → Taken frameSet m g) :
    pmemGetFreeFrom frameSet m n (i * pageSize) = f * pageSize := by
  induction n generalizing i with
  | zero => omega
  | succ n ih =>
    rw [pmemGetFreeFrom_step]
    cases Nat.eq_or_lt_of_le hi with
    | inl heq =>
      obtain rfl := heq
      rw [if_neg hfree]
    | inr hlt =>
      rw [if_pos (hbelow i (Nat.le_refl i) hlt)]
      exact ih hlt (by omega) fun g h1 h2 => hbelow g (by omega) h2

theorem pmemGetFreeFrom_none {n i : Nat} (h : ∀ g, i ≤ g → g < i + n → Taken frameSet m g) :
    pmemGetFreeFrom frameSet m n (i * pageSize) = 0 := by
  induction n generalizing i with
  | zero => rfl
  | succ n ih =>
    rw [pmemGetFreeFrom_step, if_pos (h i (Nat.le_refl i) (by omega))]
    exact ih fun g h1 h2 => h g (by omega) (by omega)

theorem pmemGetFree_first {f : Nat} (hf : f < nPages) (hfree : ¬ Taken frameSet m f)
    (hbelow : ∀ g, g < f → Taken frameSet m g) :
    pmemGetFree frameSet m = f * pageSize := by
  have h := pmemGetFreeFrom_first (Nat.zero_le f) (by omega : f < 0 + nPages) hfree
    fun g _ hg => hbelow g hg
  rwa [Nat.zero_mul] at h

theorem pmemGetFree_none (h : ∀ g, g < nPages → Taken frameSet m g) :
    pmemGetFree frameSet m = 0 := by
  have h0 := pmemGetFreeFrom_none fun g (_ : 0 ≤ g) (hg : g < 0 + nPages) => h g (by omega)
  rwa [Nat.zero_mul] at h0

/-- When a frame is free, the search returns the address of the first one. -/
theorem pmemGetFree_free (h : ∃ f, f < nPages ∧ ¬ Taken frameSet m f) :
    ∃ f, f < nPages ∧ ¬ Taken frameSet m f ∧ (∀ g, g < f → Taken frameSet m g) ∧
      pmemGetFree frameSet m = f * pageSize := by
  classical
  obtain ⟨hf, hfree⟩ := Nat.find_spec h
  have hbelow : ∀ g, g < Nat.find h → Taken frameSet m g := by
    intro g hg
    by_contra hgt
    exact Nat.find_min h hg ⟨Nat.lt_trans hg hf, hgt⟩
  exact ⟨Nat.find h, hf, hfree, hbelow, pmemGetFree_first hf hfree hbelow⟩

end Foos.Pmem
