import Foos.FrameRuns
import Foos.Frame
import Mathlib.Data.List.Induction
import Mathlib.Data.Set.Insert

/-! The bitmap of `kernel/pmem.c` as a set of frames: runs of `pmem_set` and `pmem_clear`,
and what `pmem_test` and `pmem_get_free` answer behind them. -/
namespace Foos.Pmem
open ByteMemory

inductive BitmapOp where
  | set (addr : Nat)
  | clear (addr : Nat)

namespace BitmapOp

def addr : BitmapOp → Nat
  | set addr => addr
  | clear addr => addr

/-- The number of the frame that holds the address. -/
def frame (op : BitmapOp) : Nat := op.addr / pageSize

def apply (frameSet : Nat) (m : Mem) : BitmapOp → Mem
  | set addr => pmemSet frameSet m addr
  | clear addr => pmemClear frameSet m addr

/-- The operation on the set of frames. -/
def update (S : Set Nat) : BitmapOp → Set Nat
  | set addr => insert (addr / pageSize) S
  | clear addr => S \ {addr / pageSize}

end BitmapOp

def bitmapRun (frameSet : Nat) (m : Mem) (ops : List BitmapOp) : Mem :=
  ops.foldl (BitmapOp.apply frameSet) m

def framesOf (ops : List BitmapOp) : Set Nat := ops.foldl BitmapOp.update ∅

/-- The last operation on frame `f` is a set. -/
def LastSet (ops : List BitmapOp) (f : Nat) : Prop :=
  ∃ pre addr post, ops = pre ++ BitmapOp.set addr :: post ∧ addr / pageSize = f ∧
    ∀ op ∈ post, op.frame ≠ f

variable {frameSet : Nat} {m : Mem} {ops : List BitmapOp} {op : BitmapOp}

theorem bitmapRun_snoc (frameSet : Nat) (m : Mem) (ops : List BitmapOp) (op : BitmapOp) :
    bitmapRun frameSet m (ops ++ [op]) = op.apply frameSet (bitmapRun frameSet m ops) := by
  simp [bitmapRun]

theorem framesOf_snoc (ops : List BitmapOp) (op : BitmapOp) :
    framesOf (ops ++ [op]) = op.update (framesOf ops) := by
  simp [framesOf]

theorem BitmapOp.mem_update (S : Set Nat) (op : BitmapOp) (f : Nat) :
    f ∈ op.update S ↔ (∃ addr, op = .set addr ∧ addr / pageSize = f) ∨ op.frame ≠ f ∧ f ∈ S := by
  cases op with
  | set addr =>
    by_cases h : addr / pageSize = f
    · simp [update, frame, BitmapOp.addr, h]
    · simp [update, frame, BitmapOp.addr, h, Ne.symm h]
  | clear addr =>
    simp only [update, frame, BitmapOp.addr, Set.mem_sdiff, Set.mem_singleton_iff, reduceCtorEq,
      false_and, exists_false, false_or]
    exact ⟨fun h => ⟨Ne.symm h.2, h.1⟩, fun h => ⟨h.2, Ne.symm h.1⟩⟩

theorem lastSet_snoc (ops : List BitmapOp) (op : BitmapOp) (f : Nat) :
    LastSet (ops ++ [op]) f ↔
      (∃ addr, op = .set addr ∧ addr / pageSize = f) ∨ op.frame ≠ f ∧ LastSet ops f := by
  constructor
  · rintro ⟨pre, addr, post, heq, hf, hpost⟩
    rcases List.eq_nil_or_concat post with rfl | ⟨post', last, rfl⟩
    · obtain ⟨-, hop⟩ := List.append_inj' heq rfl
      exact .inl ⟨addr, (List.cons.inj hop).1, hf⟩
    · rw [List.concat_eq_append, ← List.cons_append, ← List.append_assoc] at heq
      obtain ⟨rfl, hop⟩ := List.append_inj' heq rfl
      obtain rfl := (List.cons.inj hop).1
      refine .inr ⟨hpost op (by simp), pre, addr, post', rfl, hf, fun e he => ?_⟩
      exact hpost e (by simp [he])
  · rintro (⟨addr, rfl, hf⟩ | ⟨hne, pre, addr, post, rfl, hf, hpost⟩)
    · exact ⟨ops, addr, [], rfl, hf, by simp⟩
    · refine ⟨pre, addr, post ++ [op], by simp, hf, fun e he => ?_⟩
      obtain he | he := List.mem_append.mp he
      · exact hpost e he
      · rwa [List.mem_singleton.mp he]

/-- A frame is in the set when the last operation on it put it there. -/
theorem mem_framesOf (ops : List BitmapOp) (f : Nat) : f ∈ framesOf ops ↔ LastSet ops f := by
  induction ops using List.reverseRec with
  | nil => simp [framesOf, LastSet]
  | append_singleton ops op ih => rw [framesOf_snoc, BitmapOp.mem_update, lastSet_snoc, ih]

theorem taken_apply (op : BitmapOp) (f : Nat) {S : Set Nat}
    (h : Taken frameSet m f ↔ f ∈ S) :
    Taken frameSet (op.apply frameSet m) f ↔ f ∈ op.update S := by
  cases op with
  | set addr => simp only [BitmapOp.apply, BitmapOp.update, taken_pmemSet, h, Set.mem_insert_iff]
  | clear addr =>
    simp only [BitmapOp.apply, BitmapOp.update, taken_pmemClear, h, Set.mem_sdiff,
      Set.mem_singleton_iff, ne_eq, and_comm]

/-- The bitmap stands for the set of frames: every operation on it is the one on the set. -/
theorem bitmapRun_taken (hm : Cleared frameSet m) (ops : List BitmapOp) {f : Nat}
    (hf : f < 32768) : Taken frameSet (bitmapRun frameSet m ops) f ↔ f ∈ framesOf ops := by
  induction ops using List.reverseRec with
  | nil =>
    have hz : load32 m (Bitmap.wordOf frameSet f) = 0 := by
      refine load32_zero fun y h1 h2 => hm y ?_ ?_
      · exact Nat.le_trans (Nat.le_add_right _ _) h1
      · simp only [Bitmap.wordOf, pageSize] at *
        omega
    simp [bitmapRun, framesOf, Taken, Bitmap.bit, hz]
  | append_singleton ops op ih =>
    rw [bitmapRun_snoc, framesOf_snoc]
    exact taken_apply op f ih

theorem pmemTest_eq (frameSet : Nat) (m : Mem) (addr : Nat) :
    pmemTest frameSet m addr =
      (Bitmap.bit m frameSet (addr / pageSize)).toNat * 2 ^ (addr / pageSize % 32) := by
  rw [pmemTest, bitOffset, Bitmap.shl32_bit, Nat.and_two_pow]
  rfl

/-- An operation does not change the answer for an address in another frame. -/
theorem pmemTest_apply (op : BitmapOp) {a : Nat} (h : a / pageSize ≠ op.frame) :
    pmemTest frameSet (op.apply frameSet m) a = pmemTest frameSet m a := by
  rw [pmemTest_eq, pmemTest_eq]
  congr 2
  cases op with
  | set addr =>
    have hne : a / pageSize ≠ addr / pageSize := h
    exact (Bitmap.bit_setBit m frameSet _ _).trans (by simp [hne])
  | clear addr =>
    have hne : a / pageSize ≠ addr / pageSize := h
    exact (Bitmap.bit_clearBit m frameSet _ _).trans (by simp [hne])

theorem BitmapOp.apply_frame (h : op.addr < 0x8000000) :
    Frame [(frameSet, pageSize)] m (op.apply frameSet m) := by
  have hin := wordAt_bounds frameSet h
  intro y hy
  have hy' := hy (frameSet, pageSize) (by simp)
  cases op with
  | set addr => exact pmemSet_outside (by simp only [BitmapOp.addr] at hin; omega)
  | clear addr => exact pmemClear_outside (by simp only [BitmapOp.addr] at hin; omega)

theorem bitmapRun_frame (h : ∀ op ∈ ops, op.addr < 0x8000000) :
    Frame [(frameSet, pageSize)] m (bitmapRun frameSet m ops) := by
  induction ops using List.reverseRec with
  | nil => exact Frame.refl _ _
  | append_singleton ops op ih =>
    rw [bitmapRun_snoc]
    exact (ih fun e he => h e (by simp [he])).trans (BitmapOp.apply_frame (h op (by simp)))

/-- Behind every run on a cleared bitmap, the answers are those of the set of frames whose
last operation is a set, and nothing but the bitmap is written. -/
theorem bitmap_refines (frameSet : Nat) (m : Mem) (hm : Cleared frameSet m)
    (ops : List BitmapOp) (hops : ∀ op ∈ ops, op.addr < 0x8000000) :
    (∀ a, a < 0x8000000 →
      (pmemTest frameSet (bitmapRun frameSet m ops) a ≠ 0 ↔ LastSet ops (a / pageSize))) ∧
    (∀ op : BitmapOp, op.addr < 0x8000000 → ∀ a, a < 0x8000000 → a / pageSize ≠ op.frame →
      pmemTest frameSet (bitmapRun frameSet m (ops ++ [op])) a =
        pmemTest frameSet (bitmapRun frameSet m ops) a) ∧
    ((∃ f, f < nPages ∧ f ∉ framesOf ops ∧ (∀ g, g < f → g ∈ framesOf ops) ∧
        pmemGetFree frameSet (bitmapRun frameSet m ops) = f * pageSize) ∨
      (∀ f, f < nPages → f ∈ framesOf ops) ∧
        pmemGetFree frameSet (bitmapRun frameSet m ops) = 0) ∧
    (∀ f, f ∈ framesOf ops ↔ LastSet ops f) ∧
    Frame [(frameSet, pageSize)] m (bitmapRun frameSet m ops) := by
  have htaken : ∀ f, f < 32768 →
      (Taken frameSet (bitmapRun frameSet m ops) f ↔ f ∈ framesOf ops) :=
    fun f hf => bitmapRun_taken hm ops hf
  have hpages : nPages = 4096 := rfl
  refine ⟨fun a ha => ?_, fun op _ a _ hne => ?_, ?_, mem_framesOf ops, bitmapRun_frame hops⟩
  · have hf : a / pageSize < 32768 := by
      simp only [pageSize]
      omega
    rw [Ne, pmemTest_zero, not_not, htaken _ hf, mem_framesOf]
  · rw [bitmapRun_snoc, pmemTest_apply op hne]
  · by_cases hfree : ∃ f, f < nPages ∧ ¬ Taken frameSet (bitmapRun frameSet m ops) f
    · obtain ⟨f, hf, hnot, hbelow, hget⟩ := pmemGetFree_free hfree
      refine .inl ⟨f, hf, ?_, fun g hg => ?_, hget⟩
      · rwa [← htaken f (by omega)]
      · exact (htaken g (by omega)).mp (hbelow g hg)
    · have hall : ∀ f, f < nPages → Taken frameSet (bitmapRun frameSet m ops) f := by
        intro f hf
        by_contra hnot
        exact hfree ⟨f, hf, hnot⟩
      exact .inr ⟨fun f hf => (htaken f (by omega)).mp (hall f hf), pmemGetFree_none hall⟩

/-- Frame 1 is marked and cleared through another of its addresses, then frame 0 is marked. -/
def marks : List BitmapOp := [.set 0x1000, .clear 0x1FFF, .set 0xFFC]

theorem bitmap_refines_marks :
    (∀ op ∈ marks, op.addr < 0x8000000) ∧
    (pmemTest 0x2000 (bitmapRun 0x2000 blank marks) 0x1004 ≠ 0 ↔ LastSet marks 1) ∧
    (pmemTest 0x2000 (bitmapRun 0x2000 blank marks) 4 ≠ 0 ↔ LastSet marks 0) := by
  have hops : ∀ op ∈ marks, op.addr < 0x8000000 := by
    simp [marks, BitmapOp.addr]
  have h := bitmap_refines 0x2000 blank (fun _ _ _ => rfl) marks hops
  exact ⟨hops, h.1 0x1004 (by decide), h.1 4 (by decide)⟩

end Foos.Pmem
