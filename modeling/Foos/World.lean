import Mathlib.Logic.Function.Basic
import Foos.Program
import Foos.Supply

/-! The state that device and file system code works on: memory, the entries of the device
table that change, what the drivers keep elsewhere, and the statics of `ramfs.c`. What goes
to the terminal and the serial line is left out. -/
namespace Foos
open Program ByteMemory Word32 Kmalloc

def ENOSYS : Nat := 88
def EBUSY : Nat := 16
def ENOTDIR : Nat := 20

structure DevState where
  offset : Nat
  data : Nat

/-- What a run has done so far, for statements about it: bytes of the ramdisk image looked
at, inodes filled in (with the memory at that moment), devices opened or closed. -/
inductive Event where
  | image (a n : Nat)
  | inode (i node : Nat) (m : Mem)
  | device (no : Nat)

structure World (δ : Type) where
  k : Machine
  devs : Nat → DevState
  driver : Nat → δ
  rdFiles : Nat
  fileBase : Nat
  rdNfiles : Nat
  rdRoot : Nat
  trace : List Event

abbrev Code (δ α : Type) : Type := Prog (World δ) α

namespace World
variable {δ : Type}

def mem (w : World δ) : Mem := w.k.mem
def setMem (w : World δ) (m : Mem) : World δ := { w with k := { w.k with mem := m } }
def log (w : World δ) (e : Event) : World δ := { w with trace := w.trace ++ [e] }

def setOffset (w : World δ) (no offset : Nat) : World δ :=
  { w with devs := Function.update w.devs no { w.devs no with offset := offset } }

def setData (w : World δ) (no data : Nat) : World δ :=
  { w with devs := Function.update w.devs no { w.devs no with data := data } }

@[simp] theorem setMem_mem (w : World δ) (m : Mem) : (w.setMem m).mem = m := rfl
@[simp] theorem setMem_devs (w : World δ) (m : Mem) : (w.setMem m).devs = w.devs := rfl
@[simp] theorem setMem_driver (w : World δ) (m : Mem) : (w.setMem m).driver = w.driver := rfl
@[simp] theorem setMem_trace (w : World δ) (m : Mem) : (w.setMem m).trace = w.trace := rfl
@[simp] theorem setMem_rdFiles (w : World δ) (m : Mem) : (w.setMem m).rdFiles = w.rdFiles := rfl
@[simp] theorem setMem_fileBase (w : World δ) (m : Mem) :
    (w.setMem m).fileBase = w.fileBase := rfl
@[simp] theorem setMem_rdNfiles (w : World δ) (m : Mem) :
    (w.setMem m).rdNfiles = w.rdNfiles := rfl
@[simp] theorem setMem_rdRoot (w : World δ) (m : Mem) : (w.setMem m).rdRoot = w.rdRoot := rfl
@[simp] theorem setMem_setMem (w : World δ) (m m' : Mem) :
    (w.setMem m).setMem m' = w.setMem m' := rfl

@[simp] theorem log_mem (w : World δ) (e : Event) : (w.log e).mem = w.mem := rfl
@[simp] theorem log_devs (w : World δ) (e : Event) : (w.log e).devs = w.devs := rfl
@[simp] theorem log_driver (w : World δ) (e : Event) : (w.log e).driver = w.driver := rfl
@[simp] theorem log_trace (w : World δ) (e : Event) : (w.log e).trace = w.trace ++ [e] := rfl
@[simp] theorem log_rdFiles (w : World δ) (e : Event) : (w.log e).rdFiles = w.rdFiles := rfl
@[simp] theorem log_fileBase (w : World δ) (e : Event) : (w.log e).fileBase = w.fileBase := rfl
@[simp] theorem log_rdNfiles (w : World δ) (e : Event) : (w.log e).rdNfiles = w.rdNfiles := rfl
@[simp] theorem log_rdRoot (w : World δ) (e : Event) : (w.log e).rdRoot = w.rdRoot := rfl

@[simp] theorem setOffset_mem (w : World δ) (no v : Nat) : (w.setOffset no v).mem = w.mem := rfl
@[simp] theorem setOffset_data (w : World δ) (no v i : Nat) :
    ((w.setOffset no v).devs i).data = (w.devs i).data := by
  by_cases h : i = no
  · subst h
    simp [setOffset]
  · simp [setOffset, h]

theorem setOffset_same (w : World δ) (no v : Nat) : ((w.setOffset no v).devs no).offset = v := by
  simp [setOffset]

theorem setOffset_ne (w : World δ) {no i : Nat} (v : Nat) (h : i ≠ no) :
    (w.setOffset no v).devs i = w.devs i := by
  simp [setOffset, h]

theorem setData_same (w : World δ) (no v : Nat) : ((w.setData no v).devs no).data = v := by
  simp [setData]

theorem setData_ne (w : World δ) {no i : Nat} (v : Nat) (h : i ≠ no) :
    (w.setData no v).devs i = w.devs i := by
  simp [setData, h]

end World

variable {δ α : Type}

def ofMem (f : Mem → α) : Code δ α := read fun w => f w.mem
def onMem (f : Mem → Mem) : Code δ Unit := modify fun w => w.setMem (f w.mem)
def note (e : Event) : Code δ Unit := modify fun w => w.log e
def setErrno (e : Nat) : Code δ Unit := modify fun w => { w with k := { w.k with errno := e } }

@[simp] theorem ofMem_bind_run {β : Type} (f : Mem → α) (g : α → Code δ β) (w : World δ) :
    (ofMem f >>= g) w = g (f w.mem) w := rfl

@[simp] theorem onMem_bind_run {β : Type} (f : Mem → Mem) (g : Unit → Code δ β) (w : World δ) :
    (onMem f >>= g) w = g () (w.setMem (f w.mem)) := rfl

@[simp] theorem note_bind_run {β : Type} (e : Event) (g : Unit → Code δ β) (w : World δ) :
    (note e >>= g) w = g () (w.log e) := rfl

@[simp] theorem ofMem_run (f : Mem → α) (w : World δ) : ofMem f w = .ret (f w.mem) w := rfl
@[simp] theorem onMem_run (f : Mem → Mem) (w : World δ) :
    onMem f w = .ret () (w.setMem (f w.mem)) := rfl
@[simp] theorem note_run (e : Event) (w : World δ) : note e w = .ret () (w.log e) := rfl

/-- The heap functions that the code is linked with. -/
structure Heap where
  kmalloca : Allocator
  kfree : Machine → Nat → Option Machine

def kmalloc (h : Heap) (sz : Nat) : Code δ Nat :=
  update fun w => (h.kmalloca w.k sz 0).map fun r => (r.1, { w with k := r.2 })

theorem kmalloc_run {h : Heap} {w : World δ} {sz p : Nat} {k : Machine}
    (hk : h.kmalloca w.k sz 0 = some (p, k)) : kmalloc h sz w = .ret p { w with k := k } :=
  update_run (by rw [hk]; rfl)

def kfree (h : Heap) (ptr : Nat) : Code δ Unit :=
  update fun w => (h.kfree w.k ptr).map fun k => ((), { w with k := k })

/-- The log of a run only grows. -/
def Extends (s t : World δ) : Prop := ∃ l, t.trace = s.trace ++ l

theorem Extends.refl (s : World δ) : Extends s s := ⟨[], (List.append_nil _).symm⟩

theorem Extends.trans (s t u : World δ) (h : Extends s t) (h' : Extends t u) : Extends s u := by
  obtain ⟨l, hl⟩ := h
  obtain ⟨l', hl'⟩ := h'
  exact ⟨l ++ l', by rw [hl', hl, List.append_assoc]⟩

end Foos
