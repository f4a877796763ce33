import Foos.Pmem
import Foos.Supply

/-! Two-level paging: `kernel/vmem.c` and the part of `kernel/pmem.c` that goes through it.
The heap's `kmalloca` is an argument; `none` is a call of it that does not return. -/
namespace Foos.Vmem
open ByteMemory Word32 Kmalloc Pmem

def pageAlignShift : Nat := 12
def tableSize : Nat := 1024 * 4
def dirSize : Nat := 1024 * 4

/-- Memory, the statics `frame_set` and `tables`, and the register `cr3`. -/
structure Paging where
  k : Machine
  frameSet : Nat
  tables : Nat
  cr3 : Nat

def vmemGet (kmalloca : Allocator) (s : Paging) (addr dirptr : Nat) : Option (Nat × Paging) :=
  let dir := if dirptr = 0 then s.cr3 else dirptr
  let tmp := addr / pageSize
  let tableI := tmp / 1024
  let offset := tmp % 1024
  let entry := load32 s.k.mem (dir + 4 * tableI)
  let table := entry &&& shl32 0xFFFFFFFF pageAlignShift
  if entry &&& pPresent = 0 ∨ table = 0 then
    (kmalloca s.k tableSize pageAlignShift).map fun r =>
      let m := store32 r.2.mem (dir + 4 * tableI) (r.1 ||| pPresent ||| pWritable)
      (r.1 + 4 * offset, { s with k := { r.2 with mem := m } })
  else some (table + 4 * offset, s)

def pmemMapaddr (kmalloca : Allocator) (s : Paging) (virtaddr physaddr flags dir : Nat) :
    Option (Int × Paging) :=
  (vmemGet kmalloca s virtaddr dir).map fun r =>
    let res := pmemMap r.2.frameSet r.2.k.mem r.1 physaddr flags
    (res.1, { r.2 with k := { r.2.k with mem := res.2 } })

/-- The loop of `vmem_init` from page `i` on, with `n` pages to go. -/
def mapPages (kmalloca : Allocator) : Nat → Nat → Paging → Option Paging
  | 0, _, s => some s
  | n+1, i, s =>
    match pmemMapaddr kmalloca s (i * pageSize) 0 pWritable s.tables with
    | none => none
    | some (_, s) => mapPages kmalloca n (i + 1) s

/-- Up to the end of the loop; what follows hooks the fault handler and switches paging on. -/
def vmemInit (kmalloca : Allocator) (s : Paging) : Option Paging :=
  if s.tables = 0 then
    match kmalloca s.k dirSize pageAlignShift with
    | none => none
    | some (tables, k) =>
      let k := { k with mem := memset k.mem tables 0 dirSize }
      mapPages kmalloca 4096 0 { s with k := k, tables := tables, cr3 := tables }
  else mapPages kmalloca 4096 0 s

end Foos.Vmem
