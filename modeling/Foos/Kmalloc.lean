import Foos.Memory
import Foos.Word

/-! The heap of `kernel/kmalloc.c`, statement by statement. A block is known by the
address of its header; `none` stands for a call that does not return, either because
an assertion hangs the machine or because the recursion outlasts `fuel`. -/
namespace Foos.Kmalloc
open ByteMemory Word32

def heapBase : Nat := 0x400000
def heapSize : Nat := 0x400000
def blockSiz : Nat := 16

def EINVAL : Nat := 22
def ENOMEM : Nat := 12

/- Fields of `struct block`. -/
def used (m : Mem) (blk : Nat) : Nat := load32 m blk
def size (m : Mem) (blk : Nat) : Nat := load32 m (blk + 4)
def prev (m : Mem) (blk : Nat) : Nat := load32 m (blk + 8)
def next (m : Mem) (blk : Nat) : Nat := load32 m (blk + 12)
def data (blk : Nat) : Nat := blk + 16

def setUsed (m : Mem) (blk v : Nat) : Mem := store32 m blk v
def setSize (m : Mem) (blk v : Nat) : Mem := store32 m (blk + 4) v
def setPrev (m : Mem) (blk v : Nat) : Mem := store32 m (blk + 8) v
def setNext (m : Mem) (blk v : Nat) : Mem := store32 m (blk + 12) v

/-- The static `root` is set once and never NULL, so `lookup` never assigns it. -/
def root : Nat := heapBase

def merge (m : Mem) (blk : Nat) : Mem :=
  if next m blk ≠ 0 ∧ used m (next m blk) = 0 then
    let m := setSize m blk (add32 (size m blk) (add32 blockSiz (size m (next m blk))))
    let m := setNext m blk (next m (next m blk))
    setPrev m (next m blk) blk
  else m

def split (m : Mem) (blk sz : Nat) : Option Mem :=
  if blk = 0 then none
  else
    let delta := sub32 (size m blk) sz
    let new := add32 (data blk) sz
    if next m blk = 0 ∨ delta ≤ blockSiz + 8 then some m
    else
      let m := setNext m new (next m blk)
      let m := setSize m new (sub32 (next m new) (data new))
      let m := setPrev m (next m new) new
      let m := setPrev m new blk
      let m := setUsed m new 0
      let m := setNext m blk new
      some (setSize m blk sz)

/-- The first half of `lookup`: `blk->next` is NULL and a block is put behind `blk`,
its payload moved up to the next multiple of `ax` when an alignment is asked for. -/
def append (m : Mem) (blk sz align : Nat) : Mem :=
  let x := shl32 0xFFFFFFFF align
  let ax := shl32 1 align
  let m := setNext m blk (add32 (add32 blk blockSiz) (size m blk))
  let m :=
    if align ≠ 0 ∧ data (next m blk) % ax ≠ 0 then
      let m := setNext m blk (next m blk &&& x)
      let m := setNext m blk (sub32 (add32 (next m blk) ax) blockSiz)
      setSize m blk (sub32 (next m blk) (data blk))
    else m
  let m := setPrev m (next m blk) blk
  setSize m (next m blk) sz

/-- `*ptr`, where `ptr` is `&root` for a NULL block and `&blk->next` otherwise. -/
def cursor (m : Mem) (blk : Nat) : Nat := if blk = 0 then root else next m blk

def lookup : Nat → Mem → Nat → Nat → Nat → Option (Nat × Mem)
  | 0, _, _, _, _ => none
  | fuel+1, m, blk, sz, align =>
    let ax := shl32 1 align
    let m := if cursor m blk = 0 then append m blk sz align else m
    let p := cursor m blk
    if sz ≤ size m p ∧ used m p = 0 then
      if align ≠ 0 ∧ data p % ax ≠ 0 then lookup fuel m p sz align
      else (split (setUsed m p 1) p sz).map fun m => (p, m)
    else if size m p = 0 ∧ align = 0 then some (p, setUsed (setSize m p sz) p 1)
    else lookup fuel m p sz align

/-- What the allocator reads and writes besides its own static `root`. -/
structure Machine where
  mem : Mem
  errno : Nat

def roundUp (sz : Nat) : Nat :=
  if sz &&& 0x7 ≠ 0 then ((sz >>> 3) + 1) <<< 3 % 4294967296 else sz

def kmalloca (fuel : Nat) (k : Machine) (sz align : Nat) : Option (Nat × Machine) :=
  if root = 0 then none
  else if sz = 0 then some (0, { k with errno := EINVAL })
  else
    match lookup fuel k.mem 0 (roundUp sz) align with
    | none => none
    | some (ptr, m) =>
      let k := { k with mem := m }
      let k := if ptr = 0 then { k with errno := ENOMEM } else k
      some (data ptr, k)

def kmalloc (fuel : Nat) (k : Machine) (sz : Nat) : Option (Nat × Machine) :=
  kmalloca fuel k sz 0

def kfree (k : Machine) (ptr : Nat) : Option Machine :=
  if ¬ ptr > heapBase then none
  else
    let blk := ptr - blockSiz
    let m := setUsed k.mem blk 0
    let m := if prev m blk ≠ 0 ∧ used m (prev m blk) = 0 then merge m (prev m blk) else m
    some { k with mem := merge m blk }

end Foos.Kmalloc
