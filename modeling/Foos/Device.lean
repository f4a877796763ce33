import Foos.World

/-! The device table of `kernel/dev/device.c` and the ramdisk driver. A device number beyond
the table is an access beyond the array: nothing is known of such a run. -/
namespace Foos
open Program ByteMemory Word32 Kmalloc

/-- An entry of `devs`: the hooks get the number of the entry for its address, and the name
with its NUL fits the field. The fields that change are in `DevState`. -/
structure Device (δ : Type) where
  name : List UInt8
  short : name.length < 16
  chars : ∀ c ∈ name, c ≠ 0
  write : Option (Nat → Nat → Nat → Code δ Nat)
  read : Option (Nat → Nat → Nat → Nat → Code δ Nat)
  openHook : Option (Nat → Nat → Code δ Int)
  close : Option (Nat → Code δ Int)
  ioctl : Option (Nat → Nat → Nat → Code δ Int)

variable {δ : Type}

def DEV_TTY : Nat := 0
def DEV_RAMDISK : Nat := 1

def SEEK_SET : Nat := 0
def SEEK_CUR : Nat := 1

/-- A word of the negated error number, as `size_t` functions return it. -/
def errorWord (e : Nat) : Nat := ofInt (-(e : Int))

def devWrite (devs : List (Device δ)) (no buf len : Nat) : Code δ Nat :=
  match devs[no]? with
  | none => diverge
  | some ptr =>
    match ptr.write with
    | some write => write no buf len
    | none => do
      setErrno ENOSYS
      pure (errorWord ENOSYS)

def devRead (devs : List (Device δ)) (no buf len : Nat) : Code δ Nat :=
  match devs[no]? with
  | none => diverge
  | some ptr =>
    match ptr.read with
    | some hook => do
      let offset ← read fun w => (w.devs no).offset
      let ret ← hook no buf offset len
      modify fun w => if 0 < toInt ret then w.setOffset no (add32 (w.devs no).offset ret) else w
      pure ret
    | none => do
      setErrno ENOSYS
      pure (errorWord ENOSYS)

def devOpen (devs : List (Device δ)) (no flags : Nat) : Code δ Int := do
  note (.device no)
  match devs[no]? with
  | none => diverge
  | some ptr => do
    modify fun w => w.setOffset no 0
    match ptr.openHook with
    | some hook => hook no flags
    | none => do
      setErrno ENOSYS
      pure (-ENOSYS)

def devClose (devs : List (Device δ)) (no : Nat) : Code δ Int := do
  note (.device no)
  match devs[no]? with
  | none => diverge
  | some ptr => do
    modify fun w => w.setOffset no 0
    match ptr.close with
    | some hook => hook no
    | none => do
      setErrno ENOSYS
      pure (-ENOSYS)

def devIoctl (devs : List (Device δ)) (no request args : Nat) : Code δ Int :=
  match devs[no]? with
  | none => diverge
  | some ptr =>
    match ptr.ioctl with
    | some hook => hook no request args
    | none => do
      setErrno ENOSYS
      pure (-ENOSYS)

def devSeek (devs : List (Device δ)) (no off whence : Nat) : Code δ Nat :=
  match devs[no]? with
  | none => diverge
  | some _ =>
    if whence = SEEK_SET then do
      modify fun w => w.setOffset no off
      read fun w => (w.devs no).offset
    else if whence = SEEK_CUR then do
      modify fun w => w.setOffset no (add32 (w.devs no).offset off)
      read fun w => (w.devs no).offset
    else do
      setErrno EINVAL
      pure (errorWord EINVAL)

def RD_SETADDR : Nat := 0x01
def RD_SETSIZE : Nat := 0x02
def RD_GETADDR : Nat := 0x11
def RD_GETSIZE : Nat := 0x12

/- Fields of `struct ramdisk`. -/
def ramdiskSize : Nat := 8
def rdAddr (m : Mem) (rd : Nat) : Nat := load32 m rd
def rdSize (m : Mem) (rd : Nat) : Nat := load32 m (rd + 4)

def ramdiskOpen (h : Heap) (no _flags : Nat) : Code δ Int := do
  let data ← read fun w => (w.devs no).data
  if data = 0 then do
    let p ← kmalloc h ramdiskSize
    modify fun w => w.setData no p
    pure 0
  else do
    setErrno EBUSY
    pure (-EBUSY)

def ramdiskClose (h : Heap) (no : Nat) : Code δ Int := do
  let data ← read fun w => (w.devs no).data
  if data ≠ 0 then do
    kfree h data
    pure 0
  else pure 0

def ramdiskIoctl (no request arg : Nat) : Code δ Int := do
  let rd ← read fun w => (w.devs no).data
  if rd = 0 then pure EINVAL
  else if request = RD_SETADDR then do
    onMem fun m => store32 m rd (load32 m arg)
    pure 0
  else if request = RD_GETADDR then do
    onMem fun m => store32 m arg (rdAddr m rd)
    pure 0
  else if request = RD_SETSIZE then do
    onMem fun m => store32 m (rd + 4) (load32 m arg)
    pure 0
  else if request = RD_GETSIZE then do
    onMem fun m => store32 m arg (rdSize m rd)
    pure 0
  else pure EINVAL

theorem ramdiskIoctl_getaddr {w : World δ} {no : Nat} (h : (w.devs no).data ≠ 0) (arg : Nat) :
    ramdiskIoctl no RD_GETADDR arg w =
      .ret 0 (w.setMem (store32 w.mem arg (rdAddr w.mem (w.devs no).data))) := by
  have hother : ¬ RD_GETADDR = RD_SETADDR := by decide
  simp only [ramdiskIoctl, read_bind_run, if_neg h, if_neg hother, if_true, onMem_bind_run]
  rfl

def ramdiskRead (no buf off len : Nat) : Code δ Nat := do
  let rd ← read fun w => (w.devs no).data
  let src ← ofMem fun m => add32 (rdAddr m rd) off
  if rd = 0 then do
    setErrno EINVAL
    pure (errorWord EINVAL)
  else do
    onMem fun m => memcpy m buf src len
    pure len

theorem ramdiskRead_run {w : World δ} {no : Nat} (h : (w.devs no).data ≠ 0) (buf off len : Nat) :
    ramdiskRead no buf off len w = .ret len
      (w.setMem (memcpy w.mem buf (add32 (rdAddr w.mem (w.devs no).data) off) len)) := by
  simp only [ramdiskRead, read_bind_run, ofMem_bind_run, if_neg h, onMem_bind_run]
  rfl

/-- `"ramdisk"` -/
def ramdiskName : List UInt8 := [114, 97, 109, 100, 105, 115, 107]

def ramdisk (h : Heap) : Device δ where
  name := ramdiskName
  short := by decide
  chars := CString.chars_of_all (by decide)
  write := none
  read := some ramdiskRead
  openHook := some (ramdiskOpen h)
  close := some (ramdiskClose h)
  ioctl := some ramdiskIoctl

/-- The table of the kernel, up to the terminal driver. -/
def devs (h : Heap) (tty : Device δ) : List (Device δ) := [tty, ramdisk h]

end Foos
