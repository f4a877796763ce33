import Foos.Device
import Foos.Inode

/-! The device file system of `libfs/devfs.c`. -/
namespace Foos.Fs
open Program ByteMemory Word32 CString

/-- What the file systems are linked with. -/
structure System (δ : Type) where
  link : Link
  heap : Heap
  devs : List (Device δ)

variable {δ : Type}

def System.ndevs (S : System δ) : Nat := S.devs.length

/-- `"dev"` -/
def devName : List UInt8 := [100, 101, 118]

def devfsRound (S : System δ) (devdir i : Nat) : Code δ Unit :=
  match S.devs[i]? with
  | none => diverge
  | some dev => do
    let node ← ofMem fun m => entry (ptr m devdir) i
    onMem fun m => putString m (name node) dev.name
    onMem fun m => setFlags m node FS_CHAR
    onMem fun m => setImpl m node i
    onMem fun m => setRead m node S.link.devfsRead
    onMem fun m => setWrite m node S.link.devfsWrite

def devfsInit (S : System δ) (devdir : Nat) : Code δ Int := do
  assert (devdir ≠ 0)
  onMem fun m => putString m (name devdir) devName
  onMem fun m => setFlags m devdir FS_DIR
  onMem fun m => setImpl m devdir S.ndevs
  let p ← kmalloc S.heap (mul32 S.ndevs inodeSize)
  onMem fun m => setPtr m devdir p
  onMem fun m => memset m (ptr m devdir) 0 (mul32 S.ndevs inodeSize)
  forFrom (devfsRound S devdir) 0 S.ndevs
  pure 0

/-- `CHECK_DEV(d)` in front of `rest`. -/
def checkDev (d : Nat) (rest : Code δ Int) : Code δ Int := do
  assert (d ≠ 0)
  let bits ← ofMem fun m => flags m d
  if bits &&& FS_CHAR = 0 ∧ bits &&& FS_BLK = 0 then do
    setErrno Kmalloc.EINVAL
    pure (-Kmalloc.EINVAL)
  else rest

def devfsWrite (S : System δ) (dev buf sz off : Nat) : Code δ Int :=
  checkDev dev do
    let no ← ofMem fun m => impl m dev
    let _ ← devSeek S.devs no off SEEK_SET
    let ret ← devWrite S.devs no buf sz
    pure (toInt ret)

def devfsRead (S : System δ) (dev buf sz off : Nat) : Code δ Int :=
  checkDev dev do
    let no ← ofMem fun m => impl m dev
    let _ ← devSeek S.devs no off SEEK_SET
    let ret ← devRead S.devs no buf sz
    pure (toInt ret)

end Foos.Fs
