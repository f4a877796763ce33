import Foos.Ramfs

/-! The calls of `libfs/wrap.c` on an inode. A hook is called by the address in the inode;
where no function of the file systems is at that address nothing is known of the run. -/
namespace Foos.Fs
open Program ByteMemory Word32

variable {δ : Type}

def fsOpen (S : System δ) (node flags' : Nat) : Code δ Int := do
  let bits ← ofMem fun m => flags m node
  if bits &&& 0x7 = FS_CHAR ∨ bits &&& 0x7 = FS_BLK then do
    let no ← ofMem fun m => impl m node
    devOpen S.devs no flags'
  else do
    let hook ← ofMem fun m => openPtr m node
    if hook ≠ 0 then diverge else pure (-ENOSYS)

def fsClose (S : System δ) (node : Nat) : Code δ Int := do
  let bits ← ofMem fun m => flags m node
  if bits = FS_CHAR ∨ bits = FS_BLK then do
    let no ← ofMem fun m => ino m node
    devClose S.devs no
  else do
    let hook ← ofMem fun m => closePtr m node
    if hook ≠ 0 then diverge else pure (-ENOSYS)

def fsWrite (S : System δ) (node buf sz off : Nat) : Code δ Int := do
  let hook ← ofMem fun m => writePtr m node
  if hook = 0 then pure (-ENOSYS)
  else if hook = S.link.devfsWrite then devfsWrite S node buf sz off
  else diverge

def fsRead (S : System δ) (node buf sz off : Nat) : Code δ Int := do
  let hook ← ofMem fun m => readPtr m node
  if hook = 0 then pure (-ENOSYS)
  else if hook = S.link.ramfsRead then ramfsRead S node buf sz off
  else if hook = S.link.devfsRead then devfsRead S node buf sz off
  else diverge

/-- `CHECK_DIR(x)` in front of `rest`: `!=` binds tighter than `&`. -/
def checkDir (x : Nat) (rest : Code δ Nat) : Code δ Nat := do
  let bits ← ofMem fun m => flags m x
  if bits &&& (if 0x7 ≠ FS_DIR then 1 else 0) ≠ 0 then do
    setErrno ENOTDIR
    pure 0
  else rest

def fsReaddir (fuel : Nat) (S : System δ) (node index : Nat) : Code δ Nat :=
  checkDir node do
    let hook ← ofMem fun m => readdirPtr m node
    if hook = 0 then pure 0
    else if hook = S.link.ramfsReaddir then ramfsReaddir fuel S node index
    else diverge

def fsFinddir (fuel : Nat) (S : System δ) (node name' : Nat) : Code δ Nat :=
  checkDir node do
    let hook ← ofMem fun m => finddirPtr m node
    if hook = 0 then pure 0
    else if hook = S.link.ramfsFinddir then ramfsFinddir fuel node name'
    else diverge

end Foos.Fs
