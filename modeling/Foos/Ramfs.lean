import Foos.Devfs
import Foos.Libc

/-! The ramdisk file system of `libfs/ramfs.c`. An access through `header` or `files` is an
access to the ramdisk image and is logged. -/
namespace Foos.Fs
open Program ByteMemory Word32 CString Libc

variable {δ : Type}

def RD_HEADSIG : Nat := 0xD158
def RD_FILESIG : Nat := 0xDEADF11E

/- `struct rd_header` and `struct rd_fileheader`, both packed. -/
def headerSize : Nat := 4
def fileheaderSize : Nat := 44
def signature (m : Mem) (header : Nat) : Nat := load16 m header
def nfiles (m : Mem) (header : Nat) : Nat := load16 m (header + 2)
def fileMagic (m : Mem) (file : Nat) : Nat := load32 m file
def fileName (file : Nat) : Nat := file + 4
def fileOffset (m : Mem) (file : Nat) : Nat := load32 m (file + 36)
def fileSize (m : Mem) (file : Nat) : Nat := load32 m (file + 40)

/-- `files[i]` -/
def fileheader (files i : Nat) : Nat := files + i * 44

def image16 (a : Nat) : Code δ Nat := do
  note (.image a 2)
  ofMem fun m => load16 m a

def image32 (a : Nat) : Code δ Nat := do
  note (.image a 4)
  ofMem fun m => load32 m a

/-- `strcpy` from the image. -/
def imageStrcpy (fuel dest source : Nat) : Code δ Unit := do
  let read ← update fun w =>
    (copyWhile fuel w.mem dest source).map fun r => (r.1 - dest, w.setMem r.2)
  note (.image source read)

def ramfsRound (fuel : Nat) (S : System δ) (files i : Nat) : Code δ Unit := do
  let magic ← image32 (fileheader files i)
  assert (magic = RD_FILESIG)
  let node ← read fun w => entry w.rdFiles i
  imageStrcpy fuel (name node) (fileName (fileheader files i))
  onMem fun m => setFlags m node FS_FILE
  onMem fun m => setIno m node i
  let offset ← image32 (fileheader files i + 36)
  onMem fun m => setImpl m node offset
  let size ← image32 (fileheader files i + 40)
  onMem fun m => setSize m node size
  onMem fun m => setRead m node S.link.ramfsRead
  let m ← ofMem id
  note (.inode i node m)

/-- The root directory, before its entries are known. -/
def ramfsRoot (S : System δ) : Code δ Unit := do
  let root ← kmalloc S.heap inodeSize
  modify fun w => { w with rdRoot := root }
  onMem fun m => memset m root 0 inodeSize
  onMem fun m => putString m (name root) ramdiskName
  onMem fun m => setFlags m root FS_DIR
  onMem fun m => setReaddir m root S.link.ramfsReaddir
  onMem fun m => setFinddir m root S.link.ramfsFinddir

/-- The entries of the root directory, all zero. -/
def ramfsFiles (S : System δ) (header : Nat) : Code δ Unit := do
  let n ← image16 (header + 2)
  let p ← kmalloc S.heap (mul32 (n + 1) inodeSize)
  modify fun w => { w with rdFiles := p }
  let root ← read World.rdRoot
  onMem fun m => setPtr m root p
  let n ← image16 (header + 2)
  onMem fun m => memset m p 0 (mul32 (n + 1) inodeSize)

/-- The directory for devices, behind the files. -/
def ramfsDev (S : System δ) (i : Nat) : Code δ Unit := do
  modify fun w => { w with rdNfiles := add32 w.rdNfiles 1 }
  let node ← read fun w => entry w.rdFiles i
  onMem fun m => setIno m node i
  onMem fun m => setFinddir m node S.link.ramfsFinddir
  onMem fun m => setReaddir m node S.link.ramfsReaddir
  let _ ← devfsInit S node

/-- `ramfs_init` behind its loop, which leaves `i` at the number of files. -/
def ramfsFinish (S : System δ) (i : Nat) : Code δ Nat := do
  ramfsDev S i
  let root ← read World.rdRoot
  let entries ← read World.rdNfiles
  onMem fun m => setImpl m root entries
  pure root

/-- `ramfs_init` behind its check of the signature. -/
def ramfsMount (fuel : Nat) (S : System δ) (header : Nat) : Code δ Nat := do
  let n ← image16 (header + 2)
  modify fun w => { w with rdNfiles := n }
  modify fun w => { w with fileBase := add32 (mul32 n fileheaderSize) headerSize }
  ramfsRoot S
  ramfsFiles S header
  forFrom (ramfsRound fuel S (header + headerSize)) 0 n
  ramfsFinish S n

def ramfsInit (fuel : Nat) (S : System δ) : Code δ Nat := do
  let ret ← devIoctl S.devs DEV_RAMDISK RD_GETADDR S.link.header
  assert (ret = 0)
  let header ← ofMem fun m => load32 m S.link.header
  let sig ← image16 header
  if sig ≠ RD_HEADSIG then pure 0
  else ramfsMount fuel S header

def ramfsReaddir (fuel : Nat) (S : System δ) (node index : Nat) : Code δ Nat := do
  let n ← ofMem fun m => impl m node
  if n ≤ index then pure 0
  else do
    let d := S.link.dirent
    update fun w => (strcpy fuel w.mem (direntName d) (name (entry (ptr w.mem node) index))).map
      fun r => ((), w.setMem r.2)
    onMem fun m => setDirentIno m d index
    pure d

/-- The rounds of `ramfs_finddir` from entry `i` on, `n` at most. -/
def finddirFrom (fuel node name' : Nat) : Nat → Nat → Code δ Nat
  | _, 0 => pure 0
  | i, n+1 => do
    let ret ← update fun w =>
      (strcmp fuel w.mem (name (entry (ptr w.mem node) i)) name').map fun ret => (ret, w)
    if ret = 0 then ofMem fun m => entry (ptr m node) i
    else finddirFrom fuel node name' (i + 1) n

def ramfsFinddir (fuel : Nat) (node name' : Nat) : Code δ Nat := do
  let n ← ofMem fun m => impl m node
  finddirFrom fuel node name' 0 n

def ramfsRead (S : System δ) (node buf sz offset : Nat) : Code δ Int := do
  let base ← read World.fileBase
  let off ← ofMem fun m => add32 base (impl m node)
  let _ ← devSeek S.devs DEV_RAMDISK off SEEK_SET
  let n ← ofMem fun m => size m node
  let _ ← devRead S.devs DEV_RAMDISK (add32 buf offset) n
  pure (toInt sz)

end Foos.Fs
