import Foos.CString
import Foos.Word

/-! The layout of `struct inode` and `struct dirent` of `foos/fs.h`, and the addresses that
the linker gives to the functions and variables stored in them. -/
namespace Foos.Fs
open ByteMemory CString

def FS_FILE : Nat := 0x01
def FS_DIR : Nat := 0x02
def FS_CHAR : Nat := 0x03
def FS_BLK : Nat := 0x04
def FS_MNT : Nat := 0x08

def inodeSize : Nat := 76

/- Fields of `struct inode`. -/
def name (node : Nat) : Nat := node
def flags (m : Mem) (node : Nat) : Nat := (m (node + 32)).toNat
def size (m : Mem) (node : Nat) : Nat := load32 m (node + 36)
def ino (m : Mem) (node : Nat) : Nat := load32 m (node + 40)
def impl (m : Mem) (node : Nat) : Nat := load32 m (node + 44)
def openPtr (m : Mem) (node : Nat) : Nat := load32 m (node + 48)
def closePtr (m : Mem) (node : Nat) : Nat := load32 m (node + 52)
def writePtr (m : Mem) (node : Nat) : Nat := load32 m (node + 56)
def readPtr (m : Mem) (node : Nat) : Nat := load32 m (node + 60)
def readdirPtr (m : Mem) (node : Nat) : Nat := load32 m (node + 64)
def finddirPtr (m : Mem) (node : Nat) : Nat := load32 m (node + 68)
def ptr (m : Mem) (node : Nat) : Nat := load32 m (node + 72)

def setFlags (m : Mem) (node v : Nat) : Mem := store8 m (node + 32) (UInt8.ofNat v)
def setSize (m : Mem) (node v : Nat) : Mem := store32 m (node + 36) v
def setIno (m : Mem) (node v : Nat) : Mem := store32 m (node + 40) v
def setImpl (m : Mem) (node v : Nat) : Mem := store32 m (node + 44) v
def setWrite (m : Mem) (node v : Nat) : Mem := store32 m (node + 56) v
def setRead (m : Mem) (node v : Nat) : Mem := store32 m (node + 60) v
def setReaddir (m : Mem) (node v : Nat) : Mem := store32 m (node + 64) v
def setFinddir (m : Mem) (node v : Nat) : Mem := store32 m (node + 68) v
def setPtr (m : Mem) (node v : Nat) : Mem := store32 m (node + 72) v

/-- `array[i]` of an array of inodes. -/
def entry (array i : Nat) : Nat := array + i * 76

/- Fields of `struct dirent`. -/
def direntSize : Nat := 36
def direntName (d : Nat) : Nat := d
def direntIno (m : Mem) (d : Nat) : Nat := load32 m (d + 32)
def setDirentIno (m : Mem) (d v : Nat) : Mem := store32 m (d + 32) v

/-- Where the linker and the compiler put what the file systems take the address of: their
functions, the static `dirent` of `ramfs.c` and the local `header` of `ramfs_init`. -/
structure Link where
  ramfsReaddir : Nat
  ramfsFinddir : Nat
  ramfsRead : Nat
  devfsRead : Nat
  devfsWrite : Nat
  dirent : Nat
  header : Nat
  code : ∀ f ∈ [ramfsReaddir, ramfsFinddir, ramfsRead, devfsRead, devfsWrite], 0 < f ∧ f < 4294967296
  distinct : ramfsRead ≠ devfsRead
  direntPos : 0 < dirent

end Foos.Fs
