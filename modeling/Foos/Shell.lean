import Foos.PathTree
import Foos.Printf

/-! The commands of `kernel/shell.c`, as the formatted prints that each of them makes, with those
of the functions it calls. -/
namespace Foos.Shell
open Fs Printf

/-- A string that fits a field of `n` bytes with its NUL. -/
structure Text (n : Nat) where
  chars : List UInt8
  short : chars.length < n
  nonNul : ∀ c ∈ chars, c ≠ 0

/-- What the shell reads of an inode besides its hooks. -/
structure Node where
  name : Text 32
  flags : Nat
  size : UInt32
  ino : UInt32
  impl : UInt32

def fileType : List (Option (List UInt8)) :=
  [none, some (chars "file"), some (chars "dir"), some (chars "chardev"), some (chars "blkdev"),
    some (chars "pipe")]

/-- A mounted directory tree over a table of devices: the entries of the listings are inodes of
these names, their types are those of `file_type`, and the file systems make a `dev` in the
root. -/
structure Tree (δ : Type) where
  devs : List (Device δ)
  dir : Listing
  root : Nat
  node : Nat → Node
  named : ∀ x es, dir x = some es → ∀ e ∈ es, e.1 = (node e.2).name.chars
  count : ∀ x es, dir x = some es → (node x).impl.toNat = es.length
  typed : ∀ x, (node x).flags &&& 0xF < fileType.length
  device : ∀ x, (node x).flags &&& 0x7 = FS_CHAR ∨ (node x).flags &&& 0x7 = FS_BLK →
    (node x).ino.toNat < devs.length ∧ (node x).impl.toNat < devs.length
  dev : child dir root (chars "dev") ≠ 0

/-- A `kmalloc`: the blocks that `lookup` puts at the end of the chain, and the area returned. -/
structure Allocation where
  fresh : List UInt32
  data : UInt32

/-- What a handler reads of `struct registers`. -/
structure Registers where
  ds : UInt32
  esp : UInt32
  intNo : UInt32
  errCode : UInt32
  eip : UInt32

/-- The interrupts whose handlers print with a format. A page fault comes with `cr2` and the
frames that the stack trace finds. -/
inductive Interrupt where
  | capsLock (enabled : Bool)
  | unhandled (regs : Registers)
  | generalProtection (regs : Registers)
  | pageFault (regs : Registers) (addr : UInt32) (frames : List UInt32)

/-- What the machine answers while a command runs: the CMOS registers, the calls of `kmalloc` and
`kfree` in their order, the chain of blocks, what the hooks of a device have allocated and
released, the fault at `0xFFFFFFFF` and the interrupts. -/
structure Machine where
  cmosRead : Nat → UInt8
  kmalloc : Nat → Allocation
  kfree : Nat → UInt32
  blocks : List (UInt32 × UInt32 × UInt32)
  opened : List UInt32
  closed : List UInt32
  faultRegs : Registers
  frames : List UInt32
  interrupts : List Interrupt

/- Functions that the commands call. -/

/-- `lookup` of `kmalloc.c` -/
def allocated (fresh : List UInt32) : List Call :=
  fresh.map fun data => serialPrintf "[kmalloc] allocated new block at 0x%x\n" [.word data]

/-- `kfree` -/
def released (size : UInt32) : Call := serialPrintf "[kmalloc] %d bytes released\n" [.word size]

/-- `do_block` on the chain -/
def doBlock (blocks : List (UInt32 × UInt32 × UInt32)) : List Call :=
  blocks.map fun b =>
    printf "block at 0x%x: used=%d, size=%d\n" [.word b.1, .word b.2.1, .word b.2.2]

/-- `do_stack_trace` -/
def doStackTrace (frames : List UInt32) : List Call :=
  frames.map fun eip => serialPrintf "\\-- frame 0x%x\n" [.word eip]

def pageFault (regs : Registers) (addr : UInt32) (frames : List UInt32) : List Call :=
  let write := regs.errCode &&& 0x2 ≠ 0
  let present := regs.errCode &&& 0x1 ≠ 0
  let user := regs.errCode &&& 0x4 ≠ 0
  printf "Page fault occurs while %s on a%s page at 0x%x\n"
    [.str (some (if write then chars "writing" else chars "reading")),
      .str (some (if present then [] else chars " non-present")), .word addr] ::
    (if user then [printf "By the way, you accessed a kernel page\n" []] else []) ++
    doStackTrace frames

def Interrupt.calls : Interrupt → List Call
  | .capsLock enabled => [serialPrintf "[tty] capital lock %s\n"
      [.str (some (if enabled then chars "enabled" else chars "disabled"))]]
  | .unhandled regs => [printf "Unhandled interrupt 0x%x\n" [.word regs.intNo]]
  | .generalProtection regs =>
    [printf "General Protection Fault on Segment: %d\n" [.word regs.errCode],
      printf "Stack: 0x%x\n" [.word regs.esp], printf "At: 0x%x\n" [.word regs.eip],
      printf "DS: 0x%x\n" [.word regs.ds]]
  | .pageFault regs addr frames => Shell.pageFault regs addr frames

variable {δ : Type}

/-- `fs_open` of a device, whose hook may allocate; other mounted files have no such hook. -/
def fsOpen (M : Machine) (file : Node) : List Call :=
  if file.flags &&& 0x7 = FS_CHAR ∨ file.flags &&& 0x7 = FS_BLK then allocated M.opened else []

def devClose (M : Machine) (devs : List (Device δ)) (no : Nat) : List Call :=
  match devs[no]? with
  | none => []
  | some ptr =>
    match ptr.close with
    | some _ =>
      serialPrintf "[dev] Closing `%s'\n" [.str (some ptr.name)] :: M.closed.map released
    | none => [serialPrintf "[dev] warning: `%s' is not closable\n" [.str (some ptr.name)]]

def fsClose (M : Machine) (devs : List (Device δ)) (file : Node) : List Call :=
  if file.flags = FS_CHAR ∨ file.flags = FS_BLK then devClose M devs file.ino.toNat else []

/-- `fs_lookup`: one `kmalloc` and one `kfree` for the copy of the path. -/
def fsLookup (M : Machine) (t : Tree δ) (path : List UInt8) : Nat × List Call :=
  let names := (path.splitOnP fun c => c == 47).filter fun s => s ≠ []
  (if names = [] then child t.dir t.root path else resolve t.dir t.root names,
    allocated (M.kmalloc 0).fresh ++ [released (M.kfree 0)])

/- The commands. -/

def checkMemory (M : Machine) : List Call :=
  let lowMem := (M.cmosRead 0x16).toUInt32 <<< 8 ||| (M.cmosRead 0x15).toUInt32
  printf "low memory: 0 - 0x%x\n" [.word (lowMem <<< 10)] :: doBlock M.blocks

def catFile (M : Machine) (t : Tree δ) (ptr : List UInt8) : List Call :=
  let file := child t.dir t.root ptr
  if file = 0 then [printf "%s: No such file or directory\n" [.str (some ptr)]]
  else if (t.node file).flags &&& FS_DIR ≠ 0 then
    [printf "%s: Is a directory\n" [.str (some ptr)]]
  else fsOpen M (t.node file) ++ fsClose M t.devs (t.node file)

/-- The entry of that name in `dir`, as `ls` prints it. -/
def listEntry (t : Tree δ) (dir : Nat) (name : List UInt8) : Call :=
  let tmp := t.node (child t.dir dir name)
  printf "%s\t%s\t%d bytes\n" [.str (fileType.get ⟨tmp.flags &&& 0xF, t.typed _⟩),
    .str (some tmp.name.chars), .word tmp.size]

def listDirectory (t : Tree δ) (dir : Nat) : List Call :=
  let node := t.node dir
  if dir = 0 then []
  else if node.flags &&& 0x7 ≠ FS_DIR then
    [printf "%s: Not a directory\n" [.str (some node.name.chars)]]
  else printf "%d files in `%s':\n" [.word node.impl, .str (some node.name.chars)] ::
    ((t.dir dir).getD []).map fun ent => listEntry t dir ent.1

def checkTime (M : Machine) : List Call :=
  let year := (M.cmosRead 0x32).toUInt32 <<< 8 ||| (M.cmosRead 0x09).toUInt32
  let read (reg : Nat) := Arg.word (M.cmosRead reg).toUInt32
  [printf "%x/%x/%x %x:%x:%x\n"
    [.word year, read 0x08, read 0x07, read 0x04, read 0x02, read 0x00]]

def listDevs (t : Tree δ) : List Call :=
  ((t.dir (child t.dir t.root (chars "dev"))).getD []).mapIdx fun i dev =>
    printf "%d: %s\n" [.word (UInt32.ofNat i), .str (some dev.1)]

def testFsdev (M : Machine) (t : Tree δ) : List Call := (fsLookup M t (chars "/dev/tty")).2

def testStrtok : List Call :=
  [printf "Tokenizing `%s' by `%s'\n" [.str (some (chars "/dev/tty")), .str (some (chars "/"))]]

def testMalloc (M : Machine) : List Call :=
  allocated (M.kmalloc 0).fresh ++ [printf "kmalloc(10): 0x%x\n" [.word (M.kmalloc 0).data],
    released (M.kfree 0), printf "kfree(0x%x)\n" [.word (M.kmalloc 0).data]] ++
  allocated (M.kmalloc 1).fresh ++ [printf "kmalloc(10) again: 0x%x\n" [.word (M.kmalloc 1).data],
    released (M.kfree 1)]

def triggerPf (M : Machine) : List Call := pageFault M.faultRegs 0xFFFFFFFF M.frames

structure CmdHandler (δ : Type) where
  cmd : String
  description : String
  handle : Option (Machine → Tree δ → List Call)

/-- The table `handlers`, where the function behind `help` reads the texts of the table. The
description of `cat` fills its field, and the NULL behind it ends the string. -/
def handlersOf (shellHelp : Machine → Tree δ → List Call) : List (CmdHandler δ) :=
  [⟨"help", "print this message", some shellHelp⟩,
    ⟨"ls [FILE]", "list directory contents", none⟩,
    ⟨"cat [FILE]", "print out the contents of a file", none⟩,
    ⟨"devs", "list available FOOS devices", some fun _ t => listDevs t⟩,
    ⟨"floppy", "check floppy status", some fun _ _ => []⟩,
    ⟨"time", "get the current time", some fun M _ => checkTime M⟩,
    ⟨"mem", "print the status of kernel heap", some fun M _ => checkMemory M⟩,
    ⟨"tty", "write `Hello world' to /dev/tty", some testFsdev⟩,
    ⟨"tok", "test tokenizing strings", some fun _ _ => testStrtok⟩,
    ⟨"malloc", "test the efficiency of malloc()", some fun M _ => testMalloc M⟩,
    ⟨"fault", "trigger a page fault", some fun M _ => triggerPf M⟩,
    ⟨"exit", "quit the shell", none⟩]

def shellHelp : List Call :=
  (handlersOf fun (_ : Machine) (_ : Tree Unit) => []).map fun h =>
    printf "%s - %s\n" [.str (some (chars h.cmd)), .str (some (chars h.description))]

def handlers (δ : Type) : List (CmdHandler δ) := handlersOf fun _ _ => shellHelp

/-- `for(i=0;i<nhandlers;i++)` and what follows it. -/
def dispatch (M : Machine) (t : Tree δ) (buf : List UInt8) : List Call :=
  match (handlers δ).find? fun h => buf = chars h.cmd with
  | some h =>
    match h.handle with
    | some handle => handle M t
    | none => [printf "No handler found for `%s'\n" [.str (some (chars h.cmd))]]
  | none => if buf = [] then [] else [printf "%s: Unknown command\n" [.str (some buf)]]

/-- One round of the loop of `shell_main`, with the line that `gets` has put into `buf`. -/
def shellMain (M : Machine) (t : Tree δ) (buf : List UInt8) : List Call :=
  if buf = chars "exit" then []
  else if buf.take 2 = chars "ls" then
    if buf.length ≤ 3 then listDirectory t t.root
    else (fsLookup M t (buf.drop 3)).2 ++ listDirectory t (fsLookup M t (buf.drop 3)).1
  else if buf.take 4 = chars "cat " then catFile M t (buf.drop 4)
  else dispatch M t buf

/-- A call made while the shell executes the line, by the command or by an interrupt. -/
def Makes (M : Machine) (t : Tree δ) (buf : List UInt8) (c : Call) : Prop :=
  c ∈ shellMain M t buf ∨ ∃ i ∈ M.interrupts, c ∈ i.calls

end Foos.Shell
