import Foos.CatPrints
import Foos.CommandLine
import Foos.Lookup
import Foos.Search

/-! The loop of `shell_main` on memory: the tests on the line, the branch that they lead to, and
the directory listings. -/
namespace Foos.Dispatch
open Terminal Devices Program ByteMemory Word32 CString Fs Printf Vsprintf Libc Cmpsb Cat
open CommandLine (Handler Action)

/-- Where the linker puts the literals, the table and the functions that the shell uses. -/
structure ShellLink where
  exit : Nat
  ls : Nat
  cat : Nat
  devTty : Nat
  helloWorld : Nat
  handlers : Nat
  nhandlers : Nat
  function : Handler → Nat
  code : ∀ h, 0 < function h ∧ function h < 4294967296
  distinct : Function.Injective function
  devTtyPos : 0 < devTty

/- Fields of `struct cmd_handler`. -/
def cmd (e : Nat) : Nat := e
def handlePtr (m : Mem) (e : Nat) : Nat := load32 m (e + 48)

/-- `handlers[i]` -/
def ShellLink.entry (L : ShellLink) (i : Nat) : Nat := L.handlers + i * 52

/-- The branch that a line leads to, with the pointer that is handed on. -/
inductive Command where
  | quit
  | listRoot
  | listPath (path : Nat)
  | print (ptr : Nat)
  | handle (hook : Nat)
  | noHandler (cmd : Nat)
  | nothing
  | unknown

section
variable (L : ShellLink) (fuel : Nat) (m : Mem) (buf : Nat)

/-- `for(i=0;i<nhandlers;i++)` from `i` on: the entry whose name the line is. -/
def searchFrom : Nat → Nat → Option (Option Nat)
  | _, 0 => some none
  | i, n+1 => do
    let ret ← strcmp fuel m buf (cmd (L.entry i))
    if ret = 0 then some (some (L.entry i)) else searchFrom (i + 1) n

/-- What follows the search. -/
def branch : Option Nat → Command
  | some e => if handlePtr m e ≠ 0 then .handle (handlePtr m e) else .noHandler (cmd e)
  | none => if m buf ≠ 0 then .unknown else .nothing

/-- The tests of `shell_main` in their order. Each `memcmp` starts with some flags. -/
def command (fl fl' : Flags) : Option Command := do
  let ret ← strcmp fuel m buf L.exit
  if ret = 0 then some .quit
  else do
    let ret ← memcmp (whole m) fl buf L.ls 2
    if ret = 0 then do
      let n ← strlen fuel m buf
      if n ≤ 3 then some .listRoot else some (.listPath (buf + 3))
    else do
      let ret ← memcmp (whole m) fl' buf L.cat 4
      if ret = 0 then some (.print (buf + 4))
      else do
        let found ← searchFrom L fuel m buf 0 (load32 m L.nhandlers)
        some (branch m buf found)

end

/-- A round of the loop up to its branch. -/
def readCommand (L : ShellLink) (fuel buf : Nat) (fl fl' : Flags) : Code Driver Command := do
  let _ ← send (chars "> ")
  onMem fun m => memset m buf 0 BUFSIZ
  let _ ← gets buf
  update fun w => (command L fuel w.mem buf fl fl').map fun c => (c, w)

/- The branches. -/

section
variable (fuel : Nat) (S : System Driver)

/-- `puts` of a literal. -/
def putsLiteral (s : String) : Code Driver (List UInt8) := do
  let line ← send (chars s)
  let newline ← putchar 10
  pure (line ++ newline)

/-- A line of the listing; a type that is not in `file_type` is undefined. -/
def listEntry (tmp : Nat) : Code Driver (List UInt8) := do
  let bits ← ofMem fun m => flags m tmp
  match Shell.fileType[bits &&& 0xF]? with
  | none => diverge
  | some type => do
    let tmpName ← stringAt fuel (name tmp)
    let sz ← ofMem fun m => size m tmp
    send (textOf ([.str type, .plain 9, .str (some tmpName), .plain 9, .int (UInt32.ofNat sz)] ++
      (chars " bytes\n").map .plain))

/-- `for(i=0;i<dir->impl;i++)` from `i` on. -/
def listFrom (dir : Nat) : Nat → Nat → Code Driver (List UInt8)
  | 0, _ => diverge
  | rounds+1, i => do
    let n ← ofMem fun m => impl m dir
    if i < n then do
      let ent ← fsReaddir fuel S dir i
      let tmp ← fsFinddir fuel S dir (direntName ent)
      let line ← listEntry fuel tmp
      let rest ← listFrom dir rounds (i + 1)
      pure (line ++ rest)
    else pure []

def listDirectory (dir : Nat) : Code Driver (List UInt8) :=
  if dir = 0 then putsLiteral "No such file or directory"
  else do
    let bits ← ofMem fun m => flags m dir
    if bits &&& 0x7 ≠ FS_DIR then printfStr fuel (name dir) ": Not a directory\n"
    else do
      let n ← ofMem fun m => impl m dir
      let dirName ← stringAt fuel (name dir)
      let head ← send (textOf (.int (UInt32.ofNat n) :: (chars " files in `").map .plain ++
        .str (some dirName) :: (chars "':\n").map .plain))
      let lines ← listFrom fuel S dir fuel 0
      pure (head ++ lines)

/-- `fs_lookup` is `lookup`. -/
def testFsdev (L : ShellLink) (lookup : Nat → Code Driver Nat) : Code Driver (List UInt8) := do
  let tty ← lookup L.devTty
  if tty = 0 then putsLiteral "tty not found!"
  else do
    let _ ← fsWrite S tty L.helloWorld 12 0
    pure []

/-- What the branch does with `fs_lookup` as `lookup` and the other functions of the table by
their addresses. -/
def runCommand (L : ShellLink) (lookup : Nat → Code Driver Nat)
    (function : Nat → Code Driver (List UInt8)) (fsRoot buf : Nat) :
    Command → Code Driver (List UInt8)
  | .quit => pure []
  | .listRoot => listDirectory fuel S fsRoot
  | .listPath path => do
    let dir ← lookup path
    listDirectory fuel S dir
  | .print ptr => catFile fuel S fsRoot buf ptr
  | .handle hook => if hook = L.function .testFsdev then testFsdev S L lookup else function hook
  | .noHandler ptr => do
    let str ← stringAt fuel ptr
    send (textOf ((chars "No handler found for `").map .plain ++
      .str (some str) :: (chars "'\n").map .plain))
  | .nothing => pure []
  | .unknown => printfStr fuel buf ": Unknown command\n"

end

/-- The branch of `cat`, as far as it prints a file. -/
def Command.cat (fuel : Nat) (S : System Driver) (fsRoot buf : Nat) :
    Command → Code Driver (Option (List UInt8))
  | .print ptr => do
    let out ← catFile fuel S fsRoot buf ptr
    pure (some out)
  | _ => pure none

/-- The paths that the branch gives to `fs_lookup`. -/
def Command.lookups (L : ShellLink) : Command → List Nat
  | .listPath path => [path]
  | .handle hook => if hook = L.function .testFsdev then [L.devTty] else []
  | _ => []

/-- The pointer in the table. -/
def ShellLink.pointer (L : ShellLink) : Option Handler → Nat
  | some h => L.function h
  | none => 0

/-- The literals and the table are in memory. -/
structure Loaded (L : ShellLink) (m : Mem) : Prop where
  exit : Str m L.exit (chars "exit")
  ls : Str m L.ls (chars "ls")
  cat : Str m L.cat (chars "cat ")
  devTty : Str m L.devTty (chars "/dev/tty")
  count : load32 m L.nhandlers = CommandLine.handlers.length
  cmd : ∀ i (h : i < CommandLine.handlers.length),
    Str m (cmd (L.entry i)) (chars CommandLine.handlers[i].cmd)
  handle : ∀ i (h : i < CommandLine.handlers.length),
    handlePtr m (L.entry i) = L.pointer CommandLine.handlers[i].handle

/-- Where they are. -/
def ShellLink.areas (L : ShellLink) : List (Nat × Nat) :=
  [(L.exit, 5), (L.ls, 3), (L.cat, 5), (L.devTty, 9), (L.nhandlers, 4), (L.handlers, 624)]

/-- The pointers of the branch point into the line at `buf`. -/
def Command.Points (buf : Nat) (line : List UInt8) : Command → Prop
  | .listPath path => path = buf + 3 ∧ 3 < line.length
  | .print ptr => ptr = buf + 4
  | _ => True

/-- The branch, with the strings at its pointers, is the action. -/
def Does (L : ShellLink) (m : Mem) : Command → Action → Prop
  | .quit, .quit => True
  | .listRoot, .list path => path = []
  | .listPath ptr, .list path => path ≠ [] ∧ Str m ptr path
  | .print ptr, .print name => Str m ptr name
  | .handle hook, .run h => hook = L.function h
  | .noHandler ptr, .noHandler cmd => Str m ptr cmd
  | .nothing, .nothing => True
  | .unknown, .unknown => True
  | _, _ => False

section
variable {L : ShellLink} {m : Mem} {buf fuel : Nat} {line : List UInt8} {c : Command} {a b : Action}

theorem does_quit : Does L m .quit a ↔ a = .quit := by
  cases a <;> simp [Does]

theorem does_listRoot : Does L m .listRoot a ↔ a = .list [] := by
  cases a <;> simp [Does]

theorem does_listPath {ptr : Nat} : Does L m (.listPath ptr) a ↔
    ∃ path, a = .list path ∧ path ≠ [] ∧ Str m ptr path := by
  cases a <;> simp [Does]

theorem does_print {ptr : Nat} : Does L m (.print ptr) a ↔
    ∃ name, a = .print name ∧ Str m ptr name := by
  cases a <;> simp [Does]

theorem does_handle {hook : Nat} : Does L m (.handle hook) a ↔
    ∃ h, a = .run h ∧ hook = L.function h := by
  cases a <;> simp [Does]

theorem does_noHandler {ptr : Nat} : Does L m (.noHandler ptr) a ↔
    ∃ cmd, a = .noHandler cmd ∧ Str m ptr cmd := by
  cases a <;> simp [Does]

theorem does_nothing : Does L m .nothing a ↔ a = .nothing := by
  cases a <;> simp [Does]

theorem does_unknown : Does L m .unknown a ↔ a = .unknown := by
  cases a <;> simp [Does]

/-- A branch is one action only. -/
theorem Does.unique (h : Does L m c a) (h' : Does L m c b) : a = b := by
  cases c with
  | quit => rw [does_quit.mp h, does_quit.mp h']
  | listRoot => rw [does_listRoot.mp h, does_listRoot.mp h']
  | listPath ptr =>
    obtain ⟨path, rfl, -, hs⟩ := does_listPath.mp h
    obtain ⟨path', rfl, -, hs'⟩ := does_listPath.mp h'
    rw [hs.unique hs']
  | print ptr =>
    obtain ⟨name, rfl, hs⟩ := does_print.mp h
    obtain ⟨name', rfl, hs'⟩ := does_print.mp h'
    rw [hs.unique hs']
  | handle hook =>
    obtain ⟨f, rfl, hf⟩ := does_handle.mp h
    obtain ⟨f', rfl, hf'⟩ := does_handle.mp h'
    rw [L.distinct (hf.symm.trans hf')]
  | noHandler ptr =>
    obtain ⟨cmd, rfl, hs⟩ := does_noHandler.mp h
    obtain ⟨cmd', rfl, hs'⟩ := does_noHandler.mp h'
    rw [hs.unique hs']
  | nothing => rw [does_nothing.mp h, does_nothing.mp h']
  | unknown => rw [does_unknown.mp h, does_unknown.mp h']

/-- The first bytes are those of the literal exactly when the line begins with it. -/
theorem memcmp_prefix {p : Nat} {t : List UInt8} (fl : Flags) (hs : Str m buf line)
    (ht : Str m p t) (hne : t ≠ []) :
    ∃ ret, memcmp (whole m) fl buf p t.length = some ret ∧ (ret = 0 ↔ t <+: line) := by
  have hlen : t.length ≠ 0 := List.length_eq_zero_iff.not.mpr hne
  cases memcmp_run fl (readable_whole m buf t.length) (readable_whole m p t.length) hlen with
  | inl hall => exact ⟨0, hall.2, iff_of_true rfl (Search.str_prefix hs ht hall.1)⟩
  | inr hdiffer =>
    obtain ⟨i, hi, hd, hrun⟩ := hdiffer
    refine ⟨_, hrun, iff_of_false ?_ (Search.DifferAt.not_prefix hd hs ht hi)⟩
    split <;> decide

/-- The search ends at the entry that `find?` selects. -/
theorem searchFrom_run (hL : Loaded L m) (hs : Str m buf line) (hfuel : line.length < fuel)
    {i n : Nat} (hn : i + n = CommandLine.handlers.length) :
    (∃ j, ∃ h : j < CommandLine.handlers.length,
      (CommandLine.handlers.drop i).find? (fun e => line = chars e.cmd) =
        some CommandLine.handlers[j] ∧ searchFrom L fuel m buf i n = some (some (L.entry j))) ∨
    ((CommandLine.handlers.drop i).find? (fun e => line = chars e.cmd) = none ∧
      searchFrom L fuel m buf i n = some none) := by
  induction n generalizing i with
  | zero =>
    refine Or.inr ⟨?_, rfl⟩
    rw [List.drop_of_length_le (by omega), List.find?_nil]
  | succ n ih =>
    have hi : i < CommandLine.handlers.length := by omega
    obtain ⟨ret, hret, hiff⟩ := strcmp_str hs (hL.cmd i hi) hfuel
    rw [List.drop_eq_getElem_cons hi, searchFrom, hret, Option.bind_eq_bind, Option.bind_some]
    by_cases heq : line = chars CommandLine.handlers[i].cmd
    · rw [if_pos (hiff.mpr heq), List.find?_cons_of_pos (by simpa using heq)]
      exact Or.inl ⟨i, hi, rfl, rfl⟩
    · rw [if_neg (mt hiff.mp heq), List.find?_cons_of_neg (by simpa using heq)]
      exact ih (by omega)

theorem ShellLink.pointer_null (L : ShellLink) : L.pointer none = 0 := rfl

theorem ShellLink.pointer_ne (L : ShellLink) (h : Handler) : L.pointer (some h) ≠ 0 :=
  Nat.ne_of_gt (L.code h).1

theorem branch_points (m : Mem) (buf : Nat) (line : List UInt8) (found : Option Nat) :
    (branch m buf found).Points buf line := by
  cases found with
  | some e =>
    rw [branch]
    split <;> trivial
  | none =>
    rw [branch]
    split <;> trivial

/-- Behind the tests for the commands with an argument the table decides. -/
theorem search_does (hL : Loaded L m) (hs : Str m buf line) (hfuel : line.length < fuel) :
    ∃ found, searchFrom L fuel m buf 0 (load32 m L.nhandlers) = some found ∧
      Does L m (branch m buf found) (CommandLine.searched line) := by
  have hn : 0 + load32 m L.nhandlers = CommandLine.handlers.length :=
    (Nat.zero_add _).trans hL.count
  cases searchFrom_run hL hs hfuel hn with
  | inl hfound =>
    obtain ⟨j, hj, hfind, hrun⟩ := hfound
    refine ⟨_, hrun, ?_⟩
    rw [List.drop_zero] at hfind
    rw [CommandLine.searched_found hfind, CommandLine.CmdHandler.action]
    simp only [branch, hL.handle j hj]
    cases CommandLine.handlers[j].handle with
    | some h =>
      rw [if_pos (L.pointer_ne h)]
      exact rfl
    | none =>
      rw [if_neg (not_not_intro L.pointer_null)]
      exact hL.cmd j hj
  | inr hend =>
    obtain ⟨hfind, hrun⟩ := hend
    refine ⟨_, hrun, ?_⟩
    rw [List.drop_zero] at hfind
    rw [CommandLine.searched_end hfind]
    cases line with
    | nil =>
      have h0 : m buf = 0 := hs
      rw [branch, if_neg (not_not_intro h0), if_pos rfl]
      trivial
    | cons c line =>
      have hne : m buf ≠ 0 := hs.1 ▸ hs.2.1
      rw [branch, if_pos hne, if_neg (List.cons_ne_nil c line)]
      trivial

/-- On memory the tests lead to the action that the line is taken for. -/
theorem command_does (hL : Loaded L m) (hs : Str m buf line) (hlen : line.length < 4294967295)
    (hfuel : line.length < fuel) (fl fl' : Flags) :
    ∃ c, command L fuel m buf fl fl' = some c ∧ Does L m c (CommandLine.taken line) ∧
      c.Points buf line := by
  have htwo : (chars "ls").length = 2 := by decide
  have hfour : (chars "cat ").length = 4 := by decide
  obtain ⟨ret, hret, hexit⟩ := strcmp_str hs hL.exit hfuel
  obtain ⟨ret', hret', hls⟩ := memcmp_prefix fl hs hL.ls (by decide)
  obtain ⟨ret'', hret'', hcat⟩ := memcmp_prefix fl' hs hL.cat (by decide)
  obtain ⟨found, hsearch, hfound⟩ := search_does hL hs hfuel
  rw [htwo] at hret'
  rw [hfour] at hret''
  simp only [command, hret, hret', hret'', hsearch, strlen_str hs hlen hfuel,
    Option.bind_eq_bind, Option.bind_some, hexit, hls, hcat, CommandLine.taken]
  by_cases h1 : line = chars "exit"
  · rw [if_pos h1, if_pos h1]
    exact ⟨_, rfl, trivial, trivial⟩
  by_cases h2 : chars "ls" <+: line
  · rw [if_neg h1, if_neg h1, if_pos h2, if_pos h2]
    by_cases h3 : line.length ≤ 3
    · rw [if_pos h3]
      exact ⟨_, rfl, List.drop_of_length_le h3, trivial⟩
    · rw [if_neg h3]
      exact ⟨_, rfl, ⟨mt List.drop_eq_nil_iff.mp h3, hs.drop (by omega)⟩, rfl, Nat.lt_of_not_le h3⟩
  by_cases h3 : chars "cat " <+: line
  · have hle := h3.length_le
    rw [if_neg h1, if_neg h1, if_neg h2, if_neg h2, if_pos h3, if_pos h3]
    exact ⟨_, rfl, hs.drop (by omega), rfl⟩
  rw [if_neg h1, if_neg h1, if_neg h2, if_neg h2, if_neg h3, if_neg h3]
  exact ⟨_, rfl, hfound, branch_points m buf line found⟩

/-- The names of the commands fit their fields. -/
theorem cmd_length : ∀ e ∈ CommandLine.handlers, (chars e.cmd).length < 16 := by decide

/-- The literals and the table are read from their areas alone. -/
theorem Loaded.congr {m' : Mem} (h : Loaded L m) (hm : ∀ y, ¬ Outside L.areas y → m' y = m y) :
    Loaded L m' := by
  have hin : ∀ r ∈ L.areas, ∀ y, r.1 ≤ y → y < r.1 + r.2 → m' y = m y :=
    fun r hr y h1 h2 => hm y (not_outside.mpr ⟨r, hr, h1, h2⟩)
  have hstr : ∀ {a n} {s : List UInt8}, (a, n) ∈ L.areas → s.length < n → Str m a s → Str m' a s :=
    fun hr hs h => h.congr fun y h1 h2 => hin _ hr y h1 (by simp only; omega)
  have hcount := CommandLine.handlers_length
  have htable := hin (L.handlers, 624) (by simp [ShellLink.areas])
  refine ⟨hstr (n := 5) (by simp [ShellLink.areas]) (by decide) h.exit,
    hstr (n := 3) (by simp [ShellLink.areas]) (by decide) h.ls,
    hstr (n := 5) (by simp [ShellLink.areas]) (by decide) h.cat,
    hstr (n := 9) (by simp [ShellLink.areas]) (by decide) h.devTty, ?_, fun i hi => ?_,
    fun i hi => ?_⟩
  · exact (load32_congr (hin (L.nhandlers, 4) (by simp [ShellLink.areas]))).trans h.count
  · have hlen := cmd_length _ (List.getElem_mem hi)
    refine (h.cmd i hi).congr fun y h1 h2 => htable y ?_ ?_
    all_goals
      simp only [Dispatch.cmd, ShellLink.entry] at h1 h2
      omega
  · refine (load32_congr fun y h1 h2 => htable y ?_ ?_).trans (h.handle i hi)
    all_goals
      simp only [ShellLink.entry] at h1 h2
      omega

/-- What is written into the buffer leaves the literals and the table alone. -/
theorem Loaded.frame {m' : Mem} (h : Loaded L m) (hm : Frame [(buf, BUFSIZ)] m m')
    (hsep : Apart L.areas buf BUFSIZ) : Loaded L m' := by
  refine h.congr fun y hy => hm y ?_
  obtain ⟨r, hr, h1, h2⟩ := not_outside.mp hy
  have hr' := hsep r hr
  exact outside_single.mpr (by omega)

/-- What the branch hands to `fs_lookup` passes the assertions. -/
theorem lookups_ne_halt {w : World Driver} {fsRoot : Nat} (hL : Loaded L w.mem)
    (hroot : fsRoot ≠ 0) (hs : Str w.mem buf line) (hlen : line.length < BUFSIZ)
    (hptr : c.Points buf line) (hfuel : BUFSIZ ≤ fuel) (S : System Driver) (sep old : Nat) :
    ∀ path ∈ c.lookups L, ∀ t, fsLookup fuel S fsRoot sep path old w ≠ .halt t := by
  intro path hpath
  simp only [BUFSIZ] at hlen hfuel
  cases c with
  | listPath ptr =>
    obtain rfl : path = ptr := List.mem_singleton.mp hpath
    obtain ⟨rfl, hlong⟩ := hptr
    have hdrop : (line.drop 3).length = line.length - 3 := List.length_drop
    exact fsLookup_ne_halt hroot (by omega) (hs.drop (by omega))
      (List.ne_nil_of_length_pos (by omega)) (by omega) (by omega) S sep old
  | handle hook =>
    by_cases htty : hook = L.function .testFsdev
    · rw [Command.lookups, if_pos htty] at hpath
      obtain rfl : path = L.devTty := List.mem_singleton.mp hpath
      have height : (chars "/dev/tty").length = 8 := by decide
      exact fsLookup_ne_halt hroot (Nat.ne_of_gt L.devTtyPos) hL.devTty (by decide) (by omega)
        (by omega) S sep old
    · rw [Command.lookups, if_neg htty] at hpath
      exact absurd hpath List.not_mem_nil
  | quit | listRoot | print | noHandler | nothing | unknown => exact absurd hpath List.not_mem_nil

/-- A branch depends on `fs_lookup` only by these calls. -/
theorem runCommand_lookups {w : World Driver} {lookup lookup' : Nat → Code Driver Nat}
    (h : ∀ path ∈ c.lookups L, lookup path w = lookup' path w) (fuel : Nat) (S : System Driver)
    (function : Nat → Code Driver (List UInt8)) (fsRoot buf : Nat) :
    runCommand fuel S L lookup function fsRoot buf c w =
      runCommand fuel S L lookup' function fsRoot buf c w := by
  cases c with
  | listPath path =>
    rw [runCommand, runCommand, bind_run, bind_run, h path (List.mem_singleton_self path)]
  | handle hook =>
    by_cases htty : hook = L.function .testFsdev
    · have hpath : L.devTty ∈ (Command.handle hook).lookups L := by
        rw [Command.lookups, if_pos htty]
        exact List.mem_singleton_self _
      rw [runCommand, runCommand, if_pos htty, if_pos htty, testFsdev, testFsdev, bind_run,
        bind_run, h _ hpath]
    · rw [runCommand, runCommand, if_neg htty, if_neg htty]
  | quit | listRoot | print | noHandler | nothing | unknown => rfl

/-- The `cat` commands are the lines taken for one. -/
theorem isCat_iff : IsCat line ↔ ∃ name, CommandLine.taken line = .print name := by
  simp only [IsCat, ne_eq, CommandLine.take_ls, CommandLine.take_cat, CommandLine.taken]
  by_cases h1 : line = chars "exit"
  · simp [h1]
  by_cases h2 : chars "ls" <+: line
  · simp [h1, h2]
  by_cases h3 : chars "cat " <+: line
  · simp [h1, h2, h3]
  · simp [h1, h2, h3, (CommandLine.searched_plain line _).2]

/-- The branch prints a file in the rounds in which the line is a `cat` command. -/
theorem Does.cat (h : Does L m c (CommandLine.taken line)) (hptr : c.Points buf line) (fuel : Nat)
    (S : System Driver) (fsRoot : Nat) :
    (if IsCat line then catFile fuel S fsRoot buf (buf + 4) >>= fun out => pure (some out)
      else pure none) = c.cat fuel S fsRoot buf := by
  by_cases hcat : IsCat line
  · obtain ⟨name, hname⟩ := isCat_iff.mp hcat
    rw [hname] at h
    rw [if_pos hcat]
    cases c with
    | print ptr =>
      obtain rfl : ptr = buf + 4 := hptr
      rfl
    | quit | listRoot | listPath | handle | noHandler | nothing | unknown => exact h.elim
  · rw [if_neg hcat]
    cases c with
    | print ptr =>
      obtain ⟨name, hname, -⟩ := does_print.mp h
      exact absurd (isCat_iff.mpr ⟨name, hname⟩) hcat
    | quit | listRoot | listPath | handle | noHandler | nothing | unknown => rfl

end

section
variable {L : ShellLink} {fuel buf : Nat} {w : World Driver} {typed : List UInt8}

/-- The round reads the line and comes to a branch; the round of `cat` is a part of it. -/
theorem readCommand_run (hline : Entered w typed) (hopen : (w.devs DEV_TTY).data ≠ 0)
    (hL : Loaded L w.mem) (hsep : Apart L.areas buf BUFSIZ) (hfuel : BUFSIZ ≤ fuel)
    (fl fl' : Flags) :
    ∃ c v, readCommand L fuel buf fl fl' w = .ret c v ∧ Loaded L v.mem ∧
      Str v.mem buf (lineOf typed) ∧ Does L v.mem c (CommandLine.taken (lineOf typed)) ∧
      c.Points buf (lineOf typed) ∧ ∀ (S : System Driver) (fsRoot : Nat),
        shellRound fuel S fsRoot buf w = c.cat fuel S fsRoot buf v := by
  obtain ⟨v, hrun, hholds, hframe, -, -⟩ := prompt_line buf hline hopen
  have hlen := lineOf_length typed
  have hshort := hline.short
  have hL' := hL.frame hframe hsep
  have hstr := hholds.str hshort
  simp only [BUFSIZ] at hfuel
  obtain ⟨c, hc, hdoes, hptr⟩ :=
    command_does hL' hstr (by omega) (by omega : (lineOf typed).length < fuel) fl fl'
  refine ⟨c, v, (hrun _).trans (update_run (by rw [hc]; rfl)), hL', hstr, hdoes, hptr,
    fun S fsRoot => ?_⟩
  have hstring : stringAt fuel buf v = .ret (lineOf typed) v :=
    stringAt_run hstr (by omega) (by omega)
  rw [← hdoes.cat hptr]
  exact (hrun _).trans (bind_ret hstring)

end

/-- A line without a meaning is printed in a message. -/
theorem unknown_prints {L : ShellLink} {fuel buf : Nat} {v : World Driver} {line : List UInt8}
    (hopen : (v.devs DEV_TTY).data ≠ 0) (hs : Str v.mem buf line) (hlen : line.length < BUFSIZ)
    (hfuel : BUFSIZ ≤ fuel) (S : System Driver) (lookup : Nat → Code Driver Nat)
    (function : Nat → Code Driver (List UInt8)) (fsRoot : Nat) :
    ∃ t, runCommand fuel S L lookup function fsRoot buf .unknown v =
      .ret (line ++ chars ": Unknown command\n") t ∧ Shown v t :=
  printfStr_run hopen hs (hlen.trans_le hfuel) (hlen.trans (by decide)) _

/-- From the prompt on, whatever line of at most 511 characters is entered: the shell does exactly
what the line asks for, and comes to no assertion of `fs_lookup`, when and only when `ls` stands
apart in the line. -/
theorem dispatch_iff {S : System Driver} {L : ShellLink} {fsRoot buf fuel : Nat}
    {w : World Driver} {typed : List UInt8} (hline : Entered w typed)
    (hopen : (w.devs DEV_TTY).data ≠ 0) (hL : Loaded L w.mem) (hsep : Apart L.areas buf BUFSIZ)
    (hroot : fsRoot ≠ 0) (hfuel : BUFSIZ ≤ fuel) (fl fl' : Flags) (sep : Nat) :
    ∃ c v, readCommand L fuel buf fl fl' w = .ret c v ∧
      (((∀ a, Does L v.mem c a ↔ CommandLine.Asks (lineOf typed) a) ∧
        ∀ path ∈ c.lookups L, ∀ old t, fsLookup fuel S fsRoot sep path old v ≠ .halt t) ↔
      CommandLine.LsApart (lineOf typed)) := by
  obtain ⟨c, v, hrun, hL', hstr, hdoes, hptr, -⟩ :=
    readCommand_run hline hopen hL hsep hfuel fl fl'
  have hlen : (lineOf typed).length < BUFSIZ :=
    Nat.lt_succ_of_le ((lineOf_length typed).trans hline.short)
  have htaken : ∀ a, Does L v.mem c a ↔ CommandLine.taken (lineOf typed) = a := fun a =>
    ⟨fun h => hdoes.unique h, fun h => h ▸ hdoes⟩
  refine ⟨c, v, hrun, ?_⟩
  simp only [htaken, CommandLine.taken_asks_iff]
  exact and_iff_left fun path hpath old =>
    lookups_ne_halt hL' hroot hstr hlen hptr hfuel S sep old path hpath

def shellFunction : Handler → Nat
  | .shellHelp => 0x7000
  | .listDevs => 0x7010
  | .checkFloppy => 0x7020
  | .checkTime => 0x7030
  | .checkMemory => 0x7040
  | .testFsdev => 0x7050
  | .testStrtok => 0x7060
  | .testMalloc => 0x7070
  | .triggerPf => 0x7080

theorem shellFunction_code (h : Handler) : 0 < shellFunction h ∧ shellFunction h < 4294967296 := by
  cases h <;> decide

theorem shellFunction_injective : Function.Injective shellFunction := by
  intro h k heq
  cases h <;> cases k <;> first | rfl | exact absurd heq (by decide)

def shellLink : ShellLink where
  exit := 0x5000
  ls := 0x5010
  cat := 0x5020
  devTty := 0x5030
  helloWorld := 0x5040
  handlers := 0x6000
  nhandlers := 0x5050
  function := shellFunction
  code := shellFunction_code
  distinct := shellFunction_injective
  devTtyPos := Nat.zero_lt_succ _

/-- Memory with the literals and the table. -/
def shellTable : Mem :=
  let m : Mem := ⟨fun _ => 0⟩
  let m := putString m 0x5000 (chars "exit")
  let m := putString m 0x5010 (chars "ls")
  let m := putString m 0x5020 (chars "cat ")
  let m := putString m 0x5030 (chars "/dev/tty")
  let m := store32 m 0x5050 12
  CommandLine.handlers.zipIdx.foldl (fun m e =>
    store32 (putString m (shellLink.entry e.2) (chars e.1.cmd)) (shellLink.entry e.2 + 48)
      (shellLink.pointer e.1.handle)) m

theorem shellTable_loaded : Loaded shellLink shellTable :=
  ⟨by decide +kernel, by decide +kernel, by decide +kernel, by decide +kernel, by decide +kernel,
    by decide +kernel, by decide +kernel⟩

/-- The keys of `help` and of `lsx`. -/
theorem helpKeys :
    Entered (typing (shellBoot shellTable) [0x23, 0x12, 0x26, 0x19]) (chars "help") :=
  typing_entered _ (by decide) (by decide +kernel) (by decide +kernel)

theorem lsxKeys : Entered (typing (shellBoot shellTable) [0x26, 0x1F, 0x2D]) (chars "lsx") :=
  typing_entered _ (by decide) (by decide +kernel) (by decide +kernel)

/-- The flags with nothing set. -/
def clear : Flags := ⟨false, false, false⟩

theorem dispatch_iff_help : ∃ c v,
    readCommand shellLink 512 0x300000 clear clear
      (typing (shellBoot shellTable) [0x23, 0x12, 0x26, 0x19]) = .ret c v ∧
    (∀ a, Does shellLink v.mem c a ↔ CommandLine.Asks (chars "help") a) ∧
    ∀ path ∈ c.lookups shellLink, ∀ old t,
      fsLookup 512 shellKernel 0x400000 0x5048 path old v ≠ .halt t := by
  have hself : lineOf (chars "help") = chars "help" := by decide
  obtain ⟨c, v, hrun, hiff⟩ := dispatch_iff (S := shellKernel) helpKeys (by decide)
    shellTable_loaded (show Apart shellLink.areas 0x300000 BUFSIZ by decide)
    (show 0x400000 ≠ 0 by decide) (show BUFSIZ ≤ 512 by decide) clear clear 0x5048
  rw [hself] at hiff
  exact ⟨c, v, hrun, hiff.mpr (by decide)⟩

/-- `lsx` is no command, and the root directory is listed. -/
theorem dispatch_fails : CommandLine.Asks (chars "lsx") .unknown ∧
    Entered (typing (shellBoot shellTable) [0x26, 0x1F, 0x2D]) (chars "lsx") ∧ ∃ c v,
      readCommand shellLink 512 0x300000 clear clear
        (typing (shellBoot shellTable) [0x26, 0x1F, 0x2D]) = .ret c v ∧
      Does shellLink v.mem c (.list []) ∧ ¬ Does shellLink v.mem c .unknown := by
  have hself : lineOf (chars "lsx") = chars "lsx" := by decide
  obtain ⟨c, v, hrun, -, -, hdoes, -⟩ := readCommand_run lsxKeys (by decide) shellTable_loaded
    (show Apart shellLink.areas 0x300000 BUFSIZ by decide) (show BUFSIZ ≤ 512 by decide) clear clear
  have htaken : CommandLine.taken (chars "lsx") = .list [] := by decide
  rw [hself, htaken] at hdoes
  refine ⟨CommandLine.asks_iff.mpr (by decide), lsxKeys, c, v, hrun, hdoes, fun h => ?_⟩
  exact absurd (hdoes.unique h) nofun

end Foos.Dispatch
