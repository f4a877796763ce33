import Foos.DeviceCommands

/-! What the shell answers to a line, as a function of the files and the devices alone. -/
namespace Foos.Dispatch
open Terminal Devices Program ByteMemory Word32 CString Fs Printf Vsprintf Libc Cat MaximalRuns

section
variable (files : List Header) (devs : List (Device Driver))

/-- What a listing shows of a target; nothing shows the size of the root. -/
def infoOf : Target → Info
  | .root => ⟨ramdiskName, FS_DIR, 0⟩
  | .file i => (files[i]?.map fun f => ⟨f.name, FS_FILE, f.size⟩).getD ⟨[], 0, 0⟩
  | .devices => ⟨devName, FS_DIR, 0⟩
  | .device i => (devs[i]?.map fun d => ⟨d.name, FS_CHAR, 0⟩).getD ⟨[], 0, 0⟩

/-- The names in a directory. -/
def namesIn : Target → Option (List (List UInt8))
  | .root => some (rootNames files)
  | .devices => some (devs.map Device.name)
  | _ => none

/-- The answer to `ls`. -/
def listing : Option Target → List UInt8
  | none => chars "No such file or directory" ++ [10]
  | some t =>
    match namesIn files devs t with
    | none => (infoOf files devs t).name ++ chars ": Not a directory\n"
    | some ns => headText ns.length (infoOf files devs t) ++ ns.flatMap fun c =>
        ((t.find files devs c).map fun u => entryText (infoOf files devs u)).getD []

/-- The answer to `cat`: the file over the command line in the buffer, up to a NUL. -/
def catAnswer (content : Header → List UInt8) (typed name : List UInt8) : List UInt8 :=
  match fileNamed files name with
  | some f => ((content f ++ typed.drop (content f).length).takeWhile fun c => c ≠ 0) ++ [10]
  | none => name ++ chars (if name = devName then ": Is a directory\n"
      else ": No such file or directory\n")

def helpLine (e : CommandLine.CmdHandler) : List UInt8 :=
  textOf [.str (some (chars e.cmd)), .plain 32, .plain 45, .plain 32,
    .str (some (chars e.description)), .plain 10]

/-- What is on the screen when a line has been answered. -/
def answer (content : Header → List UInt8) (typed : List UInt8) : List UInt8 :=
  match CommandLine.taken (lineOf typed) with
  | .list path => listing files devs
      (if path = [] then some .root else Target.root.follow files devs (components path))
  | .print name => catAnswer files content typed name
  | .run .shellHelp => CommandLine.handlers.flatMap helpLine
  | .run .listDevs => devsText files devs
  | .run .testFsdev =>
      chars (if HidesDevices files then "tty not found!\n" else "Hello world\n")
  | .unknown => lineOf typed ++ chars ": Unknown command\n"
  | .quit | .nothing | .run _ | .noHandler _ => []

/-- A path to list has a component, a file to print fits the buffer with a NUL behind it, and the
commands on the hardware and the tests of the kernel are left out. -/
def Answered (content : Header → List UInt8) (typed : List UInt8) : Prop :=
  match CommandLine.taken (lineOf typed) with
  | .list path => path = [] ∨ ∃ c ∈ path, c ≠ 47
  | .print name => ∀ f, fileNamed files name = some f → (content f).length < BUFSIZ
  | .run h => h = .shellHelp ∨ h = .listDevs ∨ h = .testFsdev
  | _ => True

end

/-- The tests in their order. -/
theorem taken_cases (line : List UInt8) :
    (line = chars "exit" ∧ CommandLine.taken line = .quit) ∨
    CommandLine.taken line = .list (line.drop 3) ∨
    CommandLine.taken line = .print (line.drop 4) ∨
    (line ≠ chars "exit" ∧ ¬ chars "ls" <+: line ∧ ¬ chars "cat " <+: line ∧
      CommandLine.taken line = CommandLine.searched line) := by
  by_cases hexit : line = chars "exit"
  · exact Or.inl ⟨hexit, if_pos hexit⟩
  by_cases hls : chars "ls" <+: line
  · refine Or.inr (Or.inl ?_)
    rw [CommandLine.taken, if_neg hexit, if_pos hls]
  by_cases hcat : chars "cat " <+: line
  · refine Or.inr (Or.inr (Or.inl ?_))
    rw [CommandLine.taken, if_neg hexit, if_neg hls, if_pos hcat]
  · refine Or.inr (Or.inr (Or.inr ⟨hexit, hls, hcat, ?_⟩))
    rw [CommandLine.taken, if_neg hexit, if_neg hls, if_neg hcat]

theorem taken_list {line path : List UInt8} (h : CommandLine.taken line = .list path) :
    path = line.drop 3 := by
  obtain ⟨-, heq⟩ | heq | heq | ⟨-, -, -, heq⟩ := taken_cases line
  · cases h.symm.trans heq
  · exact CommandLine.Action.list.inj (h.symm.trans heq)
  · cases h.symm.trans heq
  · exact absurd (heq.symm.trans h) (CommandLine.searched_plain line path).1

theorem taken_print {line name : List UInt8} (h : CommandLine.taken line = .print name) :
    name = line.drop 4 := by
  obtain ⟨-, heq⟩ | heq | heq | ⟨-, -, -, heq⟩ := taken_cases line
  · cases h.symm.trans heq
  · cases h.symm.trans heq
  · exact CommandLine.Action.print.inj (h.symm.trans heq)
  · exact absurd (heq.symm.trans h) (CommandLine.searched_plain line name).2

theorem searched_goes (line : List UInt8) : CommandLine.searched line ≠ .quit := by
  cases CommandLine.searched_cases line with
  | inl hfound =>
    obtain ⟨e, -, -, hrun⟩ := hfound
    rw [hrun, CommandLine.CmdHandler.action]
    cases e.handle <;> exact fun h => by cases h
  | inr hend =>
    rw [hend.2]
    split <;> exact fun h => by cases h

/-- Only `exit` ends the loop. -/
theorem taken_quit {line : List UInt8} :
    CommandLine.taken line = .quit ↔ line = chars "exit" := by
  constructor
  · intro h
    obtain ⟨hexit, -⟩ | heq | heq | ⟨-, -, -, heq⟩ := taken_cases line
    · exact hexit
    · cases h.symm.trans heq
    · cases h.symm.trans heq
    · exact absurd (heq.symm.trans h) (searched_goes line)
  · exact fun h => if_pos h

/-- An entry without a function is never found: its name is tested for before. -/
theorem taken_handled (line cmd : List UInt8) :
    CommandLine.taken line ≠ .noHandler cmd := by
  intro h
  obtain ⟨-, heq⟩ | heq | heq | ⟨hexit, hls, hcat, heq⟩ := taken_cases line
  · cases h.symm.trans heq
  · cases h.symm.trans heq
  · cases h.symm.trans heq
  rw [heq] at h
  cases CommandLine.searched_cases line with
  | inl hfound =>
    obtain ⟨e, he, rfl, hrun⟩ := hfound
    rw [hrun, CommandLine.CmdHandler.action] at h
    cases hhandle : e.handle with
    | some f =>
      rw [hhandle] at h
      cases h
    | none =>
      obtain hblank | hprint | hquit := CommandLine.handlers_null e he hhandle
      · exact hls (.trans (show chars "ls" <+: chars "ls " by decide) hblank)
      · exact hcat hprint
      · exact hexit (congrArg chars hquit)
  | inr hend =>
    rw [hend.2] at h
    split at h <;> cases h

/-- The characters up to a NUL, `n` at most. -/
def strAt (m : Mem) : Nat → Nat → List UInt8
  | 0, _ => []
  | n+1, a => if m a = 0 then [] else m a :: strAt m n (a + 1)

def infoAt (m : Mem) (x : Nat) : Info := ⟨strAt m 32 (name x), flags m x, size m x⟩

theorem strAt_eq {m : Mem} {a n : Nat} {s : List UInt8} (h : Str m a s) (hn : s.length < n) :
    strAt m n a = s := by
  induction s generalizing a n with
  | nil =>
    obtain ⟨n, rfl⟩ := Nat.exists_eq_succ_of_ne_zero (Nat.ne_of_gt hn)
    exact if_pos h
  | cons c s ih =>
    obtain ⟨n, rfl⟩ := Nat.exists_eq_succ_of_ne_zero (Nat.ne_of_gt (Nat.zero_lt_of_lt hn))
    obtain ⟨hc, hne, hrest⟩ := h
    rw [strAt, hc, if_neg hne, ih hrest (Nat.lt_of_succ_lt_succ hn)]

/-- The inode is the one described. -/
structure ShowsInfo (m : Mem) (node : Nat) (i : Info) : Prop where
  name : Str m (name node) i.name
  short : i.name.length < 32
  bits : flags m node = i.bits

section
variable {S : System Driver} {files : List Header} {root p q : Nat} {m : Mem} {t u : Target}
  {c : List UInt8} {devs : List (Device Driver)}

theorem mounted_showsInfo (h : MountedAt S files root p q m) (ht : t.InRange files S.devs) :
    ShowsInfo m (t.node files root p q) (infoOf files S.devs t) ∧
      (t ≠ .root → size m (t.node files root p q) = (infoOf files S.devs t).size) := by
  have hstands := h.stands ht
  cases t with
  | root =>
    exact ⟨⟨hstands.1, show ramdiskName.length < 32 by decide, hstands.2⟩,
      fun hroot => absurd rfl hroot⟩
  | file i =>
    obtain ⟨f, hf, hentry⟩ := hstands
    simp only [infoOf, hf, Option.map_some, Option.getD_some]
    exact ⟨⟨hentry.name, Nat.lt_succ_of_le f.short, hentry.flags⟩, fun _ => hentry.size⟩
  | devices =>
    exact ⟨⟨hstands.1, show devName.length < 32 by decide, hstands.2⟩, fun _ => h.hooks.size⟩
  | device i =>
    obtain ⟨dev, hdev, hinode⟩ := hstands
    simp only [infoOf, hdev, Option.map_some, Option.getD_some]
    exact ⟨⟨hinode.name, Nat.lt_of_lt_of_le dev.short (by decide), hinode.flags⟩,
      fun _ => hinode.size⟩

theorem ShowsInfo.name_eq {node : Nat} {i : Info} (h : ShowsInfo m node i) :
    (infoAt m node).name = i.name := strAt_eq h.name h.short

theorem mounted_infoAt (h : MountedAt S files root p q m) (ht : t.InRange files S.devs)
    (hne : t ≠ .root) : infoAt m (t.node files root p q) = infoOf files S.devs t := by
  obtain ⟨hshows, hsize⟩ := mounted_showsInfo h ht
  have hname := hshows.name_eq
  simp only [infoAt] at hname ⊢
  rw [hname, hshows.bits, hsize hne]

theorem infoOf_type (ht : t.InRange files devs) :
    (infoOf files devs t).bits &&& 0xF < Shell.fileType.length ∧
      ((infoOf files devs t).bits &&& 0x7 = FS_DIR ↔ ∃ ns, namesIn files devs t = some ns) := by
  cases t with
  | root =>
    exact ⟨show FS_DIR &&& 0xF < _ by decide,
      iff_of_true (show FS_DIR &&& 0x7 = FS_DIR by decide) ⟨_, rfl⟩⟩
  | file i =>
    have hget : files[i]? = some files[i] := List.getElem?_eq_getElem ht
    simp only [infoOf, hget, Option.map_some, Option.getD_some, namesIn]
    exact ⟨by decide, iff_of_false (by decide) (by simp)⟩
  | devices =>
    exact ⟨show FS_DIR &&& 0xF < _ by decide,
      iff_of_true (show FS_DIR &&& 0x7 = FS_DIR by decide) ⟨_, rfl⟩⟩
  | device i =>
    have hget : devs[i]? = some devs[i] := List.getElem?_eq_getElem ht
    simp only [infoOf, hget, Option.map_some, Option.getD_some, namesIn]
    exact ⟨by decide, iff_of_false (by decide) (by simp)⟩

/-- The entries in memory are the names. -/
theorem mounted_names (h : MountedAt S files root p q m) (ht : t.InRange files S.devs) :
    (mountedDir files S.devs root p q (t.node files root p q)).map (List.map Prod.fst) =
      namesIn files S.devs t := by
  cases t with
  | root =>
    rw [Target.node, h.dir_root, namesIn, Option.map_some]
    exact congrArg some (List.ext_getElem (by simp) fun i h1 h2 => by simp)
  | file i =>
    rw [Target.node, h.dir_file ht]
    rfl
  | devices =>
    rw [Target.node, h.dir_devices, namesIn, Option.map_some]
    exact congrArg some (List.ext_getElem (by simp) fun i h1 h2 => by simp)
  | device i =>
    rw [Target.node, h.dir_device ht]
    rfl

theorem mounted_described (h : MountedAt S files root p q m) :
    Described S m (mountedDir files S.devs root p q) (mountedNodes files S.devs root p q)
      (infoAt m) := by
  refine ⟨fun x hx => ?_, fun x hx => ?_, fun _ _ => rfl, fun _ _ => rfl, fun x hx => ?_,
    fun x hx => ?_, fun x hx es hes => ?_⟩
  · obtain ⟨t, ht, rfl⟩ := mem_mountedNodes.mp hx
    obtain ⟨hshows, -⟩ := mounted_showsInfo h ht
    rw [hshows.name_eq]
    exact hshows.name
  · obtain ⟨t, ht, rfl⟩ := mem_mountedNodes.mp hx
    obtain ⟨hshows, -⟩ := mounted_showsInfo h ht
    rw [hshows.name_eq]
    exact hshows.short
  · obtain ⟨t, ht, rfl⟩ := mem_mountedNodes.mp hx
    obtain ⟨hshows, -⟩ := mounted_showsInfo h ht
    rw [infoAt, hshows.bits]
    exact (infoOf_type ht).1
  · obtain ⟨t, ht, rfl⟩ := mem_mountedNodes.mp hx
    obtain ⟨hshows, -⟩ := mounted_showsInfo h ht
    rw [infoAt, hshows.bits, (infoOf_type ht).2, ← mounted_names h ht]
    simp only [Option.map_eq_some_iff]
    exact ⟨fun ⟨ns, es, hes, _⟩ => ⟨es, hes⟩, fun ⟨es, hes⟩ => ⟨_, es, hes, rfl⟩⟩
  · obtain ⟨rfl, -⟩ | ⟨rfl, -⟩ := h.dir_cases hes
    · exact h.rootDir.readdirPtr
    · exact h.hooks.readdirPtr

/-- A name of a directory is found in it, and the root is in none. -/
theorem find_name {ns : List (List UInt8)} (hns : namesIn files devs t = some ns) (hc : c ∈ ns) :
    ∃ u, t.find files devs c = some u ∧ u ≠ .root := by
  cases t with
  | root =>
    obtain rfl := Option.some.inj hns
    simp only [Target.find]
    cases hf : files.findIdx? fun f => f.name == c with
    | some i => exact ⟨_, rfl, fun h => by cases h⟩
    | none =>
      have hdev : c = devName := by
        cases List.mem_append.mp hc with
        | inl hfile =>
          obtain ⟨f, hmem, hname⟩ := List.mem_map.mp hfile
          exact absurd hname (by simpa using List.findIdx?_eq_none_iff.mp hf f hmem)
        | inr hlast => exact List.mem_singleton.mp hlast
      exact ⟨_, if_pos hdev, fun h => by cases h⟩
  | devices =>
    obtain rfl := Option.some.inj hns
    obtain ⟨d, hmem, hname⟩ := List.mem_map.mp hc
    simp only [Target.find]
    cases hf : devs.findIdx? fun d => d.name == c with
    | some i => exact ⟨_, rfl, fun h => by cases h⟩
    | none => exact absurd hname (by simpa using List.findIdx?_eq_none_iff.mp hf d hmem)
  | file i => cases hns
  | device i => cases hns

/-- What is printed for the inode of a target is the listing of the target. -/
theorem mounted_lsText (h : MountedAt S files root p q m) {t : Option Target}
    (ht : ∀ u, t = some u → u.InRange files S.devs) :
    lsText (mountedDir files S.devs root p q) (infoAt m)
      ((t.map (Target.node files root p q)).getD 0) = listing files S.devs t := by
  cases t with
  | none => exact if_pos rfl
  | some t =>
    have hin := ht t rfl
    have hname := (mounted_showsInfo h hin).1.name_eq
    have hnames := mounted_names h hin
    rw [Option.map_some, Option.getD_some, lsText, if_neg (h.node_pos t), listing]
    cases hes : mountedDir files S.devs root p q (t.node files root p q) with
    | none =>
      rw [hes] at hnames
      simp only [← hnames, Option.map_none, hname]
    | some es =>
      rw [hes] at hnames
      simp only [← hnames, Option.map_some, headText, hname, List.length_map]
      congr 1
      rw [List.flatMap_map]
      refine List.flatMap_congr fun e he => ?_
      obtain ⟨u, hu, hne⟩ := find_name hnames.symm (List.mem_map_of_mem (f := Prod.fst) he)
      rw [h.child hin, hu, Option.map_some, Option.getD_some, Option.map_some, Option.getD_some,
        mounted_infoAt h (Target.find_inRange hu) hne]

end

end Foos.Dispatch
