import Foos.Components
import Foos.Listings

/-! The commands `tty` and `devs` on the tree that `ramfs_init` mounts: a file called `dev` hides
the devices from both. -/
namespace Foos.Dispatch
open Terminal Devices Program ByteMemory Word32 CString Fs Printf Vsprintf Libc Cat MaximalRuns

/-- `while(dev=fs_readdir(devdir,i++))` from `i` on. -/
def listDevsFrom (fuel : Nat) (S : System Driver) (devdir : Nat) :
    Nat → Nat → Code Driver (List UInt8)
  | 0, _ => diverge
  | rounds+1, i => do
    let dev ← fsReaddir fuel S devdir i
    if dev ≠ 0 then do
      let no ← ofMem fun m => direntIno m dev
      let devName ← stringAt fuel (direntName dev)
      let line ← send (textOf ([.int (UInt32.ofNat no), .plain 58, .plain 32, .str (some devName),
        .plain 10]))
      let rest ← listDevsFrom fuel S devdir rounds (i + 1)
      pure (line ++ rest)
    else pure []

/-- `list_devs`, with the literal `"dev"` at `dev`. -/
def listDevs (fuel : Nat) (S : System Driver) (fsRoot dev : Nat) : Code Driver (List UInt8) := do
  let devdir ← fsFinddir fuel S fsRoot dev
  let head ← putsLiteral "FOOS devices:"
  let lines ← listDevsFrom fuel S devdir fuel 0
  pure (head ++ lines)

/-- A file of the ramdisk is called `dev`. -/
def HidesDevices (files : List Header) : Prop := ∃ f ∈ files, f.name = devName

instance (files : List Header) : Decidable (HidesDevices files) :=
  inferInstanceAs (Decidable (∃ f ∈ files, _))

section
variable {S : System Driver} {L : ShellLink} {files : List Header} {root p q : Nat}
  {areas : List (Nat × Nat)} {sep hf fuel : Nat} {bs : List Kmalloc.Blk} {v w : World Driver}

theorem find_hidden {δ : Type} (devs : List (Device δ)) (h : HidesDevices files) :
    ∃ i, Target.root.find files devs devName = some (.file i) := by
  obtain ⟨f, hf, hname⟩ := h
  cases hi : files.findIdx? fun f => f.name == devName with
  | some i => exact ⟨i, by rw [Target.find, hi]⟩
  | none =>
    have hno := List.findIdx?_eq_none_iff.mp hi f hf
    simp [hname] at hno

theorem find_devices {δ : Type} (devs : List (Device δ)) (h : ¬ HidesDevices files) :
    Target.root.find files devs devName = some .devices := by
  cases hi : files.findIdx? fun f => f.name == devName with
  | some i =>
    obtain ⟨hlt, hname, -⟩ := List.findIdx?_eq_some_iff_getElem.mp hi
    exact absurd ⟨_, List.getElem_mem hlt, eq_of_beq hname⟩ h
  | none => rw [Target.find, hi, if_pos rfl]

/-- `/dev/tty` is the terminal unless a file hides it. -/
theorem follow_tty (hS : S.devs = table S.heap) :
    Target.root.follow files S.devs [devName, ttyName] =
      if HidesDevices files then none else some (.device DEV_TTY) := by
  rw [Target.follow]
  by_cases h : HidesDevices files
  · obtain ⟨i, hi⟩ := find_hidden S.devs h
    rw [hi, if_pos h]
    rfl
  · rw [find_devices S.devs h, if_neg h, hS]
    rfl

/-- `fs_write` on the inode of the terminal. -/
theorem fsWrite_tty {dev : Device Driver} {node : Nat} (hdev : DeviceInode S dev w.mem node DEV_TTY)
    (hS : S.devs = table S.heap) (hnode : node ≠ 0) (hopen : (w.devs DEV_TTY).data ≠ 0)
    (buf len off : Nat) : ∃ t, fsWrite S node buf len off w = .ret (toInt len) t ∧
      t.mem = w.mem ∧ (∀ held, Keeps held w t) ∧ t.driver DEV_TTY =
        shown (w.driver DEV_TTY) ((List.range len).map fun i => w.mem (buf + i)) := by
  have hhook : S.link.devfsWrite ≠ 0 := Nat.ne_of_gt (S.link.code _ (by simp)).1
  have hchar : ¬ (FS_CHAR &&& FS_CHAR = 0 ∧ FS_CHAR &&& FS_BLK = 0) := by decide
  have hget : S.devs[DEV_TTY]? = some (tty S.heap) := by
    rw [hS]
    rfl
  have hdata : ((w.setOffset DEV_TTY off).devs DEV_TTY).data ≠ 0 := by
    simpa [World.setOffset] using hopen
  have hseek : devSeek S.devs DEV_TTY off SEEK_SET w = .ret off (w.setOffset DEV_TTY off) := by
    simp only [devSeek, hget, if_true, modify_bind_run]
    rw [read_run, World.setOffset_same]
  have hwrite : ∃ t, devWrite S.devs DEV_TTY buf len (w.setOffset DEV_TTY off) = .ret len t ∧
      t.mem = w.mem ∧ t.devs = (w.setOffset DEV_TTY off).devs ∧ t.fileBase = w.fileBase ∧
      t.driver DEV_TTY =
        shown (w.driver DEV_TTY) ((List.range len).map fun i => w.mem (buf + i)) := by
    simp only [devWrite, hget, tty, ttydevWrite, read_bind_run, ofMem_bind_run, if_neg hdata]
    refine ⟨_, rfl, rfl, rfl, rfl, ?_⟩
    show Function.update w.driver DEV_TTY (shown (w.driver DEV_TTY) _) DEV_TTY = _
    exact Function.update_self ..
  obtain ⟨t, hrun, hmem, hdevs, hbase, ht⟩ := hwrite
  refine ⟨t, ?_, hmem, fun held => ⟨fun y _ => by rw [hmem], fun no => ?_, hbase⟩, ht⟩
  swap
  · rw [hdevs]
    exact w.setOffset_data _ _ _
  rw [fsWrite, ofMem_bind_run, hdev.writePtr, if_neg hhook, if_pos rfl, devfsWrite, checkDev,
    bind_ret (assert_pass (decide_eq_true hnode) w), ofMem_bind_run, hdev.flags, if_neg hchar,
    ofMem_bind_run, hdev.impl, bind_ret hseek, bind_ret hrun]
  rfl

/-- The command `tty`: the text goes to `/dev/tty`, which has to be found. -/
theorem testFsdev_run (h : MountedAt S files root p q v.mem) (hS : S.devs = table S.heap)
    (hr : PathReady S.heap hf areas root L.devTty sep (chars "/dev/tty") bs v)
    (hin : ∀ r ∈ treeAreas files S.devs root p q, r ∈ areas) (hhello : (L.helloWorld, 12) ∈ areas)
    (hbytes : (List.range 12).map (fun i => v.mem (L.helloWorld + i)) = chars "Hello world\n")
    (hopen : (v.devs DEV_TTY).data ≠ 0) (hfuel : 40 ≤ fuel) (old : Nat) :
    ∃ out t, testFsdev S L (lookupFrom fuel S root sep old) v = .ret out t ∧ Keeps areas v t ∧
      Kmalloc.Returned 9 bs t.mem ∧ t.driver DEV_TTY = shown (v.driver DEV_TTY)
        (chars (if HidesDevices files then "tty not found!\n" else "Hello world\n")) := by
  have hcomp : HasComponent (chars "/dev/tty") := by decide
  obtain ⟨l, r, t, hl, hlook, hmounted, hkeep, hback⟩ := h.lookup_run hr hin hcomp hfuel old
  have hnames : l.map (text (chars "/dev/tty")) = [devName, ttyName] := by
    rw [runs_words hl]
    decide
  rw [hnames, follow_tty hS] at hlook
  obtain ⟨hopen', hdriver⟩ := lookup_opened hlook hopen
  have hkeeps : Keeps areas v t := lookup_keeps hlook hkeep
  have hlookup : ∀ x, fsLookup fuel S root sep L.devTty old v = .ret (x, r) t →
      lookupFrom fuel S root sep old L.devTty v = .ret x t := fun x hx => (bind_ret hx).trans rfl
  by_cases hhide : HidesDevices files
  · rw [if_pos hhide] at hlook ⊢
    obtain ⟨u, hputs, hu, hd⟩ := putsLiteral_run hopen' "tty not found!"
    refine ⟨chars "tty not found!" ++ [10], u, ?_, hkeeps.trans (hu.keeps _), ?_, ?_⟩
    · rw [testFsdev, bind_ret (hlookup _ hlook), if_pos (by rfl), hputs]
    · exact hu.mem ▸ hback
    · rw [hd, hdriver]
      rfl
  · rw [if_neg hhide] at hlook ⊢
    have htty : Target.InRange files S.devs (.device DEV_TTY) := by
      rw [hS]
      exact Nat.zero_lt_succ _
    obtain ⟨dev, -, hdev⟩ := hmounted.stands htty
    have hnode := h.node_pos (.device DEV_TTY)
    obtain ⟨u, hrun, hmem, hwrite, hd⟩ := fsWrite_tty hdev hS hnode hopen' L.helloWorld 12 0
    refine ⟨[], u, ?_, hkeeps.trans (hwrite _), hmem ▸ hback, ?_⟩
    · rw [testFsdev, bind_ret (hlookup _ hlook)]
      exact (if_neg (c := Target.node files root p q (.device DEV_TTY) = 0) hnode ▸ bind_ret hrun)
    · have hsame : ∀ i ∈ List.range 12, t.mem (L.helloWorld + i) = v.mem (L.helloWorld + i) :=
        fun i hi => hkeep _ (not_outside.mpr ⟨_, hhello, Nat.le_add_right _ _,
          Nat.add_lt_add_left (List.mem_range.mp hi) _⟩)
      rw [hd, hdriver, List.map_congr_left hsame, hbytes]

/-- The command `tty` shows its text through `/dev/tty`, which has to be found there. -/
theorem testFsdev_shows (h : MountedAt S files root p q v.mem) (hS : S.devs = table S.heap)
    (hr : PathReady S.heap hf areas root L.devTty sep (chars "/dev/tty") bs v)
    (hin : ∀ r ∈ treeAreas files S.devs root p q, r ∈ areas) (hhello : (L.helloWorld, 12) ∈ areas)
    (hbytes : (List.range 12).map (fun i => v.mem (L.helloWorld + i)) = chars "Hello world\n")
    (hopen : (v.devs DEV_TTY).data ≠ 0) (hfuel : 40 ≤ fuel) (old : Nat) :
    ∃ out t, testFsdev S L (lookupFrom fuel S root sep old) v = .ret out t ∧
      t.driver DEV_TTY = shown (v.driver DEV_TTY)
        (chars (if HidesDevices files then "tty not found!\n" else "Hello world\n")) := by
  obtain ⟨out, t, hrun, -, -, hd⟩ := testFsdev_run h hS hr hin hhello hbytes hopen hfuel old
  exact ⟨out, t, hrun, hd⟩

def deviceLine (i : Nat) (name : List UInt8) : List UInt8 :=
  textOf [.int (UInt32.ofNat i), .plain 58, .plain 32, .str (some name), .plain 10]

/-- The entries of a directory, counted from `i` on. -/
def deviceLines : Nat → List (List UInt8) → List UInt8
  | _, [] => []
  | i, name :: names => deviceLine i name ++ deviceLines (i + 1) names

theorem tells_listDevsFrom (S : System Driver) (fuel devdir rounds i : Nat) :
    Tells [] (listDevsFrom fuel S devdir rounds i) := by
  induction rounds generalizing i with
  | zero => exact tells_diverge
  | succ rounds ih =>
    refine tells_silent (silent_readdir S fuel devdir i) fun dev => tells_ite ?_ (tells_pure [])
    refine tells_silent (silent_read _) fun no => ?_
    refine tells_silent (silent_stringAt fuel _) fun name => ?_
    exact (tells_send _).bind fun line => Tells.bind (ih (i + 1)) fun rest =>
      tells_pure (line ++ rest)

theorem tells_listDevs (S : System Driver) (fuel fsRoot dev : Nat) :
    Tells [] (listDevs fuel S fsRoot dev) := by
  refine tells_silent (silent_finddir S fuel fsRoot dev) fun devdir => ?_
  exact (tells_putsLiteral _).bind fun head =>
    Tells.bind (tells_listDevsFrom S fuel devdir fuel 0) fun lines => tells_pure (head ++ lines)

theorem listDevsFrom_run {dir : Listing} {nodes : List Nat} {x : Nat}
    {es : List (List UInt8 × Nat)} (hx : x ∈ nodes) (hes : dir x = some es)
    (happ : DirentApart S nodes) (hfuel : 32 ≤ fuel) {i n rounds : Nat} (hn : i + n = es.length)
    (hrounds : n < rounds) (hlen : es.length ≤ 4294967296) (htree : TreeAt S w.mem dir nodes root)
    (hhook : readdirPtr w.mem x = S.link.ramfsReaddir) (hopen : (w.devs DEV_TTY).data ≠ 0) :
    ∃ t, listDevsFrom fuel S x rounds i w = .ret (deviceLines i ((es.drop i).map Prod.fst)) t ∧
      Listed S w t := by
  induction n generalizing i rounds w with
  | zero =>
    obtain ⟨rounds, rfl⟩ := Nat.exists_eq_succ_of_ne_zero (Nat.ne_of_gt hrounds)
    refine ⟨w, ?_, Listed.refl w⟩
    rw [listDevsFrom, bind_ret (readdir_behind htree hhook hx hes (by omega) fuel), if_neg nofun,
      List.drop_eq_nil_of_le (by omega)]
    rfl
  | succ n ih =>
    obtain ⟨rounds, rfl⟩ := Nat.exists_eq_succ_of_ne_zero (Nat.ne_of_gt (Nat.zero_lt_of_lt hrounds))
    have hi : i < es.length := by omega
    have hget : es[i]? = some es[i] := List.getElem?_eq_getElem hi
    obtain ⟨-, -, hshort, hstr⟩ := htree.entryAt x hx es hes i _ hget
    have hread := readdir_entry htree hhook happ hx hes hfuel hget
    have hl := direntWorld_listed S w i (Nat.le_of_lt_succ hshort)
    have hin := hl.inodes happ
    have hopen' : ((direntWorld S w i es[i].1).devs DEV_TTY).data ≠ 0 := hopen
    have hno : direntIno (direntWorld S w i es[i].1).mem S.link.dirent = i :=
      (load32_store32 _ _ _).trans (Nat.mod_eq_of_lt (by omega))
    have hname : Str (direntWorld S w i es[i].1).mem (direntName S.link.dirent) es[i].1 := by
      refine (putString_str (m := w.mem) (a := S.link.dirent) hstr.chars).congr fun y h1 h2 => ?_
      exact store32_outside _ _ _ _ (by omega)
    have hstring := stringAt_run hname (by omega : es[i].1.length < fuel) (by omega)
    obtain ⟨u, hline, hu, -⟩ := send_run hopen' (deviceLine i es[i].1)
    have hl' := hl.trans (shown_listed (S := S) hu)
    have hin' := hl'.inodes happ
    have hhook' : readdirPtr u.mem x = S.link.ramfsReaddir :=
      (load32_congr fun y h1 h2 => hin' x hx y (by omega) (by omega)).trans hhook
    obtain ⟨t, hrest, ht⟩ := ih (i := i + 1) (by omega) (Nat.lt_of_succ_lt_succ hrounds)
      (htree.congr hin') hhook' (hl'.devs ▸ hopen)
    refine ⟨t, ?_, hl'.trans ht⟩
    rw [listDevsFrom, bind_ret hread, if_pos (Nat.ne_of_gt S.link.direntPos), ofMem_bind_run, hno,
      bind_ret hstring, ← deviceLine, bind_ret hline, bind_ret hrest, List.drop_eq_getElem_cons hi]
    rfl

/-- A device list without a directory of devices. -/
theorem listDevsFrom_file {f : Header} {x rounds i : Nat} (hentry : FileEntry S w.mem x f) :
    ∃ t, listDevsFrom fuel S x (rounds + 1) i w = .ret [] t ∧ Listed S w t := by
  have hbit : (if 0x7 ≠ FS_DIR then 1 else 0) = 1 := by decide
  have hfile : FS_FILE &&& 1 ≠ 0 := by decide
  refine ⟨{ w with k := { w.k with errno := ENOTDIR } }, ?_, Frame.refl _ _, rfl, rfl⟩
  have hread : fsReaddir fuel S x i w = .ret 0 { w with k := { w.k with errno := ENOTDIR } } := by
    simp only [fsReaddir, checkDir, ofMem_bind_run, hbit, hentry.flags]
    rw [if_pos hfile]
    rfl
  rw [listDevsFrom, bind_ret hread, if_neg (not_not_intro rfl)]
  rfl

/-- What `devs` prints: no device when a file hides them. -/
def devsText (files : List Header) (devs : List (Device Driver)) : List UInt8 :=
  chars "FOOS devices:" ++ [10] ++
    if HidesDevices files then [] else deviceLines 0 (devs.map Device.name)

theorem dirent_apart (h : Apart (treeAreas files S.devs root p q) S.link.dirent direntSize) :
    DirentApart S (mountedNodes files S.devs root p q) := by
  intro x hx
  obtain ⟨r, hr, h1, h2⟩ := node_area hx
  have hsep := h r hr
  simp only [apart_cons, apart_nil, and_true]
  omega

theorem listDevs_run {dev : Nat} (h : MountedAt S files root p q v.mem)
    (hdev : Str v.mem dev devName)
    (happ : Apart (treeAreas files S.devs root p q) S.link.dirent direntSize)
    (hopen : (v.devs DEV_TTY).data ≠ 0) (hfuel : 32 ≤ fuel) (hmany : S.devs.length < fuel)
    (hbelow : S.devs.length ≤ 4294967296) :
    ∃ t, listDevs fuel S root dev v = .ret (devsText files S.devs) t ∧ Listed S v t := by
  have hfind := h.finddir_root hfuel hdev
  obtain ⟨z, hputs, hz, -⟩ := putsLiteral_run hopen "FOOS devices:"
  have hopen' : (z.devs DEV_TTY).data ≠ 0 := hz.devs ▸ hopen
  have hmounted : MountedAt S files root p q z.mem := hz.mem ▸ h
  by_cases hhide : HidesDevices files
  · obtain ⟨i, hi⟩ := find_hidden S.devs hhide
    have hlt : i < files.length := Target.find_inRange hi
    obtain ⟨rounds, rfl⟩ := Nat.exists_eq_succ_of_ne_zero (Nat.ne_of_gt (Nat.zero_lt_of_lt hmany))
    have hentry := hmounted.file i _ (List.getElem?_eq_getElem hlt)
    obtain ⟨t, hlines, ht⟩ : ∃ t, listDevsFrom (rounds + 1) S _ (rounds + 1) 0 z = .ret [] t ∧
        Listed S z t := listDevsFrom_file hentry
    rw [hi] at hfind
    refine ⟨t, ?_, (shown_listed hz).trans ht⟩
    rw [listDevs, bind_ret hfind, bind_ret hputs, devsText, if_pos hhide]
    exact (bind_ret hlines).trans rfl
  · rw [find_devices S.devs hhide] at hfind
    obtain ⟨t, hlines, ht⟩ := listDevsFrom_run (mem_mountedNodes.mpr ⟨.devices, trivial, rfl⟩)
      hmounted.dir_devices (dirent_apart happ) hfuel (Nat.zero_add _)
      (by simpa using hmany) (by simpa using hbelow) hmounted.treeAt hmounted.hooks.readdirPtr
      hopen'
    refine ⟨t, ?_, (shown_listed hz).trans ht⟩
    rw [listDevs, bind_ret hfind, bind_ret hputs, devsText, if_neg hhide]
    refine (bind_ret hlines).trans ?_
    have hnames : (S.devs.mapIdx fun i d => (d.name, entry q i)).map Prod.fst =
        S.devs.map Device.name := List.ext_getElem (by simp) fun i h1 h2 => by simp
    rw [List.drop_zero, hnames]
    rfl

theorem listDevs_shows {dev : Nat} (h : MountedAt S files root p q v.mem)
    (hdev : Str v.mem dev devName)
    (happ : Apart (treeAreas files S.devs root p q) S.link.dirent direntSize)
    (hopen : (v.devs DEV_TTY).data ≠ 0) (hfuel : 32 ≤ fuel) (hmany : S.devs.length < fuel)
    (hbelow : S.devs.length ≤ 4294967296) :
    ∃ t, listDevs fuel S root dev v = .ret (devsText files S.devs) t ∧
      t.driver DEV_TTY = shown (v.driver DEV_TTY) (devsText files S.devs) := by
  obtain ⟨t, ht, -⟩ := listDevs_run h hdev happ hopen hfuel hmany hbelow
  obtain ⟨new, hnew, hshown⟩ := tells_listDevs S fuel root dev v _ t ht
  exact ⟨t, ht, hnew ▸ hshown⟩

end

/-- An empty ramdisk with the two devices, the separator, and the literals of the commands. -/
def devTree : Mem :=
  let m : Mem := ⟨fun _ => 0⟩
  let m := putString m 0x100000 ramdiskName
  let m := setFlags m 0x100000 FS_DIR
  let m := setImpl m 0x100000 1
  let m := setReaddir m 0x100000 kernelLink.ramfsReaddir
  let m := setFinddir m 0x100000 kernelLink.ramfsFinddir
  let m := setPtr m 0x100000 0x100100
  let m := putString m 0x100100 devName
  let m := setFlags m 0x100100 FS_DIR
  let m := setImpl m 0x100100 2
  let m := setReaddir m 0x100100 kernelLink.ramfsReaddir
  let m := setFinddir m 0x100100 kernelLink.ramfsFinddir
  let m := setPtr m 0x100100 0x100200
  let m := deviceInode shellKernel (tty kernelHeap) m 0x100200 0
  let m := deviceInode shellKernel (ramdisk kernelHeap) m 0x10024C 1
  let m := putString m 0x200000 [47]
  let m := putString m 0x200010 devName
  let m := putString m 0x5030 (chars "/dev/tty")
  putString m 0x5040 (chars "Hello world\n")

theorem devTree_mounted : MountedAt shellKernel [] 0x100000 0x100100 0x100200 devTree := by
  have htty : DeviceInode shellKernel (tty kernelHeap) devTree 0x100200 0 :=
    ⟨by decide +kernel, by decide +kernel, by decide +kernel, by decide +kernel, by decide +kernel,
      by decide +kernel, by decide +kernel, by decide +kernel, by decide +kernel⟩
  have hrd : DeviceInode shellKernel (ramdisk kernelHeap) devTree 0x10024C 1 :=
    ⟨by decide +kernel, by decide +kernel, by decide +kernel, by decide +kernel, by decide +kernel,
      by decide +kernel, by decide +kernel, by decide +kernel, by decide +kernel⟩
  refine ⟨by decide, by decide, by decide, by decide,
    ⟨by decide +kernel, by decide +kernel, by decide +kernel, by decide +kernel, by decide +kernel⟩,
    by decide +kernel, fun i f hf => absurd hf (by simp),
    ⟨by decide +kernel, by decide +kernel, by decide +kernel, by decide +kernel,
      fun i dev hdev => ?_⟩,
    ⟨by decide +kernel, by decide +kernel, by decide +kernel⟩⟩
  match i, hdev with
  | 0, hdev =>
    obtain rfl := Option.some.inj hdev
    exact htty
  | 1, hdev =>
    obtain rfl := Option.some.inj hdev
    exact hrd

def devTreeAreas : List (Nat × Nat) :=
  [(0x5030, 9), (0x200000, 2), (0x5040, 12), (0x100000, 76), (0x100100, 76), (0x100200, 152)]

theorem devTree_ready : PathReady shellKernel.heap 8 devTreeAreas 0x100000 0x5030 0x200000
    (chars "/dev/tty") [⟨false, 0⟩] (shellBoot devTree) := by
  have hpristine : Kmalloc.Pristine ⟨⟨devTree, 0⟩, []⟩ := by
    refine ⟨fun y h1 _ => ?_, rfl⟩
    simp only [Kmalloc.heapBase] at h1
    have hpath : (chars "/dev/tty").length = 8 := rfl
    have hhello : (chars "Hello world\n").length = 12 := rfl
    have htty : (tty kernelHeap).name.length = 3 := rfl
    have hrd : (ramdisk (δ := Driver) kernelHeap).name.length = 7 := rfl
    have hdev : devName.length = 3 := rfl
    have hroot : ramdiskName.length = 7 := rfl
    have hsep : ([47] : List UInt8).length = 1 := rfl
    simp (disch := omega) only [devTree, deviceInode, setFlags, setImpl, setReaddir, setFinddir,
      setPtr, setRead, setWrite, name, store32_outside, store8_ne, putString_outside]
  refine ⟨rfl, hpristine.holds.heap, fun r hr => Or.inl ?_, by decide,
    ⟨by decide, Or.inr fun e he => ?_⟩,
    by decide, by decide, by decide, by decide, by decide +kernel, by decide +kernel⟩
  · revert r
    decide
  · have hend : Kmalloc.chainEnd 1 devTree Kmalloc.root = some 0x400010 := by decide +kernel
    rw [Kmalloc.EndsAt.eq_of_chainEnd hend he]
    decide

theorem testFsdev_shows_hello : ∃ out t,
    testFsdev shellKernel shellLink (lookupFrom 40 shellKernel 0x100000 0x200000 0)
      (shellBoot devTree) = .ret out t ∧
    t.driver DEV_TTY = shown ((shellBoot devTree).driver DEV_TTY) (chars "Hello world\n") := by
  have hin : ∀ r ∈ treeAreas [] shellKernel.devs 0x100000 0x100100 0x100200,
      r ∈ devTreeAreas := by decide
  have hbytes : (List.range 12).map (fun i => devTree (shellLink.helloWorld + i)) =
      chars "Hello world\n" := by decide +kernel
  obtain ⟨out, t, hrun, hshown⟩ := testFsdev_shows (L := shellLink) (v := shellBoot devTree)
    devTree_mounted rfl devTree_ready hin (by decide) hbytes (by decide) (Nat.le_refl 40) 0
  rw [if_neg (by decide)] at hshown
  exact ⟨out, t, hrun, hshown⟩

theorem listDevs_shows_two : ∃ t,
    listDevs 32 shellKernel 0x100000 0x200010 (shellBoot devTree) =
      .ret (devsText [] shellKernel.devs) t ∧
    t.driver DEV_TTY =
      shown ((shellBoot devTree).driver DEV_TTY) (devsText [] shellKernel.devs) :=
  listDevs_shows (v := shellBoot devTree) devTree_mounted (by decide +kernel) (by decide)
    (by decide) (Nat.le_refl 32) (by decide) (by decide)

end Foos.Dispatch
