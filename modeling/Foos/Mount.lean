import Foos.DevfsInit
import Foos.Ramfs

/-! The run of `ramfs_init` on an image with a good signature, up to and through its loop
over the file headers. -/
namespace Foos.Fs
open Program ByteMemory Word32 CString Libc Kmalloc

variable {δ : Type}

/-- The inode at `node` has the name, offset and size of the file header at `file` of `m₀`. -/
structure FileInode (S : System δ) (m₀ : Mem) (file : Nat) (m : Mem) (node i : Nat) : Prop where
  name : ∃ s, s.length < 32 ∧ Str m₀ (fileName file) s ∧ Str m (name node) s
  flags : flags m node = FS_FILE
  ino : ino m node = i
  impl : impl m node = fileOffset m₀ file
  size : size m node = fileSize m₀ file
  readPtr : readPtr m node = S.link.ramfsRead

/-- An inode that has its name, after a round of `ramfs_init`. -/
def fileInode (S : System δ) (m : Mem) (node i file : Nat) : Mem :=
  let m := setFlags m node FS_FILE
  let m := setIno m node i
  let m := setImpl m node (fileOffset m file)
  let m := setSize m node (fileSize m file)
  setRead m node S.link.ramfsRead

theorem fileInode_frame (S : System δ) (m : Mem) (node i file : Nat) :
    Frame [(node + 32, 44)] m (fileInode S m node i file) := by
  have h0 := (Frame.refl [(node + 32, 44)] m).store8 (v := UInt8.ofNat FS_FILE)
    (Nat.le_refl _) (by omega)
  have h1 := h0.store32 (v := i) (show node + 32 ≤ node + 40 by omega) (by omega)
  have h2 := h1.store32 (v := fileOffset (setIno (setFlags m node FS_FILE) node i) file)
    (show node + 32 ≤ node + 44 by omega) (by omega)
  have h3 := h2.store32 (v := fileSize (setImpl (setIno (setFlags m node FS_FILE) node i) node
    (fileOffset (setIno (setFlags m node FS_FILE) node i) file)) file)
    (show node + 32 ≤ node + 36 by omega) (by omega)
  exact h3.store32 (v := S.link.ramfsRead) (show node + 32 ≤ node + 60 by omega) (by omega)

/-- The hooks that a round does not set. -/
theorem fileInode_hooks (S : System δ) (m : Mem) {node y : Nat} (i file : Nat)
    (h1 : node + 48 ≤ y) (h2 : y < node + 60) : fileInode S m node i file y = m y := by
  simp only [fileInode, setRead, setSize, setImpl, setIno, setFlags]
  rw [store32_outside _ _ _ _ (by omega), store32_outside _ _ _ _ (by omega),
    store32_outside _ _ _ _ (by omega), store32_outside _ _ _ _ (by omega),
    store8_ne _ _ _ _ (by omega)]

theorem fileInode_made (S : System δ) {m : Mem} {node i file : Nat}
    (happ : Apart [(node, 76)] file 44) (hi : i < 4294967296) {s : List UInt8}
    (hs : s.length < 32) (hfile : Str m (fileName file) s) (hname : Str m (name node) s) :
    FileInode S m file (fileInode S m node i file) node i := by
  have hread : S.link.ramfsRead < 4294967296 := (S.link.code _ (by simp)).2
  simp only [apart_cons, apart_nil, and_true] at happ
  have hlen : node + s.length < node + 32 := by omega
  refine ⟨⟨s, hs, hfile, (fileInode_frame S m node i file).str hname ?_⟩, ?_, ?_, ?_, ?_, ?_⟩
  · simp only [name, apart_cons, apart_nil, and_true]
    omega
  · simp only [flags, fileInode, setRead, setSize, setImpl, setIno, setFlags]
    rw [store32_outside _ _ _ _ (by omega), store32_outside _ _ _ _ (by omega),
      store32_outside _ _ _ _ (by omega), store32_outside _ _ _ _ (by omega), store8_same]
    rfl
  all_goals
    simp (disch := omega) only [size, ino, impl, readPtr, fileInode, fileOffset, fileSize, setRead,
      setSize, setImpl, setIno, setFlags, load32_store32, load32_store32_ne, load32_store8_ne,
      Nat.mod_eq_of_lt]
  all_goals exact Nat.mod_eq_of_lt (load32_lt _ _)

theorem FileInode.congr {S : System δ} {m₀ m m' : Mem} {file node i : Nat}
    (h : FileInode S m₀ file m node i) (hm : ∀ y, node ≤ y → y < node + 76 → m' y = m y) :
    FileInode S m₀ file m' node i := by
  obtain ⟨s, hs, hfile, hname⟩ := h.name
  have hload : ∀ k, k + 4 ≤ 76 → load32 m' (node + k) = load32 m (node + k) := fun k hk =>
    load32_congr fun y h1 h2 => hm y (by omega) (by omega)
  have hlen : node + s.length < node + 76 := by omega
  refine ⟨⟨s, hs, hfile, hname.congr fun y h1 h2 => hm y h1 (Nat.lt_of_le_of_lt h2 hlen)⟩,
    ?_, ?_, ?_, ?_, ?_⟩
  · rw [← h.flags, Fs.flags, Fs.flags, hm (node + 32) (by omega) (by omega)]
  · exact (hload 40 (by omega)).trans h.ino
  · exact (hload 44 (by omega)).trans h.impl
  · exact (hload 36 (by omega)).trans h.size
  · exact (hload 60 (by omega)).trans h.readPtr

theorem FileInode.source {S : System δ} {m₀ m₁ m : Mem} {file node i : Nat}
    (h : FileInode S m₀ file m node i) (hm : ∀ y, file ≤ y → y < file + 44 → m₁ y = m₀ y) :
    FileInode S m₁ file m node i := by
  obtain ⟨s, hs, hfile, hname⟩ := h.name
  have hload : ∀ k, k + 4 ≤ 44 → load32 m₁ (file + k) = load32 m₀ (file + k) := fun k hk =>
    load32_congr fun y h1 h2 => hm y (by omega) (by omega)
  have hstr : Str m₁ (fileName file) s := hfile.congr fun y h1 h2 => by
    simp only [fileName] at h1 h2
    exact hm y (by omega) (by omega)
  exact ⟨⟨s, hs, hstr, hname⟩, h.flags, h.ino, h.impl.trans (hload 36 (by omega)).symm,
    h.size.trans (hload 40 (by omega)).symm, h.readPtr⟩

/-- What a round logs: its reads of the header, and the inode. -/
def roundLog (file node k i : Nat) (m : Mem) : List Event :=
  [.image file 4, .image (fileName file) k, .image (file + 36) 4, .image (file + 40) 4,
    .inode i node m]

/-- A round on a header with the right magic number, once its name is copied. -/
theorem ramfsRound_ret {S : System δ} {w : World δ} {fuel files i e node file : Nat} {m : Mem}
    (hnode : node = entry w.rdFiles i) (hfile : file = fileheader files i)
    (hmagic : fileMagic w.mem file = RD_FILESIG)
    (hcopy : copyWhile fuel w.mem node (fileName file) = some (e, m)) :
    ramfsRound fuel S files i w = .ret () { w.setMem (fileInode S m node i file) with
      trace := w.trace ++ roundLog file node (e - node) i (fileInode S m node i file) } := by
  subst hnode hfile
  have happ : ∀ (l : List Event) (e₁ e₂ e₃ e₄ e₅ : Event),
      l ++ [e₁] ++ [e₂] ++ [e₃] ++ [e₄] ++ [e₅] = l ++ [e₁, e₂, e₃, e₄, e₅] := by simp
  rw [roundLog, ← happ]
  simp only [ramfsRound, image32, bind_assoc_run, note_bind_run, ofMem_bind_run]
  refine (bind_ret (assert_pass (decide_eq_true hmagic) _)).trans ?_
  simp only [read_bind_run, imageStrcpy, bind_assoc_run]
  refine (bind_ret (update_run (a := e - entry w.rdFiles i)
    (t := (w.log (.image (fileheader files i) 4)).setMem m) ?_)).trans rfl
  simp only [World.log_mem, World.log_rdFiles, name]
  rw [hcopy]
  rfl

/-- The magic number is right and the name ends within its field. -/
structure Named (m : Mem) (file : Nat) : Prop where
  magic : fileMagic m file = RD_FILESIG
  name : ∃ s, s.length < 32 ∧ Str m (fileName file) s

/-- What rounds below `j` may have logged since `w`. -/
def Logged (S : System δ) (w : World δ) (files j : Nat) : Event → Prop
  | .image a k => files ≤ a ∧ a + k ≤ files + j * 44
  | .inode i node m => i < j ∧ FileInode S w.mem (fileheader files i) m node i
  | .device _ => False

theorem Logged.step {S : System δ} {w : World δ} {files j : Nat} {e : Event}
    (h : Logged S w files j e) : Logged S w files (j + 1) e := by
  cases e with
  | image a k =>
    simp only [Logged] at h ⊢
    omega
  | inode i node m => exact ⟨Nat.lt_succ_of_lt h.1, h.2⟩
  | device no => exact h.elim

/-- Entries below `j` are filled in, those from `j` on are still zero. -/
structure FilesFilled (S : System δ) (files n : Nat) (w : World δ) (j : Nat) (v : World δ) :
    Prop where
  world : v = { w.setMem v.mem with trace := v.trace }
  frame : Frame [(w.rdFiles, (n + 1) * 76)] w.mem v.mem
  zero : ∀ y, w.rdFiles + j * 76 ≤ y → y < w.rdFiles + (n + 1) * 76 → v.mem y = 0
  made : ∀ i, i < j → FileInode S w.mem (fileheader files i) v.mem (entry w.rdFiles i) i
  log : ∃ l, v.trace = w.trace ++ l ∧ ∀ e ∈ l, Logged S w files j e

theorem roundLog_logged {S : System δ} {w : World δ} {files j k node : Nat} {m : Mem} (hk : k ≤ 32)
    (hmade : FileInode S w.mem (fileheader files j) m node j) :
    ∀ e ∈ roundLog (fileheader files j) node k j m, Logged S w files (j + 1) e := by
  intro e he
  simp only [roundLog, List.mem_cons, List.not_mem_nil, or_false] at he
  rcases he with rfl | rfl | rfl | rfl | rfl
  · simp only [Logged, fileheader]
    omega
  · simp only [Logged, fileName, fileheader]
    omega
  · simp only [Logged, fileheader]
    omega
  · simp only [Logged, fileheader]
    omega
  · exact ⟨Nat.lt_succ_self j, hmade⟩

/-- The parts of an inode that a round of `ramfs_init` writes to. -/
def roundAreas (node : Nat) : List (Nat × Nat) := [(node, 48), (node + 60, 16)]

theorem roundAreas_inode {node y : Nat} (h : y < node ∨ node + 76 ≤ y) :
    Outside (roundAreas node) y := by
  simp only [roundAreas, outside_cons, outside_nil, and_true]
  omega

/-- A round fills in the inode of one file, and nothing else. -/
theorem FilesFilled.inode {S : System δ} {fuel files n j : Nat} {w v : World δ}
    (h : FilesFilled S files n w j v) (hj : j < n) (hfuel : 32 ≤ fuel)
    (hbelow : w.rdFiles + (n + 1) * 76 ≤ 4294967296) (hnamed : Named w.mem (fileheader files j))
    (happ : Apart [(w.rdFiles, (n + 1) * 76)] (fileheader files j) 44) :
    ∃ k m, k ≤ 32 ∧ ramfsRound fuel S files j v =
        .ret () { v.setMem m with
          trace := v.trace ++ roundLog (fileheader files j) (entry w.rdFiles j) k j m } ∧
      Frame (roundAreas (entry w.rdFiles j)) v.mem m ∧
      FileInode S w.mem (fileheader files j) m (entry w.rdFiles j) j := by
  obtain ⟨hmagic, s, hs, hstr⟩ := hnamed
  let node := entry w.rdFiles j
  let file := fileheader files j
  have hv : v.rdFiles = w.rdFiles := by
    rw [h.world]
    rfl
  have hnode : Apart [(node, 76)] file 44 := by
    simp only [node, entry, apart_cons, apart_nil, and_true] at happ ⊢
    omega
  have hsub : ∀ y, Outside [(w.rdFiles, (n + 1) * 76)] y → Outside [(node, 76)] y := by
    intro y hy
    simp only [node, entry, outside_cons, outside_nil, and_true] at hy ⊢
    omega
  have hstrv : Str v.mem (fileName file) s :=
    h.frame.str hstr (happ.sub (Nat.le_add_right _ 4) (by simp only [fileName]; omega))
  have hmagicv : fileMagic v.mem file = RD_FILESIG :=
    (h.frame.load32 (happ.sub (Nat.le_refl _) (by omega))).trans hmagic
  let m := putString v.mem node s
  have hput : Frame [(node, 76)] v.mem m :=
    (Frame.refl _ v.mem).putString (Nat.le_refl node) (by omega)
  have hcopy : copyWhile fuel v.mem node (fileName file) = some (node + s.length + 1, m) := by
    refine copyWhile_str hstrv ?_ (by omega)
    simp only [fileName, apart_cons, apart_nil, and_true] at hnode ⊢
    omega
  have hchars : ∀ c ∈ s, c ≠ 0 := hstr.chars
  have hmade : FileInode S m file (fileInode S m node j file) node j :=
    fileInode_made S hnode (by omega) hs
      (hput.str hstrv (hnode.sub (Nat.le_add_right _ 4) (by simp only [fileName]; omega)))
      (putString_str hchars)
  have hround : Frame (roundAreas node) v.mem (fileInode S m node j file) := by
    intro y hy
    simp only [roundAreas, outside_cons, outside_nil, and_true] at hy
    by_cases hin : node + 48 ≤ y ∧ y < node + 60
    · exact (fileInode_hooks S m j file hin.1 hin.2).trans (putString_outside (by omega))
    · have hout : y < node ∨ node + 76 ≤ y := by omega
      refine (fileInode_frame S m node j file y ?_).trans (hput y (outside_single.mpr hout))
      rw [outside_single]
      omega
  have hmade₀ : FileInode S w.mem file (fileInode S m node j file) node j :=
    hmade.source fun y h1 h2 => ((h.frame.trans (hput.mono hsub)) y (happ.outside h1 h2)).symm
  have hrun := ramfsRound_ret (S := S) (w := v) (i := j) (by rw [hv]) rfl hmagicv hcopy
  exact ⟨node + s.length + 1 - node, _, by omega, hrun, hround, hmade₀⟩

theorem FilesFilled.round {S : System δ} {fuel files n j : Nat} {w v : World δ}
    (h : FilesFilled S files n w j v) (hj : j < n) (hfuel : 32 ≤ fuel)
    (hbelow : w.rdFiles + (n + 1) * 76 ≤ 4294967296) (hnamed : Named w.mem (fileheader files j))
    (happ : Apart [(w.rdFiles, (n + 1) * 76)] (fileheader files j) 44) :
    ∃ t, ramfsRound fuel S files j v = .ret () t ∧ FilesFilled S files n w (j + 1) t ∧
      Frame (roundAreas (entry w.rdFiles j)) v.mem t.mem := by
  obtain ⟨k, m, hk, hrun, hround, hmade⟩ := h.inode hj hfuel hbelow hnamed happ
  obtain ⟨l, hl, hlog⟩ := h.log
  refine ⟨_, hrun, ⟨?_, ?_, ?_, ?_, ?_⟩, hround⟩
  · rw [h.world]
    rfl
  · refine h.frame.trans (hround.mono fun y hy => roundAreas_inode ?_)
    simp only [entry, outside_cons, outside_nil, and_true] at hy ⊢
    omega
  · intro y h1 h2
    refine (hround y (roundAreas_inode ?_)).trans (h.zero y (by omega) h2)
    simp only [entry]
    omega
  · intro i hi
    by_cases hij : i = j
    · subst hij
      exact hmade
    · refine (h.made i (by omega)).congr fun y h1 h2 => hround y (roundAreas_inode ?_)
      simp only [entry] at h1 h2 ⊢
      omega
  · refine ⟨_, (congrArg (· ++ _) hl).trans (List.append_assoc _ _ _), fun e he => ?_⟩
    cases List.mem_append.mp he with
    | inl he => exact (hlog e he).step
    | inr he => exact roundLog_logged hk hmade e he

/-- The inodes below `j` are not called when they are opened, closed or written. -/
def Hookless (m : Mem) (p j : Nat) : Prop :=
  ∀ i, i < j → ∀ y, entry p i + 48 ≤ y → y < entry p i + 60 → m y = 0

/-- The rounds on headers with names fill in the inodes of their files. -/
theorem filesFilled_rounds (S : System δ) (files : Nat) {fuel n k : Nat} {w : World δ}
    (hfuel : 32 ≤ fuel) (hk : k ≤ n) (hbelow : w.rdFiles + (n + 1) * 76 ≤ 4294967296)
    (hzero : ∀ y, w.rdFiles ≤ y → y < w.rdFiles + (n + 1) * 76 → w.mem y = 0)
    (hnamed : ∀ j, j < k → Named w.mem (fileheader files j))
    (happ : ∀ j, j < k → Apart [(w.rdFiles, (n + 1) * 76)] (fileheader files j) 44) :
    ∃ u, forFrom (ramfsRound fuel S files) 0 k w = .ret () u ∧ FilesFilled S files n w k u ∧
      Hookless u.mem w.rdFiles k := by
  have hstart : FilesFilled S files n w 0 w :=
    ⟨rfl, Frame.refl _ _, fun y h1 h2 => hzero y (by omega) h2,
      fun i hi => absurd hi (Nat.not_lt_zero i), [], (List.append_nil _).symm, by simp⟩
  have hround : ∀ j s, 0 ≤ j → j < 0 + k →
      FilesFilled S files n w j s ∧ Hookless s.mem w.rdFiles j →
      ∃ t, ramfsRound fuel S files j s = .ret () t ∧
        FilesFilled S files n w (j + 1) t ∧ Hookless t.mem w.rdFiles (j + 1) := by
    intro j s _ hj hI
    obtain ⟨t, hrun, ht, hframe⟩ :=
      hI.1.round (by omega) hfuel hbelow (hnamed j (by omega)) (happ j (by omega))
    refine ⟨t, hrun, ht, fun i hi y h1 h2 => ?_⟩
    have hkept : t.mem y = s.mem y := by
      refine hframe y ?_
      simp only [entry] at h1 h2
      simp only [roundAreas, entry, outside_cons, outside_nil, and_true]
      omega
    rw [hkept]
    by_cases hij : i = j
    · subst hij
      simp only [entry] at h1 h2
      exact hI.1.zero y (by omega) (by omega)
    · exact hI.2 i (by omega) y h1 h2
  obtain ⟨u, hrun, hu⟩ := forFrom_ret hround
    ⟨hstart, fun i hi => absurd hi (Nat.not_lt_zero i)⟩
  rw [Nat.zero_add] at hu
  exact ⟨u, hrun, hu⟩

/-- The ramdisk device is open on the image at `img`. -/
structure Presented (S : System δ) (w : World δ) (img : Nat) : Prop where
  dev : S.devs[DEV_RAMDISK]? = some (ramdisk S.heap)
  opened : (w.devs DEV_RAMDISK).data ≠ 0
  addr : rdAddr w.mem (w.devs DEV_RAMDISK).data = img

/-- The state in which the signature is read. -/
def located (S : System δ) (w : World δ) (img : Nat) : World δ :=
  (w.setMem (store32 w.mem S.link.header img)).log (.image img 2)

theorem Presented.init {S : System δ} {w : World δ} {img : Nat} (h : Presented S w img)
    (fuel : Nat) : ramfsInit fuel S w =
      (if signature (located S w img).mem img ≠ RD_HEADSIG then pure 0
        else ramfsMount fuel S img) (located S w img) := by
  have himg : img < 4294967296 := h.addr ▸ load32_lt _ _
  have hget : devIoctl S.devs DEV_RAMDISK RD_GETADDR S.link.header w =
      .ret 0 (w.setMem (store32 w.mem S.link.header img)) := by
    rw [← h.addr, devIoctl, h.dev]
    exact ramdiskIoctl_getaddr h.opened _
  rw [ramfsInit, bind_ret hget, bind_ret (assert_pass (by decide) _)]
  simp only [ofMem_bind_run, World.setMem_mem, load32_store32, Nat.mod_eq_of_lt himg, image16,
    bind_assoc_run, note_bind_run]
  rfl

/-- The root directory, but for the number of its entries. -/
structure RootDir (S : System δ) (m : Mem) (root p : Nat) : Prop where
  name : Str m (name root) ramdiskName
  flags : flags m root = FS_DIR
  readdirPtr : readdirPtr m root = S.link.ramfsReaddir
  finddirPtr : finddirPtr m root = S.link.ramfsFinddir
  ptr : ptr m root = p

/-- What `ramfsRoot` writes. -/
def rootInode (S : System δ) (m : Mem) (root : Nat) : Mem :=
  let m := memset m root 0 inodeSize
  let m := putString m (name root) ramdiskName
  let m := setFlags m root FS_DIR
  let m := setReaddir m root S.link.ramfsReaddir
  setFinddir m root S.link.ramfsFinddir

theorem rootInode_frame (S : System δ) (m : Mem) (root : Nat) :
    Frame [(root, 76)] m (rootInode S m root) := by
  have h0 := (Frame.refl [(root, 76)] m).memset (c := 0) (k := inodeSize) (Nat.le_refl root)
    (Nat.le_refl _)
  have h1 := h0.putString (s := ramdiskName) (Nat.le_refl root)
    (show root + 7 < root + 76 by omega)
  have h2 := h1.store8 (v := UInt8.ofNat FS_DIR) (Nat.le_add_right root 32) (by omega)
  have h3 := h2.store32 (v := S.link.ramfsReaddir) (Nat.le_add_right root 64) (by omega)
  exact h3.store32 (v := S.link.ramfsFinddir) (Nat.le_add_right root 68) (by omega)

/-- The root keeps what `rootInode` wrote while only its pointer and its entry count change. -/
theorem RootDir.of_inode {S : System δ} {m m' : Mem} {root p : Nat}
    (h : ∀ y, root ≤ y → y < root + 72 → y < root + 44 ∨ root + 48 ≤ y →
      m' y = rootInode S m root y) (hptr : Fs.ptr m' root = p) : RootDir S m' root p := by
  have hcode : S.link.ramfsReaddir < 4294967296 ∧ S.link.ramfsFinddir < 4294967296 :=
    ⟨(S.link.code _ (by simp)).2, (S.link.code _ (by simp)).2⟩
  have hload : ∀ k, 48 ≤ k → k + 4 ≤ 72 →
      load32 m' (root + k) = load32 (rootInode S m root) (root + k) := fun k h1 h2 =>
    load32_congr fun y h3 h4 => h y (by omega) (by omega) (by omega)
  refine ⟨?_, ?_, ?_, ?_, hptr⟩
  · refine (putString_str (m := memset m root 0 inodeSize) (a := root)
      (chars_of_all (by decide : (ramdiskName.all fun c => c != 0) = true))).congr fun y h1 h2 => ?_
    have hy : y ≤ root + 7 := h2
    rw [h y h1 (by omega) (by omega), rootInode, setFinddir, setReaddir, setFlags,
      store32_outside _ _ _ _ (by omega), store32_outside _ _ _ _ (by omega),
      store8_ne _ _ _ _ (by omega)]
    rfl
  · rw [Fs.flags, h (root + 32) (by omega) (by omega) (by omega), rootInode, setFinddir,
      setReaddir, setFlags, store32_outside _ _ _ _ (by omega),
      store32_outside _ _ _ _ (by omega), store8_same]
    rfl
  · refine (hload 64 (by omega) (by omega)).trans ?_
    simp (disch := omega) only [rootInode, setFinddir, setReaddir, load32_store32,
      load32_store32_ne, Nat.mod_eq_of_lt]
  · refine (hload 68 (by omega) (by omega)).trans ?_
    simp (disch := omega) only [rootInode, setFinddir, load32_store32, Nat.mod_eq_of_lt]

theorem RootDir.congr {S : System δ} {m m' : Mem} {root p : Nat} (h : RootDir S m root p)
    (hm : ∀ y, root ≤ y → y < root + 76 → y < root + 44 ∨ root + 48 ≤ y → m' y = m y) :
    RootDir S m' root p := by
  have hload : ∀ k, 48 ≤ k → k + 4 ≤ 76 → load32 m' (root + k) = load32 m (root + k) :=
    fun k h1 h2 => load32_congr fun y h3 h4 => hm y (by omega) (by omega) (by omega)
  refine ⟨h.name.congr fun y h1 h2 => ?_, ?_, ?_, ?_, ?_⟩
  · have hy : y ≤ root + 7 := h2
    exact hm y h1 (by omega) (by omega)
  · rw [← h.flags, Fs.flags, Fs.flags, hm (root + 32) (by omega) (by omega) (by omega)]
  · exact (hload 64 (by omega) (by omega)).trans h.readdirPtr
  · exact (hload 68 (by omega) (by omega)).trans h.finddirPtr
  · exact (hload 72 (by omega) (by omega)).trans h.ptr

/-- The state before the first round of the loop. -/
structure Started (S : System δ) (fill : Mem → Nat → Nat → Prop) (w : World δ)
    (areas : List (Nat × Nat)) (img root p n : Nat) (v : World δ) : Prop where
  rdFiles : v.rdFiles = p
  rdRoot : v.rdRoot = root
  rdNfiles : v.rdNfiles = n
  fileBase : v.fileBase = n * 44 + 4
  devs : v.devs = w.devs
  trace : v.trace = w.trace ++ [.image (img + 2) 2, .image (img + 2) 2, .image (img + 2) 2]
  rootDir : RootDir S v.mem root p
  zero : ∀ y, p ≤ y → y < p + (n + 1) * 76 → v.mem y = 0
  kept : ∀ y, ¬ Outside areas y → v.mem y = w.mem y
  rootPos : root ≠ 0
  rootBelow : root + 76 ≤ 4294967296
  rootApart : Apart areas root 76
  filesPos : p ≠ 0
  filesBelow : p + (n + 1) * 76 ≤ 4294967296
  filesApart : Apart ((root, 76) :: areas) p ((n + 1) * 76)
  supplies : Supplies fill S.heap.kmalloca [(S.ndevs * 76, 0)] v.k
    ((p, (n + 1) * 76) :: (root, 76) :: areas)

/-- The requests that `ramfs_init` makes for an image of `n` files. -/
def mountRequests (S : System δ) (n : Nat) : List (Nat × Nat) :=
  [(76, 0), ((n + 1) * 76, 0), (S.ndevs * 76, 0)]

theorem nfiles_kept {m m' : Mem} {areas : List (Nat × Nat)} {img N : Nat}
    (himg : (img, N) ∈ areas) (hN : 4 ≤ N) (h : ∀ y, ¬ Outside areas y → m' y = m y) :
    load16 m' (img + 2) = nfiles m img := by
  have hin : ∀ y, img ≤ y → y < img + N → m' y = m y := fun y h1 h2 =>
    h y (not_outside.mpr ⟨_, himg, h1, h2⟩)
  rw [nfiles, load16, load16, hin (img + 2) (by omega) (by omega),
    hin (img + 2 + 1) (by omega) (by omega)]

theorem load16_lt (m : Mem) (a : Nat) : load16 m a < 65536 := by
  have h0 := (m a).toNat_lt
  have h1 := (m (a + 1)).toNat_lt
  unfold load16
  omega

theorem ramfsRoot_run {S : System δ} {w : World δ} {root : Nat} {k : Machine}
    (hk : S.heap.kmalloca w.k inodeSize 0 = some (root, k)) : ramfsRoot S w =
      .ret () (({ w with k := k, rdRoot := root } : World δ).setMem (rootInode S k.mem root)) := by
  rw [ramfsRoot, bind_ret (kmalloc_run hk)]
  rfl

theorem ramfsFiles_run {S : System δ} {w : World δ} {header n p : Nat} {k : Machine}
    (hn : load16 w.mem (header + 2) = n) (hmul : mul32 (n + 1) inodeSize = (n + 1) * 76)
    (hk : S.heap.kmalloca w.k ((n + 1) * 76) 0 = some (p, k))
    (hn' : load16 (setPtr k.mem w.rdRoot p) (header + 2) = n) : ramfsFiles S header w =
      .ret () ((((({ w with k := k, rdFiles := p } : World δ).log
        (.image (header + 2) 2)).log (.image (header + 2) 2)).setMem
          (memset (setPtr k.mem w.rdRoot p) p 0 ((n + 1) * 76)))) := by
  have hk' : S.heap.kmalloca (w.log (.image (header + 2) 2)).k ((n + 1) * 76) 0 = some (p, k) := hk
  simp only [ramfsFiles, image16, bind_assoc_run, note_bind_run, ofMem_bind_run, World.log_mem, hn,
    hmul]
  refine (bind_ret (kmalloc_run hk')).trans ?_
  simp only [modify_bind_run, read_bind_run, onMem_bind_run, bind_assoc_run, note_bind_run,
    ofMem_bind_run]
  have hn'' : mul32 (load16 (setPtr k.mem w.rdRoot p) (header + 2) + 1) inodeSize =
      (n + 1) * 76 := by rw [hn', hmul]
  rw [← hn'']
  rfl

theorem ramfsMount_start {S : System δ} {fill : Mem → Nat → Nat → Prop} {w : World δ}
    {areas : List (Nat × Nat)} {img N n : Nat} (fuel : Nat) (himg : (img, N) ∈ areas)
    (hN : 4 ≤ N) (hn : nfiles w.mem img = n)
    (hsup : Supplies fill S.heap.kmalloca (mountRequests S n) w.k areas) :
    ∃ root p v, ramfsMount fuel S img w =
        (forFrom (ramfsRound fuel S (img + headerSize)) 0 n >>= fun _ => ramfsFinish S n) v ∧
      Started S fill w areas img root p n v := by
  have hnlt : n < 65536 := hn ▸ load16_lt _ _
  have hmuln : add32 (mul32 n fileheaderSize) headerSize = n * 44 + 4 := by
    simp only [add32, mul32, fileheaderSize, headerSize]
    omega
  have hmul : mul32 (n + 1) inodeSize = (n + 1) * 76 := by
    simp only [mul32, inodeSize]
    omega
  obtain ⟨root, k₁, hk₁, hnew₁, -, hsup₁⟩ := hsup w.k fun _ _ => rfl
  let m₁ := rootInode S k₁.mem root
  have hroot : Frame [(root, 76)] k₁.mem m₁ := rootInode_frame S k₁.mem root
  have hrootin : Frame ((root, 76) :: areas) k₁.mem m₁ := hroot.mono fun y hy => by
    simp only [outside_cons, outside_nil, and_true] at hy ⊢
    exact hy.1
  have hkept₁ : ∀ y, ¬ Outside areas y → m₁ y = w.mem y := fun y hy => hnew₁.written hroot hy
  obtain ⟨p, k₂, hk₂, hnew₂, -, hsup₂⟩ := hsup₁ ⟨m₁, k₁.errno⟩ fun y hy => hrootin y hy
  have hp := hnew₂.below
  have hrootp := hnew₂.apart (root, 76) (List.mem_cons_self ..)
  let m₂ := setPtr k₂.mem root p
  let m₃ := memset m₂ p 0 ((n + 1) * 76)
  have hin : ∀ y, ¬ Outside areas y → ¬ Outside ((root, 76) :: areas) y := fun y hy h =>
    hy (outside_cons.mp h).2
  have hkept₂ : ∀ y, ¬ Outside areas y → m₂ y = w.mem y := by
    intro y hy
    have hne : Outside [(root, 76)] y := hnew₁.outside hy
    rw [outside_single] at hne
    exact (store32_outside _ _ _ _ (by omega)).trans ((hnew₂.keeps (hin y hy)).trans (hkept₁ y hy))
  have hfiles : Frame [(p, (n + 1) * 76)] m₂ m₃ :=
    (Frame.refl _ m₂).memset (Nat.le_refl p) (Nat.le_refl _)
  have happ₂ : ∀ y, ¬ Outside ((root, 76) :: areas) y → Outside [(p, (n + 1) * 76)] y :=
    fun y hy => hnew₂.outside hy
  have hrootin₂ : ∀ y, root ≤ y → y < root + 76 → ¬ Outside ((root, 76) :: areas) y :=
    fun y h1 h2 => not_outside.mpr ⟨(root, 76), List.mem_cons_self .., h1, h2⟩
  have hnw : load16 w.mem (img + 2) = n := hn
  have hn₁ : load16 m₁ (img + 2) = n := (nfiles_kept himg hN hkept₁).trans hn
  have hn₂ : load16 m₂ (img + 2) = n := (nfiles_kept himg hN hkept₂).trans hn
  let w₀ : World δ := { w.log (.image (img + 2) 2) with rdNfiles := n }
  let w₁ : World δ := { w₀ with fileBase := add32 (mul32 n fileheaderSize) headerSize }
  let w₂ : World δ := ({ w₁ with k := k₁, rdRoot := root } : World δ).setMem m₁
  let w₃ : World δ := { w₂ with k := k₂, rdFiles := p }
  let v := ((w₃.log (.image (img + 2) 2)).log (.image (img + 2) 2)).setMem m₃
  have hrun₂ : ramfsFiles S img w₂ = .ret () v := ramfsFiles_run hn₁ hmul hk₂ hn₂
  refine ⟨root, p, v, ?_, ⟨rfl, rfl, rfl, hmuln, rfl, ?_, .of_inode (m := k₁.mem)
    (fun y h1 h2 h3 => ?_) ?_, fun y h1 h2 => memset_inside h1 h2, fun y hy => ?_, hnew₁.nonzero,
    hnew₁.below, hnew₁.apart, hnew₂.nonzero, hp, hnew₂.apart, ?_⟩⟩
  · simp only [ramfsMount, image16, bind_assoc_run, note_bind_run, ofMem_bind_run, modify_bind_run,
      World.log_mem, hnw]
    exact (bind_ret (ramfsRoot_run (w := w₁) hk₁)).trans (bind_ret hrun₂)
  · simp [v, w₃, w₂, w₁, w₀]
  · calc m₃ y = m₂ y := hfiles y (happ₂ y (hrootin₂ y h1 (by omega)))
      _ = k₂.mem y := store32_outside _ _ _ _ (by omega)
      _ = m₁ y := hnew₂.keeps (hrootin₂ y h1 (by omega))
  · have hptr₂ : ptr m₂ root = p :=
      (load32_store32 k₂.mem (root + 72) p).trans (Nat.mod_eq_of_lt (by omega))
    refine (hfiles.load32 fun r hr => ?_).trans hptr₂
    rw [List.mem_singleton.mp hr]
    omega
  · exact (hfiles y (happ₂ y (hin y hy))).trans (hkept₂ y hy)
  · refine hsup₂.agree fun y hy => ?_
    simp only [outside_cons] at hy
    refine (hfiles y ?_).trans (store32_outside _ _ _ _ (by omega))
    rw [outside_single]
    exact hy.1

/-- The state in which `ramfs_init` returns. -/
structure Finished (S : System δ) (m₀ : Mem) (files root p q n : Nat) (t : World δ) : Prop where
  rootDir : RootDir S t.mem root p
  rootImpl : impl t.mem root = n + 1
  files : ∀ i, i < n → FileInode S m₀ (fileheader files i) t.mem (entry p i) i
  dev : DevDir S t.mem (entry p n) q
  fileBase : t.fileBase = n * 44 + 4

theorem devNode_frame (S : System δ) (m : Mem) (node n : Nat) :
    Frame [(node, 76)] m (setReaddir (setFinddir (setIno m node n) node S.link.ramfsFinddir) node
      S.link.ramfsReaddir) := by
  have h1 := (Frame.refl [(node, 76)] m).store32 (v := n) (Nat.le_add_right node 40) (by omega)
  have h2 := h1.store32 (v := S.link.ramfsFinddir) (Nat.le_add_right node 68) (by omega)
  exact h2.store32 (v := S.link.ramfsReaddir) (Nat.le_add_right node 64) (by omega)

/-- `devfs_init` has made the last inode a directory; the number of files completes the root. -/
theorem Started.finished {S : System δ} {fill : Mem → Nat → Nat → Prop} {w w₁ v u : World δ}
    {areas : List (Nat × Nat)} {img files root p n q : Nat}
    (hs : Started S fill w areas img root p n w₁) (hv : FilesFilled S files n w₁ n v)
    (hbase : u.fileBase = n * 44 + 4) (hdir : DevDir S u.mem (entry p n) q)
    (hqapart : Apart ((p, (n + 1) * 76) :: (root, 76) :: areas) q (S.ndevs * 76))
    (hum : ∀ y, ¬ Outside ((p, (n + 1) * 76) :: (root, 76) :: areas) y →
      (y < entry p n ∨ entry p n + 76 ≤ y) → u.mem y = v.mem y) :
    Finished S w₁.mem files root p q n (u.setMem (setImpl u.mem root (n + 1))) ∧
      (∀ y, ¬ Outside areas y → setImpl u.mem root (n + 1) y = w.mem y) ∧
      ∀ y, p ≤ y → y < entry p n → setImpl u.mem root (n + 1) y = v.mem y := by
  have hpb := hs.filesBelow
  have hrp := hs.filesApart (root, 76) (List.mem_cons_self ..)
  have hne : entry p n = p + n * 76 := rfl
  have hrootIn : ∀ y, root ≤ y → y < root + 76 →
      ¬ Outside ((p, (n + 1) * 76) :: (root, 76) :: areas) y :=
    fun y h1 h2 => not_outside.mpr ⟨(root, 76), by simp, h1, h2⟩
  have hfilesIn : ∀ y, p ≤ y → y < p + (n + 1) * 76 →
      ¬ Outside ((p, (n + 1) * 76) :: (root, 76) :: areas) y :=
    fun y h1 h2 => not_outside.mpr ⟨_, List.mem_cons_self .., h1, h2⟩
  have htm : ∀ y, y < root + 44 ∨ root + 48 ≤ y → setImpl u.mem root (n + 1) y = u.mem y :=
    fun y hy => store32_outside _ _ _ _ (by omega)
  have hvm : ∀ y, y < p ∨ p + (n + 1) * 76 ≤ y → v.mem y = w₁.mem y := fun y hy =>
    hv.frame y (by rw [hs.rdFiles, outside_single]; exact hy)
  have hfiles : ∀ y, p ≤ y → y < entry p n → setImpl u.mem root (n + 1) y = v.mem y :=
    fun y h1 h2 => (htm y (by omega)).trans (hum y (hfilesIn y h1 (by omega)) (by omega))
  refine ⟨⟨?_, ?_, fun i hi => ?_, ?_, hbase⟩, fun y hy => ?_, hfiles⟩
  · refine hs.rootDir.congr fun y h1 h2 h3 => ?_
    exact (htm y h3).trans ((hum y (hrootIn y h1 h2) (by omega)).trans (hvm y (by omega)))
  · exact (load32_store32 _ _ _).trans (Nat.mod_eq_of_lt (by omega))
  · have hmade := hv.made i hi
    rw [hs.rdFiles] at hmade
    refine hmade.congr fun y h1 h2 => ?_
    simp only [entry] at h1 h2
    exact hfiles y (by omega) (by omega)
  · have hqr := hqapart (root, 76) (by simp)
    exact hdir.congr (fun y h1 h2 => htm y (by omega)) fun y h1 h2 => htm y (by omega)
  · obtain ⟨r, hr, h1, h2⟩ := not_outside.mp hy
    have hra := hs.rootApart r hr
    have hfa := hs.filesApart r (List.mem_cons_of_mem _ hr)
    have hin : ¬ Outside ((p, (n + 1) * 76) :: (root, 76) :: areas) y :=
      not_outside.mpr ⟨r, by simp [hr], h1, h2⟩
    rw [htm y (by omega), hum y hin (by omega), hvm y (by omega), hs.kept y hy]

/-- The directory of devices can be searched and listed. -/
structure DevHooks (S : System δ) (m : Mem) (node : Nat) : Prop where
  size : size m node = 0
  readdirPtr : readdirPtr m node = S.link.ramfsReaddir
  finddirPtr : finddirPtr m node = S.link.ramfsFinddir

theorem DevHooks.of_node {S : System δ} {m m' : Mem} {node n : Nat}
    (hz : ∀ y, node + 36 ≤ y → y < node + 40 → m y = 0)
    (hm : ∀ y, node + 36 ≤ y → y < node + 72 → m' y = devDirHead S (setReaddir (setFinddir
      (setIno m node n) node S.link.ramfsFinddir) node S.link.ramfsReaddir) node y) :
    DevHooks S m' node := by
  have hcode : S.link.ramfsReaddir < 4294967296 ∧ S.link.ramfsFinddir < 4294967296 :=
    ⟨(S.link.code _ (by simp)).2, (S.link.code _ (by simp)).2⟩
  generalize hm₁ : setReaddir (setFinddir (setIno m node n) node S.link.ramfsFinddir) node
    S.link.ramfsReaddir = m₁ at hm
  have hlen : devName.length = 3 := rfl
  have hname : ∀ y, node + 36 ≤ y → y < node + 44 ∨ node + 48 ≤ y → devDirHead S m₁ node y = m₁ y := by
    intro y h1 h2
    rw [devDirHead, setImpl, setFlags, name, store32_outside _ _ _ _ (by omega),
      store8_ne _ _ _ _ (by omega), putString_outside (by omega)]
  have hload : ∀ k, 36 ≤ k → k + 4 ≤ 44 ∨ 48 ≤ k → k + 4 ≤ 72 →
      load32 m' (node + k) = load32 m₁ (node + k) := fun k h1 h2 h3 =>
    load32_congr fun y h4 h5 => (hm y (by omega) (by omega)).trans (hname y (by omega) (by omega))
  refine ⟨(hload 36 (by omega) (by omega) (by omega)).trans (load32_zero fun y h1 h2 => ?_),
    (hload 64 (by omega) (by omega) (by omega)).trans ?_,
    (hload 68 (by omega) (by omega) (by omega)).trans ?_⟩
  · rw [← hm₁, setReaddir, setFinddir, setIno, store32_outside _ _ _ _ (by omega),
      store32_outside _ _ _ _ (by omega), store32_outside _ _ _ _ (by omega)]
    exact hz y h1 h2
  · rw [← hm₁, setReaddir, load32_store32, Nat.mod_eq_of_lt hcode.1]
  · rw [← hm₁, setReaddir, setFinddir, load32_store32_ne _ _ _ _ (by omega), load32_store32,
      Nat.mod_eq_of_lt hcode.2]

theorem ramfsFinish_exact {S : System δ} {fill : Mem → Nat → Nat → Prop} {w w₁ v : World δ}
    {areas : List (Nat × Nat)} {img files root p n : Nat}
    (hs : Started S fill w areas img root p n w₁) (hv : FilesFilled S files n w₁ n v)
    (hdevs : 0 < S.ndevs) :
    ∃ q t, ramfsFinish S n v = .ret root t ∧ Finished S w₁.mem files root p q n t ∧
      Apart ((p, (n + 1) * 76) :: (root, 76) :: areas) q (S.ndevs * 76) ∧
      t.devs = w.devs ∧ t.trace = v.trace ∧ DevHooks S t.mem (entry p n) ∧ q ≠ 0 ∧
      (∀ y, ¬ Outside areas y → t.mem y = w.mem y) ∧
      ∀ y, p ≤ y → y < entry p n → t.mem y = v.mem y := by
  have hpb := hs.filesBelow
  let node := entry p n
  have hfiles : v.rdFiles = p := by
    rw [hv.world]
    exact hs.rdFiles
  have hroot : v.rdRoot = root := by
    rw [hv.world]
    exact hs.rdRoot
  have hcount : v.rdNfiles = n := by
    rw [hv.world]
    exact hs.rdNfiles
  have hbase : v.fileBase = n * 44 + 4 := by
    rw [hv.world]
    exact hs.fileBase
  have hdevst : v.devs = w.devs := by
    rw [hv.world]
    exact hs.devs
  have hn : add32 n 1 = n + 1 := add32_of_lt (by omega)
  let m₁ := setReaddir (setFinddir (setIno v.mem node n) node S.link.ramfsFinddir) node
    S.link.ramfsReaddir
  let v₁ : World δ := { v with rdNfiles := n + 1, rdFiles := p }
  have hnode : Frame [(node, 76)] v.mem m₁ := devNode_frame S v.mem node n
  have hheld : Frame ((p, (n + 1) * 76) :: (root, 76) :: areas) w₁.mem m₁ := by
    refine (hs.rdFiles ▸ hv.frame).mono (fun y hy => ?_) |>.trans (hnode.mono fun y hy => ?_)
    · exact outside_cons.mpr ⟨(outside_cons.mp hy).1, outside_nil⟩
    · simp only [outside_cons] at hy
      simp only [node, entry, outside_cons, outside_nil, and_true]
      omega
  obtain ⟨q, u, hu, hueq, hdir, hqapart, -, hq, hexact⟩ := devfsInit_exact (w := v₁.setMem m₁) hdevs
    (show node ≠ 0 by have := hs.filesPos; simp only [node, entry]; omega)
    ⟨(p, (n + 1) * 76), List.mem_cons_self .., by simp only [node, entry]; omega,
      by simp only [node, entry]; omega⟩
    (hs.supplies.agree hheld)
  have huf : u.rdRoot = root ∧ u.rdNfiles = n + 1 ∧ u.fileBase = n * 44 + 4 ∧ u.devs = w.devs ∧
      u.trace = v.trace := by
    rw [hueq]
    exact ⟨hroot, rfl, hbase, hdevst, rfl⟩
  obtain ⟨hur, hun, hub, hud, hut⟩ := huf
  have hrun : ramfsFinish S n v = .ret root (u.setMem (setImpl u.mem root (n + 1))) := by
    simp only [ramfsFinish, ramfsDev, bind_assoc_run, modify_bind_run, read_bind_run,
      onMem_bind_run, hcount, hn]
    refine (bind_ret (t := u) (a := 0) ?_).trans ?_
    · rw [← hu]
      simp only [World.setMem_mem, World.setMem_setMem, hfiles]
      rfl
    · simp only [pure_bind_run, read_bind_run, onMem_bind_run, hur, hun]
      rfl
  obtain ⟨hfin, hkept⟩ := hs.finished hv hub hdir hqapart fun y hy hny => by
    refine (hexact y hy ?_).trans ((devDirHead_frame S m₁ node y ?_).trans (hnode y ?_))
    all_goals
      rw [outside_single]
      omega
  have hhooks : DevHooks S (u.setMem (setImpl u.mem root (n + 1))).mem node := by
    have hrp := hs.filesApart (root, 76) (List.mem_cons_self ..)
    have hne : node = p + n * 76 := rfl
    refine .of_node (m := v.mem) (n := n) (fun y h1 h2 => ?_) fun y h1 h2 => ?_
    · have hzero := hv.zero y
      rw [hs.rdFiles] at hzero
      exact hzero (by omega) (by omega)
    · refine (store32_outside _ _ _ _ (by omega)).trans (hexact y ?_ ?_)
      · exact not_outside.mpr ⟨_, List.mem_cons_self .., by omega, by omega⟩
      · rw [outside_single]
        omega
  exact ⟨q, _, hrun, hfin, hqapart, hud, hut, hhooks, hq, hkept⟩

theorem ramfsFinish_run {S : System δ} {fill : Mem → Nat → Nat → Prop} {w w₁ v : World δ}
    {areas : List (Nat × Nat)} {img files root p n : Nat}
    (hs : Started S fill w areas img root p n w₁) (hv : FilesFilled S files n w₁ n v)
    (hdevs : 0 < S.ndevs) :
    ∃ q t, ramfsFinish S n v = .ret root t ∧ Finished S w₁.mem files root p q n t ∧
      Apart ((p, (n + 1) * 76) :: (root, 76) :: areas) q (S.ndevs * 76) ∧
      t.devs = w.devs ∧ t.trace = v.trace ∧ (∀ y, ¬ Outside areas y → t.mem y = w.mem y) ∧
      ∀ y, p ≤ y → y < entry p n → t.mem y = v.mem y := by
  obtain ⟨q, t, hrun, hfin, hqapart, hud, hut, -, -, hkept⟩ := ramfsFinish_exact hs hv hdevs
  exact ⟨q, t, hrun, hfin, hqapart, hud, hut, hkept⟩

end Foos.Fs
