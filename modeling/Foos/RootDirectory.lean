import Foos.ImageCheck
import Foos.Occurrence

/-! What `ramfs_init` mounts: the root directory with an inode for each file header of the image,
of any offset and size, and the directory of devices behind them. Looking a name up there finds
the first entry of that name, and a read of a file copies as many bytes as its header says. -/
namespace Foos.Fs
open Program ByteMemory Word32 CString Libc Kmalloc Occurrence

variable {δ : Type}

/-- What a file header of an image says. -/
structure Header where
  name : List UInt8
  offset : Nat
  size : Nat
  short : name.length ≤ 31
  chars : ∀ c ∈ name, c ≠ 0

/-- Where the offsets of an image of `n` files count from. -/
def fileBase (n : Nat) : Nat := n * 44 + 4

/-- The header at `file` is `f`. -/
structure Declares (m : Mem) (file : Nat) (f : Header) : Prop where
  magic : fileMagic m file = RD_FILESIG
  name : Str m (fileName file) f.name
  offset : fileOffset m file = f.offset
  size : fileSize m file = f.size

/-- The `N` bytes at `img` begin with the table of these headers. -/
structure Tabled (m : Mem) (img N : Nat) (files : List Header) : Prop where
  signature : signature m img = RD_HEADSIG
  count : nfiles m img = files.length
  file : ∀ i f, files[i]? = some f → Declares m (fileheader (img + headerSize) i) f
  table : fileBase files.length ≤ N

/-- The inode at `node` stands for the file of the header. -/
structure FileEntry (S : System δ) (m : Mem) (node : Nat) (f : Header) : Prop where
  name : Str m (name node) f.name
  flags : flags m node = FS_FILE
  impl : impl m node = f.offset
  size : size m node = f.size
  openPtr : openPtr m node = 0
  closePtr : closePtr m node = 0
  readPtr : readPtr m node = S.link.ramfsRead

/-- The root directory at `root` has these entries, their inodes at `p`, and the ramdisk is open
on their image. -/
structure Rooted (S : System δ) (files : List Header) (root p rd img : Nat) (w : World δ) :
    Prop where
  data : (w.devs DEV_RAMDISK).data = rd
  opened : rd ≠ 0
  addr : rdAddr w.mem rd = img
  base : w.fileBase = fileBase files.length
  filesPos : p ≠ 0
  rootDir : RootDir S w.mem root p
  rootImpl : impl w.mem root = files.length + 1
  file : ∀ i f, files[i]? = some f → FileEntry S w.mem (entry p i) f
  lastName : Str w.mem (name (entry p files.length)) devName
  lastFlags : flags w.mem (entry p files.length) = FS_DIR

/-- What clients leave alone: the inodes of the root directory, the ramdisk's driver state and
its image. -/
def heldBy (root p n rd img N : Nat) : List (Nat × Nat) :=
  [(root, 76), (p, (n + 1) * 76), (rd, 8), (img, N)]

/-- The held areas keep their bytes, the devices their data. -/
structure Keeps (held : List (Nat × Nat)) (w w' : World δ) : Prop where
  mem : ∀ y, ¬ Outside held y → w'.mem y = w.mem y
  data : ∀ no, (w'.devs no).data = (w.devs no).data
  fileBase : w'.fileBase = w.fileBase

theorem Keeps.refl (held : List (Nat × Nat)) (w : World δ) : Keeps held w w :=
  ⟨fun _ _ => rfl, fun _ => rfl, rfl⟩

theorem Keeps.trans {held : List (Nat × Nat)} {w w' w'' : World δ} (h : Keeps held w w')
    (h' : Keeps held w' w'') : Keeps held w w'' :=
  ⟨fun y hy => (h'.mem y hy).trans (h.mem y hy), fun no => (h'.data no).trans (h.data no),
    h'.fileBase.trans h.fileBase⟩

theorem Declares.named {m : Mem} {file : Nat} {f : Header} (h : Declares m file f) :
    Named m file :=
  ⟨h.magic, f.name, Nat.lt_succ_of_le f.short, h.name⟩

theorem Declares.congr {m m' : Mem} {file : Nat} {f : Header} (h : Declares m file f)
    (hm : ∀ y, file ≤ y → y < file + 44 → m' y = m y) : Declares m' file f := by
  have hshort := f.short
  have hload : ∀ k, k + 4 ≤ 44 → load32 m' (file + k) = load32 m (file + k) := fun k hk =>
    load32_congr fun y h1 h2 => hm y (by omega) (by omega)
  refine ⟨(load32_congr fun y h1 h2 => hm y h1 (by omega)).trans h.magic,
    h.name.congr fun y h1 h2 => ?_, (hload 36 (by omega)).trans h.offset,
    (hload 40 (by omega)).trans h.size⟩
  simp only [fileName] at h1 h2
  exact hm y (by omega) (by omega)

theorem FileEntry.congr {S : System δ} {m m' : Mem} {node : Nat} {f : Header}
    (h : FileEntry S m node f) (hm : ∀ y, node ≤ y → y < node + 76 → m' y = m y) :
    FileEntry S m' node f := by
  have hshort := f.short
  have hload : ∀ k, k + 4 ≤ 76 → load32 m' (node + k) = load32 m (node + k) := fun k hk =>
    load32_congr fun y h1 h2 => hm y (by omega) (by omega)
  refine ⟨h.name.congr fun y h1 h2 => ?_, ?_, (hload 44 (by omega)).trans h.impl,
    (hload 36 (by omega)).trans h.size, (hload 48 (by omega)).trans h.openPtr,
    (hload 52 (by omega)).trans h.closePtr, (hload 60 (by omega)).trans h.readPtr⟩
  · simp only [Fs.name] at h1 h2
    exact hm y h1 (by omega)
  · rw [← h.flags, Fs.flags, Fs.flags, hm (node + 32) (by omega) (by omega)]

/-- An inode that a round has filled in as its header says. -/
theorem FileInode.entry {S : System δ} {m₀ m : Mem} {file node i : Nat} {f : Header}
    (h : FileInode S m₀ file m node i) (hf : Declares m₀ file f)
    (hhooks : ∀ y, node + 48 ≤ y → y < node + 60 → m y = 0) : FileEntry S m node f := by
  obtain ⟨s, -, hstr, hname⟩ := h.name
  exact ⟨hstr.unique hf.name ▸ hname, h.flags, h.impl.trans hf.offset, h.size.trans hf.size,
    load32_zero fun y h1 h2 => hhooks y h1 (by omega),
    load32_zero fun y h1 h2 => hhooks y (by omega) (by omega), h.readPtr⟩

section
variable {S : System δ} {files : List Header} {root p rd img N : Nat} {w w' : World δ}

/-- An image's table is read from its bytes alone. -/
theorem Tabled.congr {m m' : Mem} (h : Tabled m img N files)
    (hm : ∀ y, img ≤ y → y < img + N → m' y = m y) : Tabled m' img N files := by
  have htable := h.table
  simp only [fileBase] at htable
  have h16 : ∀ k, k + 2 ≤ 4 → load16 m' (img + k) = load16 m (img + k) := fun k hk => by
    rw [load16, load16, hm (img + k) (by omega) (by omega), hm (img + k + 1) (by omega) (by omega)]
  refine ⟨(h16 0 (by omega)).trans h.signature, (h16 2 (by omega)).trans h.count,
    fun i f hf => ?_, h.table⟩
  have hi : i < files.length := (List.getElem?_eq_some_iff.mp hf).1
  refine (h.file i f hf).congr fun y h1 h2 => ?_
  simp only [fileheader, headerSize] at h1 h2
  exact hm y (by omega) (by omega)

/-- The held areas as they are: an area, and an entry of the table. -/
theorem held_area {n y : Nat} {r : Nat × Nat}
    (hm : ∀ y, ¬ Outside (heldBy root p n rd img N) y → w'.mem y = w.mem y)
    (hr : r ∈ heldBy root p n rd img N) (h1 : r.1 ≤ y) (h2 : y < r.1 + r.2) :
    w'.mem y = w.mem y := hm y (not_outside.mpr ⟨r, hr, h1, h2⟩)

theorem held_entry {n i y : Nat}
    (hm : ∀ y, ¬ Outside (heldBy root p n rd img N) y → w'.mem y = w.mem y) (hi : i < n + 1)
    (h1 : entry p i ≤ y) (h2 : y < entry p i + 76) : w'.mem y = w.mem y := by
  simp only [entry] at h1 h2
  have hin : (p, (n + 1) * 76) ∈ heldBy root p n rd img N := by simp [heldBy]
  exact held_area hm hin (by omega) (by omega)

theorem Rooted.keeps (h : Rooted S files root p rd img w)
    (hk : Keeps (heldBy root p files.length rd img N) w w') : Rooted S files root p rd img w' := by
  have hroot : ∀ y, root ≤ y → y < root + 76 → w'.mem y = w.mem y :=
    fun y => held_area hk.mem (r := (root, 76)) (by simp [heldBy])
  have hent : ∀ i, i < files.length + 1 → ∀ y, entry p i ≤ y → y < entry p i + 76 →
      w'.mem y = w.mem y := fun i hi y => held_entry hk.mem hi
  have hdev := hent files.length (Nat.lt_succ_self _)
  refine ⟨(hk.data _).trans h.data, h.opened, ?_, hk.fileBase.trans h.base, h.filesPos,
    h.rootDir.congr fun y h1 h2 _ => hroot y h1 h2, ?_, fun i f hf => ?_,
    h.lastName.congr fun y h1 h2 => hdev y h1 ?_, ?_⟩
  · refine Eq.trans (load32_congr fun y h1 h2 => ?_) h.addr
    have hrd : (rd, 8) ∈ heldBy root p files.length rd img N := by simp [heldBy]
    exact held_area hk.mem hrd h1 (Nat.lt_trans h2 (by omega))
  · exact Eq.trans (load32_congr fun y h1 h2 => hroot y (by omega) (by omega)) h.rootImpl
  · have hi : i < files.length := (List.getElem?_eq_some_iff.mp hf).1
    exact (h.file i f hf).congr (hent i (Nat.lt_succ_of_lt hi))
  · have hlen : devName.length = 3 := rfl
    simp only [Fs.name, hlen] at h2
    omega
  · rw [← h.lastFlags, Fs.flags, Fs.flags, hdev _ (by omega) (by omega)]

/-- The device table does not matter to the directory. -/
theorem Rooted.relink {S' : System δ} (h : Rooted S files root p rd img w)
    (hlink : S'.link = S.link) : Rooted S' files root p rd img w := by
  have hdir := h.rootDir
  refine ⟨h.data, h.opened, h.addr, h.base, h.filesPos, ⟨hdir.name, hdir.flags, ?_, ?_, hdir.ptr⟩,
    h.rootImpl, fun i f hf => ?_, h.lastName, h.lastFlags⟩
  · rw [hlink]
    exact hdir.readdirPtr
  · rw [hlink]
    exact hdir.finddirPtr
  · have hfile := h.file i f hf
    exact ⟨hfile.name, hfile.flags, hfile.impl, hfile.size, hfile.openPtr, hfile.closePtr,
      hlink ▸ hfile.readPtr⟩

/-- The objects that `ramfs_init` works with stand apart from each other. -/
def mountAreas (S : System δ) (rd img N : Nat) : List (Nat × Nat) :=
  [(rd, ramdiskSize), (S.link.header, 4), (S.link.dirent, direntSize), (img, N)]

def AllApart (areas : List (Nat × Nat)) : Prop :=
  areas.Pairwise fun r s => r.1 + r.2 ≤ s.1 ∨ s.1 + s.2 ≤ r.1

instance (areas : List (Nat × Nat)) : Decidable (AllApart areas) :=
  inferInstanceAs (Decidable (areas.Pairwise _))

/-- What the end of `ramfs_init` has to do with the headers. -/
theorem Finished.rooted {m₀ : Mem} {q : Nat} {t : World δ}
    (h : Finished S m₀ (img + headerSize) root p q files.length t) (hp : p ≠ 0) (hrd : rd ≠ 0)
    (hdata : (t.devs DEV_RAMDISK).data = rd) (haddr : rdAddr t.mem rd = img)
    (hsource : Tabled m₀ img N files) (hhooks : Hookless t.mem p files.length) :
    Rooted S files root p rd img t := by
  refine ⟨hdata, hrd, haddr, h.fileBase, hp, h.rootDir, h.rootImpl, fun i f hf => ?_, h.dev.name,
    h.dev.flags⟩
  have hi : i < files.length := (List.getElem?_eq_some_iff.mp hf).1
  exact (h.files i hi).entry (hsource.file i f hf) (hhooks i hi)

/-- The directory of devices at `node`, its inodes at `q`, in memory of its own. -/
structure DevRooted (S : System δ) (areas : List (Nat × Nat)) (q : Nat) (m : Mem) (node : Nat) :
    Prop where
  dir : DevDir S m node q
  hooks : DevHooks S m node
  pos : q ≠ 0
  apart : Apart areas q (S.ndevs * 76)

/-- `ramfs_init` mounts the files that the table of its image lists, with the directory of devices
behind them, and leaves the image and what else is held alone. -/
theorem Tabled.rooted_devices {fill : Mem → Nat → Nat → Prop} {areas : List (Nat × Nat)} {fuel : Nat}
    (hfuel : 32 ≤ fuel) (h : Tabled w.mem img N files) (hpres : Presented S w img)
    (hrd : (w.devs DEV_RAMDISK).data = rd) (hdis : AllApart (mountAreas S rd img N))
    (hareas : ∀ r ∈ mountAreas S rd img N, r ∈ areas)
    (hsup : Supplies fill S.heap.kmalloca (mountRequests S files.length) w.k areas) :
    ∃ root p q t, ramfsInit fuel S w = .ret root t ∧ root ≠ 0 ∧
      Rooted S files root p rd img t ∧ Apart areas root 76 ∧
      Apart ((root, 76) :: areas) p ((files.length + 1) * 76) ∧
      DevRooted S ((p, (files.length + 1) * 76) :: (root, 76) :: areas) q t.mem
        (entry p files.length) ∧ t.devs = w.devs ∧
      ∀ y, ¬ Outside areas y → Outside [(S.link.header, 4)] y → t.mem y = w.mem y := by
  have htable := h.table
  simp only [fileBase] at htable
  obtain ⟨hrdApart, hdis'⟩ := List.pairwise_cons.mp hdis
  obtain ⟨hslot, -⟩ := List.pairwise_cons.mp hdis'
  have hrdSlot := hrdApart (S.link.header, 4) (by simp)
  have hslotImg := hslot (img, N) (by simp)
  have hkept₀ : ∀ y, y < S.link.header ∨ S.link.header + 4 ≤ y →
      (located S w img).mem y = w.mem y := fun y hy => store32_outside _ _ _ _ hy
  have himg₀ : ∀ y, img ≤ y → y < img + N → (located S w img).mem y = w.mem y :=
    fun y h1 h2 => hkept₀ y (by omega)
  have hlaid₀ : Tabled (located S w img).mem img N files := h.congr himg₀
  have hslotIn := hareas (S.link.header, 4) (by simp [mountAreas])
  have himgIn := hareas (img, N) (by simp [mountAreas])
  obtain ⟨root, p, v, hrun, hstart⟩ := ramfsMount_start (S := S) (w := located S w img)
    fuel himgIn (by omega) hlaid₀.count (hsup.agree fun y hy => hkept₀ y (hy _ hslotIn))
  have hin : ∀ r ∈ areas, ∀ y, r.1 ≤ y → y < r.1 + r.2 → ¬ Outside areas y :=
    fun r hr y h1 h2 => not_outside.mpr ⟨r, hr, h1, h2⟩
  have hlaidv : Tabled v.mem img N files :=
    hlaid₀.congr fun y h1 h2 => hstart.kept y (hin _ himgIn y h1 h2)
  have hfiles : Apart areas p ((files.length + 1) * 76) :=
    fun r hr => hstart.filesApart r (List.mem_cons_of_mem _ hr)
  have hpImg := hfiles _ himgIn
  obtain ⟨u, hloop, hu, hhooks⟩ := filesFilled_rounds S (img + headerSize) hfuel
    (Nat.le_refl files.length) (hstart.rdFiles ▸ hstart.filesBelow) (hstart.rdFiles ▸ hstart.zero)
    (fun j hj => (hlaidv.file j _ (List.getElem?_eq_getElem hj)).named) fun j hj => by
      rw [hstart.rdFiles]
      simp only [fileheader, headerSize, apart_cons, apart_nil, and_true]
      simp only at hpImg
      omega
  have hdevs : 0 < S.ndevs := by
    have := (List.getElem?_eq_some_iff.mp hpres.dev).1
    simp only [System.ndevs]
    omega
  obtain ⟨q, t, hfin, hdone, hqapart, hdevst, -, hnode, hq, hkept, hentries⟩ :=
    ramfsFinish_exact hstart hu hdevs
  have haddr : rdAddr t.mem rd = img := by
    refine Eq.trans (load32_congr fun y h1 h2 => ?_) (hrd ▸ hpres.addr)
    have hy := hin _ (hareas (rd, ramdiskSize) (by simp [mountAreas])) y h1
      (by simp only [ramdiskSize]; omega)
    simp only [ramdiskSize] at hrdSlot
    exact (hkept y hy).trans (hkept₀ y (by omega))
  have hhookst : Hookless t.mem p files.length := by
    intro i hi y h1 h2
    rw [hstart.rdFiles] at hhooks
    simp only [entry] at h1 h2
    rw [hentries y (by omega) (by simp only [entry]; omega)]
    exact hhooks i hi y h1 h2
  refine ⟨root, p, q, t, ?_, hstart.rootPos, hdone.rooted hstart.filesPos (hrd ▸ hpres.opened)
    (congrFun hdevst _ ▸ hrd) haddr hlaidv hhookst, hstart.rootApart, hstart.filesApart,
    ⟨hdone.dev, hnode, hq, hqapart⟩, hdevst,
    fun y hy hslot => (hkept y hy).trans (hkept₀ y (outside_single.mp hslot))⟩
  have hsig := hlaid₀.signature
  rw [hpres.init, if_neg (fun h => h hsig), hrun, bind_ret hloop, hfin]

theorem Tabled.rooted {fill : Mem → Nat → Nat → Prop} {areas : List (Nat × Nat)} {fuel : Nat}
    (hfuel : 32 ≤ fuel) (h : Tabled w.mem img N files) (hpres : Presented S w img)
    (hrd : (w.devs DEV_RAMDISK).data = rd) (hdis : AllApart (mountAreas S rd img N))
    (hareas : ∀ r ∈ mountAreas S rd img N, r ∈ areas)
    (hsup : Supplies fill S.heap.kmalloca (mountRequests S files.length) w.k areas) :
    ∃ root p t, ramfsInit fuel S w = .ret root t ∧ root ≠ 0 ∧
      Rooted S files root p rd img t ∧ Apart areas root 76 ∧
      Apart areas p ((files.length + 1) * 76) ∧ t.devs = w.devs ∧
      ∀ y, ¬ Outside areas y → Outside [(S.link.header, 4)] y → t.mem y = w.mem y := by
  obtain ⟨root, p, q, t, hrun, hroot, hrooted, hrootApart, hfilesApart, -, hkept⟩ :=
    h.rooted_devices hfuel hpres hrd hdis hareas hsup
  exact ⟨root, p, t, hrun, hroot, hrooted, hrootApart,
    fun r hr => hfilesApart r (List.mem_cons_of_mem _ hr), hkept⟩

end

/-- The root directory at `root` lists these names. -/
structure Entries (S : System δ) (ns : List (List UInt8)) (root p : Nat) (m : Mem) : Prop where
  rootDir : RootDir S m root p
  rootImpl : impl m root = ns.length
  name : ∀ i s, ns[i]? = some s → Str m (name (entry p i)) s
  short : ∀ s ∈ ns, s.length ≤ 31

theorem root_dir_flags : FS_DIR &&& (if 0x7 ≠ FS_DIR then 1 else 0) = 0 := by decide

section
variable {S : System δ} {ns : List (List UInt8)} {files : List Header} {root p rd img : Nat}
  {w : World δ} {fuel a : Nat} {s : List UInt8}

theorem Entries.fsFinddir (h : Entries S ns root p w.mem) (fuel a : Nat) :
    fsFinddir fuel S root a w = ramfsFinddir fuel root a w := by
  have hne : S.link.ramfsFinddir ≠ 0 := Nat.ne_of_gt (S.link.code _ (by simp)).1
  have hdir : ¬ (FS_DIR &&& (if 0x7 ≠ FS_DIR then 1 else 0) ≠ 0) := fun h => h root_dir_flags
  simp only [Fs.fsFinddir, checkDir, ofMem_bind_run, h.rootDir.flags]
  rw [if_neg hdir]
  simp only [ofMem_bind_run, h.rootDir.finddirPtr, if_neg hne, if_true]

theorem Entries.finddir_step (h : Entries S ns root p w.mem) {i : Nat} {t : List UInt8}
    (hfuel : 32 ≤ fuel) (hs : Str w.mem a s) (ht : ns[i]? = some t) (n : Nat) :
    finddirFrom fuel root a i (n + 1) w =
      if t = s then .ret (entry p i) w else finddirFrom fuel root a (i + 1) n w := by
  have hshort := h.short t (List.mem_of_getElem? ht)
  obtain ⟨ret, hret, hiff⟩ := strcmp_str (h.name i t ht) hs (by omega : t.length < fuel)
  have hrun : (update fun w : World δ => (strcmp fuel w.mem
      (Fs.name (entry (ptr w.mem root) i)) a).map fun ret => (ret, w)) w = .ret ret w := by
    refine update_run ?_
    rw [h.rootDir.ptr, hret]
    rfl
  rw [finddirFrom, bind_ret hrun]
  by_cases heq : t = s
  · rw [if_pos (hiff.mpr heq), if_pos heq, ofMem_run, h.rootDir.ptr]
  · rw [if_neg (fun h0 => heq (hiff.mp h0)), if_neg heq]

/-- The search from entry `i` on ends at the first entry of the name, or at the end. -/
theorem Entries.finddirFrom (h : Entries S ns root p w.mem) (hfuel : 32 ≤ fuel)
    (hs : Str w.mem a s) {i n : Nat} {r : Option Nat} (hn : i + n = ns.length)
    (hr : FirstBelow (fun k => ns[i + k]? = some s) n r) :
    finddirFrom fuel root a i n w = .ret (r.elim 0 fun k => entry p (i + k)) w := by
  induction n generalizing i r with
  | zero =>
    rw [hr.unique (firstBelow_zero _)]
    rfl
  | succ n ih =>
    have hi : i < ns.length := by omega
    have ht : ns[i]? = some ns[i] := List.getElem?_eq_getElem hi
    rw [h.finddir_step hfuel hs ht]
    by_cases heq : ns[i] = s
    · have hhere : FirstBelow (fun k => ns[i + k]? = some s) (n + 1) (some 0) :=
        firstBelow_here n (heq ▸ ht)
      rw [if_pos heq, hr.unique hhere]
      rfl
    · have hmiss : ¬ ns[i + 0]? = some s := fun h0 => heq (Option.some.inj (ht.symm.trans h0))
      obtain ⟨r', hr'⟩ := exists_firstBelow (fun k => ns[i + 1 + k]? = some s) n
      have hshift : ∀ k, i + (k + 1) = i + 1 + k := fun k => by omega
      have hnext : FirstBelow (fun k => ns[i + k]? = some s) (n + 1) (r'.map (· + 1)) := by
        refine FirstBelow.next hmiss (hr'.congr fun k _ => ?_)
        rw [← hshift k]
      rw [if_neg heq, hr.unique hnext, ih (by omega) hr']
      cases r' with
      | none => rfl
      | some k =>
        refine congrArg (fun node => Res.ret node w) ?_
        exact congrArg (entry p) (hshift k).symm

/-- Looking up a name finds the first entry of that name, or NULL. -/
theorem Entries.finddir (h : Entries S ns root p w.mem) (hfuel : 32 ≤ fuel) (hs : Str w.mem a s)
    {r : Option Nat} (hr : FirstBelow (fun k => ns[k]? = some s) ns.length r) :
    Fs.fsFinddir fuel S root a w = .ret (r.elim 0 (entry p)) w := by
  rw [h.fsFinddir, ramfsFinddir, ofMem_bind_run, h.rootImpl]
  have hshift : ∀ k, 0 + k = k := Nat.zero_add
  rw [h.finddirFrom hfuel hs (Nat.zero_add _) (hr.congr fun k _ => by rw [hshift])]
  cases r with
  | none => rfl
  | some k => exact congrArg (fun j => Res.ret (entry p j) w) (hshift k)

/-- The names in the root directory, in order. -/
def rootNames (files : List Header) : List (List UInt8) := files.map Header.name ++ [devName]

theorem rootNames_length (files : List Header) : (rootNames files).length = files.length + 1 := by
  simp [rootNames]

/-- An entry of the root directory is a file or, behind the files, the directory of devices. -/
theorem rootNames_cases {i : Nat} (h : (rootNames files)[i]? = some s) :
    (∃ f, files[i]? = some f ∧ s = f.name) ∨ i = files.length ∧ s = devName := by
  have hlen := rootNames_length files
  have hi : i < (rootNames files).length := (List.getElem?_eq_some_iff.mp h).1
  unfold rootNames at h
  by_cases hlt : i < files.length
  · have hf : files[i]? = some files[i] := List.getElem?_eq_getElem hlt
    rw [List.getElem?_append_left (by simpa using hlt), List.getElem?_map, hf] at h
    exact Or.inl ⟨_, hf, (Option.some.inj h).symm⟩
  · obtain rfl : i = files.length := by omega
    simp only [List.length_map, Nat.le_refl, List.getElem?_append_right, Nat.sub_self,
      List.getElem?_cons_zero, Option.some.injEq] at h
    exact Or.inr ⟨rfl, h.symm⟩

theorem rootNames_file {i : Nat} {f : Header} (h : files[i]? = some f) :
    (rootNames files)[i]? = some f.name := by
  have hi : i < files.length := (List.getElem?_eq_some_iff.mp h).1
  rw [rootNames, List.getElem?_append_left (by simpa using hi), List.getElem?_map, h]
  rfl

theorem Rooted.entries (h : Rooted S files root p rd img w) :
    Entries S (rootNames files) root p w.mem := by
  refine ⟨h.rootDir, h.rootImpl.trans (rootNames_length files).symm, fun i s hs => ?_,
    fun s hs => ?_⟩
  · cases rootNames_cases hs with
    | inl hfile =>
      obtain ⟨f, hf, rfl⟩ := hfile
      exact (h.file i f hf).name
    | inr hdev =>
      obtain ⟨rfl, rfl⟩ := hdev
      exact h.lastName
  · obtain ⟨i, hi⟩ := List.getElem?_of_mem hs
    cases rootNames_cases hi with
    | inl hfile =>
      obtain ⟨f, -, rfl⟩ := hfile
      exact f.short
    | inr hdev =>
      rw [hdev.2]
      decide

/-- The file that a name finds: the first of that name. -/
def fileNamed (files : List Header) (s : List UInt8) : Option Header :=
  files.find? fun f => f.name = s

theorem fileNamed_first {f : Header} (h : fileNamed files s = some f) : ∃ i, files[i]? = some f ∧
    FirstBelow (fun k => (rootNames files)[k]? = some s) (rootNames files).length (some i) := by
  obtain ⟨hname, i, hi, hget, hbefore⟩ := List.find?_eq_some_iff_getElem.mp h
  have hf : files[i]? = some f := by rw [List.getElem?_eq_getElem hi, hget]
  have hlen := rootNames_length files
  refine ⟨i, hf, by omega, ?_, fun k hk hk' => ?_⟩
  · exact (rootNames_file hf).trans (congrArg some (of_decide_eq_true hname))
  · have hmiss := hbefore k hk
    have hkn := rootNames_file (List.getElem?_eq_getElem (Nat.lt_trans hk hi))
    have heq : files[k].name = s := Option.some.inj (hkn.symm.trans hk')
    simp [heq] at hmiss

/-- Behind the files only the directory of devices is found. -/
theorem fileNamed_none (h : fileNamed files s = none) :
    FirstBelow (fun k => (rootNames files)[k]? = some s) (rootNames files).length
      (if s = devName then some files.length else none) := by
  have hmiss : ∀ k, k < files.length → (rootNames files)[k]? ≠ some s := by
    intro k hk hks
    have hkn := rootNames_file (List.getElem?_eq_getElem hk)
    have heq : files[k].name = s := Option.some.inj (hkn.symm.trans hks)
    have hnone := List.find?_eq_none.mp h files[k] (List.getElem_mem hk)
    exact hnone (decide_eq_true heq)
  have hlen := rootNames_length files
  split
  · rename_i hdev
    subst hdev
    refine ⟨by omega, ?_, hmiss⟩
    simp [rootNames]
  · rename_i hdev
    intro k _ hks
    cases rootNames_cases hks with
    | inl hfile =>
      obtain ⟨f, hf, -⟩ := hfile
      exact hmiss k (List.getElem?_eq_some_iff.mp hf).1 hks
    | inr hlast => exact hdev hlast.2

theorem Rooted.entry_pos (h : Rooted S files root p rd img w) (i : Nat) : entry p i ≠ 0 := by
  have := h.filesPos
  simp only [entry]
  omega

theorem Rooted.finddir_file (h : Rooted S files root p rd img w) {f : Header} (hfuel : 32 ≤ fuel)
    (hs : Str w.mem a s) (hf : fileNamed files s = some f) :
    ∃ i, files[i]? = some f ∧ fsFinddir fuel S root a w = .ret (entry p i) w := by
  obtain ⟨i, hi, hfirst⟩ := fileNamed_first hf
  exact ⟨i, hi, h.entries.finddir hfuel hs hfirst⟩

theorem Rooted.finddir_other (h : Rooted S files root p rd img w) (hfuel : 32 ≤ fuel)
    (hs : Str w.mem a s) (hf : fileNamed files s = none) : fsFinddir fuel S root a w =
      .ret (if s = devName then entry p files.length else 0) w := by
  rw [h.entries.finddir hfuel hs (fileNamed_none hf)]
  split <;> rfl

theorem FileEntry.opens {node : Nat} {f : Header} (h : FileEntry S w.mem node f)
    (flags' : Nat) :
    fsOpen S node flags' w = .ret (-ENOSYS) w := by
  have hdev : ¬ (FS_FILE &&& 0x7 = FS_CHAR ∨ FS_FILE &&& 0x7 = FS_BLK) := by decide
  rw [fsOpen, ofMem_bind_run, h.flags, if_neg hdev, ofMem_bind_run, h.openPtr]
  rfl

theorem FileEntry.closes {node : Nat} {f : Header} (h : FileEntry S w.mem node f) :
    fsClose S node w = .ret (-ENOSYS) w := by
  have hdev : ¬ (FS_FILE = FS_CHAR ∨ FS_FILE = FS_BLK) := by decide
  rw [fsClose, ofMem_bind_run, h.flags, if_neg hdev, ofMem_bind_run, h.closePtr]
  rfl

/-- `fs_read` of a file reads the ramdisk at the file's place, as far as the inode says. -/
theorem fsRead_file {node : Nat} {d : Device δ} (hptr : readPtr w.mem node = S.link.ramfsRead)
    (hdev : S.devs[DEV_RAMDISK]? = some d) (buf sz off : Nat) :
    fsRead S node buf sz off w =
      (devRead S.devs DEV_RAMDISK (add32 buf off) (size w.mem node) >>= fun _ => pure (toInt sz))
        (w.setOffset DEV_RAMDISK (add32 w.fileBase (impl w.mem node))) := by
  have hne : S.link.ramfsRead ≠ 0 := Nat.ne_of_gt (S.link.code _ (by simp)).1
  have hseek : devSeek S.devs DEV_RAMDISK (add32 w.fileBase (impl w.mem node)) SEEK_SET w =
      .ret (add32 w.fileBase (impl w.mem node))
        (w.setOffset DEV_RAMDISK (add32 w.fileBase (impl w.mem node))) := by
    simp only [devSeek, hdev, if_true, modify_bind_run]
    rw [read_run, World.setOffset_same]
  simp only [fsRead, ofMem_bind_run, hptr, if_neg hne, if_true, ramfsRead, read_bind_run]
  rw [bind_ret hseek, ofMem_bind_run]
  rfl

end

end Foos.Fs
