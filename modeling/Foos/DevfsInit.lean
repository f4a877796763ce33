import Foos.Devfs

/-! What `devfs_init` builds: one inode for each entry of the device table, in an area of
its own. -/
namespace Foos.Fs
open Program ByteMemory Word32 CString Kmalloc

variable {δ : Type}

theorem System.link_lt (S : System δ) :
    S.link.devfsRead < 4294967296 ∧ S.link.devfsWrite < 4294967296 :=
  ⟨(S.link.code _ (by simp)).2, (S.link.code _ (by simp)).2⟩

/-- The inode at `node` stands for device `i`. -/
structure DeviceInode (S : System δ) (dev : Device δ) (m : Mem) (node i : Nat) : Prop where
  name : Str m (name node) dev.name
  flags : flags m node = FS_CHAR
  size : size m node = 0
  ino : ino m node = 0
  impl : impl m node = i
  openPtr : openPtr m node = 0
  closePtr : closePtr m node = 0
  writePtr : writePtr m node = S.link.devfsWrite
  readPtr : readPtr m node = S.link.devfsRead

/-- A cleared inode after a round of `devfs_init`. -/
def deviceInode (S : System δ) (dev : Device δ) (m : Mem) (node i : Nat) : Mem :=
  let m := putString m (name node) dev.name
  let m := setFlags m node FS_CHAR
  let m := setImpl m node i
  let m := setRead m node S.link.devfsRead
  setWrite m node S.link.devfsWrite

theorem deviceInode_frame (S : System δ) (dev : Device δ) (m : Mem) (node i : Nat) :
    Frame [(node, 76)] m (deviceInode S dev m node i) := by
  have hs := dev.short
  have h0 := (Frame.refl [(node, 76)] m).putString (Nat.le_refl node)
    (show node + dev.name.length < node + 76 by omega)
  have h1 := h0.store8 (v := UInt8.ofNat FS_CHAR) (Nat.le_add_right node 32) (by omega)
  have h2 := h1.store32 (v := i) (Nat.le_add_right node 44) (by omega)
  have h3 := h2.store32 (v := S.link.devfsRead) (Nat.le_add_right node 60) (by omega)
  exact h3.store32 (v := S.link.devfsWrite) (Nat.le_add_right node 56) (by omega)

theorem deviceInode_made (S : System δ) {dev : Device δ} {m : Mem} {node i : Nat}
    (hz : ∀ y, node ≤ y → y < node + 76 → m y = 0) (hi : i < 4294967296) :
    DeviceInode S dev (deviceInode S dev m node i) node i := by
  have hs := dev.short
  obtain ⟨hread, hwrite⟩ := S.link_lt
  have hzero : ∀ a, node + 32 < a → a + 4 ≤ node + 76 →
      load32 (setFlags (putString m node dev.name) node FS_CHAR) a = 0 := by
    intro a h1 h2
    rw [setFlags, load32_store8_ne (by omega), load32_putString (by omega)]
    exact load32_zero fun y h3 h4 => hz y (by omega) (by omega)
  refine ⟨?_, ?_, ?_, ?_, ?_, ?_, ?_, ?_, ?_⟩
  · refine (putString_str (m := m) dev.chars).congr fun y h1 h2 => ?_
    have hy : y < node + 32 := by
      simp only [name] at h2
      omega
    simp only [deviceInode, setWrite, setRead, setImpl, setFlags]
    rw [store32_outside _ _ _ _ (by omega), store32_outside _ _ _ _ (by omega),
      store32_outside _ _ _ _ (by omega), store8_ne _ _ _ _ (by omega)]
  · simp only [flags, deviceInode, setWrite, setRead, setImpl, setFlags]
    rw [store32_outside _ _ _ _ (by omega), store32_outside _ _ _ _ (by omega),
      store32_outside _ _ _ _ (by omega), store8_same]
    rfl
  all_goals
    simp (disch := omega) only [size, ino, impl, openPtr, closePtr, writePtr, readPtr, deviceInode,
      setWrite, setRead, setImpl, load32_store32, load32_store32_ne, Nat.mod_eq_of_lt]
  all_goals exact hzero _ (by omega) (by omega)

theorem DeviceInode.congr {S : System δ} {dev : Device δ} {m m' : Mem} {node i : Nat}
    (h : DeviceInode S dev m node i) (hm : ∀ y, node ≤ y → y < node + 76 → m' y = m y) :
    DeviceInode S dev m' node i := by
  have hs := dev.short
  have hload : ∀ k, k + 4 ≤ 76 → load32 m' (node + k) = load32 m (node + k) := fun k hk =>
    load32_congr fun y h1 h2 => hm y (by omega) (by omega)
  have hlen : node + dev.name.length < node + 76 := by omega
  refine ⟨h.name.congr fun y h1 h2 => hm y h1 (Nat.lt_of_le_of_lt h2 hlen),
    ?_, ?_, ?_, ?_, ?_, ?_, ?_, ?_⟩
  · rw [← h.flags, Fs.flags, Fs.flags, hm (node + 32) (by omega) (by omega)]
  · exact (hload 36 (by omega)).trans h.size
  · exact (hload 40 (by omega)).trans h.ino
  · exact (hload 44 (by omega)).trans h.impl
  · exact (hload 48 (by omega)).trans h.openPtr
  · exact (hload 52 (by omega)).trans h.closePtr
  · exact (hload 56 (by omega)).trans h.writePtr
  · exact (hload 60 (by omega)).trans h.readPtr

theorem devfsRound_run {S : System δ} {devdir i : Nat} {w : World δ} {dev : Device δ}
    (hdev : S.devs[i]? = some dev) : devfsRound S devdir i w =
      .ret () (w.setMem (deviceInode S dev w.mem (entry (ptr w.mem devdir) i) i)) := by
  rw [devfsRound, hdev]
  rfl

/-- Entries below `j` are filled in, those from `j` on are still zero. -/
structure DevsFilled (S : System δ) (w : World δ) (p j : Nat) (v : World δ) : Prop where
  world : v = w.setMem v.mem
  frame : Frame [(p, S.ndevs * 76)] w.mem v.mem
  zero : ∀ y, p + j * 76 ≤ y → y < p + S.ndevs * 76 → v.mem y = 0
  made : ∀ i dev, i < j → S.devs[i]? = some dev → DeviceInode S dev v.mem (entry p i) i

theorem DevsFilled.round {S : System δ} {w v : World δ} {devdir p j : Nat}
    (h : DevsFilled S w p j v) (hj : j < S.ndevs) (hp : p + S.ndevs * 76 ≤ 4294967296)
    (hptr : ptr w.mem devdir = p) (hdir : Apart [(p, S.ndevs * 76)] devdir 76) :
    ∃ t, devfsRound S devdir j v = .ret () t ∧ DevsFilled S w p (j + 1) t := by
  obtain ⟨dev, hdev⟩ : ∃ dev, S.devs[j]? = some dev := ⟨S.devs[j], List.getElem?_eq_getElem hj⟩
  have hptr' : ptr v.mem devdir = p :=
    (h.frame.load32 (hdir.sub (Nat.le_add_right devdir 72) (by omega))).trans hptr
  have hframe := deviceInode_frame S dev v.mem (entry p j) j
  refine ⟨_, devfsRound_run hdev, ?_, ?_, ?_, ?_⟩
  · rw [h.world]
    rfl
  · refine h.frame.trans (hptr'.symm ▸ hframe.mono fun y hy => ?_)
    simp only [entry, outside_cons, outside_nil, and_true] at hy ⊢
    omega
  · intro y h1 h2
    simp only [World.setMem_mem, hptr']
    rw [hframe y (by simp only [entry, outside_cons, outside_nil, and_true]; omega)]
    exact h.zero y (by omega) h2
  · intro i dev' hi hdev'
    simp only [World.setMem_mem, hptr']
    by_cases hij : i = j
    · subst hij
      obtain rfl : dev = dev' := Option.some.inj (hdev.symm.trans hdev')
      refine deviceInode_made S (fun y h1 h2 => ?_) (by omega)
      simp only [entry] at h1 h2
      exact h.zero y h1 (by omega)
    · refine (h.made i dev' (by omega) hdev').congr fun y h1 h2 => hframe y ?_
      simp only [entry, outside_cons, outside_nil, and_true] at h1 h2 ⊢
      omega

/-- The directory that `devfs_init(devdir)` fills in, its inodes at `p`. -/
structure DevDir (S : System δ) (m : Mem) (devdir p : Nat) : Prop where
  name : Str m (name devdir) devName
  flags : flags m devdir = FS_DIR
  impl : impl m devdir = S.ndevs
  ptr : ptr m devdir = p
  made : ∀ i dev, S.devs[i]? = some dev → DeviceInode S dev m (entry p i) i

theorem DevDir.congr {S : System δ} {m m' : Mem} {devdir p : Nat} (h : DevDir S m devdir p)
    (hm : ∀ y, devdir ≤ y → y < devdir + 76 → m' y = m y)
    (hp : ∀ y, p ≤ y → y < p + S.ndevs * 76 → m' y = m y) : DevDir S m' devdir p := by
  have hload : ∀ k, k + 4 ≤ 76 → load32 m' (devdir + k) = load32 m (devdir + k) := fun k hk =>
    load32_congr fun y h1 h2 => hm y (by omega) (by omega)
  refine ⟨h.name.congr fun y h1 h2 => ?_, ?_, ?_, ?_, fun i dev hdev => ?_⟩
  · have hy : y ≤ devdir + 3 := h2
    exact hm y h1 (by omega)
  · rw [← h.flags, Fs.flags, Fs.flags, hm (devdir + 32) (by omega) (by omega)]
  · exact (hload 44 (by omega)).trans h.impl
  · exact (hload 72 (by omega)).trans h.ptr
  · have hi : i < S.ndevs := (List.getElem?_eq_some_iff.mp hdev).1
    refine (h.made i dev hdev).congr fun y h1 h2 => ?_
    simp only [entry] at h1 h2
    exact hp y (by omega) (by omega)

/-- The directory itself before its inodes are made. -/
def devDirHead (S : System δ) (m : Mem) (devdir : Nat) : Mem :=
  let m := putString m (name devdir) devName
  let m := setFlags m devdir FS_DIR
  setImpl m devdir S.ndevs

theorem devDirHead_frame (S : System δ) (m : Mem) (devdir : Nat) :
    Frame [(devdir, 48)] m (devDirHead S m devdir) := by
  have h0 := (Frame.refl [(devdir, 48)] m).putString (s := devName) (Nat.le_refl devdir)
    (show devdir + 3 < devdir + 48 by omega)
  have h1 := h0.store8 (v := UInt8.ofNat FS_DIR) (Nat.le_add_right devdir 32) (by omega)
  exact h1.store32 (v := S.ndevs) (Nat.le_add_right devdir 44) (by omega)

theorem DevDir.of_head {S : System δ} {m m' : Mem} {devdir p : Nat}
    (h : ∀ y, devdir ≤ y → y < devdir + 48 → m' y = devDirHead S m devdir y)
    (hn : S.ndevs < 4294967296) (hptr : Fs.ptr m' devdir = p)
    (hmade : ∀ i dev, S.devs[i]? = some dev → DeviceInode S dev m' (entry p i) i) :
    DevDir S m' devdir p := by
  refine ⟨?_, ?_, ?_, hptr, hmade⟩
  · have hchars : ∀ c ∈ devName, c ≠ 0 := chars_of_all (by decide)
    refine (putString_str (m := m) (a := devdir) hchars).congr fun y h1 h2 => ?_
    have hy : y ≤ devdir + 3 := h2
    rw [h y h1 (by omega), devDirHead, setImpl, setFlags, store32_outside _ _ _ _ (by omega),
      store8_ne _ _ _ _ (by omega)]
    rfl
  · rw [Fs.flags, h (devdir + 32) (by omega) (by omega), devDirHead, setImpl, setFlags,
      store32_outside _ _ _ _ (by omega), store8_same]
    rfl
  · have hload : Fs.impl m' devdir = load32 (devDirHead S m devdir) (devdir + 44) :=
      load32_congr fun y h1 h2 => h y (by omega) (by omega)
    rw [hload, devDirHead, setImpl, load32_store32, Nat.mod_eq_of_lt hn]

/-- `devfs_init` on a directory in the areas held, where it writes nothing besides the directory
itself and its pointer. -/
theorem devfsInit_exact {S : System δ} {w : World δ} {devdir : Nat} {areas : List (Nat × Nat)}
    {fill : Mem → Nat → Nat → Prop} (hpos : 0 < S.ndevs) (hdir : devdir ≠ 0)
    (hin : ∃ r ∈ areas, r.1 ≤ devdir ∧ devdir + 76 ≤ r.1 + r.2)
    (hsup : Supplies fill S.heap.kmalloca [(S.ndevs * 76, 0)] w.k areas) :
    ∃ p v, devfsInit S devdir w = .ret 0 v ∧ v = { w with k := v.k } ∧ DevDir S v.mem devdir p ∧
      Apart areas p (S.ndevs * 76) ∧ p + S.ndevs * 76 ≤ 4294967296 ∧ p ≠ 0 ∧
      ∀ y, ¬ Outside areas y → Outside [(devdir + 72, 4)] y →
        v.mem y = devDirHead S w.mem devdir y := by
  obtain ⟨r, hr, hr1, hr2⟩ := hin
  have hhead := devDirHead_frame S w.mem devdir
  let w₁ := w.setMem (devDirHead S w.mem devdir)
  obtain ⟨p, k, halloc, hnew, -, -⟩ := hsup w₁.k fun y hy => hhead y (by
    have := hy r hr
    rw [outside_single]
    omega)
  have hbelow := hnew.below
  have hp0 := hnew.nonzero
  have hmul : mul32 S.ndevs inodeSize = S.ndevs * 76 :=
    mul32_of_lt (show S.ndevs * 76 < 4294967296 by omega)
  have happ := hnew.apart r hr
  have hkept : ∀ y, devdir ≤ y → y < devdir + 76 → k.mem y = w₁.mem y := fun y h1 h2 =>
    hnew.kept r hr y (by omega) (by omega)
  let m₂ := setPtr k.mem devdir p
  let m₃ := memset m₂ p 0 (S.ndevs * 76)
  have hptr₂ : ptr m₂ devdir = p :=
    (load32_store32 k.mem (devdir + 72) p).trans (Nat.mod_eq_of_lt (by omega))
  have hframe₃ : Frame [(p, S.ndevs * 76)] m₂ m₃ :=
    (Frame.refl _ m₂).memset (Nat.le_refl p) (Nat.le_refl _)
  have hdirapart : Apart [(p, S.ndevs * 76)] devdir 76 := by
    simp only [apart_cons, apart_nil, and_true]
    omega
  have hptr₃ : ptr m₃ devdir = p :=
    (hframe₃.load32 (hdirapart.sub (Nat.le_add_right devdir 72) (by omega))).trans hptr₂
  let w₃ : World δ := ({ w₁ with k := k } : World δ).setMem m₃
  have hstart : DevsFilled S w₃ p 0 w₃ :=
    ⟨rfl, Frame.refl _ _, fun y h1 h2 => memset_inside (by omega) h2,
      fun i _ hi => absurd hi (Nat.not_lt_zero i)⟩
  obtain ⟨v, hloop, hv⟩ := forFrom_ret (i := 0) (n := S.ndevs) (I := DevsFilled S w₃ p)
    (fun j s _ hj hI => hI.round (by omega) hbelow hptr₃ hdirapart) hstart
  rw [Nat.zero_add] at hv
  have hrun : devfsInit S devdir w = .ret 0 v := by
    rw [devfsInit, bind_ret (assert_pass (decide_eq_true hdir) w)]
    simp only [onMem_bind_run, hmul]
    refine (bind_ret (kmalloc_run halloc)).trans ?_
    simp only [onMem_bind_run, World.setMem_mem]
    have hstep : forFrom (devfsRound S devdir) 0 S.ndevs
        (({ w₁ with k := k } : World δ).setMem (memset m₂ (ptr m₂ devdir) 0 (S.ndevs * 76))) =
          .ret () v := by
      rw [hptr₂]
      exact hloop
    exact (bind_ret hstep).trans rfl
  have hv₁ : v = { w with k := v.k } := by
    rw [hv.world]
    rfl
  have happart : ∀ y, ¬ Outside areas y → v.mem y = m₂ y := fun y hy =>
    (hv.frame y (hnew.outside hy)).trans (hframe₃ y (hnew.outside hy))
  have hin : ∀ y, devdir ≤ y → y < devdir + 76 → ¬ Outside areas y := fun y h1 h2 =>
    not_outside.mpr ⟨r, hr, by omega, by omega⟩
  refine ⟨p, v, hrun, hv₁, .of_head (m := w.mem) (fun y h1 h2 => ?_) (by omega) ?_ ?_,
    hnew.apart, hbelow, hp0, fun y hy hout => ?_⟩
  · calc v.mem y = m₂ y := happart y (hin y h1 (by omega))
      _ = k.mem y := store32_outside _ _ _ _ (by omega)
      _ = w₁.mem y := hkept y h1 (by omega)
  · rw [← hptr₂]
    exact load32_congr fun y h1 h2 => happart y (hin y (by omega) (by omega))
  · intro i dev hdev
    exact hv.made i dev (List.getElem?_eq_some_iff.mp hdev).1 hdev
  · rw [outside_single] at hout
    calc v.mem y = m₂ y := happart y hy
      _ = k.mem y := store32_outside _ _ _ _ (by omega)
      _ = w₁.mem y := hnew.keeps hy

/-- Of the areas held `devfs_init` changes only the name, type, entry count and pointer of the
directory. -/
theorem devfsInit_run {S : System δ} {w : World δ} {devdir : Nat} {areas : List (Nat × Nat)}
    {fill : Mem → Nat → Nat → Prop} (hpos : 0 < S.ndevs) (hdir : devdir ≠ 0)
    (hin : ∃ r ∈ areas, r.1 ≤ devdir ∧ devdir + 76 ≤ r.1 + r.2)
    (hsup : Supplies fill S.heap.kmalloca [(S.ndevs * 76, 0)] w.k areas) :
    ∃ p v, devfsInit S devdir w = .ret 0 v ∧ v = { w with k := v.k } ∧ DevDir S v.mem devdir p ∧
      Apart areas p (S.ndevs * 76) ∧ p + S.ndevs * 76 ≤ 4294967296 ∧
      ∀ y, ¬ Outside areas y → Outside [(devdir, 48), (devdir + 72, 4)] y → v.mem y = w.mem y := by
  obtain ⟨p, v, hrun, hv, hdev, happ, hbelow, -, hkeep⟩ := devfsInit_exact hpos hdir hin hsup
  refine ⟨p, v, hrun, hv, hdev, happ, hbelow, fun y hy hout => ?_⟩
  obtain ⟨hname, hptr⟩ := outside_cons.mp hout
  exact (hkeep y hy hptr).trans (devDirHead_frame S w.mem devdir y (outside_single.mpr hname))

end Foos.Fs
