import Foos.DevfsInit
import Foos.HeapSupply
import Foos.Wrap

/-! Which device `fs_open` and `fs_close` reach from an inode of `devfs_init`. -/
namespace Foos
open Program

variable {δ α : Type}

/-- Entry `no` of the device table and its driver apart, a run changes no device state, and
it reaches no device. -/
def Touches (no : Nat) (s t : World δ) : Prop :=
  (∀ j, j ≠ no → t.devs j = s.devs j ∧ t.driver j = s.driver j) ∧ t.trace = s.trace

theorem Touches.refl (no : Nat) (s : World δ) : Touches no s s := ⟨fun _ _ => ⟨rfl, rfl⟩, rfl⟩

theorem Touches.trans (no : Nat) (s t u : World δ) (h : Touches no s t) (h' : Touches no t u) :
    Touches no s u :=
  ⟨fun j hj => ⟨(h'.1 j hj).1.trans (h.1 j hj).1, (h'.1 j hj).2.trans (h.1 j hj).2⟩,
    h'.2.trans h.2⟩

/-- The open and close hooks of entry `no` work on that entry alone. -/
structure Device.Local (dev : Device δ) (no : Nat) : Prop where
  openHook : ∀ hook flags, dev.openHook = some hook → Respects (Touches no) (hook no flags)
  close : ∀ hook, dev.close = some hook → Respects (Touches no) (hook no)

def LocalHooks (devs : List (Device δ)) : Prop :=
  ∀ (i : Nat) (dev : Device δ), devs[i]? = some dev → dev.Local i

theorem respects_touches_unsupported (no : Nat) :
    Respects (Touches no) (setErrno ENOSYS >>= fun _ => pure (-ENOSYS) : Code δ Int) :=
  fun _ => ⟨fun _ _ => ⟨rfl, rfl⟩, rfl⟩

theorem touches_setOffset (w : World δ) (no off : Nat) : Touches no w (w.setOffset no off) :=
  ⟨fun _ hj => ⟨w.setOffset_ne off hj, rfl⟩, rfl⟩

theorem devOpen_touches {devs : List (Device δ)} (hloc : LocalHooks devs)
    (no flags : Nat) (w : World δ) :
    Touches no (w.log (.device no)) (devOpen devs no flags w).final := by
  simp only [devOpen, note_bind_run]
  cases hdev : devs[no]? with
  | none => exact Touches.refl no _
  | some dev =>
    simp only [modify_bind_run]
    refine Touches.trans no _ _ _ (touches_setOffset _ no 0) ?_
    cases hhook : dev.openHook with
    | none => exact respects_touches_unsupported no _
    | some hook => exact (hloc no dev hdev).openHook hook flags hhook _

theorem devClose_touches {devs : List (Device δ)} (hloc : LocalHooks devs)
    (no : Nat) (w : World δ) : Touches no (w.log (.device no)) (devClose devs no w).final := by
  simp only [devClose, note_bind_run]
  cases hdev : devs[no]? with
  | none => exact Touches.refl no _
  | some dev =>
    simp only [modify_bind_run]
    refine Touches.trans no _ _ _ (touches_setOffset _ no 0) ?_
    cases hhook : dev.close with
    | none => exact respects_touches_unsupported no _
    | some hook => exact (hloc no dev hdev).close hook hhook _

theorem kmalloc_touches (h : Heap) (sz no : Nat) :
    Respects (Touches no) (kmalloc h sz : Code δ Nat) := by
  refine respects_update (Touches.refl no) fun s a t hst => ?_
  cases hk : h.kmalloca s.k sz 0 with
  | none => simp [hk] at hst
  | some r =>
    simp only [hk, Option.map_some, Option.some.injEq, Prod.mk.injEq] at hst
    exact hst.2 ▸ Touches.refl no s

theorem kfree_touches (h : Heap) (ptr no : Nat) :
    Respects (Touches no) (kfree h ptr : Code δ Unit) := by
  refine respects_update (Touches.refl no) fun s a t hst => ?_
  cases hk : h.kfree s.k ptr with
  | none => simp [hk] at hst
  | some k =>
    simp only [hk, Option.map_some, Option.some.injEq, Prod.mk.injEq] at hst
    exact hst.2 ▸ Touches.refl no s

theorem touches_setData (w : World δ) (no data : Nat) : Touches no w (w.setData no data) := by
  refine ⟨fun j hj => ⟨?_, rfl⟩, rfl⟩
  simp [World.setData, hj]

theorem ramdisk_local (h : Heap) (no : Nat) : (ramdisk h : Device δ).Local no := by
  have hrefl := Touches.refl (δ := δ) no
  have htrans := Touches.trans (δ := δ) no
  constructor
  · intro hook flags hhook
    obtain rfl := Option.some.inj hhook
    refine respects_bind htrans (respects_read hrefl _) fun data => respects_ite ?_ ?_
    · refine respects_bind htrans (kmalloc_touches h _ no) fun p => ?_
      exact respects_bind htrans (respects_modify fun w => touches_setData w no p) fun _ =>
        respects_pure hrefl 0
    · exact fun s => ⟨fun _ _ => ⟨rfl, rfl⟩, rfl⟩
  · intro hook hhook
    obtain rfl := Option.some.inj hhook
    refine respects_bind htrans (respects_read hrefl _) fun data => respects_ite ?_ ?_
    · exact respects_bind htrans (kfree_touches h data no) fun _ => respects_pure hrefl 0
    · exact respects_pure hrefl 0

/-- The run of `x` from `w` calls `dev_open` or `dev_close` for device `no`. -/
def Reaches (x : Code δ α) (w : World δ) (no : Nat) : Prop :=
  ∃ l, (x w).final.trace = w.trace ++ l ∧ Event.device no ∈ l

theorem reaches_iff {x : Code δ α} {w : World δ} {i : Nat}
    (h : Touches i (w.log (.device i)) (x w).final) (no : Nat) : Reaches x w no ↔ no = i := by
  have htrace : (x w).final.trace = w.trace ++ [.device i] := h.2
  constructor
  · rintro ⟨l, hl, hmem⟩
    obtain rfl := List.append_cancel_left (htrace.symm.trans hl)
    simpa using hmem
  · rintro rfl
    exact ⟨[.device no], htrace, List.mem_singleton_self _⟩

theorem reaches_none {x : Code δ α} {w : World δ} (h : (x w).final.trace = w.trace) (no : Nat) :
    ¬ Reaches x w no := by
  rintro ⟨l, hl, hmem⟩
  have hnil : l = [] := by simpa [h] using hl
  simp [hnil] at hmem

end Foos

namespace Foos.Fs
open Program ByteMemory Word32 CString Kmalloc

variable {δ : Type}

/-- The inode at `node` is in `m'` as it is in `m`, with the bits `extra` over its type. -/
def Marked (m m' : Mem) (node extra : Nat) : Prop :=
  ∀ y, node ≤ y → y < node + 76 → m' y = setFlags m node (flags m node ||| extra) y

/-- From any states that hold the marked inode: a device that `fs_open` reaches is reached by
`fs_close`, and neither call changes the state of another device. -/
def SameDevice (S : System δ) (m : Mem) (node extra : Nat) : Prop :=
  ∀ (s t : World δ) (flags' no : Nat), Marked m s.mem node extra → Marked m t.mem node extra →
    Reaches (fsOpen S node flags') s no →
      Reaches (fsClose S node) t no ∧
      ∀ j, j ≠ no →
        ((fsOpen S node flags' s).final.devs j = s.devs j ∧
          (fsOpen S node flags' s).final.driver j = s.driver j) ∧
        (fsClose S node t).final.devs j = t.devs j ∧ (fsClose S node t).final.driver j = t.driver j

theorem type_bits {extra : Nat} (h8 : extra % 8 = 0) (h : extra < 256) :
    (FS_CHAR ||| extra) < 256 ∧ (FS_CHAR ||| extra) &&& 0x7 = FS_CHAR ∧
      ((FS_CHAR ||| extra) = FS_CHAR ↔ extra = 0) ∧ (FS_CHAR ||| extra) ≠ FS_BLK := by
  obtain ⟨q, rfl⟩ : ∃ q, extra = q * 8 := ⟨extra / 8, by omega⟩
  have hq : q < 32 := by omega
  clear h h8
  revert q
  decide

section
variable {S : System δ} {dev : Device δ} {m m' : Mem} {node i extra : Nat}

theorem Marked.load (h : Marked m m' node extra) {k : Nat} (h1 : 32 < k) (h2 : k + 4 ≤ 76) :
    load32 m' (node + k) = load32 m (node + k) :=
  load32_congr fun y h3 h4 =>
    (h y (by omega) (by omega)).trans (store8_ne _ _ _ _ (by omega))

theorem Marked.self (m : Mem) (node : Nat) : Marked m m node 0 := by
  intro y _ _
  rw [Nat.or_zero, setFlags, Fs.flags]
  by_cases hy : y = node + 32
  · rw [hy, store8_same, UInt8.ofNat_toNat]
  · rw [store8_ne _ _ _ _ hy]

theorem Marked.flags (h : Marked m m' node extra) (hi : DeviceInode S dev m node i)
    (hlt : (FS_CHAR ||| extra) < 256) : flags m' node = FS_CHAR ||| extra := by
  rw [Fs.flags, h (node + 32) (by omega) (by omega), setFlags, store8_same, hi.flags]
  exact Nat.mod_eq_of_lt hlt

theorem fsOpen_marked {w : World δ} (h : Marked m w.mem node extra)
    (hi : DeviceInode S dev m node i) (h8 : extra % 8 = 0) (hlt : extra < 256) (flags' : Nat) :
    fsOpen S node flags' w = devOpen S.devs i flags' w := by
  obtain ⟨hbyte, htype, -, -⟩ := type_bits h8 hlt
  have himpl : impl w.mem node = i := (h.load (by decide) (by decide)).trans hi.impl
  simp only [fsOpen, ofMem_bind_run, h.flags hi hbyte, htype, true_or, if_true, himpl]

theorem fsClose_marked {w : World δ} (h : Marked m w.mem node extra)
    (hi : DeviceInode S dev m node i) (h8 : extra % 8 = 0) (hlt : extra < 256) :
    fsClose S node w = if extra = 0 then devClose S.devs 0 w else .ret (-ENOSYS) w := by
  obtain ⟨hbyte, -, hzero, hblk⟩ := type_bits h8 hlt
  have hino : ino w.mem node = 0 := (h.load (by decide) (by decide)).trans hi.ino
  have hclose : closePtr w.mem node = 0 := (h.load (by decide) (by decide)).trans hi.closePtr
  simp only [fsClose, ofMem_bind_run, h.flags hi hbyte, hzero, hblk, or_false]
  split
  · rw [ofMem_bind_run, hino]
  · rw [ofMem_bind_run, hclose]
    rfl

/-- Over an inode of device `i` the calls meet exactly for the first device without further
flag bits: `fs_close` compares the whole flags and takes the number from `ino`. -/
theorem DeviceInode.marked_iff (hi : DeviceInode S dev m node i)
    (hloc : LocalHooks S.devs) (w : World δ)
    (h8 : extra % 8 = 0) (hlt : extra < 256) :
    SameDevice S m node extra ↔ i = 0 ∧ extra = 0 := by
  constructor
  · intro h
    let s := w.setMem (setFlags m node (Fs.flags m node ||| extra))
    have hs : Marked m s.mem node extra := fun _ _ _ => rfl
    have hopen : Reaches (fsOpen S node 0) s i := by
      refine (reaches_iff ?_ i).mpr rfl
      rw [fsOpen_marked hs hi h8 hlt]
      exact devOpen_touches hloc i 0 s
    obtain ⟨hclose, -⟩ := h s s 0 i hs hs hopen
    by_cases h0 : extra = 0
    · refine ⟨(reaches_iff ?_ i).mp hclose, h0⟩
      rw [fsClose_marked hs hi h8 hlt, if_pos h0]
      exact devClose_touches hloc 0 s
    · refine absurd hclose (reaches_none ?_ i)
      rw [fsClose_marked hs hi h8 hlt, if_neg h0]
      rfl
  · rintro ⟨rfl, rfl⟩ s t flags' no hs ht hopen
    have hso : Touches 0 (s.log (.device 0)) (fsOpen S node flags' s).final := by
      rw [fsOpen_marked hs hi h8 hlt]
      exact devOpen_touches hloc 0 flags' s
    have htc : Touches 0 (t.log (.device 0)) (fsClose S node t).final := by
      rw [fsClose_marked ht hi h8 hlt, if_pos rfl]
      exact devClose_touches hloc 0 t
    obtain rfl := (reaches_iff hso no).mp hopen
    exact ⟨(reaches_iff htc 0).mpr rfl, fun j hj => ⟨hso.1 j hj, htc.1 j hj⟩⟩

end

/-- After `devfs_init` on a table of any length, for every device and all further flag bits:
`fs_open` and `fs_close` meet at one device exactly when it is the first device and no bit is
set over its type. -/
theorem sameDevice_iff {S : System δ} {w : World δ} {devdir i extra : Nat}
    {fill : Mem → Nat → Nat → Prop} (hdir : devdir ≠ 0)
    (hsup : Supplies fill S.heap.kmalloca [(S.ndevs * 76, 0)] w.k [(devdir, 76)])
    (hloc : LocalHooks S.devs) (hi : i < S.ndevs)
    (h8 : extra % 8 = 0) (hlt : extra < 256) :
    ∃ w', devfsInit S devdir w = .ret 0 w' ∧
      (SameDevice S w'.mem (entry (ptr w'.mem devdir) i) extra ↔ i = 0 ∧ extra = 0) := by
  obtain ⟨p, v, hrun, -, hdevs, -, -, -⟩ := devfsInit_run (Nat.zero_lt_of_lt hi) hdir
    ⟨(devdir, 76), List.mem_singleton_self _, Nat.le_refl _, Nat.le_refl _⟩ hsup
  have hdev := hdevs.made i S.devs[i] (List.getElem?_eq_getElem hi)
  rw [← hdevs.ptr] at hdev
  exact ⟨v, hrun, hdev.marked_iff hloc w h8 hlt⟩

/-- A terminal that needs no work to be opened or closed. -/
def console : Device Unit where
  name := [116, 116, 121]
  short := by decide
  chars := CString.chars_of_all (by decide)
  write := none
  read := none
  openHook := some fun _ _ => pure 0
  close := some fun _ => pure 0
  ioctl := none

theorem console_local (no : Nat) : console.Local no := by
  constructor
  · intro hook flags hhook
    obtain rfl := Option.some.inj hhook
    exact respects_pure (Touches.refl no) 0
  · intro hook hhook
    obtain rfl := Option.some.inj hhook
    exact respects_pure (Touches.refl no) 0

def kernelHeap : Heap := ⟨Kmalloc.kmalloca 8, Kmalloc.kfree⟩

def kernelLink : Link :=
  ⟨0x10000, 0x10100, 0x10200, 0x10300, 0x10400, 0x20000, 0x90000, by decide, by decide, by decide⟩

/-- The file systems with the kernel's heap and a table of two devices. -/
def kernel : System Unit := ⟨kernelLink, kernelHeap, devs kernelHeap console⟩

theorem kernel_local : LocalHooks kernel.devs := by
  intro i dev hdev
  match i, hdev with
  | 0, hdev => exact Option.some.inj hdev ▸ console_local 0
  | 1, hdev => exact Option.some.inj hdev ▸ ramdisk_local kernelHeap 1

/-- The state at boot, with the given memory. -/
def boot (m : Mem) : World Unit := ⟨⟨m, 0⟩, fun _ => ⟨0, 0⟩, fun _ => (), 0, 0, 0, 0, []⟩

theorem kernel_supplies : Supplies ZeroFilled kernel.heap.kmalloca [(kernel.ndevs * 76, 0)]
    (boot zeroed.k.mem).k [(0x300000, 76)] :=
  pristine_supplies zeroed_pristine.holds.heap (by decide) (by decide) (by decide) (by decide)

theorem sameDevice_iff_ramdisk : ∃ w', devfsInit kernel 0x300000 (boot zeroed.k.mem) = .ret 0 w' ∧
    (SameDevice kernel w'.mem (entry (ptr w'.mem 0x300000) 1) 0 ↔ 1 = 0 ∧ 0 = 0) :=
  sameDevice_iff (by decide) kernel_supplies kernel_local (by decide) (by decide) (by decide)

/-- The ramdisk is opened under its own number and closed under the number of the terminal. -/
theorem sameDevice_fails : ∃ w', devfsInit kernel 0x300000 (boot zeroed.k.mem) = .ret 0 w' ∧
    Reaches (fsOpen kernel (entry (ptr w'.mem 0x300000) 1) 0) w' 1 ∧
    Reaches (fsClose kernel (entry (ptr w'.mem 0x300000) 1)) w' 0 ∧
    ¬ SameDevice kernel w'.mem (entry (ptr w'.mem 0x300000) 1) 0 := by
  obtain ⟨p, v, hrun, -, hdevs, -, -, -⟩ := devfsInit_run (by decide) (by decide)
    ⟨(0x300000, 76), List.mem_singleton_self _, Nat.le_refl _, Nat.le_refl _⟩ kernel_supplies
  have hdev := hdevs.made 1 (ramdisk kernelHeap) rfl
  rw [← hdevs.ptr] at hdev
  have hmark := Marked.self v.mem (entry (ptr v.mem 0x300000) 1)
  refine ⟨v, hrun, (reaches_iff ?_ 1).mpr rfl, (reaches_iff ?_ 0).mpr rfl, fun h => ?_⟩
  · rw [fsOpen_marked hmark hdev (by decide) (by decide)]
    exact devOpen_touches kernel_local 1 0 v
  · rw [fsClose_marked hmark hdev (by decide) (by decide), if_pos rfl]
    exact devClose_touches kernel_local 0 v
  · exact absurd ((hdev.marked_iff kernel_local v (by decide) (by decide)).mp h).1 (by decide)

end Foos.Fs
