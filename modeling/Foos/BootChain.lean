import Foos.BootRsdp
import Foos.Frame

/-! The boot chain: `boot/bootsect.s` and `boot/setup.s` from the first sector of the disk to the
jump to the kernel, and `kernel/entry.S`. What the BIOS does is a transfer of sectors. -/
namespace Foos.Boot
open ByteMemory Libc Occurrence Printf

/-- A disk of the BIOS: its geometry and its bytes, and the error codes of sectors that cannot be
read. -/
structure Disk where
  heads : Nat
  perTrack : Nat
  sectors : Nat
  byte : Nat → UInt8
  fault : Nat → Option UInt8

namespace Disk

def bytes (d : Disk) (lba count : Nat) : List UInt8 :=
  (List.range (512 * count)).map fun i => d.byte (512 * lba + i)

/-- The sectors from `lba` on, or the code that comes with the carry flag. -/
def read (d : Disk) (lba count addr : Nat) (m : Mem) : Except UInt8 Mem :=
  if lba + count ≤ d.sectors then
    match (List.range count).findSome? fun k => d.fault (lba + k) with
    | some code => .error code
    | none => .ok (putBytes m addr (d.bytes lba count))
  else .error 0x04

/-- The same by cylinder, head and sector; sectors count from 1. -/
def readChs (d : Disk) (cylinder head sector count addr : Nat) (m : Mem) : Except UInt8 Mem :=
  if 1 ≤ sector ∧ sector ≤ d.perTrack ∧ head < d.heads then
    d.read ((cylinder * d.heads + head) * d.perTrack + (sector - 1)) count addr m
  else .error 0x04

end Disk

abbrev Disks := Nat → Option Disk

/-- Memory, DX, and what is on the screen. -/
structure Pc where
  mem : Mem
  dx : Nat
  screen : List UInt8

def Pc.print (s : Pc) (text : String) : Pc := { s with screen := s.screen ++ chars text }

@[simp] theorem Pc.print_mem (s : Pc) (text : String) : (s.print text).mem = s.mem := rfl

@[simp] theorem Pc.print_dx (s : Pc) (text : String) : (s.print text).dx = s.dx := rfl

/-- `int $0x13` with AH=2: DL is the drive, DH the head. -/
def int13Read (disks : Disks) (cylinder sector count addr : Nat) (s : Pc) : Except UInt8 Pc :=
  match disks (s.dx % 256) with
  | none => .error 0x01
  | some d =>
    (d.readChs cylinder (s.dx / 256) sector count addr s.mem).map fun m => { s with mem := m }

/-- `int $0x13` with AH=0x42 on the fields of a disk address packet. -/
def int13Ext (disks : Disks) (lba count addr : Nat) (s : Pc) : Except UInt8 Pc :=
  match disks (s.dx % 256) with
  | none => .error 0x01
  | some d => (d.read lba count addr s.mem).map fun m => { s with mem := m }

/-- AH after `print_string`. -/
def printedAh : UInt8 := 0x0E

/-- `disk_error`: the machine stops with this on the screen. The message goes out first, so the code
is what `print_string` leaves in AH. -/
def diskError (s : Pc) (r : Except UInt8 Pc) : Except (List UInt8) Pc :=
  r.mapError fun _ => s.screen ++ chars "Disk reading failed with code " ++ [0x40 + printedAh]

def SETUP_SECTORS : Nat := 1
def SYS_SECTORS (sysSize : Nat) : Nat := sysSize >>> 9

def bootsect (disks : Disks) (sysSize : Nat) (s : Pc) : Except (List UInt8) Pc := do
  let s := { s with mem := memcpy s.mem 0x90000 0x7C00 (2 * (SETUP_SECTORS <<< 8)) }
  if s.dx % 256 ≠ 0x80 then
    throw (s.screen ++ chars "[boot error] should be booted from 1st hard disk\r\n")
  else
    let s := s.print "[boot] loading `setup'...\r\n"
    let s ← diskError s (int13Read disks 0 2 SETUP_SECTORS 0x90200 s)
    let s := s.print "[boot] loading `system'...\r\n"
    diskError s (int13Ext disks 2 (SYS_SECTORS sysSize) 0x10000 s)

def KCONF_RAMDISKSTART : Nat := 0x80004
def KCONF_RAMDISKEND : Nat := 0x80008
def RD_SECTORS : Nat := 1

/-- DX when the search is over: the second loop keeps its end there. -/
def rsdpDx (fuel : Nat) (m : Mem) (dx : Nat) : Option Nat := do
  match ← lookup m 0xFFFF fuel 0xE000 with
  | some _ => some dx
  | none => some ((lookup2Start m + 0x400) % 0x10000)

/-- Only DL is set for the drive. -/
def loadRamdisk (disks : Disks) (s : Pc) : Pc :=
  let s := { s.print "[setup] loading `ramdisk'..." with dx := s.dx / 256 * 256 + 0x81 }
  match int13Read disks 0 1 RD_SECTORS 0x30000 s with
  | .ok s =>
    let m := storeWord s.mem KCONF_FLAGS (load16 s.mem KCONF_FLAGS ||| 1)
    let m := store32 m KCONF_RAMDISKSTART 0x30000
    { s.print "\r\n" with mem := store32 m KCONF_RAMDISKEND 0x40000 }
  | .error _ => s.print "n/a\r\n"

/-- CX is a word. -/
def moveSystem (sysSize : Nat) (s : Pc) : Pc :=
  let s := s.print "[setup] moving `system' from 1000:0000 to 0000:0000...\r\n"
  { s with mem := memcpy s.mem 0 0x10000 (sysSize % 0x10000) }

def setup (disks : Disks) (sysSize fuel : Nat) (s : Pc) : Option Pc := do
  let (m, text) ← setupRsdp fuel s.mem
  let dx ← rsdpDx fuel s.mem s.dx
  some (moveSystem sysSize (loadRamdisk disks ⟨m, dx, s.screen ++ text⟩))

/- `kernel/entry.S` -/

/-- The address on the bus: while the gate is closed bit 20 is low. -/
def phys (a20 : Bool) (a : Nat) : Nat :=
  if a20 = false ∧ a / 0x100000 % 2 = 1 then a - 0x100000 else a

/-- The machine: memory, the gate, and port 0x92. -/
structure Machine where
  mem : Mem
  a20 : Bool
  port92 : UInt8

/-- Bit 1 of the port opens the gate. -/
def Machine.out92 (s : Machine) (v : UInt8) : Machine :=
  { s with port92 := v, a20 := s.a20 || (v &&& 0x2 ≠ 0) }

def Machine.store (s : Machine) (a v : Nat) : Machine :=
  { s with mem := store32 s.mem (phys s.a20 a) v }

def enableA20Fast (s : Machine) : Machine :=
  if s.port92 &&& 0x2 ≠ 0 then s else s.out92 ((s.port92 ||| 0x2) &&& 0xFE)

def checkA20 (s : Machine) : Machine :=
  let s := s.store 0x200000 0x200000
  let s := s.store 0x100000 0x100000
  if load32 s.mem (phys s.a20 0x200000) ≠ load32 s.mem (phys s.a20 0x100000) then s
  else enableA20Fast s

/-- `rep stosl` with EAX = 0 -/
def stosl : Nat → Nat → Machine → Machine
  | 0, _, s => s
  | n+1, edi, s => stosl n (edi + 4) (s.store edi 0)

/-- Up to the call of `kernel_main`, whose argument is pushed. -/
def kernelEntry (bssStart bssEnd : Nat) (s : Machine) : Machine :=
  let s := checkA20 s
  let s := stosl ((bssEnd - bssStart) >>> 2) bssStart s
  s.store 0x3FFFFC 0x80000

/- What the two programs leave in memory. -/

section
variable {disks : Disks} {d : Disk} {m m' : Mem} {s t u : Pc} {sysSize fuel : Nat}

theorem Disk.bytes_length (d : Disk) (lba count : Nat) :
    (d.bytes lba count).length = 512 * count := by
  rw [bytes, List.length_map, List.length_range]

theorem Disk.bytes_get (d : Disk) {lba count i : Nat} (h : i < 512 * count) :
    (d.bytes lba count)[i]? = some (d.byte (512 * lba + i)) := by
  rw [bytes, List.getElem?_map, List.getElem?_range h, Option.map_some]

/-- A read that succeeds puts the sectors in memory. -/
theorem Disk.read_ok {lba count addr : Nat} (h : d.read lba count addr m = .ok m') :
    m' = putBytes m addr (d.bytes lba count) := by
  rw [read] at h
  split at h
  · split at h
    · simp at h
    · exact (Except.ok.inj h).symm
  · simp at h

theorem Disk.read_frame {lba count addr : Nat} (h : d.read lba count addr m = .ok m') :
    Frame [(addr, 512 * count)] m m' := by
  have hframe := putBytes_frame m addr (d.bytes lba count)
  rw [Disk.bytes_length] at hframe
  exact read_ok h ▸ hframe

theorem Disk.read_at {lba count addr i : Nat} (h : d.read lba count addr m = .ok m')
    (hi : i < 512 * count) : m' (addr + i) = d.byte (512 * lba + i) :=
  read_ok h ▸ putBytes_at (d.bytes_get hi)

theorem diskError_ok {r : Except UInt8 Pc} (h : diskError s r = .ok t) : r = .ok t := by
  cases r with
  | error code => simp [diskError, Except.mapError] at h
  | ok v => exact congrArg _ (Except.ok.inj h)

theorem int13Ext_ok {lba count addr : Nat} (h : int13Ext disks lba count addr s = .ok t) :
    ∃ d m, disks (s.dx % 256) = some d ∧ d.read lba count addr s.mem = .ok m ∧
      t = { s with mem := m } := by
  rw [int13Ext] at h
  cases hd : disks (s.dx % 256) with
  | none => simp [hd] at h
  | some d =>
    rw [hd] at h
    cases hr : d.read lba count addr s.mem with
    | error code => simp [hr, Except.map] at h
    | ok m =>
      simp only [hr, Except.map] at h
      exact ⟨d, m, rfl, hr, (Except.ok.inj h).symm⟩

theorem int13Read_ok {cylinder sector count addr : Nat}
    (h : int13Read disks cylinder sector count addr s = .ok t) :
    ∃ m, t = { s with mem := m } ∧ Frame [(addr, 512 * count)] s.mem m := by
  rw [int13Read] at h
  cases hd : disks (s.dx % 256) with
  | none => simp [hd] at h
  | some d =>
    rw [hd] at h
    cases hr : d.readChs cylinder (s.dx / 256) sector count addr s.mem with
    | error code => simp [hr, Except.map] at h
    | ok m =>
      simp only [hr, Except.map] at h
      rw [Disk.readChs] at hr
      split at hr
      · exact ⟨m, (Except.ok.inj h).symm, Disk.read_frame hr⟩
      · simp at hr

/-- When `bootsect` jumps to `setup` the whole sectors of the system are at `1000:0000`, and what
is behind them is as it was. -/
theorem bootsect_loaded (hb : bootsect disks sysSize s = .ok t) :
    ∃ d, disks 0x80 = some d ∧ t.dx = s.dx ∧
      (∀ i, i < 512 * (sysSize / 512) → t.mem (0x10000 + i) = d.byte (1024 + i)) ∧
      ∀ y, 0x10000 + 512 * (sysSize / 512) ≤ y → y < 0x90000 → t.mem y = s.mem y := by
  have hcount : SYS_SECTORS sysSize = sysSize / 512 := Nat.shiftRight_eq_div_pow sysSize 9
  have hcopy : ∀ y, y < 0x90000 →
      memcpy s.mem 0x90000 0x7C00 (2 * (SETUP_SECTORS <<< 8)) y = s.mem y :=
    fun y hy => memcpy_frame _ _ _ _ y (outside_single.mpr (Or.inl hy))
  rw [bootsect] at hb
  generalize memcpy s.mem 0x90000 0x7C00 (2 * (SETUP_SECTORS <<< 8)) = m₀ at hb hcopy
  split at hb
  · simp [throw, throwThe, MonadExceptOf.throw] at hb
  · next hdl =>
    have hdl : s.dx % 256 = 0x80 := not_not.mp hdl
    cases hsetup : diskError (({ s with mem := m₀ } : Pc).print "[boot] loading `setup'...\r\n")
        (int13Read disks 0 2 SETUP_SECTORS 0x90200
          (({ s with mem := m₀ } : Pc).print "[boot] loading `setup'...\r\n")) with
    | error screen =>
      simp only [hsetup, bind, Except.bind] at hb
      exact absurd hb (by simp)
    | ok v =>
      simp only [hsetup, bind, Except.bind] at hb
      obtain ⟨m₁, rfl, hframe₁⟩ := int13Read_ok (diskError_ok hsetup)
      obtain ⟨d, m₂, hd, hread, rfl⟩ := int13Ext_ok (diskError_ok hb)
      simp only [Pc.print_dx, hdl] at hd
      rw [hcount] at hread
      refine ⟨d, hd, rfl, fun i hi => Disk.read_at hread hi, fun y h1 h2 => ?_⟩
      refine (Disk.read_frame hread y (outside_single.mpr (Or.inr h1))).trans ?_
      exact (hframe₁ y (outside_single.mpr (Or.inl (by omega)))).trans (hcopy y h2)

theorem storeWord_frame {areas : List (Nat × Nat)} {a n p v : Nat} (h : Frame areas m m')
    (hin : (a, n) ∈ areas) (h1 : a ≤ p) (h2 : p + 2 ≤ a + n) :
    Frame areas m (storeWord m' p v) := by
  intro y hy
  have hout := hy _ hin
  simp only at hout
  rw [storeWord, store8_ne _ _ y _ (by omega), store8_ne _ _ y _ (by omega)]
  exact h y hy

theorem store32_frame {areas : List (Nat × Nat)} {a n p v : Nat} (h : Frame areas m m')
    (hin : (a, n) ∈ areas) (h1 : a ≤ p) (h2 : p + 4 ≤ a + n) : Frame areas m (store32 m' p v) := by
  intro y hy
  have hout := hy _ hin
  simp only at hout
  rw [store32_outside _ _ _ y (by omega)]
  exact h y hy

/-- The kernel configuration, and what of it the search writes. -/
def kconf : Nat × Nat := (0x80000, 12)

theorem foundRsdp_frame (m : Mem) (ax : Nat) : Frame [(0x80000, 4)] m (foundRsdp m ax) := by
  have h0 := Frame.refl [(0x80000, 4)] m
  have h1 := storeWord_frame (v := load16 m KCONF_FLAGS ||| 2) h0 (List.mem_singleton_self _)
    (by decide : 0x80000 ≤ KCONF_FLAGS) (by decide)
  exact storeWord_frame h1 (List.mem_singleton_self _) (by decide : 0x80000 ≤ KCONF_RSDPSEG)
    (by decide)

theorem setupRsdp_frame {text : List UInt8} (h : setupRsdp fuel m = some (m', text)) :
    Frame [(0x80000, 4)] m m' := by
  rw [setupRsdp] at h
  cases hl : lookupRsdp fuel m with
  | none => simp [hl] at h
  | some r =>
    cases r with
    | none =>
      simp only [hl, Option.bind_eq_bind, Option.bind_some, Option.some.injEq, Prod.mk.injEq] at h
      exact h.1 ▸ Frame.refl _ m
    | some ax =>
      simp only [hl, Option.bind_eq_bind, Option.bind_some, Option.some.injEq, Prod.mk.injEq] at h
      exact h.1 ▸ foundRsdp_frame m ax

/-- The state in which the sector of the ramdisk is read. -/
def atRead (s : Pc) : Pc :=
  { s.print "[setup] loading `ramdisk'..." with dx := s.dx / 256 * 256 + 0x81 }

theorem loadRamdisk_eq (disks : Disks) (s : Pc) : loadRamdisk disks s =
    match int13Read disks 0 1 RD_SECTORS 0x30000 (atRead s) with
    | .ok s =>
      let m := storeWord s.mem KCONF_FLAGS (load16 s.mem KCONF_FLAGS ||| 1)
      let m := store32 m KCONF_RAMDISKSTART 0x30000
      { s.print "\r\n" with mem := store32 m KCONF_RAMDISKEND 0x40000 }
    | .error _ => (atRead s).print "n/a\r\n" := rfl

theorem loadRamdisk_frame (disks : Disks) (s : Pc) :
    Frame [(0x30000, 512), kconf] s.mem (loadRamdisk disks s).mem := by
  rw [loadRamdisk_eq]
  cases hr : int13Read disks 0 1 RD_SECTORS 0x30000 (atRead s) with
  | error code => exact Frame.refl _ _
  | ok v =>
    obtain ⟨m₁, rfl, hframe⟩ := int13Read_ok hr
    have hin : kconf ∈ [(0x30000, 512), kconf] := List.mem_cons_of_mem _ (List.mem_singleton_self _)
    have h0 : Frame [(0x30000, 512), kconf] s.mem m₁ := fun y hy =>
      hframe y (outside_single.mpr (outside_cons.mp hy).1)
    have h1 := storeWord_frame (v := load16 m₁ KCONF_FLAGS ||| 1) h0 hin
      (by decide : 0x80000 ≤ KCONF_FLAGS) (by decide)
    have h2 := store32_frame (v := 0x30000) h1 hin (by decide : 0x80000 ≤ KCONF_RAMDISKSTART)
      (by decide)
    exact store32_frame h2 hin (by decide : 0x80000 ≤ KCONF_RAMDISKEND) (by decide)

/-- The parts of `setup`. -/
theorem setup_cases (h : setup disks sysSize fuel s = some u) :
    ∃ m text dx, setupRsdp fuel s.mem = some (m, text) ∧ rsdpDx fuel s.mem s.dx = some dx ∧
      u = moveSystem sysSize (loadRamdisk disks ⟨m, dx, s.screen ++ text⟩) := by
  rw [setup] at h
  obtain ⟨⟨m, text⟩, hm, h⟩ := Option.bind_eq_some_iff.mp h
  obtain ⟨dx, hdx, h⟩ := Option.bind_eq_some_iff.mp h
  exact ⟨m, text, dx, hm, hdx, (Option.some.inj h).symm⟩

/-- `setup` moves what is at `1000:0000`. -/
theorem setup_moved (hs : setup disks sysSize fuel s = some u) (hsize : sysSize < 0x10000) {i : Nat}
    (hi : i < sysSize) : u.mem i = s.mem (0x10000 + i) := by
  obtain ⟨m, text, dx, hm, -, rfl⟩ := setup_cases hs
  have hframe := loadRamdisk_frame disks ⟨m, dx, s.screen ++ text⟩
  have hcopied : (moveSystem sysSize (loadRamdisk disks ⟨m, dx, s.screen ++ text⟩)).mem (0 + i) =
      (loadRamdisk disks ⟨m, dx, s.screen ++ text⟩).mem (0x10000 + i) := by
    rw [moveSystem, Nat.mod_eq_of_lt hsize]
    exact memcpy_copied (Or.inl (by omega)) hi
  rw [Nat.zero_add] at hcopied
  refine hcopied.trans ((hframe _ ?_).trans (setupRsdp_frame hm _ ?_))
  · simp only [kconf, outside_cons, outside_nil, and_true]
    omega
  · rw [outside_single]
    omega

theorem rsdpDx_eq (hfuel : 0x10000 ≤ fuel) (m : Mem) (dx : Nat) : rsdpDx fuel m dx =
    some (if ∃ k, k < 0x2000 ∧ Near m (0xE000 + k) then dx
      else (lookup2Start m + 0x400) % 0x10000) := by
  obtain ⟨r, hr, hrun⟩ := lookup_first m hfuel
  rw [rsdpDx, hrun]
  cases r with
  | none =>
    have hnone : ¬ ∃ k, k < 0x2000 ∧ Near m (0xE000 + k) := fun hex => by
      obtain ⟨k, hk⟩ := exists_firstBelow_some.mp hex
      exact absurd (hr.unique hk) (by simp)
    rw [if_neg hnone]
    rfl
  | some k =>
    rw [if_pos (exists_firstBelow_some.mpr ⟨k, hr⟩)]
    rfl

/- A disk of 1024 sectors, as both drives. -/

def disk1024 : Disk := ⟨1, 63, 1024, fun i => UInt8.ofNat i, fun _ => none⟩

def bothDrives : Disks := fun dl => if dl = 0x80 ∨ dl = 0x81 then some disk1024 else none

def clearMem : Mem := ⟨fun _ => 0⟩

theorem setup_some (disks : Disks) (sysSize : Nat) (s : Pc) :
    ∃ u, setup disks sysSize 0x10000 s = some u := by
  obtain ⟨r, hr, hrun⟩ := lookup_first s.mem (Nat.le_refl 0x10000)
  have hfound : ∃ r, lookupRsdp 0x10000 s.mem = some r := by
    cases r with
    | some k => exact ⟨_, lookupRsdp_found (Nat.le_refl _) hr⟩
    | none =>
      obtain ⟨r2, hr2, -⟩ := lookup_second s.mem (Nat.le_refl 0x10000)
      exact ⟨_, lookupRsdp_second (Nat.le_refl _) hr hr2⟩
  obtain ⟨r, hr⟩ := hfound
  rw [setup, setupRsdp, hr, rsdpDx_eq (Nat.le_refl _)]
  cases r with
  | none => exact ⟨_, rfl⟩
  | some ax => exact ⟨_, rfl⟩

theorem bothDrives_read {s : Pc} (h : s.dx = 0x80) :
    ∃ m, int13Read bothDrives 0 2 SETUP_SECTORS 0x90200 s = .ok { s with mem := m } := by
  rw [int13Read, h]
  exact ⟨_, rfl⟩

theorem bothDrives_ext {s : Pc} (h : s.dx = 0x80) :
    ∃ m, int13Ext bothDrives 2 (SYS_SECTORS 512) 0x10000 s = .ok { s with mem := m } := by
  rw [int13Ext, h]
  exact ⟨_, rfl⟩

theorem bootsect_runs (m : Mem) : ∃ t, bootsect bothDrives 512 ⟨m, 0x80, []⟩ = .ok t := by
  rw [bootsect]
  generalize memcpy _ 0x90000 0x7C00 (2 * (SETUP_SECTORS <<< 8)) = m₀
  obtain ⟨m₁, h1⟩ := bothDrives_read
    (s := (⟨m₀, 0x80, []⟩ : Pc).print "[boot] loading `setup'...\r\n") rfl
  obtain ⟨m₂, h2⟩ := bothDrives_ext
    (s := ({ (⟨m₀, 0x80, []⟩ : Pc).print "[boot] loading `setup'...\r\n" with mem := m₁ } :
      Pc).print "[boot] loading `system'...\r\n") rfl
  rw [if_neg (by simp)]
  simp only [h1, diskError, Except.mapError, bind, Except.bind, h2]
  exact ⟨_, rfl⟩

/-- The kernel at address 0 is the one on the disk as far as it fills whole sectors; what is behind
them comes from wherever memory had it. So it is complete when its size is a multiple of 512. -/
theorem kernel_placed (hsize : sysSize < 0x10000) (hb : bootsect disks sysSize s = .ok t)
    (hs : setup disks sysSize fuel t = some u) :
    ∃ d, disks 0x80 = some d ∧
      (∀ i, i < 512 * (sysSize / 512) → u.mem i = d.byte (1024 + i)) ∧
      (∀ i, 512 * (sysSize / 512) ≤ i → i < sysSize → u.mem i = s.mem (0x10000 + i)) ∧
      (512 ∣ sysSize → ∀ i, i < sysSize → u.mem i = d.byte (1024 + i)) := by
  obtain ⟨d, hd, -, hloaded, hrest⟩ := bootsect_loaded hb
  have hwhole : ∀ i, i < 512 * (sysSize / 512) → u.mem i = d.byte (1024 + i) := fun i hi =>
    (setup_moved hs hsize (by omega)).trans (hloaded i hi)
  refine ⟨d, hd, hwhole, fun i h1 h2 => ?_, fun hdvd i hi => ?_⟩
  · exact (setup_moved hs hsize h2).trans (hrest _ (by omega) (by omega))
  · exact hwhole i (by rwa [Nat.mul_div_cancel' hdvd])

theorem kernel_placed_sector : ∃ t u,
    bootsect bothDrives 512 ⟨clearMem, 0x80, []⟩ = .ok t ∧
    setup bothDrives 512 0x10000 t = some u ∧ ∃ d, bothDrives 0x80 = some d ∧
      ∀ i, i < 512 → u.mem i = d.byte (1024 + i) := by
  obtain ⟨t, ht⟩ := bootsect_runs clearMem
  obtain ⟨u, hu⟩ := setup_some bothDrives 512 t
  obtain ⟨d, hd, -, -, hall⟩ := kernel_placed (by decide) ht hu
  exact ⟨t, u, ht, hu, d, hd, hall (Nat.dvd_refl 512)⟩

/- The ramdisk. -/

/-- The head that DH holds when the ramdisk is read: nobody sets it, and the second loop of the
search leaves the end of its range there. -/
def ramdiskHead (m : Mem) (dx : Nat) : Nat :=
  (if ∃ k, k < 0x2000 ∧ Near m (0xE000 + k) then dx else (lookup2Start m + 0x400) % 0x10000) / 256

/-- The first sector under the head can be read. -/
def Disk.Reads (d : Disk) (head : Nat) : Prop :=
  1 ≤ d.perTrack ∧ head < d.heads ∧ head * d.perTrack < d.sectors ∧
    d.fault (head * d.perTrack) = none

theorem readChs_first (d : Disk) (head addr : Nat) (m : Mem) :
    (d.Reads head → d.readChs 0 head 1 1 addr m =
      .ok (putBytes m addr (d.bytes (head * d.perTrack) 1))) ∧
    (¬ d.Reads head → ∃ code, d.readChs 0 head 1 1 addr m = .error code) := by
  have hlba : (0 * d.heads + head) * d.perTrack + (1 - 1) = head * d.perTrack := by
    rw [Nat.zero_mul, Nat.zero_add, Nat.sub_self, Nat.add_zero]
  have hrange : ((List.range 1).findSome? fun k => d.fault (head * d.perTrack + k)) =
      d.fault (head * d.perTrack) := by
    simp
  by_cases hgeo : 1 ≤ 1 ∧ 1 ≤ d.perTrack ∧ head < d.heads
  · rw [Disk.readChs, if_pos hgeo, hlba, Disk.read, hrange]
    by_cases hsec : head * d.perTrack + 1 ≤ d.sectors
    · rw [if_pos hsec]
      cases hf : d.fault (head * d.perTrack) with
      | none => exact ⟨fun _ => rfl, fun hno => absurd ⟨hgeo.2.1, hgeo.2.2, hsec, hf⟩ hno⟩
      | some code =>
        exact ⟨fun hr => absurd (hf.symm.trans hr.2.2.2) (by simp), fun _ => ⟨code, rfl⟩⟩
    · rw [if_neg hsec]
      exact ⟨fun hr => absurd hr.2.2.1 hsec, fun _ => ⟨_, rfl⟩⟩
  · rw [Disk.readChs, if_neg hgeo]
    exact ⟨fun hr => absurd ⟨Nat.le_refl 1, hr.1, hr.2.1⟩ hgeo, fun _ => ⟨_, rfl⟩⟩

theorem load16_congr {a : Nat} (h : ∀ y, a ≤ y → y < a + 2 → m' y = m y) :
    load16 m' a = load16 m a := by
  rw [load16, load16, h a (by omega) (by omega), h (a + 1) (by omega) (by omega)]

theorem setupRsdp_bit {text : List UInt8} (h : setupRsdp fuel m = some (m', text)) :
    (load16 m' KCONF_FLAGS).testBit 0 = (load16 m KCONF_FLAGS).testBit 0 := by
  rw [setupRsdp] at h
  cases hl : lookupRsdp fuel m with
  | none => simp [hl] at h
  | some r =>
    cases r with
    | none =>
      simp only [hl, Option.bind_eq_bind, Option.bind_some, Option.some.injEq, Prod.mk.injEq] at h
      rw [h.1]
    | some ax =>
      simp only [hl, Option.bind_eq_bind, Option.bind_some, Option.some.injEq, Prod.mk.injEq] at h
      have hlt : 0x10000 = 2 ^ 16 := by decide
      rw [← h.1, foundRsdp, load16_storeWord_ne _ _ (by decide), load16_storeWord, hlt,
        Nat.testBit_mod_two_pow, Nat.testBit_or]
      simp

/-- Behind the move, memory above the kernel is as it was before. -/
theorem moveSystem_above (sysSize : Nat) (s : Pc) {y : Nat} (hy : 0x10000 ≤ y) :
    (moveSystem sysSize s).mem y = s.mem y := by
  refine memcpy_frame _ 0 0x10000 _ y (outside_single.mpr (Or.inr ?_))
  have := Nat.mod_lt sysSize (by decide : 0x10000 > 0)
  omega

/-- What `load_ramdisk` leaves: the first sector under the head and the configuration, or nothing
when it cannot be read. -/
structure Ramdisk (d : Disk) (head : Nat) (m m' : Mem) : Prop where
  loaded : d.Reads head →
    (∀ i, i < 512 → m' (0x30000 + i) = d.byte (512 * (head * d.perTrack) + i)) ∧
    load32 m' KCONF_RAMDISKSTART = 0x30000 ∧ load32 m' KCONF_RAMDISKEND = 0x40000 ∧
    (load16 m' KCONF_FLAGS).testBit 0 = true
  missing : ¬ d.Reads head → (∀ i, i < 512 → m' (0x30000 + i) = m (0x30000 + i)) ∧
    (load16 m' KCONF_FLAGS).testBit 0 = (load16 m KCONF_FLAGS).testBit 0
  rest : ∀ y, 0x30200 ≤ y → y < 0x40000 → m' y = m y

theorem loadRamdisk_ramdisk (hd : disks 0x81 = some d) (s : Pc) :
    Ramdisk d (s.dx / 256) s.mem (loadRamdisk disks s).mem := by
  have hdl : (atRead s).dx % 256 = 0x81 := by
    change (s.dx / 256 * 256 + 0x81) % 256 = 0x81
    omega
  have hdh : (atRead s).dx / 256 = s.dx / 256 := by
    change (s.dx / 256 * 256 + 0x81) / 256 = s.dx / 256
    omega
  have hread : int13Read disks 0 1 RD_SECTORS 0x30000 (atRead s) =
      (d.readChs 0 (s.dx / 256) 1 RD_SECTORS 0x30000 s.mem).map fun m =>
        { atRead s with mem := m } := by
    rw [int13Read, hdl, hd, hdh]
    rfl
  have hframe := loadRamdisk_frame disks s
  obtain ⟨hgood, hbad⟩ := readChs_first d (s.dx / 256) 0x30000 s.mem
  constructor
  · intro hr
    have hrun : loadRamdisk disks s = _ := loadRamdisk_eq disks s
    rw [hread, RD_SECTORS, hgood hr] at hrun
    simp only [Except.map] at hrun
    rw [hrun]
    refine ⟨fun i hi => ?_, ?_, ?_, ?_⟩
    · simp only [KCONF_RAMDISKEND, KCONF_RAMDISKSTART, KCONF_FLAGS]
      rw [store32_outside _ _ _ _ (by omega), store32_outside _ _ _ _ (by omega), storeWord,
        store8_ne _ _ _ _ (by omega), store8_ne _ _ _ _ (by omega)]
      exact putBytes_at (d.bytes_get (by omega))
    · simp only [KCONF_RAMDISKEND, KCONF_RAMDISKSTART]
      rw [load32_store32_ne _ _ _ _ (by decide), load32_store32]
    · simp only [KCONF_RAMDISKEND]
      rw [load32_store32]
    · simp only [KCONF_RAMDISKEND, KCONF_RAMDISKSTART]
      rw [load16_congr fun y h1 h2 => store32_outside _ _ _ y (by simp [KCONF_FLAGS] at h2; omega),
        load16_congr fun y h1 h2 => store32_outside _ _ _ y (by simp [KCONF_FLAGS] at h2; omega),
        load16_storeWord, show 0x10000 = 2 ^ 16 by decide, Nat.testBit_mod_two_pow, Nat.testBit_or]
      simp
  · intro hr
    obtain ⟨code, hcode⟩ := hbad hr
    have hsame : (loadRamdisk disks s).mem = s.mem := by
      rw [loadRamdisk_eq, hread, RD_SECTORS, hcode]
      rfl
    rw [hsame]
    exact ⟨fun _ _ => rfl, rfl⟩
  · intro y h1 h2
    refine hframe y ?_
    simp only [kconf, outside_cons, outside_nil, and_true]
    omega

/-- `setup` loads one sector as ramdisk, and says so in the configuration, exactly when the first
sector under the head that the search has left in DH can be read; that is the first sector of the
disk when DH is 0. What else the configuration calls ramdisk is as it was. -/
theorem ramdisk_loaded (hfuel : 0x10000 ≤ fuel) (hd : disks 0x81 = some d)
    (hs : setup disks sysSize fuel s = some u) :
    Ramdisk d (ramdiskHead s.mem s.dx) s.mem u.mem ∧
      (ramdiskHead s.mem s.dx = 0 → d.Reads 0 → ∀ i, i < 512 → u.mem (0x30000 + i) = d.byte i) := by
  obtain ⟨m, text, dx, hm, hdx, rfl⟩ := setup_cases hs
  rw [rsdpDx_eq hfuel] at hdx
  have hhead : dx / 256 = ramdiskHead s.mem s.dx := congrArg (· / 256) (Option.some.inj hdx).symm
  have hram := loadRamdisk_ramdisk hd ⟨m, dx, s.screen ++ text⟩
  have hsearch := setupRsdp_frame hm
  have hbit := setupRsdp_bit hm
  have habove : ∀ y, 0x10000 ≤ y →
      (moveSystem sysSize (loadRamdisk disks ⟨m, dx, s.screen ++ text⟩)).mem y =
        (loadRamdisk disks ⟨m, dx, s.screen ++ text⟩).mem y := fun y hy => moveSystem_above _ _ hy
  generalize loadRamdisk disks ⟨m, dx, s.screen ++ text⟩ = v at hram habove
  generalize moveSystem sysSize v = u at habove
  have hword : ∀ a, 0x10000 ≤ a → load32 u.mem a = load32 v.mem a := fun a ha =>
    load32_congr fun y h1 _ => habove y (by omega)
  have hflags : load16 u.mem KCONF_FLAGS = load16 v.mem KCONF_FLAGS :=
    load16_congr fun y h1 _ => habove y (by simp [KCONF_FLAGS] at h1; omega)
  simp only [hhead] at hram
  have hfinal : Ramdisk d (ramdiskHead s.mem s.dx) s.mem u.mem := by
    constructor
    · intro hr
      obtain ⟨hbytes, hstart, hend, hflag⟩ := hram.loaded hr
      refine ⟨fun i hi => (habove _ (by omega)).trans (hbytes i hi), ?_, ?_, hflags ▸ hflag⟩
      · exact (hword _ (by decide)).trans hstart
      · exact (hword _ (by decide)).trans hend
    · intro hr
      obtain ⟨hbytes, hflag⟩ := hram.missing hr
      refine ⟨fun i hi => ?_, ?_⟩
      · exact (habove _ (by omega)).trans ((hbytes i hi).trans
          (hsearch _ (outside_single.mpr (by omega))))
      · rw [hflags, hflag]
        exact hbit
    · intro y h1 h2
      exact (habove y (by omega)).trans ((hram.rest y h1 h2).trans
        (hsearch y (outside_single.mpr (by omega))))
  refine ⟨hfinal, fun h0 hr i hi => ?_⟩
  rw [h0] at hfinal
  have hbyte := (hfinal.loaded hr).1 i hi
  rwa [Nat.zero_mul, Nat.mul_zero, Nat.zero_add] at hbyte

theorem ramdisk_loaded_first : ∃ u, setup bothDrives 512 0x10000 ⟨nearMiss, 0, []⟩ = some u ∧
    ∀ i, i < 512 → u.mem (0x30000 + i) = disk1024.byte i := by
  obtain ⟨u, hu⟩ := setup_some bothDrives 512 ⟨nearMiss, 0, []⟩
  have hhead : ramdiskHead nearMiss 0 = 0 := by
    rw [ramdiskHead, if_pos ⟨0, by decide, by decide⟩]
  have hreads : disk1024.Reads 0 := ⟨by decide, by decide, by decide, rfl⟩
  exact ⟨u, hu, (ramdisk_loaded (Nat.le_refl _) rfl hu).2 hhead hreads⟩

/- `kernel_entry` -/

theorem phys_low {g : Bool} {a : Nat} (h : a < 0x100000) : phys g a = a := by
  rw [phys, if_neg]
  omega

theorem store_low (k : Machine) {a v : Nat} (h : a < 0x100000) :
    k.store a v = { k with mem := store32 k.mem a v } := by
  rw [Machine.store, phys_low h]

/-- Memory with the two words of the check. -/
def checkedMem (k : Machine) : Mem :=
  store32 (store32 k.mem 0x200000 0x200000) (phys k.a20 0x100000) 0x100000

/-- The two addresses of the check are different ones whether the gate is open or not, so the check
never asks for the gate to be opened. -/
theorem checkA20_eq (k : Machine) : checkA20 k = { k with mem := checkedMem k } := by
  have hhigh : phys k.a20 0x200000 = 0x200000 := if_neg (by omega)
  have happ : 0x200000 + 4 ≤ phys k.a20 0x100000 ∨ phys k.a20 0x100000 + 4 ≤ 0x200000 := by
    unfold phys
    split_ifs <;> omega
  have hhere : load32 (checkedMem k) 0x200000 = 0x200000 := by
    rw [checkedMem, load32_store32_ne _ _ _ _ happ, load32_store32]
  have hthere : load32 (checkedMem k) (phys k.a20 0x100000) = 0x100000 := load32_store32 _ _ _
  rw [checkA20]
  simp only [Machine.store, hhigh]
  rw [← checkedMem, hhere, hthere]
  exact if_pos (by decide)

theorem checkedMem_low (k : Machine) {y : Nat} (hy : y < 0x100000) (h : k.a20 = true ∨ 4 ≤ y) :
    checkedMem k y = k.mem y := by
  have hout : y < phys k.a20 0x100000 ∨ phys k.a20 0x100000 + 4 ≤ y := by
    cases h with
    | inl hopen =>
      rw [phys, if_neg (by simp [hopen])]
      exact Or.inl hy
    | inr h4 =>
      unfold phys
      split_ifs <;> omega
  rw [checkedMem, store32_outside _ _ _ y hout, store32_outside _ _ _ y (by omega)]

theorem store32_zero {m : Mem} {a y : Nat} (h1 : a ≤ y) (h2 : y < a + 4) :
    store32 m a 0 y = 0 := by
  have hbyte : ∀ i, byteOf 0 i = 0 := fun i => by simp [byteOf]
  simp only [store32, hbyte]
  split_ifs <;> first | rfl | omega

/-- What `rep stosl` leaves in the first megabyte. -/
theorem stosl_zero {n edi : Nat} {k : Machine} (h : edi + 4 * n ≤ 0x100000) :
    ∃ m, stosl n edi k = { k with mem := m } ∧ Frame [(edi, 4 * n)] k.mem m ∧
      ∀ y, edi ≤ y → y < edi + 4 * n → m y = 0 := by
  induction n generalizing edi k with
  | zero => exact ⟨k.mem, rfl, Frame.refl _ _, fun y h1 h2 => absurd h2 (by omega)⟩
  | succ n ih =>
    obtain ⟨m, hrun, hframe, hzero⟩ := @ih (edi + 4) (k.store edi 0) (by omega)
    rw [stosl, hrun, store_low k (by omega)] at *
    refine ⟨m, rfl, fun y hy => ?_, fun y h1 h2 => ?_⟩
    · rw [outside_single] at hy
      refine (hframe y (outside_single.mpr (by omega))).trans ?_
      exact store32_outside _ _ _ y (by omega)
    · by_cases hhead : y < edi + 4
      · rw [hframe y (outside_single.mpr (Or.inl hhead))]
        exact store32_zero (by omega) hhead
      · exact hzero y (by omega) (by omega)

/-- The machine that `kernel_main` is called on. -/
structure Entered (bssStart bssEnd : Nat) (k k' : Machine) : Prop where
  gate : k'.a20 = k.a20 ∧ k'.port92 = k.port92
  bss : ∀ y, bssStart ≤ y → y < bssEnd → k'.mem y = 0
  rest : ∀ y, 4 ≤ y → y < 0x100000 → y < bssStart ∨ bssEnd ≤ y → k'.mem y = k.mem y
  first : k.a20 = true → ∀ y, y < 4 → y < bssStart → k'.mem y = k.mem y
  argument : load32 k'.mem (phys k.a20 0x3FFFFC) = 0x80000

theorem kernelEntry_entered {bssStart bssEnd : Nat} (k : Machine) (h4 : 4 ∣ bssEnd - bssStart)
    (hlow : bssEnd ≤ 0x100000) (hle : bssStart ≤ bssEnd) :
    Entered bssStart bssEnd k (kernelEntry bssStart bssEnd k) := by
  have hcount : 4 * ((bssEnd - bssStart) >>> 2) = bssEnd - bssStart := by
    rw [Nat.shiftRight_eq_div_pow]
    exact Nat.mul_div_cancel' h4
  have hstack : 0x100000 ≤ phys k.a20 0x3FFFFC := by
    unfold phys
    split_ifs <;> omega
  obtain ⟨m, hrun, hframe, hzero⟩ :=
    @stosl_zero ((bssEnd - bssStart) >>> 2) bssStart (checkA20 k) (by omega)
  rw [hcount] at hframe hzero
  rw [checkA20_eq] at hrun hframe
  rw [kernelEntry, checkA20_eq, hrun]
  have hkept : ∀ y, y < 0x100000 → y < bssStart ∨ bssEnd ≤ y → (k.a20 = true ∨ 4 ≤ y) →
      store32 m (phys k.a20 0x3FFFFC) 0x80000 y = k.mem y := by
    intro y hy hor hpos
    rw [store32_outside _ _ _ y (by omega), hframe y (outside_single.mpr (by omega))]
    exact checkedMem_low k hy hpos
  have hcleared : ∀ y, bssStart ≤ y → y < bssEnd →
      store32 m (phys k.a20 0x3FFFFC) 0x80000 y = 0 := by
    intro y h1 h2
    rw [store32_outside _ _ _ y (by omega)]
    exact hzero y h1 (by omega)
  exact {
    gate := ⟨rfl, rfl⟩
    bss := hcleared
    rest := fun y h1 h2 h3 => hkept y h2 h3 (Or.inr h1)
    first := fun hopen y h1 h2 => hkept y (by omega) (Or.inl h2) (Or.inl hopen)
    argument := load32_store32 _ _ _ }

/-- What `kernel_main` finds in the first megabyte of a kernel whose size is that of whole sectors:
the image of the disk, of which the check of a closed gate has destroyed the first word, and a BSS
of zeros; the check leaves the gate as the BIOS has left it. -/
theorem kernel_entered {bssStart bssEnd : Nat} {k : Machine} (hsize : sysSize < 0x10000)
    (hdvd : 512 ∣ sysSize) (hb : bootsect disks sysSize s = .ok t)
    (hs : setup disks sysSize fuel t = some u) (hk : k.mem = u.mem) (hstart : sysSize ≤ bssStart)
    (hle : bssStart ≤ bssEnd) (h4 : 4 ∣ bssEnd - bssStart) (hlow : bssEnd ≤ 0x100000) :
    Entered bssStart bssEnd k (kernelEntry bssStart bssEnd k) ∧
      ∃ d, disks 0x80 = some d ∧ ∀ i, (k.a20 = true ∨ 4 ≤ i) → i < sysSize →
        (kernelEntry bssStart bssEnd k).mem i = d.byte (1024 + i) := by
  have hentered := kernelEntry_entered k h4 hlow hle
  obtain ⟨d, hd, -, hloaded, -⟩ := bootsect_loaded hb
  have himage : ∀ i, i < sysSize → k.mem i = d.byte (1024 + i) := by
    intro i hi
    have hwhole : i < 512 * (sysSize / 512) := by rwa [Nat.mul_div_cancel' hdvd]
    exact (congrArg (· i) (congrArg Mem.byte hk)).trans
      ((setup_moved hs hsize hi).trans (hloaded i hwhole))
  refine ⟨hentered, d, hd, fun i hpos hi => ?_⟩
  refine Eq.trans ?_ (himage i hi)
  by_cases h : 4 ≤ i
  · exact hentered.rest i h (by omega) (Or.inl (by omega))
  · have hopen : k.a20 = true := hpos.resolve_right h
    exact hentered.first hopen i (by omega) (by omega)

theorem kernel_entered_closed : ∃ u : Pc,
    (∃ t, bootsect bothDrives 512 ⟨clearMem, 0x80, []⟩ = .ok t ∧
      setup bothDrives 512 0x10000 t = some u) ∧
    Entered 512 1024 ⟨u.mem, false, 0⟩ (kernelEntry 512 1024 ⟨u.mem, false, 0⟩) := by
  obtain ⟨t, ht⟩ := bootsect_runs clearMem
  obtain ⟨u, hu⟩ := setup_some bothDrives 512 t
  exact ⟨u, ⟨t, ht, hu⟩, (kernel_entered (by decide) (Nat.dvd_refl 512) ht hu rfl (Nat.le_refl 512)
    (by decide) (by decide) (by decide)).1⟩

end

end Foos.Boot
