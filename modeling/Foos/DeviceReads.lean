import Foos.LifeCycle
import Foos.OpenClose

/-! `fs_read` of a device file: what it writes into the buffer, and what it returns. -/
namespace Foos.Devices
open Terminal Program ByteMemory Word32 Fs

/-- The number of pending characters after a key. -/
def pendingAfter (key : UInt8) (n : Nat) : Nat :=
  match keyOf key with
  | .quiet => n
  | .enter => 0
  | .backspace => n - 1
  | .char => n + 1

/-- The length of the first line among the keys, behind `n` characters typed already. -/
def lineLength : List UInt8 → Nat → Option Nat
  | [], _ => none
  | key :: keys, n =>
    if keyOf key = .enter then some n else lineLength keys (pendingAfter key n)

/-- The key has an entry in the tables, and its character room behind `n` others. -/
def FitsBehind (key : UInt8) (n : Nat) : Prop := keyOf key = .char → key < 60 ∧ n < 511

/-- Every key up to ENTER fits. -/
def FitsLine : List UInt8 → Nat → Prop
  | [], _ => True
  | key :: keys, n =>
    keyOf key = .enter ∨ FitsBehind key n ∧ FitsLine keys (pendingAfter key n)

/-- Every key fits. -/
def FitsAll : List UInt8 → Nat → Prop
  | [], _ => True
  | key :: keys, n => FitsBehind key n ∧ FitsAll keys (pendingAfter key n)

theorem kbdIrq_pending {s : Console} {n : Nat} (h : s.tty.bufptr = n) (key : UInt8) :
    (kbdIrq s key).tty.bufptr = pendingAfter key n := by
  rw [kbdIrq_bufptr, pendingAfter]
  cases keyOf key with
  | quiet => exact h
  | enter => rfl
  | backspace =>
    show (if s.tty.bufptr ≤ 0 then 0 else s.tty.bufptr - 1) = ((n - 1 : Nat) : Int)
    split <;> omega
  | char =>
    show s.tty.bufptr + 1 = ((n + 1 : Nat) : Int)
    omega

theorem hasRoom_iff {s : Console} {n : Nat} (h : s.tty.bufptr = n) (key : UInt8) :
    HasRoom s key ↔ FitsBehind key n := by
  have hlt : s.tty.bufptr < 511 ↔ n < 511 := by omega
  rw [HasRoom, FitsBehind, hlt]

theorem pendingAfter_le {key : UInt8} {n : Nat} (hn : n ≤ 511) (h : FitsBehind key n) :
    pendingAfter key n ≤ 511 := by
  unfold pendingAfter
  cases hk : keyOf key with
  | quiet => exact hn
  | enter => exact Nat.zero_le _
  | backspace => exact Nat.le_trans (Nat.sub_le n 1) hn
  | char => exact (h hk).2

/-- Only ENTER completes a line. -/
theorem kbdIrq_line (s : Console) {key : UInt8} (hk : keyOf key ≠ .enter) :
    (kbdIrq s key).tty.kbd.flush = s.tty.kbd.flush ∧ (kbdIrq s key).tty.tmp = s.tty.tmp := by
  rcases kbdIrq_cases s key with ⟨-, kbd, hrun, hflush⟩ | ⟨hk', -⟩ | ⟨-, hrun⟩ | ⟨-, hrun⟩
  · rw [hrun]
    exact ⟨hflush, rfl⟩
  · exact absurd hk' hk
  · rw [hrun]
    by_cases h0 : s.tty.bufptr ≤ 0
    · rw [eraseChar_start (s := setKbd s (pressed s.tty.kbd)) h0]
      exact ⟨rfl, rfl⟩
    · have hline := eraseChar_line (s := setKbd s (pressed s.tty.kbd)) h0
      exact ⟨(congrArg Kbd.flush hline.kbd).trans rfl, hline.tmp⟩
  · have hline := typeChar_line (setKbd s (pressed s.tty.kbd))
      (decode (pressed s.tty.kbd) key.toNat)
    rw [hrun]
    exact ⟨(congrArg Kbd.flush hline.kbd).trans rfl, hline.tmp⟩

theorem kbdIrq_enter (s : Console) {key : UInt8} (hk : keyOf key = .enter) :
    (kbdIrq s key).tty.kbd.flush = true ∧ (kbdIrq s key).tty.tmp = s.tty.bufptr := by
  rcases kbdIrq_cases s key with ⟨hk', -⟩ | ⟨-, hrun⟩ | ⟨hk', -⟩ | ⟨hk', -⟩
  · exact absurd (hk.symm.trans hk') (by decide)
  · rw [hrun]
    exact ⟨congrArg Kbd.flush (enterLine_line _).kbd, (enterLine_line _).tmp⟩
  · exact absurd (hk.symm.trans hk') (by decide)
  · exact absurd (hk.symm.trans hk') (by decide)

theorem whileNotFlush_done {s : Console} (h : s.tty.kbd.flush = true) (keys : List UInt8) :
    whileNotFlush s keys = .line s keys := by
  cases keys with
  | nil => exact if_pos h
  | cons key keys => exact if_pos h

theorem whileNotFlush_key {s : Console} {key : UInt8} (h : s.tty.kbd.flush = false)
    (keys : List UInt8) : whileNotFlush s (key :: keys) =
      if HasRoom s key then whileNotFlush (kbdIrq s key) keys else .overrun := by
  rw [whileNotFlush, h]
  rfl

theorem whileNotFlush_enter {s : Console} {key : UInt8} (h : s.tty.kbd.flush = false)
    (hk : keyOf key = .enter) (keys : List UInt8) :
    whileNotFlush s (key :: keys) = .line (kbdIrq s key) keys := by
  have hroom : HasRoom s key := fun hc => absurd (hk.symm.trans hc) (by decide)
  rw [whileNotFlush_key h, if_pos hroom, whileNotFlush_done (kbdIrq_enter s hk).1]

/-- The wait ends with the line whose length is known from the keys, when these fit. -/
theorem whileNotFlush_line {keys : List UInt8} {s : Console} {n m : Nat}
    (hflush : s.tty.kbd.flush = false) (hptr : s.tty.bufptr = n) (hn : n ≤ 511)
    (hlen : lineLength keys n = some m) (hfits : FitsLine keys n) :
    m ≤ 511 ∧ ∃ t rest, whileNotFlush s keys = .line t rest ∧ t.tty.tmp = m := by
  induction keys generalizing s n with
  | nil => cases hlen
  | cons key keys ih =>
    rw [lineLength] at hlen
    by_cases hk : keyOf key = .enter
    · rw [if_pos hk, Option.some.injEq] at hlen
      subst hlen
      exact ⟨hn, _, _, whileNotFlush_enter hflush hk keys, (kbdIrq_enter s hk).2.trans hptr⟩
    · rw [if_neg hk] at hlen
      obtain ⟨hkey, hrest⟩ := hfits.resolve_left hk
      rw [whileNotFlush_key hflush, if_pos ((hasRoom_iff hptr key).mpr hkey)]
      exact ih ((kbdIrq_line s hk).1.trans hflush) (kbdIrq_pending hptr key)
        (pendingAfter_le hn hkey) hlen hrest

theorem whileNotFlush_overrun {keys : List UInt8} {s : Console} {n : Nat}
    (hflush : s.tty.kbd.flush = false) (hptr : s.tty.bufptr = n) (hfits : ¬ FitsLine keys n) :
    whileNotFlush s keys = .overrun := by
  induction keys generalizing s n with
  | nil => exact absurd trivial hfits
  | cons key keys ih =>
    rw [FitsLine, not_or] at hfits
    obtain ⟨hk, hfits⟩ := hfits
    rw [whileNotFlush_key hflush]
    by_cases hkey : FitsBehind key n
    · rw [if_pos ((hasRoom_iff hptr key).mpr hkey)]
      exact ih ((kbdIrq_line s hk).1.trans hflush) (kbdIrq_pending hptr key) fun h =>
        hfits ⟨hkey, h⟩
    · exact if_neg fun h => hkey ((hasRoom_iff hptr key).mp h)

/-- The length of the line that `tty_read` waits for: one that is complete already, or the next
one that is typed. -/
def incoming (d : Driver) : Option Nat :=
  if d.con.tty.kbd.flush then some d.con.tty.tmp.toNat
  else if d.irq1 then lineLength d.keys 0
  else none

/-- The keys up to the end of that line fit. -/
def FitsKeys (d : Driver) : Prop := d.con.tty.kbd.flush = false → FitsLine d.keys 0

/-- A complete line stands in the line buffer. -/
def LineKept (t : Tty) : Prop := t.kbd.flush = true → 0 ≤ t.tmp ∧ t.tmp ≤ 511

theorem lineKept_create (v : Vga) : LineKept (ttyCreate v).tty := nofun

/-- A key that fits keeps the pointer and the line in the line buffer. -/
theorem LineKept.kbdIrq {s : Console} {n : Nat} {key : UInt8} (h : LineKept s.tty)
    (hptr : s.tty.bufptr = n) (hn : n ≤ 511) (hkey : FitsBehind key n) :
    LineKept (kbdIrq s key).tty ∧ (kbdIrq s key).tty.bufptr = pendingAfter key n ∧
      pendingAfter key n ≤ 511 := by
  refine ⟨fun hflush => ?_, kbdIrq_pending hptr key, pendingAfter_le hn hkey⟩
  by_cases hk : keyOf key = .enter
  · have htmp := (kbdIrq_enter s hk).2
    omega
  · obtain ⟨hflush', htmp⟩ := kbdIrq_line s hk
    rw [htmp]
    exact h (hflush'.symm.trans hflush)

/-- So it is after any keys that fit. -/
theorem LineKept.typed {keys : List UInt8} {s : Console} {n : Nat} (h : LineKept s.tty)
    (hptr : s.tty.bufptr = n) (hn : n ≤ 511) (hkeys : FitsAll keys n) :
    LineKept (keys.foldl Terminal.kbdIrq s).tty := by
  induction keys generalizing s n with
  | nil => exact h
  | cons key keys ih =>
    obtain ⟨hkept, hptr', hn'⟩ := h.kbdIrq hptr hn hkeys.1
    exact ih hkept hptr' hn' hkeys.2

theorem wait_line {d : Driver} {m : Nat} (hkept : LineKept d.con.tty)
    (hm : incoming d = some m) (hfits : FitsKeys d) :
    m ≤ 511 ∧ ∃ t rest, d.wait = .line t rest ∧ t.tty.tmp = m := by
  rw [incoming] at hm
  cases hflush : d.con.tty.kbd.flush with
  | true =>
    obtain ⟨h0, h511⟩ := hkept hflush
    rw [hflush, if_pos rfl, Option.some.injEq] at hm
    refine ⟨by omega, resetPtr d.con, _, whileNotFlush_done (s := resetPtr d.con) hflush _, ?_⟩
    show d.con.tty.tmp = m
    omega
  | false =>
    rw [hflush, if_neg (by decide)] at hm
    cases hirq : d.irq1 with
    | true =>
      rw [hirq, if_pos rfl] at hm
      rw [Driver.wait, hirq, if_pos rfl]
      exact whileNotFlush_line (n := 0) hflush rfl (by decide) hm (hfits hflush)
    | false =>
      rw [hirq] at hm
      cases hm

theorem wait_overrun {d : Driver} {m : Nat} (hm : incoming d = some m) (hfits : ¬ FitsKeys d) :
    d.wait = .overrun := by
  obtain ⟨hflush, hfits⟩ : d.con.tty.kbd.flush = false ∧ ¬ FitsLine d.keys 0 := by
    by_contra hnot
    exact hfits fun hflush => by_contra fun h => hnot ⟨hflush, h⟩
  cases hirq : d.irq1 with
  | true =>
    rw [Driver.wait, hirq, if_pos rfl]
    exact whileNotFlush_overrun (n := 0) hflush rfl hfits
  | false =>
    rw [incoming, hflush, hirq] at hm
    cases hm

/-- `fs_read` of a device file is `dev_read` at the offset. -/
theorem fsRead_device {S : System Driver} {dev : Device Driver} {h : Heap} {w : World Driver}
    {node no : Nat} (hnode : DeviceInode S dev w.mem node no) (hne : node ≠ 0)
    (hS : S.devs = table h) (hno : no < 2) (buf sz off : Nat) :
    fsRead S node buf sz off w =
      (devRead (table h) no buf sz >>= fun ret => pure (toInt ret)) (w.setOffset no off) := by
  have hhook : S.link.devfsRead ≠ 0 := Nat.ne_of_gt (S.link.code _ (by simp)).1
  have hflags : ¬ (FS_CHAR &&& FS_CHAR = 0 ∧ FS_CHAR &&& FS_BLK = 0) := by decide
  obtain ⟨d, hdev⟩ : ∃ d, S.devs[no]? = some d := by
    rw [hS]
    exact ⟨_, List.getElem?_eq_getElem (show no < (table h).length from hno)⟩
  rw [fsRead, ofMem_bind_run, hnode.readPtr, if_neg hhook, if_neg S.link.distinct.symm, if_pos rfl,
    devfsRead, checkDev, bind_ret (assert_pass (decide_eq_true hne) w), ofMem_bind_run,
    hnode.flags, if_neg hflags, ofMem_bind_run, hnode.impl]
  have hseek : devSeek S.devs no off SEEK_SET w = .ret off (w.setOffset no off) := by
    simp only [devSeek, hdev, if_pos]
    rw [modify_bind_run, read_run, World.setOffset_same]
  rw [bind_ret hseek, hS]

theorem devRead_ret {δ : Type} {devs : List (Device δ)} (dev : Device δ) {w t : World δ}
    {no buf len r : Nat} {hook : Nat → Nat → Nat → Nat → Code δ Nat} (hdev : devs[no]? = some dev)
    (hread : dev.read = some hook) (hret : hook no buf (w.devs no).offset len w = .ret r t) :
    devRead devs no buf len w =
      .ret r (if 0 < toInt r then t.setOffset no (add32 (t.devs no).offset r) else t) := by
  simp only [devRead, hdev, hread, read_bind_run]
  rw [bind_ret hret]
  rfl

theorem devRead_spin {δ : Type} {devs : List (Device δ)} (dev : Device δ) {w t : World δ}
    {no buf len : Nat} {hook : Nat → Nat → Nat → Nat → Code δ Nat} (hdev : devs[no]? = some dev)
    (hread : dev.read = some hook) (hspin : hook no buf (w.devs no).offset len w = .spin t) :
    devRead devs no buf len w = .spin t := by
  simp only [devRead, hdev, hread, read_bind_run]
  rw [bind_spin hspin]

/-- The address in the ramdisk at an offset. -/
def imageAt (w : World Driver) (off : Nat) : Nat :=
  add32 (rdAddr w.mem (w.devs DEV_RAMDISK).data) off

/-- `n` bytes were put into the buffer: for the ramdisk those from the offset on, of which none
is beyond its end, with the offset behind them afterwards; for the terminal those of the line. -/
structure Delivered (w t : World Driver) (no buf sz off n : Nat) : Prop where
  length : n ≤ sz
  frame : Frame [(buf, n)] w.mem t.mem
  extent : no = DEV_RAMDISK → 0 < n → off + n ≤ rdSize w.mem (w.devs DEV_RAMDISK).data
  image : no = DEV_RAMDISK → buf + n ≤ imageAt w off ∨ imageAt w off + n ≤ buf →
    ∀ i < n, t.mem (buf + i) = w.mem (imageAt w off + i)
  offset : no = DEV_RAMDISK → (t.devs DEV_RAMDISK).offset = off + n
  line : no = DEV_TTY → ∀ i : Nat, i < n → t.mem (buf + i) = (t.driver no).con.tty.buf i

/-- The read returns the number of bytes it delivers. -/
def Respects (S : System Driver) (node no buf sz off : Nat) (w : World Driver) : Prop :=
  ∃ (n : Nat) (t : World Driver), fsRead S node buf sz off w = .ret (n : Int) t ∧
    Delivered w t no buf sz off n

/-- The ramdisk reaches as far as it is read, and the length is a number of the type `int`; the
line fits the line buffer and is not longer than asked for. -/
def WithinExtent (w : World Driver) (no sz off : Nat) : Prop :=
  (no = DEV_RAMDISK →
    (sz = 0 ∨ off + sz ≤ rdSize w.mem (w.devs DEV_RAMDISK).data) ∧ sz < 2147483648) ∧
  (no = DEV_TTY → FitsKeys (w.driver DEV_TTY) ∧
    ∀ m, incoming (w.driver DEV_TTY) = some m → m ≤ sz)

/-- After the read of the ramdisk. -/
def ramdiskAfter (w : World Driver) (buf sz off : Nat) : World Driver :=
  let w' := (w.setOffset DEV_RAMDISK off).setMem (memcpy w.mem buf (imageAt w off) sz)
  if 0 < toInt sz then w'.setOffset DEV_RAMDISK (add32 off sz) else w'

theorem devRead_ramdisk {h : Heap} {w : World Driver} {buf sz off : Nat}
    (hopen : (w.devs DEV_RAMDISK).data ≠ 0) :
    devRead (table h) DEV_RAMDISK buf sz (w.setOffset DEV_RAMDISK off) =
      .ret sz (ramdiskAfter w buf sz off) := by
  have hdata : ((w.setOffset DEV_RAMDISK off).devs DEV_RAMDISK).data =
      (w.devs DEV_RAMDISK).data := World.setOffset_data ..
  have hoff : ((w.setOffset DEV_RAMDISK off).devs DEV_RAMDISK).offset = off :=
    World.setOffset_same ..
  have hhook : ramdiskRead DEV_RAMDISK buf off sz (w.setOffset DEV_RAMDISK off) = .ret sz
      ((w.setOffset DEV_RAMDISK off).setMem (memcpy w.mem buf (imageAt w off) sz)) := by
    rw [ramdiskRead_run (hdata ▸ hopen), hdata]
    rfl
  rw [← hoff] at hhook
  rw [devRead_ret (ramdisk h) rfl rfl hhook, World.setMem_devs, hoff]
  rfl

theorem ramdiskAfter_mem (w : World Driver) (buf sz off : Nat) :
    (ramdiskAfter w buf sz off).mem = memcpy w.mem buf (imageAt w off) sz := by
  unfold ramdiskAfter
  split <;> rfl

theorem toInt_of_lt {a : Nat} (h : a < 2147483648) : toInt a = a := if_pos h

theorem ramdiskAfter_offset {w : World Driver} {buf sz off : Nat}
    (hsz : sz = 0 ∨ off + sz < 4294967296) (hint : sz < 2147483648) :
    ((ramdiskAfter w buf sz off).devs DEV_RAMDISK).offset = off + sz := by
  unfold ramdiskAfter
  rw [toInt_of_lt hint]
  by_cases h0 : sz = 0
  · subst h0
    exact World.setOffset_same ..
  · have hpos : (0 : Int) < sz := by omega
    rw [if_pos hpos, World.setOffset_same, add32_of_lt (hsz.resolve_left h0)]

/-- A read of the open ramdisk respects the length exactly within its extent. -/
theorem respects_ramdisk_iff {S : System Driver} {dev : Device Driver} {h : Heap}
    {w : World Driver} {node buf sz off : Nat}
    (hnode : DeviceInode S dev w.mem node DEV_RAMDISK) (hne : node ≠ 0) (hS : S.devs = table h)
    (hopen : (w.devs DEV_RAMDISK).data ≠ 0) (hsz : sz < 4294967296) :
    Respects S node DEV_RAMDISK buf sz off w ↔ WithinExtent w DEV_RAMDISK sz off := by
  have hrun : fsRead S node buf sz off w = .ret (toInt sz) (ramdiskAfter w buf sz off) := by
    rw [fsRead_device hnode hne hS (by decide), bind_ret (devRead_ramdisk hopen)]
    rfl
  have hsize : rdSize w.mem (w.devs DEV_RAMDISK).data < 4294967296 := load32_lt _ _
  constructor
  · rintro ⟨n, t, hret, hd⟩
    rw [hrun] at hret
    obtain ⟨hn, rfl⟩ := Res.ret.inj hret
    have hint : sz < 2147483648 := by
      unfold toInt at hn
      split at hn <;> omega
    rw [toInt_of_lt hint] at hn
    obtain rfl : sz = n := by omega
    refine ⟨fun _ => ⟨?_, hint⟩, fun htty => absurd htty (by decide)⟩
    by_cases h0 : sz = 0
    · exact Or.inl h0
    · exact Or.inr (hd.extent rfl (Nat.pos_of_ne_zero h0))
  · rintro ⟨hrd, -⟩
    obtain ⟨hext, hint⟩ := hrd rfl
    rw [toInt_of_lt hint] at hrun
    refine ⟨sz, _, hrun, Nat.le_refl sz, ?_, fun _ hpos => ?_, fun _ happ i hi => ?_, fun _ => ?_,
      fun htty => absurd htty (by decide)⟩
    · rw [ramdiskAfter_mem]
      exact memcpy_frame _ _ _ _
    · exact hext.resolve_left (by omega)
    · rw [ramdiskAfter_mem]
      exact memcpy_copied happ hi
    · exact ramdiskAfter_offset (hext.imp_right fun h => by omega) hint

theorem ttydevRead_line (w : World Driver) (buf off sz : Nat) {m : Nat} {s : Console} {rest : List UInt8}
    (hopen : (w.devs DEV_TTY).data ≠ 0) (hwait : (w.driver DEV_TTY).wait = .line s rest)
    (htmp : s.tty.tmp = m) (hm : m ≤ 511) :
    ∃ t, ttydevRead DEV_TTY buf off sz w = .ret m t ∧
      t.mem = putBytes w.mem buf (bytes s.tty.buf m) ∧
      (t.driver DEV_TTY).con.tty.buf = s.tty.buf ∧ t.devs = w.devs ∧ t.fileBase = w.fileBase := by
  have hsize : ofInt (m : Int) = m := by
    unfold ofInt
    omega
  simp only [ttydevRead, read_bind_run, if_neg hopen, hwait, htmp, hsize]
  refine ⟨_, rfl, rfl, ?_, rfl, rfl⟩
  show (Function.update w.driver DEV_TTY _ DEV_TTY).con.tty.buf = s.tty.buf
  rw [Function.update_self]
  rfl

theorem ttydevRead_overrun {w : World Driver} {buf off sz : Nat}
    (hopen : (w.devs DEV_TTY).data ≠ 0) (hwait : (w.driver DEV_TTY).wait = .overrun) :
    ttydevRead DEV_TTY buf off sz w = .spin w := by
  simp only [ttydevRead, read_bind_run, if_neg hopen, hwait]
  rfl

theorem bytes_get {buf : Int → UInt8} {m i : Nat} (h : i < m) :
    (bytes buf m)[i]? = some (buf i) := by
  rw [bytes, List.getElem?_map, Int.toNat_natCast, List.getElem?_range h]
  rfl

theorem bytes_length (buf : Int → UInt8) (m : Nat) : (bytes buf m).length = m := by
  rw [bytes, List.length_map, List.length_range, Int.toNat_natCast]

/-- A read of the open terminal respects the length exactly when the line is not longer. -/
theorem respects_tty_iff {S : System Driver} {dev : Device Driver} {h : Heap}
    {w : World Driver} {node buf sz off m : Nat}
    (hnode : DeviceInode S dev w.mem node DEV_TTY) (hne : node ≠ 0) (hS : S.devs = table h)
    (hopen : (w.devs DEV_TTY).data ≠ 0) (hkept : LineKept (w.driver DEV_TTY).con.tty)
    (hline : incoming (w.driver DEV_TTY) = some m) :
    Respects S node DEV_TTY buf sz off w ↔ WithinExtent w DEV_TTY sz off := by
  have hopen' : ((w.setOffset DEV_TTY off).devs DEV_TTY).data ≠ 0 := by
    rw [World.setOffset_data]
    exact hopen
  have hrun := fsRead_device hnode hne hS (by decide) buf sz off
  by_cases hfits : FitsKeys (w.driver DEV_TTY)
  · obtain ⟨hm, s, rest, hwait, htmp⟩ := wait_line hkept hline hfits
    obtain ⟨t, hhook, hmem, hbuf, -⟩ := ttydevRead_line (w.setOffset DEV_TTY off) buf
      ((w.setOffset DEV_TTY off).devs DEV_TTY).offset sz hopen' hwait htmp hm
    rw [bind_ret (devRead_ret (tty h) rfl rfl hhook), pure_run,
      toInt_of_lt (show m < 2147483648 by omega)] at hrun
    constructor
    · rintro ⟨n, t', hret, hd⟩
      rw [hrun] at hret
      obtain rfl : m = n := by
        have := (Res.ret.inj hret).1
        omega
      refine ⟨fun hrd => absurd hrd (by decide), fun _ => ⟨hfits, fun m' hm' => ?_⟩⟩
      obtain rfl := Option.some.inj (hline.symm.trans hm')
      exact hd.length
    · rintro ⟨-, htty⟩
      have hlen := (htty rfl).2 m hline
      refine ⟨m, _, hrun, hlen, ?_, fun hrd => absurd hrd (by decide),
        fun hrd => absurd hrd (by decide), fun hrd => absurd hrd (by decide), fun _ i hi => ?_⟩
      · have hframe := putBytes_frame w.mem buf (bytes s.tty.buf m)
        rw [bytes_length] at hframe
        split <;> exact hmem ▸ hframe
      · have hbyte : t.mem (buf + i) = (t.driver DEV_TTY).con.tty.buf i := by
          rw [hmem, hbuf]
          exact putBytes_at (bytes_get hi)
        split <;> exact hbyte
  · have hover := wait_overrun hline hfits
    rw [bind_spin (devRead_spin (tty h) rfl rfl (ttydevRead_overrun hopen' hover))] at hrun
    refine iff_of_false ?_ fun hw => hfits (hw.2 rfl).1
    rintro ⟨n, t, hret, -⟩
    rw [hrun] at hret
    cases hret

/-- A read of an open device through its inode respects the length and the extent exactly when
the ramdisk reaches as far as it is read and the line typed is not longer than the buffer. -/
theorem respects_iff {S : System Driver} {dev : Device Driver} {h : Heap} {w : World Driver}
    {node no buf sz off : Nat} (hno : no < 2) (hnode : DeviceInode S dev w.mem node no)
    (hne : node ≠ 0) (hS : S.devs = table h) (hopen : (w.devs no).data ≠ 0)
    (hsz : sz < 4294967296) (hkept : LineKept (w.driver DEV_TTY).con.tty)
    (hline : no = DEV_TTY → incoming (w.driver DEV_TTY) ≠ none) :
    Respects S node no buf sz off w ↔ WithinExtent w no sz off := by
  cases tty_or_ramdisk hno with
  | inl heq =>
    obtain rfl := heq
    obtain ⟨m, hm⟩ := Option.ne_none_iff_exists'.mp (hline rfl)
    exact respects_tty_iff hnode hne hS hopen hkept hm
  | inr heq =>
    obtain rfl := heq
    exact respects_ramdisk_iff hnode hne hS hopen hsz

def deviceKernel : System Driver := ⟨kernelLink, heap firstBlock, table (heap firstBlock)⟩

/-- Both devices are open, the ramdisk 8 bytes long; an inode of device `no` stands in memory,
and `a` and ENTER will be typed. -/
def devicesOpen (dev : Device Driver) (no : Nat) : World Driver :=
  { bootState.w with
    k := ⟨deviceInode deviceKernel dev (store32 ⟨fun _ => 0⟩ 0x400014 8) 0x500000 no, 0⟩
    devs := fun _ => ⟨0, 0x400010⟩
    driver := fun _ => ⟨(bootState.w.driver DEV_TTY).con, true, true, [0x1E, ENTER]⟩ }

theorem devicesOpen_inode (dev : Device Driver) {no : Nat} (hno : no < 2) :
    DeviceInode deviceKernel dev (devicesOpen dev no).mem 0x500000 no :=
  deviceInode_made deviceKernel
    (fun y h1 _ => (store32_outside _ _ _ _ (by omega)).trans rfl) (by omega)

theorem devicesOpen_size (dev : Device Driver) (no : Nat) :
    rdSize (devicesOpen dev no).mem 0x400010 = 8 :=
  ((deviceInode_frame deviceKernel dev _ 0x500000 no).load32 (by simp)).trans
    (load32_store32 _ 0x400014 8)

theorem respects_iff_ramdisk :
    Respects deviceKernel 0x500000 DEV_RAMDISK 0x600000 4 4
      (devicesOpen (ramdisk (heap firstBlock)) DEV_RAMDISK) :=
  (respects_iff (by decide) (devicesOpen_inode _ (by decide)) (by decide) rfl (by decide)
    (by decide) (lineKept_create _) (fun h => absurd h (by decide))).mpr
    ⟨fun _ => ⟨Or.inr (Nat.le_of_eq (devicesOpen_size _ _).symm), by decide⟩,
      fun h => absurd h (by decide)⟩

/-- Five bytes are read behind the first four of eight; a line of one character is read into a
buffer without room. -/
theorem respects_fails :
    ¬ Respects deviceKernel 0x500000 DEV_RAMDISK 0x600000 5 4
      (devicesOpen (ramdisk (heap firstBlock)) DEV_RAMDISK) ∧
    ¬ Respects deviceKernel 0x500000 DEV_TTY 0x600000 0 0
      (devicesOpen (tty (heap firstBlock)) DEV_TTY) := by
  constructor
  · intro hr
    have hw := (respects_ramdisk_iff (devicesOpen_inode _ (by decide)) (by decide) rfl (by decide)
      (by decide)).mp hr
    have hext := (hw.1 rfl).1
    have hsize := devicesOpen_size (ramdisk (heap firstBlock)) DEV_RAMDISK
    have hdata : ((devicesOpen (ramdisk (heap firstBlock)) DEV_RAMDISK).devs DEV_RAMDISK).data =
      0x400010 := rfl
    rw [hdata, hsize] at hext
    exact absurd hext (by decide)
  · intro hr
    have hline : incoming ((devicesOpen (tty (heap firstBlock)) DEV_TTY).driver DEV_TTY) =
      some 1 := by decide
    have hw := (respects_tty_iff (devicesOpen_inode _ (by decide)) (by decide) rfl (by decide)
      (lineKept_create _) hline).mp hr
    exact absurd ((hw.2 rfl).2 1 hline) (by decide)

end Foos.Devices
