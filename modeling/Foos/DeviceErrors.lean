import Foos.LifeCycle

/-! What a device call leaves behind that does not perform the operation. -/
namespace Foos.Devices
open Terminal Program Word32 Kmalloc

/-- The error numbers of `errno.h`. -/
def errorCodes : List Nat := [1, 2, 12, 16, 20, 21, 22, 88]

inductive DevCall where
  | openDev (no flags : Nat)
  | read (no buf len : Nat)
  | write (no buf len : Nat)
  | ioctl (no request args : Nat)
  | seek (no off whence : Nat)

def DevCall.no : DevCall → Nat
  | .openDev no _ | .read no _ _ | .write no _ _ | .ioctl no _ _ | .seek no _ _ => no

/-- The call; a `size_t` is read as a signed number. -/
def DevCall.run (h : Heap) : DevCall → Code Driver Int
  | .openDev no flags => devOpen (table h) no flags
  | .read no buf len => do
    let ret ← devRead (table h) no buf len
    pure (toInt ret)
  | .write no buf len => do
    let ret ← devWrite (table h) no buf len
    pure (toInt ret)
  | .ioctl no request args => devIoctl (table h) no request args
  | .seek no off whence => do
    let ret ← devSeek (table h) no off whence
    pure (toInt ret)

def ttyRequests : List Nat := [TTY_CLEAR, TTY_SETCSR, TTY_GETCSR, TTY_SETCOL, TTY_GETCOL]
def rdRequests : List Nat := [RD_SETADDR, RD_GETADDR, RD_SETSIZE, RD_GETSIZE]

/-- The device is open already or the ramdisk is not, or there is no such operation, request or
whence. -/
def Refused (w : World Driver) : DevCall → Prop
  | .openDev no _ => (w.devs no).data ≠ 0
  | .read no _ _ => no = DEV_RAMDISK ∧ (w.devs no).data = 0
  | .write no _ _ => no = DEV_RAMDISK
  | .ioctl no request _ =>
    if no = DEV_RAMDISK then (w.devs no).data = 0 ∨ request ∉ rdRequests
    else request ∉ ttyRequests
  | .seek _ _ whence => whence ≠ SEEK_SET ∧ whence ≠ SEEK_CUR

/-- `-E` is returned with `errno` set to `E`, and nothing else is changed. -/
def FailsCleanly (h : Heap) (w : World Driver) (c : DevCall) : Prop :=
  ∃ E ∈ errorCodes, ∃ t, c.run h w = .ret (-(E : Int)) t ∧ t.k.errno = E ∧ t.mem = w.mem ∧
    t.devs = w.devs ∧ t.driver = w.driver

/-- Not a request to the ramdisk, and `dev_open` finds the offset reset. -/
def Clean (w : World Driver) : DevCall → Prop
  | .openDev no _ => (w.devs no).offset = 0
  | .ioctl no _ _ => no ≠ DEV_RAMDISK
  | _ => True

/-- What sets `errno` and returns it negated fails cleanly. -/
theorem failsCleanly_of {h : Heap} {w : World Driver} {c : DevCall} {E : Nat}
    (hE : E ∈ errorCodes)
    (hrun : c.run h w = .ret (-(E : Int)) { w with k := { w.k with errno := E } }) :
    FailsCleanly h w c := ⟨E, hE, _, hrun, rfl, rfl, rfl, rfl⟩

theorem openDev_iff {h : Heap} {w : World Driver} {no flags : Nat} (hno : no < 2)
    (hdata : (w.devs no).data ≠ 0) :
    FailsCleanly h w (.openDev no flags) ↔ (w.devs no).offset = 0 := by
  obtain ⟨t, hrun, ht⟩ := devOpen_busy h hno flags hdata
  have hdevs : t.devs = Function.update w.devs no { w.devs no with offset := 0 } := by
    rw [ht]
    rfl
  constructor
  · rintro ⟨E, hE, t', hrun', -, -, hdevs', -⟩
    have heq : devOpen (table h) no flags w = .ret (-(E : Int)) t' := hrun'
    rw [hrun] at heq
    obtain ⟨-, rfl⟩ := Res.ret.inj heq
    rw [← hdevs', hdevs, Function.update_self]
  · intro h0
    have hsame : ({ w.devs no with offset := 0 } : DevState) = w.devs no := by rw [← h0]
    refine ⟨EBUSY, by decide, t, hrun, by rw [ht], by rw [ht]; rfl, ?_, by rw [ht]; rfl⟩
    rw [hdevs, hsame, Function.update_eq_self]

theorem read_failsCleanly {h : Heap} {w : World Driver} {buf len : Nat}
    (hdata : (w.devs DEV_RAMDISK).data = 0) : FailsCleanly h w (.read DEV_RAMDISK buf len) := by
  refine failsCleanly_of (E := EINVAL) (by decide) ?_
  have hhook : ramdiskRead DEV_RAMDISK buf (w.devs DEV_RAMDISK).offset len w =
      .ret (errorWord EINVAL) { w with k := { w.k with errno := EINVAL } } := by
    simp only [ramdiskRead, read_bind_run, ofMem_bind_run, if_pos hdata]
    rfl
  have hneg : ¬ 0 < toInt (errorWord EINVAL) := by decide
  have hrun : devRead (table h) DEV_RAMDISK buf len w =
      .ret (errorWord EINVAL) { w with k := { w.k with errno := EINVAL } } := by
    refine (bind_ret hhook).trans ?_
    simp only [modify_bind_run, if_neg hneg]
    rfl
  exact (bind_ret hrun).trans rfl

theorem write_failsCleanly (h : Heap) (w : World Driver) (buf len : Nat) :
    FailsCleanly h w (.write DEV_RAMDISK buf len) :=
  failsCleanly_of (E := ENOSYS) (by decide) rfl

theorem seek_failsCleanly {h : Heap} {w : World Driver} {no off whence : Nat} (hno : no < 2)
    (hset : whence ≠ SEEK_SET) (hcur : whence ≠ SEEK_CUR) :
    FailsCleanly h w (.seek no off whence) := by
  refine failsCleanly_of (E := EINVAL) (by decide) ?_
  have hrun : devSeek (table h) no off whence w =
      .ret (errorWord EINVAL) { w with k := { w.k with errno := EINVAL } } := by
    obtain ⟨dev, hdev⟩ : ∃ dev, (table h)[no]? = some dev :=
      ⟨(table h)[no], List.getElem?_eq_getElem hno⟩
    simp only [devSeek, hdev, if_neg hset, if_neg hcur]
    rfl
  exact (bind_ret hrun).trans rfl

theorem ttydevIoctl_failsCleanly {h : Heap} {w : World Driver} {request args : Nat}
    (hreq : request ∉ ttyRequests) : FailsCleanly h w (.ioctl DEV_TTY request args) := by
  refine failsCleanly_of (E := EINVAL) (by decide) ?_
  simp only [ttyRequests, List.mem_cons, List.not_mem_nil, or_false, not_or] at hreq
  obtain ⟨h1, h2, h3, h4, h5⟩ := hreq
  have hrun : DevCall.run h (.ioctl DEV_TTY request args) w = ttydevIoctl DEV_TTY request args w :=
    rfl
  rw [hrun]
  simp only [ttydevIoctl, read_bind_run, if_neg h1, if_neg h2, if_neg h3, if_neg h4, if_neg h5]
  rfl

/-- The ramdisk answers with the positive number. -/
theorem ramdiskIoctl_refused {h : Heap} {w : World Driver} {request args : Nat}
    (href : Refused w (.ioctl DEV_RAMDISK request args)) :
    DevCall.run h (.ioctl DEV_RAMDISK request args) w = .ret EINVAL w := by
  have hrun : DevCall.run h (.ioctl DEV_RAMDISK request args) w =
    ramdiskIoctl DEV_RAMDISK request args w := rfl
  rw [hrun]
  rw [Refused, if_pos rfl] at href
  simp only [ramdiskIoctl, read_bind_run]
  by_cases hdata : (w.devs DEV_RAMDISK).data = 0
  · rw [if_pos hdata]
    rfl
  · have hreq := href.resolve_left hdata
    simp only [rdRequests, List.mem_cons, List.not_mem_nil, or_false, not_or] at hreq
    obtain ⟨h1, h2, h3, h4⟩ := hreq
    rw [if_neg hdata, if_neg h1, if_neg h2, if_neg h3, if_neg h4]
    rfl

theorem ramdiskIoctl_not_clean {h : Heap} {w : World Driver} {request args : Nat}
    (href : Refused w (.ioctl DEV_RAMDISK request args)) :
    ¬ FailsCleanly h w (.ioctl DEV_RAMDISK request args) := by
  rintro ⟨E, hE, t, hrun, -⟩
  rw [ramdiskIoctl_refused href] at hrun
  have hval : ((EINVAL : Nat) : Int) = -(E : Int) := (Res.ret.inj hrun).1
  have hcode : EINVAL = 22 := rfl
  omega

/-- A call that does not perform the operation fails cleanly, unless it is a request to the
ramdisk or a `dev_open` that resets the offset of the open device. -/
theorem failsCleanly_iff (h : Heap) {w : World Driver} {c : DevCall} (hno : c.no < 2)
    (href : Refused w c) : FailsCleanly h w c ↔ Clean w c := by
  cases c with
  | openDev no flags => exact openDev_iff hno href
  | read no buf len =>
    obtain ⟨rfl, hdata⟩ := href
    exact iff_of_true (read_failsCleanly hdata) trivial
  | write no buf len =>
    obtain rfl := href
    exact iff_of_true (write_failsCleanly h w buf len) trivial
  | ioctl no request args =>
    cases tty_or_ramdisk hno with
    | inl heq =>
      obtain rfl := heq
      have hne : DEV_TTY ≠ DEV_RAMDISK := by decide
      rw [Refused, if_neg hne] at href
      exact iff_of_true (ttydevIoctl_failsCleanly href) hne
    | inr heq =>
      obtain rfl := heq
      exact iff_of_false (ramdiskIoctl_not_clean href) fun hne => hne rfl
  | seek no off whence => exact iff_of_true (seek_failsCleanly hno href.1 href.2) trivial

theorem failsCleanly_iff_boot : FailsCleanly (heap firstBlock) bootState.w (.write DEV_RAMDISK 0 1) ↔
    Clean bootState.w (.write DEV_RAMDISK 0 1) :=
  failsCleanly_iff _ (by decide) rfl

/-- `RD_GETADDR` on the closed ramdisk. -/
theorem failsCleanly_fails : Refused bootState.w (.ioctl DEV_RAMDISK RD_GETADDR 0) ∧
    DevCall.run (heap firstBlock) (.ioctl DEV_RAMDISK RD_GETADDR 0) bootState.w =
      .ret 22 bootState.w ∧
    ¬ FailsCleanly (heap firstBlock) bootState.w (.ioctl DEV_RAMDISK RD_GETADDR 0) := by
  have href : Refused bootState.w (.ioctl DEV_RAMDISK RD_GETADDR 0) := Or.inl rfl
  exact ⟨href, ramdiskIoctl_refused href, ramdiskIoctl_not_clean href⟩

end Foos.Devices
