import Foos.CatPrints

/-! When the reads of whole files stay in the buffer: the ramdisk's hook is watched, so that a
read that goes beyond the buffer stops the run, as does the use of a NULL inode. -/
namespace Foos.Cat
open Terminal Devices Program ByteMemory Word32 CString Fs Printf Kmalloc Transition

/-- `ramdisk_read` into the buffer at `buf` only. -/
def guardedRead (buf no dest off len : Nat) : Code Driver Nat := do
  assert (buf ≤ dest ∧ dest + len ≤ buf + BUFSIZ)
  ramdiskRead no dest off len

/-- The ramdisk with this hook. -/
def guardedRamdisk (h : Heap) (buf : Nat) : Device Driver :=
  { ramdisk h with read := some (guardedRead buf) }

/-- The system with it in the device table. -/
def guarded (S : System Driver) (buf : Nat) : System Driver :=
  { S with devs := S.devs.set DEV_RAMDISK (guardedRamdisk S.heap buf) }

/-- `"greeting.txt"` -/
def greetingName : List UInt8 := chars "greeting.txt"

section
variable {S : System Driver} {files : List Header} {root p rd img N fuel buf name : Nat}
  {w w' : World Driver} {typed arg : List UInt8} {f : Header}

theorem guarded_device (hS : S.devs = table S.heap) (buf no : Nat) :
    (guarded S buf).devs[no]? = S.devs[no]? ∨
      S.devs[no]? = some (ramdisk S.heap) ∧
        (guarded S buf).devs[no]? = some (guardedRamdisk S.heap buf) := by
  by_cases hno : no = DEV_RAMDISK
  · subst hno
    refine Or.inr ⟨?_, ?_⟩
    · rw [hS]
      rfl
    · rw [guarded, hS]
      rfl
  · exact Or.inl (List.getElem?_set_ne (Ne.symm hno))

theorem servedBy_guarded (hS : S.devs = table S.heap) (buf : Nat) :
    ServedBy (guarded S buf) buf := by
  refine ⟨?_, guardedRamdisk S.heap buf, guardedRead buf, ?_, rfl,
    fun dest off len v h1 h2 => bind_ret (assert_pass (decide_eq_true ⟨h1, h2⟩) v)⟩
  · rw [guarded, hS]
    rfl
  · rw [guarded, hS]
    rfl

/- The watched hook only stops the run: what is not stopped goes on as in the kernel. -/

section
variable (hS : S.devs = table S.heap) (buf : Nat)
include hS

theorem devRead_watches (no dest len : Nat) :
    Watches (devRead (guarded S buf).devs no dest len) (devRead S.devs no dest len) := by
  cases guarded_device hS buf no with
  | inl h =>
    rw [devRead, h, ← devRead]
    exact watches_refl _
  | inr h =>
    obtain ⟨hdev, hguarded⟩ := h
    rw [devRead, devRead, hdev, hguarded]
    exact watches_bind (watches_refl _) fun off =>
      watches_bind (watches_assert _ _) fun ret => watches_refl _

theorem devOpen_guarded (no flags' : Nat) :
    devOpen (guarded S buf).devs no flags' = devOpen S.devs no flags' := by
  cases guarded_device hS buf no with
  | inl h => rw [devOpen, h, ← devOpen]
  | inr h =>
    rw [devOpen, devOpen, h.1, h.2]
    rfl

theorem devClose_guarded (no : Nat) :
    devClose (guarded S buf).devs no = devClose S.devs no := by
  cases guarded_device hS buf no with
  | inl h => rw [devClose, h, ← devClose]
  | inr h =>
    rw [devClose, devClose, h.1, h.2]
    rfl

theorem devSeek_guarded (no off whence : Nat) :
    devSeek (guarded S buf).devs no off whence = devSeek S.devs no off whence := by
  cases guarded_device hS buf no with
  | inl h => rw [devSeek, h, ← devSeek]
  | inr h => rw [devSeek, devSeek, h.1, h.2]

theorem devWrite_guarded (no dest len : Nat) :
    devWrite (guarded S buf).devs no dest len = devWrite S.devs no dest len := by
  cases guarded_device hS buf no with
  | inl h => rw [devWrite, h, ← devWrite]
  | inr h =>
    rw [devWrite, devWrite, h.1, h.2]
    rfl

theorem fsRead_watches (node dest sz off : Nat) :
    Watches (fsRead (guarded S buf) node dest sz off) (fsRead S node dest sz off) := by
  have hread := devRead_watches hS buf
  refine watches_bind (watches_refl _) fun hook => watches_ite (watches_refl _)
    (watches_ite ?_ (watches_ite ?_ (watches_refl _)))
  · refine watches_bind (watches_refl _) fun base => watches_bind (watches_refl _) fun a => ?_
    rw [devSeek_guarded hS]
    exact watches_bind (watches_refl _) fun _ => watches_bind (watches_refl _) fun n =>
      watches_bind (hread _ _ _) fun _ => watches_refl _
  · unfold devfsRead checkDev
    refine watches_bind (watches_refl _) fun _ => watches_bind (watches_refl _) fun bits =>
      watches_ite (watches_refl _) (watches_bind (watches_refl _) fun no => ?_)
    rw [devSeek_guarded hS]
    exact watches_bind (watches_refl _) fun _ =>
      watches_bind (hread _ _ _) fun _ => watches_refl _

theorem fsOpen_guarded (node flags' : Nat) :
    fsOpen (guarded S buf) node flags' = fsOpen S node flags' := by
  simp only [fsOpen, devOpen_guarded hS]

theorem fsClose_guarded (node : Nat) : fsClose (guarded S buf) node = fsClose S node := by
  simp only [fsClose, devClose_guarded hS]

theorem puts_guarded (fuel s : Nat) : puts fuel (guarded S buf) s = puts fuel S s := by
  simp only [puts, _puts, devWrite_guarded hS]

theorem catFile_watches (fuel root ptr : Nat) :
    Watches (catFile fuel (guarded S buf) root buf ptr) (catFile fuel S root buf ptr) := by
  refine watches_bind (watches_refl _) fun _ => watches_bind (watches_refl _) fun file =>
    watches_ite (watches_refl _) (watches_bind (watches_refl _) fun _ =>
      watches_bind (watches_refl _) fun bits => watches_ite (watches_refl _) ?_)
  rw [fsOpen_guarded hS, fsClose_guarded hS, puts_guarded hS]
  exact watches_bind (watches_refl _) fun _ => watches_bind (watches_refl _) fun sz =>
    watches_bind (fsRead_watches hS buf _ _ _ _) fun _ => watches_refl _

theorem shellRound_watches (fuel root : Nat) :
    Watches (shellRound fuel (guarded S buf) root buf) (shellRound fuel S root buf) :=
  watches_bind (watches_refl _) fun _ => watches_bind (watches_refl _) fun _ =>
    watches_bind (watches_refl _) fun _ => watches_bind (watches_refl _) fun _ =>
      watches_ite (watches_bind (catFile_watches hS buf _ _ _) fun _ => watches_refl _)
        (watches_refl _)

theorem loadGreeting_watches (fuel root name : Nat) :
    Watches (loadGreeting fuel (guarded S buf) root buf name)
      (loadGreeting fuel S root buf name) := by
  refine watches_bind (watches_refl _) fun _ => watches_bind (watches_refl _) fun tmp =>
    watches_bind (watches_refl _) fun _ => ?_
  rw [fsOpen_guarded hS, fsClose_guarded hS]
  exact watches_bind (watches_refl _) fun _ => watches_bind (watches_refl _) fun sz =>
    watches_bind (fsRead_watches hS buf _ _ _ _) fun _ => watches_refl _

/-- A run of the shell with the watched hook is a run of the shell. -/
theorem shellRun_unguarded {fuel root : Nat} {held : List (Nat × Nat)} {w w' : World Driver}
    {tr : List (World Driver × Option (List UInt8) × World Driver)}
    (h : Run (ShellStep fuel (guarded S buf) root buf held) w tr w') :
    Run (ShellStep fuel S root buf held) w tr w' := by
  refine h.mono fun v step t hst => ?_
  cases hst with
  | round hline hrun => exact .round hline ((shellRound_watches hS buf fuel root).ret hrun)
  | meanwhile hk => exact .meanwhile hk

end

/-- A file that does not fit the buffer is read beyond it. -/
theorem fsRead_beyond (hS : S.devs = table S.heap) (h : Rooted S files root p rd img w) {i : Nat}
    (hf : files[i]? = some f) (hsize : BUFSIZ < f.size) (hbuf : buf + BUFSIZ ≤ 4294967296) :
    ∃ t, fsRead (guarded S buf) (entry p i) buf f.size 0 w = .halt t := by
  have hg : Rooted (guarded S buf) files root p rd img w := h.relink rfl
  have hfile := hg.file i f hf
  have hdest : add32 buf 0 = buf := add32_of_lt (by simp only [BUFSIZ] at hbuf; omega)
  have hdev : (guarded S buf).devs[DEV_RAMDISK]? = some (guardedRamdisk S.heap buf) := by
    rw [guarded, hS]
    rfl
  have hbeyond : decide (buf ≤ buf ∧ buf + f.size ≤ buf + BUFSIZ) = false :=
    decide_eq_false (by omega)
  have hstop (v : World Driver) :
      devRead (guarded S buf).devs DEV_RAMDISK buf f.size v = .halt v := by
    simp only [devRead, hdev, guardedRamdisk, read_bind_run]
    exact bind_halt (bind_halt (assert_stop hbeyond v))
  rw [fsRead_file hfile.readPtr hdev, hfile.size, hdest]
  exact ⟨_, bind_halt (hstop _)⟩

/-- There is a greeting, and room for it with its terminator. -/
def GreetingFits (files : List Header) : Prop :=
  ∃ f, fileNamed files greetingName = some f ∧ f.size < BUFSIZ

/-- A greeting that is found is read, and terminated. -/
theorem loadGreeting_found (h : Rooted S files root p rd img w) (hroot : root ≠ 0)
    (hfuel : 32 ≤ fuel) (hname : Str w.mem name greetingName)
    (hf : fileNamed files greetingName = some f) (buf : Nat) :
    ∃ i, files[i]? = some f ∧ loadGreeting fuel S root buf name w =
      (fsRead S (entry p i) buf f.size 0 >>= fun ret => fsClose S (entry p i) >>= fun _ =>
        ofMem (fun m => Fs.size m (entry p i)) >>= fun sz => assert (sz < BUFSIZ) >>= fun _ =>
          onMem (fun m => store8 m (buf + sz) 0) >>= fun _ => pure ret) w := by
  obtain ⟨i, hi, hfind⟩ := h.finddir_file hfuel hname hf
  have hfile := h.file i f hi
  refine ⟨i, hi, ?_⟩
  rw [loadGreeting, bind_ret (used_pass hroot w), bind_ret hfind,
    bind_ret (used_pass (h.entry_pos i) w), bind_ret (hfile.opens 0), ofMem_bind_run, hfile.size]

/-- With no greeting the look-up gives NULL, which is used. -/
theorem loadGreeting_missing (h : Rooted S files root p rd img w) (hroot : root ≠ 0)
    (hfuel : 32 ≤ fuel) (hname : Str w.mem name greetingName)
    (hf : fileNamed files greetingName = none) (buf : Nat) :
    loadGreeting fuel S root buf name w = .halt w := by
  have hfind := h.finddir_other hfuel hname hf
  rw [if_neg (by decide : ¬ greetingName = devName)] at hfind
  rw [loadGreeting, bind_ret (used_pass hroot w), bind_ret hfind]
  exact bind_halt (used_null w)

theorem loadGreeting_fits (hS : S.devs = table S.heap) (h : Rooted S files root p rd img w)
    (hroot : root ≠ 0) (hfuel : BUFSIZ ≤ fuel) (hname : Str w.mem name greetingName)
    (hheld : Apart (heldBy root p files.length rd img N) buf BUFSIZ)
    (hbuf : buf + BUFSIZ ≤ 4294967296) (hfits : GreetingFits files) :
    ∃ ret t, loadGreeting fuel (guarded S buf) root buf name w = .ret ret t ∧
      Keeps (heldBy root p files.length rd img N) w t := by
  have hg : Rooted (guarded S buf) files root p rd img w := h.relink rfl
  obtain ⟨f, hf, hlt⟩ := hfits
  obtain ⟨i, hi, hrun⟩ := loadGreeting_found hg hroot (Nat.le_trans (by decide) hfuel) hname hf buf
  obtain ⟨t, hread, -, ht⟩ := fsRead_keeps (servedBy_guarded hS buf) hg hi (Nat.le_of_lt hlt)
    hheld hbuf
  have hfile := (hg.keeps ht).file i f hi
  refine ⟨toInt f.size, t.setMem (store8 t.mem (buf + f.size) 0), ?_, ht.trans ?_⟩
  · rw [hrun, bind_ret hread, bind_ret hfile.closes, ofMem_bind_run, hfile.size,
      bind_ret (assert_pass (decide_eq_true hlt) t)]
    rfl
  · exact keeps_of_frame ((Frame.refl _ t.mem).store8 (Nat.le_add_right _ _) (by omega)) hheld
      (fun _ => rfl) rfl

theorem loadGreeting_stops (hS : S.devs = table S.heap) (h : Rooted S files root p rd img w)
    (hroot : root ≠ 0) (hfuel : BUFSIZ ≤ fuel) (hname : Str w.mem name greetingName)
    (hheld : Apart (heldBy root p files.length rd img N) buf BUFSIZ)
    (hbuf : buf + BUFSIZ ≤ 4294967296) (hfits : ¬ GreetingFits files) :
    ∃ t, loadGreeting fuel (guarded S buf) root buf name w = .halt t := by
  have hg : Rooted (guarded S buf) files root p rd img w := h.relink rfl
  have h32 : 32 ≤ fuel := Nat.le_trans (by decide) hfuel
  cases hf : fileNamed files greetingName with
  | none => exact ⟨w, loadGreeting_missing hg hroot h32 hname hf buf⟩
  | some f =>
    obtain ⟨i, hi, hrun⟩ := loadGreeting_found hg hroot h32 hname hf buf
    have hsize : ¬ f.size < BUFSIZ := fun hlt => hfits ⟨f, hf, hlt⟩
    by_cases hover : BUFSIZ < f.size
    · obtain ⟨t, hstop⟩ := fsRead_beyond hS h hi hover hbuf
      exact ⟨t, hrun.trans (bind_halt hstop)⟩
    · -- the file fills the buffer and the terminator goes behind it
      obtain ⟨t, hread, -, ht⟩ := fsRead_keeps (servedBy_guarded hS buf) hg hi
        (Nat.le_of_not_lt hover) hheld hbuf
      have hfile := (hg.keeps ht).file i f hi
      refine ⟨t, ?_⟩
      rw [hrun, bind_ret hread, bind_ret hfile.closes, ofMem_bind_run, hfile.size]
      exact bind_halt (assert_stop (decide_eq_false hsize) t)

/-- A round of the shell reads beyond the buffer exactly when the file that it prints does not
fit. -/
theorem shellRound_iff (hS : S.devs = table S.heap) (h : Rooted S files root p rd img w)
    (hroot : root ≠ 0) (hopen : (w.devs DEV_TTY).data ≠ 0) (hfuel : BUFSIZ ≤ fuel)
    (hline : Entered w typed) (hheld : Apart (heldBy root p files.length rd img N) buf BUFSIZ)
    (hbuf : buf + BUFSIZ ≤ 4294967296) :
    (∀ t, shellRound fuel (guarded S buf) root buf w ≠ .halt t) ↔
      ∀ f, catTarget files typed = some f → f.size ≤ BUFSIZ := by
  have hg : Rooted (guarded S buf) files root p rd img w := h.relink rfl
  constructor
  · intro hsafe f hf
    by_contra hsize
    obtain ⟨v, hrun, hholds, hframe, hdevs, hbase⟩ :=
      shellRound_line (guarded S buf) root buf hline hopen hfuel
    have hlen := hline.short
    have hkeeps : Keeps (heldBy root p files.length rd img N) w v :=
      keeps_of_frame hframe hheld (fun no => by rw [hdevs]) hbase
    have hcat : IsCat (lineOf typed) := by
      by_contra hcat
      rw [catTarget, if_neg hcat] at hf
      cases hf
    rw [catTarget, if_pos hcat] at hf
    have harg := hcat.argument (hholds.str hlen)
    obtain ⟨i, hi, hfile⟩ := catFile_file (hg.keeps hkeeps) hroot
      (Nat.le_trans (by decide) hfuel) harg hf buf
    obtain ⟨t, hstop⟩ := fsRead_beyond hS (h.keeps hkeeps) hi
      (Nat.lt_of_not_le hsize) hbuf
    refine hsafe t ?_
    rw [hrun, if_pos hcat]
    refine bind_halt ?_
    rw [hfile]
    exact bind_halt hstop
  · intro hfit t hstop
    cases shellRound_keeps (servedBy_guarded hS buf) hg hroot hopen hfuel hline hfit hheld hbuf with
    | inl hspin =>
      obtain ⟨u, hspin⟩ := hspin
      rw [hstop] at hspin
      cases hspin
    | inr hret =>
      obtain ⟨out, u, hret, -⟩ := hret
      rw [hstop] at hret
      cases hret

/-- A step that has not been stopped leaves alone what is held. -/
theorem guardedStep_keeps {step : Option (List UInt8)} (hS : S.devs = table S.heap)
    (h : Rooted S files root p rd img w) (hroot : root ≠ 0) (hopen : (w.devs DEV_TTY).data ≠ 0)
    (hfuel : BUFSIZ ≤ fuel) (hheld : Apart (heldBy root p files.length rd img N) buf BUFSIZ)
    (hbuf : buf + BUFSIZ ≤ 4294967296) (hstep : ShellStep fuel (guarded S buf) root buf
      (heldBy root p files.length rd img N) w step w') :
    Keeps (heldBy root p files.length rd img N) w w' := by
  refine hstep.keeps (servedBy_guarded hS buf) (h.relink rfl) hroot hopen hfuel ?_ hheld hbuf
  intro typed htyped
  cases hstep with
  | round hline hrun =>
    obtain rfl := Option.some.inj htyped
    refine (shellRound_iff hS h hroot hopen hfuel hline hheld hbuf).mp fun t hstop => ?_
    rw [hrun] at hstop
    cases hstop
  | meanwhile hk => cases htyped

theorem guardedRun_keeps {tr : List (World Driver × Option (List UInt8) × World Driver)}
    (hS : S.devs = table S.heap) (h : Rooted S files root p rd img w) (hroot : root ≠ 0)
    (hopen : (w.devs DEV_TTY).data ≠ 0) (hfuel : BUFSIZ ≤ fuel)
    (hheld : Apart (heldBy root p files.length rd img N) buf BUFSIZ)
    (hbuf : buf + BUFSIZ ≤ 4294967296) (hrun : Run (ShellStep fuel (guarded S buf) root buf
      (heldBy root p files.length rd img N)) w tr w') :
    Keeps (heldBy root p files.length rd img N) w w' := by
  refine hrun.invariant (P := Keeps (heldBy root p files.length rd img N) w)
    (Q := fun _ _ => True) (fun s step t hs _ hst => hs.trans ?_) (.refl _ w) fun _ _ => trivial
  refine guardedStep_keeps hS (h.keeps hs) hroot ?_ hfuel hheld hbuf hst
  rw [hs.data]
  exact hopen

end

/-- `ramfs_init` also leaves the name of the greeting as it is. -/
theorem mounted_named {S : System Driver} {fill : Mem → Nat → Nat → Prop} {files : List Header}
    {img N fuel buf name : Nat} {w : World Driver} (htable : Tabled w.mem img N files)
    (hpres : Presented S w img) (hname : Str w.mem name greetingName)
    (hdis : AllApart ((name, 13) :: (buf, BUFSIZ) ::
      mountAreas S (w.devs DEV_RAMDISK).data img N))
    (hsup : Supplies fill S.heap.kmalloca (mountRequests S files.length) w.k
      ((name, 13) :: (buf, BUFSIZ) :: mountAreas S (w.devs DEV_RAMDISK).data img N))
    (hfuel : BUFSIZ ≤ fuel) :
    ∃ root p t, ramfsInit fuel S w = .ret root t ∧ root ≠ 0 ∧
      Rooted S files root p (w.devs DEV_RAMDISK).data img t ∧
      Apart (heldBy root p files.length (w.devs DEV_RAMDISK).data img N) buf BUFSIZ ∧
      t.devs = w.devs ∧ Str t.mem name greetingName := by
  obtain ⟨root, p, t, hrun, hroot, hrooted, hheld, hdevs, -, hothers⟩ :=
    mounted_beside [(name, 13)] htable hpres hdis hsup hfuel
  have hlen : greetingName.length = 12 := by decide
  refine ⟨root, p, t, hrun, hroot, hrooted, hheld, hdevs, hname.congr fun y h1 h2 => hothers y ?_⟩
  exact not_outside.mpr ⟨(name, 13), by simp, h1, by omega⟩

/-- After `ramfs_init` the greeting is loaded through no NULL inode and into the buffer only,
exactly when there is one with room for its terminator. Every run of the shell from there on that
has not left the buffer is one of the kernel, and the next command line leaves the buffer exactly
when it prints a file that does not fit. -/
theorem reads_fit_iff {S : System Driver} {fill : Mem → Nat → Nat → Prop} {files : List Header}
    {img N fuel buf name : Nat} {w : World Driver} (hS : S.devs = table S.heap)
    (htable : Tabled w.mem img N files) (hpres : Presented S w img)
    (hopen : (w.devs DEV_TTY).data ≠ 0) (hname : Str w.mem name greetingName)
    (hbuf : buf + BUFSIZ ≤ 4294967296)
    (hdis : AllApart ((name, 13) :: (buf, BUFSIZ) ::
      mountAreas S (w.devs DEV_RAMDISK).data img N))
    (hsup : Supplies fill S.heap.kmalloca (mountRequests S files.length) w.k
      ((name, 13) :: (buf, BUFSIZ) :: mountAreas S (w.devs DEV_RAMDISK).data img N))
    (hfuel : BUFSIZ ≤ fuel) :
    ∃ root p w₁, ramfsInit fuel S w = .ret root w₁ ∧
      ((∀ t, loadGreeting fuel (guarded S buf) root buf name w₁ ≠ .halt t) ↔ GreetingFits files) ∧
      (GreetingFits files →
        ∃ ret v, loadGreeting fuel (guarded S buf) root buf name w₁ = .ret ret v) ∧
      ∀ ret v tr w₂, loadGreeting fuel (guarded S buf) root buf name w₁ = .ret ret v →
        Run (ShellStep fuel (guarded S buf) root buf
          (heldBy root p files.length (w.devs DEV_RAMDISK).data img N)) v tr w₂ →
        loadGreeting fuel S root buf name w₁ = .ret ret v ∧
          Run (ShellStep fuel S root buf
            (heldBy root p files.length (w.devs DEV_RAMDISK).data img N)) v tr w₂ ∧
          ∀ typed, Entered w₂ typed →
            ((∀ t, shellRound fuel (guarded S buf) root buf w₂ ≠ .halt t) ↔
              ∀ f, catTarget files typed = some f → f.size ≤ BUFSIZ) := by
  obtain ⟨root, p, w₁, hrun, hroot, hrooted, hheld, hdevs, hname₁⟩ :=
    mounted_named htable hpres hname hdis hsup hfuel
  have hgreeting : GreetingFits files → ∃ ret v,
      loadGreeting fuel (guarded S buf) root buf name w₁ = .ret ret v ∧
        Keeps (heldBy root p files.length (w.devs DEV_RAMDISK).data img N) w₁ v :=
    loadGreeting_fits hS hrooted hroot hfuel hname₁ hheld hbuf
  have hstops := loadGreeting_stops hS hrooted hroot hfuel hname₁ hheld hbuf
  refine ⟨root, p, w₁, hrun, ?_, fun hfits => ?_, fun ret v tr w₂ hload hshell => ?_⟩
  · constructor
    · intro hsafe
      by_contra hfits
      obtain ⟨t, hstop⟩ := hstops hfits
      exact hsafe t hstop
    · intro hfits t hstop
      obtain ⟨ret, v, hret, -⟩ := hgreeting hfits
      rw [hret] at hstop
      cases hstop
  · obtain ⟨ret, v, hret, -⟩ := hgreeting hfits
    exact ⟨ret, v, hret⟩
  · have hfits : GreetingFits files := by
      by_contra hfits
      obtain ⟨t, hstop⟩ := hstops hfits
      rw [hload] at hstop
      cases hstop
    obtain ⟨ret', v', hret, hkeeps⟩ := hgreeting hfits
    obtain ⟨rfl, rfl⟩ := Res.ret.inj (hload.symm.trans hret)
    have hopen₁ : (w₁.devs DEV_TTY).data ≠ 0 := by
      rw [hdevs]
      exact hopen
    have hkeeps₂ := hkeeps.trans (guardedRun_keeps hS (hrooted.keeps hkeeps) hroot
      (by rw [hkeeps.data]; exact hopen₁) hfuel hheld hbuf hshell)
    have hopen₂ : (w₂.devs DEV_TTY).data ≠ 0 := by
      rw [hkeeps₂.data]
      exact hopen₁
    exact ⟨(loadGreeting_watches hS buf fuel root name).ret hload, shellRun_unguarded hS buf hshell,
      fun typed hline => shellRound_iff hS (hrooted.keeps hkeeps₂) hroot hopen₂ hfuel hline hheld
        hbuf⟩

theorem greetingName_short : greetingName.length ≤ 31 := by decide

theorem greetingName_chars : ∀ c ∈ greetingName, c ≠ 0 := chars_of_all (by decide)

/-- `greeting.txt` with five bytes, and `b` with 600. -/
def longFiles : List Header :=
  [⟨greetingName, 0, 5, greetingName_short, greetingName_chars⟩,
    ⟨[98], 5, 600, b_short, b_chars⟩]

/-- Memory with the image of these files at `0x200000`, and the name of the greeting at
`0x70000`. -/
def longDisk : Mem :=
  let m : Mem := ⟨fun _ => 0⟩
  let m := putBytes m 0x70000 greetingName
  let m := store32 m 0x100000 0x200000
  let m := store32 m 0x200000 0x0002D158
  let m := store32 m 0x200004 0xDEADF11E
  let m := putBytes m 0x200008 greetingName
  let m := store32 m 0x20002C 5
  let m := store32 m 0x200030 0xDEADF11E
  let m := store8 m 0x200034 98
  let m := store32 m 0x200054 5
  let m := store32 m 0x200058 600
  putBytes m 0x20005C (chars "hello")

theorem longFiles_tabled : Tabled longDisk 0x200000 697 longFiles := by
  refine ⟨by decide +kernel, by decide +kernel, fun i f hf => ?_, by decide⟩
  match i, hf with
  | 0, hf =>
    obtain rfl := Option.some.inj hf
    exact ⟨by decide +kernel, by decide +kernel, by decide +kernel, by decide +kernel⟩
  | 1, hf =>
    obtain rfl := Option.some.inj hf
    exact ⟨by decide +kernel, by decide +kernel, by decide +kernel, by decide +kernel⟩

theorem longFiles_presented : Presented shellKernel (shellBoot longDisk) 0x200000 :=
  ⟨rfl, by decide, by decide +kernel⟩

theorem longFiles_supplies : Supplies ZeroFilled shellKernel.heap.kmalloca
    (mountRequests shellKernel longFiles.length) (shellBoot longDisk).k
      ((0x70000, 13) :: (0x300000, BUFSIZ) :: mountAreas shellKernel 0x100000 0x200000 697) := by
  have h : Pristine ⟨⟨longDisk, 0⟩, []⟩ := by
    refine ⟨fun y hy _ => ?_, rfl⟩
    simp only [heapBase] at hy
    have hhello : (chars "hello").length = 5 := by decide
    have hname : greetingName.length = 12 := by decide
    have hstored : ∀ m a, a + 12 ≤ y → putBytes m a greetingName y = m y := by
      intro m a ha
      refine putBytes_frame m a greetingName y ?_
      rw [outside_single, hname]
      omega
    refine (putBytes_frame _ 0x20005C (chars "hello") y ?_).trans ?_
    · rw [outside_single, hhello]
      omega
    · simp (disch := omega) only [store32_outside, store8_ne, hstored]
  exact pristine_supplies h.holds.heap (by decide) (by decide) (by decide) (by decide)

theorem longFiles_greeting : GreetingFits longFiles := ⟨longFiles[0], rfl, by decide⟩

theorem reads_fit_iff_long : ∃ root p w₁ ret v tr w₂,
    ramfsInit 512 shellKernel (shellBoot longDisk) = .ret root w₁ ∧
      loadGreeting 512 shellKernel root 0x300000 0x70000 w₁ = .ret ret v ∧
      Run (ShellStep 512 shellKernel root 0x300000 (heldBy root p 2 0x100000 0x200000 697))
        v tr w₂ ∧
      Entered w₂ (catLine [97]) ∧
      ∀ t, shellRound 512 (guarded shellKernel 0x300000) root 0x300000 w₂ ≠ .halt t := by
  obtain ⟨root, p, w₁, hrun, -, hloads, hrounds⟩ := reads_fit_iff (w := shellBoot longDisk) rfl
    longFiles_tabled longFiles_presented (by decide) (by decide +kernel : Str longDisk 0x70000 _)
    (by decide) (by decide) longFiles_supplies (by decide : BUFSIZ ≤ 512)
  obtain ⟨ret, v, hload⟩ := hloads longFiles_greeting
  obtain ⟨hplain, hshell, hround⟩ := hrounds ret v _ _ hload
    (typing_run 512 (guarded shellKernel 0x300000) root 0x300000 _ v (catKeys 0x1E))
  refine ⟨root, p, w₁, ret, v, _, _, hrun, hplain, hshell, catKeys_a v,
    (hround (catLine [97]) (catKeys_a v)).mpr fun f hf => ?_⟩
  have hnone : catTarget longFiles (catLine [97]) = none := rfl
  rw [hnone] at hf
  cases hf

/-- The files `a` and `b`, and the name of the greeting. -/
def unnamedDisk : Mem := putBytes greetingsDisk 0x70000 greetingName

theorem unnamed_byte {y : Nat} (hy : 0x7000C ≤ y) : unnamedDisk y = greetingsDisk y := by
  have hname : greetingName.length = 12 := by decide
  refine putBytes_frame greetingsDisk 0x70000 greetingName y ?_
  rw [outside_single, hname]
  omega

theorem unnamed_tabled : Tabled unnamedDisk 0x200000 99 greetings :=
  greetings_tabled.congr fun y h1 _ => unnamed_byte (by omega)

theorem unnamed_supplies : Supplies ZeroFilled shellKernel.heap.kmalloca
    (mountRequests shellKernel greetings.length) (shellBoot unnamedDisk).k
      ((0x70000, 13) :: (0x300000, BUFSIZ) :: mountAreas shellKernel 0x100000 0x200000 99) := by
  have h : Pristine ⟨⟨unnamedDisk, 0⟩, []⟩ := by
    refine ⟨fun y hy _ => (unnamed_byte ?_).trans (greetings_zero hy), rfl⟩
    simp only [heapBase] at hy
    omega
  exact pristine_supplies h.holds.heap (by decide) (by decide) (by decide) (by decide)

/-- Without a greeting the kernel uses NULL, and `cat b` reads 600 bytes into the buffer. -/
theorem reads_fit_fails :
    (∃ root w₁ t, ramfsInit 512 shellKernel (shellBoot unnamedDisk) = .ret root w₁ ∧
      loadGreeting 512 (guarded shellKernel 0x300000) root 0x300000 0x70000 w₁ = .halt t) ∧
    ∃ root p w₁ ret v tr w₂ t, ramfsInit 512 shellKernel (shellBoot longDisk) = .ret root w₁ ∧
      loadGreeting 512 shellKernel root 0x300000 0x70000 w₁ = .ret ret v ∧
      Run (ShellStep 512 shellKernel root 0x300000 (heldBy root p 2 0x100000 0x200000 697))
        v tr w₂ ∧
      Entered w₂ (catLine [98]) ∧
      shellRound 512 (guarded shellKernel 0x300000) root 0x300000 w₂ = .halt t := by
  constructor
  · obtain ⟨root, p, w₁, hrun, hroot, hrooted, hheld, -, hname⟩ := mounted_named
      (w := shellBoot unnamedDisk) unnamed_tabled ⟨rfl, by decide, by decide +kernel⟩
      (by decide +kernel : Str unnamedDisk 0x70000 _) (by decide) unnamed_supplies
      (by decide : BUFSIZ ≤ 512)
    have hnone : ¬ GreetingFits greetings := by
      intro hfits
      obtain ⟨f, hf, -⟩ := hfits
      cases (show (none : Option Header) = some f from hf)
    obtain ⟨t, hstop⟩ := loadGreeting_stops rfl hrooted hroot (by decide : BUFSIZ ≤ 512) hname
      hheld (by decide) hnone
    exact ⟨root, w₁, t, hrun, hstop⟩
  · obtain ⟨root, p, w₁, hrun, hroot, hrooted, hheld, hdevs, hname⟩ := mounted_named
      (w := shellBoot longDisk) longFiles_tabled longFiles_presented
      (by decide +kernel : Str longDisk 0x70000 _) (by decide) longFiles_supplies
      (by decide : BUFSIZ ≤ 512)
    obtain ⟨ret, v, hload, hkeeps⟩ := loadGreeting_fits rfl hrooted hroot
      (by decide : BUFSIZ ≤ 512) hname hheld (by decide) longFiles_greeting
    have hkeeps₂ := hkeeps.trans (typing_keeps _ v (catKeys 0x30))
    have hopen : ((typing v (catKeys 0x30)).devs DEV_TTY).data ≠ 0 := by
      rw [hkeeps₂.data, hdevs]
      decide
    have hstops : ∃ t, shellRound 512 (guarded shellKernel 0x300000) root 0x300000
        (typing v (catKeys 0x30)) = .halt t := by
      by_contra hsafe
      have hfit := (shellRound_iff rfl (hrooted.keeps hkeeps₂) hroot hopen
        (by decide : BUFSIZ ≤ 512) (catKeys_b v) hheld (by decide)).mp
        (fun t hstop => hsafe ⟨t, hstop⟩) longFiles[1] rfl
      exact absurd hfit (by decide)
    obtain ⟨t, hstop⟩ := hstops
    exact ⟨root, p, w₁, ret, v, _, _, t, hrun,
      (loadGreeting_watches rfl 0x300000 512 root 0x70000).ret hload,
      typing_run 512 shellKernel root 0x300000 _ v (catKeys 0x30), catKeys_b v, hstop⟩

end Foos.Cat
