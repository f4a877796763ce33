import Foos.CatFile
import Foos.Transition

/-! `cat` in a mounted root directory: a round of the shell that reads into its buffer only leaves
the directory, the ramdisk and its image as they are, and a file is printed together with what it
leaves of the command line. -/
namespace Foos.Cat
open Terminal Devices Program ByteMemory Word32 CString Fs Printf Kmalloc Transition

/-- The terminal is in the device table, and a ramdisk whose reads into the buffer are those of
`ramdisk_read`. -/
structure ServedBy (S : System Driver) (buf : Nat) : Prop where
  tty : S.devs[DEV_TTY]? = some (tty S.heap)
  disk : ∃ d hook, S.devs[DEV_RAMDISK]? = some d ∧ d.read = some hook ∧
    ∀ dest off len w, buf ≤ dest → dest + len ≤ buf + BUFSIZ →
      hook DEV_RAMDISK dest off len w = ramdiskRead DEV_RAMDISK dest off len w

theorem servedBy_table {S : System Driver} (hS : S.devs = table S.heap) (buf : Nat) :
    ServedBy S buf :=
  ⟨by rw [hS]; rfl, ramdisk S.heap, ramdiskRead, by rw [hS]; rfl, rfl, fun _ _ _ _ _ _ => rfl⟩

section
variable {S : System Driver} {files : List Header} {root p rd img N fuel buf ptr node : Nat}
  {w : World Driver} {arg typed : List UInt8} {f : Header}

/-- `fs_read` of a file that fits the buffer copies it from the image. -/
theorem fsRead_fits (hS : ServedBy S buf) (h : Rooted S files root p rd img w) {i : Nat}
    (hf : files[i]? = some f) (hsize : f.size ≤ BUFSIZ) (hbuf : buf + BUFSIZ ≤ 4294967296) :
    ∃ t, fsRead S (entry p i) buf f.size 0 w = .ret (toInt f.size) t ∧
      t.mem = memcpy w.mem buf (add32 img (add32 (fileBase files.length) f.offset)) f.size ∧
      (∀ no, (t.devs no).data = (w.devs no).data) ∧ t.fileBase = w.fileBase ∧
      t.driver = w.driver := by
  obtain ⟨d, hook, hdev, hread, hhook⟩ := hS.disk
  have hfile := h.file i f hf
  let w₁ := w.setOffset DEV_RAMDISK (add32 (fileBase files.length) f.offset)
  have hdata : (w₁.devs DEV_RAMDISK).data = rd := (w.setOffset_data _ _ _).trans h.data
  have hoff : (w₁.devs DEV_RAMDISK).offset = add32 (fileBase files.length) f.offset :=
    w.setOffset_same _ _
  have hdest : add32 buf 0 = buf := add32_of_lt (by simp only [BUFSIZ] at hbuf; omega)
  have haddr : rdAddr w₁.mem rd = img := h.addr
  have hcopy : hook DEV_RAMDISK buf (w₁.devs DEV_RAMDISK).offset f.size w₁ = .ret f.size
      (w₁.setMem (memcpy w.mem buf (add32 img (add32 (fileBase files.length) f.offset))
        f.size)) := by
    rw [hhook _ _ _ _ (Nat.le_refl buf) (by omega), hoff, ramdiskRead_run (hdata ▸ h.opened),
      hdata, haddr]
    rfl
  rw [fsRead_file hfile.readPtr hdev, h.base, hfile.impl, hfile.size, hdest,
    bind_ret (devRead_ret d hdev hread hcopy)]
  refine ⟨_, rfl, ?_, fun no => ?_, ?_, ?_⟩
  · split <;> rfl
  · split
    · exact (World.setOffset_data ..).trans (World.setOffset_data ..)
    · exact World.setOffset_data ..
  · split <;> exact h.base
  · split <;> rfl

/-- Such a read leaves alone what is held. -/
theorem fsRead_keeps (hS : ServedBy S buf) (h : Rooted S files root p rd img w) {i : Nat}
    (hf : files[i]? = some f) (hsize : f.size ≤ BUFSIZ)
    (hheld : Apart (heldBy root p files.length rd img N) buf BUFSIZ)
    (hbuf : buf + BUFSIZ ≤ 4294967296) :
    ∃ t, fsRead S (entry p i) buf f.size 0 w = .ret (toInt f.size) t ∧
      t.mem = memcpy w.mem buf (add32 img (add32 (fileBase files.length) f.offset)) f.size ∧
      Keeps (heldBy root p files.length rd img N) w t := by
  obtain ⟨t, hread, hmem, hdata, hbase, -⟩ := fsRead_fits hS h hf hsize hbuf
  exact ⟨t, hread, hmem, keeps_of_frame (hmem ▸ memcpy_frame _ _ _ _)
    (hheld.sub (Nat.le_refl buf) (by omega)) hdata hbase⟩

/-- `cat_file` on a name that finds a file. -/
theorem catFile_file (h : Rooted S files root p rd img w) (hroot : root ≠ 0) (hfuel : 32 ≤ fuel)
    (hs : Str w.mem ptr arg) (hf : fileNamed files arg = some f) (buf : Nat) :
    ∃ i, files[i]? = some f ∧ catFile fuel S root buf ptr w =
      (fsRead S (entry p i) buf f.size 0 >>= fun _ => puts fuel S buf >>= fun out =>
        fsClose S (entry p i) >>= fun _ => pure out) w := by
  obtain ⟨i, hi, hfind⟩ := h.finddir_file hfuel hs hf
  have hfile := h.file i f hi
  have hdir : ¬ FS_FILE &&& FS_DIR ≠ 0 := by decide
  refine ⟨i, hi, ?_⟩
  rw [catFile, bind_ret (used_pass hroot w), bind_ret hfind, if_neg (h.entry_pos i),
    bind_ret (used_pass (h.entry_pos i) w), ofMem_bind_run, hfile.flags, if_neg hdir,
    bind_ret (hfile.opens 0), ofMem_bind_run, hfile.size]

/-- `cat_file` on any other name. -/
theorem catFile_other (h : Rooted S files root p rd img w) (hroot : root ≠ 0)
    (hopen : (w.devs DEV_TTY).data ≠ 0) (hfuel : BUFSIZ ≤ fuel) (hs : Str w.mem ptr arg)
    (hlen : arg.length < BUFSIZ) (hf : fileNamed files arg = none) (buf : Nat) :
    ∃ out t, catFile fuel S root buf ptr w = .ret out t ∧ Shown w t := by
  simp only [BUFSIZ] at hfuel hlen
  have h32 : 32 ≤ fuel := by omega
  have hfind := h.finddir_other h32 hs hf
  rw [catFile, bind_ret (used_pass hroot w), bind_ret hfind]
  by_cases hdev : arg = devName
  · have hdir : FS_DIR &&& FS_DIR ≠ 0 := by decide
    rw [if_pos hdev, if_neg (h.entry_pos _), bind_ret (used_pass (h.entry_pos _) w),
      ofMem_bind_run, h.lastFlags, if_pos hdir]
    exact ⟨_, printfStr_run hopen hs (by omega) (by omega) _⟩
  · rw [if_neg hdev, if_pos rfl]
    exact ⟨_, printfStr_run hopen hs (by omega) (by omega) _⟩

/-- `cat_file` of a file that fits the buffer is the read, with `puts` behind it. -/
theorem catFile_reads (hS : ServedBy S buf) (h : Rooted S files root p rd img w)
    (hroot : root ≠ 0) (hfuel : 32 ≤ fuel) (hs : Str w.mem ptr arg)
    (hf : fileNamed files arg = some f) (hsize : f.size ≤ BUFSIZ)
    (hheld : Apart (heldBy root p files.length rd img N) buf BUFSIZ)
    (hbuf : buf + BUFSIZ ≤ 4294967296) :
    ∃ t, Keeps (heldBy root p files.length rd img N) w t ∧
      t.mem = memcpy w.mem buf (add32 img (add32 (fileBase files.length) f.offset)) f.size ∧
      (∀ u, puts fuel S buf t = .spin u → catFile fuel S root buf ptr w = .spin u) ∧
      ∀ out u, puts fuel S buf t = .ret out u → Shown t u →
        catFile fuel S root buf ptr w = .ret out u := by
  obtain ⟨i, hi, hrun⟩ := catFile_file h hroot hfuel hs hf buf
  obtain ⟨t, hread, hmem, hkeeps⟩ := fsRead_keeps hS h hi hsize hheld hbuf
  refine ⟨t, hkeeps, hmem, fun u hputs => ?_, fun out u hputs hshown => ?_⟩
  · rw [hrun, bind_ret hread]
    exact bind_spin hputs
  · have hclose := ((h.keeps (hkeeps.trans (hshown.keeps _))).file i f hi).closes
    rw [hrun, bind_ret hread, bind_ret hputs, bind_ret hclose]
    rfl

/-- A file that fits the buffer, a directory and no file at all: `cat_file` leaves alone what is
held, or `strlen` finds no end. -/
theorem catFile_keeps (hS : ServedBy S buf) (h : Rooted S files root p rd img w)
    (hroot : root ≠ 0) (hopen : (w.devs DEV_TTY).data ≠ 0) (hfuel : BUFSIZ ≤ fuel)
    (hs : Str w.mem ptr arg) (hlen : arg.length < BUFSIZ)
    (hfit : ∀ f, fileNamed files arg = some f → f.size ≤ BUFSIZ)
    (hheld : Apart (heldBy root p files.length rd img N) buf BUFSIZ)
    (hbuf : buf + BUFSIZ ≤ 4294967296) :
    (∃ t, catFile fuel S root buf ptr w = .spin t) ∨ ∃ out t,
      catFile fuel S root buf ptr w = .ret out t ∧
        Keeps (heldBy root p files.length rd img N) w t := by
  cases hf : fileNamed files arg with
  | none =>
    obtain ⟨out, t, hrun, ht⟩ := catFile_other h hroot hopen hfuel hs hlen hf buf
    exact Or.inr ⟨out, t, hrun, ht.keeps _⟩
  | some f =>
    have h32 : 32 ≤ fuel := Nat.le_trans (by decide) hfuel
    obtain ⟨t, ht, -, hspin, hret⟩ := catFile_reads hS h hroot h32 hs hf (hfit f hf) hheld hbuf
    have hopen' : (t.devs DEV_TTY).data ≠ 0 := by
      rw [ht.data]
      exact hopen
    cases puts_cases hS.tty hopen' fuel buf with
    | inl hputs => exact Or.inl ⟨t, hspin t hputs⟩
    | inr hputs =>
      obtain ⟨out, u, hputs, hshown⟩ := hputs
      exact Or.inr ⟨out, u, hret out u hputs hshown, ht.trans (hshown.keeps _)⟩

/-- The argument of a `cat` command stands behind its name. -/
theorem IsCat.argument {line : List UInt8} {m : Mem} (hcat : IsCat line) (hs : Str m buf line) :
    Str m (buf + 4) (line.drop 4) := by
  refine hs.drop ?_
  have htake := congrArg List.length hcat.2.2
  rw [List.length_take] at htake
  have hfour : (chars "cat ").length = 4 := by decide
  omega

/-- A round of the shell goes on without end or leaves alone what is held, when the file that it
prints fits the buffer. -/
theorem shellRound_keeps (hS : ServedBy S buf) (h : Rooted S files root p rd img w)
    (hroot : root ≠ 0) (hopen : (w.devs DEV_TTY).data ≠ 0) (hfuel : BUFSIZ ≤ fuel)
    (hline : Entered w typed) (hfit : ∀ f, catTarget files typed = some f → f.size ≤ BUFSIZ)
    (hheld : Apart (heldBy root p files.length rd img N) buf BUFSIZ)
    (hbuf : buf + BUFSIZ ≤ 4294967296) :
    (∃ t, shellRound fuel S root buf w = .spin t) ∨ ∃ out t,
      shellRound fuel S root buf w = .ret out t ∧
        Keeps (heldBy root p files.length rd img N) w t := by
  have htyped := hline.short
  obtain ⟨v, hrun, hholds, hframe, hdevs, hbase⟩ :=
    shellRound_line S root buf hline hopen hfuel
  have hkeeps : Keeps (heldBy root p files.length rd img N) w v :=
    keeps_of_frame hframe hheld (fun no => by rw [hdevs]) hbase
  rw [hrun]
  by_cases hcat : IsCat (lineOf typed)
  · have hle := lineOf_length typed
    have harg := hcat.argument (hholds.str htyped)
    have htarget : catTarget files typed = fileNamed files ((lineOf typed).drop 4) := if_pos hcat
    have hlen : ((lineOf typed).drop 4).length < BUFSIZ := by
      simp only [List.length_drop, BUFSIZ]
      omega
    rw [if_pos hcat]
    cases catFile_keeps hS (h.keeps hkeeps) hroot (hdevs ▸ hopen) hfuel harg hlen
      (fun f hf => hfit f (htarget.trans hf)) hheld hbuf with
    | inl hspin =>
      obtain ⟨t, hspin⟩ := hspin
      exact Or.inl ⟨t, bind_spin hspin⟩
    | inr hret =>
      obtain ⟨out, t, hret, ht⟩ := hret
      exact Or.inr ⟨some out, t, bind_ret hret, hkeeps.trans ht⟩
  · rw [if_neg hcat]
    exact Or.inr ⟨none, v, rfl, hkeeps⟩

/-- What happens while the shell runs: a round with the characters typed in it, or anything else,
as the other commands, that leaves alone what is held. -/
inductive ShellStep (fuel : Nat) (S : System Driver) (root buf : Nat) (held : List (Nat × Nat)) :
    World Driver → Option (List UInt8) → World Driver → Prop
  | round {w t : World Driver} {typed : List UInt8} {out : Option (List UInt8)}
      (hline : Entered w typed) (hrun : shellRound fuel S root buf w = .ret out t) :
      ShellStep fuel S root buf held w (some typed) t
  | meanwhile {w t : World Driver} (h : Keeps held w t) : ShellStep fuel S root buf held w none t

/-- A `cat` command in the step prints a file that fits the buffer. -/
def FitsBuffer (files : List Header) (step : Option (List UInt8)) : Prop :=
  ∀ typed, step = some typed → ∀ f, catTarget files typed = some f → f.size ≤ BUFSIZ

theorem ShellStep.keeps {w' : World Driver} {step : Option (List UInt8)} (hS : ServedBy S buf)
    (h : Rooted S files root p rd img w) (hroot : root ≠ 0) (hopen : (w.devs DEV_TTY).data ≠ 0)
    (hfuel : BUFSIZ ≤ fuel) (hfit : FitsBuffer files step)
    (hheld : Apart (heldBy root p files.length rd img N) buf BUFSIZ)
    (hbuf : buf + BUFSIZ ≤ 4294967296)
    (hstep : ShellStep fuel S root buf (heldBy root p files.length rd img N) w step w') :
    Keeps (heldBy root p files.length rd img N) w w' := by
  cases hstep with
  | @round _ typed out hline hrun =>
    cases shellRound_keeps hS h hroot hopen hfuel hline (hfit typed rfl) hheld hbuf with
    | inl hspin =>
      obtain ⟨t, hspin⟩ := hspin
      rw [hrun] at hspin
      cases hspin
    | inr hret =>
      obtain ⟨out', t, hret, ht⟩ := hret
      obtain ⟨-, rfl⟩ := Res.ret.inj (hrun.symm.trans hret)
      exact ht
  | meanwhile hk => exact hk

/-- A run whose `cat` commands fit the buffer leaves alone what is held. -/
theorem shellRun_keeps {w' : World Driver}
    {tr : List (World Driver × Option (List UInt8) × World Driver)} (hS : ServedBy S buf)
    (h : Rooted S files root p rd img w) (hroot : root ≠ 0) (hopen : (w.devs DEV_TTY).data ≠ 0)
    (hfuel : BUFSIZ ≤ fuel) (hheld : Apart (heldBy root p files.length rd img N) buf BUFSIZ)
    (hbuf : buf + BUFSIZ ≤ 4294967296)
    (hrun : Run (ShellStep fuel S root buf (heldBy root p files.length rd img N)) w tr w')
    (hfits : ∀ e ∈ tr, FitsBuffer files e.2.1) :
    Keeps (heldBy root p files.length rd img N) w w' := by
  refine hrun.invariant (P := Keeps (heldBy root p files.length rd img N) w)
    (Q := fun _ step => FitsBuffer files step) (fun s step t hs hfit hst => ?_)
    (.refl _ w) hfits
  refine hs.trans (hst.keeps hS (h.keeps hs) hroot ?_ hfuel hfit hheld hbuf)
  rw [hs.data]
  exact hopen

/-- `ramfs_init` mounts the files beside the buffer of the shell, and leaves what else stands beside
these as it is. -/
theorem mounted_beside {fill : Mem → Nat → Nat → Prop} (others : List (Nat × Nat))
    (htable : Tabled w.mem img N files) (hpres : Presented S w img)
    (hdis : AllApart (others ++ (buf, BUFSIZ) :: mountAreas S (w.devs DEV_RAMDISK).data img N))
    (hsup : Supplies fill S.heap.kmalloca (mountRequests S files.length) w.k
      (others ++ (buf, BUFSIZ) :: mountAreas S (w.devs DEV_RAMDISK).data img N))
    (hfuel : BUFSIZ ≤ fuel) :
    ∃ root p t, ramfsInit fuel S w = .ret root t ∧ root ≠ 0 ∧
      Rooted S files root p (w.devs DEV_RAMDISK).data img t ∧
      Apart (heldBy root p files.length (w.devs DEV_RAMDISK).data img N) buf BUFSIZ ∧
      t.devs = w.devs ∧ (∀ y, img ≤ y → y < img + N → t.mem y = w.mem y) ∧
      ∀ y, ¬ Outside others y → t.mem y = w.mem y := by
  obtain ⟨-, hdis', hothers⟩ := List.pairwise_append.mp hdis
  obtain ⟨hfirst, hdis''⟩ := List.pairwise_cons.mp hdis'
  obtain ⟨-, hslots⟩ := List.pairwise_cons.mp hdis''
  have hslotImg := (List.pairwise_cons.mp hslots).1 (img, N) (by simp)
  have h32 : 32 ≤ fuel := Nat.le_trans (by decide) hfuel
  obtain ⟨root, p, t, hrun, hroot, hrooted, hrootApart, hfilesApart, hdevs, hkept⟩ :=
    htable.rooted h32 hpres rfl hdis''
      (fun _ hr => List.mem_append_right _ (List.mem_cons_of_mem _ hr)) hsup
  refine ⟨root, p, t, hrun, hroot, hrooted, ?_, hdevs, fun y h1 h2 => ?_, fun y hy => ?_⟩
  · have hr := hrootApart (buf, BUFSIZ) (by simp)
    have hp := hfilesApart (buf, BUFSIZ) (by simp)
    have hrd := hfirst ((w.devs DEV_RAMDISK).data, ramdiskSize) (by simp [mountAreas])
    have himage := hfirst (img, N) (by simp [mountAreas])
    simp only [ramdiskSize] at hrd
    simp only [heldBy, apart_cons, apart_nil, and_true]
    omega
  · exact hkept y (not_outside.mpr ⟨(img, N), by simp [mountAreas], h1, h2⟩)
      (outside_single.mpr (by omega))
  · obtain ⟨r, hr, h1, h2⟩ := not_outside.mp hy
    have hslot := hothers r hr (S.link.header, 4) (by simp [mountAreas])
    exact hkept y (not_outside.mpr ⟨r, List.mem_append_left _ hr, h1, h2⟩)
      (outside_single.mpr (by omega))

end

end Foos.Cat
