import Foos.Answers
import Foos.HeapSpare

/-! The loop of the shell over whole sessions: every line is answered as the files and the devices
say, whatever was entered before. -/
namespace Foos.Dispatch
open Terminal Devices Program ByteMemory Word32 CString Fs Printf Vsprintf Libc Cat MaximalRuns
open Transition

/-- Field `description` of `struct cmd_handler`. -/
def description (e : Nat) : Nat := e + 16

/-- `for(i=0;i<nhandlers;i++)` of `shell_help` from `i` on. -/
def helpFrom (fuel : Nat) (L : ShellLink) : Nat → Nat → Code Driver (List UInt8)
  | 0, _ => diverge
  | rounds+1, i => do
    let n ← ofMem fun m => load32 m L.nhandlers
    if i < n then do
      let name ← stringAt fuel (cmd (L.entry i))
      let text ← stringAt fuel (description (L.entry i))
      let line ← send (textOf [.str (some name), .plain 32, .plain 45, .plain 32,
        .str (some text), .plain 10])
      let rest ← helpFrom fuel L rounds (i + 1)
      pure (line ++ rest)
    else pure []

def shellHelp (fuel : Nat) (L : ShellLink) : Code Driver (List UInt8) := helpFrom fuel L fuel 0

/-- What the kernel has set up for the shell: the files with their contents, and where the
directories, the buffer and the other objects are. The blocks of the heap are `us`. -/
structure Site where
  S : System Driver
  L : ShellLink
  files : List Header
  content : Header → List UInt8
  root : Nat
  p : Nat
  q : Nat
  rd : Nat
  img : Nat
  N : Nat
  buf : Nat
  dev : Nat
  sep : Nat
  us : List Kmalloc.Blk
  hf : Nat
  fuel : Nat

namespace Site
variable (K : Site)

/-- The functions of the table by their addresses, with those on the hardware and the tests of the
kernel as `rest`. -/
def handler (rest : Nat → Code Driver (List UInt8)) (hook : Nat) : Code Driver (List UInt8) :=
  if hook = K.L.function .shellHelp then shellHelp K.fuel K.L
  else if hook = K.L.function .listDevs then listDevs K.fuel K.S K.root K.dev
  else rest hook

/-- The branch of a round, where the static of `strtok` is `old`. -/
def run (rest : Nat → Code Driver (List UInt8)) (old : Nat) (c : Command) :
    Code Driver (List UInt8) :=
  runCommand K.fuel K.S K.L (lookupFrom K.fuel K.S K.root K.sep old) (K.handler rest) K.root K.buf c

/-- The areas that no round writes to. -/
def kept : List (Nat × Nat) :=
  treeAreas K.files K.S.devs K.root K.p K.q ++
    [(K.rd, 8), (K.img, K.N), (K.dev, 4), (K.sep, 2), (K.L.helloWorld, 12)] ++ K.L.areas

/-- The areas stand apart, in blocks in use or below the heap, and there is room for the copy of a
path behind them. -/
structure Sound : Prop where
  devs : K.S.devs = table K.S.heap
  heap : K.S.heap = ⟨Kmalloc.kmalloca K.hf, Kmalloc.kfree⟩
  blocks : K.us ≠ []
  top : Kmalloc.endOf Kmalloc.heapBase K.us + 1584 < 4294967296
  chain : K.us.length + 1 < K.hf
  held : Kmalloc.Held K.us ((K.buf, BUFSIZ) :: (K.S.link.dirent, direntSize) :: K.kept)
  above : ∀ r ∈ (K.buf, BUFSIZ) :: K.kept, 12 ≤ r.1
  bufApart : Apart K.kept K.buf BUFSIZ
  direntApart : Apart K.kept K.S.link.dirent direntSize
  below : K.buf + BUFSIZ ≤ 4294967296
  image : K.img + K.N ≤ 4294967296
  fuel : 544 ≤ K.fuel
  many : K.files.length + 1 < K.fuel

/-- A heap on which only the last block can be free. -/
def Heap (m : Mem) : Prop := ∃ bs, Kmalloc.Represents m bs ∧ Kmalloc.Spare 512 K.us bs

/-- The state at the prompt. -/
structure Live (w : World Driver) : Prop where
  rooted : Rooted K.S K.files K.root K.p K.rd K.img w
  mounted : MountedAt K.S K.files K.root K.p K.q w.mem
  contains : ∀ f ∈ K.files, Contains w.mem K.img K.N K.files.length f (K.content f)
  loaded : Loaded K.L w.mem
  described : ∀ i (h : i < CommandLine.handlers.length), ∀ k, k < 32 →
    w.mem (description (K.L.entry i) + k) = (chars CommandLine.handlers[i].description).getD k 0
  dev : Str w.mem K.dev devName
  sep : Str w.mem K.sep [47]
  hello : (List.range 12).map (fun i => w.mem (K.L.helloWorld + i)) = chars "Hello world\n"
  opened : (w.devs DEV_TTY).data ≠ 0
  heap : K.Heap w.mem

variable {K} {w v t : World Driver} {a n : Nat} {typed : List UInt8} {c : Command}

theorem Keeps.mono {held held' : List (Nat × Nat)} (h : Keeps held w t)
    (hsub : ∀ r ∈ held', r ∈ held) : Keeps held' w t := by
  refine ⟨fun y hy => h.mem y ?_, h.data, h.fileBase⟩
  obtain ⟨r, hr, h1, h2⟩ := not_outside.mp hy
  exact not_outside.mpr ⟨r, hsub r hr, h1, h2⟩

theorem tree_kept : ∀ r ∈ treeAreas K.files K.S.devs K.root K.p K.q, r ∈ K.kept :=
  fun _ hr => List.mem_append_left _ (List.mem_append_left _ hr)

theorem held_kept : ∀ r ∈ heldBy K.root K.p K.files.length K.rd K.img K.N, r ∈ K.kept := by
  intro r hr
  simp only [heldBy, List.mem_cons, List.not_mem_nil, or_false] at hr
  obtain rfl | rfl | rfl | rfl := hr <;> simp [kept, treeAreas]

theorem link_kept : ∀ r ∈ K.L.areas, r ∈ K.kept := fun _ hr => List.mem_append_right _ hr

/-- What leaves the areas alone leaves the shell at its prompt. -/
theorem Live.keeps (h : K.Live w) (hk : Keeps K.kept w t) (hheap : K.Heap t.mem) : K.Live t := by
  have hin : ∀ {a n}, (a, n) ∈ K.kept → ∀ y, a ≤ y → y < a + n → t.mem y = w.mem y :=
    fun hr y h1 h2 => hk.mem y (not_outside.mpr ⟨_, hr, h1, h2⟩)
  have hsub : ∀ {areas}, (∀ r ∈ areas, r ∈ K.kept) → ∀ y, ¬ Outside areas y → t.mem y = w.mem y :=
    fun hsub => (Keeps.mono hk hsub).mem
  have himg := hin (a := K.img) (n := K.N) (by simp [kept])
  refine ⟨h.rooted.keeps (Keeps.mono hk held_kept), h.mounted.congr (hsub tree_kept),
    fun f hf => (h.contains f hf).congr himg, h.loaded.congr (hsub link_kept), fun i hi k hk => ?_,
    h.dev.congr fun y h1 h2 => ?_, h.sep.congr fun y h1 h2 => ?_, ?_, ?_, hheap⟩
  · have hcount := CommandLine.handlers_length
    rw [← h.described i hi k hk]
    refine hin (link_kept (K.L.handlers, 624) (by simp [ShellLink.areas])) _ ?_ ?_
    all_goals
      simp only [description, ShellLink.entry]
      omega
  · exact hin (a := K.dev) (n := 4) (by simp [kept]) y h1 (Nat.lt_succ_of_le h2)
  · exact hin (a := K.sep) (n := 2) (by simp [kept]) y h1 (Nat.lt_succ_of_le h2)
  · rw [← h.hello]
    refine List.map_congr_left fun i hi => hin (a := K.L.helloWorld) (n := 12) (by simp [kept]) _
      (Nat.le_add_right _ _) (Nat.add_lt_add_left (List.mem_range.mp hi) _)
  · rw [hk.data]
    exact h.opened

/-- So does what is written into an area of its own. -/
theorem Live.frame (h : K.Live w) (hframe : Frame [(a, n)] w.mem t.mem)
    (hheld : Kmalloc.Held K.us [(a, n)]) (happ : Apart K.kept a n)
    (hdata : ∀ no, (t.devs no).data = (w.devs no).data) (hbase : t.fileBase = w.fileBase) :
    K.Live t := by
  obtain ⟨bs, hbs, hspare⟩ := h.heap
  exact h.keeps (keeps_of_frame hframe happ hdata hbase)
    ⟨bs, hbs.outside (hspare.held hheld) hframe, hspare⟩

theorem Live.printed (h : K.Live w) (ht : Shown w t) : K.Live t :=
  h.keeps (ht.keeps _) (ht.mem ▸ h.heap)

theorem Sound.held_one (hK : K.Sound) {r : Nat × Nat}
    (hr : r ∈ (K.buf, BUFSIZ) :: (K.S.link.dirent, direntSize) :: K.kept) :
    Kmalloc.Held K.us [r] := fun s hs => hK.held s (List.mem_singleton.mp hs ▸ hr)

theorem Sound.devs_length (hK : K.Sound) : K.S.devs.length = 2 := by
  rw [hK.devs]
  rfl

/-- What follows a place in the buffer is in the buffer. -/
theorem Sound.held_line (hK : K.Sound) {k n : Nat} (hin : k + n ≤ BUFSIZ) :
    Kmalloc.Held K.us ((K.buf + k, n) :: K.kept) := by
  intro r hr
  cases List.mem_cons.mp hr with
  | inl heq =>
    subst heq
    cases hK.held (K.buf, BUFSIZ) (List.mem_cons_self ..) with
    | inl hlow => exact Or.inl (by simp only at hlow ⊢; omega)
    | inr hused =>
      obtain ⟨x, b, hx, hb, h1, h2⟩ := hused
      simp only at h1 h2
      exact Or.inr ⟨x, b, hx, hb, by simp only; omega, by simp only; omega⟩
  | inr hr => exact hK.held r (List.mem_cons_of_mem _ (List.mem_cons_of_mem _ hr))

theorem Sound.above_line (hK : K.Sound) (k n : Nat) :
    ∀ r ∈ (K.buf + k, n) :: K.kept, 12 ≤ r.1 := by
  intro r hr
  cases List.mem_cons.mp hr with
  | inl heq =>
    subst heq
    exact Nat.le_trans (hK.above (K.buf, BUFSIZ) (List.mem_cons_self ..)) (Nat.le_add_right _ _)
  | inr hr => exact hK.above r (List.mem_cons_of_mem _ hr)

/-- A listing changes the buffer of `ramfs_readdir` only. -/
theorem Live.listed (hK : K.Sound) (h : K.Live w) (ht : Listed K.S w t) : K.Live t :=
  h.frame ht.mem (hK.held_one (by simp)) hK.direntApart (fun no => by rw [ht.devs]) ht.fileBase

/- The commands. -/

/-- The description of `cat` fills its field. -/
theorem description_length : ∀ e ∈ CommandLine.handlers, (∀ c ∈ chars e.description, c ≠ 0) ∧
    ((chars e.description).length < 32 ∨
      (chars e.description).length = 32 ∧ e.handle = none) := by
  decide +kernel

/-- Each description is a string: one that fills its field ends at the NULL behind it. -/
theorem Live.description (h : K.Live w) {i : Nat} (hi : i < CommandLine.handlers.length) :
    Str w.mem (description (K.L.entry i)) (chars CommandLine.handlers[i].description) := by
  obtain ⟨hchars, hlen⟩ := description_length _ (List.getElem_mem hi)
  have hfield := h.described i hi
  refine .of_getD hchars fun k hk => ?_
  cases hlen with
  | inl hlt => exact hfield k (by omega)
  | inr hfull =>
    by_cases hk' : k < 32
    · exact hfield k hk'
    · have hnull : handlePtr w.mem (K.L.entry i) = 0 := by
        rw [h.loaded.handle i hi, hfull.2]
        rfl
      have hzero : w.mem (K.L.entry i + 48) = 0 := by
        simp only [handlePtr, load32] at hnull
        exact UInt8.toNat_inj.mp (show _ = 0 by omega)
      obtain rfl : k = 32 := by omega
      rw [List.getD_eq_default _ _ (by omega)]
      exact hzero

theorem Live.help_from (hfuel : 32 < K.fuel) {i n rounds : Nat}
    (hn : i + n = CommandLine.handlers.length) (hrounds : n < rounds) (h : K.Live w) :
    ∃ t, helpFrom K.fuel K.L rounds i w =
        .ret ((CommandLine.handlers.drop i).flatMap helpLine) t ∧ Shown w t ∧
      t.driver DEV_TTY =
        shown (w.driver DEV_TTY) ((CommandLine.handlers.drop i).flatMap helpLine) := by
  induction n generalizing i rounds w with
  | zero =>
    obtain ⟨rounds, rfl⟩ := Nat.exists_eq_succ_of_ne_zero (Nat.ne_of_gt hrounds)
    refine ⟨w, ?_, ⟨rfl, rfl, rfl⟩, ?_⟩
    · rw [helpFrom, ofMem_bind_run, h.loaded.count, if_neg (by omega),
        List.drop_eq_nil_of_le (by omega)]
      rfl
    · rw [List.drop_eq_nil_of_le (by omega)]
      rfl
  | succ n ih =>
    obtain ⟨rounds, rfl⟩ := Nat.exists_eq_succ_of_ne_zero (Nat.ne_of_gt (Nat.zero_lt_of_lt hrounds))
    have hi : i < CommandLine.handlers.length := by omega
    have hmem := List.getElem_mem hi
    have hcmd := cmd_length _ hmem
    obtain ⟨-, hdesc⟩ := description_length _ hmem
    have hname := stringAt_run (h.loaded.cmd i hi) (hcmd.trans (by omega : 16 < K.fuel)) (by omega)
    have hlt : (chars CommandLine.handlers[i].description).length < K.fuel := by omega
    have htext := stringAt_run (h.description hi) hlt (by omega)
    obtain ⟨u, hline, hu, hd⟩ := send_run h.opened (helpLine CommandLine.handlers[i])
    rw [helpLine] at hline
    obtain ⟨t, hrest, ht, hd'⟩ :=
      ih (i := i + 1) (by omega) (Nat.lt_of_succ_lt_succ hrounds) (h.printed hu)
    refine ⟨t, ?_, hu.trans ht, ?_⟩
    · rw [helpFrom, ofMem_bind_run, h.loaded.count, if_pos hi, bind_ret hname, bind_ret htext,
        bind_ret hline, bind_ret hrest, List.drop_eq_getElem_cons hi]
      rfl
    · rw [hd', hd, shown_append, List.drop_eq_getElem_cons hi]
      rfl

/-- The command `help`. -/
theorem Live.prints_help (hK : K.Sound) (h : K.Live w) :
    ∃ out t, shellHelp K.fuel K.L w = .ret out t ∧ t.driver DEV_TTY =
      Cat.shown (w.driver DEV_TTY) (CommandLine.handlers.flatMap helpLine) ∧ K.Live t := by
  have hfuel := hK.fuel
  have hcount := CommandLine.handlers_length
  obtain ⟨t, hrun, ht, hd⟩ := h.help_from (by omega : 32 < K.fuel)
    (Nat.zero_add CommandLine.handlers.length) (by omega : _ < K.fuel)
  exact ⟨_, t, hrun, hd, h.printed ht⟩

/-- `ls` of a target. -/
theorem Live.lists (hK : K.Sound) (h : K.Live w) {t : Option Target}
    (ht : ∀ u, t = some u → u.InRange K.files K.S.devs) :
    ∃ out v, listDirectory K.fuel K.S ((t.map (Target.node K.files K.root K.p K.q)).getD 0) w =
        .ret out v ∧
      v.driver DEV_TTY = shown (w.driver DEV_TTY) (listing K.files K.S.devs t) ∧ K.Live v := by
  have hfuel := hK.fuel
  have hmany := hK.many
  have h32 : 32 ≤ K.fuel := by omega
  have hdevs := hK.devs_length
  have hx : (t.map (Target.node K.files K.root K.p K.q)).getD 0 = 0 ∨
      (t.map (Target.node K.files K.root K.p K.q)).getD 0 ∈
        mountedNodes K.files K.S.devs K.root K.p K.q := by
    cases t with
    | none => exact Or.inl rfl
    | some u => exact Or.inr (mem_mountedNodes.mpr ⟨u, ht u rfl, rfl⟩)
  have happ : DirentApart K.S (mountedNodes K.files K.S.devs K.root K.p K.q) :=
    dirent_apart fun r hr => hK.direntApart r (tree_kept r hr)
  obtain ⟨v, hrun, hv⟩ := listDirectory_run h.mounted.treeAt (mounted_described h.mounted) happ
    h.opened h32 hx fun x _ es hes => by
      obtain ⟨-, rfl⟩ | ⟨-, rfl⟩ := h.mounted.dir_cases hes
      · rw [List.length_mapIdx, rootNames_length]
        exact hmany
      · rw [List.length_mapIdx]
        omega
  obtain ⟨new, hnew, hshown⟩ := tells_listDirectory K.S K.fuel _ w _ v hrun
  rw [mounted_lsText h.mounted ht] at hnew
  exact ⟨_, v, hrun, hnew ▸ hshown, h.listed hK hv⟩

/-- The heap and the areas are ready for the lookup of a path in one of them. -/
theorem Live.pathReady (hK : K.Sound) (h : K.Live w) {path : Nat} {s : List UInt8}
    {areas : List (Nat × Nat)} (hs : Str w.mem path s) (hlen : s.length < BUFSIZ)
    (hsub : ∀ r ∈ K.kept, r ∈ areas) (hheld : Kmalloc.Held K.us areas)
    (habove : ∀ r ∈ areas, 12 ≤ r.1) (hin : (path, s.length + 1) ∈ areas) :
    ∃ bs, PathReady K.S.heap K.hf areas K.root path K.sep s bs w ∧ Kmalloc.Spare 512 K.us bs := by
  obtain ⟨bs, hbs, hspare⟩ := h.heap
  have hround := Kmalloc.roundUp_eq (n := s.length + 1) (by simp only [BUFSIZ] at hlen; omega)
  have htop := hK.top
  have hchain := hK.chain
  have hle := hspare.length_le
  simp only [BUFSIZ] at hlen
  exact ⟨bs, ⟨hK.heap, hbs, hspare.held hheld, habove,
    hspare.noWrap hbs (by omega) (by omega) (by omega), by omega, h.mounted.rootPos, hin,
    hsub _ (by simp [kept]), hs, h.sep⟩, hspare⟩

/-- What a lookup leaves behind. -/
theorem Live.returned (hK : K.Sound) (h : K.Live w) {n : Nat} {bs : List Kmalloc.Blk}
    (hspare : Kmalloc.Spare 512 K.us bs) (hk : Keeps K.kept w t) (hn : n ≤ 512)
    (hback : Kmalloc.Returned n bs t.mem) : K.Live t := by
  have hround := Kmalloc.roundUp_eq (n := n) (by omega)
  exact h.keeps hk (hspare.returned hK.blocks (by omega) hback)

/-- `ls` of a path. -/
theorem Live.lists_path (hK : K.Sound) (h : K.Live w) {k : Nat} {s : List UInt8}
    (hs : Str w.mem (K.buf + k) s) (hlen : k + s.length < BUFSIZ) (hcomp : ∃ c ∈ s, c ≠ 47)
    (old : Nat) : ∃ out v, (lookupFrom K.fuel K.S K.root K.sep old (K.buf + k) >>=
        listDirectory K.fuel K.S) w = .ret out v ∧
      v.driver DEV_TTY = shown (w.driver DEV_TTY)
        (listing K.files K.S.devs (Target.root.follow K.files K.S.devs (components s))) ∧
      K.Live v := by
  have hfuel := hK.fuel
  simp only [BUFSIZ] at hlen
  obtain ⟨bs, hready, hspare⟩ := h.pathReady hK hs (by simp only [BUFSIZ]; omega)
    (fun r hr => List.mem_cons_of_mem _ hr) (hK.held_line (by simp only [BUFSIZ]; omega))
    (hK.above_line _ _) (List.mem_cons_self ..)
  obtain ⟨l, r, t, hl, hlook, -, hkeep, hback⟩ := h.mounted.lookup_run hready
    (fun r hr => List.mem_cons_of_mem _ (tree_kept r hr)) ⟨by omega, hcomp⟩
    (show s.length + 32 ≤ K.fuel by omega) old
  have hkeeps := Keeps.mono (lookup_keeps hlook hkeep) fun r hr => List.mem_cons_of_mem _ hr
  have ht := h.returned hK hspare hkeeps (by omega) hback
  obtain ⟨-, hdriver⟩ := lookup_opened hlook h.opened
  rw [show l.map (text s) = components s from runs_words hl] at hlook
  obtain ⟨out, v, hrun, hshown, hv⟩ := ht.lists hK fun u hu =>
    Target.follow_inRange (t := .root) trivial hu
  have hlookup : lookupFrom K.fuel K.S K.root K.sep old (K.buf + k) w = .ret _ t :=
    (bind_ret hlook).trans rfl
  exact ⟨out, v, (bind_ret hlookup).trans hrun, by rw [hshown, hdriver], hv⟩

/-- `cat` of a name that no file has. -/
theorem Live.prints_missing (hK : K.Sound) (h : K.Live w) {ptr : Nat} {name : List UInt8}
    (hs : Str w.mem ptr name) (hlen : name.length < BUFSIZ) (hf : fileNamed K.files name = none) :
    ∃ out t, catFile K.fuel K.S K.root K.buf ptr w = .ret out t ∧
      t.driver DEV_TTY = Cat.shown (w.driver DEV_TTY) (name ++ chars (if name = devName then
        ": Is a directory\n" else ": No such file or directory\n")) ∧ K.Live t := by
  have hfuel := hK.fuel
  have hroot := h.mounted.rootPos
  simp only [BUFSIZ] at hlen
  have hfind := h.rooted.finddir_other (by omega : 32 ≤ K.fuel) hs hf
  have hprint := fun text =>
    printfStr_shows h.opened hs (by omega : name.length < K.fuel) (by omega) text
  rw [catFile, bind_ret (used_pass hroot w), bind_ret hfind]
  by_cases hdev : name = devName
  · have hdir : FS_DIR &&& FS_DIR ≠ 0 := by decide
    obtain ⟨t, hrun, ht, hd⟩ := hprint ": Is a directory\n"
    refine ⟨name ++ chars ": Is a directory\n", t, ?_, ?_, h.printed ht⟩
    · rw [if_pos hdev, if_neg (h.rooted.entry_pos _),
        bind_ret (used_pass (h.rooted.entry_pos _) w), ofMem_bind_run, h.rooted.lastFlags,
        if_pos hdir]
      exact hrun
    · rw [hd, if_pos hdev]
  · obtain ⟨t, hrun, ht, hd⟩ := hprint ": No such file or directory\n"
    refine ⟨name ++ chars ": No such file or directory\n", t, ?_, ?_, h.printed ht⟩
    · rw [if_neg hdev, if_pos rfl]
      exact hrun
    · rw [hd, if_neg hdev]

/-- What `fs_read` puts over the line in the buffer. -/
theorem Live.reads_file (hK : K.Sound) (h : K.Live w) (hholds : Holds w.mem K.buf typed)
    (htyped : typed.length ≤ 511) {f : Header} {i : Nat} (hi : K.files[i]? = some f)
    (hshort : (K.content f).length < BUFSIZ) :
    ∃ n u, fsRead K.S (Fs.entry K.p i) K.buf f.size 0 w = .ret n u ∧ K.Live u ∧
      u.driver = w.driver ∧
      Str u.mem K.buf ((K.content f ++ typed.drop (K.content f).length).takeWhile
        fun c => c ≠ 0) := by
  have hserved := servedBy_table hK.devs K.buf
  have hfile := h.contains f (List.mem_of_getElem? hi)
  have hsize := hfile.size
  obtain ⟨u, hread, humem, hdata, hbase, hdriver⟩ :=
    fsRead_fits hserved h.rooted hi (by omega) hK.below
  have hframe : Frame [(K.buf, BUFSIZ)] w.mem u.mem := by
    rw [humem]
    refine (memcpy_frame _ _ _ _).mono fun y hy => ?_
    rw [outside_single] at hy ⊢
    omega
  have hu : K.Live u := h.frame hframe (hK.held_one (List.mem_cons_self ..)) hK.bufApart hdata
    hbase
  have himg := hK.bufApart (K.img, K.N) (by simp [kept])
  have hin := hfile.inside
  simp only [BUFSIZ] at hshort himg
  refine ⟨_, u, hread, hu, hdriver, .takeWhile fun k hk => ?_⟩
  rw [humem, hsize]
  refine overlay_byte hholds (by simp only [BUFSIZ]; omega) hshort (fun j hj => ?_) ?_ hk
  · rw [hfile.source hK.image (by omega)]
    exact hfile.byte j hj
  · by_cases hpos : 0 < (K.content f).length
    · rw [hfile.source hK.image hpos]
      omega
    · omega

/-- `cat` of a name: the file over the line in the buffer. -/
theorem Live.prints (hK : K.Sound) (h : K.Live w) (hholds : Holds w.mem K.buf typed)
    (htyped : typed.length ≤ 511) {name : List UInt8} (hs : Str w.mem (K.buf + 4) name)
    (hlen : name.length < BUFSIZ)
    (hfit : ∀ f, fileNamed K.files name = some f → (K.content f).length < BUFSIZ) :
    ∃ out t, catFile K.fuel K.S K.root K.buf (K.buf + 4) w = .ret out t ∧
      t.driver DEV_TTY =
        Cat.shown (w.driver DEV_TTY) (catAnswer K.files K.content typed name) ∧ K.Live t := by
  have hfuel := hK.fuel
  rw [catAnswer]
  cases hf : fileNamed K.files name with
  | none => exact h.prints_missing hK hs hlen hf
  | some f =>
    have hshort := hfit f hf
    obtain ⟨i, hi, hrun⟩ :=
      catFile_file h.rooted h.mounted.rootPos (by omega : 32 ≤ K.fuel) hs hf K.buf
    obtain ⟨n, u, hread, hu, hdriver, hstr⟩ := h.reads_file hK hholds htyped hi hshort
    simp only [BUFSIZ] at hshort
    have hstrlen : ((K.content f ++ typed.drop (K.content f).length).takeWhile
        fun c => c ≠ 0).length < 512 := by
      refine Nat.lt_of_le_of_lt (List.takeWhile_prefix _).length_le ?_
      rw [List.length_append, List.length_drop]
      omega
    obtain ⟨t, hputs, ht, hd⟩ := puts_shows (servedBy_table hK.devs K.buf).tty hu.opened
      (stringAt_run hstr (hstrlen.trans (by omega : 512 < K.fuel)) (by omega))
    have hclose := ((hu.printed ht).rooted.file i f hi).closes
    refine ⟨((K.content f ++ typed.drop (K.content f).length).takeWhile fun c => c ≠ 0) ++ [10], t,
      ?_, ?_, hu.printed ht⟩
    · rw [hrun, bind_ret hread, bind_ret hputs, bind_ret hclose]
      rfl
    · rw [hd, hdriver]

/-- The command `tty`. -/
theorem Live.writes_tty (hK : K.Sound) (h : K.Live w) (old : Nat) :
    ∃ out t, testFsdev K.S K.L (lookupFrom K.fuel K.S K.root K.sep old) w = .ret out t ∧
      t.driver DEV_TTY = Cat.shown (w.driver DEV_TTY)
        (chars (if HidesDevices K.files then "tty not found!\n" else "Hello world\n")) ∧
      K.Live t := by
  have hfuel := hK.fuel
  have hin : (K.L.devTty, (chars "/dev/tty").length + 1) ∈ K.kept :=
    link_kept (K.L.devTty, 9) (by simp [ShellLink.areas])
  obtain ⟨bs, hready, hspare⟩ := h.pathReady hK h.loaded.devTty (by decide) (fun _ hr => hr)
    (fun r hr => hK.held r (List.mem_cons_of_mem _ (List.mem_cons_of_mem _ hr)))
    (fun r hr => hK.above r (List.mem_cons_of_mem _ hr)) hin
  have hhello : (K.L.helloWorld, 12) ∈ K.kept := by simp [kept]
  have hforty : 40 ≤ K.fuel := by omega
  obtain ⟨out, t, hrun, hkeeps, hback, hd⟩ := testFsdev_run h.mounted hK.devs hready tree_kept
    hhello h.hello h.opened hforty old
  exact ⟨out, t, hrun, hd, h.returned hK hspare hkeeps (by decide) hback⟩

/-- The command `devs`. -/
theorem Live.lists_devs (hK : K.Sound) (h : K.Live w) :
    ∃ out t, listDevs K.fuel K.S K.root K.dev w = .ret out t ∧
      t.driver DEV_TTY = Cat.shown (w.driver DEV_TTY) (devsText K.files K.S.devs) ∧ K.Live t := by
  have hfuel := hK.fuel
  have h32 : 32 ≤ K.fuel := by omega
  have hdevs := hK.devs_length
  have happ : Apart (treeAreas K.files K.S.devs K.root K.p K.q) K.S.link.dirent direntSize :=
    fun r hr => hK.direntApart r (tree_kept r hr)
  obtain ⟨t, hrun, ht⟩ := listDevs_run h.mounted h.dev happ h.opened h32
    (by omega : K.S.devs.length < K.fuel) (by omega)
  obtain ⟨new, hnew, hshown⟩ := tells_listDevs K.S K.fuel K.root K.dev w _ t hrun
  exact ⟨_, t, hrun, hnew ▸ hshown, h.listed hK ht⟩

/-- Each branch puts its answer on the screen. -/
theorem Live.answers (hK : K.Sound) (h : K.Live w) (hholds : Holds w.mem K.buf typed)
    (htyped : typed.length ≤ 511)
    (hdoes : Does K.L w.mem c (CommandLine.taken (lineOf typed)))
    (hptr : c.Points K.buf (lineOf typed)) (hans : Answered K.files K.content typed)
    (rest : Nat → Code Driver (List UInt8)) (old : Nat) :
    ∃ out t, K.run rest old c w = .ret out t ∧
      t.driver DEV_TTY =
        Cat.shown (w.driver DEV_TTY) (answer K.files K.S.devs K.content typed) ∧ K.Live t := by
  have hfuel := hK.fuel
  have hlen := lineOf_length typed
  have hline := hholds.str htyped
  have hsilent : w.driver DEV_TTY = Cat.shown (w.driver DEV_TTY) [] := rfl
  rw [answer]
  rw [Answered] at hans
  cases haction : CommandLine.taken (lineOf typed) with
  | quit =>
    rw [haction] at hdoes
    cases c with
    | quit => exact ⟨[], w, rfl, hsilent, h⟩
    | _ => exact hdoes.elim
  | nothing =>
    rw [haction] at hdoes
    cases c with
    | nothing => exact ⟨[], w, rfl, hsilent, h⟩
    | _ => exact hdoes.elim
  | unknown =>
    rw [haction] at hdoes
    cases c with
    | unknown =>
      obtain ⟨t, hrun, ht, hd⟩ := printfStr_shows h.opened hline (by omega : _ < K.fuel) (by omega)
        ": Unknown command\n"
      exact ⟨_, t, hrun, hd, h.printed ht⟩
    | _ => exact hdoes.elim
  | list path =>
    rw [haction] at hdoes hans
    cases c with
    | listRoot =>
      obtain rfl : path = [] := hdoes
      obtain ⟨out, t, hrun, hd, ht⟩ := h.lists hK (t := some .root) fun u hu =>
        (Option.some.inj hu) ▸ trivial
      exact ⟨out, t, hrun, hd, ht⟩
    | listPath ptr =>
      obtain ⟨rfl, hlong⟩ := hptr
      obtain ⟨hne, hstr⟩ := hdoes
      have hdrop : path.length = (lineOf typed).length - 3 := by
        rw [taken_list haction, List.length_drop]
      obtain ⟨out, t, hrun, hd, ht⟩ := h.lists_path hK hstr
        (by simp only [BUFSIZ]; omega) (hans.resolve_left hne) old
      refine ⟨out, t, hrun, ?_, ht⟩
      simp only [if_neg hne]
      exact hd
    | _ => exact hdoes.elim
  | print name =>
    rw [haction] at hdoes hans
    cases c with
    | print ptr =>
      obtain rfl : ptr = K.buf + 4 := hptr
      have hname : name.length ≤ (lineOf typed).length := by
        rw [taken_print haction, List.length_drop]
        omega
      exact h.prints hK hholds htyped hdoes (by simp only [BUFSIZ]; omega) hans
    | _ => exact hdoes.elim
  | run f =>
    rw [haction] at hdoes hans
    cases c with
    | handle hook =>
      obtain rfl : hook = K.L.function f := hdoes
      have hapart : ∀ g g' : CommandLine.Handler, g ≠ g' → K.L.function g ≠ K.L.function g' :=
        fun g g' => mt (@K.L.distinct g g')
      obtain rfl | rfl | rfl := hans
      · obtain ⟨out, t, hrun, hd, ht⟩ := h.prints_help hK
        refine ⟨out, t, ?_, hd, ht⟩
        rw [run, runCommand, if_neg (hapart .shellHelp .testFsdev (by decide)), handler, if_pos rfl]
        exact hrun
      · obtain ⟨out, t, hrun, hd, ht⟩ := h.lists_devs hK
        refine ⟨out, t, ?_, hd, ht⟩
        rw [run, runCommand, if_neg (hapart .listDevs .testFsdev (by decide)), handler,
          if_neg (hapart .listDevs .shellHelp (by decide)), if_pos rfl]
        exact hrun
      · obtain ⟨out, t, hrun, hd, ht⟩ := h.writes_tty hK old
        refine ⟨out, t, ?_, hd, ht⟩
        rw [run, runCommand, if_pos rfl]
        exact hrun
    | _ => exact hdoes.elim
  | noHandler cmd => exact absurd haction (taken_handled _ _)

end Site

end Foos.Dispatch
