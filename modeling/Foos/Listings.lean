import Foos.Dispatch
import Foos.MountedTree

/-! What `ls` and `devs` print: a line for each entry of a directory of the tree, in their order,
whatever path leads to it. -/
namespace Foos.Dispatch
open Terminal Devices Program ByteMemory Word32 CString Fs Printf Vsprintf Libc Cat MaximalRuns

/-- What a listing shows of an inode. -/
structure Info where
  name : List UInt8
  bits : Nat
  size : Nat

/-- The inodes of the tree are as described, and its directories can be listed. -/
structure Described (S : System Driver) (m : Mem) (dir : Listing) (nodes : List Nat)
    (info : Nat → Info) : Prop where
  name : ∀ x ∈ nodes, Str m (name x) (info x).name
  short : ∀ x ∈ nodes, (info x).name.length < 32
  bits : ∀ x ∈ nodes, flags m x = (info x).bits
  size : ∀ x ∈ nodes, size m x = (info x).size
  type : ∀ x ∈ nodes, (info x).bits &&& 0xF < Shell.fileType.length
  isDir : ∀ x ∈ nodes, (info x).bits &&& 0x7 = FS_DIR ↔ ∃ es, dir x = some es
  hook : ∀ x ∈ nodes, ∀ es, dir x = some es → readdirPtr m x = S.link.ramfsReaddir

def entryText (i : Info) : List UInt8 :=
  textOf ([.str (Shell.fileType.getD (i.bits &&& 0xF) none), .plain 9, .str (some i.name), .plain 9,
    .int (UInt32.ofNat i.size)] ++ (chars " bytes\n").map .plain)

def headText (n : Nat) (i : Info) : List UInt8 :=
  textOf (.int (UInt32.ofNat n) :: (chars " files in `").map .plain ++
    .str (some i.name) :: (chars "':\n").map .plain)

/-- What is to be printed for an inode, or for NULL. -/
def lsText (dir : Listing) (info : Nat → Info) (x : Nat) : List UInt8 :=
  if x = 0 then chars "No such file or directory" ++ [10]
  else match dir x with
    | none => (info x).name ++ chars ": Not a directory\n"
    | some es => headText es.length (info x) ++
        es.flatMap fun e => entryText (info (child dir x e.1))

/-- What a listing changes besides the screen. -/
structure Listed (S : System Driver) (w t : World Driver) : Prop where
  mem : Frame [(S.link.dirent, direntSize)] w.mem t.mem
  devs : t.devs = w.devs
  fileBase : t.fileBase = w.fileBase

/-- The buffer of `ramfs_readdir` is apart from the inodes. -/
def DirentApart (S : System Driver) (nodes : List Nat) : Prop :=
  ∀ x ∈ nodes, Apart [(x, 76)] S.link.dirent direntSize

instance (S : System Driver) (nodes : List Nat) : Decidable (DirentApart S nodes) :=
  inferInstanceAs (Decidable (∀ x ∈ nodes, Apart [(x, 76)] S.link.dirent direntSize))

section
variable {S : System Driver} {dir : Listing} {nodes : List Nat} {root fuel x : Nat}
  {info : Nat → Info} {es : List (List UInt8 × Nat)} {m m' : Mem} {w w' t u : World Driver}

theorem Listed.refl (w : World Driver) : Listed S w w := ⟨Frame.refl _ _, rfl, rfl⟩

theorem Listed.trans (h : Listed S w t) (h' : Listed S t u) : Listed S w u :=
  ⟨h.mem.trans h'.mem, h'.devs.trans h.devs, h'.fileBase.trans h.fileBase⟩

theorem shown_listed (h : Shown w t) : Listed S w t :=
  ⟨h.mem ▸ Frame.refl _ _, h.devs, h.fileBase⟩

theorem Described.congr (h : Described S m dir nodes info)
    (hm : ∀ x ∈ nodes, ∀ y, x ≤ y → y < x + 76 → m' y = m y) : Described S m' dir nodes info := by
  have hload : ∀ x ∈ nodes, ∀ k, k + 4 ≤ 76 → load32 m' (x + k) = load32 m (x + k) :=
    fun x hx k hk => load32_congr fun y h1 h2 => hm x hx y (by omega) (by omega)
  refine ⟨fun x hx => (h.name x hx).congr fun y h1 h2 => ?_, h.short, fun x hx => ?_,
    fun x hx => (hload x hx 36 (by omega)).trans (h.size x hx), h.type, h.isDir,
    fun x hx es hes => (hload x hx 64 (by omega)).trans (h.hook x hx es hes)⟩
  · have hshort := h.short x hx
    simp only [Fs.name] at h1 h2
    exact hm x hx y h1 (by omega)
  · rw [← h.bits x hx, flags, flags, hm x hx (x + 32) (by omega) (by omega)]

/-- A listing leaves the inodes as they are. -/
theorem Listed.inodes (h : Listed S w t) (happ : DirentApart S nodes) :
    ∀ x ∈ nodes, ∀ y, x ≤ y → y < x + 76 → t.mem y = w.mem y := by
  intro x hx y h1 h2
  have hsep := happ x hx
  simp only [apart_cons, apart_nil, and_true] at hsep
  exact h.mem y (outside_single.mpr (by omega))

/-- `fs_readdir` of a directory puts the name of the entry into the buffer. -/
theorem readdir_entry (htree : TreeAt S w.mem dir nodes root)
    (hhook : readdirPtr w.mem x = S.link.ramfsReaddir) (happ : DirentApart S nodes) (hx : x ∈ nodes)
    (hes : dir x = some es) (hfuel : 32 ≤ fuel) {i : Nat} {e : List UInt8 × Nat}
    (he : es[i]? = some e) :
    fsReaddir fuel S x i w = .ret S.link.dirent (direntWorld S w i e.1) := by
  obtain ⟨hentry, hin, hshort, hname⟩ := htree.entryAt x hx es hes i e he
  have hi : i < es.length := (List.getElem?_eq_some_iff.mp he).1
  have hne : S.link.ramfsReaddir ≠ 0 := Nat.ne_of_gt (S.link.code _ (by simp)).1
  have hbit : (if 0x7 ≠ FS_DIR then 1 else 0) = 1 := by decide
  have hsep := happ e.2 hin
  simp only [direntSize, apart_cons, apart_nil, and_true] at hsep
  have hcopy : strcpy fuel w.mem (direntName S.link.dirent) (name (entry (ptr w.mem x) i)) =
      some (S.link.dirent, putString w.mem S.link.dirent e.1) := by
    refine strcpy_run (hentry ▸ hname) (by omega) ?_
    rw [← hentry]
    simp only [direntName, Fs.name]
    omega
  simp only [fsReaddir, checkDir, ofMem_bind_run, hbit]
  rw [if_neg fun hf => hf (htree.bit x hx es hes)]
  simp only [ofMem_bind_run, hhook, if_neg hne, if_true, ramfsReaddir,
    htree.count x hx es hes]
  rw [if_neg (Nat.not_le.mpr hi)]
  refine (bind_ret (update_run (a := ())
    (t := w.setMem (putString w.mem S.link.dirent e.1)) ?_)).trans rfl
  rw [hcopy]
  rfl

/-- Behind the last entry it returns NULL. -/
theorem readdir_behind (htree : TreeAt S w.mem dir nodes root)
    (hhook : readdirPtr w.mem x = S.link.ramfsReaddir) (hx : x ∈ nodes) (hes : dir x = some es)
    {i : Nat} (hi : es.length ≤ i) (fuel : Nat) : fsReaddir fuel S x i w = .ret 0 w := by
  have hne : S.link.ramfsReaddir ≠ 0 := Nat.ne_of_gt (S.link.code _ (by simp)).1
  have hbit : (if 0x7 ≠ FS_DIR then 1 else 0) = 1 := by decide
  simp only [fsReaddir, checkDir, ofMem_bind_run, hbit]
  rw [if_neg fun hf => hf (htree.bit x hx es hes)]
  simp only [ofMem_bind_run, hhook, if_neg hne, if_true, ramfsReaddir,
    htree.count x hx es hes]
  rw [if_pos hi]
  rfl

theorem direntWorld_listed (S : System Driver) (w : World Driver) (i : Nat) {s : List UInt8}
    (hs : s.length ≤ 31) : Listed S w (direntWorld S w i s) :=
  ⟨direntWorld_frame S w i hs, rfl, rfl⟩

/-- The entry of a name is in the tree. -/
theorem child_entry (htree : TreeAt S m dir nodes root) (hx : x ∈ nodes) (hes : dir x = some es)
    {e : List UInt8 × Nat} (he : e ∈ es) : child dir x e.1 ∈ nodes := by
  have hsome : (es.find? fun e' => e'.1 == e.1).isSome :=
    List.find?_isSome.mpr ⟨e, he, beq_self_eq_true e.1⟩
  obtain ⟨e', hfind⟩ := Option.isSome_iff_exists.mp hsome
  have hchild : child dir x e.1 = e'.2 := by simp [child, hes, hfind]
  obtain ⟨i, hi⟩ := List.getElem?_of_mem (List.mem_of_find?_eq_some hfind)
  rw [hchild]
  exact (htree.entryAt x hx es hes i e' hi).2.1

theorem listEntry_run (hdesc : Described S w.mem dir nodes info) (hx : x ∈ nodes)
    (hopen : (w.devs DEV_TTY).data ≠ 0) (hfuel : 32 ≤ fuel) :
    ∃ t, listEntry fuel x w = .ret (entryText (info x)) t ∧ Shown w t := by
  have htype := hdesc.type x hx
  have hshort := hdesc.short x hx
  have hget : Shell.fileType[(info x).bits &&& 0xF]? =
      some (Shell.fileType.getD ((info x).bits &&& 0xF) none) := by
    rw [List.getD_eq_getElem _ _ htype, List.getElem?_eq_getElem htype]
  have hname : stringAt fuel (name x) w = .ret (info x).name w :=
    stringAt_run (hdesc.name x hx) (by omega) (by omega)
  obtain ⟨t, hsend, ht, -⟩ := send_run hopen (entryText (info x))
  refine ⟨t, ?_, ht⟩
  rw [listEntry, ofMem_bind_run, hdesc.bits x hx, hget]
  simp only
  rw [bind_ret hname, ofMem_bind_run, hdesc.size x hx]
  exact hsend

/-- The loop prints the entries from `i` on. -/
theorem listFrom_run (hx : x ∈ nodes) (hes : dir x = some es) (happ : DirentApart S nodes)
    (hfuel : 32 ≤ fuel) {i n rounds : Nat}
    (hn : i + n = es.length) (hrounds : n < rounds) (htree : TreeAt S w.mem dir nodes root)
    (hdesc : Described S w.mem dir nodes info) (hopen : (w.devs DEV_TTY).data ≠ 0) :
    ∃ t, listFrom fuel S x rounds i w =
        .ret ((es.drop i).flatMap fun e => entryText (info (child dir x e.1))) t ∧
      Listed S w t := by
  induction n generalizing i rounds w with
  | zero =>
    obtain ⟨rounds, rfl⟩ := Nat.exists_eq_succ_of_ne_zero (Nat.ne_of_gt hrounds)
    refine ⟨w, ?_, Listed.refl w⟩
    rw [listFrom, ofMem_bind_run, htree.count x hx es hes, if_neg (by omega),
      List.drop_eq_nil_of_le (by omega)]
    rfl
  | succ n ih =>
    obtain ⟨rounds, rfl⟩ := Nat.exists_eq_succ_of_ne_zero (Nat.ne_of_gt (Nat.zero_lt_of_lt hrounds))
    have hi : i < es.length := by omega
    have hget : es[i]? = some es[i] := List.getElem?_eq_getElem hi
    have hmem : es[i] ∈ es := List.getElem_mem hi
    obtain ⟨-, -, hshort, hstr⟩ := htree.entryAt x hx es hes i _ hget
    have hread := readdir_entry htree (hdesc.hook x hx es hes) happ hx hes hfuel hget
    -- the name is looked up from the buffer
    have hl₁ := direntWorld_listed S w i (Nat.le_of_lt_succ hshort)
    have hin₁ := hl₁.inodes happ
    have htree₁ := htree.congr hin₁
    have hdesc₁ := hdesc.congr hin₁
    have hname : Str (direntWorld S w i es[i].1).mem (direntName S.link.dirent) es[i].1 := by
      refine (putString_str (m := w.mem) (a := S.link.dirent) hstr.chars).congr
        fun y h1 h2 => ?_
      exact store32_outside _ _ _ _ (by omega)
    have hfind := htree₁.finddir_dir hx hes hfuel hname
    have hopen₁ : ((direntWorld S w i es[i].1).devs DEV_TTY).data ≠ 0 := hopen
    obtain ⟨u, hline, hu⟩ := listEntry_run hdesc₁ (child_entry htree hx hes hmem) hopen₁ hfuel
    have hl₂ : Listed S w u := hl₁.trans (shown_listed hu)
    have hin₂ := hl₂.inodes happ
    obtain ⟨t, hrest, ht⟩ := ih (i := i + 1) (by omega) (Nat.lt_of_succ_lt_succ hrounds)
      (htree.congr hin₂) (hdesc.congr hin₂) (hl₂.devs ▸ hopen)
    refine ⟨t, ?_, hl₂.trans ht⟩
    rw [listFrom, ofMem_bind_run, htree.count x hx es hes, if_pos hi, bind_ret hread,
      bind_ret hfind, bind_ret hline, bind_ret hrest, List.drop_eq_getElem_cons hi]
    rfl

theorem putsLiteral_run (hopen : (w.devs DEV_TTY).data ≠ 0) (s : String) :
    ∃ t, putsLiteral s w = .ret (chars s ++ [10]) t ∧ Shown w t ∧
      t.driver DEV_TTY = shown (w.driver DEV_TTY) (chars s ++ [10]) := by
  obtain ⟨u, hsend, hu, hd⟩ := send_run hopen (chars s)
  obtain ⟨t, hnew, ht, hd'⟩ := send_run (w := u) (hu.devs ▸ hopen) [10]
  refine ⟨t, ?_, hu.trans ht, by rw [hd', hd, shown_append]⟩
  rw [putsLiteral, bind_ret hsend, putchar, bind_ret hnew]
  rfl

/-- `list_directory` of any inode of the tree, or of NULL. -/
theorem listDirectory_run (htree : TreeAt S w.mem dir nodes root)
    (hdesc : Described S w.mem dir nodes info) (happ : DirentApart S nodes)
    (hopen : (w.devs DEV_TTY).data ≠ 0) (hfuel : 32 ≤ fuel) (hx : x = 0 ∨ x ∈ nodes)
    (hrounds : ∀ x ∈ nodes, ∀ es, dir x = some es → es.length < fuel) :
    ∃ t, listDirectory fuel S x w = .ret (lsText dir info x) t ∧ Listed S w t := by
  by_cases h0 : x = 0
  · obtain ⟨t, hputs, ht, -⟩ := putsLiteral_run hopen "No such file or directory"
    refine ⟨t, ?_, shown_listed ht⟩
    rw [listDirectory, if_pos h0, hputs, lsText, if_pos h0]
  have hx : x ∈ nodes := hx.resolve_left h0
  have hshort := hdesc.short x hx
  rw [listDirectory, if_neg h0, ofMem_bind_run, hdesc.bits x hx, lsText, if_neg h0]
  cases hes : dir x with
  | none =>
    have hnot : (info x).bits &&& 0x7 ≠ FS_DIR := fun h => by
      obtain ⟨es, hes'⟩ := (hdesc.isDir x hx).mp h
      exact absurd (hes.symm.trans hes') (by simp)
    obtain ⟨t, hrun, ht⟩ := printfStr_run hopen (hdesc.name x hx) (by omega : _ < fuel) (by omega)
      ": Not a directory\n"
    refine ⟨t, ?_, shown_listed ht⟩
    rw [if_pos hnot]
    exact hrun
  | some es =>
    have his : (info x).bits &&& 0x7 = FS_DIR := (hdesc.isDir x hx).mpr ⟨es, hes⟩
    have hname : stringAt fuel (name x) w = .ret (info x).name w :=
      stringAt_run (hdesc.name x hx) (by omega) (by omega)
    obtain ⟨u, hsend, hu, -⟩ := send_run hopen (headText es.length (info x))
    rw [headText] at hsend
    have hin := (shown_listed (S := S) hu).inodes happ
    obtain ⟨t, hrest, ht⟩ := listFrom_run hx hes happ hfuel (Nat.zero_add _)
      (hrounds x hx es hes) (htree.congr hin) (hdesc.congr hin) (hu.devs ▸ hopen)
    refine ⟨t, ?_, (shown_listed hu).trans ht⟩
    rw [if_neg (not_not_intro his), ofMem_bind_run, htree.count x hx es hes, bind_ret hname,
      bind_ret hsend, bind_ret hrest]
    rfl

end

/- The lookup in front of a listing. -/

/-- Nothing but memory and `errno` changes. -/
def SameBeside {δ : Type} (w t : World δ) : Prop := ∃ k, t = { w with k := k }

section
variable {δ : Type} (fuel : Nat) (S : System δ)

theorem sameBeside_refl (w : World δ) : SameBeside w w := ⟨w.k, rfl⟩

theorem sameBeside_trans (w t u : World δ) (h : SameBeside w t) (h' : SameBeside t u) :
    SameBeside w u := by
  obtain ⟨k, rfl⟩ := h
  obtain ⟨k', rfl⟩ := h'
  exact ⟨k', rfl⟩

/-- An update of memory or of the heap. -/
theorem sameBeside_update {α β : Type} {f : World δ → Option β} {a : β → α}
    {k : World δ → β → Kmalloc.Machine} :
    Respects SameBeside (update fun w : World δ => (f w).map fun r =>
      (a r, { w with k := k w r })) := by
  refine respects_update sameBeside_refl fun w b t h => ?_
  obtain ⟨r, -, hr⟩ := Option.map_eq_some_iff.mp h
  exact ⟨_, (Prod.mk.inj hr).2.symm⟩

theorem finddir_sameBeside (node a : Nat) : Respects SameBeside (fsFinddir fuel S node a) := by
  have hfrom : ∀ i n, Respects SameBeside (finddirFrom fuel node a i n : Code δ Nat) := by
    intro i n s
    rw [← show s = _ from finddirFrom_same fuel node a i n s]
    exact sameBeside_refl s
  refine respects_bind sameBeside_trans (respects_read sameBeside_refl _) fun bits => ?_
  refine respects_ite ?_ ?_
  · exact respects_bind sameBeside_trans (respects_modify fun w => ⟨_, rfl⟩) fun _ =>
      respects_pure sameBeside_refl 0
  · refine respects_bind sameBeside_trans (respects_read sameBeside_refl _) fun hook => ?_
    refine respects_ite (respects_pure sameBeside_refl 0) (respects_ite ?_ ?_)
    · exact respects_bind sameBeside_trans (respects_read sameBeside_refl _) fun n => hfrom 0 n
    · exact respects_diverge sameBeside_refl

theorem lookupLoop_sameBeside (sep n node old : Nat) :
    Respects SameBeside (lookupLoop fuel S sep n node old) := by
  induction n generalizing node old with
  | zero => exact respects_diverge sameBeside_refl
  | succ n ih =>
    refine respects_bind sameBeside_trans sameBeside_update fun r => ?_
    refine respects_ite ?_ (respects_pure sameBeside_refl _)
    exact respects_bind sameBeside_trans (finddir_sameBeside fuel S node r.1) fun node =>
      ih node r.2

/-- `fs_lookup` touches nothing else. -/
theorem fsLookup_sameBeside (fsRoot sep path old : Nat) :
    Respects SameBeside (fsLookup fuel S fsRoot sep path old) := by
  refine respects_bind sameBeside_trans (respects_assert sameBeside_refl _) fun _ => ?_
  refine respects_bind sameBeside_trans (respects_assert sameBeside_refl _) fun _ => ?_
  refine respects_bind sameBeside_trans sameBeside_update fun n => ?_
  refine respects_bind sameBeside_trans (respects_assert sameBeside_refl _) fun _ => ?_
  refine respects_bind sameBeside_trans sameBeside_update fun tmp => ?_
  refine respects_bind sameBeside_trans (respects_modify fun w => ⟨_, rfl⟩) fun _ => ?_
  refine respects_bind sameBeside_trans sameBeside_update fun _ => ?_
  refine respects_bind sameBeside_trans sameBeside_update fun r => ?_
  refine respects_ite ?_ ?_
  · refine respects_bind sameBeside_trans sameBeside_update fun _ => ?_
    exact respects_bind sameBeside_trans (finddir_sameBeside fuel S fsRoot path) fun _ =>
      respects_pure sameBeside_refl _
  · refine respects_bind sameBeside_trans (finddir_sameBeside fuel S fsRoot r.1) fun node => ?_
    refine respects_bind sameBeside_trans (lookupLoop_sameBeside fuel S sep fuel node r.2)
      fun r => ?_
    exact respects_bind sameBeside_trans sameBeside_update fun _ =>
      respects_pure sameBeside_refl _

end

/- What a run reports as printed is on the terminal. -/

/-- Behind `pre`, the run writes the rest of what it returns to the terminal. -/
def Tells (pre : List UInt8) (x : Code Driver (List UInt8)) : Prop :=
  ∀ w out t, x w = .ret out t → ∃ new, out = pre ++ new ∧
    t.driver DEV_TTY = shown (w.driver DEV_TTY) new

/-- The state of the drivers stays as it is. -/
def SameDrivers (w t : World Driver) : Prop := t.driver = w.driver

section
variable {α : Type} {pre : List UInt8} {x y : Code Driver (List UInt8)} (S : System Driver)
  (fuel : Nat)

theorem sameDrivers_refl (w : World Driver) : SameDrivers w w := rfl

theorem sameDrivers_trans (w t u : World Driver) (h : SameDrivers w t) (h' : SameDrivers t u) :
    SameDrivers w u := Eq.trans h' h

theorem tells_pure (pre : List UInt8) : Tells pre (pure pre) := by
  intro w out t h
  obtain ⟨rfl, rfl⟩ := Res.ret.inj h
  exact ⟨[], (List.append_nil _).symm, rfl⟩

theorem Tells.bind {k : List UInt8 → Code Driver (List UInt8)} (hx : Tells [] x)
    (hk : ∀ out, Tells (pre ++ out) (k out)) : Tells pre (x >>= k) := by
  intro w out t h
  rw [bind_run] at h
  cases hr : x w with
  | ret a u =>
    rw [hr] at h
    obtain ⟨new, ha, hu⟩ := hx w a u hr
    obtain ⟨rest, hout, ht⟩ := hk a u out t h
    refine ⟨new ++ rest, ?_, ?_⟩
    · rw [hout, ha, List.nil_append, List.append_assoc]
    · rw [ht, hu, shown_append]
  | halt u =>
    rw [hr] at h
    exact absurd h nofun
  | spin u =>
    rw [hr] at h
    exact absurd h nofun

theorem tells_silent {x : Code Driver α} {k : α → Code Driver (List UInt8)}
    (hx : Respects SameDrivers x) (hk : ∀ a, Tells pre (k a)) : Tells pre (x >>= k) := by
  intro w out t h
  have hw := hx w
  rw [bind_run] at h
  cases hr : x w with
  | ret a u =>
    rw [hr] at h hw
    obtain ⟨new, hout, ht⟩ := hk a u out t h
    exact ⟨new, hout, ht.trans (congrArg (fun d => shown (d DEV_TTY) new) hw)⟩
  | halt u =>
    rw [hr] at h
    exact absurd h nofun
  | spin u =>
    rw [hr] at h
    exact absurd h nofun

theorem tells_diverge : Tells pre (diverge : Code Driver (List UInt8)) := fun _ _ _ h =>
  absurd h nofun

theorem tells_ite {c : Prop} [Decidable c] (hx : Tells pre x) (hy : Tells pre y) :
    Tells pre (if c then x else y) := by
  split
  · exact hx
  · exact hy

theorem tells_send (data : List UInt8) : Tells [] (send data) := by
  intro w out t h
  by_cases hopen : (w.devs DEV_TTY).data = 0
  · rw [send, read_bind_run, if_pos hopen] at h
    cases h
  · obtain ⟨u, hrun, -, hu⟩ := send_run hopen data
    obtain ⟨rfl, rfl⟩ := Res.ret.inj (hrun.symm.trans h)
    exact ⟨data, rfl, hu⟩

theorem silent_read {α : Type} (f : World Driver → α) : Respects SameDrivers (read f) :=
  respects_read sameDrivers_refl f

theorem silent_stringAt (a : Nat) : Respects SameDrivers (stringAt fuel a) := by
  refine respects_update sameDrivers_refl fun w data t h => ?_
  obtain ⟨n, -, hn⟩ := Option.map_eq_some_iff.mp h
  exact congrArg World.driver (Prod.mk.inj hn).2.symm

theorem tells_printfStr (a : Nat) (text : String) : Tells [] (printfStr fuel a text) :=
  tells_silent (silent_stringAt fuel a) fun _ => tells_send _

theorem tells_putsLiteral (text : String) : Tells [] (putsLiteral text) :=
  (tells_send _).bind fun line => Tells.bind (tells_send _) fun newline =>
    tells_pure (line ++ newline)

theorem tells_listEntry (x : Nat) : Tells [] (listEntry fuel x) := by
  refine tells_silent (silent_read _) fun bits => ?_
  cases Shell.fileType[bits &&& 0xF]? with
  | none => exact tells_diverge
  | some type => exact tells_silent (silent_stringAt fuel _) fun tmpName =>
      tells_silent (silent_read _) fun sz => tells_send _

theorem silent_finddir (node a : Nat) :
    Respects SameDrivers (fsFinddir fuel S node a) := fun w => by
  obtain ⟨k, hk⟩ := finddir_sameBeside fuel S node a w
  rw [hk]
  rfl

theorem silent_readdir (node i : Nat) : Respects SameDrivers (fsReaddir fuel S node i) := by
  refine respects_bind sameDrivers_trans (silent_read _) fun bits => respects_ite ?_ ?_
  · exact respects_bind sameDrivers_trans (respects_modify fun w => rfl) fun _ =>
      respects_pure sameDrivers_refl 0
  · refine respects_bind sameDrivers_trans (silent_read _) fun hook => ?_
    refine respects_ite (respects_pure sameDrivers_refl 0) (respects_ite ?_
      (respects_diverge sameDrivers_refl))
    refine respects_bind sameDrivers_trans (silent_read _) fun n => ?_
    refine respects_ite (respects_pure sameDrivers_refl 0) ?_
    refine respects_bind sameDrivers_trans
      (respects_update sameDrivers_refl fun w a t h => ?_) fun _ => ?_
    · obtain ⟨r, -, hr⟩ := Option.map_eq_some_iff.mp h
      rw [← (Prod.mk.inj hr).2]
      rfl
    · exact respects_bind sameDrivers_trans (respects_modify fun w => rfl) fun _ =>
        respects_pure sameDrivers_refl _

theorem tells_listFrom (dir rounds i : Nat) : Tells [] (listFrom fuel S dir rounds i) := by
  induction rounds generalizing i with
  | zero => exact tells_diverge
  | succ rounds ih =>
    refine tells_silent (silent_read _) fun n => tells_ite ?_ (tells_pure [])
    refine tells_silent (silent_readdir S fuel dir i) fun ent => ?_
    refine tells_silent (silent_finddir S fuel dir _) fun tmp => ?_
    exact (tells_listEntry fuel tmp).bind fun line => Tells.bind (ih (i + 1)) fun rest =>
      tells_pure (line ++ rest)

theorem tells_listDirectory (dir : Nat) : Tells [] (listDirectory fuel S dir) := by
  refine tells_ite (tells_putsLiteral _) (tells_silent (silent_read _) fun bits => ?_)
  refine tells_ite (tells_printfStr fuel _ _) (tells_silent (silent_read _) fun n => ?_)
  refine tells_silent (silent_stringAt fuel _) fun dirName => ?_
  exact (tells_send _).bind fun head => Tells.bind (tells_listFrom S fuel dir fuel 0) fun lines =>
    tells_pure (head ++ lines)

end

/-- `fs_lookup`, of which the shell keeps the node. -/
def lookupFrom (fuel : Nat) (S : System Driver) (fsRoot sep old path : Nat) : Code Driver Nat := do
  let r ← fsLookup fuel S fsRoot sep path old
  pure r.1

section
variable {S : System Driver} {L : ShellLink} {dir : Listing} {nodes : List Nat}
  {root path sep hf fuel buf : Nat} {info : Nat → Info} {s : List UInt8} {bs : List Kmalloc.Blk}
  {w : World Driver}

theorem resolve_mem {m : Mem} (htree : TreeAt S m dir nodes root) (cs : List (List UInt8))
    {x : Nat} (hx : x = 0 ∨ x ∈ nodes) : resolve dir x cs = 0 ∨ resolve dir x cs ∈ nodes := by
  induction cs generalizing x with
  | nil => exact hx
  | cons c cs ih =>
    by_cases h0 : x = 0
    · rw [h0, resolve_null]
      exact Or.inl rfl
    · rw [resolve_cons dir h0]
      exact ih (child_mem htree (hx.resolve_left h0) c)

/-- A lookup leaves the terminal alone. -/
theorem lookup_opened {old r : Nat} {x : Nat} {t : World Driver}
    (h : fsLookup fuel S root sep path old w = .ret (x, r) t)
    (hopen : (w.devs DEV_TTY).data ≠ 0) :
    (t.devs DEV_TTY).data ≠ 0 ∧ t.driver = w.driver := by
  have hsame := fsLookup_sameBeside fuel S root sep path old w
  rw [h] at hsame
  obtain ⟨k, hk⟩ := hsame
  rw [show t = _ from hk]
  exact ⟨hopen, rfl⟩

theorem lookup_keeps {old r : Nat} {x : Nat} {areas : List (Nat × Nat)} {t : World Driver}
    (h : fsLookup fuel S root sep path old w = .ret (x, r) t)
    (hkeep : ∀ y, ¬ Outside areas y → t.mem y = w.mem y) : Keeps areas w t := by
  have hsame := fsLookup_sameBeside fuel S root sep path old w
  rw [h] at hsame
  obtain ⟨k, hk⟩ := hsame
  refine ⟨hkeep, ?_, ?_⟩ <;> rw [show t = _ from hk]
  exact fun no => rfl

/-- `ls` with a path shows the listing of what the components of the path resolve to. -/
theorem ls_path (h : Ready S hf dir nodes root path sep s bs w)
    (hdesc : Described S w.mem dir nodes info) (happ : DirentApart S nodes)
    (hopen : (w.devs DEV_TTY).data ≠ 0) (hcomp : HasComponent s) (hfuel : s.length + 32 ≤ fuel)
    (hrounds : ∀ x ∈ nodes, ∀ es, dir x = some es → es.length < fuel) (old : Nat)
    (function : Nat → Code Driver (List UInt8)) :
    ∃ l t, RunsFrom s [47] 0 l ∧
      runCommand fuel S L (lookupFrom fuel S root sep old) function root buf (.listPath path) w =
        .ret (lsText dir info (resolve dir root (l.map (text s)))) t ∧
      t.driver DEV_TTY =
        shown (w.driver DEV_TTY) (lsText dir info (resolve dir root (l.map (text s)))) ∧
      TreeAt S t.mem dir nodes root ∧ Described S t.mem dir nodes info := by
  obtain ⟨c, hc, -⟩ := hcomp.2
  have hs : s ≠ [] := List.ne_nil_of_mem hc
  obtain ⟨l, r, t, hl, hlook, hkeep⟩ := (fsLookup_iff h hs hfuel old).mpr hcomp
  have htree := h.treeAt hkeep
  have hdesc' : Described S t.mem dir nodes info := hdesc.congr fun x hx y h1 h2 => by
    refine hkeep y (not_outside.mpr ⟨(x, 76), ?_, h1, h2⟩)
    exact List.mem_cons_of_mem _ (List.mem_cons_of_mem _ (List.mem_map.mpr ⟨x, hx, rfl⟩))
  obtain ⟨hopen', hdriver⟩ := lookup_opened hlook hopen
  have hx := resolve_mem htree (l.map (text s)) (Or.inr htree.rootIn)
  obtain ⟨u, hrun, hu⟩ := listDirectory_run htree hdesc' happ hopen' (by omega) hx
    hrounds
  have hin := hu.inodes happ
  obtain ⟨new, hnew, hshown⟩ := tells_listDirectory S fuel _ t _ u hrun
  refine ⟨l, u, hl, ?_, ?_, htree.congr hin, hdesc'.congr hin⟩
  swap
  · rw [hshown, hdriver, hnew, List.nil_append]
  have hlookup : lookupFrom fuel S root sep old path w =
      .ret (resolve dir root (l.map (text s))) t := (bind_ret hlook).trans rfl
  rw [runCommand, bind_ret hlookup, hrun]

end

/-- A root directory with one file, `a`, that can be listed. -/
def listedTree : Mem := setReaddir smallTree 0x100000 kernelLink.ramfsReaddir

def listedInfo (x : Nat) : Info := if x = 0x100000 then ⟨[], FS_DIR, 0⟩ else ⟨[97], FS_FILE, 0⟩

theorem listedTree_ready : Ready shellKernel 8 smallListing [0x100000, 0x100100] 0x100000 0x200010
    0x200000 [47, 97] [⟨false, 0⟩] (shellBoot listedTree) := by
  have h := smallTree_ready 0x200010 [47, 97] (by decide) (by decide) (by decide)
    (by decide +kernel)
  have hkept : ∀ y, y < 0x100040 ∨ 0x100044 ≤ y → listedTree y = smallTree y := fun y hy =>
    store32_outside _ _ _ _ (by omega)
  have houtside : ∀ y, Outside (lookupAreas [0x100000, 0x100100] 0x200010 0x200000 [47, 97]) y →
      listedTree y = smallTree y := fun y hy => hkept y (by
    have hroot := hy (0x100000, 76) (by simp [lookupAreas])
    omega)
  have hblocks := h.blocks.outside h.held houtside
  refine ⟨rfl, hblocks, h.held, h.above, ⟨by decide, Or.inr fun e he => ?_⟩, h.fuel,
    h.tree.relink rfl fun x hx y h1 h2 h3 => hkept y ?_, ?_, ?_⟩
  · have hend : Kmalloc.chainEnd 1 listedTree Kmalloc.root = some 0x400010 := by decide +kernel
    rw [Kmalloc.EndsAt.eq_of_chainEnd hend he]
    decide
  · simp only [List.mem_cons, List.not_mem_nil, or_false] at hx
    omega
  · decide +kernel
  · decide +kernel

theorem listedTree_described :
    Described shellKernel listedTree smallListing [0x100000, 0x100100] listedInfo := by
  have hroot : smallListing 0x100000 = some [([97], 0x100100)] := rfl
  have hfile : smallListing 0x100100 = none := rfl
  refine ⟨by decide +kernel, by decide, by decide +kernel, by decide +kernel, by decide,
    fun x hx => ?_, fun x hx es hes => ?_⟩
  · simp only [List.mem_cons, List.not_mem_nil, or_false] at hx
    cases hx with
    | inl heq =>
      subst heq
      exact iff_of_true (by decide) ⟨_, hroot⟩
    | inr heq =>
      subst heq
      exact iff_of_false (by decide) (by simp [hfile])
  · simp only [List.mem_cons, List.not_mem_nil, or_false] at hx
    cases hx with
    | inl heq =>
      subst heq
      decide +kernel
    | inr heq =>
      subst heq
      exact absurd (hfile.symm.trans hes) (by simp)

theorem ls_path_file : ∃ l t, RunsFrom [47, 97] [47] 0 l ∧
    runCommand 40 shellKernel shellLink (lookupFrom 40 shellKernel 0x100000 0x200000 0)
      (fun _ => pure []) 0x100000 0x300000 (.listPath 0x200010) (shellBoot listedTree) =
      .ret (lsText smallListing listedInfo
        (resolve smallListing 0x100000 (l.map (text [47, 97])))) t ∧
    t.driver DEV_TTY = shown ((shellBoot listedTree).driver DEV_TTY) (lsText smallListing listedInfo
      (resolve smallListing 0x100000 (l.map (text [47, 97])))) := by
  have hone : ∀ x ∈ [0x100000, 0x100100], ∀ es, smallListing x = some es → es.length < 40 := by
    intro x _ es hes
    unfold smallListing at hes
    split at hes
    · rw [← Option.some.inj hes]
      decide
    · exact absurd hes (by simp)
  have hfuel : [(47 : UInt8), 97].length + 32 ≤ 40 := by decide
  obtain ⟨l, t, hl, hrun, hshown, -, -⟩ := @ls_path shellKernel shellLink _ _ _ _ _ _ _ 0x300000
    _ _ _ _ listedTree_ready listedTree_described (by decide) (by decide) (by decide) hfuel hone 0
    fun _ => pure []
  exact ⟨l, t, hl, hrun, hshown⟩

end Foos.Dispatch
