import Mathlib.Data.List.Nodup
import Foos.RootDirectory

/-! Mounting undoes the layout of the image: directory listing, lookup by name and reading a
whole file, after `ramfs_init` and after any calls and writes of clients. -/
namespace Foos.Fs
open Program ByteMemory Word32 CString Libc Kmalloc Transition Occurrence

variable {δ : Type}

/-- A file of a ramdisk: the offset counts from the end of the header table. -/
structure File where
  name : List UInt8
  offset : Nat
  content : List UInt8
  nonempty : 1 ≤ name.length
  short : name.length ≤ 31
  chars : ∀ c ∈ name, c ≠ 0
  notDev : name ≠ devName

/-- What the header of a file says. -/
def File.header (f : File) : Header where
  name := f.name
  offset := f.offset
  size := f.content.length
  short := f.short
  chars := f.chars

/-- The header at `file` describes `f`, of whose content the bytes stand at `data`. -/
structure Describes (m : Mem) (file data : Nat) (f : File) : Prop where
  magic : fileMagic m file = RD_FILESIG
  name : ∀ t, t < 32 → m (fileName file + t) = f.name.getD t 0
  offset : fileOffset m file = f.offset
  size : fileSize m file = f.content.length
  content : ∀ t (h : t < f.content.length), m (data + t) = f.content[t]

/-- The `N` bytes at `img` are the image of the files. -/
structure LaidOut (m : Mem) (img N : Nat) (files : List File) : Prop where
  signature : signature m img = RD_HEADSIG
  count : nfiles m img = files.length
  file : ∀ i f, files[i]? = some f → Describes m (fileheader (img + headerSize) i)
    (img + fileBase files.length + f.offset) f
  table : fileBase files.length ≤ N
  extent : ∀ f ∈ files, fileBase files.length + f.offset + f.content.length ≤ N
  sizes : ∀ f ∈ files, f.content.length < 2147483648
  noWrap : img + N ≤ 4294967296

/-- The names in the root directory, in order. -/
def names (files : List File) : List (List UInt8) := files.map File.name ++ [devName]

theorem Describes.str {m : Mem} {file data : Nat} {f : File} (h : Describes m file data f) :
    Str m (fileName file) f.name := by
  have hshort := f.short
  exact .of_getD f.chars fun t ht => h.name t (by omega)

theorem names_eq (files : List File) : names files = rootNames (files.map File.header) := by
  rw [names, rootNames, List.map_map]
  rfl

theorem names_length (files : List File) : (names files).length = files.length + 1 := by
  rw [names_eq, rootNames_length, List.length_map]

/-- An entry of the root directory is a file or, behind the files, the directory of devices. -/
theorem names_cases {files : List File} {i : Nat} {s : List UInt8}
    (h : (names files)[i]? = some s) :
    (∃ f, files[i]? = some f ∧ s = f.name) ∨ i = files.length ∧ s = devName := by
  rw [names_eq] at h
  cases rootNames_cases h with
  | inl hfile =>
    obtain ⟨g, hg, rfl⟩ := hfile
    rw [List.getElem?_map] at hg
    obtain ⟨f, hf, rfl⟩ := Option.map_eq_some_iff.mp hg
    exact Or.inl ⟨f, hf, rfl⟩
  | inr hdev => exact Or.inr ⟨hdev.1.trans (List.length_map _), hdev.2⟩

theorem names_short {files : List File} {s : List UInt8} (h : s ∈ names files) :
    s.length ≤ 31 := by
  cases List.mem_append.mp h with
  | inl h =>
    obtain ⟨f, -, rfl⟩ := List.mem_map.mp h
    exact f.short
  | inr h =>
    rw [List.mem_singleton.mp h]
    decide

theorem names_nodup {files : List File} (h : (files.map File.name).Nodup) :
    (names files).Nodup := by
  refine List.nodup_append.mpr ⟨h, by simp, fun s hs t ht => ?_⟩
  obtain ⟨f, -, rfl⟩ := List.mem_map.mp hs
  rw [List.mem_singleton.mp ht]
  exact f.notDev

/-- The files are mounted at `root`, their inodes at `p`, and the ramdisk is open on their
image. -/
structure Mounted (S : System δ) (files : List File) (root p rd img : Nat) (w : World δ) :
    Prop where
  dev : S.devs[DEV_RAMDISK]? = some (ramdisk S.heap)
  data : (w.devs DEV_RAMDISK).data = rd
  opened : rd ≠ 0
  addr : rdAddr w.mem rd = img
  base : w.fileBase = fileBase files.length
  filesPos : p ≠ 0
  rootDir : RootDir S w.mem root p
  rootImpl : impl w.mem root = files.length + 1
  name : ∀ i s, (names files)[i]? = some s → Str w.mem (name (entry p i)) s
  impl : ∀ i f, files[i]? = some f → impl w.mem (entry p i) = f.offset
  size : ∀ i f, files[i]? = some f → size w.mem (entry p i) = f.content.length
  readPtr : ∀ i f, files[i]? = some f → readPtr w.mem (entry p i) = S.link.ramfsRead
  content : ∀ f ∈ files, ∀ t (h : t < f.content.length),
    w.mem (img + fileBase files.length + f.offset + t) = f.content[t]

section
variable {S : System δ} {files : List File} {root p rd img N : Nat} {w w' : World δ}

theorem Mounted.congr (h : Mounted S files root p rd img w)
    (hfit : ∀ f ∈ files, fileBase files.length + f.offset + f.content.length ≤ N)
    (hm : ∀ y, ¬ Outside (heldBy root p files.length rd img N) y → w'.mem y = w.mem y)
    (hdata : (w'.devs DEV_RAMDISK).data = (w.devs DEV_RAMDISK).data)
    (hbase : w'.fileBase = w.fileBase) : Mounted S files root p rd img w' := by
  have hroot : ∀ y, root ≤ y → y < root + 76 → w'.mem y = w.mem y :=
    fun y => held_area hm (r := (root, 76)) (by simp [heldBy])
  have hent : ∀ i, i < files.length + 1 → ∀ y, entry p i ≤ y → y < entry p i + 76 →
      w'.mem y = w.mem y := fun i hi y => held_entry hm hi
  have hload : ∀ i f, files[i]? = some f → ∀ k, k + 4 ≤ 76 →
      load32 w'.mem (entry p i + k) = load32 w.mem (entry p i + k) := by
    intro i f hf k hk
    have hi : i < files.length := (List.getElem?_eq_some_iff.mp hf).1
    exact load32_congr fun y h1 h2 => hent i (by omega) y (by omega) (by omega)
  refine ⟨h.dev, hdata.trans h.data, h.opened, ?_, hbase.trans h.base, h.filesPos,
    h.rootDir.congr fun y h1 h2 _ => hroot y h1 h2, ?_, fun i s hs => ?_, fun i f hf => ?_,
    fun i f hf => ?_, fun i f hf => ?_, fun f hf t ht => ?_⟩
  · refine Eq.trans (load32_congr fun y h1 h2 => ?_) h.addr
    have hrd : (rd, 8) ∈ heldBy root p files.length rd img N := by simp [heldBy]
    exact held_area hm hrd h1 (Nat.lt_trans h2 (by omega))
  · exact Eq.trans (load32_congr fun y h1 h2 => hroot y (by omega) (by omega)) h.rootImpl
  · have hi : i < files.length + 1 := names_length files ▸ (List.getElem?_eq_some_iff.mp hs).1
    have hshort := names_short (List.mem_of_getElem? hs)
    refine (h.name i s hs).congr fun y h1 h2 => hent i hi y h1 ?_
    simp only [Fs.name] at h2
    omega
  · exact (hload i f hf 44 (by omega)).trans (h.impl i f hf)
  · exact (hload i f hf 36 (by omega)).trans (h.size i f hf)
  · exact (hload i f hf 60 (by omega)).trans (h.readPtr i f hf)
  · have hlen := hfit f hf
    have himg : (img, N) ∈ heldBy root p files.length rd img N := by simp [heldBy]
    rw [held_area hm himg (by omega) (by omega)]
    exact h.content f hf t ht

theorem Mounted.fsReaddir (h : Mounted S files root p rd img w) (fuel i : Nat) :
    fsReaddir fuel S root i w = ramfsReaddir fuel S root i w := by
  have hne : S.link.ramfsReaddir ≠ 0 := Nat.ne_of_gt (S.link.code _ (by simp)).1
  have hdir : ¬ (FS_DIR &&& (if 0x7 ≠ FS_DIR then 1 else 0) ≠ 0) := fun h => h root_dir_flags
  simp only [Fs.fsReaddir, checkDir, ofMem_bind_run, h.rootDir.flags]
  rw [if_neg hdir]
  simp only [ofMem_bind_run, h.rootDir.readdirPtr, if_neg hne, if_true]

theorem Mounted.entries (h : Mounted S files root p rd img w) :
    Entries S (names files) root p w.mem :=
  ⟨h.rootDir, h.rootImpl.trans (names_length files).symm, h.name, fun _ => names_short⟩

/-- The state after a directory entry is read out. -/
def direntWorld (S : System δ) (w : World δ) (i : Nat) (s : List UInt8) : World δ :=
  w.setMem (setDirentIno (putString w.mem S.link.dirent s) S.link.dirent i)

/-- Only the buffer of the directory entry changes. -/
theorem direntWorld_frame (S : System δ) (w : World δ) (i : Nat) {s : List UInt8}
    (hs : s.length ≤ 31) : Frame [(S.link.dirent, direntSize)] w.mem (direntWorld S w i s).mem := by
  have h := (Frame.refl [(S.link.dirent, direntSize)] w.mem).putString (s := s)
    (Nat.le_refl S.link.dirent) (by simp only [direntSize]; omega)
  exact h.store32 (v := i) (Nat.le_add_right S.link.dirent 32)
    (by simp only [direntSize]; omega)

theorem Mounted.readdir (h : Mounted S files root p rd img w) {fuel i : Nat} {s : List UInt8}
    (hfuel : 32 ≤ fuel) (hs : (names files)[i]? = some s)
    (happ : Apart [(p, (files.length + 1) * 76)] S.link.dirent direntSize) :
    Fs.fsReaddir fuel S root i w = .ret S.link.dirent (direntWorld S w i s) := by
  have hi : i < files.length + 1 := names_length files ▸ (List.getElem?_eq_some_iff.mp hs).1
  have hshort := names_short (List.mem_of_getElem? hs)
  have hcopy : strcpy fuel w.mem (direntName S.link.dirent) (Fs.name (entry p i)) =
      some (S.link.dirent, putString w.mem S.link.dirent s) := by
    refine strcpy_run (h.name i s hs) (by omega) ?_
    simp only [direntSize, apart_cons, apart_nil, and_true] at happ
    simp only [direntName, Fs.name, entry]
    omega
  rw [h.fsReaddir]
  simp only [ramfsReaddir, ofMem_bind_run, h.rootImpl]
  rw [if_neg (by omega)]
  refine (bind_ret (update_run (a := ()) (t := w.setMem (putString w.mem S.link.dirent s)) ?_)).trans rfl
  rw [h.rootDir.ptr, hcopy]
  rfl

theorem Mounted.readdir_end (h : Mounted S files root p rd img w) {i : Nat} (fuel : Nat)
    (hi : (names files).length ≤ i) : Fs.fsReaddir fuel S root i w = .ret 0 w := by
  rw [names_length] at hi
  rw [h.fsReaddir]
  simp only [ramfsReaddir, ofMem_bind_run, h.rootImpl, if_pos hi]
  rfl

theorem direntWorld_str {i : Nat} {s : List UInt8} (hs : s ∈ names files)
    (hchars : ∀ c ∈ s, c ≠ 0) :
    Str (direntWorld S w i s).mem (direntName S.link.dirent) s := by
  have hshort := names_short hs
  refine (putString_str (m := w.mem) (a := S.link.dirent) hchars).congr fun y h1 h2 => ?_
  exact store32_outside _ _ _ _ (by omega)

theorem Mounted.finddir (h : Mounted S files root p rd img w) {fuel a j : Nat} {s : List UInt8}
    (hfuel : 32 ≤ fuel) (hnodup : (names files).Nodup) (hs : Str w.mem a s)
    (hj : (names files)[j]? = some s) : Fs.fsFinddir fuel S root a w = .ret (entry p j) w := by
  obtain ⟨hlt, hget⟩ := List.getElem?_eq_some_iff.mp hj
  have hfirst : FirstBelow (fun k => (names files)[k]? = some s) (names files).length (some j) := by
    refine ⟨hlt, hj, fun k hk heq => ?_⟩
    obtain ⟨hk', hkget⟩ := List.getElem?_eq_some_iff.mp heq
    have hkj := (List.Nodup.getElem_inj_iff hnodup).mp (hkget.trans hget.symm)
    omega
  exact h.entries.finddir hfuel hs hfirst

theorem Mounted.finddir_none (h : Mounted S files root p rd img w) {fuel a : Nat}
    {s : List UInt8} (hfuel : 32 ≤ fuel) (hs : Str w.mem a s) (hmiss : s ∉ names files) :
    Fs.fsFinddir fuel S root a w = .ret 0 w := by
  have hnone : FirstBelow (fun k => (names files)[k]? = some s) (names files).length none :=
    fun k _ heq => hmiss (List.mem_of_getElem? heq)
  exact h.entries.finddir hfuel hs hnone

/-- The seek and the copy of a read. -/
theorem Mounted.read_run (h : Mounted S files root p rd img w) {i : Nat} {f : File}
    (hf : files[i]? = some f) (buf sz off : Nat) :
    ∃ t, fsRead S (entry p i) buf sz off w = .ret (toInt sz) t ∧
      t.mem = memcpy w.mem (add32 buf off)
        (add32 img (add32 (fileBase files.length) f.offset)) f.content.length ∧
      (t.devs DEV_RAMDISK).data = (w.devs DEV_RAMDISK).data ∧ t.fileBase = w.fileBase := by
  let pos := add32 (fileBase files.length) f.offset
  let w₁ := w.setOffset DEV_RAMDISK pos
  have hdata₁ : (w₁.devs DEV_RAMDISK).data = rd := (w.setOffset_data _ _ _).trans h.data
  have hoff₁ : (w₁.devs DEV_RAMDISK).offset = pos := w.setOffset_same _ _
  let w₂ := w₁.setMem (memcpy w.mem (add32 buf off) (add32 img pos) f.content.length)
  have hhook : ramdiskRead DEV_RAMDISK (add32 buf off) pos f.content.length w₁ =
      .ret f.content.length w₂ := by
    rw [ramdiskRead_run (hdata₁ ▸ h.opened), hdata₁, show rdAddr w₁.mem rd = img from h.addr]
    rfl
  have hread : ∃ t, devRead S.devs DEV_RAMDISK (add32 buf off) f.content.length w₁ =
      .ret f.content.length t ∧ t.mem = w₂.mem ∧
        (t.devs DEV_RAMDISK).data = (w.devs DEV_RAMDISK).data ∧ t.fileBase = w.fileBase := by
    simp only [devRead, h.dev, ramdisk, read_bind_run, hoff₁]
    refine ⟨_, (bind_ret hhook).trans rfl, ?_, ?_, ?_⟩
    all_goals split <;> rfl
  obtain ⟨t, hrun, hmem, hdata, hbase⟩ := hread
  refine ⟨t, ?_, hmem, hdata, hbase⟩
  rw [fsRead_file (h.readPtr i f hf) h.dev, h.base, h.impl i f hf, h.size i f hf]
  exact (bind_ret hrun).trans rfl

/-- A file read as a whole: its content is in the buffer, nothing else changes. -/
theorem Mounted.read_whole (h : Mounted S files root p rd img w) {i buf : Nat} {f : File}
    (hf : files[i]? = some f) (hsize : f.content.length < 2147483648)
    (hfit : fileBase files.length + f.offset + f.content.length ≤ N)
    (hwrap : img + N ≤ 4294967296) (hbuf : buf + f.content.length ≤ 4294967296)
    (happ : Apart [(img, N)] buf f.content.length) :
    ∃ t, fsRead S (entry p i) buf f.content.length 0 w = .ret f.content.length t ∧
      (∀ k (hk : k < f.content.length), t.mem (buf + k) = f.content[k]) ∧
      Frame [(buf, f.content.length)] w.mem t.mem := by
  obtain ⟨t, hrun, hmem, -, -⟩ := h.read_run hf buf f.content.length 0
  have hint : toInt f.content.length = f.content.length := if_pos hsize
  rw [hint] at hrun
  refine ⟨t, hrun, fun k hk => ?_, fun y hy => ?_⟩
  · have hdest : add32 buf 0 = buf := add32_of_lt (by omega)
    have hbase : add32 (fileBase files.length) f.offset = fileBase files.length + f.offset :=
      add32_of_lt (by omega)
    have hsrc : add32 img (fileBase files.length + f.offset) =
        img + fileBase files.length + f.offset :=
      (add32_of_lt (by omega)).trans (Nat.add_assoc ..).symm
    simp only [apart_cons, apart_nil, and_true] at happ
    rw [hmem, hdest, hbase, hsrc, memcpy_copied (by omega) hk]
    exact h.content f (List.mem_of_getElem? hf) k hk
  · cases Nat.eq_zero_or_pos f.content.length with
    | inl h0 =>
      rw [hmem, h0]
      rfl
    | inr hpos =>
      have hdest : add32 buf 0 = buf := add32_of_lt (by omega)
      rw [hmem, hdest]
      exact memcpy_frame _ _ _ _ y hy

/-- What a client does: calls on the root directory and its files, with buffers of its own,
and writes to memory that it may write to. -/
inductive ClientStep (fuel : Nat) (S : System δ) (files : List File) (root p : Nat)
    (held : List (Nat × Nat)) : World δ → Unit → World δ → Prop
  | readdir {w t : World δ} {i d : Nat} (h : fsReaddir fuel S root i w = .ret d t) :
      ClientStep fuel S files root p held w () t
  | finddir {w t : World δ} {a node : Nat} (h : fsFinddir fuel S root a w = .ret node t) :
      ClientStep fuel S files root p held w () t
  | read {w t : World δ} {i buf sz off : Nat} {f : File} {ret : Int} (hf : files[i]? = some f)
      (happ : Apart held (add32 buf off) f.content.length)
      (h : fsRead S (entry p i) buf sz off w = .ret ret t) :
      ClientStep fuel S files root p held w () t
  | write {w : World δ} {m : Mem} (h : ∀ y, ¬ Outside held y → m y = w.mem y) :
      ClientStep fuel S files root p held w () (w.setMem m)

theorem finddirFrom_same (fuel node a i n : Nat) :
    Respects Eq (finddirFrom fuel node a i n : Code δ Nat) := by
  induction n generalizing i with
  | zero => exact respects_pure (fun _ => rfl) 0
  | succ n ih =>
    refine respects_bind (R := Eq) (fun _ _ _ => Eq.trans)
      (respects_update (fun _ => rfl) ?_) fun ret => ?_
    · intro s ret t hst
      obtain ⟨r, -, hr⟩ := Option.map_eq_some_iff.mp hst
      exact (Prod.mk.inj hr).2
    · exact respects_ite (respects_read (fun _ => rfl) _) (ih (i + 1))

/-- A client leaves the files mounted. -/
theorem Mounted.client {fuel : Nat} (hfuel : 32 ≤ fuel)
    (hfit : ∀ f ∈ files, fileBase files.length + f.offset + f.content.length ≤ N)
    (hsep : Apart (heldBy root p files.length rd img N) S.link.dirent direntSize)
    (h : Mounted S files root p rd img w)
    (hstep : ClientStep fuel S files root p (heldBy root p files.length rd img N) w () w') :
    Mounted S files root p rd img w' := by
  cases hstep with
  | @readdir _ i d hrun =>
    cases Nat.lt_or_ge i (names files).length with
    | inl hi =>
      have hget : (names files)[i]? = some (names files)[i] := List.getElem?_eq_getElem hi
      have hent : Apart [(p, (files.length + 1) * 76)] S.link.dirent direntSize := by
        intro r hr
        exact hsep r (List.mem_singleton.mp hr ▸ by simp [heldBy])
      obtain ⟨-, rfl⟩ := Res.ret.inj ((h.readdir hfuel hget hent).symm.trans hrun)
      refine h.congr hfit (fun y hy => ?_) rfl rfl
      refine direntWorld_frame S w i (names_short (List.mem_of_getElem? hget)) y ?_
      obtain ⟨r, hr, h1, h2⟩ := not_outside.mp hy
      have := hsep r hr
      rw [outside_single]
      omega
    | inr hi =>
      obtain ⟨-, rfl⟩ := Res.ret.inj ((h.readdir_end fuel hi).symm.trans hrun)
      exact h
  | @finddir _ a node hrun =>
    have hsame := finddirFrom_same fuel root a 0 (Fs.impl w.mem root) w
    rw [h.entries.fsFinddir] at hrun
    simp only [ramfsFinddir, ofMem_bind_run] at hrun
    rw [hrun] at hsame
    obtain rfl : w = w' := hsame
    exact h
  | @read _ i buf sz off f ret hf happ hrun =>
    obtain ⟨t, hrun', hmem, hdata, hbase⟩ := h.read_run hf buf sz off
    obtain ⟨-, rfl⟩ := Res.ret.inj (hrun'.symm.trans hrun)
    refine h.congr hfit (fun y hy => ?_) hdata hbase
    rw [hmem]
    refine memcpy_frame _ _ _ _ y ?_
    obtain ⟨r, hr, h1, h2⟩ := not_outside.mp hy
    have := happ r hr
    rw [outside_single]
    omega
  | write hm => exact h.congr hfit hm rfl rfl

theorem Mounted.clients {fuel : Nat} (hfuel : 32 ≤ fuel)
    (hfit : ∀ f ∈ files, fileBase files.length + f.offset + f.content.length ≤ N)
    (hsep : Apart (heldBy root p files.length rd img N) S.link.dirent direntSize)
    (h : Mounted S files root p rd img w) {tr : List (World δ × Unit × World δ)}
    (hrun : Run (ClientStep fuel S files root p (heldBy root p files.length rd img N)) w tr w') :
    Mounted S files root p rd img w' :=
  hrun.invariant (Q := fun _ _ => True)
    (fun _ _ _ hs _ hstep => hs.client hfuel hfit hsep hstep) h fun _ _ => trivial

/-- The files as clients see them: listed in order behind each other, found by name with their
size, and read as they are. -/
structure FilesServed (fuel : Nat) (S : System δ) (files : List File) (root p img N : Nat)
    (w : World δ) : Prop where
  readdir : ∀ i s, (names files)[i]? = some s → ∃ t,
    fsReaddir fuel S root i w = .ret S.link.dirent t ∧ Str t.mem (direntName S.link.dirent) s
  readdirEnd : ∀ i, (names files).length ≤ i → fsReaddir fuel S root i w = .ret 0 w
  inode : ∀ i, entry p i ≠ 0
  finddir : ∀ i s a, (names files)[i]? = some s → Str w.mem a s →
    fsFinddir fuel S root a w = .ret (entry p i) w
  finddirNone : ∀ s a, s ∉ names files → Str w.mem a s → fsFinddir fuel S root a w = .ret 0 w
  size : ∀ i f, files[i]? = some f → size w.mem (entry p i) = f.content.length
  read : ∀ i f buf, files[i]? = some f → buf + f.content.length ≤ 4294967296 →
    Apart [(img, N)] buf f.content.length → ∃ t,
      fsRead S (entry p i) buf f.content.length 0 w = .ret f.content.length t ∧
      (∀ k (hk : k < f.content.length), t.mem (buf + k) = f.content[k]) ∧
      Frame [(buf, f.content.length)] w.mem t.mem

theorem names_chars {s : List UInt8} (h : s ∈ names files) : ∀ c ∈ s, c ≠ 0 := by
  cases List.mem_append.mp h with
  | inl h =>
    obtain ⟨f, -, rfl⟩ := List.mem_map.mp h
    exact f.chars
  | inr h =>
    rw [List.mem_singleton.mp h]
    exact chars_of_all (by decide)

theorem Mounted.served (h : Mounted S files root p rd img w) {fuel : Nat} (hfuel : 32 ≤ fuel)
    {m : Mem} (hlaid : LaidOut m img N files) (hnames : (files.map File.name).Nodup)
    (hsep : Apart (heldBy root p files.length rd img N) S.link.dirent direntSize) :
    FilesServed fuel S files root p img N w := by
  have hent : Apart [(p, (files.length + 1) * 76)] S.link.dirent direntSize := by
    intro r hr
    exact hsep r (List.mem_singleton.mp hr ▸ by simp [heldBy])
  refine ⟨fun i s hs => ?_, fun i hi => h.readdir_end fuel hi, fun i => ?_, fun i s a hs ha => ?_,
    fun s a hs ha => h.finddir_none hfuel ha hs, h.size, fun i f buf hf hbuf happ => ?_⟩
  · exact ⟨_, h.readdir hfuel hs hent, direntWorld_str (List.mem_of_getElem? hs)
      (names_chars (List.mem_of_getElem? hs))⟩
  · have := h.filesPos
    simp only [entry]
    omega
  · exact h.finddir hfuel (names_nodup hnames) ha hs
  · have hmem := List.mem_of_getElem? hf
    exact h.read_whole hf (hlaid.sizes f hmem) (hlaid.extent f hmem) hlaid.noWrap hbuf happ

theorem Describes.congr {m m' : Mem} {file data : Nat} {f : File} (h : Describes m file data f)
    (hfile : ∀ y, file ≤ y → y < file + 44 → m' y = m y)
    (hdata : ∀ y, data ≤ y → y < data + f.content.length → m' y = m y) :
    Describes m' file data f := by
  have hload : ∀ k, k + 4 ≤ 44 → load32 m' (file + k) = load32 m (file + k) := fun k hk =>
    load32_congr fun y h1 h2 => hfile y (by omega) (by omega)
  refine ⟨?_, fun t ht => ?_, ?_, ?_, fun t ht => ?_⟩
  · exact (load32_congr fun y h1 h2 => hfile y h1 (by omega)).trans h.magic
  · rw [← h.name t ht]
    exact hfile _ (by simp only [fileName]; omega) (by simp only [fileName]; omega)
  · exact (hload 36 (by omega)).trans h.offset
  · exact (hload 40 (by omega)).trans h.size
  · rw [← h.content t ht]
    exact hdata _ (Nat.le_add_right _ _) (by omega)

/-- An image is read from its bytes alone. -/
theorem LaidOut.congr {m m' : Mem} (h : LaidOut m img N files)
    (hm : ∀ y, img ≤ y → y < img + N → m' y = m y) : LaidOut m' img N files := by
  have htable := h.table
  simp only [fileBase] at htable
  have h16 : ∀ k, k + 2 ≤ 4 → load16 m' (img + k) = load16 m (img + k) := fun k hk => by
    rw [load16, load16, hm (img + k) (by omega) (by omega), hm (img + k + 1) (by omega) (by omega)]
  refine ⟨(h16 0 (by omega)).trans h.signature, (h16 2 (by omega)).trans h.count,
    fun i f hf => ?_, h.table, h.extent, h.sizes, h.noWrap⟩
  have hi : i < files.length := (List.getElem?_eq_some_iff.mp hf).1
  have hext := h.extent f (List.mem_of_getElem? hf)
  refine (h.file i f hf).congr (fun y h1 h2 => ?_) fun y h1 h2 => hm y (by omega) (by omega)
  simp only [fileheader, headerSize] at h1 h2
  exact hm y (by omega) (by omega)

theorem LaidOut.tabled {m : Mem} (h : LaidOut m img N files) :
    Tabled m img N (files.map File.header) := by
  have hlen : (files.map File.header).length = files.length := List.length_map _
  refine ⟨h.signature, h.count.trans hlen.symm, fun i g hg => ?_, hlen.symm ▸ h.table⟩
  rw [List.getElem?_map] at hg
  obtain ⟨f, hf, rfl⟩ := Option.map_eq_some_iff.mp hg
  have hd := h.file i f hf
  exact ⟨hd.magic, hd.str, hd.offset, hd.size⟩

/-- The root directory with the content of its files. -/
theorem Rooted.mounted (h : Rooted S (files.map File.header) root p rd img w)
    (hdev : S.devs[DEV_RAMDISK]? = some (ramdisk S.heap)) (himage : LaidOut w.mem img N files) :
    Mounted S files root p rd img w := by
  have hlen : (files.map File.header).length = files.length := List.length_map _
  have hfile : ∀ i f, files[i]? = some f → FileEntry S w.mem (entry p i) f.header :=
    fun i f hf => h.file i _ (by rw [List.getElem?_map, hf]; rfl)
  refine ⟨hdev, h.data, h.opened, h.addr, hlen ▸ h.base, h.filesPos, h.rootDir,
    hlen ▸ h.rootImpl, fun i s hs => ?_, fun i f hf => (hfile i f hf).impl,
    fun i f hf => (hfile i f hf).size, fun i f hf => (hfile i f hf).readPtr, fun f hf => ?_⟩
  · rcases names_cases hs with ⟨f, hf, rfl⟩ | ⟨rfl, rfl⟩
    · exact (hfile i f hf).name
    · exact hlen ▸ h.lastName
  · obtain ⟨i, hi⟩ := List.getElem?_of_mem hf
    exact (himage.file i f hi).content

/-- `ramfs_init` mounts the files of its image. -/
theorem LaidOut.mounted {fill : Mem → Nat → Nat → Prop} {fuel : Nat} (hfuel : 32 ≤ fuel)
    (h : LaidOut w.mem img N files) (hpres : Presented S w img)
    (hrd : (w.devs DEV_RAMDISK).data = rd) (hdis : AllApart (mountAreas S rd img N))
    (hsup : Supplies fill S.heap.kmalloca (mountRequests S files.length) w.k
      (mountAreas S rd img N)) :
    ∃ root p t, ramfsInit fuel S w = .ret root t ∧ root ≠ 0 ∧
      Mounted S files root p rd img t ∧
      Apart (heldBy root p files.length rd img N) S.link.dirent direntSize := by
  have hlen : (files.map File.header).length = files.length := List.length_map _
  obtain ⟨root, p, t, hrun, hroot, hrooted, hrootApart, hfilesApart, -, hkept⟩ :=
    h.tabled.rooted hfuel hpres hrd hdis (fun _ hr => hr) (hlen.symm ▸ hsup)
  obtain ⟨hrdApart, hdis'⟩ := List.pairwise_cons.mp hdis
  obtain ⟨hslot, hdis''⟩ := List.pairwise_cons.mp hdis'
  have hslotImg := hslot (img, N) (by simp)
  have himg : ∀ y, img ≤ y → y < img + N → t.mem y = w.mem y := fun y h1 h2 =>
    hkept y (not_outside.mpr ⟨(img, N), by simp [mountAreas], h1, h2⟩)
      (outside_single.mpr (by omega))
  refine ⟨root, p, t, hrun, hroot, hrooted.mounted hpres.dev (h.congr himg), ?_⟩
  have hrdDirent := hrdApart (S.link.dirent, direntSize) (by simp)
  have hdirentImg := (List.pairwise_cons.mp hdis'').1 (img, N) (by simp)
  have hdirent : (S.link.dirent, direntSize) ∈ mountAreas S rd img N := by simp [mountAreas]
  have hr := hrootApart _ hdirent
  have hp := hfilesApart _ hdirent
  rw [hlen] at hp
  simp only [ramdiskSize] at hrdDirent
  simp only [heldBy, apart_cons, apart_nil, and_true]
  omega

end

/-- After `ramfs_init` on an image, and after whatever clients do then, the root directory
lists, finds and reads exactly the files of the image. -/
theorem ramfsInit_serves {S : System δ} {fill : Mem → Nat → Nat → Prop} {files : List File}
    {img N fuel : Nat} {w : World δ} (hlaid : LaidOut w.mem img N files)
    (hnames : (files.map File.name).Nodup) (hpres : Presented S w img)
    (hdis : AllApart (mountAreas S (w.devs DEV_RAMDISK).data img N))
    (hsup : Supplies fill S.heap.kmalloca (mountRequests S files.length) w.k
      (mountAreas S (w.devs DEV_RAMDISK).data img N)) (hfuel : 32 ≤ fuel) :
    ∃ root p w₁, ramfsInit fuel S w = .ret root w₁ ∧ root ≠ 0 ∧
      ∀ tr w₂, Run (ClientStep fuel S files root p
          (heldBy root p files.length (w.devs DEV_RAMDISK).data img N)) w₁ tr w₂ →
        FilesServed fuel S files root p img N w₂ := by
  obtain ⟨root, p, w₁, hrun, hroot, hmounted, hsep⟩ := hlaid.mounted hfuel hpres rfl hdis hsup
  exact ⟨root, p, w₁, hrun, hroot, fun tr w₂ htr =>
    (hmounted.clients hfuel hlaid.extent hsep htr).served hfuel hlaid hnames hsep⟩

/-- Two files: `a` with `hi`, and `b`, empty. -/
def twoFiles : List File :=
  [⟨[97], 0, [104, 105], by decide, by decide, chars_of_all (by decide), by decide⟩,
    ⟨[98], 2, [], by decide, by decide, chars_of_all (by decide), by decide⟩]

/-- Memory with the image of these files at `0x200000`. -/
def twoFilesDisk : Mem :=
  let m : Mem := ⟨fun _ => 0⟩
  let m := store32 m 0x100000 0x200000
  let m := store32 m 0x200000 0x0002D158
  let m := store32 m 0x200004 0xDEADF11E
  let m := store8 m 0x200008 97
  let m := store32 m 0x20002C 2
  let m := store32 m 0x200030 0xDEADF11E
  let m := store8 m 0x200034 98
  let m := store32 m 0x200054 2
  let m := store8 m 0x20005C 104
  store8 m 0x20005D 105

theorem twoFiles_laidOut : LaidOut twoFilesDisk 0x200000 94 twoFiles := by
  refine ⟨by decide +kernel, by decide +kernel, fun i f hf => ?_, by decide, by decide, by decide,
    by decide⟩
  match i, hf with
  | 0, hf =>
    obtain rfl := Option.some.inj hf
    exact ⟨by decide +kernel, by decide +kernel, by decide +kernel, by decide +kernel,
      by decide +kernel⟩
  | 1, hf =>
    obtain rfl := Option.some.inj hf
    exact ⟨by decide +kernel, by decide +kernel, by decide +kernel, by decide +kernel,
      by decide +kernel⟩

theorem twoFiles_presented : Presented kernel (withDisk twoFilesDisk) 0x200000 := by
  have hdata : ((withDisk twoFilesDisk).devs DEV_RAMDISK).data = 0x100000 := World.setData_same _ _ _
  exact ⟨rfl, by rw [hdata]; decide, by rw [hdata]; decide +kernel⟩

theorem twoFiles_supplies : Supplies ZeroFilled kernel.heap.kmalloca
    (mountRequests kernel twoFiles.length) (withDisk twoFilesDisk).k
      (mountAreas kernel 0x100000 0x200000 94) := by
  have h : Pristine ⟨⟨twoFilesDisk, 0⟩, []⟩ := by
    refine ⟨fun y h1 _ => ?_, rfl⟩
    simp only [heapBase] at h1
    simp (disch := omega) only [twoFilesDisk, store32_outside, store8_ne]
  exact pristine_supplies h.holds.heap (by decide) (by decide) (by decide) (by decide)

theorem ramfsInit_serves_twoFiles : ∃ root p w₁,
    ramfsInit 32 kernel (withDisk twoFilesDisk) = .ret root w₁ ∧ root ≠ 0 ∧
      ∀ tr w₂, Run (ClientStep 32 kernel twoFiles root p
          (heldBy root p 2 0x100000 0x200000 94)) w₁ tr w₂ →
        FilesServed 32 kernel twoFiles root p 0x200000 94 w₂ :=
  ramfsInit_serves (S := kernel) (w := withDisk twoFilesDisk) twoFiles_laidOut (by decide)
    twoFiles_presented (by decide) twoFiles_supplies (Nat.le_refl 32)

end Foos.Fs
