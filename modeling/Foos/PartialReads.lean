import Foos.MountedFiles

/-! Reading a part of a file. The file system copies the whole file behind the offset into the
buffer, whatever size was asked for. -/
namespace Foos.Fs
open Program ByteMemory Word32 Kmalloc

variable {δ : Type}

/-- How many bytes a read of `sz` bytes from `off` on can get. -/
def partLength (f : File) (sz off : Nat) : Nat :=
  min sz (f.content.length - min off f.content.length)

/-- The call returns the number of bytes of that part of the file, puts them at `buf` and changes
nothing else. -/
def ReadsPart (S : System δ) (node : Nat) (f : File) (buf sz off : Nat) (w : World δ) : Prop :=
  ∃ t, fsRead S node buf sz off w = .ret (partLength f sz off) t ∧
    (∀ j, j < partLength f sz off → f.content[off + j]? = some (t.mem (buf + j))) ∧
    Frame [(buf, partLength f sz off)] w.mem t.mem

/-- The whole file is asked for, or nothing of an empty one. -/
def WholeFile (f : File) (sz off : Nat) : Prop :=
  off = 0 ∧ sz = f.content.length ∧ f.content.length < 2147483648 ∨
    f.content.length = 0 ∧ sz = 0

instance (f : File) (sz off : Nat) : Decidable (WholeFile f sz off) :=
  inferInstanceAs (Decidable (_ ∨ _))

/-- The area is below the top of memory and in nobody else's use. -/
def Spare (held : List (Nat × Nat)) (a n : Nat) : Prop := Apart held a n ∧ a + n ≤ 4294967296

instance (held : List (Nat × Nat)) (a n : Nat) : Decidable (Spare held a n) :=
  inferInstanceAs (Decidable (_ ∧ _))

section
variable {S : System δ} {files : List File} {root p rd img N i buf sz off : Nat} {f : File}
  {w : World δ}

/-- The bytes of memory after a read: the file behind the offset, and the old ones elsewhere. -/
theorem Mounted.read_bytes (h : Mounted S files root p rd img w) (sz : Nat)
    (hfit : ∀ f ∈ files, fileBase files.length + f.offset + f.content.length ≤ N)
    (hwrap : img + N ≤ 4294967296) (hf : files[i]? = some f)
    (htarget : Apart [(img, N)] (add32 buf off) f.content.length) :
    ∃ t, fsRead S (entry p i) buf sz off w = .ret (toInt sz) t ∧
      (∀ j (hj : j < f.content.length), t.mem (add32 buf off + j) = f.content[j]) ∧
      Frame [(add32 buf off, f.content.length)] w.mem t.mem := by
  obtain ⟨t, hrun, hmem, -, -⟩ := h.read_run hf buf sz off
  have hin := hfit f (List.mem_of_getElem? hf)
  refine ⟨t, hrun, fun j hj => ?_, hmem ▸ memcpy_frame _ _ _ _⟩
  have hbase : add32 (fileBase files.length) f.offset = fileBase files.length + f.offset :=
    add32_of_lt (by omega)
  have hsrc : add32 img (fileBase files.length + f.offset) =
      img + fileBase files.length + f.offset :=
    (add32_of_lt (by omega)).trans (Nat.add_assoc ..).symm
  simp only [apart_cons, apart_nil, and_true] at htarget
  rw [hmem, hbase, hsrc, memcpy_copied (by omega) hj]
  exact h.content f (List.mem_of_getElem? hf) j hj

/-- The files stay mounted when a byte that nobody holds is changed. -/
theorem Mounted.store8 (h : Mounted S files root p rd img w)
    (hfit : ∀ f ∈ files, fileBase files.length + f.offset + f.content.length ≤ N) {y : Nat}
    (hy : Outside (heldBy root p files.length rd img N) y) (v : UInt8) :
    Mounted S files root p rd img (w.setMem (ByteMemory.store8 w.mem y v)) := by
  refine h.congr hfit (fun x hx => ?_) rfl rfl
  refine store8_ne _ _ _ _ ?_
  rintro rfl
  exact hx hy

theorem Mounted.reads_whole (h : Mounted S files root p rd img w)
    (hfit : ∀ f ∈ files, fileBase files.length + f.offset + f.content.length ≤ N)
    (hwrap : img + N ≤ 4294967296) (hf : files[i]? = some f)
    (hbuf : Spare (heldBy root p files.length rd img N) buf (partLength f sz off))
    (hwhole : WholeFile f sz off) : ReadsPart S (entry p i) f buf sz off w := by
  rcases hwhole with ⟨rfl, rfl, hsize⟩ | ⟨h0, rfl⟩
  · have hk : partLength f f.content.length 0 = f.content.length := by simp [partLength]
    rw [hk] at hbuf
    have himg : Apart [(img, N)] buf f.content.length := fun r hr =>
      hbuf.1 r (List.mem_singleton.mp hr ▸ by simp [heldBy])
    obtain ⟨t, hrun, hcopy, hframe⟩ := h.read_whole hf hsize (hfit f (List.mem_of_getElem? hf))
      hwrap hbuf.2 himg
    refine ⟨t, ?_⟩
    rw [hk]
    refine ⟨hrun, fun j hj => ?_, hframe⟩
    rw [hcopy j hj, Nat.zero_add, List.getElem?_eq_getElem hj]
  · obtain ⟨t, hrun, hmem, -, -⟩ := h.read_run hf buf 0 off
    have hk : partLength f 0 off = 0 := Nat.zero_min _
    refine ⟨t, ?_⟩
    rw [hk]
    refine ⟨hrun, fun j hj => absurd hj (Nat.not_lt_zero j), ?_⟩
    rw [hmem, h0]
    exact Frame.refl _ _

/-- What a read leaves when it also does what is asked for. -/
theorem Mounted.both (h : Mounted S files root p rd img w)
    (hfit : ∀ f ∈ files, fileBase files.length + f.offset + f.content.length ≤ N)
    (hwrap : img + N ≤ 4294967296) (hf : files[i]? = some f)
    (htarget : Apart (heldBy root p files.length rd img N) (add32 buf off) f.content.length)
    (hpart : ReadsPart S (entry p i) f buf sz off w) :
    toInt sz = partLength f sz off ∧ ∃ m : Mem,
      (∀ j (hj : j < f.content.length), m (add32 buf off + j) = f.content[j]) ∧
      Frame [(add32 buf off, f.content.length)] w.mem m ∧
      (∀ j, j < partLength f sz off → f.content[off + j]? = some (m (buf + j))) ∧
      Frame [(buf, partLength f sz off)] w.mem m := by
  have himg : Apart [(img, N)] (add32 buf off) f.content.length := fun r hr =>
    htarget r (List.mem_singleton.mp hr ▸ by simp [heldBy])
  obtain ⟨t, hrun, hcopy, hframe⟩ := h.read_bytes sz hfit hwrap hf himg
  obtain ⟨t', hrun', hcopy', hframe'⟩ := hpart
  obtain ⟨hret, rfl⟩ := Res.ret.inj (hrun.symm.trans hrun')
  exact ⟨hret, t.mem, hcopy, hframe, hcopy', hframe'⟩

theorem exists_other (c : UInt8) : ∃ v, v ≠ c := by
  by_cases h : c = 0
  · exact ⟨1, h ▸ by decide⟩
  · exact ⟨0, Ne.symm h⟩

/-- A size that is returned as it is lies within the file. -/
theorem partLength_eq {f : File} {sz off : Nat} (hsz : sz < 4294967296)
    (h : toInt sz = partLength f sz off) :
    partLength f sz off = sz ∧ sz ≤ f.content.length - off ∧ sz < 2147483648 := by
  have hle : partLength f sz off ≤ sz := Nat.min_le_left _ _
  have hle' : partLength f sz off ≤ f.content.length - min off f.content.length :=
    Nat.min_le_right _ _
  unfold toInt at h
  split at h <;> omega

/-- A request for less than the whole file goes wrong in some memory: a byte that the copy puts
outside the part, or one of the part that it does not reach, can hold another value. -/
theorem Mounted.whole_of_reads (h : Mounted S files root p rd img w)
    (hfit : ∀ f ∈ files, fileBase files.length + f.offset + f.content.length ≤ N)
    (hwrap : img + N ≤ 4294967296) (hf : files[i]? = some f) (hsz : sz < 4294967296)
    (hoff : off < 4294967296)
    (hbuf : Spare (heldBy root p files.length rd img N) buf (partLength f sz off))
    (htarget : Spare (heldBy root p files.length rd img N) (add32 buf off) f.content.length)
    (hall : ∀ w, Mounted S files root p rd img w → ReadsPart S (entry p i) f buf sz off w) :
    WholeFile f sz off := by
  obtain ⟨hret, -⟩ := h.both hfit hwrap hf htarget.1 (hall w h)
  obtain ⟨hk, hle, h31⟩ := partLength_eq hsz hret
  rw [hk] at hbuf
  -- the byte at `y` gets another value than `c` before the call
  have hspoil (y : Nat) (c : UInt8) (hy : Outside (heldBy root p files.length rd img N) y) :
      ∃ (v : UInt8) (m : Mem), v ≠ c ∧
        (∀ j (hj : j < f.content.length), m (add32 buf off + j) = f.content[j]) ∧
        ((y < add32 buf off ∨ add32 buf off + f.content.length ≤ y) → m y = v) ∧
        (∀ j, j < sz → f.content[off + j]? = some (m (buf + j))) ∧
        ((y < buf ∨ buf + sz ≤ y) → m y = v) := by
    obtain ⟨v, hv⟩ := exists_other c
    have hw := h.store8 hfit hy v
    obtain ⟨-, m, h1, h2, h3, h4⟩ := hw.both hfit hwrap hf htarget.1 (hall _ hw)
    rw [hk] at h3 h4
    refine ⟨v, m, hv, h1, fun ho => ?_, h3, fun ho => ?_⟩
    · exact (h2 y (by simpa using ho)).trans (store8_same _ _ _)
    · exact (h4 y (by simpa using ho)).trans (store8_same _ _ _)
  by_contra hwhole
  have hpos : 0 < f.content.length := by
    refine Nat.pos_of_ne_zero fun h0 => hwhole (Or.inr ⟨h0, by omega⟩)
  by_cases hinside : buf ≤ add32 buf off ∧ add32 buf off < buf + sz
  · have hT : add32 buf off = buf + off := by
      unfold add32 at hinside ⊢
      omega
    cases Nat.eq_zero_or_pos off with
    | inl h0 =>
      have hlt : sz < f.content.length := by
        refine Nat.lt_of_le_of_ne (by omega) fun he => hwhole (Or.inl ⟨h0, he, by omega⟩)
      obtain ⟨v, m, hv, h1, -, -, h4⟩ := hspoil (add32 buf off + sz) f.content[sz]
        (htarget.1.outside (by omega) (by omega))
      exact hv ((h4 (Or.inr (by omega))).symm.trans (h1 sz hlt))
    | inr hoff' =>
      have hlt : off < f.content.length := by omega
      obtain ⟨v, m, hv, -, h2, h3, -⟩ := hspoil buf f.content[off]
        (hbuf.1.outside (Nat.le_refl _) (by omega))
      have hfirst := h3 0 (by omega)
      rw [Nat.add_zero, Nat.add_zero, List.getElem?_eq_getElem hlt] at hfirst
      exact hv ((h2 (Or.inl (by omega))).symm.trans (Option.some.inj hfirst).symm)
  · obtain ⟨v, m, hv, h1, -, -, h4⟩ := hspoil (add32 buf off) f.content[0]
      (htarget.1.outside (Nat.le_refl _) (by omega))
    exact hv ((h4 (by omega)).symm.trans (h1 0 hpos))

/-- A mounted file is read in part as it should be, whatever memory holds, exactly when that part
is the whole file. -/
theorem fsRead_part_iff (h : Mounted S files root p rd img w)
    (hfit : ∀ f ∈ files, fileBase files.length + f.offset + f.content.length ≤ N)
    (hwrap : img + N ≤ 4294967296) (hf : files[i]? = some f) (hsz : sz < 4294967296)
    (hoff : off < 4294967296)
    (hbuf : Spare (heldBy root p files.length rd img N) buf (partLength f sz off))
    (htarget : Spare (heldBy root p files.length rd img N) (add32 buf off) f.content.length) :
    (∀ w, Mounted S files root p rd img w → ReadsPart S (entry p i) f buf sz off w) ↔
      WholeFile f sz off :=
  ⟨h.whole_of_reads hfit hwrap hf hsz hoff hbuf htarget,
    fun hwhole _ hw => hw.reads_whole hfit hwrap hf hbuf hwhole⟩

end

/-- The two files mounted, with four bytes at `buf` that nobody holds. -/
theorem twoFiles_mounted : ∃ root p w buf, Mounted kernel twoFiles root p 0x100000 0x200000 w ∧
    Spare (heldBy root p 2 0x100000 0x200000 94) buf 4 := by
  obtain ⟨root, p, w, -, -, hw, -⟩ := twoFiles_laidOut.mounted (S := kernel)
    (w := withDisk twoFilesDisk) (Nat.le_refl 32) twoFiles_presented rfl (by decide)
    twoFiles_supplies
  -- neither area of the file system can meet two of three places
  have hroom : ∃ buf, (buf = 0x300000 ∨ buf = 0x310000 ∨ buf = 0x320000) ∧
      (root + 76 ≤ buf ∨ buf + 4 ≤ root) ∧ (p + 228 ≤ buf ∨ buf + 4 ≤ p) := by
    by_contra hno
    push Not at hno
    have h1 := hno 0x300000 (by simp)
    have h2 := hno 0x310000 (by simp)
    have h3 := hno 0x320000 (by simp)
    omega
  obtain ⟨buf, hbuf, hr, hp⟩ := hroom
  refine ⟨root, p, w, buf, hw, ?_, by omega⟩
  simp only [heldBy, apart_cons, apart_nil, and_true]
  omega

theorem twoFiles_fit : ∀ f ∈ twoFiles,
    fileBase twoFiles.length + f.offset + f.content.length ≤ 94 := by decide

theorem Spare.front {held : List (Nat × Nat)} {a n k : Nat} (h : Spare held a n) (hk : k ≤ n) :
    Spare held a k :=
  ⟨h.1.sub (Nat.le_refl a) (by omega), by have := h.2; omega⟩

theorem fsRead_part_iff_whole : ∃ root p w buf, Mounted kernel twoFiles root p 0x100000 0x200000 w ∧
    ReadsPart kernel (entry p 0) twoFiles[0] buf 2 0 w := by
  obtain ⟨root, p, w, buf, hw, hspare⟩ := twoFiles_mounted
  have hbuf : Spare (heldBy root p twoFiles.length 0x100000 0x200000 94) buf
      (partLength twoFiles[0] 2 0) := hspare.front (by decide)
  have htop := hspare.2
  have htarget : Spare (heldBy root p twoFiles.length 0x100000 0x200000 94) (add32 buf 0)
      twoFiles[0].content.length := by
    rw [add32_of_lt (by omega)]
    exact hspare.front (by decide)
  exact ⟨root, p, w, buf, hw, (fsRead_part_iff hw twoFiles_fit (by decide) rfl (by decide)
    (by decide) hbuf htarget).mpr (by decide) w hw⟩

/-- One byte of a file of two is asked for: the other one lands behind it. -/
theorem fsRead_part_fails : ¬ ∀ (files : List File) (root p rd img N : Nat) (w : World Unit)
    (i : Nat) (f : File) (buf sz off : Nat), Mounted kernel files root p rd img w →
    (∀ f ∈ files, fileBase files.length + f.offset + f.content.length ≤ N) →
    img + N ≤ 4294967296 → files[i]? = some f → sz < 4294967296 → off < 4294967296 →
    Spare (heldBy root p files.length rd img N) buf (partLength f sz off) →
    Spare (heldBy root p files.length rd img N) (add32 buf off) f.content.length →
    ReadsPart kernel (entry p i) f buf sz off w := by
  intro hclaim
  obtain ⟨root, p, w, buf, hw, hspare⟩ := twoFiles_mounted
  have hbuf : Spare (heldBy root p twoFiles.length 0x100000 0x200000 94) buf
      (partLength twoFiles[0] 1 0) := hspare.front (by decide)
  have htop := hspare.2
  have htarget : Spare (heldBy root p twoFiles.length 0x100000 0x200000 94) (add32 buf 0)
      twoFiles[0].content.length := by
    rw [add32_of_lt (by omega)]
    exact hspare.front (by decide)
  have hwhole := hw.whole_of_reads twoFiles_fit (by decide) rfl (by decide) (by decide) hbuf
    htarget fun v hv => hclaim twoFiles root p _ _ 94 v 0 _ buf 1 0 hv twoFiles_fit (by decide)
      rfl (by decide) (by decide) hbuf htarget
  exact absurd hwhole (by decide)

end Foos.Fs
