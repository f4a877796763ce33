import Foos.Mount
import Foos.OpenClose

/-! Which images `ramfs_init` treats as it should: an untrusted image is refused, or it is read
within its bounds and every inode made from it fits its header and the image. -/
namespace Foos.Fs
open Program ByteMemory Word32 CString Libc Kmalloc

variable {δ : Type}

/-- Header `j` names a file that lies in the image. -/
structure GoodHeader (m : Mem) (img rdSize j : Nat) : Prop where
  named : Named m (fileheader (img + headerSize) j)
  extent : nfiles m img * fileheaderSize + headerSize + fileOffset m (fileheader (img + headerSize) j) +
    fileSize m (fileheader (img + headerSize) j) ≤ rdSize

/-- The signature is bad, or all headers are good up to one with a bad magic number, or all
are good and the table itself lies in the image. -/
def SoundImage (m : Mem) (img rdSize : Nat) : Prop :=
  signature m img ≠ RD_HEADSIG ∨
    ∃ k, k ≤ nfiles m img ∧ (∀ j, j < k → GoodHeader m img rdSize j) ∧
      (k < nfiles m img → fileMagic m (fileheader (img + headerSize) k) ≠ RD_FILESIG) ∧
      (k = nfiles m img → nfiles m img * fileheaderSize + headerSize ≤ rdSize)

/-- The inode at `node` of `m` is as header `i` of `m₀` says, its file lies in the image. -/
def GoodInode (S : System δ) (m₀ : Mem) (img rdSize i node : Nat) (m : Mem) : Prop :=
  FileInode S m₀ (fileheader (img + headerSize) i) m node i ∧
    nfiles m₀ img * fileheaderSize + headerSize + impl m node + size m node ≤ rdSize

/-- `ramfs_init` returned NULL or stopped in an assertion. -/
def Refuses (r : Res (World δ) Nat) : Prop := (∃ t, r = .halt t) ∨ ∃ t, r = .ret 0 t

/-- The run ends; it refuses the image or looks at bytes of the image only; and every inode
it makes is good. -/
def Validated (S : System δ) (w : World δ) (img rdSize : Nat) (r : Res (World δ) Nat) : Prop :=
  (∀ t, r ≠ .spin t) ∧ ∃ l, r.final.trace = w.trace ++ l ∧
    (Refuses r ∨ ∀ a k, .image a k ∈ l → img ≤ a ∧ a + k ≤ img + rdSize) ∧
    ∀ i node m, .inode i node m ∈ l → GoodInode S w.mem img rdSize i node m

section Extends

theorem extends_of_trace {f : World δ → World δ} (h : ∀ w, (f w).trace = w.trace) :
    Respects Extends (Program.modify f) :=
  respects_modify fun w => ⟨[], by rw [h, List.append_nil]⟩

theorem extends_onMem (f : Mem → Mem) : Respects Extends (onMem f : Code δ Unit) :=
  extends_of_trace fun _ => rfl

theorem extends_ofMem {α : Type} (f : Mem → α) : Respects Extends (ofMem f : Code δ α) :=
  respects_read Extends.refl _

theorem extends_note (e : Event) : Respects Extends (note e : Code δ Unit) :=
  respects_modify fun _ => ⟨[e], rfl⟩

theorem extends_bind {α β : Type} {x : Code δ α} {f : α → Code δ β} (hx : Respects Extends x)
    (hf : ∀ a, Respects Extends (f a)) : Respects Extends (x >>= f) :=
  respects_bind Extends.trans hx hf

theorem extends_image32 (a : Nat) : Respects Extends (image32 a : Code δ Nat) :=
  extends_bind (extends_note _) fun _ => extends_ofMem _

theorem extends_kmalloc (h : Heap) (sz : Nat) : Respects Extends (kmalloc h sz : Code δ Nat) := by
  refine respects_update Extends.refl fun s a t hst => ?_
  cases hk : h.kmalloca s.k sz 0 with
  | none => simp [hk] at hst
  | some r =>
    simp only [hk, Option.map_some, Option.some.injEq, Prod.mk.injEq] at hst
    exact hst.2 ▸ ⟨[], (List.append_nil _).symm⟩

theorem extends_imageStrcpy (fuel dest source : Nat) :
    Respects Extends (imageStrcpy fuel dest source : Code δ Unit) := by
  refine extends_bind (respects_update Extends.refl fun s a t hst => ?_) fun _ => extends_note _
  cases hc : copyWhile fuel s.mem dest source with
  | none => simp [hc] at hst
  | some r =>
    simp only [hc, Option.map_some, Option.some.injEq, Prod.mk.injEq] at hst
    exact hst.2 ▸ ⟨[], (List.append_nil _).symm⟩

theorem extends_ramfsRound (fuel : Nat) (S : System δ) (files i : Nat) :
    Respects Extends (ramfsRound fuel S files i) := by
  refine extends_bind (extends_image32 _) fun magic => ?_
  refine extends_bind (respects_assert Extends.refl _) fun _ => ?_
  refine extends_bind (respects_read Extends.refl _) fun node => ?_
  refine extends_bind (extends_imageStrcpy _ _ _) fun _ => ?_
  refine extends_bind (extends_onMem _) fun _ => extends_bind (extends_onMem _) fun _ => ?_
  refine extends_bind (extends_image32 _) fun _ => extends_bind (extends_onMem _) fun _ => ?_
  refine extends_bind (extends_image32 _) fun _ => extends_bind (extends_onMem _) fun _ => ?_
  exact extends_bind (extends_onMem _) fun _ => extends_bind (extends_ofMem _) fun _ => extends_note _

theorem extends_devfsRound (S : System δ) (devdir i : Nat) :
    Respects Extends (devfsRound S devdir i) := by
  unfold devfsRound
  split
  · exact respects_diverge Extends.refl
  · refine extends_bind (extends_ofMem _) fun _ => extends_bind (extends_onMem _) fun _ => ?_
    refine extends_bind (extends_onMem _) fun _ => extends_bind (extends_onMem _) fun _ => ?_
    exact extends_bind (extends_onMem _) fun _ => extends_onMem _

theorem extends_devfsInit (S : System δ) (devdir : Nat) :
    Respects Extends (devfsInit S devdir) := by
  refine extends_bind (respects_assert Extends.refl _) fun _ => ?_
  refine extends_bind (extends_onMem _) fun _ => extends_bind (extends_onMem _) fun _ => ?_
  refine extends_bind (extends_onMem _) fun _ => extends_bind (extends_kmalloc _ _) fun _ => ?_
  refine extends_bind (extends_onMem _) fun _ => extends_bind (extends_onMem _) fun _ => ?_
  refine extends_bind (respects_forFrom Extends.refl Extends.trans (extends_devfsRound S devdir)
    _ _) fun _ => respects_pure Extends.refl _

theorem extends_ramfsFinish (S : System δ) (i : Nat) : Respects Extends (ramfsFinish S i) := by
  refine extends_bind ?_ fun _ => extends_bind (respects_read Extends.refl _) fun _ => ?_
  · refine extends_bind (extends_of_trace fun _ => rfl) fun _ => ?_
    refine extends_bind (respects_read Extends.refl _) fun _ => ?_
    refine extends_bind (extends_onMem _) fun _ => extends_bind (extends_onMem _) fun _ => ?_
    exact extends_bind (extends_onMem _) fun _ => extends_bind (extends_devfsInit _ _) fun _ =>
      respects_pure Extends.refl _
  · exact extends_bind (respects_read Extends.refl _) fun _ => extends_bind (extends_onMem _) fun _ =>
      respects_pure Extends.refl _

end Extends

theorem ramfsRound_refused {S : System δ} {w : World δ} {fuel files i : Nat}
    (h : fileMagic w.mem (fileheader files i) ≠ RD_FILESIG) :
    ramfsRound fuel S files i w = .halt (w.log (.image (fileheader files i) 4)) := by
  simp only [ramfsRound, image32, bind_assoc_run, note_bind_run, ofMem_bind_run]
  exact bind_halt (assert_stop (decide_eq_false h) _)

theorem ramfsRound_spins {S : System δ} {w : World δ} {fuel files i : Nat}
    (hmagic : fileMagic w.mem (fileheader files i) = RD_FILESIG)
    (hcopy : copyWhile fuel w.mem (entry w.rdFiles i) (fileName (fileheader files i)) = none) :
    ramfsRound fuel S files i w = .spin (w.log (.image (fileheader files i) 4)) := by
  simp only [ramfsRound, image32, bind_assoc_run, note_bind_run, ofMem_bind_run]
  refine (bind_ret (assert_pass (decide_eq_true hmagic) _)).trans ?_
  simp only [read_bind_run, imageStrcpy, bind_assoc_run]
  refine bind_spin (update_spin ?_)
  simp only [World.log_mem, World.log_rdFiles, name, hcopy, Option.map_none]

section
variable {S : System δ} {w : World δ} {img rdSize : Nat} {fill : Mem → Nat → Nat → Prop}

/-- While all headers below `j` are good, header `j` is in the image or in its first bytes. -/
theorem header_inside {m : Mem} {j : Nat} (hgood : ∀ i, i < j → GoodHeader m img rdSize i)
    (hj : j < nfiles m img) : (j + 1) * 44 + 4 ≤ max rdSize 48 := by
  cases j with
  | zero => omega
  | succ j =>
    have h0 := (hgood 0 (Nat.succ_pos j)).extent
    simp only [fileheaderSize, headerSize] at h0
    omega

theorem located_kept (hslot : Apart [(img, max rdSize 48)] S.link.header 4) {y : Nat}
    (h1 : img ≤ y) (h2 : y < img + max rdSize 48) : (located S w img).mem y = w.mem y := by
  simp only [apart_cons, apart_nil, and_true] at hslot
  exact store32_outside _ _ _ _ (by omega)

theorem init_refused (hp : Presented S w img)
    (hslot : Apart [(img, max rdSize 48)] S.link.header 4)
    (hsig : signature w.mem img ≠ RD_HEADSIG) (fuel : Nat) :
    ramfsInit fuel S w = .ret 0 (located S w img) := by
  have hsame : signature (located S w img).mem img = signature w.mem img := by
    rw [signature, signature, load16, load16, located_kept hslot (Nat.le_refl img) (by omega),
      located_kept hslot (Nat.le_add_right img 1) (by omega)]
  rw [hp.init, hsame, if_pos hsig]
  rfl

/-- The loop of an image with a good signature, and what its start has in common with `w`. -/
theorem init_started (hp : Presented S w img)
    (hslot : Apart [(img, max rdSize 48)] S.link.header 4)
    (hsup : Supplies fill S.heap.kmalloca (mountRequests S (nfiles w.mem img)) w.k
      [(S.link.header, 4), (img, max rdSize 48)])
    (hsig : signature w.mem img = RD_HEADSIG) (fuel : Nat) :
    ∃ root p v, ramfsInit fuel S w = (forFrom (ramfsRound fuel S (img + headerSize)) 0
        (nfiles w.mem img) >>= fun _ => ramfsFinish S (nfiles w.mem img)) v ∧
      Started S fill (located S w img) [(S.link.header, 4), (img, max rdSize 48)] img root p
        (nfiles w.mem img) v ∧
      ∀ y, img ≤ y → y < img + max rdSize 48 → v.mem y = w.mem y := by
  have hkept : ∀ y, img ≤ y → y < img + max rdSize 48 → (located S w img).mem y = w.mem y :=
    fun y h1 h2 => located_kept hslot h1 h2
  have h16 : ∀ a, img ≤ a → a + 2 ≤ img + max rdSize 48 →
      load16 (located S w img).mem a = load16 w.mem a := fun a h1 h2 => by
    rw [load16, load16, hkept a h1 (by omega), hkept (a + 1) (by omega) (by omega)]
  have hsame : signature (located S w img).mem img = RD_HEADSIG :=
    (h16 img (Nat.le_refl img) (by omega)).trans hsig
  have hheld : Frame [(S.link.header, 4), (img, max rdSize 48)] w.k.mem (located S w img).k.mem := by
    intro y hy
    simp only [outside_cons] at hy
    exact store32_outside _ _ _ _ (by omega)
  obtain ⟨root, p, v, hrun, hstart⟩ := ramfsMount_start (S := S) (w := located S w img) (N := max rdSize 48)
    fuel (by simp) (by omega) (h16 (img + 2) (by omega) (by omega)) (hsup.agree hheld)
  refine ⟨root, p, v, ?_, hstart, fun y h1 h2 => ?_⟩
  · rw [hp.init, hsame, if_neg (fun h => h rfl)]
    exact hrun
  · exact (hstart.kept y (not_outside.mpr ⟨(img, max rdSize 48), by simp, h1, h2⟩)).trans
      (hkept y h1 h2)

/-- What the start of the loop and the image have in common, for the headers in it. -/
structure LoopStart (S : System δ) (w : World δ) (img rdSize : Nat) (v : World δ) : Prop where
  image : ∀ y, img ≤ y → y < img + max rdSize 48 → v.mem y = w.mem y
  below : v.rdFiles + (nfiles w.mem img + 1) * 76 ≤ 4294967296
  apart : v.rdFiles + (nfiles w.mem img + 1) * 76 ≤ img ∨ img + max rdSize 48 ≤ v.rdFiles
  trace : v.trace = w.trace ++
    [.image img 2, .image (img + 2) 2, .image (img + 2) 2, .image (img + 2) 2]
  zero : ∀ y, v.rdFiles ≤ y → y < v.rdFiles + (nfiles w.mem img + 1) * 76 → v.mem y = 0

theorem LoopStart.of_started {areas : List (Nat × Nat)} {root p : Nat} {v : World δ}
    (h : Started S fill (located S w img) areas img root p (nfiles w.mem img) v)
    (himg : (img, max rdSize 48) ∈ areas)
    (hkept : ∀ y, img ≤ y → y < img + max rdSize 48 → v.mem y = w.mem y) :
    LoopStart S w img rdSize v := by
  refine ⟨hkept, h.rdFiles ▸ h.filesBelow, ?_, ?_, h.rdFiles ▸ h.zero⟩
  · rw [h.rdFiles]
    exact h.filesApart _ (List.mem_cons_of_mem _ himg)
  · rw [h.trace]
    exact List.append_assoc _ _ _

variable {v : World δ}

theorem LoopStart.header (h : LoopStart S w img rdSize v) {j : Nat}
    (hin : (j + 1) * 44 + 4 ≤ max rdSize 48) {y : Nat}
    (h1 : fileheader (img + headerSize) j ≤ y) (h2 : y < fileheader (img + headerSize) j + 44) :
    v.mem y = w.mem y := by
  simp only [fileheader, headerSize] at h1 h2
  exact h.image y (by omega) (by omega)

theorem Named.congr {m m' : Mem} {file : Nat} (h : Named m file)
    (hm : ∀ y, file ≤ y → y < file + 44 → m' y = m y) : Named m' file := by
  obtain ⟨hmagic, s, hs, hstr⟩ := h
  refine ⟨(load32_congr fun y h1 h2 => hm y h1 (by omega)).trans hmagic, s, hs,
    hstr.congr fun y h1 h2 => ?_⟩
  simp only [fileName] at h1 h2
  exact hm y (by omega) (by omega)

/-- The rounds on good headers. -/
theorem LoopStart.rounds (h : LoopStart S w img rdSize v) {fuel k : Nat} (hfuel : 32 ≤ fuel)
    (hk : k ≤ nfiles w.mem img) (hgood : ∀ j, j < k → GoodHeader w.mem img rdSize j) :
    ∃ u, forFrom (ramfsRound fuel S (img + headerSize)) 0 k v = .ret () u ∧
      FilesFilled S (img + headerSize) (nfiles w.mem img) v k u := by
  have hin : ∀ j, j < k → (j + 1) * 44 + 4 ≤ max rdSize 48 := fun j hj =>
    header_inside (fun i hi => hgood i (by omega)) (by omega)
  have happ := h.apart
  obtain ⟨u, hrun, hu, -⟩ := filesFilled_rounds S (img + headerSize) hfuel hk
    h.below h.zero (fun j hj => (hgood j hj).named.congr fun y => h.header (hin j hj))
    fun j hj => by
      have hj' := hin j hj
      simp only [fileheader, headerSize, apart_cons, apart_nil, and_true]
      omega
  exact ⟨u, hrun, hu⟩

/-- An inode of the loop is good when its header is. -/
theorem LoopStart.goodInode (h : LoopStart S w img rdSize v) {i node : Nat} {m : Mem}
    (hin : (i + 1) * 44 + 4 ≤ max rdSize 48) (hgood : GoodHeader w.mem img rdSize i)
    (hi : FileInode S v.mem (fileheader (img + headerSize) i) m node i) :
    GoodInode S w.mem img rdSize i node m := by
  have hi' : FileInode S w.mem (fileheader (img + headerSize) i) m node i :=
    hi.source fun y h1 h2 => (h.header hin h1 h2).symm
  refine ⟨hi', ?_⟩
  rw [hi'.impl, hi'.size]
  exact hgood.extent

theorem LoopStart.log_good (h : LoopStart S w img rdSize v) {k : Nat} {l : List Event}
    (hk : k ≤ nfiles w.mem img) (hgood : ∀ j, j < k → GoodHeader w.mem img rdSize j)
    (hlog : ∀ e ∈ l, Logged S v (img + headerSize) k e) {i node : Nat} {m : Mem}
    (he : Event.inode i node m ∈ l) : GoodInode S w.mem img rdSize i node m := by
  obtain ⟨hi, hmade⟩ := hlog _ he
  refine h.goodInode (header_inside (fun j hj => hgood j (by omega)) (by omega)) (hgood i hi) hmade

/-- Sound images are treated as they should be. -/
theorem SoundImage.validated (hsound : SoundImage w.mem img rdSize) (hp : Presented S w img)
    (hslot : Apart [(img, max rdSize 48)] S.link.header 4)
    (hsup : Supplies fill S.heap.kmalloca (mountRequests S (nfiles w.mem img)) w.k
      [(S.link.header, 4), (img, max rdSize 48)]) {fuel : Nat} (hfuel : 32 ≤ fuel) :
    Validated S w img rdSize (ramfsInit fuel S w) := by
  by_cases hsig : signature w.mem img = RD_HEADSIG
  swap
  · rw [init_refused hp hslot hsig]
    exact ⟨by simp, [.image img 2], rfl, Or.inl (Or.inr ⟨_, rfl⟩), by simp⟩
  obtain ⟨k, hk, hgood, hmagic, hfit⟩ := hsound.resolve_left fun h => h hsig
  obtain ⟨root, p, v, hrun, hstart, hkept⟩ := init_started hp hslot hsup hsig fuel
  have hs : LoopStart S w img rdSize v := .of_started hstart (by simp) hkept
  obtain ⟨u, hloop, hu⟩ := hs.rounds hfuel hk hgood
  obtain ⟨l, hl, hlog⟩ := hu.log
  rw [hs.trace, List.append_assoc] at hl
  rw [hrun]
  cases Nat.lt_or_ge k (nfiles w.mem img) with
  | inl hlt =>
    -- the loop stops at header `k`
    obtain ⟨m, hm⟩ : ∃ m, nfiles w.mem img = k + (m + 1) := ⟨nfiles w.mem img - k - 1, by omega⟩
    have hin := header_inside hgood hlt
    have happ := hs.apart
    have hsame : fileMagic u.mem (fileheader (img + headerSize) k) =
        fileMagic w.mem (fileheader (img + headerSize) k) := by
      refine load32_congr fun y h1 h2 => ?_
      refine (hu.frame y ?_).trans (hs.header hin h1 (by omega))
      simp only [fileheader, headerSize] at h1 h2
      rw [outside_single]
      omega
    have hstop : (forFrom (ramfsRound fuel S (img + headerSize)) 0 (nfiles w.mem img) >>=
        fun _ => ramfsFinish S (nfiles w.mem img)) v =
          .halt (u.log (.image (fileheader (img + headerSize) k) 4)) := by
      refine bind_halt ?_
      rw [hm, forFrom_append, bind_ret hloop, Nat.zero_add]
      exact bind_halt (ramfsRound_refused (hsame ▸ hmagic hlt))
    rw [hstop]
    refine ⟨by simp, _, (congrArg (· ++ _) hl).trans (List.append_assoc _ _ _),
      Or.inl (Or.inl ⟨_, rfl⟩), fun i node m he => ?_⟩
    refine hs.log_good hk hgood hlog (l := l) ?_
    simpa using he
  | inr hge =>
    -- all headers are good
    obtain rfl : k = nfiles w.mem img := by omega
    have hdevs : 0 < S.ndevs := by
      have := (List.getElem?_eq_some_iff.mp hp.dev).1
      simp only [System.ndevs]
      omega
    obtain ⟨q, t, hfin, -, -, -, ht, -⟩ := ramfsFinish_run hstart hu hdevs
    rw [bind_ret hloop, hfin]
    refine ⟨by simp, _, (ht.trans hl), Or.inr fun a b he => ?_, fun i node m he => ?_⟩
    · have hfit' := hfit rfl
      simp only [fileheaderSize, headerSize] at hfit'
      cases List.mem_append.mp he with
      | inl he =>
        simp only [List.mem_cons, Event.image.injEq, List.not_mem_nil, or_false] at he
        omega
      | inr he =>
        have hle := hlog _ he
        simp only [Logged, headerSize] at hle
        omega
    · refine hs.log_good hk hgood hlog ?_
      simpa using he

/-- A header with the right magic number behind good ones is good, when the run is fine: its
inode is logged, or the copy of its name does not come back. -/
theorem Validated.header (hp : Presented S w img)
    (hslot : Apart [(img, max rdSize 48)] S.link.header 4)
    (hsup : Supplies fill S.heap.kmalloca (mountRequests S (nfiles w.mem img)) w.k
      [(S.link.header, 4), (img, max rdSize 48)])
    (hsig : signature w.mem img = RD_HEADSIG) {fuel k : Nat} (hfuel : 32 ≤ fuel)
    (hv : Validated S w img rdSize (ramfsInit fuel S w)) (hk : k < nfiles w.mem img)
    (hgood : ∀ j, j < k → GoodHeader w.mem img rdSize j)
    (hmagic : fileMagic w.mem (fileheader (img + headerSize) k) = RD_FILESIG) :
    GoodHeader w.mem img rdSize k := by
  obtain ⟨root, p, v, hrun, hstart, hkept⟩ := init_started hp hslot hsup hsig fuel
  have hs : LoopStart S w img rdSize v := .of_started hstart (by simp) hkept
  obtain ⟨u, hloop, hu⟩ := hs.rounds hfuel (Nat.le_of_lt hk) hgood
  obtain ⟨l, hl, -⟩ := hu.log
  rw [hs.trace, List.append_assoc] at hl
  obtain ⟨hends, l', hl', -, hinodes⟩ := hv
  obtain ⟨m, hm⟩ : ∃ m, nfiles w.mem img = k + (m + 1) := ⟨nfiles w.mem img - k - 1, by omega⟩
  have hin := header_inside hgood hk
  have happ := hs.apart
  have hmagicu : fileMagic u.mem (fileheader (img + headerSize) k) = RD_FILESIG := by
    refine Eq.trans (load32_congr fun y h1 h2 => ?_) hmagic
    refine (hu.frame y ?_).trans (hs.header hin h1 (by omega))
    simp only [fileheader, headerSize] at h1 h2
    rw [outside_single]
    omega
  have hrest : ramfsInit fuel S w = ((ramfsRound fuel S (img + headerSize) k >>= fun _ =>
      forFrom (ramfsRound fuel S (img + headerSize)) (k + 1) m) >>= fun _ =>
        ramfsFinish S (nfiles w.mem img)) u := by
    rw [hrun, hm, bind_run, forFrom_append, bind_ret hloop, Nat.zero_add, bind_run]
    rfl
  cases hcopy : copyWhile fuel u.mem (entry u.rdFiles k)
      (fileName (fileheader (img + headerSize) k)) with
  | none =>
    exact absurd (hrest.trans (bind_spin (bind_spin (ramfsRound_spins hmagicu hcopy)))) (hends _)
  | some r =>
    obtain ⟨e, m'⟩ := r
    obtain ⟨x, node, M, hround, l₁, hx⟩ : ∃ x node M, ramfsRound fuel S (img + headerSize) k u =
        .ret () x ∧ ∃ l₁, x.trace = u.trace ++ (l₁ ++ [.inode k node M]) :=
      ⟨_, _, _, ramfsRound_ret rfl rfl hmagicu hcopy, [_, _, _, _], rfl⟩
    have hext : Extends x (ramfsInit fuel S w).final := by
      rw [hrest, bind_assoc_run, bind_ret hround]
      exact extends_bind (respects_forFrom Extends.refl Extends.trans
        (extends_ramfsRound fuel S _) _ _) (fun _ => extends_ramfsFinish S _) x
    obtain ⟨l'', hl''⟩ := hext
    rw [hl', hx, hl, List.append_assoc, List.append_assoc] at hl''
    have hmem := List.append_cancel_left hl''
    obtain ⟨hfile, hextent⟩ := hinodes k node M (hmem ▸ List.mem_append_right _ (by simp))
    rw [hfile.impl, hfile.size] at hextent
    obtain ⟨s, hlen, hstr, -⟩ := hfile.name
    exact ⟨⟨hmagic, s, hlen, hstr⟩, hextent⟩

/-- With all headers good the image is not refused, and its count has been read. -/
theorem Validated.table (hp : Presented S w img)
    (hslot : Apart [(img, max rdSize 48)] S.link.header 4)
    (hsup : Supplies fill S.heap.kmalloca (mountRequests S (nfiles w.mem img)) w.k
      [(S.link.header, 4), (img, max rdSize 48)])
    (hsig : signature w.mem img = RD_HEADSIG) {fuel : Nat} (hfuel : 32 ≤ fuel)
    (hv : Validated S w img rdSize (ramfsInit fuel S w))
    (hgood : ∀ j, j < nfiles w.mem img → GoodHeader w.mem img rdSize j) :
    nfiles w.mem img * fileheaderSize + headerSize ≤ rdSize := by
  obtain ⟨root, p, v, hrun, hstart, hkept⟩ := init_started hp hslot hsup hsig fuel
  have hs : LoopStart S w img rdSize v := .of_started hstart (by simp) hkept
  obtain ⟨u, hloop, hu⟩ := hs.rounds hfuel (Nat.le_refl _) hgood
  obtain ⟨l, hl, -⟩ := hu.log
  rw [hs.trace, List.append_assoc] at hl
  have hdevs : 0 < S.ndevs := by
    have := (List.getElem?_eq_some_iff.mp hp.dev).1
    simp only [System.ndevs]
    omega
  obtain ⟨q, t, hfin, -, -, -, ht, -⟩ := ramfsFinish_run hstart hu hdevs
  rw [hrun, bind_ret hloop, hfin] at hv
  obtain ⟨-, l', hl', hreads, -⟩ := hv
  have hreads' := hreads.resolve_left fun h => by
    rcases h with ⟨t', h⟩ | ⟨t', h⟩
    · cases h
    · injection h with h0 _
      exact hstart.rootPos h0
  obtain rfl := List.append_cancel_left ((ht.trans hl).symm.trans hl')
  have hcount := (hreads' (img + 2) 2 (by simp)).2
  cases hn : nfiles w.mem img with
  | zero =>
    simp only [headerSize]
    omega
  | succ n =>
    have h0 := (hgood 0 (by omega)).extent
    rw [hn] at h0
    omega

/-- `ramfs_init` deals with an image as it should exactly when the image is sound. -/
theorem validated_iff (hp : Presented S w img)
    (hslot : Apart [(img, max rdSize 48)] S.link.header 4)
    (hsup : Supplies fill S.heap.kmalloca (mountRequests S (nfiles w.mem img)) w.k
      [(S.link.header, 4), (img, max rdSize 48)]) :
    (∃ n, ∀ fuel, n ≤ fuel → Validated S w img rdSize (ramfsInit fuel S w)) ↔
      SoundImage w.mem img rdSize := by
  refine ⟨fun ⟨n, hn⟩ => ?_, fun h => ⟨32, fun fuel hf => h.validated hp hslot hsup hf⟩⟩
  by_cases hsig : signature w.mem img = RD_HEADSIG
  swap
  · exact Or.inl hsig
  have hfuel : 32 ≤ max n 32 := Nat.le_max_right ..
  have hv := hn (max n 32) (Nat.le_max_left ..)
  refine Or.inr ?_
  by_cases hstop : ∃ k, k < nfiles w.mem img ∧ (∀ j, j < k → GoodHeader w.mem img rdSize j) ∧
      fileMagic w.mem (fileheader (img + headerSize) k) ≠ RD_FILESIG
  · obtain ⟨k, hk, hgood, hmagic⟩ := hstop
    exact ⟨k, Nat.le_of_lt hk, hgood, fun _ => hmagic, fun h => absurd h (Nat.ne_of_lt hk)⟩
  have hall : ∀ k, k ≤ nfiles w.mem img → ∀ j, j < k → GoodHeader w.mem img rdSize j := by
    intro k
    induction k with
    | zero => exact fun _ _ => nofun
    | succ k ih =>
      intro hk j hj
      have hbelow := ih (by omega)
      by_cases hjk : j = k
      · subst hjk
        refine hv.header hp hslot hsup hsig hfuel hk hbelow ?_
        by_contra hmagic
        exact hstop ⟨j, hk, hbelow, hmagic⟩
      · exact hbelow j (by omega)
  have hgood := hall _ (Nat.le_refl _)
  exact ⟨_, Nat.le_refl _, hgood, fun h => absurd h (Nat.lt_irrefl _),
    fun _ => hv.table hp hslot hsup hsig hfuel hgood⟩

end

/-- Memory with a ramdisk at `0x200000`: one file `a` of `sz` bytes, as its header says. -/
def oneFile (sz : Nat) : Mem :=
  let m : Mem := ⟨fun _ => 0⟩
  let m := store32 m 0x100000 0x200000
  let m := store32 m 0x200000 0x0001D158
  let m := store32 m 0x200004 0xDEADF11E
  let m := store8 m 0x200008 97
  store32 m 0x20002C sz

/-- The kernel with that ramdisk open. -/
def withDisk (m : Mem) : World Unit := (boot m).setData DEV_RAMDISK 0x100000

theorem oneFile_presented (sz : Nat) : Presented kernel (withDisk (oneFile sz)) 0x200000 := by
  have haddr : rdAddr (oneFile sz) 0x100000 = 0x200000 := by
    simp (disch := decide) only [rdAddr, oneFile, load32_store32_ne, load32_store8_ne,
      load32_store32]
  have hdata : ((withDisk (oneFile sz)).devs DEV_RAMDISK).data = 0x100000 :=
    World.setData_same _ _ _
  exact ⟨rfl, by rw [hdata]; decide, by rw [hdata]; exact haddr⟩

theorem oneFile_heap (sz : Nat) : Represents (oneFile sz) [⟨false, 0⟩] := by
  have h : Pristine ⟨⟨oneFile sz, 0⟩, []⟩ := by
    refine ⟨fun y h1 _ => ?_, rfl⟩
    simp only [heapBase] at h1
    simp (disch := omega) only [oneFile, store32_outside, store8_ne]
  exact h.holds.heap

theorem oneFile_nfiles (sz : Nat) : nfiles (oneFile sz) 0x200000 = 1 := by
  simp (disch := decide) only [nfiles, load16, oneFile, store32_outside, store8_ne]
  decide

theorem oneFile_supplies (sz : Nat) : Supplies ZeroFilled kernel.heap.kmalloca
    (mountRequests kernel (nfiles (withDisk (oneFile sz)).mem 0x200000)) (withDisk (oneFile sz)).k
      [(kernel.link.header, 4), (0x200000, max 0x1000 48)] := by
  rw [show nfiles (withDisk (oneFile sz)).mem 0x200000 = 1 from oneFile_nfiles sz]
  exact pristine_supplies (oneFile_heap sz) (by decide) (by decide) (by decide) (by decide)

theorem validated_iff_oneFile :
    (∃ n, ∀ fuel, n ≤ fuel → Validated kernel (withDisk (oneFile 5)) 0x200000 0x1000
      (ramfsInit fuel kernel (withDisk (oneFile 5)))) ↔ SoundImage (oneFile 5) 0x200000 0x1000 :=
  validated_iff (oneFile_presented 5) (by decide) (oneFile_supplies 5)

/-- A file whose header gives a size of `2 ^ 32 - 1` bytes is mounted all the same. -/
theorem validated_fails : ¬ ∃ n, ∀ fuel, n ≤ fuel →
    Validated kernel (withDisk (oneFile 0xFFFFFFFF)) 0x200000 0x1000
      (ramfsInit fuel kernel (withDisk (oneFile 0xFFFFFFFF))) := by
  rintro ⟨n, hn⟩
  have hsig : signature (withDisk (oneFile 0xFFFFFFFF)).mem 0x200000 = RD_HEADSIG := by
    decide +kernel
  have hmagic : fileMagic (withDisk (oneFile 0xFFFFFFFF)).mem
      (fileheader (0x200000 + headerSize) 0) = RD_FILESIG := by decide +kernel
  have hcount : nfiles (withDisk (oneFile 0xFFFFFFFF)).mem 0x200000 = 1 := oneFile_nfiles _
  have hgood := (hn (max n 32) (Nat.le_max_left ..)).header (oneFile_presented _) (by decide)
    (oneFile_supplies _) hsig (Nat.le_max_right ..) (k := 0) (by omega) nofun hmagic
  exact absurd hgood.extent (by decide +kernel)

end Foos.Fs
