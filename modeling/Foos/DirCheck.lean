import Foos.PathWalk

/-! The test in front of `fs_readdir` and `fs_finddir`, on inodes of any type and with hooks of
any kind, and what it means for the lookup of a path. -/
namespace Foos.Fs
open Program ByteMemory CString Libc Kmalloc MaximalRuns

variable {δ : Type}

/-- What the function at an address does with an inode and a name or an index. -/
abbrev DirHook (δ : Type) := Nat → Nat → Nat → Code δ Nat

def fsReaddirVia (call : DirHook δ) (node index : Nat) : Code δ Nat :=
  checkDir node do
    let hook ← ofMem fun m => readdirPtr m node
    if hook = 0 then pure 0 else call hook node index

def fsFinddirVia (call : DirHook δ) (node name' : Nat) : Code δ Nat :=
  checkDir node do
    let hook ← ofMem fun m => finddirPtr m node
    if hook = 0 then pure 0 else call hook node name'

theorem fsReaddir_via (fuel : Nat) (S : System δ) (node index : Nat) :
    fsReaddir fuel S node index = fsReaddirVia (fun hook node index =>
      if hook = S.link.ramfsReaddir then ramfsReaddir fuel S node index else diverge) node index :=
  rfl

theorem fsFinddir_via (fuel : Nat) (S : System δ) (node name' : Nat) :
    fsFinddir fuel S node name' = fsFinddirVia (fun hook node name' =>
      if hook = S.link.ramfsFinddir then ramfsFinddir fuel node name' else diverge) node name' :=
  rfl

/-- The type of the inode is that of a directory, whatever its other flags. -/
def IsDir (m : Mem) (node : Nat) : Prop := flags m node &&& 0x7 = FS_DIR

instance (m : Mem) (node : Nat) : Decidable (IsDir m node) := inferInstanceAs (Decidable (_ = _))

/-- A state with `errno` set to ENOTDIR. -/
def notDir (w : World δ) : World δ := { w with k := { w.k with errno := ENOTDIR } }

/-- Only in a directory is the hook called, whatever is behind it. -/
def Guards (m : Mem) (node : Nat) (hookPtr : Mem → Nat → Nat)
    (search : DirHook δ → Nat → Nat → Code δ Nat) : Prop :=
  ∀ (call : DirHook δ) (x : Nat) (w : World δ), w.mem = m →
    search call node x w =
      if IsDir m node then
        if hookPtr m node = 0 then .ret 0 w else call (hookPtr m node) node x w
      else .ret 0 (notDir w)

theorem checkDir_run (node : Nat) (rest : Code δ Nat) (w : World δ) :
    checkDir node rest w = if flags w.mem node &&& 1 ≠ 0 then .ret 0 (notDir w) else rest w := by
  have hbit : (if 0x7 ≠ FS_DIR then 1 else 0) = 1 := by decide
  simp only [checkDir, ofMem_bind_run, hbit]
  by_cases h : flags w.mem node &&& 1 ≠ 0
  · rw [if_pos h, if_pos h]
    rfl
  · rw [if_neg h, if_neg h]

theorem fsReaddirVia_run (call : DirHook δ) (node index : Nat) (w : World δ) :
    fsReaddirVia call node index w = if flags w.mem node &&& 1 ≠ 0 then .ret 0 (notDir w)
      else if readdirPtr w.mem node = 0 then .ret 0 w
      else call (readdirPtr w.mem node) node index w := by
  rw [fsReaddirVia, checkDir_run, ofMem_bind_run]
  by_cases h : readdirPtr w.mem node = 0
  · rw [if_pos h, if_pos h]
    rfl
  · rw [if_neg h, if_neg h]

theorem fsFinddirVia_run (call : DirHook δ) (node name' : Nat) (w : World δ) :
    fsFinddirVia call node name' w = if flags w.mem node &&& 1 ≠ 0 then .ret 0 (notDir w)
      else if finddirPtr w.mem node = 0 then .ret 0 w
      else call (finddirPtr w.mem node) node name' w := by
  rw [fsFinddirVia, checkDir_run, ofMem_bind_run]
  by_cases h : finddirPtr w.mem node = 0
  · rw [if_pos h, if_pos h]
    rfl
  · rw [if_neg h, if_neg h]

theorem IsDir.even {m : Mem} {node : Nat} (h : IsDir m node) : flags m node &&& 1 = 0 := by
  have hbits : flags m node % 8 = 2 := by
    rw [← Nat.and_two_pow_sub_one_eq_mod (flags m node) 3]
    exact h
  rw [Nat.and_one_is_mod]
  omega

/-- The test looks at the low bit, which no directory has and not every other inode. -/
theorem guards_iff [Inhabited δ] {m : Mem} {node : Nat} {hookPtr : Mem → Nat → Nat}
    {search : DirHook δ → Nat → Nat → Code δ Nat}
    (hsearch : ∀ call x (w : World δ), search call node x w =
      if flags w.mem node &&& 1 ≠ 0 then .ret 0 (notDir w)
      else if hookPtr w.mem node = 0 then .ret 0 w else call (hookPtr w.mem node) node x w) :
    Guards m node hookPtr search ↔ IsDir m node ∨ flags m node &&& 1 ≠ 0 := by
  constructor
  · intro hguards
    by_contra hno
    push Not at hno
    let w : World δ := ⟨⟨m, 0⟩, fun _ => ⟨0, 0⟩, fun _ => default, 0, 0, 0, 0, []⟩
    have hw : w.mem = m := rfl
    have hrun := hguards (fun _ _ _ => diverge) 0 w hw
    rw [hsearch, hw, if_neg (not_not_intro hno.2), if_neg hno.1] at hrun
    split at hrun
    · have herr : (0 : Nat) = ENOTDIR :=
        congrArg (fun w : World δ => w.k.errno) (Res.ret.inj hrun).2
      exact absurd herr (by decide)
    · exact absurd hrun nofun
  · intro h call x w hw
    rw [hsearch, hw]
    by_cases hdir : IsDir m node
    · rw [if_neg (not_not_intro hdir.even), if_pos hdir]
    · rw [if_pos (h.resolve_left hdir), if_neg hdir]

/-- Inodes of any type in memory. The hooks of the directories find the inode of a name in the
areas that hold the file systems; those of other inodes are any functions. -/
structure HookTree (call : DirHook δ) (m : Mem) (own : List (Nat × Nat)) (nodes : List Nat)
    (root : Nat) (child : Nat → List UInt8 → Nat) : Prop where
  rootIn : root ∈ nodes
  inode : ∀ x ∈ nodes, (x, inodeSize) ∈ own
  closed : ∀ x ∈ nodes, ∀ c, child x c = 0 ∨ child x c ∈ nodes
  null : ∀ x ∈ nodes, IsDir m x → finddirPtr m x = 0 → ∀ c, child x c = 0
  hook : ∀ x ∈ nodes, IsDir m x → finddirPtr m x ≠ 0 → ∀ (w : World δ) (a : Nat) (c : List UInt8),
    (∀ y, ¬ Outside own y → w.mem y = m y) → Str w.mem a c →
      ∃ t, call (finddirPtr m x) x a w = .ret (child x c) t ∧ t.mem = w.mem

/-- Of the names one is left at an inode that is no directory. -/
def Blocked (m : Mem) (child : Nat → List UInt8 → Nat) : Nat → List (List UInt8) → Prop
  | _, [] => False
  | x, c :: cs => x ≠ 0 ∧ (¬ IsDir m x ∨ Blocked m child (child x c) cs)

/-- The areas of a caller of `fs_lookup`: its path, the separator and what the tree is made of. -/
def callerAreas (own : List (Nat × Nat)) (path sep : Nat) (s : List UInt8) : List (Nat × Nat) :=
  (path, s.length + 1) :: (sep, 2) :: own

/-- NULL and ENOTDIR for every path with a component behind an inode that is no directory. -/
def StopsAtFiles (call : DirHook δ) (m : Mem) (own : List (Nat × Nat)) (root : Nat)
    (child : Nat → List UInt8 → Nat) : Prop :=
  ∀ (hf fuel path sep old : Nat) (s : List UInt8) (bs : List Blk) (w : World δ)
    (l : List (Nat × Nat)), (∀ y, ¬ Outside own y → w.mem y = m y) →
    PathReady ⟨Kmalloc.kmalloca hf, Kmalloc.kfree⟩ hf (callerAreas own path sep s) root path sep s
      bs w → s.length < 2147483648 → s.length + 1 < fuel → RunsFrom s [47] 0 l →
    Blocked m child root (l.map (text s)) →
    ∃ r t, fsLookupVia (fsFinddirVia call) ⟨Kmalloc.kmalloca hf, Kmalloc.kfree⟩ fuel root sep path
      old w = .ret (0, r) t ∧ t.k.errno = ENOTDIR

/-- Nothing but directories is searched, by `fs_finddir`, `fs_readdir` and `fs_lookup`. -/
def OnlyDirectories (call : DirHook δ) (m : Mem) (own : List (Nat × Nat)) (nodes : List Nat)
    (root : Nat) (child : Nat → List UInt8 → Nat) : Prop :=
  (∀ x ∈ nodes, Guards (δ := δ) m x finddirPtr fsFinddirVia ∧
    Guards (δ := δ) m x readdirPtr fsReaddirVia) ∧
  StopsAtFiles call m own root child

/-- A step from a directory leads to the inode of the name, one from anything else to NULL. -/
def Guarded (m : Mem) (child : Nat → List UInt8 → Nat) (x : Nat × Nat) (c : List UInt8)
    (y : Nat × Nat) : Prop :=
  if IsDir m x.1 then y.1 = child x.1 c else y = (0, ENOTDIR)

theorem Walk.of_null {Step : Nat × Nat → List UInt8 → Nat × Nat → Prop} {x y : Nat × Nat}
    {cs : List (List UInt8)} (h : Walk Step x cs y) (h0 : x.1 = 0) : y = x := by
  cases cs with
  | nil => exact h
  | cons c cs => exact (if_pos h0).mp h

theorem Walk.blocked {m : Mem} {child : Nat → List UInt8 → Nat} {x y : Nat × Nat}
    {cs : List (List UInt8)} (h : Walk (Guarded m child) x cs y) (hb : Blocked m child x.1 cs) :
    y = (0, ENOTDIR) := by
  induction cs generalizing x with
  | nil => exact hb.elim
  | cons c cs ih =>
    obtain ⟨hne, hcase⟩ := hb
    obtain ⟨z, hz, hwalk⟩ := (if_neg hne).mp h
    by_cases hdir : IsDir m x.1
    · have hchild : z.1 = child x.1 c := (if_pos hdir).mp hz
      exact ih hwalk (hchild ▸ hcase.resolve_left (not_not_intro hdir))
    · obtain rfl : z = (0, ENOTDIR) := (if_neg hdir).mp hz
      exact hwalk.of_null rfl

section
variable {call : DirHook δ} {m : Mem} {own : List (Nat × Nat)} {nodes : List Nat} {root : Nat}
  {child : Nat → List UInt8 → Nat}

theorem HookTree.same (h : HookTree call m own nodes root child) {m' : Mem}
    (hm : ∀ y, ¬ Outside own y → m' y = m y) {x : Nat} (hx : x ∈ nodes) :
    flags m' x = flags m x ∧ finddirPtr m' x = finddirPtr m x := by
  have hin : ∀ y, x ≤ y → y < x + 76 → m' y = m y :=
    fun y h1 h2 => hm y (not_outside.mpr ⟨(x, 76), h.inode x hx, h1, h2⟩)
  exact ⟨by rw [flags, flags, hin (x + 32) (by omega) (by omega)],
    load32_congr fun y h1 h2 => hin y (by omega) (by omega)⟩

theorem HookTree.searches (h : HookTree call m own nodes root child)
    (hodd : ∀ x ∈ nodes, IsDir m x ∨ flags m x &&& 1 ≠ 0) {m' : Mem}
    (hm : ∀ y, ¬ Outside own y → m' y = m y) {areas : List (Nat × Nat)} (hown : own ⊆ areas) :
    Searches (fsFinddirVia call) m' areas nodes (Guarded m child) := by
  intro w node a c hw hnode hc
  have hkept : ∀ y, ¬ Outside own y → w.mem y = m y := fun y hy => by
    obtain ⟨r, hr, hin⟩ := not_outside.mp hy
    exact (hw y (not_outside.mpr ⟨r, hown hr, hin⟩)).trans (hm y hy)
  obtain ⟨hflags, hhook⟩ := h.same hkept hnode
  rw [fsFinddirVia_run, hflags, hhook]
  by_cases hdir : IsDir m node
  · rw [if_neg (not_not_intro hdir.even)]
    by_cases h0 : finddirPtr m node = 0
    · have hnone := h.null node hnode hdir h0 c
      rw [if_pos h0]
      exact ⟨0, w, rfl, rfl, (if_pos hdir).mpr hnone.symm, Or.inl rfl⟩
    · obtain ⟨t, hrun, hmem⟩ := h.hook node hnode hdir h0 w a c hkept hc
      rw [if_neg h0]
      exact ⟨child node c, t, hrun, hmem, (if_pos hdir).mpr rfl, h.closed node hnode c⟩
  · rw [if_pos ((hodd node hnode).resolve_left hdir)]
    exact ⟨0, notDir w, rfl, rfl, (if_neg hdir).mpr rfl, Or.inl rfl⟩

/-- The components in front of the first one behind a file are found in directories, and that one
is not searched for. -/
theorem HookTree.stops (h : HookTree call m own nodes root child)
    (hodd : ∀ x ∈ nodes, IsDir m x ∨ flags m x &&& 1 ≠ 0) :
    StopsAtFiles call m own root child := by
  intro hf fuel path sep old s bs w l hw hr h31 hfuel hl hb
  have hcomp : ∃ c ∈ s, c ≠ 47 := by
    cases l with
    | nil => exact hb.elim
    | cons x l =>
      have hmax := ((hl.mem x.1 x.2).mp (List.mem_cons_self ..)).1
      simpa using (exists_token (d := [47])).mp ⟨x.1, x.2, hmax⟩
  have hpos : 0 < s.length := hcomp.elim fun c hc => List.length_pos_of_mem hc.1
  have hown : own ⊆ callerAreas own path sep s :=
    fun r hr => List.mem_cons_of_mem _ (List.mem_cons_of_mem _ hr)
  obtain ⟨l', e, y, r, t, hl', hrun, hwalk, -⟩ :=
    hr.walks (h.searches hodd hw hown) h.rootIn hpos h31 hfuel old hcomp
  obtain rfl := hl.unique hl'
  have heq := hwalk.blocked hb
  exact ⟨r, t, by rw [hrun, (Prod.mk.inj heq).1], (Prod.mk.inj heq).2⟩

/-- Exactly the trees in which every inode that is no directory has an odd type are searched in
directories only. -/
theorem onlyDirectories_iff [Inhabited δ] (h : HookTree call m own nodes root child) :
    OnlyDirectories call m own nodes root child ↔
      ∀ x ∈ nodes, IsDir m x ∨ flags m x &&& 1 ≠ 0 := by
  constructor
  · intro honly x hx
    exact (guards_iff (fsFinddirVia_run · x)).mp (honly.1 x hx).1
  · intro hodd
    refine ⟨fun x hx => ⟨?_, ?_⟩, h.stops hodd⟩
    · exact (guards_iff (fsFinddirVia_run · x)).mpr (hodd x hx)
    · exact (guards_iff (fsReaddirVia_run · x)).mpr (hodd x hx)

end

/-- A root directory with one entry `d`, whose flags are `bits`; both have a hook at one address. -/
def oneEntry (bits : Nat) : Mem :=
  let m : Mem := ⟨fun _ => 0⟩
  let m := setFlags m 0x100000 (FS_DIR + FS_MNT)
  let m := setFinddir m 0x100000 0x10100
  let m := setFlags m 0x100100 bits
  setFinddir m 0x100100 0x10100

/-- The hook finds `d` in the root and nothing elsewhere. -/
def oneHook : DirHook Unit := fun _ node a w =>
  .ret (if node = 0x100000 ∧ w.mem a = 100 ∧ w.mem (a + 1) = 0 then 0x100100 else 0) w

def oneChild (node : Nat) (c : List UInt8) : Nat :=
  if node = 0x100000 ∧ c = [100] then 0x100100 else 0

theorem str_single {m : Mem} {a : Nat} {c : List UInt8} (h : Str m a c) :
    (m a = 100 ∧ m (a + 1) = 0) ↔ c = [100] := by
  cases c with
  | nil =>
    have h0 : m a = 0 := h
    simp [h0]
  | cons b c =>
    obtain ⟨hb, -, hc⟩ := h
    cases c with
    | nil =>
      have h0 : m (a + 1) = 0 := hc
      simp [hb, h0]
    | cons b' c => simp [hc.1, hc.2.1]

theorem oneEntry_tree {b : Nat}
    (hptr : ∀ x ∈ [0x100000, 0x100100], finddirPtr (oneEntry b) x ≠ 0) :
    HookTree oneHook (oneEntry b) [(0x100000, 76), (0x100100, 76)] [0x100000, 0x100100] 0x100000
      oneChild := by
  refine ⟨by decide, by decide, fun x _ c => ?_, fun x hx _ h0 c => ?_,
    fun x _ _ _ w a c _ hc => ⟨w, ?_, rfl⟩⟩
  · simp only [oneChild]
    split
    · exact Or.inr (by decide)
    · exact Or.inl rfl
  · exact absurd h0 (hptr x hx)
  · simp only [oneHook, oneChild, str_single hc]

theorem onlyDirectories_iff_file :
    OnlyDirectories oneHook (oneEntry FS_FILE) [(0x100000, 76), (0x100100, 76)]
        [0x100000, 0x100100] 0x100000 oneChild ↔
      ∀ x ∈ [0x100000, 0x100100],
        IsDir (oneEntry FS_FILE) x ∨ flags (oneEntry FS_FILE) x &&& 1 ≠ 0 :=
  onlyDirectories_iff (oneEntry_tree (by decide +kernel))

/-- The hook of a block device is called. -/
theorem onlyDirectories_fails : ¬ ∀ (call : DirHook Unit) (m : Mem) (own : List (Nat × Nat))
    (nodes : List Nat) (root : Nat) (child : Nat → List UInt8 → Nat),
    HookTree call m own nodes root child → OnlyDirectories call m own nodes root child := by
  intro hclaim
  have honly := hclaim _ _ _ _ _ _ (oneEntry_tree (b := FS_BLK) (by decide +kernel))
  have hguards := (honly.1 0x100100 (by decide)).1
  exact absurd ((guards_iff (fsFinddirVia_run · 0x100100)).mp hguards) (by decide +kernel)

end Foos.Fs
