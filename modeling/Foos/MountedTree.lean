import Foos.Lookup

/-! The whole tree that `ramfs_init` mounts, files and devices, and where `fs_lookup` leads in
it. -/
namespace Foos.Fs
open Program ByteMemory Word32 CString Libc Kmalloc MaximalRuns

variable {δ : Type}

/-- What a path can name: the files and the devices are counted from zero. -/
inductive Target where
  | root
  | file (i : Nat)
  | devices
  | device (i : Nat)
deriving DecidableEq

section
variable (files : List Header) (devs : List (Device δ))

/-- The entry of that name: the files come before the directory of devices. -/
def Target.find : Target → List UInt8 → Option Target
  | .root, c =>
    match files.findIdx? fun f => f.name == c with
    | some i => some (.file i)
    | none => if c = devName then some .devices else none
  | .devices, c => (devs.findIdx? fun d => d.name == c).map .device
  | .file _, _ => none
  | .device _, _ => none

/-- One name after the other. -/
def Target.follow : Target → List (List UInt8) → Option Target
  | t, [] => some t
  | t, c :: cs => (t.find files devs c).bind fun u => u.follow cs

def Target.InRange : Target → Prop
  | .file i => i < files.length
  | .device i => i < devs.length
  | _ => True

/-- Where its inode is, with the root directory at `root`, its entries at `p` and those of the
devices at `q`. -/
def Target.node (files : List Header) (root p q : Nat) : Target → Nat
  | .root => root
  | .file i => entry p i
  | .devices => entry p files.length
  | .device i => entry q i

def mountedDir (root p q : Nat) : Listing := fun x =>
  if x = root then some ((rootNames files).mapIdx fun i s => (s, entry p i))
  else if x = entry p files.length then some (devs.mapIdx fun i d => (d.name, entry q i))
  else none

def mountedNodes (root p q : Nat) : List Nat :=
  root :: (List.range (files.length + 1)).map (entry p) ++ (List.range devs.length).map (entry q)

/-- The three areas of these inodes. -/
def treeAreas (root p q : Nat) : List (Nat × Nat) :=
  [(root, 76), (p, (files.length + 1) * 76), (q, devs.length * 76)]

end

/-- The tree is in memory. -/
structure MountedAt (S : System δ) (files : List Header) (root p q : Nat) (m : Mem) : Prop where
  rootPos : root ≠ 0
  filesPos : p ≠ 0
  devsPos : q ≠ 0
  apart : AllApart (treeAreas files S.devs root p q)
  rootDir : RootDir S m root p
  rootImpl : impl m root = files.length + 1
  file : ∀ i f, files[i]? = some f → FileEntry S m (entry p i) f
  devices : DevDir S m (entry p files.length) q
  hooks : DevHooks S m (entry p files.length)

/-- The inode is what the target says. -/
def Target.Stands (S : System δ) (files : List Header) (m : Mem) (node : Nat) : Target → Prop
  | .root => Str m (name node) ramdiskName ∧ flags m node = FS_DIR
  | .file i => ∃ f, files[i]? = some f ∧ FileEntry S m node f
  | .devices => Str m (name node) devName ∧ flags m node = FS_DIR
  | .device i => ∃ dev, S.devs[i]? = some dev ∧ DeviceInode S dev m node i

/-- The first entry of a name is found at the first index of the name. -/
theorem find_mapIdx {α β : Type} [BEq β] (l : List α) (f : α → β) (g : Nat → Nat) (c : β) :
    (((l.mapIdx fun i a => (f a, g i)).find? fun e => e.1 == c).map Prod.snd) =
      (l.findIdx? fun a => f a == c).map g := by
  induction l generalizing g with
  | nil => rfl
  | cons a l ih =>
    rw [List.mapIdx_cons, List.find?_cons, List.findIdx?_cons]
    cases f a == c with
    | true => rfl
    | false =>
      simp only [Bool.false_eq_true, if_false, Option.map_map]
      exact ih fun i => g (i + 1)

section
variable {S : System δ} {files : List Header} {devs : List (Device δ)} {root p q : Nat}
  {m m' : Mem} {t u : Target} {c : List UInt8}

theorem Target.find_inRange (h : t.find files devs c = some u) : u.InRange files devs := by
  cases t with
  | root =>
    simp only [Target.find] at h
    cases hf : files.findIdx? fun f => f.name == c with
    | some i =>
      rw [hf] at h
      obtain rfl := Option.some.inj h
      exact (List.findIdx?_eq_some_iff_getElem.mp hf).1
    | none =>
      rw [hf] at h
      by_cases hc : c = devName
      · obtain rfl := Option.some.inj ((if_pos hc).symm.trans h)
        trivial
      · exact absurd ((if_neg hc).symm.trans h) nofun
  | devices =>
    obtain ⟨i, hi, rfl⟩ := Option.map_eq_some_iff.mp h
    exact (List.findIdx?_eq_some_iff_getElem.mp hi).1
  | file i => cases h
  | device i => cases h

/-- The names of the root directory in their order. -/
theorem rootNames_findIdx (files : List Header) (c : List UInt8) :
    (rootNames files).findIdx? (fun s => s == c) =
      match files.findIdx? fun f => f.name == c with
      | some i => some i
      | none => if c = devName then some files.length else none := by
  rw [rootNames, List.findIdx?_append, List.findIdx?_map]
  have hcomp : ((fun s => s == c) ∘ Header.name) = fun f : Header => f.name == c := rfl
  rw [hcomp]
  cases files.findIdx? fun f => f.name == c with
  | some i => rfl
  | none =>
    by_cases hc : c = devName
    · simp [List.findIdx?_cons, hc]
    · have hne : (devName == c) = false := beq_eq_false_iff_ne.mpr fun h => hc h.symm
      simp [List.findIdx?_cons, hne, hc]

theorem mem_mountedNodes {x : Nat} : x ∈ mountedNodes files devs root p q ↔
    ∃ t : Target, t.InRange files devs ∧ t.node files root p q = x := by
  simp only [mountedNodes, List.cons_append, List.mem_cons, List.mem_append, List.mem_map,
    List.mem_range]
  constructor
  · intro h
    cases h with
    | inl h => exact ⟨.root, trivial, h.symm⟩
    | inr h =>
      cases h with
      | inl h =>
        obtain ⟨i, hi, rfl⟩ := h
        by_cases hlt : i < files.length
        · exact ⟨.file i, hlt, rfl⟩
        · obtain rfl : i = files.length := by omega
          exact ⟨.devices, trivial, rfl⟩
      | inr h =>
        obtain ⟨i, hi, rfl⟩ := h
        exact ⟨.device i, hi, rfl⟩
  · intro ⟨t, ht, hx⟩
    cases t with
    | root => exact Or.inl hx.symm
    | file i => exact Or.inr (Or.inl ⟨i, Nat.lt_succ_of_lt ht, hx⟩)
    | devices => exact Or.inr (Or.inl ⟨files.length, Nat.lt_succ_self _, hx⟩)
    | device i => exact Or.inr (Or.inr ⟨i, ht, hx⟩)

/-- An inode of the tree lies in one of the areas. -/
theorem node_area {x : Nat} (hx : x ∈ mountedNodes files devs root p q) :
    ∃ r ∈ treeAreas files devs root p q, r.1 ≤ x ∧ x + 76 ≤ r.1 + r.2 := by
  obtain ⟨t, ht, rfl⟩ := mem_mountedNodes.mp hx
  cases t with
  | root => exact ⟨(root, 76), by simp [treeAreas], Nat.le_refl _, Nat.le_refl _⟩
  | file i =>
    simp only [Target.InRange, Target.node, entry] at ht ⊢
    exact ⟨(p, (files.length + 1) * 76), by simp [treeAreas], by omega, by omega⟩
  | devices =>
    simp only [Target.node, entry]
    exact ⟨(p, (files.length + 1) * 76), by simp [treeAreas], by omega, by omega⟩
  | device i =>
    simp only [Target.InRange, Target.node, entry] at ht ⊢
    exact ⟨(q, devs.length * 76), by simp [treeAreas], by omega, by omega⟩

theorem mem_tree {x y : Nat} (hx : x ∈ mountedNodes files devs root p q) (h1 : x ≤ y)
    (h2 : y < x + 76) : ¬ Outside (treeAreas files devs root p q) y := by
  obtain ⟨r, hr, h3, h4⟩ := node_area hx
  exact not_outside.mpr ⟨r, hr, Nat.le_trans h3 h1, Nat.lt_of_lt_of_le h2 h4⟩

theorem MountedAt.congr (h : MountedAt S files root p q m)
    (hm : ∀ y, ¬ Outside (treeAreas files S.devs root p q) y → m' y = m y) :
    MountedAt S files root p q m' := by
  have hroot : ∀ y, root ≤ y → y < root + 76 → m' y = m y := fun y h1 h2 =>
    hm y (mem_tree (mem_mountedNodes.mpr ⟨.root, trivial, rfl⟩) h1 h2)
  have hdev : ∀ y, entry p files.length ≤ y → y < entry p files.length + 76 → m' y = m y :=
    fun y h1 h2 => hm y (mem_tree (mem_mountedNodes.mpr ⟨.devices, trivial, rfl⟩) h1 h2)
  have hload : ∀ k, k + 4 ≤ 76 → load32 m' (entry p files.length + k) =
      load32 m (entry p files.length + k) := fun k hk =>
    load32_congr fun y h1 h2 => hdev y (by omega) (by omega)
  refine ⟨h.rootPos, h.filesPos, h.devsPos, h.apart,
    h.rootDir.congr fun y h1 h2 _ => hroot y h1 h2, ?_, fun i f hf => ?_,
    h.devices.congr hdev fun y h1 h2 => ?_, ⟨(hload 36 (by omega)).trans h.hooks.size,
      (hload 64 (by omega)).trans h.hooks.readdirPtr,
      (hload 68 (by omega)).trans h.hooks.finddirPtr⟩⟩
  · exact (load32_congr fun y h1 h2 => hroot y (by omega) (by omega)).trans h.rootImpl
  · have hi : i < files.length := (List.getElem?_eq_some_iff.mp hf).1
    exact (h.file i f hf).congr fun y h1 h2 =>
      hm y (mem_tree (mem_mountedNodes.mpr ⟨.file i, hi, rfl⟩) h1 h2)
  · exact hm y (not_outside.mpr ⟨(q, S.devs.length * 76), by simp [treeAreas], h1, h2⟩)

/-- The inodes are where no other is. -/
theorem MountedAt.entries_apart (h : MountedAt S files root p q m) :
    (∀ i, i ≤ files.length → entry p i ≠ root) ∧ (∀ i, i < S.devs.length → entry q i ≠ root) ∧
      ∀ i, i < S.devs.length → entry q i ≠ entry p files.length := by
  have hap := h.apart
  simp only [AllApart, treeAreas, List.pairwise_cons, List.mem_cons, List.not_mem_nil, or_false,
    forall_eq_or_imp, forall_eq] at hap
  simp only [entry]
  refine ⟨fun i hi => ?_, fun i hi => ?_, fun i hi => ?_⟩ <;> omega

theorem MountedAt.dir_root (_ : MountedAt S files root p q m) :
    mountedDir files S.devs root p q root =
      some ((rootNames files).mapIdx fun i s => (s, entry p i)) := if_pos rfl

theorem MountedAt.dir_devices (h : MountedAt S files root p q m) :
    mountedDir files S.devs root p q (entry p files.length) =
      some (S.devs.mapIdx fun i d => (d.name, entry q i)) := by
  rw [mountedDir, if_neg (h.entries_apart.1 _ (Nat.le_refl _)), if_pos rfl]

theorem MountedAt.dir_file (h : MountedAt S files root p q m) {i : Nat} (hi : i < files.length) :
    mountedDir files S.devs root p q (entry p i) = none := by
  have hne : entry p i ≠ entry p files.length := by
    simp only [entry]
    omega
  rw [mountedDir, if_neg (h.entries_apart.1 _ hi.le), if_neg hne]

theorem MountedAt.dir_device (h : MountedAt S files root p q m) {i : Nat}
    (hi : i < S.devs.length) : mountedDir files S.devs root p q (entry q i) = none := by
  rw [mountedDir, if_neg (h.entries_apart.2.1 i hi), if_neg (h.entries_apart.2.2 i hi)]

/-- Only the root and the directory of devices are directories. -/
theorem MountedAt.dir_cases (h : MountedAt S files root p q m) {x : Nat}
    {es : List (List UInt8 × Nat)} (hes : mountedDir files S.devs root p q x = some es) :
    x = root ∧ es = (rootNames files).mapIdx (fun i s => (s, entry p i)) ∨
      x = entry p files.length ∧ es = S.devs.mapIdx fun i d => (d.name, entry q i) := by
  by_cases hroot : x = root
  · subst hroot
    exact Or.inl ⟨rfl, Option.some.inj (hes.symm.trans h.dir_root)⟩
  · by_cases hdev : x = entry p files.length
    · subst hdev
      exact Or.inr ⟨rfl, Option.some.inj (hes.symm.trans h.dir_devices)⟩
    · rw [mountedDir, if_neg hroot, if_neg hdev] at hes
      exact absurd hes nofun

/-- A step in the directories is a step among the targets. -/
theorem MountedAt.child (h : MountedAt S files root p q m) (ht : t.InRange files S.devs)
    (c : List UInt8) : child (mountedDir files S.devs root p q) (t.node files root p q) c =
      ((t.find files S.devs c).map (Target.node files root p q)).getD 0 := by
  unfold Fs.child
  cases t with
  | root =>
    rw [Target.node, h.dir_root]
    have hfind := find_mapIdx (rootNames files) id (entry p) c
    simp only [id_eq, rootNames_findIdx] at hfind
    simp only [Target.find, hfind]
    cases files.findIdx? fun f => f.name == c with
    | some i => rfl
    | none =>
      by_cases hc : c = devName
      · simp only [if_pos hc]
        rfl
      · simp only [if_neg hc]
        rfl
  | devices =>
    rw [Target.node, h.dir_devices]
    simp only [find_mapIdx S.devs Device.name (entry q) c, Target.find, Option.map_map]
    rfl
  | file i =>
    rw [Target.node, h.dir_file ht]
    rfl
  | device i =>
    rw [Target.node, h.dir_device ht]
    rfl

theorem MountedAt.node_pos (h : MountedAt S files root p q m) (t : Target) :
    t.node files root p q ≠ 0 := by
  have hp := h.filesPos
  have hq := h.devsPos
  cases t with
  | root => exact h.rootPos
  | file i =>
    simp only [Target.node, entry]
    omega
  | devices =>
    simp only [Target.node, entry]
    omega
  | device i =>
    simp only [Target.node, entry]
    omega

/-- Following names in memory is following them among the targets, with NULL for nothing. -/
theorem MountedAt.resolve (h : MountedAt S files root p q m) (ht : t.InRange files S.devs)
    (cs : List (List UInt8)) :
    resolve (mountedDir files S.devs root p q) (t.node files root p q) cs =
      ((t.follow files S.devs cs).map (Target.node files root p q)).getD 0 := by
  induction cs generalizing t with
  | nil => rfl
  | cons c cs ih =>
    rw [resolve_cons _ (h.node_pos t), h.child ht, Target.follow]
    cases hf : t.find files S.devs c with
    | none => exact resolve_null _ cs
    | some u => exact ih (Target.find_inRange hf)

theorem MountedAt.treeAt (h : MountedAt S files root p q m) :
    TreeAt S m (mountedDir files S.devs root p q) (mountedNodes files S.devs root p q) root := by
  have hnode : ∀ t : Target, t.InRange files S.devs →
      t.node files root p q ∈ mountedNodes files S.devs root p q :=
    fun t ht => mem_mountedNodes.mpr ⟨t, ht, rfl⟩
  obtain ⟨hfiles, hdevs, -⟩ := h.entries_apart
  refine ⟨hnode .root trivial, fun x hx => ?_, fun x hx hes => ?_, fun x hx es hes => ?_,
    fun x hx es hes => ?_, fun x hx es hes => ?_, fun x hx es hes i e he => ?_,
    fun x hx es hes e he => ?_⟩
  · obtain ⟨t, -, rfl⟩ := mem_mountedNodes.mp hx
    exact h.node_pos t
  · obtain ⟨t, ht, rfl⟩ := mem_mountedNodes.mp hx
    cases t with
    | root => exact absurd (h.dir_root.symm.trans hes) nofun
    | devices => exact absurd (h.dir_devices.symm.trans hes) nofun
    | file i =>
      refine Or.inl ?_
      rw [Target.node, (h.file i _ (List.getElem?_eq_getElem ht)).flags]
      decide
    | device i =>
      refine Or.inl ?_
      rw [Target.node, (h.devices.made i _ (List.getElem?_eq_getElem ht)).flags]
      decide
  · obtain ⟨rfl, -⟩ | ⟨rfl, -⟩ := h.dir_cases hes
    · rw [h.rootDir.flags]
      decide
    · rw [h.devices.flags]
      decide
  · obtain ⟨rfl, -⟩ | ⟨rfl, -⟩ := h.dir_cases hes
    · exact h.rootDir.finddirPtr
    · exact h.hooks.finddirPtr
  · obtain ⟨rfl, rfl⟩ | ⟨rfl, rfl⟩ := h.dir_cases hes
    · rw [h.rootImpl, List.length_mapIdx, rootNames_length]
    · rw [h.devices.impl, List.length_mapIdx]
      rfl
  · obtain ⟨rfl, rfl⟩ | ⟨rfl, rfl⟩ := h.dir_cases hes
    · rw [List.getElem?_mapIdx] at he
      obtain ⟨s, hs, rfl⟩ := Option.map_eq_some_iff.mp he
      rw [h.rootDir.ptr]
      cases rootNames_cases hs with
      | inl hfile =>
        obtain ⟨f, hf, rfl⟩ := hfile
        have hi : i < files.length := (List.getElem?_eq_some_iff.mp hf).1
        exact ⟨rfl, hnode (.file i) hi, Nat.lt_succ_of_le f.short, (h.file i f hf).name⟩
      | inr hlast =>
        obtain ⟨rfl, rfl⟩ := hlast
        exact ⟨rfl, hnode .devices trivial, show devName.length < 32 by decide, h.devices.name⟩
    · rw [List.getElem?_mapIdx] at he
      obtain ⟨dev, hdev, rfl⟩ := Option.map_eq_some_iff.mp he
      have hi : i < S.devs.length := (List.getElem?_eq_some_iff.mp hdev).1
      rw [h.devices.ptr]
      exact ⟨rfl, hnode (.device i) hi, Nat.lt_of_lt_of_le dev.short (by decide),
        (h.devices.made i dev hdev).name⟩
  · obtain ⟨i, hi⟩ := List.getElem?_of_mem he
    obtain ⟨rfl, rfl⟩ | ⟨rfl, rfl⟩ := h.dir_cases hes
    · rw [List.getElem?_mapIdx] at hi
      obtain ⟨s, hs, rfl⟩ := Option.map_eq_some_iff.mp hi
      have hlt := (List.getElem?_eq_some_iff.mp hs).1
      rw [rootNames_length] at hlt
      exact hfiles i (Nat.le_of_lt_succ hlt)
    · rw [List.getElem?_mapIdx] at hi
      obtain ⟨dev, hdev, rfl⟩ := Option.map_eq_some_iff.mp hi
      exact hdevs i (List.getElem?_eq_some_iff.mp hdev).1

theorem MountedAt.stands (h : MountedAt S files root p q m) (ht : t.InRange files S.devs) :
    t.Stands S files m (t.node files root p q) := by
  cases t with
  | root => exact ⟨h.rootDir.name, h.rootDir.flags⟩
  | file i =>
    have hget := List.getElem?_eq_getElem ht
    exact ⟨_, hget, h.file i _ hget⟩
  | devices => exact ⟨h.devices.name, h.devices.flags⟩
  | device i =>
    have hget := List.getElem?_eq_getElem ht
    exact ⟨_, hget, h.devices.made i _ hget⟩

theorem Target.follow_inRange {cs : List (List UInt8)} (ht : t.InRange files devs)
    (h : t.follow files devs cs = some u) : u.InRange files devs := by
  induction cs generalizing t with
  | nil =>
    obtain rfl := Option.some.inj h
    exact ht
  | cons c cs ih =>
    obtain ⟨v, hv, hu⟩ := Option.bind_eq_some_iff.mp h
    exact ih (Target.find_inRange hv) hu

variable {areas : List (Nat × Nat)} {path sep hf fuel : Nat} {s : List UInt8} {bs : List Blk}
  {v : World δ}

theorem MountedAt.finddir_root (h : MountedAt S files root p q v.mem) {a : Nat} (hfuel : 32 ≤ fuel)
    (hc : Str v.mem a c) : fsFinddir fuel S root a v =
      .ret (((Target.root.find files S.devs c).map (Target.node files root p q)).getD 0) v :=
  (h.treeAt.finddir_dir h.treeAt.rootIn h.dir_root hfuel hc).trans
    (congrArg (fun x => Res.ret x v) (h.child (t := .root) trivial c))

/-- `fs_lookup` returns the inode of what the components of the path lead to, NULL when there is
no such entry. -/
def LeadsTo (fuel : Nat) (S : System δ) (files : List Header) (root p q sep path old : Nat)
    (s : List UInt8) (areas : List (Nat × Nat)) (v : World δ) : Prop :=
  ∃ l r t, RunsFrom s [47] 0 l ∧
    fsLookup fuel S root sep path old v =
      .ret (((Target.root.follow files S.devs (l.map (text s))).map
        (Target.node files root p q)).getD 0, r) t ∧
    (∀ u, Target.root.follow files S.devs (l.map (text s)) = some u →
      u.Stands S files t.mem (u.node files root p q)) ∧
    ∀ y, ¬ Outside areas y → t.mem y = v.mem y

/-- The lookup, and the heap behind it. -/
theorem MountedAt.lookup_run (h : MountedAt S files root p q v.mem)
    (hr : PathReady S.heap hf areas root path sep s bs v)
    (hin : ∀ r ∈ treeAreas files S.devs root p q, r ∈ areas) (hcomp : HasComponent s)
    (hfuel : s.length + 32 ≤ fuel) (old : Nat) :
    ∃ l r t, RunsFrom s [47] 0 l ∧
      fsLookup fuel S root sep path old v =
        .ret (((Target.root.follow files S.devs (l.map (text s))).map
          (Target.node files root p q)).getD 0, r) t ∧
      MountedAt S files root p q t.mem ∧ (∀ y, ¬ Outside areas y → t.mem y = v.mem y) ∧
      Returned (s.length + 1) bs t.mem := by
  have h32 : 32 ≤ fuel := by omega
  have hlen : s.length + 1 < fuel := by omega
  have hkept : ∀ {m : Mem}, (∀ y, ¬ Outside areas y → m y = v.mem y) →
      MountedAt S files root p q m := fun hm => h.congr fun y hy => hm y (by
    obtain ⟨r, hr, h1, h2⟩ := not_outside.mp hy
    exact not_outside.mpr ⟨r, hin r hr, h1, h2⟩)
  have hsearch : Searches (fsFinddir fuel S) v.mem areas (mountedNodes files S.devs root p q)
      (Descends (mountedDir files S.devs root p q)) := by
    intro w node a c hw hnode hc
    have htree := (hkept hw).treeAt
    obtain ⟨t, hfind, hmem⟩ := htree.fsFinddir (w := w) hnode h32 hc
    exact ⟨_, t, hfind, hmem, rfl, child_mem htree hnode c⟩
  obtain ⟨c, hc, -⟩ := hcomp.2
  have hpos : 0 < s.length := List.length_pos_of_ne_nil (List.ne_nil_of_mem hc)
  obtain ⟨l, e, y, r, t, hl, hrun, hwalk, hkeep, hback⟩ :=
    hr.walks hsearch h.treeAt.rootIn hpos hcomp.1 hlen old hcomp.2
  have hnode : y = ((Target.root.follow files S.devs (l.map (text s))).map
      (Target.node files root p q)).getD 0 :=
    hwalk.resolves.trans (h.resolve (t := .root) trivial _)
  refine ⟨l, r, t, hl, ?_, hkept hkeep, hkeep, hback⟩
  rw [fsLookup_via, hrun, hnode]

theorem MountedAt.leadsTo (h : MountedAt S files root p q v.mem)
    (hr : PathReady S.heap hf areas root path sep s bs v)
    (hin : ∀ r ∈ treeAreas files S.devs root p q, r ∈ areas) (hcomp : HasComponent s)
    (hfuel : s.length + 32 ≤ fuel) (old : Nat) :
    LeadsTo fuel S files root p q sep path old s areas v := by
  obtain ⟨l, r, t, hl, hrun, hmounted, hkeep, -⟩ := h.lookup_run hr hin hcomp hfuel old
  exact ⟨l, r, t, hl, hrun, fun u hu =>
    hmounted.stands (Target.follow_inRange (t := .root) trivial hu), hkeep⟩

end

end Foos.Fs
