import Foos.MountedFiles
import Foos.PathTree
import Foos.PathWalk

/-! `fs_lookup` of `libfs/wrap.c` on the directories of the ramdisk: a path leads to what its
components resolve to. -/
namespace Foos.Fs
open Program ByteMemory Word32 CString Libc Kmalloc MaximalRuns

variable {δ : Type}

/-- `while((ptr=strtok(NULL,file_separator))!=NULL && node!=NULL)` -/
def lookupLoop (fuel : Nat) (S : System δ) (sep : Nat) : Nat → Nat → Nat → Code δ (Nat × Nat)
  | 0, _, _ => diverge
  | n+1, node, old => do
    let r ← nextToken fuel sep 0 old
    if r.1 ≠ 0 ∧ node ≠ 0 then do
      let node ← fsFinddir fuel S node r.1
      lookupLoop fuel S sep n node r.2
    else pure (node, r.2)

/-- `fs_lookup` behind its copy of the path at `tmp`. -/
def lookupTokens (fuel : Nat) (S : System δ) (fsRoot sep path tmp old : Nat) :
    Code δ (Nat × Nat) := do
  let r ← nextToken fuel sep tmp old
  if r.1 = 0 then do
    Foos.kfree S.heap tmp
    let node ← fsFinddir fuel S fsRoot path
    pure (node, r.2)
  else do
    let node ← fsFinddir fuel S fsRoot r.1
    let r ← lookupLoop fuel S sep fuel node r.2
    Foos.kfree S.heap tmp
    pure r

/-- `fs_lookup(path)` with the globals `fs_root` and `file_separator` at their addresses. -/
def fsLookup (fuel : Nat) (S : System δ) (fsRoot sep path old : Nat) : Code δ (Nat × Nat) := do
  assert (fsRoot ≠ 0)
  assert (path ≠ 0)
  let n ← update fun w => (strlen fuel w.mem path).map fun n => (n, w)
  assert (0 < toInt n)
  let size := add32 n 1
  let tmp ← Foos.kmalloc S.heap size
  onMem fun m => memset m tmp 0 size
  update fun w => (strcpy fuel w.mem tmp path).map fun r => ((), w.setMem r.2)
  lookupTokens fuel S fsRoot sep path tmp old

theorem lookupLoop_via (fuel : Nat) (S : System δ) (sep n : Nat) : ∀ node old,
    lookupLoop fuel S sep n node old = lookupLoopVia (fsFinddir fuel S) fuel sep n node old := by
  induction n with
  | zero => exact fun _ _ => rfl
  | succ n ih =>
    intro node old
    simp only [lookupLoop, lookupLoopVia, ih]

/-- The lookup of the kernel is that with its `fs_finddir`. -/
theorem fsLookup_via (fuel : Nat) (S : System δ) (fsRoot sep path old : Nat) :
    fsLookup fuel S fsRoot sep path old =
      fsLookupVia (fsFinddir fuel S) S.heap fuel fsRoot sep path old := by
  simp only [fsLookup, fsLookupVia, lookupTokens, lookupTokensVia, lookupLoop_via]

/-- The node and `errno` after a search for the name in a directory. -/
def Descends (dir : Listing) (x : Nat × Nat) (c : List UInt8) (y : Nat × Nat) : Prop :=
  y.1 = child dir x.1 c

theorem Walk.resolves {dir : Listing} {x y : Nat × Nat} {cs : List (List UInt8)}
    (h : Walk (Descends dir) x cs y) : y.1 = resolve dir x.1 cs := by
  induction cs generalizing x with
  | nil => exact congrArg Prod.fst h
  | cons c cs ih =>
    by_cases h0 : x.1 = 0
    · have heq : y = x := (if_pos h0).mp h
      rw [heq, h0, resolve_null]
    · obtain ⟨z, hz, hwalk⟩ := (if_neg h0).mp h
      rw [ih hwalk, resolve_cons dir h0, show z.1 = child dir x.1 c from hz]

section
variable (fuel : Nat) (S : System δ)

theorem finddirFrom_unstopped (node name' i n : Nat) :
    Unstopped (finddirFrom fuel node name' i n : Code δ Nat) := by
  induction n generalizing i with
  | zero => exact unstopped_pure 0
  | succ n ih =>
    exact unstopped_bind (unstopped_update _) fun ret =>
      unstopped_ite (unstopped_read _) (ih (i + 1))

theorem fsFinddir_unstopped (node name' : Nat) : Unstopped (fsFinddir fuel S node name') := by
  refine unstopped_bind (unstopped_read _) fun bits => unstopped_ite ?_ ?_
  · exact unstopped_bind (unstopped_modify _) fun _ => unstopped_pure 0
  · refine unstopped_bind (unstopped_read _) fun hook => unstopped_ite (unstopped_pure 0) ?_
    refine unstopped_ite ?_ unstopped_diverge
    exact unstopped_bind (unstopped_read _) fun n => finddirFrom_unstopped fuel node name' 0 n

theorem nextToken_unstopped (sep str old : Nat) :
    Unstopped (nextToken fuel sep str old : Code δ (Nat × Nat)) := unstopped_update _

theorem lookupLoop_unstopped (sep n node old : Nat) :
    Unstopped (lookupLoop fuel S sep n node old) := by
  induction n generalizing node old with
  | zero => exact unstopped_diverge
  | succ n ih =>
    refine unstopped_bind (nextToken_unstopped fuel sep 0 old) fun r => ?_
    refine unstopped_ite ?_ (unstopped_pure _)
    exact unstopped_bind (fsFinddir_unstopped fuel S node r.1) fun node => ih node r.2

theorem lookupTokens_unstopped (fsRoot sep path tmp old : Nat) :
    Unstopped (lookupTokens fuel S fsRoot sep path tmp old) := by
  refine unstopped_bind (nextToken_unstopped fuel sep tmp old) fun r => unstopped_ite ?_ ?_
  · refine unstopped_bind (unstopped_update _) fun _ => ?_
    exact unstopped_bind (fsFinddir_unstopped fuel S fsRoot path) fun node => unstopped_pure _
  · refine unstopped_bind (fsFinddir_unstopped fuel S fsRoot r.1) fun node => ?_
    refine unstopped_bind (lookupLoop_unstopped fuel S sep fuel node r.2) fun r => ?_
    exact unstopped_bind (unstopped_update _) fun _ => unstopped_pure _

end

/-- No assertion of `fs_lookup` fails for a path whose length is a positive `int`. -/
theorem fsLookup_ne_halt {fuel fsRoot path : Nat} {s : List UInt8} {w : World δ}
    (hroot : fsRoot ≠ 0) (hpath : path ≠ 0) (hstr : Str w.mem path s) (hs : s ≠ [])
    (h31 : s.length < 2147483648) (hfuel : s.length < fuel) (S : System δ) (sep old : Nat)
    (t : World δ) : fsLookup fuel S fsRoot sep path old w ≠ .halt t := by
  have hlen : (update fun w : World δ => (strlen fuel w.mem path).map fun n => (n, w)) w =
      .ret s.length w := update_run (by rw [strlen_str hstr (by omega) hfuel]; rfl)
  have hint : 0 < toInt s.length := by
    have hpos := List.length_pos_of_ne_nil hs
    rw [toInt, if_pos h31]
    omega
  rw [fsLookup, bind_ret (assert_pass (by simpa using hroot) w),
    bind_ret (assert_pass (by simpa using hpath) w), bind_ret hlen,
    bind_ret (assert_pass (by simpa using hint) w)]
  refine unstopped_bind (unstopped_update _) (fun tmp => ?_) w t
  refine unstopped_bind (unstopped_modify _) fun _ => ?_
  refine unstopped_bind (unstopped_update _) fun _ => ?_
  exact lookupTokens_unstopped fuel S fsRoot sep path tmp old

section
variable {S : System δ} {dir : Listing} {nodes : List Nat} {root path sep hf fuel : Nat}
  {s : List UInt8} {bs : List Blk} {w : World δ}

/-- What the caller of `fs_lookup` sees: its path, the separator and the inodes of the tree. -/
def lookupAreas (nodes : List Nat) (path sep : Nat) (s : List UInt8) : List (Nat × Nat) :=
  (path, s.length + 1) :: (sep, 2) :: nodes.map fun x => (x, 76)

/-- A well-formed heap with room for the copy, on which the tree and the path are not part of
free memory. -/
structure Ready (S : System δ) (hf : Nat) (dir : Listing) (nodes : List Nat)
    (root path sep : Nat) (s : List UInt8) (bs : List Blk) (w : World δ) : Prop where
  heap : S.heap = ⟨Kmalloc.kmalloca hf, Kmalloc.kfree⟩
  blocks : Represents w.mem bs
  held : Held bs (lookupAreas nodes path sep s)
  above : ∀ r ∈ lookupAreas nodes path sep s, 12 ≤ r.1
  room : NoWrap w.mem (s.length + 1)
  fuel : bs.length < hf
  tree : TreeAt S w.mem dir nodes root
  str : Str w.mem path s
  set : Str w.mem sep [47]

/-- `fs_lookup` returns what the components of the path resolve to from the root on, and leaves
the path and the tree as they are. -/
def LooksUp (fuel : Nat) (S : System δ) (dir : Listing) (nodes : List Nat)
    (root sep path old : Nat) (s : List UInt8) (w : World δ) : Prop :=
  ∃ l r t, RunsFrom s [47] 0 l ∧
    fsLookup fuel S root sep path old w = .ret (resolve dir root (l.map (text s)), r) t ∧
    ∀ y, ¬ Outside (lookupAreas nodes path sep s) y → t.mem y = w.mem y

/-- The path has a character that is no separator, and its length is an `int`. -/
def HasComponent (s : List UInt8) : Prop := s.length < 2147483648 ∧ ∃ c ∈ s, c ≠ 47

instance (s : List UInt8) : Decidable (HasComponent s) := inferInstanceAs (Decidable (_ ∧ _))

theorem Ready.pathReady (h : Ready S hf dir nodes root path sep s bs w) :
    PathReady S.heap hf (lookupAreas nodes path sep s) root path sep s bs w :=
  ⟨h.heap, h.blocks, h.held, h.above, h.room, h.fuel, h.tree.nonzero root h.tree.rootIn,
    List.mem_cons_self .., List.mem_cons_of_mem _ (List.mem_cons_self ..), h.str, h.set⟩

theorem Ready.treeAt (h : Ready S hf dir nodes root path sep s bs w) {m : Mem}
    (hm : ∀ y, ¬ Outside (lookupAreas nodes path sep s) y → m y = w.mem y) :
    TreeAt S m dir nodes root :=
  h.tree.congr fun x hx y h1 h2 => hm y (not_outside.mpr ⟨(x, 76), List.mem_cons_of_mem _
    (List.mem_cons_of_mem _ (List.mem_map.mpr ⟨x, hx, rfl⟩)), h1, h2⟩)

theorem Ready.searches (h : Ready S hf dir nodes root path sep s bs w) (h32 : 32 ≤ fuel) :
    Searches (fsFinddir fuel S) w.mem (lookupAreas nodes path sep s) nodes (Descends dir) := by
  intro v node a c hv hnode hc
  have htree := h.treeAt hv
  obtain ⟨t, hfind, hmem⟩ := htree.fsFinddir (w := v) hnode h32 hc
  exact ⟨_, t, hfind, hmem, rfl, child_mem htree hnode c⟩

/-- A path with a component begins to be looked up at its first one. -/
theorem Ready.looks_up (h : Ready S hf dir nodes root path sep s bs w) (hpos : 0 < s.length)
    (h31 : s.length < 2147483648) (hfuel : s.length + 32 ≤ fuel) (old : Nat)
    (hcomp : ∃ c ∈ s, c ≠ 47) : LooksUp fuel S dir nodes root sep path old s w := by
  have h32 : 32 ≤ fuel := by omega
  have hlen : s.length + 1 < fuel := by omega
  obtain ⟨l, e, y, r, t, hl, hrun, hwalk, hkeep, -⟩ :=
    h.pathReady.walks (h.searches h32) h.tree.rootIn hpos h31 hlen old hcomp
  refine ⟨l, r, t, hl, ?_, hkeep⟩
  rw [fsLookup_via, hrun, show y = _ from hwalk.resolves]

/-- Without one the root is searched for the path itself. -/
theorem Ready.separators (h : Ready S hf dir nodes root path sep s bs w) (hpos : 0 < s.length)
    (h31 : s.length < 2147483648) (hfuel : s.length + 32 ≤ fuel) (old : Nat)
    (hsep : ∀ c ∈ s, c = 47) :
    ∃ r t, fsLookup fuel S root sep path old w = .ret (child dir root s, r) t := by
  have h32 : 32 ≤ fuel := by omega
  have hlen : s.length + 1 < fuel := by omega
  obtain ⟨r, t, hrun, hkeep⟩ :=
    h.pathReady.separators (fsFinddir fuel S) hpos h31 hlen old hsep
  obtain ⟨u, hfind, -⟩ := (h.treeAt hkeep).fsFinddir (w := t) h.tree.rootIn h32
    (h.pathReady.strings hkeep).1
  refine ⟨r, u, ?_⟩
  rw [fsLookup_via, hrun, bind_ret hfind]
  rfl

/-- Without a component the search in the root does not end at the root. -/
theorem Ready.component (h : Ready S hf dir nodes root path sep s bs w) (hs : s ≠ [])
    (hfuel : s.length + 32 ≤ fuel) {old : Nat}
    (hlooks : LooksUp fuel S dir nodes root sep path old s w) : HasComponent s := by
  have hpos : 0 < s.length := List.length_pos_of_ne_nil hs
  obtain ⟨l, r, t, hl, hrun, -⟩ := hlooks
  have h31 : s.length < 2147483648 := by
    by_contra hbig
    rw [fsLookup_via, h.pathReady.halts (Nat.le_of_not_lt hbig) (by omega)] at hrun
    exact absurd hrun nofun
  refine ⟨h31, ?_⟩
  by_contra hno
  push Not at hno
  obtain ⟨r', t', hrun'⟩ := h.separators hpos h31 hfuel old hno
  have hnil : l = [] := by
    refine List.eq_nil_iff_forall_not_mem.mpr fun x hx => ?_
    obtain ⟨c, hc, hne⟩ := exists_token.mp ⟨x.1, x.2, ((hl.mem x.1 x.2).mp hx).1⟩
    exact hne (List.mem_singleton.mpr (hno c hc))
  rw [hnil] at hrun
  have heq := (Res.ret.inj (hrun'.symm.trans hrun)).1
  exact h.tree.child_ne_root s (Prod.mk.inj heq).1

/-- `fs_lookup` resolves a path component by component exactly when it has one. -/
theorem fsLookup_iff (h : Ready S hf dir nodes root path sep s bs w) (hs : s ≠ [])
    (hfuel : s.length + 32 ≤ fuel) (old : Nat) :
    LooksUp fuel S dir nodes root sep path old s w ↔ HasComponent s :=
  ⟨h.component hs hfuel, fun hcomp =>
    h.looks_up (List.length_pos_of_ne_nil hs) hcomp.1 hfuel old hcomp.2⟩

end

/-- A root directory with one file, `a`, the separator, and the paths `/a` and `/`. -/
def smallTree : Mem :=
  let m : Mem := ⟨fun _ => 0⟩
  let m := setFlags m 0x100000 FS_DIR
  let m := setImpl m 0x100000 1
  let m := setFinddir m 0x100000 kernelLink.ramfsFinddir
  let m := setPtr m 0x100000 0x100100
  let m := putString m 0x100100 [97]
  let m := setFlags m 0x100100 FS_FILE
  let m := putString m 0x200000 [47]
  let m := putString m 0x200010 [47, 97]
  putString m 0x200020 [47]

def smallListing : Listing := fun x => if x = 0x100000 then some [([97], 0x100100)] else none

theorem smallTree_treeAt :
    TreeAt kernel smallTree smallListing [0x100000, 0x100100] 0x100000 := by
  have hroot : smallListing 0x100000 = some [([97], 0x100100)] := rfl
  have hfile : smallListing 0x100100 = none := rfl
  have hdir : ∀ x ∈ [0x100000, 0x100100], ∀ es, smallListing x = some es →
      x = 0x100000 ∧ es = [([97], 0x100100)] := by
    intro x hx es hes
    cases List.mem_cons.mp hx with
    | inl heq =>
      obtain rfl := heq
      exact ⟨rfl, (Option.some.inj (hroot.symm.trans hes)).symm⟩
    | inr hx =>
      rw [List.mem_singleton.mp hx, hfile] at hes
      exact absurd hes nofun
  refine ⟨by decide, by decide, fun x hx hes => ?_, fun x hx es hes => ?_, fun x hx es hes => ?_,
    fun x hx es hes => ?_, fun x hx es hes i e he => ?_, fun x hx es hes e he => ?_⟩
  · cases List.mem_cons.mp hx with
    | inl heq =>
      obtain rfl := heq
      exact absurd (hroot.symm.trans hes) nofun
    | inr hx =>
      rw [List.mem_singleton.mp hx]
      exact Or.inl (by decide +kernel)
  all_goals obtain ⟨rfl, rfl⟩ := hdir x hx es hes
  · decide +kernel
  · decide +kernel
  · decide +kernel
  · cases i with
    | zero =>
      obtain rfl := Option.some.inj he
      exact ⟨by decide +kernel, by decide, by decide, by decide +kernel⟩
    | succ i => exact absurd he (by simp)
  · rw [List.mem_singleton.mp he]
    decide

theorem smallTree_ready (path : Nat) (s : List UInt8) (hpath : 12 ≤ path)
    (hbelow : path + (s.length + 1) ≤ heapBase) (hshort : s.length ≤ 7)
    (hstr : Str smallTree path s) :
    Ready kernel 8 smallListing [0x100000, 0x100100] 0x100000 path 0x200000 s [⟨false, 0⟩]
      (boot smallTree) := by
  have hpristine : Pristine ⟨⟨smallTree, 0⟩, []⟩ := by
    refine ⟨fun y h1 _ => ?_, rfl⟩
    simp only [heapBase] at h1
    simp (disch := simp <;> omega) only [smallTree, setFlags, setImpl, setFinddir, setPtr,
      store32_outside, store8_ne, putString_outside]
  have hru : roundUp (s.length + 1) ≤ 8 := by
    rw [roundUp_eq (by omega)]
    omega
  refine ⟨rfl, hpristine.holds.heap, fun r hr => Or.inl ?_, fun r hr => ?_,
    ⟨by omega, Or.inr fun e he => ?_⟩, by decide, smallTree_treeAt, hstr, by decide +kernel,
    by decide, by decide +kernel⟩
  · simp only [lookupAreas, List.map_cons, List.map_nil, List.mem_cons, List.not_mem_nil,
      or_false] at hr
    rcases hr with rfl | rfl | rfl | rfl
    · exact hbelow
    all_goals decide
  · simp only [lookupAreas, List.map_cons, List.map_nil, List.mem_cons, List.not_mem_nil,
      or_false] at hr
    rcases hr with rfl | rfl | rfl | rfl
    · exact hpath
    all_goals decide
  · have hend : chainEnd 1 smallTree root = some 0x400010 := by decide +kernel
    have he' := EndsAt.eq_of_chainEnd hend he
    simp only [blockSiz]
    omega

theorem fsLookup_iff_file : LooksUp 40 kernel smallListing [0x100000, 0x100100] 0x100000 0x200000
    0x200010 0 [47, 97] (boot smallTree) :=
  (fsLookup_iff (smallTree_ready _ _ (by decide) (by decide) (by decide) (by decide +kernel)) (by simp)
    (by decide) 0).mpr (by decide)

/-- `/` is looked up as a name in the root directory, where there is none. -/
theorem fsLookup_fails : ¬ ∀ (fuel hf : Nat) (dir : Listing) (nodes : List Nat)
    (root path sep old : Nat) (s : List UInt8) (bs : List Blk) (w : World Unit),
    Ready kernel hf dir nodes root path sep s bs w → s ≠ [] → s.length + 32 ≤ fuel →
    LooksUp fuel kernel dir nodes root sep path old s w := by
  intro hclaim
  have hready := smallTree_ready 0x200020 [47] (by decide) (by decide)
    (by decide) (by decide +kernel)
  have hlooks := hclaim 40 8 _ _ _ _ _ 0 [47] _ _ hready (by simp) (by decide)
  exact absurd (hready.component (by simp) (by decide) hlooks) (by decide)

end Foos.Fs
