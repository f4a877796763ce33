import Foos.HeapLease
import Foos.Tokens
import Foos.Wrap

/-! Looking up a path with any `fs_finddir`: the components of the path are the tokens of a copy
on the heap, and each is searched for in what the ones before it lead to. -/
namespace Foos.Fs
open Program ByteMemory Word32 CString Libc Kmalloc MaximalRuns

variable {δ : Type}

/-- `strtok(str,sep)` with the static `old`, which is returned as well. -/
def nextToken (fuel sep str old : Nat) : Code δ (Nat × Nat) :=
  update fun w => (strtok fuel w.mem old str sep).map fun r => ((r.1, r.2.2), w.setMem r.2.1)

/-- `while((ptr=strtok(NULL,file_separator))!=NULL && node!=NULL)` -/
def lookupLoopVia (finddir : Nat → Nat → Code δ Nat) (fuel sep : Nat) :
    Nat → Nat → Nat → Code δ (Nat × Nat)
  | 0, _, _ => diverge
  | n+1, node, old => do
    let r ← nextToken fuel sep 0 old
    if r.1 ≠ 0 ∧ node ≠ 0 then do
      let node ← finddir node r.1
      lookupLoopVia finddir fuel sep n node r.2
    else pure (node, r.2)

/-- `fs_lookup` behind its copy of the path at `tmp`. -/
def lookupTokensVia (finddir : Nat → Nat → Code δ Nat) (h : Heap)
    (fuel fsRoot sep path tmp old : Nat) : Code δ (Nat × Nat) := do
  let r ← nextToken fuel sep tmp old
  if r.1 = 0 then do
    Foos.kfree h tmp
    let node ← finddir fsRoot path
    pure (node, r.2)
  else do
    let node ← finddir fsRoot r.1
    let r ← lookupLoopVia finddir fuel sep fuel node r.2
    Foos.kfree h tmp
    pure r

/-- `fs_lookup(path)` with the globals `fs_root` and `file_separator` at their addresses. -/
def fsLookupVia (finddir : Nat → Nat → Code δ Nat) (h : Heap) (fuel fsRoot sep path old : Nat) :
    Code δ (Nat × Nat) := do
  assert (fsRoot ≠ 0)
  assert (path ≠ 0)
  let n ← update fun w => (strlen fuel w.mem path).map fun n => (n, w)
  assert (0 < toInt n)
  let size := add32 n 1
  let tmp ← Foos.kmalloc h size
  onMem fun m => memset m tmp 0 size
  update fun w => (strcpy fuel w.mem tmp path).map fun r => ((), w.setMem r.2)
  lookupTokensVia finddir h fuel fsRoot sep path tmp old

/-- The maximal runs that begin at `q` or later, from left to right. -/
structure RunsFrom (s d : List UInt8) (q : Nat) (l : List (Nat × Nat)) : Prop where
  sorted : l.Pairwise fun x y => x.1 < y.1
  mem : ∀ i j, (i, j) ∈ l ↔ MaximalRun (IsDelim s d) s.length i j ∧ q ≤ i

theorem RunsFrom.cons {s d : List UInt8} {q i j t : Nat} {l : List (Nat × Nat)}
    (h : RunsFrom s d t l) (hrun : MaximalRun (IsDelim s d) s.length i j) (hit : i < t)
    (hnext : ∀ i' j', MaximalRun (IsDelim s d) s.length i' j' →
      (q ≤ i' ↔ (i', j') = (i, j) ∨ t ≤ i')) : RunsFrom s d q ((i, j) :: l) := by
  refine ⟨List.pairwise_cons.mpr ⟨fun x hx => ?_, h.sorted⟩, fun i' j' => ?_⟩
  · exact Nat.lt_of_lt_of_le hit ((h.mem x.1 x.2).mp hx).2
  · rw [List.mem_cons, h.mem]
    constructor
    · rintro (heq | ⟨hrun', hti⟩)
      · obtain ⟨rfl, rfl⟩ := Prod.mk.inj heq
        exact ⟨hrun, (hnext i' j' hrun).mpr (Or.inl rfl)⟩
      · exact ⟨hrun', (hnext i' j' hrun').mpr (Or.inr hti)⟩
    · rintro ⟨hrun', hqi⟩
      exact ((hnext i' j' hrun').mp hqi).imp_right fun hti => ⟨hrun', hti⟩

theorem RunsFrom.nil {s d : List UInt8} {q : Nat}
    (h : ∀ i j, MaximalRun (IsDelim s d) s.length i j → ¬ q ≤ i) : RunsFrom s d q [] :=
  ⟨.nil, fun i j => ⟨nofun, fun hrun => absurd hrun.2 (h i j hrun.1)⟩⟩

/-- A string has one list of runs. -/
theorem RunsFrom.unique {s d : List UInt8} {q : Nat} {l l' : List (Nat × Nat)}
    (h : RunsFrom s d q l) (h' : RunsFrom s d q l') : l = l' := by
  have hnodup {l : List (Nat × Nat)} (h : RunsFrom s d q l) : l.Nodup :=
    h.sorted.imp fun hlt heq => Nat.ne_of_lt hlt (congrArg Prod.fst heq)
  have hperm : l.Perm l' := (List.perm_ext_iff_of_nodup (hnodup h) (hnodup h')).mpr
    fun x => (h.mem x.1 x.2).trans (h'.mem x.1 x.2).symm
  exact hperm.eq_of_pairwise (fun x y _ _ hxy hyx => absurd hxy (Nat.lt_asymm hyx)) h.sorted
    h'.sorted

/-- A node and `errno`, led from one pair to another by the names of a path; the walk ends where
there is no node. -/
def Walk (Step : Nat × Nat → List UInt8 → Nat × Nat → Prop) :
    Nat × Nat → List (List UInt8) → Nat × Nat → Prop
  | x, [], y => y = x
  | x, c :: cs, y => if x.1 = 0 then y = x else ∃ z, Step x c z ∧ Walk Step z cs y

/-- On the nodes `finddir` returns, leaves memory alone and goes on as `Step` says, whenever the
areas are as in `m`. -/
def Searches (finddir : Nat → Nat → Code δ Nat) (m : Mem) (areas : List (Nat × Nat))
    (nodes : List Nat) (Step : Nat × Nat → List UInt8 → Nat × Nat → Prop) : Prop :=
  ∀ (w : World δ) (node a : Nat) (c : List UInt8), (∀ y, ¬ Outside areas y → w.mem y = m y) →
    node ∈ nodes → Str w.mem a c → ∃ r t, finddir node a w = .ret r t ∧ t.mem = w.mem ∧
      Step (node, w.k.errno) c (r, t.k.errno) ∧ (r = 0 ∨ r ∈ nodes)

/-- The path `s` is copied to `a`, apart from the areas. -/
structure PathCopy (m : Mem) (areas : List (Nat × Nat)) (a sep : Nat) (s : List UInt8) : Prop where
  apart : ∀ r ∈ areas, a + s.length ≤ r.1 ∨ r.1 + r.2 ≤ a
  str : Str m a s
  set : Str m sep [47]
  sepApart : sep + 1 < a ∨ a + s.length ≤ sep
  pos : 0 < a

theorem nextToken_run {fuel sep str old r ptr : Nat} {m' : Mem} {w : World δ}
    (h : strtok fuel w.mem old str sep = some (ptr, m', r)) :
    nextToken fuel sep str old w = .ret (ptr, r) (w.setMem m') :=
  update_run (by rw [h]; rfl)

section
variable {finddir : Nat → Nat → Code δ Nat} {areas : List (Nat × Nat)} {nodes : List Nat}
  {Step : Nat × Nat → List UInt8 → Nat × Nat → Prop} {m : Mem} {a sep q node fuel : Nat}
  {s : List UInt8} {w : World δ}

theorem PathCopy.areas_kept (h : PathCopy m areas a sep s) {m' : Mem} (hcut : Cut m a s [47] q m')
    (y : Nat) (hy : ¬ Outside areas y) : m' y = m y := by
  obtain ⟨r, hr, h1, h2⟩ := not_outside.mp hy
  exact hcut.outside y (by have := h.apart r hr; omega)

/-- The rounds of the loop walk along the components that are left. -/
theorem PathCopy.loop (h : PathCopy m areas a sep s) (hsearch : Searches finddir m areas nodes Step)
    (hfuel : s.length + 1 < fuel) {n : Nat} (hn : s.length - q < n) (hcut : Cut m a s [47] q w.mem)
    (hres : Resumes s [47] q) (hnode : node = 0 ∨ node ∈ nodes) :
    ∃ l y r t, RunsFrom s [47] q l ∧
      lookupLoopVia finddir fuel sep n node (a + q) w = .ret (y, r) t ∧
      Walk Step (node, w.k.errno) (l.map (text s)) (y, t.k.errno) ∧
      Frame [(a, s.length)] m t.mem := by
  induction n generalizing q node w with
  | zero => omega
  | succ n ih =>
    have hframe {q' : Nat} {m' : Mem} (hcut : Cut m a s [47] q' m') :
        Frame [(a, s.length)] m m' := fun y hy => hcut.outside y (by simpa using hy)
    have hat : (if (0 : Nat) = 0 then a + q else 0) = a + q := if_pos rfl
    obtain ⟨hcall, hcut', hnone⟩ | ⟨m', i, j, t, hcall, hcut', hres', hrun, hit, hend, hnext⟩ :=
      hcut.next_token h.str h.set h.sepApart hres hfuel hat
    · refine ⟨[], node, a + s.length, w.setMem w.mem, RunsFrom.nil hnone, ?_, rfl, hframe hcut'⟩
      rw [lookupLoopVia, bind_ret (nextToken_run hcall), if_neg (by simp)]
      rfl
    · have hai : a + i ≠ 0 := by have := h.pos; omega
      by_cases h0 : node = 0
      · obtain ⟨l, hsorted, hmem, -⟩ := hcut.calls h.str h.set h.sepApart hres hfuel hat
        refine ⟨l, node, a + t, w.setMem m', ⟨hsorted, hmem⟩, ?_, ?_, hframe hcut'⟩
        · rw [lookupLoopVia, bind_ret (nextToken_run hcall), if_neg fun hc => hc.2 h0]
          rfl
        · cases l with
          | nil => rfl
          | cons x l => exact (if_pos h0).mpr rfl
      · have hqi : q ≤ i := (hnext i j hrun).mpr (Or.inl rfl)
        have hts := hcut'.within
        obtain ⟨x, u, hfind, hmem, hstep, hin⟩ := hsearch (w.setMem m') node (a + i) _
          (h.areas_kept hcut') (hnode.resolve_left h0)
          (hcut'.readable h.str (x := (i, j)) hrun hend)
        obtain ⟨l, y, r, v, hl, hloop, hwalk, hv⟩ := ih (q := t) (w := u) (by omega)
          (hmem ▸ hcut') hres' hin
        refine ⟨(i, j) :: l, y, r, v, hl.cons hrun hit hnext, ?_, ?_, hv⟩
        · rw [lookupLoopVia, bind_ret (nextToken_run hcall), if_pos ⟨hai, h0⟩, bind_ret hfind,
            hloop]
        · exact (if_neg h0).mpr ⟨(x, u.k.errno), hstep, hwalk⟩

/-- A well-formed heap with room for the copy of the path `s`, on which the areas are not part of
free memory; the path and the separator are among them. -/
structure PathReady (h : Heap) (hf : Nat) (areas : List (Nat × Nat)) (root path sep : Nat)
    (s : List UInt8) (bs : List Blk) (w : World δ) : Prop where
  heap : h = ⟨Kmalloc.kmalloca hf, Kmalloc.kfree⟩
  blocks : Represents w.mem bs
  held : Held bs areas
  above : ∀ r ∈ areas, 12 ≤ r.1
  room : NoWrap w.mem (s.length + 1)
  fuel : bs.length < hf
  rootPos : root ≠ 0
  pathIn : (path, s.length + 1) ∈ areas
  sepIn : (sep, 2) ∈ areas
  str : Str w.mem path s
  set : Str w.mem sep [47]

variable {h : Heap} {hf root path : Nat} {bs : List Blk}

theorem PathReady.strings (hr : PathReady h hf areas root path sep s bs w) {m : Mem}
    (hm : ∀ y, ¬ Outside areas y → m y = w.mem y) : Str m path s ∧ Str m sep [47] := by
  have hin : ∀ r ∈ areas, ∀ y, r.1 ≤ y → y < r.1 + r.2 → m y = w.mem y :=
    fun r hr y h1 h2 => hm y (not_outside.mpr ⟨r, hr, h1, h2⟩)
  exact ⟨hr.str.congr fun y h1 h2 => hin _ hr.pathIn y h1 (Nat.lt_succ_of_le h2),
    hr.set.congr fun y h1 h2 => hin _ hr.sepIn y h1 (Nat.lt_succ_of_le h2)⟩

/-- The run up to the first token: a copy of the path that `kfree` takes back. -/
theorem PathReady.copies (hr : PathReady h hf areas root path sep s bs w)
    (finddir : Nat → Nat → Code δ Nat) (hpos : 0 < s.length)
    (h31 : s.length < 2147483648) (hfuel : s.length < fuel) (old : Nat) :
    ∃ a v, fsLookupVia finddir h fuel root sep path old w =
        lookupTokensVia finddir h fuel root sep path a old v ∧
      PathCopy v.mem areas a sep s ∧ (∀ y, ¬ Outside areas y → v.mem y = w.mem y) ∧
      ∀ u : World δ, Frame [(a, s.length)] v.mem u.mem →
        ∃ t : World δ, Foos.kfree h a u = .ret () t ∧ t.k.errno = u.k.errno ∧
          (∀ y, ¬ Outside areas y → t.mem y = w.mem y) ∧ Returned (s.length + 1) bs t.mem := by
  obtain ⟨a, k, hk, hnew, hfree⟩ := hr.blocks.lease (k := w.k) hr.held hr.above
    (Nat.succ_pos s.length) hr.room hr.fuel
  have hpath : path ≠ 0 := by
    have := hr.above _ hr.pathIn
    omega
  have happ : a + s.length < path ∨ path + s.length < a := by
    have := hnew.apart _ hr.pathIn
    omega
  have hsize : add32 s.length 1 = s.length + 1 := add32_of_lt (by omega)
  let m₀ := memset k.mem a 0 (s.length + 1)
  let m₁ := putString m₀ a s
  have hm₀ : Frame [(a, s.length + 1)] k.mem m₀ :=
    (Frame.refl _ k.mem).memset (Nat.le_refl a) (Nat.le_refl _)
  have hm₁ : Frame [(a, s.length + 1)] k.mem m₁ :=
    hm₀.putString (Nat.le_refl a) (by omega)
  let v : World δ := ({ w with k := k } : World δ).setMem m₁
  have hkept : ∀ m', Frame [(a, s.length + 1)] k.mem m' →
      ∀ y, ¬ Outside areas y → m' y = w.mem y := fun m' hm' y hy => hnew.written hm' hy
  have hstr₀ := (hr.strings (hkept m₀ hm₀)).1
  refine ⟨a, v, ?_, ⟨fun r hin => ?_, putString_str hr.str.chars, (hr.strings (hkept m₁ hm₁)).2, ?_,
    Nat.pos_of_ne_zero hnew.nonzero⟩, hkept m₁ hm₁, fun u hu => ?_⟩
  · have hlen : (update fun w : World δ => (strlen fuel w.mem path).map fun n => (n, w)) w =
        .ret s.length w := update_run (by rw [strlen_str hr.str (by omega) hfuel]; rfl)
    have hk' : h.kmalloca w.k (s.length + 1) 0 = some (a, k) := by rw [hr.heap]; exact hk
    have hcopy : (update fun w : World δ => (strcpy fuel w.mem a path).map fun r =>
        ((), w.setMem r.2)) (({ w with k := k } : World δ).setMem m₀) = .ret () v :=
      update_run (by rw [World.setMem_mem, strcpy_run hstr₀ hfuel happ]; rfl)
    have hint : 0 < toInt s.length := by
      rw [toInt, if_pos h31]
      omega
    rw [fsLookupVia, bind_ret (assert_pass (by simpa using hr.rootPos) w),
      bind_ret (assert_pass (by simpa using hpath) w), bind_ret hlen,
      bind_ret (assert_pass (by simpa using hint) w), hsize, bind_ret (kmalloc_run hk'),
      onMem_bind_run]
    exact bind_ret hcopy
  · have := hnew.apart r hin
    omega
  · have := hnew.apart _ hr.sepIn
    omega
  · have hframe : Frame [(a, s.length + 1)] k.mem u.k.mem := hm₁.trans (hu.mono fun y hy => by
      rw [outside_single] at hy ⊢
      omega)
    obtain ⟨k₂, hk₂, herr, hkeep⟩ := hfree u.k hframe
    have hk' : h.kfree u.k a = some k₂ := by rw [hr.heap]; exact hk₂
    exact ⟨{ u with k := k₂ }, update_run (by rw [hk']; rfl), herr, hkeep⟩

theorem Searches.of_kept {m' : Mem} (hs : Searches finddir m areas nodes Step)
    (hm : ∀ y, ¬ Outside areas y → m' y = m y) : Searches finddir m' areas nodes Step :=
  fun w node a c hw => hs w node a c fun y hy => (hw y hy).trans (hm y hy)

/-- A path with a component is walked along from the root. -/
theorem PathReady.walks (hr : PathReady h hf areas root path sep s bs w)
    (hsearch : Searches finddir w.mem areas nodes Step) (hroot : root ∈ nodes)
    (hpos : 0 < s.length) (h31 : s.length < 2147483648) (hfuel : s.length + 1 < fuel) (old : Nat)
    (hcomp : ∃ c ∈ s, c ≠ 47) :
    ∃ l e y r t, RunsFrom s [47] 0 l ∧
      fsLookupVia finddir h fuel root sep path old w = .ret (y, r) t ∧
      Walk Step (root, e) (l.map (text s)) (y, t.k.errno) ∧
      (∀ y, ¬ Outside areas y → t.mem y = w.mem y) ∧ Returned (s.length + 1) bs t.mem := by
  obtain ⟨a, v, hrun, hcopy, hkept, hfree⟩ :=
    hr.copies finddir hpos h31 (by omega : s.length < fuel) old
  have hapos := hcopy.pos
  have hat : (if a = 0 then old else a) = a + 0 := if_neg (by omega)
  obtain ⟨-, hcut, hnone⟩ | ⟨m', i, j, t, hcall, hcut, hres, hmax, hit, hend, hnext⟩ :=
    (Cut.front [47] hcopy.str).next_token hcopy.str hcopy.set hcopy.sepApart (Or.inl rfl) hfuel hat
  · obtain ⟨i, j, hmax⟩ := (exists_token (d := [47])).mpr (by simpa using hcomp)
    exact absurd (Nat.zero_le i) (hnone i j hmax)
  · have hsearch' := hsearch.of_kept hkept
    obtain ⟨x, u, hfind, hmem, hstep, hin⟩ := hsearch' (v.setMem m') root (a + i) _
      (hcopy.areas_kept hcut) hroot (hcut.readable hcopy.str (x := (i, j)) hmax hend)
    have hts := hcut.within
    obtain ⟨l, y, r, z, hl, hloop, hwalk, hz⟩ := hcopy.loop hsearch' hfuel (w := u) (q := t)
      (n := fuel) (by omega) (hmem ▸ hcut) hres hin
    obtain ⟨z', hkf, herr, hkeep⟩ := hfree z hz
    refine ⟨(i, j) :: l, v.k.errno, y, r, z', hl.cons hmax hit hnext, ?_, ?_, hkeep⟩
    · rw [hrun, lookupTokensVia, bind_ret (nextToken_run hcall), if_neg (by simp only; omega),
        bind_ret hfind, bind_ret hloop, bind_ret hkf]
      rfl
    · rw [herr]
      exact (if_neg hr.rootPos).mpr ⟨(x, u.k.errno), hstep, hwalk⟩

/-- Without a component the root is searched for the path itself. -/
theorem PathReady.separators (hr : PathReady h hf areas root path sep s bs w)
    (finddir : Nat → Nat → Code δ Nat) (hpos : 0 < s.length) (h31 : s.length < 2147483648)
    (hfuel : s.length + 1 < fuel) (old : Nat)
    (hsep : ∀ c ∈ s, c = 47) :
    ∃ r t, fsLookupVia finddir h fuel root sep path old w =
        (finddir root path >>= fun node => pure (node, r)) t ∧
      ∀ y, ¬ Outside areas y → t.mem y = w.mem y := by
  obtain ⟨a, v, hrun, hcopy, -, hfree⟩ :=
    hr.copies finddir hpos h31 (by omega : s.length < fuel) old
  have hapos := hcopy.pos
  have hat : (if a = 0 then old else a) = a + 0 := if_neg (by omega)
  obtain ⟨hcall, -⟩ | ⟨m', i, j, t, -, -, -, hmax, -⟩ :=
    (Cut.front [47] hcopy.str).next_token hcopy.str hcopy.set hcopy.sepApart (Or.inl rfl) hfuel hat
  · obtain ⟨t, hkf, -, hkeep, -⟩ := hfree (v.setMem v.mem) (Frame.refl _ _)
    refine ⟨a + s.length, t, ?_, hkeep⟩
    rw [hrun, lookupTokensVia, bind_ret (nextToken_run hcall), if_pos rfl, bind_ret hkf]
  · obtain ⟨c, hc, hne⟩ := exists_token.mp ⟨i, j, hmax⟩
    exact absurd (List.mem_singleton.mpr (hsep c hc)) hne

/-- A length that is no `int` stops the machine at an assertion. -/
theorem PathReady.halts (hr : PathReady h hf areas root path sep s bs w)
    (h31 : 2147483648 ≤ s.length) (hfuel : s.length < fuel) (old : Nat) :
    fsLookupVia finddir h fuel root sep path old w = .halt w := by
  have hpath : path ≠ 0 := by
    have := hr.above _ hr.pathIn
    omega
  have hlim := hr.room.1
  have hlen : (update fun w : World δ => (strlen fuel w.mem path).map fun n => (n, w)) w =
      .ret s.length w := update_run (by rw [strlen_str hr.str (by omega) hfuel]; rfl)
  have hint : ¬ 0 < toInt s.length := by
    rw [toInt, if_neg (by omega)]
    omega
  rw [fsLookupVia, bind_ret (assert_pass (by simpa using hr.rootPos) w),
    bind_ret (assert_pass (by simpa using hpath) w), bind_ret hlen]
  exact bind_halt (assert_stop (by simpa using hint) w)

end

end Foos.Fs
