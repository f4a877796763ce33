import Foos.Wrap

/-! Directory trees: names resolved one after the other, and the inodes that hold such a tree in
memory, on which `fs_finddir` is one step of it. -/
namespace Foos.Fs
open Program ByteMemory CString Libc

/-- The entries of a directory by name, with their inodes; `none` for any other inode. -/
abbrev Listing := Nat → Option (List (List UInt8 × Nat))

/-- The inode of the first entry of that name, NULL when there is none. -/
def child (dir : Listing) (node : Nat) (c : List UInt8) : Nat :=
  match dir node with
  | none => 0
  | some es => ((es.find? fun e => e.1 == c).map Prod.snd).getD 0

/-- One name after the other from a node on, NULL as soon as one is missing. -/
def resolve (dir : Listing) : Nat → List (List UInt8) → Nat
  | node, [] => node
  | node, c :: cs => if node = 0 then 0 else resolve dir (child dir node c) cs

theorem resolve_null (dir : Listing) (cs : List (List UInt8)) : resolve dir 0 cs = 0 := by
  cases cs <;> rfl

theorem resolve_cons (dir : Listing) {node : Nat} (h : node ≠ 0) (c : List UInt8)
    (cs : List (List UInt8)) :
    resolve dir node (c :: cs) = resolve dir (child dir node c) cs := if_neg h

variable {δ : Type}

/-- The nodes are the inodes of the tree below `root`, all in memory. Entries of a directory lie
in one array, and none of them is the root. -/
structure TreeAt (S : System δ) (m : Mem) (dir : Listing) (nodes : List Nat) (root : Nat) :
    Prop where
  rootIn : root ∈ nodes
  nonzero : ∀ x ∈ nodes, x ≠ 0
  leaf : ∀ x ∈ nodes, dir x = none → flags m x &&& 1 ≠ 0 ∨ finddirPtr m x = 0
  bit : ∀ x ∈ nodes, ∀ es, dir x = some es → flags m x &&& 1 = 0
  hook : ∀ x ∈ nodes, ∀ es, dir x = some es → finddirPtr m x = S.link.ramfsFinddir
  count : ∀ x ∈ nodes, ∀ es, dir x = some es → impl m x = es.length
  entryAt : ∀ x ∈ nodes, ∀ es, dir x = some es → ∀ i e, es[i]? = some e →
    e.2 = entry (ptr m x) i ∧ e.2 ∈ nodes ∧ e.1.length < 32 ∧ Str m (name e.2) e.1
  top : ∀ x ∈ nodes, ∀ es, dir x = some es → ∀ e ∈ es, e.2 ≠ root

section
variable {S : System δ} {m m' : Mem} {dir : Listing} {nodes : List Nat} {root node : Nat}

/-- The inodes alone hold the tree, whatever their `readdir` is. -/
theorem TreeAt.relink {δ' : Type} {S' : System δ'} (h : TreeAt S m dir nodes root)
    (hlink : S'.link.ramfsFinddir = S.link.ramfsFinddir)
    (hm : ∀ x ∈ nodes, ∀ y, x ≤ y → y < x + 76 → y < x + 64 ∨ x + 68 ≤ y → m' y = m y) :
    TreeAt S' m' dir nodes root := by
  have hload : ∀ x ∈ nodes, ∀ k, k + 4 ≤ 64 ∨ 68 ≤ k → k + 4 ≤ 76 →
      load32 m' (x + k) = load32 m (x + k) :=
    fun x hx k h1 h2 => load32_congr fun y h3 h4 => hm x hx y (by omega) (by omega) (by omega)
  have hflags : ∀ x ∈ nodes, Fs.flags m' x = Fs.flags m x := fun x hx => by
    rw [Fs.flags, Fs.flags, hm x hx (x + 32) (by omega) (by omega) (by omega)]
  have hptr : ∀ x ∈ nodes, ptr m' x = ptr m x := fun x hx => hload x hx 72 (by omega) (by omega)
  refine ⟨h.rootIn, h.nonzero, fun x hx hd => ?_, fun x hx es hd => ?_, fun x hx es hd => ?_,
    fun x hx es hd => ?_, fun x hx es hd i e he => ?_, h.top⟩
  · exact (h.leaf x hx hd).imp (fun hf => hflags x hx ▸ hf)
      fun hp => (hload x hx 68 (by omega) (by omega)).trans hp
  · exact hflags x hx ▸ h.bit x hx es hd
  · exact ((hload x hx 68 (by omega) (by omega)).trans (h.hook x hx es hd)).trans hlink.symm
  · exact (hload x hx 44 (by omega) (by omega)).trans (h.count x hx es hd)
  · obtain ⟨hentry, hin, hshort, hname⟩ := h.entryAt x hx es hd i e he
    refine ⟨by rw [hptr x hx, hentry], hin, hshort, hname.congr fun y h1 h2 => ?_⟩
    simp only [name] at h1 h2
    exact hm e.2 hin y h1 (by omega) (by omega)

theorem TreeAt.congr (h : TreeAt S m dir nodes root)
    (hm : ∀ x ∈ nodes, ∀ y, x ≤ y → y < x + 76 → m' y = m y) : TreeAt S m' dir nodes root :=
  h.relink rfl fun x hx y h1 h2 _ => hm x hx y h1 h2

theorem child_mem (h : TreeAt S m dir nodes root) (hnode : node ∈ nodes) (c : List UInt8) :
    child dir node c = 0 ∨ child dir node c ∈ nodes := by
  unfold child
  cases hd : dir node with
  | none => exact Or.inl rfl
  | some es =>
    cases hf : es.find? fun e => e.1 == c with
    | none => exact Or.inl (by simp [hf])
    | some e =>
      obtain ⟨i, hi⟩ := List.getElem?_of_mem (List.mem_of_find?_eq_some hf)
      exact Or.inr (by simpa [hf] using (h.entryAt node hnode es hd i e hi).2.1)

theorem TreeAt.child_ne_root (h : TreeAt S m dir nodes root) (c : List UInt8) :
    child dir root c ≠ root := by
  have hne := h.nonzero root h.rootIn
  unfold child
  cases hd : dir root with
  | none => exact hne.symm
  | some es =>
    cases hf : es.find? fun e => e.1 == c with
    | none => simpa [hf] using hne.symm
    | some e =>
      simpa [hf] using h.top root h.rootIn es hd e (List.mem_of_find?_eq_some hf)

/-- The rounds of `ramfs_finddir` on the entries from `i` on. -/
theorem TreeAt.finddirFrom {w : World δ} (h : TreeAt S w.mem dir nodes root) (hnode : node ∈ nodes)
    {es : List (List UInt8 × Nat)} (hd : dir node = some es) {fuel a : Nat} {c : List UInt8}
    (hfuel : 32 ≤ fuel) (hc : Str w.mem a c) (i n : Nat) (hn : i + n = es.length) :
    finddirFrom fuel node a i n w =
      .ret ((((es.drop i).find? fun e => e.1 == c).map Prod.snd).getD 0) w := by
  induction n generalizing i with
  | zero =>
    rw [List.drop_eq_nil_of_le (by omega)]
    rfl
  | succ n ih =>
    have hlt : i < es.length := by omega
    have hget : es[i]? = some es[i] := List.getElem?_eq_getElem hlt
    obtain ⟨hentry, -, hshort, hname⟩ := h.entryAt node hnode es hd i _ hget
    rw [hentry] at hname
    obtain ⟨ret, hret, hiff⟩ := strcmp_str hname hc (Nat.lt_of_lt_of_le hshort hfuel)
    have hrun : (update fun w : World δ => (strcmp fuel w.mem
        (Fs.name (Fs.entry (ptr w.mem node) i)) a).map fun ret => (ret, w)) w = .ret ret w :=
      update_run (by rw [hret]; rfl)
    rw [Fs.finddirFrom, bind_ret hrun, List.drop_eq_getElem_cons hlt, List.find?_cons]
    by_cases heq : es[i].1 = c
    · rw [if_pos (hiff.mpr heq), ofMem_run, ← hentry]
      simp [heq]
    · rw [if_neg fun h0 => heq (hiff.mp h0), ih (i + 1) (by omega)]
      simp only [beq_eq_false_iff_ne.mpr heq]

theorem TreeAt.finddir_dir {w : World δ} (h : TreeAt S w.mem dir nodes root) (hnode : node ∈ nodes)
    {es : List (List UInt8 × Nat)} (hd : dir node = some es) {fuel a : Nat} {c : List UInt8}
    (hfuel : 32 ≤ fuel) (hc : Str w.mem a c) :
    Fs.fsFinddir fuel S node a w = .ret (child dir node c) w := by
  have hbit : (if 0x7 ≠ FS_DIR then 1 else 0) = 1 := by decide
  have hne : S.link.ramfsFinddir ≠ 0 := Nat.ne_of_gt (S.link.code _ (by simp)).1
  simp only [Fs.fsFinddir, checkDir, ofMem_bind_run, hbit]
  rw [if_neg fun hf => hf (h.bit node hnode es hd)]
  simp only [ofMem_bind_run, h.hook node hnode es hd, if_neg hne, if_true, ramfsFinddir,
    h.count node hnode es hd]
  rw [h.finddirFrom hnode hd hfuel hc 0 _ (Nat.zero_add _)]
  simp [child, hd]

/-- `fs_finddir` with a name is one step in the tree. -/
theorem TreeAt.fsFinddir {w : World δ} (h : TreeAt S w.mem dir nodes root) (hnode : node ∈ nodes)
    {fuel a : Nat} {c : List UInt8} (hfuel : 32 ≤ fuel) (hc : Str w.mem a c) :
    ∃ t, fsFinddir fuel S node a w = .ret (child dir node c) t ∧ t.mem = w.mem := by
  cases hd : dir node with
  | none =>
    have hbit : (if 0x7 ≠ FS_DIR then 1 else 0) = 1 := by decide
    have hchild : child dir node c = 0 := by simp [child, hd]
    simp only [Fs.fsFinddir, checkDir, ofMem_bind_run, hbit]
    rw [hchild]
    cases h.leaf node hnode hd with
    | inl hf =>
      rw [if_pos hf]
      exact ⟨_, rfl, rfl⟩
    | inr hp =>
      split
      · exact ⟨_, rfl, rfl⟩
      · exact ⟨w, by simp only [ofMem_bind_run, if_pos hp]; rfl, rfl⟩
  | some es => exact ⟨w, h.finddir_dir hnode hd hfuel hc, rfl⟩

end

end Foos.Fs
