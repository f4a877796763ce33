import Foos.CString
import Foos.Word

/-! The string functions of `libc/string.c` that the file systems call. A call that outlasts
`fuel` is `none`. -/
namespace Foos.Libc
open ByteMemory CString Word32

/-- `repne scasb` for NUL from `di` on: what is left of the count. -/
def scasb : Nat → Mem → Nat → Nat → Option Nat
  | 0, _, _, _ => none
  | fuel+1, m, di, cx =>
    if cx = 0 then some 0 else if m di = 0 then some (cx - 1) else scasb fuel m (di + 1) (cx - 1)

def strlen (fuel : Nat) (m : Mem) (s : Nat) : Option Nat :=
  (scasb fuel m s 0xFFFFFFFF).map fun cx => sub32 (not32 cx) 1

/-- `while(*s++=*from++);`, with the value `s` has in the end. -/
def copyWhile : Nat → Mem → Nat → Nat → Option (Nat × Mem)
  | 0, _, _, _ => none
  | fuel+1, m, s, source =>
    let c := m source
    let m := store8 m s c
    if c = 0 then some (s + 1, m) else copyWhile fuel m (s + 1) (source + 1)

def strcpy (fuel : Nat) (m : Mem) (dest source : Nat) : Option (Nat × Mem) :=
  (copyWhile fuel m dest source).map fun r => (dest, r.2)

def strcmp : Nat → Mem → Nat → Nat → Option Int
  | 0, _, _, _ => none
  | fuel+1, m, s1, s2 =>
    let ret := ((m s1).toNat : Int) - (m s2).toNat
    if ret = 0 ∧ m s1 ≠ 0 then strcmp fuel m (s1 + 1) (s2 + 1) else some ret

theorem scasb_str {m : Mem} {s : List UInt8} {di cx fuel : Nat} (h : Str m di s)
    (hcx : s.length < cx) (hfuel : s.length < fuel) :
    scasb fuel m di cx = some (cx - (s.length + 1)) := by
  induction s generalizing di cx fuel with
  | nil =>
    obtain ⟨fuel, rfl⟩ := Nat.exists_eq_add_one_of_ne_zero (Nat.ne_zero_of_lt hfuel)
    rw [scasb, if_neg (by omega), if_pos (show m di = 0 from h)]
    rfl
  | cons c s ih =>
    simp only [List.length_cons] at hcx hfuel ⊢
    obtain ⟨fuel, rfl⟩ := Nat.exists_eq_add_one_of_ne_zero (Nat.ne_zero_of_lt hfuel)
    rw [scasb, if_neg (by omega), if_neg (h.1 ▸ h.2.1), ih h.2.2 (by omega) (by omega)]
    congr 1
    omega

theorem strlen_str {m : Mem} {s : List UInt8} {a fuel : Nat} (h : Str m a s)
    (hlen : s.length < 4294967295) (hfuel : s.length < fuel) :
    strlen fuel m a = some s.length := by
  have hnot : not32 (0xFFFFFFFF - (s.length + 1)) = s.length + 1 := by
    rw [not32_eq (by omega)]
    omega
  rw [strlen, scasb_str h hlen hfuel, Option.map_some, hnot, sub32_of_le (by omega) (by omega)]
  rfl

/-- A string is copied whole to a place apart from it. -/
theorem copyWhile_str {m : Mem} {s : List UInt8} {dest source fuel : Nat}
    (h : Str m source s) (happ : dest + s.length < source ∨ source + s.length < dest)
    (hfuel : s.length < fuel) :
    copyWhile fuel m dest source = some (dest + s.length + 1, putString m dest s) := by
  induction s generalizing m dest source fuel with
  | nil =>
    obtain ⟨fuel, rfl⟩ := Nat.exists_eq_add_one_of_ne_zero (Nat.ne_zero_of_lt hfuel)
    have h0 : m source = 0 := h
    simp only [copyWhile, h0, if_true, putString, List.length_nil, Nat.add_zero]
  | cons c s ih =>
    obtain ⟨hc, hne, hs⟩ := h
    simp only [List.length_cons] at happ hfuel
    obtain ⟨fuel, rfl⟩ := Nat.exists_eq_add_one_of_ne_zero (Nat.ne_zero_of_lt hfuel)
    have hs' : Str (store8 m dest c) (source + 1) s :=
      hs.congr fun y h1 h2 => store8_ne m dest y c (by omega)
    simp only [copyWhile, hc, if_neg hne, putString, List.length_cons]
    rw [ih hs' (by omega) (by omega)]
    congr 2
    omega

theorem strcpy_run {s : List UInt8} {m : Mem} {dest source fuel : Nat} (h : Str m source s)
    (hfuel : s.length < fuel)
    (happ : dest + s.length < source ∨ source + s.length < dest) :
    strcpy fuel m dest source = some (dest, putString m dest s) := by
  rw [strcpy, copyWhile_str h happ hfuel]
  rfl

theorem byteDiff_zero {c d : UInt8} : (c.toNat : Int) - d.toNat = 0 ↔ c = d := by
  rw [Int.sub_eq_zero, Nat.cast_inj]
  exact UInt8.toNat_inj

/-- The bytes at `a` and `b` are equal up to the `i`-th, which differ. -/
def DifferAt (m : Mem) (a b i : Nat) : Prop :=
  m (a + i) ≠ m (b + i) ∧ ∀ j, j < i → m (a + j) = m (b + j)

theorem DifferAt.zero {m : Mem} {a b : Nat} (h : m a ≠ m b) : DifferAt m a b 0 :=
  ⟨h, fun j hj => absurd hj (Nat.not_lt_zero j)⟩

theorem DifferAt.succ {m : Mem} {a b i : Nat} (h0 : m a = m b) (h : DifferAt m (a + 1) (b + 1) i) :
    DifferAt m a b (i + 1) := by
  have hshift : ∀ p j, p + 1 + j = p + (j + 1) := fun p j => by omega
  obtain ⟨hne, heq⟩ := h
  simp only [hshift] at hne heq
  refine ⟨hne, fun j hj => ?_⟩
  cases j with
  | zero => exact h0
  | succ j => exact heq j (Nat.lt_of_succ_lt_succ hj)

theorem DifferAt.unique {m : Mem} {a b i j : Nat} (hi : DifferAt m a b i) (hj : DifferAt m a b j) :
    i = j := by
  have h1 : ¬ i < j := fun h => hi.1 (hj.2 i h)
  have h2 : ¬ j < i := fun h => hj.1 (hi.2 j h)
  omega

/-- `strcmp` gives zero for equal strings and the difference of the first characters, or NULs, that
differ. -/
theorem strcmp_differ {m : Mem} {s t : List UInt8} {a b fuel : Nat} (hs : Str m a s)
    (ht : Str m b t) (hfuel : s.length < fuel) :
    (s = t ∧ strcmp fuel m a b = some 0) ∨ ∃ i, i ≤ min s.length t.length ∧ DifferAt m a b i ∧
      strcmp fuel m a b = some (((m (a + i)).toNat : Int) - (m (b + i)).toNat) := by
  have hstop : ∀ {a b fuel : Nat}, 0 < fuel → m a ≠ m b →
      strcmp fuel m a b = some (((m a).toNat : Int) - (m b).toNat) := by
    intro a b fuel hfuel hne
    obtain ⟨fuel, rfl⟩ := Nat.exists_eq_add_one_of_ne_zero (Nat.ne_of_gt hfuel)
    rw [strcmp, if_neg fun h => hne (byteDiff_zero.mp h.1)]
  have hpos : 0 < fuel := Nat.lt_of_le_of_lt (Nat.zero_le _) hfuel
  induction s generalizing a b t fuel with
  | nil =>
    have h0 : m a = 0 := hs
    cases t with
    | nil =>
      have h0' : m b = 0 := ht
      obtain ⟨fuel, rfl⟩ := Nat.exists_eq_add_one_of_ne_zero (Nat.ne_of_gt hpos)
      exact Or.inl ⟨rfl, by simp [strcmp, h0, h0']⟩
    | cons d t =>
      have hne : m a ≠ m b := by
        rw [h0, ht.1]
        exact ht.2.1.symm
      exact Or.inr ⟨0, Nat.zero_le _, .zero hne, hstop hpos hne⟩
  | cons c s ih =>
    obtain ⟨hc, hc0, hs⟩ := hs
    by_cases heq : m a = m b
    · cases t with
      | nil => exact absurd (hc.symm.trans (heq.trans ht)) hc0
      | cons d t =>
        simp only [List.length_cons] at hfuel ⊢
        obtain ⟨fuel, rfl⟩ := Nat.exists_eq_add_one_of_ne_zero (Nat.ne_of_gt hpos)
        have hnext : strcmp (fuel + 1) m a b = strcmp fuel m (a + 1) (b + 1) := by
          rw [strcmp, if_pos ⟨byteDiff_zero.mpr heq, hc ▸ hc0⟩]
        rw [hnext, show c = d from hc.symm.trans (heq.trans ht.1)]
        rcases ih hs ht.2.2 (Nat.lt_of_succ_lt_succ hfuel) (by omega) with ⟨rfl, hrun⟩ | ⟨i, hi, hd, hrun⟩
        · exact Or.inl ⟨rfl, hrun⟩
        · refine Or.inr ⟨i + 1, by omega, hd.succ heq, ?_⟩
          rw [hrun, Nat.add_right_comm a, Nat.add_right_comm b]
          rfl
    · exact Or.inr ⟨0, Nat.zero_le _, .zero heq, hstop hpos heq⟩

/-- Strings are equal when no bytes up to their ends differ. -/
theorem DifferAt.strings_ne {m : Mem} {s : List UInt8} {a b i : Nat} (h : DifferAt m a b i)
    (hi : i ≤ s.length) (hs : Str m a s) : ¬ Str m b s := by
  intro hs'
  refine h.1 ?_
  cases hc : s[i]? with
  | some c => rw [hs.char hc, hs'.char hc]
  | none =>
    have hlen := List.getElem?_eq_none_iff.mp hc
    rw [Nat.le_antisymm hi hlen, hs.nul, hs'.nul]

/-- Comparing two strings gives zero exactly when they are equal. -/
theorem strcmp_str {m : Mem} {s t : List UInt8} {a b fuel : Nat} (hs : Str m a s)
    (ht : Str m b t) (hfuel : s.length < fuel) :
    ∃ ret, strcmp fuel m a b = some ret ∧ (ret = 0 ↔ s = t) := by
  rcases strcmp_differ hs ht hfuel with ⟨heq, hrun⟩ | ⟨i, hi, hd, hrun⟩
  · exact ⟨0, hrun, fun _ => heq, fun _ => rfl⟩
  · refine ⟨_, hrun, fun h => absurd (byteDiff_zero.mp h) hd.1, ?_⟩
    rintro rfl
    exact absurd ht (hd.strings_ne (Nat.le_trans hi (Nat.min_le_left _ _)) hs)

end Foos.Libc
