import Foos.Memory

/-! NUL-terminated strings in memory. -/
namespace CString
open ByteMemory

/-- The characters `s` stand at `a`, none of them NUL, with a NUL behind them. -/
def Str (m : Mem) : Nat → List UInt8 → Prop
  | a, [] => m a = 0
  | a, c :: s => m a = c ∧ c ≠ 0 ∧ Str m (a + 1) s

instance Str.decidable (m : Mem) : ∀ a s, Decidable (Str m a s)
  | a, [] => inferInstanceAs (Decidable (m a = 0))
  | a, _ :: s =>
    have := Str.decidable m (a + 1) s
    inferInstanceAs (Decidable (_ ∧ _ ∧ _))

theorem Str.chars {m : Mem} {a : Nat} {s : List UInt8} (h : Str m a s) : ∀ c ∈ s, c ≠ 0 := by
  induction s generalizing a with
  | nil => nofun
  | cons c s ih =>
    intro d hd
    cases List.mem_cons.mp hd with
    | inl heq =>
      obtain rfl := heq
      exact h.2.1
    | inr hd => exact ih h.2.2 d hd

theorem chars_of_all {s : List UInt8} (h : (s.all fun c => c != 0) = true) : ∀ c ∈ s, c ≠ 0 :=
  fun c hc => bne_iff_ne.mp (List.all_eq_true.mp h c hc)

/-- The characters `s` and a NUL, put at `a`. -/
def putString (m : Mem) (a : Nat) : List UInt8 → Mem
  | [] => store8 m a 0
  | c :: s => putString (store8 m a c) (a + 1) s

theorem putString_outside {m : Mem} {a y : Nat} {s : List UInt8}
    (h : y < a ∨ a + s.length < y) : putString m a s y = m y := by
  induction s generalizing m a with
  | nil =>
    simp only [List.length_nil] at h
    exact store8_ne m a y 0 (by omega)
  | cons c s ih =>
    simp only [List.length_cons] at h
    rw [putString, ih (by omega)]
    exact store8_ne m a y c (by omega)

theorem putString_str {m : Mem} {a : Nat} {s : List UInt8} (h : ∀ c ∈ s, c ≠ 0) :
    Str (putString m a s) a s := by
  induction s generalizing m a with
  | nil => exact store8_same m a 0
  | cons c s ih =>
    refine ⟨?_, h c (List.mem_cons_self ..), ih fun d hd => h d (List.mem_cons_of_mem _ hd)⟩
    rw [putString, putString_outside (Or.inl (Nat.lt_succ_self a))]
    exact store8_same m a c

theorem Str.congr {m m' : Mem} {a : Nat} {s : List UInt8} (h : Str m a s)
    (hm : ∀ y, a ≤ y → y ≤ a + s.length → m' y = m y) : Str m' a s := by
  induction s generalizing a with
  | nil => exact (hm a (Nat.le_refl a) (Nat.le_refl a)).trans h
  | cons c s ih =>
    obtain ⟨hc, hne, hs⟩ := h
    simp only [List.length_cons] at hm
    exact ⟨(hm a (Nat.le_refl a) (by omega)).trans hc, hne,
      ih hs fun y h1 h2 => hm y (by omega) (by omega)⟩

theorem Str.unique {m : Mem} {a : Nat} {s t : List UInt8} (hs : Str m a s) (ht : Str m a t) :
    s = t := by
  induction s generalizing a t with
  | nil =>
    cases t with
    | nil => rfl
    | cons d t => exact absurd (ht.1.symm.trans hs) ht.2.1
  | cons c s ih =>
    cases t with
    | nil => exact absurd (hs.1.symm.trans ht) hs.2.1
    | cons d t => rw [hs.1.symm.trans ht.1, ih hs.2.2 ht.2.2]

/-- Characters with a NUL behind them are a string. -/
theorem Str.of_getD {m : Mem} {a : Nat} {s : List UInt8} (hs : ∀ c ∈ s, c ≠ 0)
    (h : ∀ t, t ≤ s.length → m (a + t) = s.getD t 0) : Str m a s := by
  induction s generalizing a with
  | nil => exact h 0 (Nat.le_refl 0)
  | cons c s ih =>
    refine ⟨h 0 (Nat.zero_le _), hs c (List.mem_cons_self ..),
      ih (fun d hd => hs d (List.mem_cons_of_mem _ hd)) fun t ht => ?_⟩
    rw [Nat.add_assoc, Nat.add_comm 1 t]
    exact h (t + 1) (Nat.succ_le_succ ht)

/-- Bytes with a NUL behind them are a string up to the first NUL among them. -/
theorem Str.takeWhile {m : Mem} {a : Nat} {s : List UInt8}
    (h : ∀ t, t ≤ s.length → m (a + t) = s.getD t 0) : Str m a (s.takeWhile fun c => c ≠ 0) := by
  induction s generalizing a with
  | nil => exact h 0 (Nat.le_refl 0)
  | cons c s ih =>
    have hc : m a = c := h 0 (Nat.zero_le _)
    by_cases h0 : c = 0
    · rw [List.takeWhile_cons_of_neg (by simp [h0])]
      exact hc.trans h0
    · rw [List.takeWhile_cons_of_pos (by simp [h0])]
      refine ⟨hc, h0, ih fun t ht => ?_⟩
      rw [Nat.add_assoc, Nat.add_comm 1 t]
      exact h (t + 1) (Nat.succ_le_succ ht)

theorem Str.char {m : Mem} {a u : Nat} {s : List UInt8} {c : UInt8} (h : Str m a s)
    (hc : s[u]? = some c) : m (a + u) = c := by
  induction s generalizing a u with
  | nil => simp at hc
  | cons d s ih =>
    cases u with
    | zero => exact h.1.trans (Option.some.inj hc)
    | succ u =>
      rw [Nat.add_comm u 1, ← Nat.add_assoc]
      exact ih h.2.2 hc

theorem Str.nul {m : Mem} {a : Nat} {s : List UInt8} (h : Str m a s) : m (a + s.length) = 0 := by
  induction s generalizing a with
  | nil => exact h
  | cons c s ih =>
    rw [List.length_cons, Nat.add_comm s.length 1, ← Nat.add_assoc]
    exact ih h.2.2

/-- The rest of a string is a string. -/
theorem Str.drop {m : Mem} {a n : Nat} {s : List UInt8} (h : Str m a s) (hn : n ≤ s.length) :
    Str m (a + n) (s.drop n) := by
  induction n generalizing a s with
  | zero => exact h
  | succ n ih =>
    cases s with
    | nil => exact absurd hn (Nat.not_succ_le_zero n)
    | cons c s =>
      rw [List.drop_succ_cons, Nat.add_comm n 1, ← Nat.add_assoc]
      exact ih h.2.2 (Nat.le_of_succ_le_succ hn)

/-- A memory that differs in one string only. -/
theorem Str.eq_putString {m m' : Mem} {a : Nat} {s : List UInt8} (h : Str m' a s)
    (hout : ∀ y, y < a ∨ a + s.length < y → m' y = m y) : m' = putString m a s := by
  have hput : Str (putString m a s) a s := putString_str h.chars
  ext y
  by_cases hy : y < a ∨ a + s.length < y
  · rw [hout y hy, putString_outside hy]
  · obtain ⟨u, rfl⟩ : ∃ u, y = a + u := ⟨y - a, by omega⟩
    cases hc : s[u]? with
    | some c => rw [h.char hc, hput.char hc]
    | none =>
      have hu : u = s.length := by
        have := List.getElem?_eq_none_iff.mp hc
        omega
      rw [hu, h.nul, hput.nul]

end CString
