import Mathlib.Data.List.Basic
import Mathlib.Data.List.Induction

/-! Positional numerals: digit characters in a base of at most 36, the value of a string of them,
and the numerals without a leading zero. -/
namespace Numeral

/-- `0` to `9`, then the upper-case letters. -/
def digit (d : Nat) : UInt8 := UInt8.ofNat (if d < 10 then 48 + d else 55 + d)

def digitValue (c : UInt8) : Nat := if c.toNat < 58 then c.toNat - 48 else c.toNat - 55

def IsDigit (base : Nat) (c : UInt8) : Prop := ∃ d < base, c = digit d

/-- What a string of digits says in the base, the most significant first. -/
def value (base : Nat) (s : List UInt8) : Nat := s.foldl (fun v c => base * v + digitValue c) 0

/-- The numeral of `n` in the base: only zero begins with a zero. -/
structure Canonical (base : Nat) (s : List UInt8) (n : Nat) : Prop where
  digits : ∀ c ∈ s, IsDigit base c
  leading : ∃ c t, s = c :: t ∧ (c = digit 0 → t = [])
  value : value base s = n

variable {base d n : Nat} {c : UInt8} {s : List UInt8}

theorem digit_toNat (h : d < 36) : (digit d).toNat = if d < 10 then 48 + d else 55 + d := by
  rw [digit, UInt8.toNat_ofNat']
  exact Nat.mod_eq_of_lt (by split <;> omega)

@[simp] theorem digitValue_digit (h : d < 36) : digitValue (digit d) = d := by
  rw [digitValue, digit_toNat h]
  split_ifs <;> omega

theorem IsDigit.ne_zero (h : IsDigit base c) (hbase : base ≤ 36) : c ≠ 0 := by
  obtain ⟨d, hd, rfl⟩ := h
  intro hzero
  have hnat := digit_toNat (Nat.lt_of_lt_of_le hd hbase)
  rw [hzero, UInt8.toNat_zero] at hnat
  split at hnat <;> omega

theorem value_snoc (base : Nat) (s : List UInt8) (c : UInt8) :
    Numeral.value base (s ++ [c]) = base * Numeral.value base s + digitValue c :=
  List.foldl_concat ..

/-- A zero in front does not change the value. -/
theorem value_zero_cons (base : Nat) (s : List UInt8) :
    Numeral.value base (digit 0 :: s) = Numeral.value base s := by
  rw [Numeral.value, List.foldl_cons, Nat.mul_zero]
  rfl

theorem Canonical.single (hd : d < base) (hbase : base ≤ 36) : Canonical base [digit d] d := by
  refine ⟨fun c hc => ⟨d, hd, List.mem_singleton.mp hc⟩, ⟨_, _, rfl, fun _ => rfl⟩, ?_⟩
  have hvalue := value_snoc base [] (digit d)
  rw [digitValue_digit (Nat.lt_of_lt_of_le hd hbase)] at hvalue
  exact hvalue.trans (Nat.zero_add d)

/-- One more digit behind a numeral that is not zero. -/
theorem Canonical.snoc (h : Canonical base s n) (hn : n ≠ 0) (hd : d < base) (hbase : base ≤ 36) :
    Canonical base (s ++ [digit d]) (base * n + d) := by
  refine ⟨fun c hc => ?_, ?_, ?_⟩
  · cases List.mem_append.mp hc with
    | inl hc => exact h.digits c hc
    | inr hc => exact ⟨d, hd, List.mem_singleton.mp hc⟩
  · obtain ⟨c, t, rfl, hzero⟩ := h.leading
    refine ⟨c, t ++ [digit d], rfl, fun hc => absurd ?_ hn⟩
    rw [← h.value, hzero hc, hc]
    rfl
  · rw [value_snoc, h.value, digitValue_digit (Nat.lt_of_lt_of_le hd hbase)]

/-- The step of a conversion: the quotient is written, and the remainder behind it. -/
theorem Canonical.step (h : Canonical base s (n / base)) (hn : n / base ≠ 0) (hpos : 0 < base)
    (hbase : base ≤ 36) : Canonical base (s ++ [digit (n % base)]) n := by
  have hsnoc := h.snoc hn (Nat.mod_lt n hpos) hbase
  rwa [Nat.div_add_mod] at hsnoc

theorem Canonical.head_ne {d : UInt8} (h : Canonical base (c :: s) n) (hd : ¬ IsDigit base d) :
    c ≠ d := by
  rintro rfl
  exact hd (h.digits c List.mem_cons_self)

/-- Every character behind one that is not zero at least doubles the value. -/
theorem length_lt_value (hbase : 2 ≤ base) (hc : 1 ≤ digitValue c) (s : List UInt8) :
    s.length < Numeral.value base (c :: s) := by
  induction s using List.reverseRec with
  | nil =>
    have hvalue := value_snoc base [] c
    exact Nat.lt_of_lt_of_le hc (hvalue ▸ Nat.le_add_left _ _)
  | append_singleton s e ih =>
    have hdouble := Nat.mul_le_mul_right (Numeral.value base (c :: s)) hbase
    rw [← List.cons_append, value_snoc, List.length_append, List.length_singleton]
    omega

theorem Canonical.length_le (h : Canonical base s n) (hbase : 2 ≤ base) (hmax : base ≤ 36) :
    s.length ≤ n + 1 := by
  obtain ⟨c, t, rfl, hzero⟩ := h.leading
  obtain ⟨d, hd, rfl⟩ := h.digits c List.mem_cons_self
  cases Nat.eq_zero_or_pos d with
  | inl heq =>
    obtain rfl := heq
    rw [hzero rfl]
    exact Nat.succ_le_succ (Nat.zero_le n)
  | inr hpos =>
    have hlt := length_lt_value hbase (c := digit d)
      (by rwa [digitValue_digit (Nat.lt_of_lt_of_le hd hmax)]) t
    rw [h.value] at hlt
    rw [List.length_cons]
    omega

end Numeral
