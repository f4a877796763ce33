import Foos.Digits

/-! `atoi` of `libc/conv.c` on the texts of numbers, with the values that its arithmetic goes
through. -/
namespace Foos.Conv
open ByteMemory CString Word32 Numeral

/-- A value of type `int`. -/
def IsInt (z : Int) : Prop := -2147483648 ≤ z ∧ z ≤ 2147483647

instance (z : Int) : Decidable (IsInt z) := inferInstanceAs (Decidable (_ ∧ _))

/-- What the processor leaves of an `int` operation with the exact result `z`. -/
def wrapInt (z : Int) : Int := toInt (ofInt z)

/-- `while(x<s)`, from left to right: the value of `res`, and the exact results of the operations
`res*10`, `+*x` and `-'0'` of every round. -/
def atoiWhile (m : Mem) (s x : Nat) (res : Int) : Int × List Int :=
  if x < s then
    let product := res * 10
    let sum := wrapInt product + (m x).toInt8.toInt
    let difference := wrapInt sum - 48
    let r := atoiWhile m s (x + 1) (wrapInt difference)
    (r.1, product :: sum :: difference :: r.2)
  else (res, [])
termination_by s - x

/-- The value returned, and the exact results of all operations. -/
def atoi (fuel : Nat) (m : Mem) (nptr : Nat) : Option (Int × List Int) := do
  let sign : Int := if m nptr = 45 then -1 else 1
  let x := if m nptr = 45 ∨ m nptr = 43 then nptr + 1 else nptr
  let len ← Libc.strlen fuel m x
  let r := atoiWhile m (x + len) x 0
  some (wrapInt (sign * r.1), r.2 ++ [sign * r.1])

/-- The canonical text of a number; one that is not negative may have an explicit sign. -/
def TextOf (s : List UInt8) (n : Int) : Prop :=
  IsDecimal s n ∨ 0 ≤ n ∧ ∃ t, IsDecimal t n ∧ s = 43 :: t

variable {m : Mem} {s : List UInt8} {a r fuel : Nat} {n z : Int}

theorem wrapInt_of_isInt (h : IsInt z) : wrapInt z = z := by
  unfold wrapInt toInt ofInt
  obtain ⟨h1, h2⟩ := h
  split <;> omega

/-- Wrapping early or late makes no difference. -/
theorem wrapInt_congr {y z : Int} (h : y % 4294967296 = z % 4294967296) : wrapInt y = wrapInt z := by
  rw [wrapInt, ofInt, h]
  rfl

theorem wrapInt_emod (z : Int) : wrapInt z % 4294967296 = z % 4294967296 := by
  unfold wrapInt toInt ofInt
  split <;> omega

theorem isDigit_int {c : UInt8} (h : IsDigit 10 c) : c.toInt8.toInt = 48 + digitValue c := by
  obtain ⟨d, hd, rfl⟩ := h
  revert d
  decide

/-- The number that digits say behind the value `r`. -/
def valueFrom (r : Nat) (s : List UInt8) : Nat := s.foldl (fun v c => 10 * v + digitValue c) r

theorem valueFrom_cons (r : Nat) (c : UInt8) (s : List UInt8) :
    valueFrom r (c :: s) = valueFrom (10 * r + digitValue c) s := rfl

theorem le_valueFrom (r : Nat) (s : List UInt8) : r ≤ valueFrom r s := by
  induction s generalizing r with
  | nil => exact Nat.le_refl r
  | cons c s ih =>
    rw [valueFrom_cons]
    exact Nat.le_trans (by omega) (ih (10 * r + digitValue c))

theorem atoiWhile_cons {c : UInt8} (h : m a = c) (res : Int) :
    atoiWhile m (a + (c :: s).length) a res =
      ((atoiWhile m (a + 1 + s.length) (a + 1)
          (wrapInt (wrapInt (wrapInt (res * 10) + c.toInt8.toInt) - 48))).1,
        res * 10 :: (wrapInt (res * 10) + c.toInt8.toInt) ::
          (wrapInt (wrapInt (res * 10) + c.toInt8.toInt) - 48) ::
          (atoiWhile m (a + 1 + s.length) (a + 1)
            (wrapInt (wrapInt (wrapInt (res * 10) + c.toInt8.toInt) - 48))).2) := by
  have hlen : a + (c :: s).length = a + 1 + s.length := by
    rw [List.length_cons]
    omega
  rw [atoiWhile, if_pos (by rw [List.length_cons]; omega), h, hlen]

/-- Up to the wrap the loop computes the value of the digits. -/
theorem atoiWhile_value (h : Str m a s) (hs : ∀ c ∈ s, IsDigit 10 c) (r : Nat) :
    (atoiWhile m (a + s.length) a (wrapInt r)).1 = wrapInt (valueFrom r s) := by
  induction s generalizing a r with
  | nil =>
    rw [atoiWhile, if_neg (by simp)]
    rfl
  | cons c s ih =>
    obtain ⟨hc, hs⟩ := List.forall_mem_cons.mp hs
    have hround : wrapInt (wrapInt (wrapInt (wrapInt r * 10) + c.toInt8.toInt) - 48) =
        wrapInt (10 * r + digitValue c : Nat) := by
      refine wrapInt_congr ?_
      have h1 := wrapInt_emod (wrapInt (wrapInt r * 10) + c.toInt8.toInt)
      have h2 := wrapInt_emod (wrapInt r * 10)
      have h3 := wrapInt_emod r
      rw [isDigit_int hc] at *
      omega
    rw [atoiWhile_cons h.1, hround, valueFrom_cons]
    exact ih h.2.2 hs _

/-- No operation of the loop overflows exactly when the last sum does not. -/
theorem atoiWhile_isInt (h : Str m a s) (hs : ∀ c ∈ s, IsDigit 10 c) (hr : r ≤ 2147483647) :
    (∀ v ∈ (atoiWhile m (a + s.length) a r).2, IsInt v) ↔
      s = [] ∨ valueFrom r s + 48 ≤ 2147483647 := by
  induction s generalizing a r with
  | nil =>
    rw [atoiWhile, if_neg (by simp)]
    simp
  | cons c s ih =>
    obtain ⟨hc, hs⟩ := List.forall_mem_cons.mp hs
    have hle := le_valueFrom (10 * r + digitValue c) s
    have hd := isDigit_int hc
    rw [atoiWhile_cons h.1, valueFrom_cons, hd]
    simp only [List.forall_mem_cons, List.cons_ne_nil, false_or]
    have hnext : (r : Int) * 10 + (48 + digitValue c) - 48 = (10 * r + digitValue c : Nat) := by
      omega
    constructor
    · intro hall
      obtain ⟨hproduct, hsum, hdifference, hrest⟩ := hall
      rw [wrapInt_of_isInt hproduct] at hsum hrest
      rw [wrapInt_of_isInt hsum] at hrest
      have hlast := hsum.2
      rw [hnext, wrapInt_of_isInt ⟨by omega, by omega⟩, ih h.2.2 hs (by omega)] at hrest
      cases hrest with
      | inl hnil =>
        rw [hnil, valueFrom, List.foldl_nil]
        omega
      | inr hrest => exact hrest
    · intro hlast
      have hproduct : IsInt ((r : Int) * 10) := ⟨by omega, by omega⟩
      have hsum : IsInt ((r : Int) * 10 + (48 + digitValue c)) := ⟨by omega, by omega⟩
      have hdifference : IsInt (10 * r + digitValue c : Nat) := ⟨by omega, by omega⟩
      rw [wrapInt_of_isInt hproduct, wrapInt_of_isInt hsum, hnext, wrapInt_of_isInt hdifference]
      exact ⟨hproduct, hsum, hdifference, (ih h.2.2 hs (by omega)).mpr (Or.inr hlast)⟩

theorem valueFrom_zero (s : List UInt8) : valueFrom 0 s = Numeral.value 10 s := rfl

/-- What the digits of a number give, once the sign is known. -/
theorem atoiWhile_digits (sign : Int) (h : Str m a s) (hs : Canonical 10 s n.natAbs) (hn : IsInt n)
    (hsign : sign = 1 ∨ sign = -1) (habs : sign * n.natAbs = n) :
    wrapInt (sign * (atoiWhile m (a + s.length) a 0).1) = n ∧
    ((∀ v ∈ (atoiWhile m (a + s.length) a 0).2 ++ [sign * (atoiWhile m (a + s.length) a 0).1],
      IsInt v) ↔ n.natAbs ≤ 2147483599) := by
  have hvalue : (atoiWhile m (a + s.length) a 0).1 = wrapInt n.natAbs := by
    have hloop := atoiWhile_value h hs.digits 0
    rwa [Int.natCast_zero, wrapInt_of_isInt ⟨by omega, by omega⟩, valueFrom_zero, hs.value] at hloop
  have hloop := atoiWhile_isInt h hs.digits (Nat.zero_le 2147483647)
  rw [Int.natCast_zero, valueFrom_zero, hs.value] at hloop
  have hne : s ≠ [] := by
    obtain ⟨c, t, rfl, -⟩ := hs.leading
    exact List.cons_ne_nil c t
  obtain ⟨hlow, hhigh⟩ := hn
  rw [hvalue]
  constructor
  · have hemod := wrapInt_emod n.natAbs
    have hcongr : wrapInt (sign * wrapInt n.natAbs) = wrapInt n := by
      refine wrapInt_congr ?_
      cases hsign with
      | inl hplus =>
        rw [hplus] at habs ⊢
        omega
      | inr hminus =>
        rw [hminus] at habs ⊢
        omega
    rw [hcongr, wrapInt_of_isInt ⟨hlow, hhigh⟩]
  · simp only [List.mem_append, List.mem_singleton, or_imp, forall_and, forall_eq]
    constructor
    · intro hall
      have hlast := (hloop.mp hall.1).resolve_left hne
      omega
    · intro hle
      rw [wrapInt_of_isInt ⟨by omega, by omega⟩, habs]
      exact ⟨hloop.mpr (Or.inr (by omega)), hlow, hhigh⟩

theorem TextOf.digits (h : TextOf s n) : ∃ t, Canonical 10 t n.natAbs ∧
    (s = t ∧ 0 ≤ n ∨ s = 43 :: t ∧ 0 ≤ n ∨ s = 45 :: t ∧ n < 0) := by
  cases h with
  | inl hplain =>
    obtain ⟨t, ht, hs⟩ := hplain
    by_cases hn : n < 0
    · exact ⟨t, ht, Or.inr (Or.inr ⟨hs.trans (if_pos hn), hn⟩)⟩
    · exact ⟨t, ht, Or.inl ⟨hs.trans (if_neg hn), Int.not_lt.mp hn⟩⟩
  | inr hplus =>
    obtain ⟨hn, u, ⟨t, ht, hu⟩, hs⟩ := hplus
    rw [if_neg (Int.not_lt.mpr hn)] at hu
    exact ⟨t, ht, Or.inr (Or.inl ⟨hu ▸ hs, hn⟩)⟩

/-- On this processor the number comes back, whether or not an operation overflows. -/
theorem atoi_run (h : Str m a s) (hs : TextOf s n) (hn : IsInt n) (hfuel : s.length < fuel) :
    ∃ vs, atoi fuel m a = some (n, vs) ∧ ((∀ v ∈ vs, IsInt v) ↔ n.natAbs ≤ 2147483599) := by
  obtain ⟨t, ht, htext⟩ := hs.digits
  obtain ⟨c, u, hcu, -⟩ := ht.leading
  have hplus : c ≠ 43 := (hcu ▸ ht).head_ne (by unfold IsDigit; decide)
  have hminus : c ≠ 45 := (hcu ▸ ht).head_ne not_digit_sign
  have hshort : t.length < 4294967295 := by
    have hle := ht.length_le (by decide) (by decide)
    obtain ⟨h1, h2⟩ := hn
    omega
  obtain ⟨rfl, hpos⟩ | ⟨rfl, hpos⟩ | ⟨rfl, hneg⟩ := htext
  · obtain ⟨hret, hvs⟩ := atoiWhile_digits 1 h ht hn (Or.inl rfl) (by omega)
    have hfirst : m a = c := (hcu ▸ h).1
    refine ⟨_, ?_, hvs⟩
    simp only [atoi, hfirst, hplus, hminus, or_self, if_false, Libc.strlen_str h hshort hfuel,
      Option.bind_eq_bind, Option.bind_some, hret]
  · obtain ⟨hret, hvs⟩ := atoiWhile_digits 1 h.2.2 ht hn (Or.inl rfl) (by omega)
    have hfirst : m a = 43 := h.1
    refine ⟨_, ?_, hvs⟩
    simp only [atoi, hfirst, or_true, if_true, Option.bind_eq_bind, Option.bind_some,
      Libc.strlen_str h.2.2 hshort (Nat.lt_of_succ_lt hfuel)]
    exact congrArg (fun z => some (z, _)) hret
  · obtain ⟨hret, hvs⟩ := atoiWhile_digits (-1) h.2.2 ht hn (Or.inr rfl) (by omega)
    have hfirst : m a = 45 := h.1
    refine ⟨_, ?_, hvs⟩
    simp only [atoi, hfirst, true_or, if_true, Option.bind_eq_bind, Option.bind_some,
      Libc.strlen_str h.2.2 hshort (Nat.lt_of_succ_lt hfuel)]
    exact congrArg (fun z => some (z, _)) hret

/-- `atoi` gives the number of a text back without an overflow exactly when the character of the
last digit can be added to ten times the number in front of it. -/
theorem atoi_iff (h : Str m a s) (hs : TextOf s n) (hn : IsInt n) (hfuel : s.length < fuel) :
    (∃ vs, atoi fuel m a = some (n, vs) ∧ ∀ v ∈ vs, IsInt v) ↔ n.natAbs ≤ 2147483599 := by
  obtain ⟨vs, hrun, hiff⟩ := atoi_run h hs hn hfuel
  constructor
  · intro hex
    obtain ⟨vs', hrun', hvs⟩ := hex
    obtain ⟨-, rfl⟩ := Prod.mk.inj (Option.some.inj (hrun.symm.trans hrun'))
    exact hiff.mp hvs
  · exact fun hle => ⟨vs, hrun, hiff.mpr hle⟩

theorem atoi_iff_small :
    (∃ vs, atoi 3 (putString ⟨fun _ => 0⟩ 0x1000 [45, 55]) 0x1000 = some (-7, vs) ∧
      ∀ v ∈ vs, IsInt v) ↔ (-7 : Int).natAbs ≤ 2147483599 :=
  have htext : TextOf [45, 55] (-7) :=
    Or.inl ⟨[55], .single (d := 7) (by decide) (by decide), rfl⟩
  atoi_iff (putString_str (chars_of_all (by decide))) htext (by decide) (by decide)

/-- `"2147483647"` -/
def greatest : List UInt8 := [50, 49, 52, 55, 52, 56, 51, 54, 52, 55]

theorem greatest_text : TextOf greatest 2147483647 := by
  have hitoa : Printf.itoa 2147483647 = greatest := by
    simp [Printf.itoa, Printf.decimals, greatest, ofInt]
  exact Or.inl (hitoa ▸ itoa_decimal (by decide))

/-- With the last digit of the greatest `int` the sum is `2147483640 + 55`. -/
theorem atoi_fails : TextOf greatest 2147483647 ∧
    ¬ ∃ vs, atoi 11 (putString ⟨fun _ => 0⟩ 0x1000 greatest) 0x1000 = some (2147483647, vs) ∧
      ∀ v ∈ vs, IsInt v := by
  have hput : Str (putString ⟨fun _ => 0⟩ 0x1000 greatest) 0x1000 greatest :=
    putString_str (chars_of_all (by decide))
  have hfuel : greatest.length < 11 := by decide
  obtain ⟨vs, hrun, hiff⟩ := atoi_run hput greatest_text (by decide) hfuel
  refine ⟨greatest_text, fun hex => ?_⟩
  obtain ⟨vs', hrun', hvs⟩ := hex
  obtain ⟨-, rfl⟩ := Prod.mk.inj (Option.some.inj (hrun.symm.trans hrun'))
  exact absurd (hiff.mp hvs) (by decide)

end Foos.Conv
