import Foos.Libc
import Foos.Memmem

/-! `memcmp` of `string.h` as its instructions: `repe cmpsb`, and the two jumps on its flags. -/
namespace Foos.Cmpsb
open ByteMemory CString Libc

/-- The flags that `je` and `jl` look at. -/
structure Flags where
  zero : Bool
  sign : Bool
  overflow : Bool

/-- The flags of the difference `x - y` of two bytes. -/
def cmpb (x y : UInt8) : Flags where
  zero := x == y
  sign := 0x80 ≤ x - y
  overflow := (0x80 ≤ x) != (0x80 ≤ y) && (0x80 ≤ x - y) != (0x80 ≤ x)

/-- The condition of `jl`. -/
def Flags.less (fl : Flags) : Bool := fl.sign != fl.overflow

/-- `repe cmpsb` subtracts the byte at `edi` from the byte at `esi`; with a count of zero it
leaves the flags alone. -/
def repeCmpsb (rd : Nat → Option UInt8) : Nat → Nat → Nat → Flags → Option Flags
  | 0, _, _, fl => some fl
  | ecx+1, edi, esi, _ => do
    let x ← rd esi
    let y ← rd edi
    if x = y then repeCmpsb rd ecx (edi + 1) (esi + 1) (cmpb x y) else some (cmpb x y)

/-- `memcmp(a,b,n)`, with the flags on entry. -/
def memcmp (rd : Nat → Option UInt8) (fl : Flags) (a b n : Nat) : Option Int := do
  let fl ← repeCmpsb rd n a b fl
  if fl.zero then some 0 else if fl.less then some 1 else some (-1)

/-- Memory that may be read everywhere. -/
def whole (m : Mem) : Nat → Option UInt8 := fun a => some (m a)

/-- Of the same half of the byte range. -/
def SameHalf (x y : UInt8) : Prop := x < 0x80 ↔ y < 0x80

/-- `ret` tells how the first `n` bytes at `a` and `b` compare. -/
structure Compares (m : Mem) (a b n : Nat) (ret : Int) : Prop where
  equal : ret = 0 ↔ ∀ i, i < n → m (a + i) = m (b + i)
  differ : ∀ i, i < n → DifferAt m a b i →
    ret.sign = ((m (a + i)).toNat - (m (b + i)).toNat : Int).sign

/-- With no bytes to compare the zero flag is set; else the first two bytes that differ are of the
same half. -/
def Comparable (fl : Flags) (m : Mem) (a b n : Nat) : Prop :=
  if n = 0 then fl.zero = true
  else ∀ i, i < n → DifferAt m a b i → SameHalf (m (a + i)) (m (b + i))

variable {m : Mem} {rd : Nat → Option UInt8} {fl : Flags} {x y : UInt8} {a b i n : Nat}

theorem cmpb_zero : (cmpb x y).zero = true ↔ x = y := beq_iff_eq

theorem toInt8_toInt (x : UInt8) :
    x.toInt8.toInt = if x.toNat < 128 then (x.toNat : Int) else (x.toNat : Int) - 256 := by
  have h : x.toInt8.toInt = x.toBitVec.toInt := rfl
  rw [h, BitVec.toInt_eq_toNat_cond, UInt8.toNat_toBitVec]
  split <;> split <;> omega

/-- `jl` after a comparison compares signed bytes. -/
theorem cmpb_less (x y : UInt8) : (cmpb x y).less = decide (x.toInt8 < y.toInt8) := by
  have hx := x.toNat_lt
  have hy := y.toNat_lt
  have h80 : (0x80 : UInt8).toNat = 128 := rfl
  simp only [Flags.less, cmpb, Int8.lt_iff_toInt_lt, toInt8_toInt, UInt8.le_iff_toNat_le,
    UInt8.toNat_sub, h80]
  by_cases hx80 : 128 ≤ x.toNat <;> by_cases hy80 : 128 ≤ y.toNat <;>
    by_cases hd : 128 ≤ (256 - y.toNat + x.toNat) % 256 <;>
      simp [hx80, hy80, hd, Nat.not_lt.mpr] <;> omega

/-- What is left of a comparison when all bytes so far were equal. -/
def verdict (fl : Flags) : Int := if fl.zero then 0 else if fl.less then 1 else -1

theorem memcmp_eq (rd : Nat → Option UInt8) (fl : Flags) (a b n : Nat) :
    memcmp rd fl a b n = (repeCmpsb rd n a b fl).map verdict := by
  rw [memcmp]
  cases repeCmpsb rd n a b fl with
  | none => rfl
  | some fl =>
    simp only [Option.bind_eq_bind, Option.bind_some, Option.map_some, verdict]
    split_ifs <;> rfl

theorem repeCmpsb_succ (hrd : Readable rd m a (n + 1)) (hrd' : Readable rd m b (n + 1)) :
    repeCmpsb rd (n + 1) a b fl = if m b = m a then
      repeCmpsb rd n (a + 1) (b + 1) (cmpb (m b) (m a)) else some (cmpb (m b) (m a)) := by
  have ha : rd a = some (m a) := hrd a (Nat.le_refl a) (by omega)
  have hb : rd b = some (m b) := hrd' b (Nat.le_refl b) (by omega)
  simp only [repeCmpsb, ha, hb, Option.bind_eq_bind, Option.bind_some]

/-- The comparison ends behind the block or at the first bytes that differ. -/
theorem memcmp_run (fl : Flags) (hrd : Readable rd m a n) (hrd' : Readable rd m b n) (hn : n ≠ 0) :
    ((∀ i, i < n → m (a + i) = m (b + i)) ∧ memcmp rd fl a b n = some 0) ∨
    ∃ i, i < n ∧ DifferAt m a b i ∧
      memcmp rd fl a b n = some (if (m (b + i)).toInt8 < (m (a + i)).toInt8 then 1 else -1) := by
  obtain ⟨n, rfl⟩ := Nat.exists_eq_add_one_of_ne_zero hn
  clear hn
  induction n generalizing a b fl with
  | zero =>
    rw [memcmp_eq, repeCmpsb_succ hrd hrd']
    by_cases heq : m b = m a
    · refine Or.inl ⟨fun i hi => ?_, ?_⟩
      · obtain rfl : i = 0 := by omega
        exact heq.symm
      · rw [if_pos heq, repeCmpsb, Option.map_some, verdict, if_pos (cmpb_zero.mpr heq)]
    · refine Or.inr ⟨0, Nat.zero_lt_one, .zero (Ne.symm heq), ?_⟩
      rw [if_neg heq, Option.map_some, verdict, if_neg (mt cmpb_zero.mp heq), cmpb_less]
      simp only [decide_eq_true_eq, Nat.add_zero]
  | succ n ih =>
    rw [memcmp_eq, repeCmpsb_succ hrd hrd']
    by_cases heq : m b = m a
    · rw [if_pos heq, ← memcmp_eq]
      obtain ⟨hall, hrun⟩ | ⟨i, hi, hd, hrun⟩ := ih _ (hrd.sub (Nat.le_add_right a 1) (by omega))
        (hrd'.sub (Nat.le_add_right b 1) (by omega))
      · refine Or.inl ⟨fun i hi => ?_, hrun⟩
        cases i with
        | zero => exact heq.symm
        | succ i =>
          have hnext := hall i (by omega)
          rwa [Nat.add_right_comm a, Nat.add_right_comm b] at hnext
      · refine Or.inr ⟨i + 1, by omega, hd.succ heq.symm, ?_⟩
        rw [hrun, Nat.add_right_comm a, Nat.add_right_comm b]
        rfl
    · refine Or.inr ⟨0, Nat.succ_pos _, .zero (Ne.symm heq), ?_⟩
      rw [if_neg heq, Option.map_some, verdict, if_neg (mt cmpb_zero.mp heq), cmpb_less]
      simp only [decide_eq_true_eq, Nat.add_zero]

theorem readable_whole (m : Mem) (a n : Nat) : Readable (whole m) m a n := fun _ _ _ => rfl

/-- The signed comparison of two bytes is the unsigned one exactly within a half. -/
theorem sign_iff (hne : x ≠ y) :
    (if y.toInt8 < x.toInt8 then 1 else -1 : Int).sign = (x.toNat - y.toNat : Int).sign ↔
      SameHalf x y := by
  have hx := x.toNat_lt
  have hy := y.toNat_lt
  have hnat : x.toNat ≠ y.toNat := fun h => hne (UInt8.toNat_inj.mp h)
  have h80 : (0x80 : UInt8).toNat = 128 := rfl
  simp only [SameHalf, Int8.lt_iff_toInt_lt, toInt8_toInt, UInt8.lt_iff_toNat_lt, h80]
  cases Nat.lt_or_gt_of_ne hnat with
  | inl hlt =>
    rw [Int.sign_eq_neg_one_of_neg (show (x.toNat - y.toNat : Int) < 0 by omega)]
    split_ifs <;> simp <;> omega
  | inr hgt =>
    rw [Int.sign_eq_one_of_pos (show (0 : Int) < x.toNat - y.toNat by omega)]
    split_ifs <;> simp <;> omega

/-- What a comparison returns for blocks that differ. -/
theorem compares_differ (hi : i < n) (hd : DifferAt m a b i) {ret : Int} (hne : ret ≠ 0) :
    Compares m a b n ret ↔ ret.sign = ((m (a + i)).toNat - (m (b + i)).toNat : Int).sign := by
  constructor
  · exact fun h => h.differ i hi hd
  · intro h
    refine ⟨⟨fun h0 => absurd h0 hne, fun hall => absurd (hall i hi) hd.1⟩, fun j hj hdj => ?_⟩
    rwa [hdj.unique hd]

theorem compares_equal (hall : ∀ i, i < n → m (a + i) = m (b + i)) {ret : Int} :
    Compares m a b n ret ↔ ret = 0 :=
  ⟨fun h => h.equal.mpr hall, fun h0 => ⟨⟨fun _ => hall, fun _ => h0⟩,
    fun i hi hd => absurd (hall i hi) hd.1⟩⟩

theorem verdict_zero : verdict fl = 0 ↔ fl.zero = true := by
  unfold verdict
  split_ifs with hz hl
  · exact iff_of_true rfl hz
  · exact iff_of_false (by decide) hz
  · exact iff_of_false (by decide) hz

theorem signedSign_ne (x y : UInt8) : (if y.toInt8 < x.toInt8 then 1 else -1 : Int) ≠ 0 := by
  split_ifs <;> decide

/-- Of all blocks. -/
theorem compares_iff (fl : Flags) (m : Mem) (a b n : Nat) :
    (∃ ret, memcmp (whole m) fl a b n = some ret ∧ Compares m a b n ret) ↔
      Comparable fl m a b n := by
  by_cases hn : n = 0
  · subst hn
    have hrun : memcmp (whole m) fl a b 0 = some (verdict fl) := by
      rw [memcmp_eq]
      rfl
    rw [hrun, Comparable, if_pos rfl, ← verdict_zero]
    simp only [Option.some.injEq, exists_eq_left',
      compares_equal (fun i hi => absurd hi (Nat.not_lt_zero i))]
  · rw [Comparable, if_neg hn]
    cases memcmp_run fl (readable_whole m a n) (readable_whole m b n) hn with
    | inl hall =>
      obtain ⟨hall, hrun⟩ := hall
      rw [hrun]
      exact iff_of_true ⟨0, rfl, (compares_equal hall).mpr rfl⟩
        fun i hi hd => absurd (hall i hi) hd.1
    | inr hdiffer =>
      obtain ⟨i, hi, hd, hrun⟩ := hdiffer
      rw [hrun]
      simp only [Option.some.injEq, exists_eq_left',
        compares_differ hi hd (signedSign_ne _ _), sign_iff hd.1]
      exact ⟨fun h j _ hdj => hdj.unique hd ▸ h, fun h => h i hi hd⟩

/-- Of all strings, up to the end of the shorter one. -/
theorem strings_iff {s t : List UInt8} {fuel : Nat} (fl : Flags) (hs : Str m a s) (ht : Str m b t)
    (hfuel : s.length < fuel) :
    (∃ ret ret', memcmp (whole m) fl a b (min s.length t.length + 1) = some ret ∧
      strcmp fuel m a b = some ret' ∧ ret.sign = ret'.sign) ↔
      Comparable fl m a b (min s.length t.length + 1) := by
  rw [Comparable, if_neg (Nat.succ_ne_zero _)]
  have hmemcmp := memcmp_run fl (readable_whole m a (min s.length t.length + 1))
    (readable_whole m b _) (Nat.succ_ne_zero _)
  cases strcmp_differ hs ht hfuel with
  | inl heq =>
    obtain ⟨rfl, hstrcmp⟩ := heq
    have hnone : ∀ i, i < min s.length s.length + 1 → ¬ DifferAt m a b i := fun i hi hd =>
      hd.strings_ne (by omega) hs ht
    cases hmemcmp with
    | inl hall => exact iff_of_true ⟨0, 0, hall.2, hstrcmp, rfl⟩ fun i hi hd => absurd hd (hnone i hi)
    | inr hdiffer =>
      obtain ⟨i, hi, hd, -⟩ := hdiffer
      exact absurd hd (hnone i hi)
  | inr hdiffer =>
    obtain ⟨i, hi, hd, hstrcmp⟩ := hdiffer
    cases hmemcmp with
    | inl hall => exact absurd (hall.1 i (by omega)) hd.1
    | inr hdiffer' =>
      obtain ⟨j, hj, hdj, hrun⟩ := hdiffer'
      obtain rfl := hdj.unique hd
      rw [hrun, hstrcmp]
      simp only [Option.some.injEq, exists_and_left, exists_eq_left', sign_iff hd.1]
      exact ⟨fun h u _ hdu => hdu.unique hd ▸ h, fun h => h j hj hd⟩

/-- `memcmp` compares blocks as unsigned bytes, and strings as `strcmp` does, exactly when the first
bytes that differ are of the same half, and for no bytes when the zero flag is set. -/
theorem memcmp_iff (fl : Flags) (m : Mem) :
    (∀ a b n, (∃ ret, memcmp (whole m) fl a b n = some ret ∧ Compares m a b n ret) ↔
      Comparable fl m a b n) ∧
    ∀ (s t : List UInt8) (a b fuel : Nat), Str m a s → Str m b t → s.length < fuel →
      ((∃ ret ret', memcmp (whole m) fl a b (min s.length t.length + 1) = some ret ∧
        strcmp fuel m a b = some ret' ∧ ret.sign = ret'.sign) ↔
        Comparable fl m a b (min s.length t.length + 1)) :=
  ⟨compares_iff fl m, fun _ _ _ _ _ hs ht hfuel => strings_iff fl hs ht hfuel⟩

/-- The strings `ab` and `ac`. -/
def twoWords : Mem := putString (putString ⟨fun _ => 0⟩ 0x1000 [97, 98]) 0x2000 [97, 99]

theorem memcmp_iff_words :
    ((∃ ret, memcmp (whole twoWords) ⟨true, false, false⟩ 0x1000 0x2000 0 = some ret ∧
      Compares twoWords 0x1000 0x2000 0 ret) ↔
      Comparable ⟨true, false, false⟩ twoWords 0x1000 0x2000 0) ∧
    ((∃ ret ret', memcmp (whole twoWords) ⟨true, false, false⟩ 0x1000 0x2000 3 = some ret ∧
      strcmp 3 twoWords 0x1000 0x2000 = some ret' ∧ ret.sign = ret'.sign) ↔
      Comparable ⟨true, false, false⟩ twoWords 0x1000 0x2000 3) :=
  ⟨(memcmp_iff _ _).1 _ _ _,
    (memcmp_iff _ twoWords).2 [97, 98] [97, 99] _ _ 3 (by decide) (by decide) (by decide)⟩

/-- The strings of the one byte `0x80` and of the one byte `1`. -/
def highByte : Mem := putString (putString ⟨fun _ => 0⟩ 0x1000 [0x80]) 0x2000 [1]

/-- The byte `0x80` is less than `1` for `memcmp`, and greater for `strcmp`; no bytes at all are
not equal when the zero flag happens to be clear. -/
theorem memcmp_fails :
    memcmp (whole highByte) ⟨true, false, false⟩ 0x1000 0x2000 1 = some (-1) ∧
    ¬ Compares highByte 0x1000 0x2000 1 (-1) ∧ strcmp 2 highByte 0x1000 0x2000 = some 127 ∧
    memcmp (whole highByte) ⟨false, false, false⟩ 0x1000 0x2000 0 = some (-1) ∧
    ¬ Compares highByte 0x1000 0x2000 0 (-1) := by
  refine ⟨by decide, fun h => ?_, by decide, by decide, fun h => ?_⟩
  · have hd : DifferAt highByte 0x1000 0x2000 0 := .zero (by decide)
    exact absurd (h.differ 0 Nat.zero_lt_one hd) (by decide)
  · exact absurd (h.equal.mpr fun i hi => absurd hi (Nat.not_lt_zero i)) (by decide)

end Foos.Cmpsb
