import Foos.Conv

/-! The texts of the number conversions as numerals. -/
namespace Foos.Conv
open ByteMemory CString Word32 Numeral

theorem decimals_nat (n : Nat) : Printf.decimals n =
    digit (n % 10) :: if n / 10 = 0 then [] else Printf.decimals (n / 10 : Nat) := by
  have hdiv : (n : Int).tdiv 10 = (n / 10 : Nat) := (Int.ofNat_tdiv n 10).symm
  have hmod : (n : Int).tmod 10 = (n % 10 : Nat) := (Int.ofNat_tmod n 10).symm
  have hlt : n % 10 < 10 := Nat.mod_lt n (by decide)
  have hchar : UInt8.ofNat (ofInt ((n % 10 : Nat) + 48)) = digit (n % 10) := by
    rw [ofInt_lt_of_nonneg (by omega) (by omega), digit, if_pos hlt]
    congr 1
    omega
  rw [Printf.decimals, hdiv, hmod, hchar]
  simp only [Int.natCast_eq_zero]

/-- The digits that the loop leaves, turned round. -/
theorem decimals_canonical (n : Nat) : Canonical 10 (Printf.decimals n).reverse n := by
  induction n using Nat.strongRecOn with
  | ind n ih =>
    rw [decimals_nat]
    split
    · rename_i hzero
      have hlt : n < 10 := by omega
      rw [Nat.mod_eq_of_lt hlt]
      exact .single hlt (by decide)
    · rename_i hne
      rw [List.reverse_cons]
      exact (ih (n / 10) (by omega)).step hne (by decide) (by decide)

theorem lookup_digit {d : Nat} (h : d < 16) :
    (Printf.chars "0123456789ABCDEF").getD d 0 = digit d := by
  have hchars : Printf.chars "0123456789ABCDEF" =
      [48, 49, 50, 51, 52, 53, 54, 55, 56, 57, 65, 66, 67, 68, 69, 70] := by simp [Printf.chars]
  rw [hchars]
  revert d
  decide

theorem hexFill_snoc (len n : Nat) : Printf.hexFill (len + 1) n [] =
    Printf.hexFill len (n / 16) [] ++ [digit (n % 16)] := by
  have hmask : n &&& 0xF = n % 16 := Nat.and_two_pow_sub_one_eq_mod n 4
  rw [Printf.hexFill, hmask, lookup_digit (Nat.mod_lt n (by decide)), Nat.shiftRight_eq_div_pow,
    ← hexFill_append, List.nil_append]

/-- As many digits as were counted. -/
theorem hexFill_canonical {n : Nat} (hn : n ≠ 0) :
    Canonical 16 (Printf.hexFill (Printf.hexCount n) n []) n := by
  induction n using Nat.strongRecOn with
  | ind n ih =>
    rw [Printf.hexCount, if_neg hn, Nat.shiftRight_eq_div_pow, hexFill_snoc]
    show Canonical 16 (Printf.hexFill (Printf.hexCount (n / 16)) (n / 16) [] ++ [digit (n % 16)]) n
    by_cases hzero : n / 16 = 0
    · have hlt : n < 16 := by omega
      rw [hzero, Printf.hexCount, if_pos rfl, Nat.mod_eq_of_lt hlt]
      exact .single hlt (by decide)
    · exact (ih (n / 16) (by omega) hzero).step hzero (by decide) (by decide)

theorem numHexDigits_canonical (n : Nat) :
    Canonical 16 (Printf.hexFill (Printf.numHexDigits n) n []) n := by
  by_cases hn : n = 0
  · rw [hn, Printf.numHexDigits, if_pos rfl, hexFill_snoc]
    exact .single (by decide) (by decide)
  · rw [Printf.numHexDigits, if_neg hn]
    exact hexFill_canonical hn

/-- The canonical decimal representation: the sign of a negative number, and the digits. -/
def IsDecimal (s : List UInt8) (z : Int) : Prop :=
  ∃ t, Canonical 10 t z.natAbs ∧ s = if z < 0 then 45 :: t else t

/-- A word for `itoa` or for `utoa`. -/
inductive Number where
  | int (w : UInt32)
  | uint (w : UInt32)

def Number.value : Number → Int
  | .int w => toInt w.toNat
  | .uint w => w.toNat

def Number.write (fuel : Nat) (m : Mem) : Number → Nat → Option Mem
  | .int w, s => itoa fuel m (toInt w.toNat) s
  | .uint w, s => utoa fuel m w s

def Number.text : Number → List UInt8
  | .int w => Printf.itoa (toInt w.toNat)
  | .uint w => Printf.utoa w

/-- The conversion ends, with the string `s` at `a`. -/
def Writes (fuel : Nat) (m : Mem) (a : Nat) (x : Number) (s : List UInt8) : Prop :=
  ∃ m', x.write fuel m a = some m' ∧ Str m' a s

theorem itoa_chars (n : Int) : ∀ c ∈ Printf.itoa n, c ≠ 0 := by
  have hsign : Printf.chars "-" = [45] := by simp [Printf.chars]
  intro c hc
  rw [Printf.itoa, List.mem_reverse, List.mem_append] at hc
  cases hc with
  | inl hc => exact decimals_chars _ c hc
  | inr hc =>
    split at hc
    · rw [hsign] at hc
      exact List.mem_singleton.mp hc ▸ by decide
    · exact absurd hc List.not_mem_nil

theorem utoa_chars (n : UInt32) : ∀ c ∈ Printf.utoa n, c ≠ 0 := fun c hc =>
  decimals_chars _ c (List.mem_reverse.mp hc)

theorem Number.chars (x : Number) : ∀ c ∈ x.text, c ≠ 0 := by
  cases x with
  | int w => exact itoa_chars _
  | uint w => exact utoa_chars w

theorem Number.write_run (x : Number) (m : Mem) (a : Nat) {fuel : Nat} (hfuel : 11 < fuel) :
    x.write fuel m a = some (putString m a x.text) := by
  cases x with
  | int w =>
    have hlen := Printf.itoa_length (Printf.toInt_natAbs w.toNat_lt)
    exact itoa_run m (Nat.lt_of_le_of_lt hlen hfuel)
  | uint w => exact utoa_run m (Nat.lt_of_le_of_lt (Printf.utoa_length w) hfuel)

theorem writes_iff {x : Number} {m : Mem} {a fuel : Nat} {s : List UInt8} (hfuel : 11 < fuel) :
    Writes fuel m a x s ↔ s = x.text := by
  have hput : Str (putString m a x.text) a x.text := putString_str x.chars
  rw [Writes, x.write_run m a hfuel]
  constructor
  · rintro ⟨m', hm, hs⟩
    obtain rfl := Option.some.inj hm
    exact hs.unique hput
  · rintro rfl
    exact ⟨_, rfl, hput⟩

theorem IsDecimal.char {s : List UInt8} {z : Int} (h : IsDecimal s z) :
    ∀ c ∈ s, c = 45 ∨ IsDigit 10 c := by
  obtain ⟨t, ht, rfl⟩ := h
  intro c hc
  split at hc
  · cases List.mem_cons.mp hc with
    | inl heq =>
      obtain rfl := heq
      exact Or.inl rfl
    | inr hc => exact Or.inr (ht.digits c hc)
  · exact Or.inr (ht.digits c hc)

theorem not_digit_sign : ¬ IsDigit 10 45 := by
  unfold IsDigit
  decide

/-- A representation is one of one number. -/
theorem IsDecimal.unique {s : List UInt8} {z z' : Int} (h : IsDecimal s z) (h' : IsDecimal s z') :
    z = z' := by
  obtain ⟨t, ht, hs⟩ := h
  obtain ⟨t', ht', hs'⟩ := h'
  have hsign : ∀ {u v : List UInt8} {n : Nat}, Canonical 10 u n → u ≠ 45 :: v := by
    rintro u v n hu rfl
    exact not_digit_sign (hu.digits 45 List.mem_cons_self)
  have heq : t = t' → z.natAbs = z'.natAbs := by
    rintro rfl
    exact ht.value.symm.trans ht'.value
  rw [hs'] at hs
  by_cases hz : z < 0
  · by_cases hz' : z' < 0
    · rw [if_pos hz, if_pos hz'] at hs
      have := heq (List.cons.inj hs).2.symm
      omega
    · rw [if_pos hz, if_neg hz'] at hs
      exact absurd hs (hsign ht')
  · by_cases hz' : z' < 0
    · rw [if_neg hz, if_pos hz'] at hs
      exact absurd hs.symm (hsign ht)
    · rw [if_neg hz, if_neg hz'] at hs
      have := heq hs.symm
      omega

/-- The word of the least `int`. -/
def least : UInt32 := 0x80000000

theorem toInt_neg {n : Int} (hneg : n < 0) (hlow : -2147483648 < n) :
    toInt (ofInt (-n)) = (n.natAbs : Nat) := by
  rw [ofInt_lt_of_nonneg (by omega) (by omega), toInt, if_pos (by omega)]
  omega

theorem itoa_decimal {n : Int} (hlow : -2147483648 < n) : IsDecimal (Printf.itoa n) n := by
  have hsign : Printf.chars "-" = [45] := by simp [Printf.chars]
  refine ⟨_, decimals_canonical n.natAbs, ?_⟩
  rw [Printf.itoa]
  by_cases hneg : n < 0
  · simp only [if_pos hneg, hsign, toInt_neg hneg hlow, List.reverse_append]
    rfl
  · have hnat : (n.natAbs : Int) = n := Int.natAbs_of_nonneg (Int.not_lt.mp hneg)
    simp only [if_neg hneg, List.append_nil, hnat]

theorem utoa_decimal (n : UInt32) : IsDecimal (Printf.utoa n) n.toNat :=
  ⟨_, decimals_canonical n.toNat, (if_neg (Int.not_lt.mpr (Int.natCast_nonneg _))).symm⟩

theorem toInt_least {w : UInt32} (h : w ≠ least) : -2147483648 < toInt w.toNat := by
  have hne : w.toNat ≠ 2147483648 := fun heq => h (UInt32.toNat_inj.mp heq)
  unfold toInt
  split <;> omega

/-- The digits of the least `int` are computed from a negative number: `-./,),(-*,(`. -/
theorem least_text :
    (Number.int least).text = [45, 46, 47, 44, 41, 44, 40, 45, 42, 44, 40] := by
  have hleast : toInt least.toNat = -2147483648 := by decide
  rw [Number.text, hleast]
  simp [Printf.itoa, Printf.decimals, Printf.chars, ofInt, toInt]

theorem least_not_decimal (z : Int) : ¬ IsDecimal (Number.int least).text z := by
  intro h
  rcases h.char 40 (least_text ▸ by decide) with h | ⟨d, hd, h⟩
  · exact absurd h (by decide)
  · revert d
    decide

theorem Number.decimal {x : Number} (h : x ≠ .int least) : IsDecimal x.text x.value := by
  cases x with
  | int w => exact itoa_decimal (toInt_least fun hw => h (congrArg Number.int hw))
  | uint w => exact utoa_decimal w

/-- A conversion writes the canonical representation of its number, and no other number's,
exactly when it is not `itoa` of the least `int`. -/
theorem writes_decimal_iff (m : Mem) (a : Nat) {fuel : Nat} (hfuel : 11 < fuel) (x : Number) :
    (∃ s, Writes fuel m a x s ∧ IsDecimal s x.value ∧
      ∀ y, Writes fuel m a y s → y.value = x.value) ↔ x ≠ .int least := by
  constructor
  · rintro ⟨s, hs, hdecimal, -⟩ rfl
    rw [(writes_iff hfuel).mp hs] at hdecimal
    exact least_not_decimal _ hdecimal
  · intro hne
    have hdecimal := Number.decimal hne
    refine ⟨x.text, (writes_iff hfuel).mpr rfl, hdecimal, fun y hy => ?_⟩
    rw [writes_iff hfuel] at hy
    have hother : y ≠ .int least := by
      rintro rfl
      exact least_not_decimal _ (hy ▸ hdecimal)
    exact (Number.decimal hother).unique (hy ▸ hdecimal)

theorem writes_decimal_iff_small :
    (∃ s, Writes 12 ⟨fun _ => 0⟩ 0x1000 (.int 0xFFFFFFF6) s ∧
      IsDecimal s (Number.int 0xFFFFFFF6).value ∧ ∀ y, Writes 12 ⟨fun _ => 0⟩ 0x1000 y s →
        y.value = (Number.int 0xFFFFFFF6).value) ↔ Number.int 0xFFFFFFF6 ≠ .int least :=
  writes_decimal_iff _ _ (by decide) _

theorem writes_decimal_fails :
    Writes 12 ⟨fun _ => 0⟩ 0x1000 (.int least) [45, 46, 47, 44, 41, 44, 40, 45, 42, 44, 40] ∧
    ¬ ∃ s, Writes 12 ⟨fun _ => 0⟩ 0x1000 (.int least) s ∧
      IsDecimal s (Number.int least).value := by
  refine ⟨(writes_iff (by decide)).mpr least_text.symm, ?_⟩
  rintro ⟨s, hs, hdecimal⟩
  rw [(writes_iff (by decide)).mp hs] at hdecimal
  exact least_not_decimal _ hdecimal

/-- The digits that `num_hex_digits` counts. -/
def hexDigits (n : UInt32) : List UInt8 :=
  Printf.hexFill (Printf.numHexDigits n.toNat) n.toNat []

theorem hexDigits_canonical (n : UInt32) : Canonical 16 (hexDigits n) n.toNat :=
  numHexDigits_canonical n.toNat

theorem itoh_even {n : UInt32} (h : (hexDigits n).length % 2 = 0) :
    Printf.itoh n = hexDigits n := by
  have hlen : (hexDigits n).length = Printf.numHexDigits n.toNat := Printf.hexFill_length ..
  have hodd : ¬ Printf.numHexDigits n.toNat &&& 1 = 1 := by
    rw [Nat.and_one_is_mod, ← hlen, h]
    decide
  exact congrArg (· ++ hexDigits n) (if_neg hodd)

/-- An odd number of digits is padded. -/
theorem itoh_odd {n : UInt32} (h : (hexDigits n).length % 2 = 1) :
    Printf.itoh n = digit 0 :: hexDigits n := by
  have hzero : Printf.chars "0" = [digit 0] := by simp [Printf.chars, digit]
  have hlen : (hexDigits n).length = Printf.numHexDigits n.toNat := Printf.hexFill_length ..
  have hodd : Printf.numHexDigits n.toNat &&& 1 = 1 := by
    rw [Nat.and_one_is_mod, ← hlen, h]
  refine (congrArg (· ++ hexDigits n) (if_pos hodd)).trans ?_
  rw [hzero]
  rfl

theorem itoh_cases (n : UInt32) :
    (hexDigits n).length % 2 = 0 ∧ Printf.itoh n = hexDigits n ∨
    (hexDigits n).length % 2 = 1 ∧ Printf.itoh n = digit 0 :: hexDigits n := by
  cases Nat.mod_two_eq_zero_or_one (hexDigits n).length with
  | inl h => exact Or.inl ⟨h, itoh_even h⟩
  | inr h => exact Or.inr ⟨h, itoh_odd h⟩

theorem itoh_digits (n : UInt32) : ∀ c ∈ Printf.itoh n, IsDigit 16 c := by
  have hfill := (hexDigits_canonical n).digits
  rcases itoh_cases n with ⟨-, h⟩ | ⟨-, h⟩
  · rwa [h]
  · rw [h]
    exact List.forall_mem_cons.mpr ⟨⟨0, by decide, rfl⟩, hfill⟩

theorem itoh_chars (n : UInt32) : ∀ c ∈ Printf.itoh n, c ≠ 0 := fun c hc =>
  (itoh_digits n c hc).ne_zero (by decide)

theorem itoh_length_even (n : UInt32) : (Printf.itoh n).length % 2 = 0 := by
  rcases itoh_cases n with ⟨hlen, h⟩ | ⟨hlen, h⟩
  · rwa [h]
  · rw [h, List.length_cons]
    omega

theorem itoh_value (n : UInt32) : Numeral.value 16 (Printf.itoh n) = n.toNat := by
  rcases itoh_cases n with ⟨-, h⟩ | ⟨-, h⟩
  · rw [h, (hexDigits_canonical n).value]
  · rw [h, value_zero_cons, (hexDigits_canonical n).value]

theorem itoh_zero : Printf.itoh 0 = [digit 0, digit 0] := by
  have hone : hexDigits 0 = [digit 0] := hexFill_snoc 0 0
  rw [itoh_odd (by rw [hone]; rfl), hone]

/-- The string that `itoh` writes: the upper-case hexadecimal digits of the number, with a zero in
front where their count is odd, and nothing beside it and its terminator. -/
theorem itoh_writes (m : Mem) (n : UInt32) (a : Nat) :
    ∃ s t, Str (itoh m n a) a s ∧ Frame [(a, s.length + 1)] m (itoh m n a) ∧
      (∀ c ∈ s, IsDigit 16 c) ∧ s.length % 2 = 0 ∧ Numeral.value 16 s = n.toNat ∧
      Canonical 16 t n.toNat ∧ (s = t ∨ s = digit 0 :: t) ∧ (n = 0 → s = [digit 0, digit 0]) := by
  refine ⟨Printf.itoh n, hexDigits n, ?_, ?_, itoh_digits n, itoh_length_even n, itoh_value n,
    hexDigits_canonical n, (itoh_cases n).imp And.right And.right, ?_⟩
  · rw [itoh_run]
    exact putString_str (itoh_chars n)
  · rw [itoh_run]
    exact (Frame.refl _ m).putString (Nat.le_refl a) (Nat.lt_succ_self _)
  · rintro rfl
    exact itoh_zero

end Foos.Conv
