import Foos.Frame
import Foos.Libc
import Foos.Numeral
import Foos.Printf

/-! The number conversions of `libc/conv.c` on memory, with `strrev` of `libc/string.c`. -/
namespace Foos.Conv
open ByteMemory CString Word32 Numeral

/-- `while(*end++);`, with the value `end` has in the end. -/
def endWhile : Nat → Mem → Nat → Option Nat
  | 0, _, _ => none
  | fuel+1, m, e => if m e = 0 then some (e + 1) else endWhile fuel m (e + 1)

/-- `while(start<end)`: the ends are swapped. -/
def swapWhile (m : Mem) (start e : Nat) : Mem :=
  if start < e then
    let tmp := m start
    swapWhile (store8 (store8 m start (m e)) e tmp) (start + 1) (e - 1)
  else m
termination_by e - start

def strrev (fuel : Nat) (m : Mem) (str : Nat) : Option (Nat × Mem) :=
  (endWhile fuel m str).map fun e => (str, swapWhile m str (e - 2))

/-- `do { *x=n%10+'0'; x++; } while(n/=10);`, with the value `x` has in the end. -/
def digitsWhile (m : Mem) (x : Nat) (n : Int) : Nat × Mem :=
  let m := store8 m x (UInt8.ofNat (ofInt (n.tmod 10 + 48)))
  if n.tdiv 10 = 0 then (x + 1, m) else digitsWhile m (x + 1) (n.tdiv 10)
termination_by n.natAbs
decreasing_by
  rw [Int.natAbs_tdiv]
  rename_i h
  have hne : n.natAbs ≠ 0 := fun h0 => h (by rw [Int.natAbs_eq_zero.mp h0]; rfl)
  exact Nat.div_lt_self (Nat.pos_of_ne_zero hne) (by decide)

/-- `n=-n` wraps for the least `int`. -/
def itoa (fuel : Nat) (m : Mem) (n : Int) (s : Nat) : Option Mem :=
  let neg := n < 0
  let n := if n < 0 then toInt (ofInt (-n)) else n
  let r := digitsWhile m s n
  let r := if neg then (r.1 + 1, store8 r.2 r.1 45) else r
  (strrev fuel (store8 r.2 r.1 0) s).map Prod.snd

def utoa (fuel : Nat) (m : Mem) (n : UInt32) (s : Nat) : Option Mem :=
  let r := digitsWhile m s n.toNat
  (strrev fuel (store8 r.2 r.1 0) s).map Prod.snd

/-- `for(--len; len>=0; n>>= 4, --len)` -/
def hexWhile (m : Mem) (s : Nat) : Nat → Nat → Mem
  | 0, _ => m
  | len+1, n =>
    hexWhile (store8 m (s + len) ((Printf.chars "0123456789ABCDEF").getD (n &&& 0xF) 0)) s len
      (n >>> 4)

def itoh (m : Mem) (n : UInt32) (s : Nat) : Mem :=
  let len := Printf.numHexDigits n.toNat
  let r := if len &&& 1 = 1 then (s + 1, store8 m s 48) else (s, m)
  hexWhile (store8 r.2 (r.1 + len) 0) r.1 len n.toNat

variable {m : Mem} {s : List UInt8} {a fuel : Nat}

theorem endWhile_str (h : Str m a s) (hfuel : s.length < fuel) :
    endWhile fuel m a = some (a + s.length + 1) := by
  induction s generalizing a fuel with
  | nil =>
    obtain ⟨fuel, rfl⟩ := Nat.exists_eq_add_one_of_ne_zero (Nat.ne_zero_of_lt hfuel)
    rw [endWhile, if_pos (show m a = 0 from h)]
    rfl
  | cons c s ih =>
    simp only [List.length_cons] at hfuel ⊢
    obtain ⟨fuel, rfl⟩ := Nat.exists_eq_add_one_of_ne_zero (Nat.ne_zero_of_lt hfuel)
    rw [endWhile, if_neg (h.1 ▸ h.2.1), ih h.2.2 (by omega)]
    congr 1
    omega

/-- The bytes from `start` to `e` are turned round, whatever they are. -/
theorem swapWhile_at (m : Mem) (start e y : Nat) :
    swapWhile m start e y = if start ≤ y ∧ y ≤ e then m (start + e - y) else m y := by
  induction m, start, e using swapWhile.induct with
  | case1 m start e hlt tmp ih =>
    rw [swapWhile, if_pos hlt, ih]
    by_cases hs : y = start
    · have hback : start + e - y = e := by omega
      rw [if_neg (by omega), if_pos (by omega), hback, hs, store8_ne _ e start _ (by omega),
        store8_same]
    by_cases he : y = e
    · have hback : start + e - y = start := by omega
      rw [if_neg (by omega), if_pos (by omega), hback, he, store8_same]
    · have hother : ∀ x, x ≠ start → x ≠ e →
          store8 (store8 m start (m e)) e tmp x = m x := fun x h1 h2 => by
        rw [store8_ne _ e x _ h2, store8_ne _ start x _ h1]
      by_cases hin : start ≤ y ∧ y ≤ e
      · have hback : start + 1 + (e - 1) - y = start + e - y := by omega
        rw [if_pos (by omega), if_pos hin, hback]
        exact hother _ (by omega) (by omega)
      · rw [if_neg (by omega), if_neg hin]
        exact hother y hs he
  | case2 m start e hge =>
    rw [swapWhile, if_neg hge]
    split
    · congr 1
      omega
    · rfl

theorem strrev_run (h : Str m a s) (hfuel : s.length < fuel) :
    strrev fuel m a = some (a, putString m a s.reverse) := by
  rw [strrev, endWhile_str h hfuel, Option.map_some]
  congr 2
  refine Str.eq_putString (.of_getD (fun c hc => h.chars c (List.mem_reverse.mp hc)) fun t ht => ?_)
    fun y hy => ?_
  · rw [List.length_reverse] at ht
    rw [swapWhile_at]
    cases Nat.lt_or_ge t s.length with
    | inl hlt =>
      obtain ⟨c, hc⟩ : ∃ c, s[s.length - 1 - t]? = some c :=
        ⟨_, List.getElem?_eq_getElem (by omega)⟩
      have hback : a + (a + s.length + 1 - 2) - (a + t) = a + (s.length - 1 - t) := by omega
      rw [if_pos (by omega), hback, h.char hc, List.getD_eq_getElem?_getD,
        List.getElem?_reverse hlt, hc]
      rfl
    | inr hge =>
      obtain rfl : t = s.length := Nat.le_antisymm ht hge
      have hnone : s.reverse.getD s.length 0 = 0 := by
        rw [List.getD_eq_getElem?_getD, List.getElem?_eq_none (by simp)]
        rfl
      rw [hnone, ← h.nul]
      split
      · congr 1
        omega
      · rfl
  · rw [List.length_reverse] at hy
    rw [swapWhile_at, if_neg (by omega)]

/-- The digits, last one first, and how far they go. -/
theorem digitsWhile_eq (m : Mem) (x : Nat) (n : Int) : digitsWhile m x n =
    (x + (Printf.decimals n).length, putBytes m x (Printf.decimals n)) := by
  induction m, x, n using digitsWhile.induct with
  | case1 m x n hzero =>
    rw [digitsWhile, if_pos hzero, Printf.decimals, if_pos hzero]
    rfl
  | case2 m x n m' hne ih =>
    have hdigits : Printf.decimals n =
        UInt8.ofNat (ofInt (n.tmod 10 + 48)) :: Printf.decimals (n.tdiv 10) := by
      rw [Printf.decimals, if_neg hne]
    rw [digitsWhile, if_neg hne, ih, hdigits, List.length_cons, putBytes]
    congr 1
    omega

theorem ofInt_lt_of_nonneg {z : Int} (h : 0 ≤ z) (hlt : z < 4294967296) : ofInt z = z.toNat := by
  rw [ofInt, Int.emod_eq_of_lt h hlt]

theorem decimals_chars (n : Int) : ∀ c ∈ Printf.decimals n, c ≠ 0 := by
  have hdigit : ∀ n : Int, UInt8.ofNat (ofInt (n.tmod 10 + 48)) ≠ 0 := by
    intro n
    have h1 := Int.tmod_lt_of_pos n (show (0 : Int) < 10 by decide)
    have h2 := Int.lt_tmod_of_pos n (show (0 : Int) < 10 by decide)
    rw [ofInt_lt_of_nonneg (by omega) (by omega)]
    intro hzero
    have hnat := congrArg UInt8.toNat hzero
    rw [UInt8.toNat_ofNat', UInt8.toNat_zero] at hnat
    omega
  induction n using Printf.decimals.induct with
  | case1 n ih =>
    rw [Printf.decimals]
    intro c hc
    cases List.mem_cons.mp hc with
    | inl heq =>
      obtain rfl := heq
      exact hdigit n
    | inr hc =>
      split at hc
      · exact absurd hc List.not_mem_nil
      · exact ih ‹_› c hc

/-- Characters and a NUL behind them are turned round. -/
theorem strrev_put (m : Mem) {a fuel : Nat} {s : List UInt8} (hs : ∀ c ∈ s, c ≠ 0)
    (hfuel : s.length < fuel) :
    strrev fuel (store8 (putBytes m a s) (a + s.length) 0) a =
      some (a, putString m a s.reverse) := by
  have hput : Str (putString m a s) a s := putString_str hs
  rw [← putString_eq, strrev_run hput hfuel]
  congr 2
  refine Str.eq_putString (putString_str fun c hc => hs c (List.mem_reverse.mp hc)) fun y hy => ?_
  rw [putString_outside hy, putString_outside (List.length_reverse ▸ hy)]

theorem itoa_run (m : Mem) {n : Int} {a fuel : Nat} (hfuel : (Printf.itoa n).length < fuel) :
    itoa fuel m n a = some (putString m a (Printf.itoa n)) := by
  have hsign : Printf.chars "-" = [45] := by simp [Printf.chars]
  rw [Printf.itoa, List.length_reverse] at hfuel
  simp only [itoa, digitsWhile_eq]
  rw [Printf.itoa]
  by_cases hneg : n < 0
  · simp only [if_pos hneg, hsign] at hfuel ⊢
    have hchars : ∀ c ∈ Printf.decimals (toInt (ofInt (-n))) ++ [45], c ≠ 0 := by
      intro c hc
      cases List.mem_append.mp hc with
      | inl hc => exact decimals_chars _ c hc
      | inr hc => exact List.mem_singleton.mp hc ▸ by decide
    have hput := strrev_put m (a := a) hchars hfuel
    rw [putBytes_append, List.length_append] at hput
    exact congrArg (Option.map Prod.snd) hput
  · simp only [if_neg hneg, List.append_nil] at hfuel ⊢
    exact congrArg (Option.map Prod.snd) (strrev_put m (decimals_chars n) hfuel)

theorem utoa_run (m : Mem) {n : UInt32} {a fuel : Nat} (hfuel : (Printf.utoa n).length < fuel) :
    utoa fuel m n a = some (putString m a (Printf.utoa n)) := by
  rw [Printf.utoa, List.length_reverse] at hfuel
  simp only [utoa, digitsWhile_eq]
  exact congrArg (Option.map Prod.snd) (strrev_put m (decimals_chars n.toNat) hfuel)

theorem hexFill_append (len n : Nat) (s t : List UInt8) :
    Printf.hexFill len n (s ++ t) = Printf.hexFill len n s ++ t := by
  induction len generalizing n s with
  | zero => rfl
  | succ len ih => exact ih (n >>> 4) (_ :: s)

theorem putBytes_store8 {m : Mem} {a p : Nat} {s : List UInt8} (c : UInt8)
    (h : a + s.length ≤ p) :
    putBytes (store8 m p c) a s = store8 (putBytes m a s) p c := by
  induction s generalizing m a with
  | nil => rfl
  | cons d s ih =>
    rw [List.length_cons] at h
    have hswap : store8 (store8 m p c) a d = store8 (store8 m a d) p c := by
      ext y
      simp only [store8]
      split_ifs <;> first | rfl | omega
    rw [putBytes, hswap, ih (by omega), putBytes]

/-- The digits, written from the last one to the first. -/
theorem hexWhile_eq (m : Mem) (a len n : Nat) :
    hexWhile m a len n = putBytes m a (Printf.hexFill len n []) := by
  induction len generalizing m n with
  | zero => rfl
  | succ len ih =>
    have hlen : (Printf.hexFill len (n >>> 4) []).length = len := Printf.hexFill_length ..
    have hlast := hexFill_append len (n >>> 4) []
      [(Printf.chars "0123456789ABCDEF").getD (n &&& 0xF) 0]
    rw [hexWhile, ih, putBytes_store8 _ (by rw [hlen]), Printf.hexFill]
    rw [List.nil_append] at hlast
    rw [hlast, putBytes_append, hlen]
    rfl

/-- The terminator is there before the digits. -/
theorem hexWhile_str (m : Mem) (a len n : Nat) :
    hexWhile (store8 m (a + len) 0) a len n = putString m a (Printf.hexFill len n []) := by
  have hlen : (Printf.hexFill len n []).length = len := Printf.hexFill_length ..
  rw [hexWhile_eq, putBytes_store8 0 (by rw [hlen]), putString_eq, hlen]

theorem itoh_run (m : Mem) (n : UInt32) (a : Nat) :
    itoh m n a = putString m a (Printf.itoh n) := by
  have hzero : Printf.chars "0" = [48] := by simp [Printf.chars]
  simp only [itoh, Printf.itoh]
  split
  · rw [hzero]
    exact hexWhile_str _ (a + 1) _ _
  · exact hexWhile_str m a _ _

end Foos.Conv
