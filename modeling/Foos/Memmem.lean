import Foos.Word
import Foos.Memory

/-! `memmem` of `libc/string.c` on memory of which only a part may be read: a load outside
that part is `none`, and so is a search that outlasts its fuel. -/
namespace Foos.Libc
open ByteMemory

/-- The memory as a reader sees it who may read `[base, base + len)` only. -/
def view (m : Mem) (base len : Nat) : Nat → Option UInt8 :=
  fun a => if base ≤ a ∧ a < base + len then some (m a) else none

/-- `memcmp(a,s,n)` with the constant `s` of `n` bytes: `repe cmpsb` stops at the first bytes
that differ, which are compared as signed. -/
def memcmp (rd : Nat → Option UInt8) : Nat → List UInt8 → Option Int
  | _, [] => some 0
  | a, c :: s => do
    let b ← rd a
    if b = c then memcmp rd (a + 1) s
    else some (if c.toInt8 < b.toInt8 then 1 else -1)

/-- The loop of `memmem` for a needle `n` that begins with `c`. -/
def memmemFrom (rd : Nat → Option UInt8) (h last : Nat) (c : UInt8) (n : List UInt8) :
    Nat → Nat → Option Nat
  | 0, _ => none
  | fuel+1, i =>
    if i ≤ last then do
      let b ← rd (h + i)
      if b = c then do
        let d ← memcmp rd (h + i) n
        if d = 0 then some (h + i) else memmemFrom rd h last c n fuel (i + 1)
      else memmemFrom rd h last c n fuel (i + 1)
    else some 0

/-- `memmem(haystack,haystack_len,needle,needle_len)` -/
def memmem (rd : Nat → Option UInt8) (fuel h hlen : Nat) (n : List UInt8) : Option Nat :=
  match n with
  | [] => some h
  | c :: _ =>
    if n.length > hlen then some 0
    else memmemFrom rd h (Word32.sub32 hlen n.length) c n fuel 0

/-- The bytes `s` stand at `a`. -/
def Bytes (m : Mem) : Nat → List UInt8 → Prop
  | _, [] => True
  | a, c :: s => m a = c ∧ Bytes m (a + 1) s

def Bytes.decide (m : Mem) : (a : Nat) → (s : List UInt8) → Decidable (Bytes m a s)
  | _, [] => .isTrue trivial
  | a, c :: s => @instDecidableAnd (m a = c) (Bytes m (a + 1) s) _ (Bytes.decide m (a + 1) s)

instance (m : Mem) (a : Nat) (s : List UInt8) : Decidable (Bytes m a s) := Bytes.decide m a s

variable {m : Mem} {rd : Nat → Option UInt8} {h hlen i fuel last : Nat} {c : UInt8}
  {n s : List UInt8}

/-- Every byte of `[h, h + hlen)` can be read. -/
def Readable (rd : Nat → Option UInt8) (m : Mem) (h hlen : Nat) : Prop :=
  ∀ a, h ≤ a → a < h + hlen → rd a = some (m a)

theorem view_readable (m : Mem) (base len : Nat) : Readable (view m base len) m base len := by
  intro a h1 h2
  exact if_pos ⟨h1, h2⟩

theorem Readable.sub {k klen : Nat} (hrd : Readable rd m h hlen) (h1 : h ≤ k)
    (h2 : k + klen ≤ h + hlen) : Readable rd m k klen := by
  intro a h3 h4
  exact hrd a (by omega) (by omega)

theorem memcmp_zero {a : Nat} (hrd : Readable rd m a s.length) :
    ∃ d, memcmp rd a s = some d ∧ (d = 0 ↔ Bytes m a s) := by
  induction s generalizing a with
  | nil => exact ⟨0, rfl, by simp [Bytes]⟩
  | cons c s ih =>
    rw [List.length_cons] at hrd
    have hb : rd a = some (m a) := hrd a (Nat.le_refl a) (Nat.lt_add_of_pos_right (Nat.succ_pos _))
    by_cases hc : m a = c
    · obtain ⟨d, hd, hiff⟩ := ih (hrd.sub (Nat.le_add_right a 1) (by omega))
      refine ⟨d, ?_, ?_⟩
      · simp [memcmp, hb, hc, hd]
      · simp [Bytes, hc, hiff]
    · refine ⟨if c.toInt8 < (m a).toInt8 then 1 else -1, by simp [memcmp, hb, hc], ?_⟩
      simp only [Bytes, hc, false_and, iff_false]
      split_ifs <;> decide

/-- One round of the loop: it stops at the needle and goes on otherwise. -/
theorem memmemFrom_step (hrd : Readable rd m (h + i) (c :: n).length) (hi : i ≤ last) :
    memmemFrom rd h last c (c :: n) (fuel + 1) i =
      if Bytes m (h + i) (c :: n) then some (h + i)
      else memmemFrom rd h last c (c :: n) fuel (i + 1) := by
  have hb : rd (h + i) = some (m (h + i)) := hrd _ (Nat.le_refl _) (by simp)
  obtain ⟨d, hd, hiff⟩ := memcmp_zero hrd
  simp only [memmemFrom, if_pos hi, hb, Option.bind_eq_bind, Option.bind_some, hd, hiff]
  by_cases hc : m (h + i) = c
  · rw [if_pos hc]
  · have hno : ¬ Bytes m (h + i) (c :: n) := fun hall => hc hall.1
    rw [if_neg hc, if_neg hno]

/-- What is not at `i` and not from `i + 1` on is not from `i` on. -/
theorem skip_here {P Q : Nat → Prop} {i : Nat} (hat : ¬ P i)
    (hrest : ∀ q, i + 1 ≤ q → Q q → ¬ P q) : ∀ q, i ≤ q → Q q → ¬ P q := by
  intro q hq hQ
  by_cases heq : q = i
  · rwa [heq]
  · exact hrest q (by omega) hQ

/-- From index `i` on the loop finds the first place where the needle stands. -/
theorem memmemFrom_first (hrd : Readable rd m h (last + (c :: n).length)) (hi : i ≤ last + 1)
    (hfuel : last + 1 < fuel + i) :
    (∃ j, memmemFrom rd h last c (c :: n) fuel i = some (h + j) ∧ i ≤ j ∧ j ≤ last ∧
      Bytes m (h + j) (c :: n) ∧ ∀ q, i ≤ q → q < j → ¬ Bytes m (h + q) (c :: n)) ∨
    (memmemFrom rd h last c (c :: n) fuel i = some 0 ∧
      ∀ q, i ≤ q → q ≤ last → ¬ Bytes m (h + q) (c :: n)) := by
  induction fuel generalizing i with
  | zero => omega
  | succ fuel ih =>
    by_cases hlast : i ≤ last
    · rw [memmemFrom_step (hrd.sub (Nat.le_add_right h i) (by omega)) hlast]
      by_cases hat : Bytes m (h + i) (c :: n)
      · exact .inl ⟨i, if_pos hat, Nat.le_refl i, hlast, hat, fun q h1 h2 => by omega⟩
      · rw [if_neg hat]
        cases ih (show i + 1 ≤ last + 1 by omega) (by omega) with
        | inl hfound =>
          obtain ⟨j, hj, hij, hjl, hbytes, hbefore⟩ := hfound
          exact .inl ⟨j, hj, by omega, hjl, hbytes, skip_here hat hbefore⟩
        | inr hnone => exact .inr ⟨hnone.1, skip_here hat hnone.2⟩
    · exact .inr ⟨by simp only [memmemFrom, if_neg hlast], fun q h1 h2 => by omega⟩

/-- `memmem` gives the first place where the needle stands inside the haystack, or NULL. -/
theorem memmem_first (hrd : Readable rd m h hlen) (hs : s ≠ []) (h32 : hlen < 4294967296)
    (hfuel : hlen < fuel) :
    (∃ j, memmem rd fuel h hlen s = some (h + j) ∧ j + s.length ≤ hlen ∧
      Bytes m (h + j) s ∧ ∀ q, q < j → ¬ Bytes m (h + q) s) ∨
    (memmem rd fuel h hlen s = some 0 ∧ ∀ q, q + s.length ≤ hlen → ¬ Bytes m (h + q) s) := by
  obtain ⟨c, n, rfl⟩ := List.exists_cons_of_ne_nil hs
  have hn : 0 < (c :: n).length := Nat.succ_pos _
  by_cases hlong : (c :: n).length > hlen
  · exact .inr ⟨if_pos hlong, fun q h1 => by omega⟩
  · have hlast : Word32.sub32 hlen (c :: n).length = hlen - (c :: n).length :=
      Word32.sub32_of_le (by omega) h32
    simp only [memmem, if_neg hlong, hlast]
    have hall : Readable rd m h (hlen - (c :: n).length + (c :: n).length) :=
      hrd.sub (Nat.le_refl h) (by omega)
    have hrounds : hlen - (c :: n).length + 1 < fuel + 0 := by omega
    obtain ⟨j, hj, -, hjl, hbytes, hbefore⟩ | ⟨hnone, hno⟩ :=
      memmemFrom_first hall (Nat.zero_le _) hrounds
    · exact .inl ⟨j, hj, by omega, hbytes, fun q h1 => hbefore q (Nat.zero_le q) h1⟩
    · exact .inr ⟨hnone, fun q h1 => hno q (Nat.zero_le q) (by omega)⟩

/- A reader that may read less, and a haystack of which only the first bytes can be read. -/

/-- `rd'` gives every byte that `rd` gives. -/
def Extends (rd rd' : Nat → Option UInt8) : Prop := ∀ a b, rd a = some b → rd' a = some b

theorem view_extends (m : Mem) (base len : Nat) :
    Extends (view m base len) fun a => some (m a) := by
  intro a b hb
  by_cases hin : base ≤ a ∧ a < base + len
  · rwa [view, if_pos hin] at hb
  · rw [view, if_neg hin] at hb
    simp at hb

variable {rd' : Nat → Option UInt8}

theorem memcmp_extends {a : Nat} {d : Int} (hext : Extends rd rd')
    (hrun : memcmp rd a s = some d) : memcmp rd' a s = some d := by
  induction s generalizing a with
  | nil => exact hrun
  | cons c s ih =>
    simp only [memcmp, Option.bind_eq_bind, Option.bind_eq_some_iff] at hrun ⊢
    obtain ⟨b, hb, hrest⟩ := hrun
    refine ⟨b, hext a b hb, ?_⟩
    by_cases hc : b = c
    · rw [if_pos hc] at hrest ⊢
      exact ih hrest
    · rw [if_neg hc] at hrest ⊢
      exact hrest

theorem memmemFrom_extends {r : Nat} (hext : Extends rd rd')
    (hrun : memmemFrom rd h last c n fuel i = some r) :
    memmemFrom rd' h last c n fuel i = some r := by
  induction fuel generalizing i with
  | zero => simp [memmemFrom] at hrun
  | succ fuel ih =>
    by_cases hi : i ≤ last
    · simp only [memmemFrom, if_pos hi, Option.bind_eq_bind, Option.bind_eq_some_iff] at hrun ⊢
      obtain ⟨b, hb, hrest⟩ := hrun
      refine ⟨b, hext _ b hb, ?_⟩
      by_cases hc : b = c
      · rw [if_pos hc, Option.bind_eq_some_iff] at hrest ⊢
        obtain ⟨d, hd, hrest⟩ := hrest
        refine ⟨d, memcmp_extends hext hd, ?_⟩
        by_cases h0 : d = 0
        · rw [if_pos h0] at hrest ⊢
          exact hrest
        · rw [if_neg h0] at hrest ⊢
          exact ih hrest
      · rw [if_neg hc] at hrest ⊢
        exact ih hrest
    · simp only [memmemFrom, if_neg hi] at hrun ⊢
      exact hrun

theorem memmem_extends {r : Nat} (hext : Extends rd rd')
    (hrun : memmem rd fuel h hlen s = some r) : memmem rd' fuel h hlen s = some r := by
  cases s with
  | nil => exact hrun
  | cons c s =>
    by_cases hlong : (c :: s).length > hlen
    · simp only [memmem, if_pos hlong] at hrun ⊢
      exact hrun
    · simp only [memmem, if_neg hlong] at hrun ⊢
      exact memmemFrom_extends hext hrun

/-- Bytes are not found equal when one of them cannot be read. -/
theorem memcmp_cut {a r : Nat} (hout : rd (a + r) = none) (hr : r < s.length) :
    memcmp rd a s ≠ some 0 := by
  induction s generalizing a r with
  | nil => simp at hr
  | cons c s ih =>
    intro hrun
    simp only [memcmp, Option.bind_eq_bind, Option.bind_eq_some_iff] at hrun
    obtain ⟨b, hb, hrest⟩ := hrun
    cases r with
    | zero =>
      rw [Nat.add_zero, hb] at hout
      simp at hout
    | succ r =>
      by_cases hc : b = c
      · rw [if_pos hc] at hrest
        rw [Nat.add_comm r, ← Nat.add_assoc] at hout
        exact ih hout (Nat.lt_of_succ_lt_succ hr) hrest
      · rw [if_neg hc, Option.some.injEq] at hrest
        revert hrest
        split_ifs <;> decide

/-- A round whose needle would reach behind what can be read goes on or stops for good. -/
theorem memmemFrom_cut {R : Nat} (c : UInt8) (fuel : Nat) (hout : rd (h + R) = none)
    (hi : i ≤ R) (hR : R < i + n.length) (hlast : R ≤ last) :
    memmemFrom rd h last c n (fuel + 1) i = none ∨ i < R ∧
      memmemFrom rd h last c n (fuel + 1) i = memmemFrom rd h last c n fuel (i + 1) := by
  simp only [memmemFrom, if_pos (Nat.le_trans hi hlast), Option.bind_eq_bind]
  cases hb : rd (h + i) with
  | none => exact .inl rfl
  | some b =>
    have hlt : i < R := by
      apply Nat.lt_of_le_of_ne hi
      intro heq
      rw [heq, hout] at hb
      simp at hb
    rw [Option.bind_some]
    by_cases hc : b = c
    · rw [if_pos hc]
      have hout' : rd (h + i + (R - i)) = none := by
        rwa [show h + i + (R - i) = h + R by omega]
      have hcut := memcmp_cut (s := n) hout' (by omega)
      cases hd : memcmp rd (h + i) n with
      | none => exact .inl rfl
      | some d =>
        have h0 : d ≠ 0 := fun h0 => hcut (by rw [hd, h0])
        exact .inr ⟨hlt, by rw [Option.bind_some, if_neg h0]⟩
    · exact .inr ⟨hlt, if_neg hc⟩

/-- From index `i` on the loop finds the first needle among the bytes that can be read, or tries
to read the byte behind them. -/
theorem memmemFrom_partial {R : Nat} (hrd : Readable rd m h R) (hout : rd (h + R) = none)
    (hi : i ≤ R) (hlast : R ≤ last) (hfuel : R < fuel + i) :
    (∃ j, memmemFrom rd h last c (c :: n) fuel i = some (h + j) ∧ j + (c :: n).length ≤ R ∧
      Bytes m (h + j) (c :: n) ∧ ∀ q, i ≤ q → q < j → ¬ Bytes m (h + q) (c :: n)) ∨
    (memmemFrom rd h last c (c :: n) fuel i = none ∧
      ∀ q, i ≤ q → q + (c :: n).length ≤ R → ¬ Bytes m (h + q) (c :: n)) := by
  induction fuel generalizing i with
  | zero => omega
  | succ fuel ih =>
    by_cases hroom : i + (c :: n).length ≤ R
    · rw [memmemFrom_step (hrd.sub (Nat.le_add_right h i) (by omega)) (Nat.le_trans hi hlast)]
      by_cases hat : Bytes m (h + i) (c :: n)
      · exact .inl ⟨i, if_pos hat, hroom, hat, fun q h1 h2 => by omega⟩
      · rw [if_neg hat]
        have hpos : 0 < (c :: n).length := Nat.succ_pos _
        cases ih (show i + 1 ≤ R by omega) (by omega) with
        | inl hfound =>
          obtain ⟨j, hj, hjR, hbytes, hbefore⟩ := hfound
          exact .inl ⟨j, hj, hjR, hbytes, skip_here hat hbefore⟩
        | inr hnone => exact .inr ⟨hnone.1, skip_here hat hnone.2⟩
    · have hno : ∀ q, i ≤ q → q + (c :: n).length ≤ R → ¬ Bytes m (h + q) (c :: n) :=
        fun q h1 h2 => by omega
      have hend : R < i + (c :: n).length := by omega
      cases memmemFrom_cut c fuel hout hi hend hlast with
      | inl hnone => exact .inr ⟨hnone, hno⟩
      | inr hnext =>
        rw [hnext.2]
        cases ih (show i + 1 ≤ R by omega) (by omega) with
        | inl hfound =>
          obtain ⟨j, hj, hjR, hbytes, -⟩ := hfound
          exact .inl ⟨j, hj, hjR, hbytes, fun q h1 h2 => hno q h1 (by omega)⟩
        | inr hnone => exact .inr ⟨hnone.1, hno⟩

/-- `memmem` with a length that reaches behind what can be read. -/
theorem memmem_partial {R : Nat} (hrd : Readable rd m h R) (hout : rd (h + R) = none)
    (hs : s ≠ []) (hR : R + s.length ≤ hlen) (h32 : hlen < 4294967296) (hfuel : R < fuel) :
    (∃ j, memmem rd fuel h hlen s = some (h + j) ∧ j + s.length ≤ R ∧
      Bytes m (h + j) s ∧ ∀ q, q < j → ¬ Bytes m (h + q) s) ∨
    (memmem rd fuel h hlen s = none ∧ ∀ q, q + s.length ≤ R → ¬ Bytes m (h + q) s) := by
  obtain ⟨c, n, rfl⟩ := List.exists_cons_of_ne_nil hs
  have hlast : Word32.sub32 hlen (c :: n).length = hlen - (c :: n).length :=
    Word32.sub32_of_le (by omega) h32
  simp only [memmem, if_neg (show ¬ (c :: n).length > hlen by omega), hlast]
  cases memmemFrom_partial (c := c) (n := n) hrd hout (Nat.zero_le R)
    (show R ≤ hlen - (c :: n).length by omega) (show R < fuel + 0 from hfuel) with
  | inl hfound =>
    obtain ⟨j, hj, hjR, hbytes, hbefore⟩ := hfound
    exact .inl ⟨j, hj, hjR, hbytes, fun q h1 => hbefore q (Nat.zero_le q) h1⟩
  | inr hnone => exact .inr ⟨hnone.1, fun q h1 => hnone.2 q (Nat.zero_le q) h1⟩

end Foos.Libc
