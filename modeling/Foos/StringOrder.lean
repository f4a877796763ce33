import Foos.Search
import Foos.SignedOrder

/-! The comparisons of `libc/string.c` order the strings as their unsigned characters do. What is
read through the one pointer and what is read through the other is told apart. -/
namespace Foos.StringOrder
open ByteMemory CString Libc Cmpsb SignedOrder

/-- `strcmp(s1,s2)`, which reads `rd` through `s1` and `rd'` through `s2`. -/
def strcmp (rd rd' : Nat → Option UInt8) : Nat → Nat → Nat → Option Int
  | 0, _, _ => none
  | fuel+1, s1, s2 => do
    let c ← rd s1
    let d ← rd' s2
    let ret := (c.toNat : Int) - d.toNat
    if ret = 0 ∧ c ≠ 0 then strcmp rd rd' fuel (s1 + 1) (s2 + 1) else some ret

/-- `strncmp(s1,s2,num)`; for a `num` of zero nothing is read and `ret` is never set. -/
def strncmp (rd rd' : Nat → Option UInt8) : Nat → Nat → Nat → Option Int
  | 0, _, _ => some 0
  | num+1, s1, s2 => do
    let c ← rd s1
    let d ← rd' s2
    let ret := (c.toNat : Int) - d.toNat
    if ret = 0 ∧ c ≠ 0 then strncmp rd rd' num (s1 + 1) (s2 + 1) else some ret

/-- The characters as unsigned numbers. -/
def codes (s : List UInt8) : List Nat := s.map UInt8.toNat

variable {m : Mem} {rd rd' : Nat → Option UInt8} {s t u : List UInt8} {a b c num fuel : Nat}

theorem toNat_pos {e : UInt8} (h : e ≠ 0) : 0 < e.toNat :=
  Nat.pos_of_ne_zero fun h0 => h (UInt8.toNat_inj.mp h0)

theorem codes_inj : codes s = codes t ↔ s = t :=
  (List.map_injective_iff.mpr fun _ _ => UInt8.toNat_inj.mp).eq_iff

/-- On memory that may be read everywhere it is the comparison of the file systems. -/
theorem strcmp_whole (m : Mem) (fuel a b : Nat) :
    strcmp (whole m) (whole m) fuel a b = Libc.strcmp fuel m a b := by
  induction fuel generalizing a b with
  | zero => rfl
  | succ fuel ih =>
    simp only [strcmp, Libc.strcmp, whole, Option.bind_eq_bind, Option.bind_some]
    exact if_congr Iff.rfl (ih (a + 1) (b + 1)) rfl

/-- With one memory for both pointers it is the comparison of the searches. -/
theorem strncmp_one (rd : Nat → Option UInt8) (num a b : Nat) :
    strncmp rd rd num a b = Search.strncmp rd num a b := by
  induction num generalizing a b with
  | zero => rfl
  | succ num ih => simp only [strncmp, Search.strncmp, ih]

/-- The count does not matter once it exceeds the first string. -/
theorem strcmp_strncmp (hs : Str m a s) (hrd : Readable rd m a (s.length + 1))
    (hnum : s.length < num) (hfuel : s.length < fuel) :
    strcmp rd rd' fuel a b = strncmp rd rd' num a b := by
  obtain ⟨num, rfl⟩ := Nat.exists_eq_add_one_of_ne_zero (Nat.ne_zero_of_lt hnum)
  obtain ⟨fuel, rfl⟩ := Nat.exists_eq_add_one_of_ne_zero (Nat.ne_zero_of_lt hfuel)
  have ha : rd a = some (m a) := hrd a (Nat.le_refl a) (by omega)
  induction s generalizing a b num fuel with
  | nil =>
    have h0 : m a = 0 := hs
    simp [strcmp, strncmp, ha, h0]
  | cons e s ih =>
    simp only [List.length_cons] at hrd hnum hfuel
    have hrest : Readable rd m (a + 1) (s.length + 1) :=
      hrd.sub (Nat.le_add_right a 1) (by omega)
    obtain ⟨num, rfl⟩ := Nat.exists_eq_add_one_of_ne_zero (show num ≠ 0 by omega)
    obtain ⟨fuel, rfl⟩ := Nat.exists_eq_add_one_of_ne_zero (show fuel ≠ 0 by omega)
    have hnext := fun b => ih (b := b) hs.2.2 hrest num (by omega) fuel (by omega)
      (hrest _ (Nat.le_refl _) (by omega))
    rw [strcmp, strncmp]
    simp only [hnext]

/-- Of two strings no more than `num` characters are compared, and none behind an end. -/
theorem strncmp_tells (hs : Str m a s) (ht : Str m b t)
    (hrd : Readable rd m a (min (s.length + 1) num))
    (hrd' : Readable rd' m b (min (t.length + 1) num)) :
    ∃ ret, strncmp rd rd' num a b = some ret ∧
      Tells ret (codes (s.take num)) (codes (t.take num)) := by
  induction num generalizing a b s t with
  | zero => exact ⟨0, rfl, .refl _⟩
  | succ num ih =>
    have ha : rd a = some (m a) := hrd a (Nat.le_refl a) (by omega)
    have hb : rd' b = some (m b) := hrd' b (Nat.le_refl b) (by omega)
    have hread : strncmp rd rd' (num + 1) a b = if m a = m b ∧ m a ≠ 0 then
        strncmp rd rd' num (a + 1) (b + 1) else some (((m a).toNat : Int) - (m b).toNat) := by
      simp only [strncmp, ha, hb, Option.bind_eq_bind, Option.bind_some, byteDiff_zero]
    cases s with
    | nil =>
      have h0 : m a = 0 := hs
      refine ⟨_, hread.trans (if_neg fun h => h.2 h0), ?_⟩
      rw [h0]
      cases t with
      | nil =>
        have h0' : m b = 0 := ht
        rw [h0']
        exact .refl _
      | cons f t =>
        refine .nil_cons ?_
        have hpos : 0 < (m b).toNat := toNat_pos (ht.1 ▸ ht.2.1)
        simpa using hpos
    | cons e s =>
      cases t with
      | nil =>
        have h0 : m b = 0 := ht
        have hne : m a ≠ 0 := hs.1 ▸ hs.2.1
        have hpos : 0 < (m a).toNat := toNat_pos hne
        refine ⟨_, hread.trans (if_neg fun h => hne (h.1.trans h0)), .cons_nil ?_⟩
        rw [h0]
        simpa using hpos
      | cons f t =>
        simp only [codes, List.take_succ_cons, List.map_cons]
        by_cases heq : m a = m b
        · have hne : m a ≠ 0 := hs.1 ▸ hs.2.1
          rw [hread, if_pos ⟨heq, hne⟩]
          simp only [List.length_cons] at hrd hrd'
          have hrest : Readable rd m (a + 1) (min (s.length + 1) num) :=
            hrd.sub (Nat.le_add_right a 1) (by omega)
          obtain ⟨ret, hrun, htells⟩ := ih hs.2.2 ht.2.2 hrest
            (hrd'.sub (Nat.le_add_right b 1) (by omega))
          rw [show e = f from hs.1.symm.trans (heq.trans ht.1)]
          exact ⟨ret, hrun, htells.cons _⟩
        · refine ⟨_, hread.trans (if_neg fun h => heq h.1), ?_⟩
          rw [← hs.1, ← ht.1]
          exact (Tells.sub _ _).cons_ne (mt UInt8.toNat_inj.mp heq)

/-- Two strings are compared as their characters are ordered, and none is read behind its end. -/
theorem strcmp_tells (hs : Str m a s) (ht : Str m b t) (hrd : Readable rd m a (s.length + 1))
    (hrd' : Readable rd' m b (t.length + 1)) (hfuel : s.length < fuel) :
    ∃ ret, strcmp rd rd' fuel a b = some ret ∧ Tells ret (codes s) (codes t) := by
  have hnum : s.length < s.length + t.length + 1 := by omega
  have hcut : Readable rd m a (min (s.length + 1) (s.length + t.length + 1)) :=
    hrd.sub (Nat.le_refl a) (by omega)
  have htells := strncmp_tells hs ht hcut (hrd'.sub (Nat.le_refl b) (by omega))
  rw [List.take_of_length_le (by omega), List.take_of_length_le (by omega)] at htells
  rwa [strcmp_strncmp hs hrd hnum hfuel]

/-- What `strcmp` gives for the string of length `n` at `a` and the one of length `k` at `b`, when
nothing behind their NULs may be read. -/
def compared (m : Mem) (fuel a n b k : Nat) : Option Int :=
  strcmp (view m a (n + 1)) (view m b (k + 1)) fuel a b

theorem compared_tells (hs : Str m a s) (ht : Str m b t) (hfuel : s.length < fuel) :
    ∃ ret, compared m fuel a s.length b t.length = some ret ∧ Tells ret (codes s) (codes t) :=
  strcmp_tells hs ht (view_readable m a _) (view_readable m b _) hfuel

/-- `strcmp` is zero for equal strings only, antisymmetric and transitive in its sign and follows
the lexicographic order of the unsigned characters; `strncmp` has the sign of `strcmp` on the
strings cut off after `num` characters. Neither reads behind a NUL or behind `num` characters. -/
theorem strcmp_order (hs : Str m a s) (ht : Str m b t) (hu : Str m c u) (hfs : s.length < fuel)
    (hft : t.length < fuel) (num : Nat) :
    ∃ st ts tu su sn, compared m fuel a s.length b t.length = some st ∧
      compared m fuel b t.length a s.length = some ts ∧
      compared m fuel b t.length c u.length = some tu ∧
      compared m fuel a s.length c u.length = some su ∧
      (st = 0 ↔ s = t) ∧ ts.sign = -st.sign ∧
      (st ≤ 0 → tu ≤ 0 → su ≤ 0) ∧ (st.sign = tu.sign → su.sign = st.sign) ∧
      (st < 0 ↔ codes s < codes t) ∧ (0 < st ↔ codes t < codes s) ∧
      strncmp (view m a (min (s.length + 1) num)) (view m b (min (t.length + 1) num)) num a b =
        some sn ∧ (num = 0 → sn = 0) ∧
      ∀ m' fuel' a' b', Str m' a' (s.take num) → Str m' b' (t.take num) →
        (s.take num).length < fuel' →
        ∃ ret, compared m' fuel' a' (s.take num).length b' (t.take num).length = some ret ∧
          sn.sign = ret.sign := by
  obtain ⟨st, hst, hs_t⟩ := compared_tells hs ht hfs
  obtain ⟨ts, hts, ht_s⟩ := compared_tells ht hs hft
  obtain ⟨tu, htu, ht_u⟩ := compared_tells ht hu hft
  obtain ⟨su, hsu, hs_u⟩ := compared_tells hs hu hfs
  obtain ⟨sn, hsn, hcut⟩ := strncmp_tells hs ht (view_readable m a (min (s.length + 1) num))
    (view_readable m b _)
  refine ⟨st, ts, tu, su, sn, hst, hts, htu, hsu, hs_t.equal.trans codes_inj, hs_t.opposite ht_s,
    hs_t.trans_le ht_u hs_u, hs_t.trans_sign ht_u hs_u, hs_t.less, hs_t.greater, hsn, ?_, ?_⟩
  · intro hzero
    subst hzero
    exact hcut.equal.mpr rfl
  · intro m' fuel' a' b' hs' ht' hfuel
    obtain ⟨ret, hret, hwhole⟩ := compared_tells hs' ht' hfuel
    exact ⟨ret, hret, hcut.sign_unique hwhole⟩

/-- `ab`, its second character on and `c`. -/
theorem strcmp_order_abc : ∃ st ts tu su sn,
    compared Search.abAndC 3 0x1000 2 0x1001 1 = some st ∧
    compared Search.abAndC 3 0x1001 1 0x1000 2 = some ts ∧
    compared Search.abAndC 3 0x1001 1 0x2000 1 = some tu ∧
    compared Search.abAndC 3 0x1000 2 0x2000 1 = some su ∧
    (st = 0 ↔ Search.ab = [98]) ∧ ts.sign = -st.sign ∧
    (st ≤ 0 → tu ≤ 0 → su ≤ 0) ∧ (st.sign = tu.sign → su.sign = st.sign) ∧
    (st < 0 ↔ codes Search.ab < codes [98]) ∧ (0 < st ↔ codes [98] < codes Search.ab) ∧
    strncmp (view Search.abAndC 0x1000 1) (view Search.abAndC 0x1001 1) 1 0x1000 0x1001 =
      some sn ∧ (1 = 0 → sn = 0) ∧
    ∀ m' fuel' a' b', Str m' a' [97] → Str m' b' [98] → 1 < fuel' →
      ∃ ret, compared m' fuel' a' 1 b' 1 = some ret ∧ sn.sign = ret.sign :=
  strcmp_order (s := Search.ab) (t := [98]) (u := [99]) (by decide) (by decide) (by decide)
    (by decide) (by decide) 1

end Foos.StringOrder
