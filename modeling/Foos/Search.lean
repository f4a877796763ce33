import Foos.Cmpsb
import Foos.Frame
import Foos.Occurrence

/-! The substring searches of `libc/string.c` on memory of which only some areas may be read. -/
namespace Foos.Search
open ByteMemory CString Word32 Libc Cmpsb Occurrence

/-- The memory as a reader sees it who may read the areas only. -/
def seen (m : Mem) (areas : List (Nat × Nat)) : Nat → Option UInt8 :=
  fun a => if areas.any fun r => r.1 ≤ a && a < r.1 + r.2 then some (m a) else none

/-- `repne scasb` for NUL from `di` on: what is left of the count. -/
def scasb (rd : Nat → Option UInt8) : Nat → Nat → Nat → Option Nat
  | 0, _, _ => none
  | fuel+1, di, cx =>
    if cx = 0 then some 0
    else do
      let c ← rd di
      if c = 0 then some (cx - 1) else scasb rd fuel (di + 1) (cx - 1)

def strlen (rd : Nat → Option UInt8) (fuel s : Nat) : Option Nat :=
  (scasb rd fuel s 0xFFFFFFFF).map fun cx => sub32 (not32 cx) 1

/-- `num` characters at most, and the result is zero when they run out. -/
def strncmp (rd : Nat → Option UInt8) : Nat → Nat → Nat → Option Int
  | 0, _, _ => some 0
  | num+1, s1, s2 => do
    let c ← rd s1
    let d ← rd s2
    let ret := (c.toNat : Int) - d.toNat
    if ret = 0 ∧ c ≠ 0 then strncmp rd num (s1 + 1) (s2 + 1) else some ret

/-- `*haystack==*needle && strncmp(haystack,needle,needle_len)==0` -/
def standsAt (rd : Nat → Option UInt8) (haystack needle needleLen : Nat) : Option Bool := do
  let c ← rd haystack
  let d ← rd needle
  if c = d then (strncmp rd needleLen haystack needle).map (· == 0) else some false

/-- `while(*haystack)` -/
def strstrWhile (rd : Nat → Option UInt8) (needle needleLen : Nat) : Nat → Nat → Option Nat
  | 0, _ => none
  | fuel+1, haystack => do
    let c ← rd haystack
    if c ≠ 0 then do
      let here ← standsAt rd haystack needle needleLen
      if here then some haystack else strstrWhile rd needle needleLen fuel (haystack + 1)
    else some 0

def strstr (rd : Nat → Option UInt8) (fuel haystack needle : Nat) : Option Nat := do
  let needleLen ← strlen rd fuel needle
  if needleLen = 0 then some haystack else strstrWhile rd needle needleLen fuel haystack

/-- `while(*haystack && len>=needle_len)` -/
def strnstrWhile (rd : Nat → Option UInt8) (needle needleLen : Nat) :
    Nat → Nat → Nat → Option Nat
  | 0, _, _ => none
  | fuel+1, haystack, len => do
    let c ← rd haystack
    if c ≠ 0 ∧ needleLen ≤ len then do
      let here ← standsAt rd haystack needle needleLen
      if here then some haystack
      else strnstrWhile rd needle needleLen fuel (haystack + 1) (sub32 len 1)
    else some 0

def strnstr (rd : Nat → Option UInt8) (fuel haystack needle len : Nat) : Option Nat := do
  let needleLen ← strlen rd fuel needle
  if needleLen = 0 then some haystack else strnstrWhile rd needle needleLen fuel haystack len

/-- `for(i=0;i<=haystack_len-needle_len;i++)` from `i` on. -/
def memmemFrom (rd : Nat → Option UInt8) (fl : Flags) (h last n needleLen : Nat) :
    Nat → Nat → Option Nat
  | 0, _ => none
  | fuel+1, i =>
    if i ≤ last then do
      let c ← rd (h + i)
      let d ← rd n
      if c = d then do
        let ret ← memcmp rd fl (h + i) n needleLen
        if ret = 0 then some (h + i) else memmemFrom rd fl h last n needleLen fuel (i + 1)
      else memmemFrom rd fl h last n needleLen fuel (i + 1)
    else some 0

/-- `memmem(haystack,haystack_len,needle,needle_len)`, with the flags in which `memcmp` starts. -/
def memmem (rd : Nat → Option UInt8) (fl : Flags) (fuel h hlen n nlen : Nat) : Option Nat :=
  if nlen = 0 then some h
  else if nlen > hlen then some 0
  else memmemFrom rd fl h (sub32 hlen nlen) n nlen fuel 0

/-- The result of a search that starts at `a`. -/
def pointer (a : Nat) : Option Nat → Nat
  | some i => a + i
  | none => 0

variable {m : Mem} {rd : Nat → Option UInt8} {areas : List (Nat × Nat)} {s t u x y : List UInt8}
  {a b i n num fuel : Nat}

theorem seen_readable {p k : Nat} (h : (p, k) ∈ areas) : Readable (seen m areas) m p k := by
  intro a h1 h2
  refine if_pos (List.any_eq_true.mpr ⟨_, h, ?_⟩)
  simp [h1, h2]

theorem scasb_str {cx : Nat} (h : Str m a s) (hrd : Readable rd m a (s.length + 1))
    (hcx : s.length < cx) (hfuel : s.length < fuel) :
    scasb rd fuel a cx = Libc.scasb fuel m a cx := by
  induction s generalizing a cx fuel with
  | nil =>
    obtain ⟨fuel, rfl⟩ := Nat.exists_eq_add_one_of_ne_zero (Nat.ne_zero_of_lt hfuel)
    have ha : rd a = some (m a) := hrd a (Nat.le_refl a) (by omega)
    have h0 : m a = 0 := h
    simp [scasb, Libc.scasb, ha, h0]
  | cons c s ih =>
    simp only [List.length_cons] at hrd hcx hfuel
    obtain ⟨fuel, rfl⟩ := Nat.exists_eq_add_one_of_ne_zero (Nat.ne_zero_of_lt hfuel)
    have ha : rd a = some (m a) := hrd a (Nat.le_refl a) (by omega)
    have hrest := ih h.2.2 (hrd.sub (Nat.le_add_right a 1) (by omega))
      (show s.length < cx - 1 by omega) (show s.length < fuel by omega)
    simp only [scasb, Libc.scasb, ha, hrest, Option.bind_eq_bind, Option.bind_some]

/-- The length of a string is found without looking behind its end. -/
theorem strlen_str (h : Str m a s) (hrd : Readable rd m a (s.length + 1))
    (hlen : s.length < 4294967295) (hfuel : s.length < fuel) : strlen rd fuel a = some s.length := by
  rw [strlen, scasb_str h hrd hlen hfuel]
  exact Libc.strlen_str h hlen hfuel

/-- Of two strings no more than `num` characters are compared, and none behind an end. -/
theorem strncmp_run (hs : Str m a s) (ht : Str m b t)
    (hrd : Readable rd m a (min (s.length + 1) num))
    (hrd' : Readable rd m b (min (t.length + 1) num)) :
    (s.take num = t.take num ∧ strncmp rd num a b = some 0) ∨
    ∃ i, i < num ∧ i ≤ min s.length t.length ∧ DifferAt m a b i ∧
      strncmp rd num a b = some (((m (a + i)).toNat : Int) - (m (b + i)).toNat) := by
  induction num generalizing a b s t with
  | zero => exact Or.inl ⟨rfl, rfl⟩
  | succ num ih =>
    have ha : rd a = some (m a) := hrd a (Nat.le_refl a) (by omega)
    have hb : rd b = some (m b) := hrd' b (Nat.le_refl b) (by omega)
    by_cases heq : m a = m b
    · cases s with
      | nil =>
        have ha0 : m a = 0 := hs
        cases t with
        | nil =>
          refine Or.inl ⟨rfl, ?_⟩
          simp [strncmp, ha, hb, ← heq, ha0]
        | cons d t => exact absurd (ht.1.symm.trans (heq.symm.trans ha0)) ht.2.1
      | cons c s =>
        cases t with
        | nil => exact absurd (hs.1.symm.trans (heq.trans ht)) hs.2.1
        | cons d t =>
          simp only [List.length_cons] at hrd hrd' ⊢
          have hnext : strncmp rd (num + 1) a b = strncmp rd num (a + 1) (b + 1) := by
            have hne : m b ≠ 0 := ht.1 ▸ ht.2.1
            simp [strncmp, ha, hb, heq, hne]
          rw [hnext, show c = d from hs.1.symm.trans (heq.trans ht.1)]
          cases ih hs.2.2 ht.2.2 (hrd.sub (Nat.le_add_right a 1) (by omega))
            (hrd'.sub (Nat.le_add_right b 1) (by omega)) with
          | inl hall => exact Or.inl ⟨by rw [List.take_succ_cons, List.take_succ_cons, hall.1], hall.2⟩
          | inr hdiffer =>
            obtain ⟨i, hi, hil, hd, hrun⟩ := hdiffer
            refine Or.inr ⟨i + 1, by omega, by omega, hd.succ heq, ?_⟩
            rw [hrun, Nat.add_right_comm a, Nat.add_right_comm b]
            rfl
    · refine Or.inr ⟨0, Nat.succ_pos num, Nat.zero_le _, .zero heq, ?_⟩
      have hret : ¬ (((m a).toNat : Int) - (m b).toNat = 0 ∧ m a ≠ 0) := fun h =>
        heq (byteDiff_zero.mp h.1)
      simp only [strncmp, ha, hb, Option.bind_eq_bind, Option.bind_some, if_neg hret, Nat.add_zero]

/-- Where bytes differ within the needle, it does not stand. -/
theorem DifferAt.not_prefix (hd : DifferAt m a b i) (hu : Str m a u) (ht : Str m b t)
    (hi : i < t.length) : ¬ t <+: u := by
  intro hprefix
  obtain ⟨v, rfl⟩ := hprefix
  have hc : t[i]? = some t[i] := List.getElem?_eq_getElem hi
  have hc' : (t ++ v)[i]? = some t[i] := by rw [List.getElem?_append_left hi, hc]
  exact hd.1 ((hu.char hc').trans (ht.char hc).symm)

/-- Where none differs, it does. -/
theorem str_prefix (hu : Str m a u) (ht : Str m b t)
    (h : ∀ j, j < t.length → m (a + j) = m (b + j)) : t <+: u := by
  induction t generalizing a b u with
  | nil => exact List.nil_prefix
  | cons d t ih =>
    have h0 : m a = m b := h 0 (Nat.succ_pos _)
    cases u with
    | nil => exact absurd (ht.1.symm.trans (h0.symm.trans hu)) ht.2.1
    | cons c u =>
      rw [List.cons_prefix_cons]
      refine ⟨ht.1.symm.trans (h0.symm.trans hu.1), ih hu.2.2 ht.2.2 fun j hj => ?_⟩
      have hnext := h (j + 1) (Nat.succ_lt_succ hj)
      rwa [Nat.add_right_comm a, Nat.add_right_comm b]

/-- The needle is looked for at one place, without a look behind the end of the haystack. -/
theorem standsAt_run (hu : Str m a u) (ht : Str m b t) (hne : t ≠ [])
    (hrd : Readable rd m a (min (u.length + 1) t.length)) (hrd' : Readable rd m b t.length) :
    standsAt rd a b t.length = some (decide (t <+: u)) := by
  have hpos : 0 < t.length := List.length_pos_iff.mpr hne
  have ha : rd a = some (m a) := hrd a (Nat.le_refl a) (by omega)
  have hb : rd b = some (m b) := hrd' b (Nat.le_refl b) (by omega)
  simp only [standsAt, ha, hb, Option.bind_eq_bind, Option.bind_some]
  by_cases heq : m a = m b
  · rw [if_pos heq]
    cases strncmp_run hu ht hrd (hrd'.sub (Nat.le_refl b) (by omega)) with
    | inl hall =>
      obtain ⟨htake, hrun⟩ := hall
      rw [List.take_length] at htake
      have hprefix : t <+: u := List.prefix_iff_eq_take.mpr htake.symm
      simp [hrun, hprefix]
    | inr hdiffer =>
      obtain ⟨i, hi, -, hd, hrun⟩ := hdiffer
      have hret : ((m (a + i)).toNat : Int) - (m (b + i)).toNat ≠ 0 := fun h =>
        hd.1 (byteDiff_zero.mp h)
      simp [hrun, hret, DifferAt.not_prefix hd hu ht hi]
  · rw [if_neg heq, decide_eq_false (DifferAt.not_prefix (.zero heq) hu ht hpos)]

theorem pointer_next (a : Nat) (r : Option Nat) : pointer (a + 1) r = pointer a (r.map (· + 1)) := by
  cases r with
  | none => rfl
  | some i => exact (Nat.add_right_comm a 1 i).trans rfl

theorem strstrWhile_run (hu : Str m a u) (ht : Str m b t) (hne : t ≠ [])
    (hrd : Readable rd m a (u.length + 1)) (hrd' : Readable rd m b t.length)
    (hfuel : u.length < fuel) :
    ∃ r, IsFirst u t r ∧ strstrWhile rd b t.length fuel a = some (pointer a r) := by
  have hpos : 0 < t.length := List.length_pos_iff.mpr hne
  induction u generalizing a fuel with
  | nil =>
    obtain ⟨fuel, rfl⟩ := Nat.exists_eq_add_one_of_ne_zero (Nat.ne_zero_of_lt hfuel)
    have ha : rd a = some (m a) := hrd a (Nat.le_refl a) (by omega)
    have h0 : m a = 0 := hu
    exact ⟨none, isFirst_short hpos, by simp [strstrWhile, ha, h0, pointer]⟩
  | cons c u ih =>
    simp only [List.length_cons] at hfuel
    obtain ⟨fuel, rfl⟩ := Nat.exists_eq_add_one_of_ne_zero (Nat.ne_zero_of_lt hfuel)
    have ha : rd a = some (m a) := hrd a (Nat.le_refl a) (by simp)
    have hc : m a ≠ 0 := hu.1 ▸ hu.2.1
    have hhere := standsAt_run hu ht hne (hrd.sub (Nat.le_refl a) (by omega)) hrd'
    simp only [strstrWhile, ha, hhere, Option.bind_eq_bind, Option.bind_some, if_pos hc,
      decide_eq_true_eq]
    by_cases hprefix : t <+: c :: u
    · exact ⟨some 0, isFirst_here hprefix, if_pos hprefix⟩
    · rw [List.length_cons] at hrd
      have hrest : Readable rd m (a + 1) (u.length + 1) :=
        hrd.sub (Nat.le_add_right a 1) (by omega)
      obtain ⟨r, hr, hrun⟩ := ih hu.2.2 hrest (Nat.lt_of_succ_lt_succ hfuel)
      refine ⟨_, hr.next hprefix, ?_⟩
      rw [if_neg hprefix, hrun, pointer_next]

/-- Of the haystack the loop looks at `len` characters and the byte behind them at most. -/
theorem strnstrWhile_run {len : Nat} (hu : Str m a u) (ht : Str m b t) (hne : t ≠ [])
    (hrd : Readable rd m a (min u.length len + 1)) (hrd' : Readable rd m b t.length)
    (hlen : len < 4294967296) (hfuel : u.length < fuel) :
    ∃ r, IsFirst (u.take len) t r ∧ strnstrWhile rd b t.length fuel a len = some (pointer a r) := by
  have hpos : 0 < t.length := List.length_pos_iff.mpr hne
  have ha : rd a = some (m a) := hrd a (Nat.le_refl a) (by omega)
  induction u generalizing a fuel len with
  | nil =>
    obtain ⟨fuel, rfl⟩ := Nat.exists_eq_add_one_of_ne_zero (Nat.ne_zero_of_lt hfuel)
    have h0 : m a = 0 := hu
    refine ⟨none, isFirst_short ?_, by simp [strnstrWhile, ha, h0, pointer]⟩
    rwa [List.take_nil]
  | cons c u ih =>
    simp only [List.length_cons] at hfuel hrd
    obtain ⟨fuel, rfl⟩ := Nat.exists_eq_add_one_of_ne_zero (Nat.ne_zero_of_lt hfuel)
    have hc : m a ≠ 0 := hu.1 ▸ hu.2.1
    by_cases hroom : t.length ≤ len
    · have hhere := standsAt_run hu ht hne (hrd.sub (Nat.le_refl a)
        (by rw [List.length_cons]; omega)) hrd'
      simp only [strnstrWhile, ha, hhere, Option.bind_eq_bind, Option.bind_some,
        if_pos (And.intro hc hroom), decide_eq_true_eq]
      have htake : t <+: (c :: u).take len ↔ t <+: c :: u := by
        rw [List.prefix_take_iff]
        exact and_iff_left hroom
      by_cases hprefix : t <+: c :: u
      · exact ⟨some 0, isFirst_here (htake.mpr hprefix), if_pos hprefix⟩
      · obtain ⟨len, rfl⟩ := Nat.exists_eq_add_one_of_ne_zero (show len ≠ 0 by omega)
        have hsub : sub32 (len + 1) 1 = len := sub32_of_le (by omega) hlen
        have hrest : Readable rd m (a + 1) (min u.length len + 1) :=
          hrd.sub (Nat.le_add_right a 1) (by omega)
        obtain ⟨r, hr, hrun⟩ := ih hu.2.2 hrest (Nat.lt_of_succ_lt hlen)
          (Nat.lt_of_succ_lt_succ hfuel) (hrest _ (Nat.le_refl _) (by omega))
        rw [List.take_succ_cons] at htake ⊢
        refine ⟨_, hr.next (fun h => hprefix (htake.mp h)), ?_⟩
        rw [if_neg hprefix, hsub, hrun, pointer_next]
    · refine ⟨none, isFirst_short ?_, by simp [strnstrWhile, ha, hroom, pointer]⟩
      rw [List.length_take]
      omega

theorem bytes_prefix (hu : Bytes m a u) (hy : Bytes m b y) (hlen : y.length ≤ u.length) :
    (∀ j, j < y.length → m (a + j) = m (b + j)) ↔ y <+: u := by
  induction y generalizing a b u with
  | nil => exact iff_of_true (fun j hj => absurd hj (Nat.not_lt_zero j)) (List.nil_prefix ..)
  | cons d y ih =>
    cases u with
    | nil => exact absurd hlen (Nat.not_succ_le_zero _)
    | cons c u =>
      rw [List.cons_prefix_cons, ← ih hu.2 hy.2 (Nat.le_of_succ_le_succ hlen)]
      constructor
      · intro hall
        refine ⟨hy.1.symm.trans ((hall 0 (Nat.succ_pos _)).symm.trans hu.1), fun j hj => ?_⟩
        have hnext := hall (j + 1) (Nat.succ_lt_succ hj)
        rwa [Nat.add_right_comm a, Nat.add_right_comm b]
      · intro hall j hj
        cases j with
        | zero => exact hu.1.trans (hall.1.symm.trans hy.1.symm)
        | succ j =>
          have hnext := hall.2 j (Nat.lt_of_succ_lt_succ hj)
          rwa [Nat.add_right_comm a, Nat.add_right_comm b] at hnext

/-- `h[i]==n[0] && memcmp(h+i,n,needle_len)==0` decides whether the needle stands there. -/
theorem memmemFrom_step (fl : Flags) {h last : Nat} (hu : Bytes m (h + i) u) (hy : Bytes m n y)
    (hne : y ≠ [])
    (hlen : y.length ≤ u.length) (hrd : Readable rd m (h + i) u.length)
    (hrd' : Readable rd m n y.length) (hi : i ≤ last) :
    memmemFrom rd fl h last n y.length (fuel + 1) i = if y <+: u then some (h + i)
      else memmemFrom rd fl h last n y.length fuel (i + 1) := by
  have hpos : 0 < y.length := List.length_pos_iff.mpr hne
  have ha : rd (h + i) = some (m (h + i)) := hrd _ (Nat.le_refl _) (by omega)
  have hb : rd n = some (m n) := hrd' _ (Nat.le_refl _) (by omega)
  simp only [memmemFrom, if_pos hi, ha, hb, Option.bind_eq_bind, Option.bind_some,
    ← bytes_prefix hu hy hlen]
  by_cases hc : m (h + i) = m n
  · rw [if_pos hc]
    cases memcmp_run fl (hrd.sub (Nat.le_refl _) (by omega)) hrd' (Nat.ne_of_gt hpos) with
    | inl hall =>
      rw [hall.2, if_pos hall.1]
      rfl
    | inr hdiffer =>
      obtain ⟨j, hj, hd, hrun⟩ := hdiffer
      have hnot : ¬ ∀ j, j < y.length → m (h + i + j) = m (n + j) := fun hall => hd.1 (hall j hj)
      rw [hrun, if_neg hnot, Option.bind_some, if_neg (signedSign_ne _ _)]
  · rw [if_neg hc, if_neg fun hall => hc (hall 0 hpos)]

theorem memmemFrom_run (fl : Flags) {h hlen : Nat} (hu : Bytes m (h + i) u) (hy : Bytes m n y)
    (hne : y ≠ [])
    (hrd : Readable rd m (h + i) u.length) (hrd' : Readable rd m n y.length)
    (hi : i + u.length = hlen) (hle : y.length ≤ hlen) (hfuel : u.length < fuel) :
    ∃ r, IsFirst u y r ∧ memmemFrom rd fl h (hlen - y.length) n y.length fuel i =
      some (pointer (h + i) r) := by
  have hpos : 0 < y.length := List.length_pos_iff.mpr hne
  induction u generalizing i fuel with
  | nil =>
    obtain ⟨fuel, rfl⟩ := Nat.exists_eq_add_one_of_ne_zero (Nat.ne_zero_of_lt hfuel)
    rw [List.length_nil] at hi
    exact ⟨none, isFirst_short hpos, if_neg (by omega)⟩
  | cons c u ih =>
    rw [List.length_cons] at hi hfuel
    obtain ⟨fuel, rfl⟩ := Nat.exists_eq_add_one_of_ne_zero (Nat.ne_zero_of_lt hfuel)
    by_cases hroom : y.length ≤ (c :: u).length
    · rw [memmemFrom_step fl hu hy hne hroom hrd hrd' (by rw [List.length_cons] at hroom; omega)]
      by_cases hprefix : y <+: c :: u
      · exact ⟨some 0, isFirst_here hprefix, if_pos hprefix⟩
      · rw [List.length_cons] at hrd
        have hrest : Readable rd m (h + (i + 1)) u.length := hrd.sub (by omega) (by omega)
        obtain ⟨r, hr, hrun⟩ := ih hu.2 hrest (by omega) (Nat.lt_of_succ_lt_succ hfuel)
        refine ⟨_, hr.next hprefix, ?_⟩
        rw [if_neg hprefix, hrun, ← pointer_next]
        rfl
    · rw [List.length_cons] at hroom
      exact ⟨none, isFirst_short (by rw [List.length_cons]; omega), if_neg (by omega)⟩

/-- An empty list is found at once. -/
theorem isFirst_empty (hy : y.length = 0) (x : List UInt8) : IsFirst x y (some 0) :=
  isFirst_here (List.length_eq_zero_iff.mp hy ▸ List.nil_prefix ..)

theorem strstr_run (hs : Str m a s) (ht : Str m b t) (hlen : t.length < 4294967295)
    (hrd : Readable rd m a (s.length + 1)) (hrd' : Readable rd m b (t.length + 1))
    (hfuel : s.length < fuel) (hfuel' : t.length < fuel) :
    ∃ r, IsFirst s t r ∧ strstr rd fuel a b = some (pointer a r) := by
  simp only [strstr, strlen_str ht hrd' hlen hfuel', Option.bind_eq_bind, Option.bind_some]
  by_cases h0 : t.length = 0
  · exact ⟨some 0, isFirst_empty h0 s, if_pos h0⟩
  · rw [if_neg h0]
    exact strstrWhile_run hs ht (List.ne_nil_of_length_pos (Nat.pos_of_ne_zero h0)) hrd
      (hrd'.sub (Nat.le_refl b) (by omega)) hfuel

theorem strnstr_run {len : Nat} (hs : Str m a s) (ht : Str m b t) (hlen : t.length < 4294967295)
    (hrd : Readable rd m a (min s.length len + 1)) (hrd' : Readable rd m b (t.length + 1))
    (hlen' : len < 4294967296) (hfuel : s.length < fuel) (hfuel' : t.length < fuel) :
    ∃ r, IsFirst (s.take len) t r ∧ strnstr rd fuel a b len = some (pointer a r) := by
  simp only [strnstr, strlen_str ht hrd' hlen hfuel', Option.bind_eq_bind, Option.bind_some]
  by_cases h0 : t.length = 0
  · exact ⟨some 0, isFirst_empty h0 _, if_pos h0⟩
  · rw [if_neg h0]
    exact strnstrWhile_run hs ht (List.ne_nil_of_length_pos (Nat.pos_of_ne_zero h0)) hrd
      (hrd'.sub (Nat.le_refl b) (by omega)) hlen' hfuel

theorem memmem_run (fl : Flags) {h : Nat} (hx : Bytes m h x) (hy : Bytes m n y)
    (hrd : Readable rd m h x.length)
    (hrd' : Readable rd m n y.length) (hlen : x.length < 4294967296) (hfuel : x.length < fuel) :
    ∃ r, IsFirst x y r ∧ memmem rd fl fuel h x.length n y.length = some (pointer h r) := by
  rw [memmem]
  by_cases h0 : y.length = 0
  · exact ⟨some 0, isFirst_empty h0 x, if_pos h0⟩
  · rw [if_neg h0]
    by_cases hlong : y.length > x.length
    · exact ⟨none, isFirst_short hlong, if_pos hlong⟩
    · rw [if_neg hlong, sub32_of_le (Nat.not_lt.mp hlong) hlen]
      exact memmemFrom_run fl (i := 0) hx hy (List.ne_nil_of_length_pos (Nat.pos_of_ne_zero h0)) hrd
        hrd' (Nat.zero_add _) (Nat.not_lt.mp hlong) hfuel

theorem Str.bytes (h : Str m a s) : Bytes m a s := by
  induction s generalizing a with
  | nil => trivial
  | cons c s ih => exact ⟨h.1, ih h.2.2⟩

/-- The three searches give the first place, and the same one where they look for the same thing.
Nothing behind a terminator or a block is read, and behind the length of `strnstr` one byte at most. -/
theorem searches_first (fl : Flags) (hs : Str m a s) (ht : Str m b t)
    (hslen : s.length < 4294967295) (htlen : t.length < 4294967295) (hfuel : s.length < fuel)
    (hfuel' : t.length < fuel) :
    (∃ r, IsFirst s t r ∧
      strstr (seen m [(a, s.length + 1), (b, t.length + 1)]) fuel a b = some (pointer a r) ∧
      strnstr (seen m [(a, s.length + 1), (b, t.length + 1)]) fuel a b s.length =
        some (pointer a r) ∧
      memmem (seen m [(a, s.length), (b, t.length)]) fl fuel a s.length b t.length =
        some (pointer a r)) ∧
    (∀ len, len < 4294967296 → ∃ r, IsFirst (s.take len) t r ∧
      strnstr (seen m [(a, min s.length len + 1), (b, t.length + 1)]) fuel a b len =
        some (pointer a r)) ∧
    ∀ (x y : List UInt8) (p q k : Nat), Bytes m p x → Bytes m q y → x.length < 4294967296 →
      x.length < k → ∃ r, IsFirst x y r ∧
        memmem (seen m [(p, x.length), (q, y.length)]) fl k p x.length q y.length =
          some (pointer p r) := by
  have hlen : ∀ len, len < 4294967296 → ∃ r, IsFirst (s.take len) t r ∧
      strnstr (seen m [(a, min s.length len + 1), (b, t.length + 1)]) fuel a b len =
        some (pointer a r) := fun len hlen =>
    strnstr_run hs ht htlen (seen_readable (by simp)) (seen_readable (by simp)) hlen hfuel hfuel'
  refine ⟨?_, hlen, fun x y p q k hx hy hxlen hk =>
    memmem_run fl hx hy (seen_readable (by simp)) (seen_readable (by simp)) hxlen hk⟩
  obtain ⟨r, hr, hstrstr⟩ := strstr_run hs ht htlen
    (seen_readable (show _ ∈ [(a, s.length + 1), (b, t.length + 1)] by simp))
    (seen_readable (by simp)) hfuel hfuel'
  obtain ⟨r', hr', hstrnstr⟩ := hlen s.length (by omega)
  obtain ⟨r'', hr'', hmemmem⟩ := memmem_run fl (Str.bytes hs) (Str.bytes ht)
    (seen_readable (show _ ∈ [(a, s.length), (b, t.length)] by simp)) (seen_readable (by simp))
    (by omega) hfuel
  rw [List.take_length] at hr'
  rw [Nat.min_self] at hstrnstr
  obtain rfl := hr.unique hr'
  obtain rfl := hr.unique hr''
  exact ⟨r, hr, hstrstr, hstrnstr, hmemmem⟩

/-- `ab` and `c`. -/
def abAndC : Mem := putString (putString ⟨fun _ => 0⟩ 0x1000 [97, 98]) 0x2000 [99]

/-- `"ab"` -/
def ab : List UInt8 := [97, 98]

theorem searches_first_abc :
    (∃ r, IsFirst ab [99] r ∧
      strstr (seen abAndC [(0x1000, 3), (0x2000, 2)]) 3 0x1000 0x2000 =
        some (pointer 0x1000 r) ∧
      strnstr (seen abAndC [(0x1000, 3), (0x2000, 2)]) 3 0x1000 0x2000 2 =
        some (pointer 0x1000 r) ∧
      memmem (seen abAndC [(0x1000, 2), (0x2000, 1)]) ⟨true, false, false⟩ 3 0x1000 2 0x2000 1 =
        some (pointer 0x1000 r)) ∧
    (∃ r, IsFirst (ab.take 1) [99] r ∧
      strnstr (seen abAndC [(0x1000, 2), (0x2000, 2)]) 3 0x1000 0x2000 1 =
        some (pointer 0x1000 r)) ∧
    ∃ r, IsFirst ab [99] r ∧
      memmem (seen abAndC [(0x1000, 2), (0x2000, 1)]) ⟨true, false, false⟩ 3 0x1000 2 0x2000 1 =
        some (pointer 0x1000 r) := by
  have hs : Str abAndC 0x1000 ab := by decide
  have ht : Str abAndC 0x2000 [99] := by decide
  have hfuel : ab.length < 3 := by decide
  have hall := searches_first ⟨true, false, false⟩ hs ht (by decide) (by decide) hfuel (by decide)
  exact ⟨hall.1, hall.2.1 1 (by decide),
    hall.2.2 ab [99] 0x1000 0x2000 3 (by decide) (by decide) (by decide) hfuel⟩

/-- One character that does not occur is looked for in one character: the second one is read. -/
theorem searches_fails : Str abAndC 0x1000 ab ∧ Str abAndC 0x2000 [99] ∧
    ∀ fuel, strnstr (seen abAndC [(0x1000, 1), (0x2000, 2)]) fuel 0x1000 0x2000 1 = none := by
  refine ⟨by decide, by decide, fun fuel => ?_⟩
  match fuel with
  | 0 => rfl
  | 1 => rfl
  | fuel + 2 => rfl

end Foos.Search
