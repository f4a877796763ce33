import Foos.Memmem

/-! `acpi_search_s5` of `kernel/acpi.c`: the search for the `_S5_` object in a window that
shrinks behind every occurrence of the name that is not the object. -/
namespace Foos.Acpi
open ByteMemory Word32 Libc

/-- `"_S5_"` -/
def s5Name : List UInt8 := [0x5F, 0x53, 0x35, 0x5F]

/-- The condition of the loop's `if`, evaluated from left to right. -/
def accepted (rd : Nat → Option UInt8) (s5 pos amlLen : Nat) : Option Bool :=
  if pos ≠ 0 ∧ add32 pos 4 < amlLen then do
    let b ← rd (s5 - 1)
    let before ←
      if b = 0x08 then some true
      else if pos ≠ 1 ∧ b = 0x5C then do
        let b2 ← rd (s5 - 2)
        some (b2 == 0x08)
      else some false
    if before then do
      let b4 ← rd (s5 + 4)
      some (b4 == 0x12)
    else some false
  else some false

def acpiSearchS5 (rd : Nat → Option UInt8) : Nat → Nat → Nat → Option Nat
  | 0, _, _ => none
  | fuel+1, aml, amlLen => do
    let s5 ← memmem rd (fuel + 1) aml amlLen s5Name
    if s5 = 0 then some 0
    else do
      let pos := sub32 s5 aml
      let ok ← accepted rd s5 pos amlLen
      if ok then some s5
      else acpiSearchS5 rd fuel (s5 + 4) (sub32 amlLen (add32 pos 4))

/-- Position `p` of the `len` bytes at `aml` is that of the `_S5_` object. -/
structure S5At (m : Mem) (aml len p : Nat) : Prop where
  name : Bytes m (aml + p) s5Name
  pos : 1 ≤ p
  inside : p + 4 < len
  package : m (aml + p + 4) = 0x12
  before : m (aml + p - 1) = 0x08 ∨ 2 ≤ p ∧ m (aml + p - 1) = 0x5C ∧ m (aml + p - 2) = 0x08

variable {m : Mem} {rd : Nat → Option UInt8} {aml len fuel k p q i : Nat}

theorem Bytes.s5 : Bytes m q s5Name ↔
    m q = 0x5F ∧ m (q + 1) = 0x53 ∧ m (q + 2) = 0x35 ∧ m (q + 3) = 0x5F := by
  simp [s5Name, Bytes, Nat.add_assoc]

/-- An object is never found right behind an occurrence of the name. -/
theorem S5At.not_behind (hat : S5At m aml len p) (hp : q + 4 = p) :
    ¬ Bytes m (aml + q) s5Name := by
  intro hname
  have hlast : m (aml + q + 3) = 0x5F := (Bytes.s5.mp hname).2.2.2
  have hb := hat.before
  rw [show aml + p - 1 = aml + q + 3 by omega, hlast] at hb
  simp at hb

/-- An object is never found inside an occurrence of the name. -/
theorem S5At.not_inside (hat : S5At m aml len p) (h1 : q < p) (h2 : p < q + 4) :
    ¬ Bytes m (aml + q) s5Name := by
  intro hname
  obtain ⟨-, hS, h5, -⟩ := Bytes.s5.mp hname
  have hfirst := (Bytes.s5.mp hat.name).1
  obtain rfl | rfl | rfl : p = q + 1 ∨ p = q + 2 ∨ p = q + 3 := by omega
  · rw [← Nat.add_assoc, hS] at hfirst
    simp at hfirst
  · rw [← Nat.add_assoc, h5] at hfirst
    simp at hfirst
  · have hb := hat.before
    rw [show aml + (q + 3) - 1 = aml + q + 2 by omega, h5] at hb
    simp at hb

/-- What the window at `k` stands for: it begins the buffer or follows the name. -/
def Follows (m : Mem) (aml k : Nat) : Prop :=
  k = 0 ∨ ∃ q, q + 4 = k ∧ Bytes m (aml + q) s5Name

/-- The test as one condition, for an occurrence whose neighbours can be read. -/
theorem accepted_some {s5 amlLen : Nat} (h1 : rd (s5 - 1) = some (m (s5 - 1)))
    (h2 : i ≠ 1 → rd (s5 - 2) = some (m (s5 - 2))) (h4 : rd (s5 + 4) = some (m (s5 + 4)))
    (hi : i ≠ 0) (hin : add32 i 4 < amlLen) :
    accepted rd s5 i amlLen = some (decide ((m (s5 - 1) = 0x08 ∨
      i ≠ 1 ∧ m (s5 - 1) = 0x5C ∧ m (s5 - 2) = 0x08) ∧ m (s5 + 4) = 0x12)) := by
  simp only [accepted, if_pos (And.intro hi hin), h1, h4, Option.bind_eq_bind, Option.bind_some]
  by_cases hb : m (s5 - 1) = 0x08
  · simp [hb, beq_eq_decide]
  · by_cases hslash : i ≠ 1 ∧ m (s5 - 1) = 0x5C
    · by_cases hb2 : m (s5 - 2) = 0x08
      · simp [hslash, h2 hslash.1, hb2, beq_eq_decide]
      · simp [hslash, h2 hslash.1, hb2]
    · have hno : ¬ (i ≠ 1 ∧ m (s5 - 1) = 0x5C ∧ m (s5 - 2) = 0x08) :=
        fun hall => hslash ⟨hall.1, hall.2.1⟩
      simp [hb, hslash, hno]

/-- The test in the window at `k` for an occurrence in front of the byte `R`. -/
theorem accepted_room {R : Nat} (hrd : Readable rd m aml R) (hR : R ≤ len)
    (h32 : len < 4294967296) (hfollows : Follows m aml k)
    (hname : Bytes m (aml + (k + i)) s5Name) (hin : k + i + 4 < R) :
    ∃ ok, accepted rd (aml + (k + i)) i (len - k) = some ok ∧
      (ok = true ↔ S5At m aml R (k + i)) := by
  have hadd : add32 i 4 = i + 4 := add32_of_lt (by omega)
  by_cases hi : i = 0
  · refine ⟨false, by simp [accepted, hi], ?_⟩
    simp only [Bool.false_eq_true, false_iff]
    intro hat
    obtain hk | ⟨q, hq, hprev⟩ := hfollows
    · have hpos := hat.pos
      omega
    · exact hat.not_behind (by omega) hprev
  · refine ⟨_, accepted_some (hrd _ (by omega) (by omega)) (fun h1 => hrd _ (by omega) (by omega))
      (hrd _ (by omega) (by omega)) hi (by omega), ?_⟩
    rw [decide_eq_true_iff]
    constructor
    · intro htest
      obtain ⟨hb, h4⟩ := htest
      refine ⟨hname, by omega, by omega, h4, ?_⟩
      exact hb.imp_right fun h => ⟨by omega, h.2⟩
    · intro hat
      refine ⟨?_, hat.package⟩
      obtain hb | ⟨h2, hslash, hb2⟩ := hat.before
      · exact .inl hb
      · refine .inr ⟨fun h1 => ?_, hslash, hb2⟩
        -- The second byte in front would be the last of the name before the window.
        obtain hk | ⟨q, hq, hprev⟩ := hfollows
        · omega
        · have hlast : m (aml + q + 3) = 0x5F := (Bytes.s5.mp hprev).2.2.2
          rw [show aml + (k + i) - 2 = aml + q + 3 by omega, hlast] at hb2
          simp at hb2

/-- The test in the window decides whether the object is at the occurrence it looks at. -/
theorem accepted_iff (hrd : Readable rd m aml len) (h32 : len < 4294967296)
    (hfollows : Follows m aml k) (hname : Bytes m (aml + (k + i)) s5Name)
    (hin : k + i + 4 ≤ len) :
    ∃ ok, accepted rd (aml + (k + i)) i (len - k) = some ok ∧
      (ok = true ↔ S5At m aml len (k + i)) := by
  by_cases hroom : k + i + 4 < len
  · exact accepted_room hrd (Nat.le_refl len) h32 hfollows hname hroom
  · have hadd : add32 i 4 = i + 4 := add32_of_lt (by omega)
    refine ⟨false, by simp [accepted, hadd, show ¬ i + 4 < len - k by omega], ?_⟩
    simp only [Bool.false_eq_true, false_iff]
    intro hat
    exact hroom hat.inside

/-- The object is not where the window at `k` holds no name. -/
theorem no_object {R q : Nat} (hskip : ∀ q, q < k → ¬ S5At m aml R q)
    (hname : k ≤ q → ¬ Bytes m (aml + k + (q - k)) s5Name) : ¬ S5At m aml R q := by
  intro hat
  by_cases hq : q < k
  · exact hskip q hq hat
  · refine hname (Nat.le_of_not_lt hq) ?_
    rw [show aml + k + (q - k) = aml + q by omega]
    exact hat.name

/-- Nor inside a name that is not its own. -/
theorem no_object_past {R : Nat} (hskip : ∀ q, q < k + i → ¬ S5At m aml R q)
    (hbytes : Bytes m (aml + (k + i)) s5Name) (hat : ¬ S5At m aml R (k + i)) :
    ∀ q, q < k + (i + 4) → ¬ S5At m aml R q := by
  intro q hq hq'
  obtain hlt | heq | hgt : q < k + i ∨ q = k + i ∨ k + i < q := by omega
  · exact hskip q hlt hq'
  · exact hat (heq ▸ hq')
  · exact hq'.not_inside hgt (by omega) hbytes

/-- A round that finds a name tests it and goes on behind it. -/
theorem acpiSearchS5_found (haml : 0 < aml) (h32 : aml + (k + i) < 4294967296)
    (hlen : len < 4294967296) (hin : k + i + 4 ≤ len)
    (hi : memmem rd (fuel + 1) (aml + k) (len - k) s5Name = some (aml + (k + i))) :
    acpiSearchS5 rd (fuel + 1) (aml + k) (len - k) =
      (accepted rd (aml + (k + i)) i (len - k)).bind fun ok =>
        if ok then some (aml + (k + i))
        else acpiSearchS5 rd fuel (aml + (k + (i + 4))) (len - (k + (i + 4))) := by
  have hpos : sub32 (aml + (k + i)) (aml + k) = i := by
    rw [sub32_of_le (by omega) h32]
    omega
  have hadd : add32 i 4 = i + 4 := add32_of_lt (by omega)
  have hsub : sub32 (len - k) (i + 4) = len - (k + (i + 4)) := by
    rw [sub32_of_le (by omega) (by omega)]
    omega
  simp only [acpiSearchS5, hi, Option.bind_eq_bind, Option.bind_some,
    if_neg (show ¬ aml + (k + i) = 0 by omega), hpos, hadd, hsub, Nat.add_assoc]

/-- The search in the window at `k`, behind which alone the object can be. -/
theorem acpiSearchS5_window (hrd : Readable rd m aml len) (haml : 0 < aml)
    (h32 : aml + len ≤ 4294967296) (hk : k ≤ len) (hfollows : Follows m aml k)
    (hskip : ∀ q, q < k → ¬ S5At m aml len q) (hfuel : len - k < fuel) :
    (∃ p, acpiSearchS5 rd fuel (aml + k) (len - k) = some (aml + p) ∧ S5At m aml len p ∧
      ∀ q, q < p → ¬ S5At m aml len q) ∨
    (acpiSearchS5 rd fuel (aml + k) (len - k) = some 0 ∧ ∀ p, ¬ S5At m aml len p) := by
  induction fuel generalizing k with
  | zero => omega
  | succ fuel ih =>
    have hlength : s5Name.length = 4 := rfl
    have hwindow : Readable rd m (aml + k) (len - k) :=
      hrd.sub (Nat.le_add_right aml k) (by omega)
    cases memmem_first (s := s5Name) hwindow (List.cons_ne_nil _ _) (by omega) hfuel with
    | inr hnone =>
      refine .inr ⟨by simp [acpiSearchS5, hnone.1], fun p hat => ?_⟩
      have hinside := hat.inside
      exact no_object hskip (fun hp => hnone.2 (p - k) (by omega)) hat
    | inl hfound =>
      obtain ⟨i, hi, hin, hbytes, hbefore⟩ := hfound
      rw [Nat.add_assoc] at hi hbytes
      have hskip' : ∀ q, q < k + i → ¬ S5At m aml len q :=
        fun q hq => no_object hskip fun _ => hbefore (q - k) (by omega)
      have hroom : k + i + 4 ≤ len := by omega
      obtain ⟨ok, hok, hiff⟩ := accepted_iff hrd (by omega) hfollows hbytes hroom
      rw [acpiSearchS5_found haml (by omega) (by omega) hroom hi, hok, Option.bind_some]
      by_cases hat : S5At m aml len (k + i)
      · exact .inl ⟨k + i, if_pos (hiff.mpr hat), hat, hskip'⟩
      · rw [if_neg (fun h => hat (hiff.mp h))]
        exact ih (show k + (i + 4) ≤ len by omega) (.inr ⟨k + i, by omega, hbytes⟩)
          (no_object_past hskip' hbytes hat) (by omega)

theorem S5At.exists_first (h : S5At m aml len p) :
    ∃ q, S5At m aml len q ∧ ∀ u, u < q → ¬ S5At m aml len u := by
  classical
  have hex : ∃ q, S5At m aml len q := ⟨p, h⟩
  exact ⟨Nat.find hex, Nat.find_spec hex, fun u hu => Nat.find_min hex hu⟩

/-- The search reads inside the buffer, ends, and gives the first `_S5_` object of the whole
buffer, or NULL when there is none. -/
theorem acpiSearchS5_first (m : Mem) (aml len : Nat) (haml : 0 < aml)
    (h32 : aml + len ≤ 4294967296) :
    ∃ r, (∀ fuel, len < fuel → acpiSearchS5 (view m aml len) fuel aml len = some r) ∧
      (r = 0 ↔ ∀ p, ¬ S5At m aml len p) ∧
      (∀ p, r = aml + p ↔ S5At m aml len p ∧ ∀ q, q < p → ¬ S5At m aml len q) := by
  have hrun := fun fuel (hfuel : len - 0 < fuel) => acpiSearchS5_window (k := 0)
    (view_readable m aml len) haml h32 (Nat.zero_le len) (.inl rfl) (fun q hq => by omega) hfuel
  simp only [Nat.add_zero, Nat.sub_zero] at hrun
  by_cases hex : ∃ p, S5At m aml len p
  · obtain ⟨p₀, hp₀⟩ := hex
    obtain ⟨p, hat, hleast⟩ := hp₀.exists_first
    have hunique : ∀ q, S5At m aml len q ∧ (∀ u, u < q → ¬ S5At m aml len u) → q = p := by
      intro q hfirst
      obtain ⟨hq, hbelow⟩ := hfirst
      have h1 : ¬ p < q := fun h => hbelow p h hat
      have h2 : ¬ q < p := fun h => hleast q h hq
      omega
    refine ⟨aml + p, fun fuel hfuel => ?_, ?_, fun q => ⟨fun hq => ?_, fun hq => ?_⟩⟩
    · obtain ⟨q, hq, hfirst⟩ | ⟨-, hno⟩ := hrun fuel hfuel
      · rw [hq, hunique q hfirst]
      · exact absurd hat (hno p)
    · exact ⟨fun h0 => by omega, fun hno => absurd hat (hno p)⟩
    · obtain rfl : p = q := by omega
      exact ⟨hat, hleast⟩
    · rw [hunique q hq]
  · have hno : ∀ p, ¬ S5At m aml len p := fun p hp => hex ⟨p, hp⟩
    refine ⟨0, fun fuel hfuel => ?_, ⟨fun _ => hno, fun _ => rfl⟩,
      fun p => ⟨fun hp => by omega, fun hp => absurd hp.1 (hno p)⟩⟩
    obtain ⟨q, -, hq, -⟩ | ⟨hnone, -⟩ := hrun fuel hfuel
    · exact absurd hq (hno q)
    · exact hnone

/- The window reaches behind what can be read. -/

/-- What the test says of the byte `b` in front of the name. -/
def marked (rd : Nat → Option UInt8) (s5 pos : Nat) (b : UInt8) : Option Bool :=
  if b = 0x08 then some true
  else if pos ≠ 1 ∧ b = 0x5C then (rd (s5 - 2)).map (· == 0x08)
  else some false

theorem accepted_eq {s5 amlLen : Nat} : accepted rd s5 i amlLen =
    if i ≠ 0 ∧ add32 i 4 < amlLen then (rd (s5 - 1)).bind fun b => (marked rd s5 i b).bind
      fun before => if before then (rd (s5 + 4)).map (· == 0x12) else some false
    else some false := by
  by_cases hin : i ≠ 0 ∧ add32 i 4 < amlLen
  · rw [accepted, if_pos hin, if_pos hin]
    apply congrArg
    funext b
    by_cases hb : b = 0x08
    · simp [marked, hb, Option.map_eq_bind]
    · by_cases hslash : i ≠ 1 ∧ b = 0x5C
      · cases h2 : rd (s5 - 2) with
        | none => simp [marked, hslash, h2]
        | some b2 =>
          by_cases hb2 : b2 = 0x08 <;> simp [marked, hslash, h2, hb2, Option.map_eq_bind]
      · simp [marked, hb, hslash]
  · rw [accepted, if_neg hin, if_neg hin]

/-- An object is not accepted without a look at the byte behind its name. -/
theorem accepted_cut {s5 amlLen : Nat} (hout : rd (s5 + 4) = none) :
    accepted rd s5 i amlLen ≠ some true := by
  intro hrun
  by_cases hin : i ≠ 0 ∧ add32 i 4 < amlLen
  · simp only [accepted_eq, if_pos hin, Option.bind_eq_some_iff] at hrun
    obtain ⟨b, -, before, -, hrest⟩ := hrun
    cases before with
    | false => simp at hrest
    | true => simp [hout] at hrest
  · simp [accepted_eq, if_neg hin] at hrun

theorem accepted_extends {rd' : Nat → Option UInt8} {s5 amlLen : Nat} {ok : Bool}
    (hext : Extends rd rd') (hrun : accepted rd s5 i amlLen = some ok) :
    accepted rd' s5 i amlLen = some ok := by
  have hmap : ∀ {a : Nat} {c : UInt8} {v : Bool},
      (rd a).map (· == c) = some v → (rd' a).map (· == c) = some v := by
    intro a c v h
    rw [Option.map_eq_some_iff] at h ⊢
    obtain ⟨b, hb, hv⟩ := h
    exact ⟨b, hext a b hb, hv⟩
  by_cases hin : i ≠ 0 ∧ add32 i 4 < amlLen
  · simp only [accepted_eq, if_pos hin, Option.bind_eq_some_iff] at hrun ⊢
    obtain ⟨b, hb, before, hbefore, hrest⟩ := hrun
    refine ⟨b, hext _ b hb, before, ?_, ?_⟩
    · unfold marked at hbefore ⊢
      split_ifs at hbefore ⊢
      · exact hbefore
      · exact hmap hbefore
      · exact hbefore
    · cases before with
      | false => exact hrest
      | true => exact hmap hrest
  · rw [accepted_eq, if_neg hin] at hrun ⊢
    exact hrun

theorem acpiSearchS5_extends {rd' : Nat → Option UInt8} {r : Nat} (hext : Extends rd rd')
    (hrun : acpiSearchS5 rd fuel aml len = some r) : acpiSearchS5 rd' fuel aml len = some r := by
  induction fuel generalizing aml len with
  | zero => simp [acpiSearchS5] at hrun
  | succ fuel ih =>
    simp only [acpiSearchS5, Option.bind_eq_bind, Option.bind_eq_some_iff] at hrun ⊢
    obtain ⟨s5, hs5, hrest⟩ := hrun
    refine ⟨s5, memmem_extends hext hs5, ?_⟩
    by_cases h0 : s5 = 0
    · rw [if_pos h0] at hrest ⊢
      exact hrest
    · rw [if_neg h0, Option.bind_eq_some_iff] at hrest ⊢
      obtain ⟨ok, hok, hlast⟩ := hrest
      refine ⟨ok, accepted_extends hext hok, ?_⟩
      cases ok with
      | true => exact hlast
      | false => exact ih hlast

/-- The search finds the first object among the bytes that can be read, or tries to read the byte
behind them. -/
theorem acpiSearchS5_partial {R : Nat} (hrd : Readable rd m aml R) (hout : rd (aml + R) = none)
    (haml : 0 < aml) (h32 : aml + R ≤ 4294967296) (hR : R + 4 ≤ len) (hlen : len < 4294967296)
    (hk : k ≤ R) (hfollows : Follows m aml k) (hskip : ∀ q, q < k → ¬ S5At m aml R q)
    (hfuel : R - k < fuel) :
    (∃ p, acpiSearchS5 rd fuel (aml + k) (len - k) = some (aml + p) ∧ S5At m aml R p ∧
      ∀ q, q < p → ¬ S5At m aml R q) ∨
    (acpiSearchS5 rd fuel (aml + k) (len - k) = none ∧ ∀ p, ¬ S5At m aml R p) := by
  induction fuel generalizing k with
  | zero => omega
  | succ fuel ih =>
    have hlength : s5Name.length = 4 := rfl
    have hwindow : Readable rd m (aml + k) (R - k) := hrd.sub (Nat.le_add_right aml k) (by omega)
    have hbehind : rd (aml + k + (R - k)) = none := by
      rwa [show aml + k + (R - k) = aml + R by omega]
    have hname : s5Name ≠ [] := List.cons_ne_nil _ _
    have hroom : R - k + s5Name.length ≤ len - k := by omega
    cases memmem_partial hwindow hbehind hname hroom (by omega) hfuel with
    | inr hnone =>
      refine .inr ⟨by simp [acpiSearchS5, hnone.1], fun p hat => ?_⟩
      have hinside := hat.inside
      exact no_object hskip (fun hp => hnone.2 (p - k) (by omega)) hat
    | inl hfound =>
      obtain ⟨i, hi, hin, hbytes, hbefore⟩ := hfound
      rw [Nat.add_assoc] at hi hbytes
      have hskip' : ∀ q, q < k + i → ¬ S5At m aml R q :=
        fun q hq => no_object hskip fun _ => hbefore (q - k) (by omega)
      rw [acpiSearchS5_found haml (by omega) hlen (by omega) hi]
      -- Behind an occurrence that is not the object the search goes on.
      have hgo := fun hat : ¬ S5At m aml R (k + i) =>
        ih (show k + (i + 4) ≤ R by omega) (.inr ⟨k + i, by omega, hbytes⟩)
          (no_object_past hskip' hbytes hat) (by omega)
      by_cases hroom : k + i + 4 < R
      · obtain ⟨ok, hok, hiff⟩ := accepted_room hrd (by omega) hlen hfollows hbytes hroom
        rw [hok, Option.bind_some]
        by_cases hat : S5At m aml R (k + i)
        · exact .inl ⟨k + i, if_pos (hiff.mpr hat), hat, hskip'⟩
        · rw [if_neg (fun h => hat (hiff.mp h))]
          exact hgo hat
      · have hat : ¬ S5At m aml R (k + i) := fun hat => hroom hat.inside
        have hcut : accepted rd (aml + (k + i)) i (len - k) ≠ some true := by
          apply accepted_cut
          rwa [show aml + (k + i) + 4 = aml + R by omega]
        cases hok : accepted rd (aml + (k + i)) i (len - k) with
        | none =>
          refine .inr ⟨rfl, fun p hp => ?_⟩
          have hinside := hp.inside
          exact no_object_past hskip' hbytes hat p (by omega) hp
        | some ok =>
          cases ok with
          | true => exact absurd hok hcut
          | false => exact hgo hat

/-- A name that is no object, then the object. -/
def s5Table : Mem :=
  ⟨fun a => [0x5F, 0x53, 0x35, 0x5F, 0x08, 0x5F, 0x53, 0x35, 0x5F, 0x12].getD (a - 100) 0⟩

theorem acpiSearchS5_first_table :
    acpiSearchS5 (view s5Table 100 10) 11 100 10 = some 105 ∧
    ∃ r, (∀ fuel, 10 < fuel → acpiSearchS5 (view s5Table 100 10) fuel 100 10 = some r) ∧
      (r = 0 ↔ ∀ p, ¬ S5At s5Table 100 10 p) ∧
      (∀ p, r = 100 + p ↔ S5At s5Table 100 10 p ∧ ∀ q, q < p → ¬ S5At s5Table 100 10 q) :=
  ⟨by decide, acpiSearchS5_first s5Table 100 10 (by decide) (by decide)⟩

end Foos.Acpi
