import Foos.Acpi
import Foos.Aml
import Foos.Printf

/-! `acpi_shutdown_init` of `kernel/acpi.c`: the sleep types are fetched at fixed places behind the
`_S5_` object that the search finds. -/
namespace Foos.Acpi
open ByteMemory Word32 Libc Printf Aml

/-- The fields of `struct acpi_fadt` that are used. -/
structure Fadt where
  dsdt : Nat
  smiCmdport : Nat
  acpiEnable : Nat
  pm1aCtrlblk : Nat
  pm1bCtrlblk : Nat

/-- `SLP_TYPa` and `SLP_TYPb` -/
structure SleepTypes where
  slpTypa : Nat
  slpTypb : Nat

def read32 (rd : Nat → Option UInt8) (a : Nat) : Option Nat := do
  let b0 ← rd a
  let b1 ← rd (a + 1)
  let b2 ← rd (a + 2)
  let b3 ← rd (a + 3)
  some (b0.toNat + 256 * b1.toNat + 65536 * b2.toNat + 16777216 * b3.toNat)

/-- The value returned, what goes to the serial line, and the sleep types. -/
def acpiShutdownInit (rd : Nat → Option UInt8) (fuel : Nat) (fadt : Fadt) (slp : SleepTypes) :
    Option (Nat × List Call × SleepTypes) := do
  let aml := fadt.dsdt + 36
  let amlLen ← read32 rd (fadt.dsdt + 4)
  let s5 ← acpiSearchS5 rd fuel aml amlLen
  if s5 = 0 then some (1, [serialPrintf "[acpi] `_S5_' not found\n" []], slp)
  else do
    let size ← rd (s5 + 6)
    let a ← rd (s5 + 8)
    let b ← rd (s5 + 10)
    some (0, [serialPrintf "[acpi] `_S5_' found\n" [],
      serialPrintf "[acpi] `_S5_' package size: %d\n" [.word size.toUInt32]],
      ⟨a.toNat <<< 10, b.toNat <<< 10⟩)

/-- Position `p` is that of the first `_S5_` object. -/
def FirstS5 (m : Mem) (aml len p : Nat) : Prop :=
  S5At m aml len p ∧ ∀ q, q < p → ¬ S5At m aml len q

variable {m : Mem} {rd : Nat → Option UInt8} {fuel dsdt len pos : Nat} {fadt : Fadt}
  {slp : SleepTypes}

theorem FirstS5.unique {aml q : Nat} (hp : FirstS5 m aml len pos) (hq : FirstS5 m aml len q) :
    q = pos := by
  have h1 : ¬ pos < q := fun h => hq.2 pos h hp.1
  have h2 : ¬ q < pos := fun h => hp.2 q h hq.1
  omega

theorem read32_some {a : Nat} (hrd : Readable rd m a 4) : read32 rd a = some (load32 m a) := by
  simp [read32, load32, hrd a (by omega) (by omega), hrd (a + 1) (by omega) (by omega),
    hrd (a + 2) (by omega) (by omega), hrd (a + 3) (by omega) (by omega)]

/-- The table that `dsdt` points to lies in the address space and holds its header. -/
structure Dsdt (m : Mem) (dsdt len : Nat) : Prop where
  len_eq : load32 m (dsdt + 4) = len
  header : 36 ≤ len
  inside : dsdt + len ≤ 4294967296

/-- With only the table readable the search finds the first object of the body, or it tries to
read the byte behind the table. -/
theorem search_table (h : Dsdt m dsdt len) (hfuel : len < fuel) :
    (∃ p, acpiSearchS5 (view m dsdt len) fuel (dsdt + 36) len = some (dsdt + 36 + p) ∧
      FirstS5 m (dsdt + 36) (len - 36) p) ∨
    (acpiSearchS5 (view m dsdt len) fuel (dsdt + 36) len = none ∧
      ∀ p, ¬ S5At m (dsdt + 36) (len - 36) p) := by
  have hheader := h.header
  have hinside := h.inside
  have hlen : len < 4294967296 := h.len_eq ▸ load32_lt m (dsdt + 4)
  have hbody : Readable (view m dsdt len) m (dsdt + 36) (len - 36) :=
    (view_readable m dsdt len).sub (by omega) (by omega)
  have hout : view m dsdt len (dsdt + 36 + (len - 36)) = none := if_neg (by omega)
  exact acpiSearchS5_partial (k := 0) (R := len - 36) hbody hout (by omega) (by omega) (by omega)
    hlen (Nat.zero_le _) (.inl rfl) (fun q hq => absurd hq (Nat.not_lt_zero q)) (by omega)

/-- An object of the body is found whatever stands behind the table. -/
theorem search_found (h : Dsdt m dsdt len) (hfirst : FirstS5 m (dsdt + 36) (len - 36) pos)
    (hfuel : len < fuel) :
    acpiSearchS5 (fun a => some (m a)) fuel (dsdt + 36) len = some (dsdt + 36 + pos) := by
  apply acpiSearchS5_extends (view_extends m dsdt len)
  cases search_table h hfuel with
  | inl hfound =>
    obtain ⟨p, hrun, hp⟩ := hfound
    rw [hrun, hfirst.unique hp]
  | inr hnone => exact absurd hfirst.1 (hnone.2 pos)

/-- An object has been found and the three bytes behind it can be read. -/
theorem acpiShutdownInit_found {s5 : Nat} {size a b : UInt8}
    (hlen : read32 rd (fadt.dsdt + 4) = some len)
    (hs5 : acpiSearchS5 rd fuel (fadt.dsdt + 36) len = some s5) (h0 : s5 ≠ 0)
    (h6 : rd (s5 + 6) = some size) (h8 : rd (s5 + 8) = some a) (h10 : rd (s5 + 10) = some b) :
    acpiShutdownInit rd fuel fadt slp =
      some (0, [serialPrintf "[acpi] `_S5_' found\n" [],
        serialPrintf "[acpi] `_S5_' package size: %d\n" [.word size.toUInt32]],
        ⟨a.toNat <<< 10, b.toNat <<< 10⟩) := by
  simp only [acpiShutdownInit, hlen, hs5, Option.bind_eq_bind, Option.bind_some, if_neg h0, h6, h8,
    h10]

/-- A search that reads outside, or a sleep type that stands outside. -/
theorem acpiShutdownInit_outside (hlen : read32 rd (fadt.dsdt + 4) = some len)
    (hout : ∀ s5, acpiSearchS5 rd fuel (fadt.dsdt + 36) len = some s5 →
      s5 ≠ 0 ∧ rd (s5 + 10) = none) :
    acpiShutdownInit rd fuel fadt slp = none := by
  cases hs5 : acpiSearchS5 rd fuel (fadt.dsdt + 36) len with
  | none => simp only [acpiShutdownInit, hlen, hs5, Option.bind_eq_bind, Option.bind_some,
      Option.bind_none]
  | some s5 =>
    obtain ⟨h0, h10⟩ := hout s5 hs5
    simp only [acpiShutdownInit, hlen, hs5, Option.bind_eq_bind, Option.bind_some, if_neg h0, h10,
      Option.bind_none, Option.bind_eq_none_iff, implies_true]

theorem acpiShutdownInit_run (h : Dsdt m fadt.dsdt len)
    (hfirst : FirstS5 m (fadt.dsdt + 36) (len - 36) pos) (hfuel : len < fuel) :
    acpiShutdownInit (fun a => some (m a)) fuel fadt slp =
      some (0, [serialPrintf "[acpi] `_S5_' found\n" [],
        serialPrintf "[acpi] `_S5_' package size: %d\n"
          [.word (m (fadt.dsdt + 36 + pos + 6)).toUInt32]],
        ⟨(m (fadt.dsdt + 36 + pos + 8)).toNat <<< 10,
          (m (fadt.dsdt + 36 + pos + 10)).toNat <<< 10⟩) := by
  have hlen : read32 (fun a => some (m a)) (fadt.dsdt + 4) = some len := by
    rw [← h.len_eq]
    exact read32_some fun a _ _ => rfl
  exact acpiShutdownInit_found hlen (search_found h hfirst hfuel) (by omega) rfl rfl rfl

/- The places of the two constants. -/

/-- The encodings for which the bytes at the fixed places are the two constants; `behind` gives
the bytes behind the second one. -/
def InPlace (p : Package) (behind : Nat → UInt8) : Prop :=
  match p.length.follow, p.first, p.second with
  | [], .byte _, .byte _ => True
  | [], .byte _, e => behind 0 = e.value
  | [], _, .byte _ => False
  | [], d, e => d.value = e.value ∧ behind 1 = e.value
  | [_], .byte a, .byte b => a = 0x0A ∧ b = 0x0A
  | [_], .byte a, _ => a = 0x0A
  | [_], _, .byte _ => True
  | [_], _, e => behind 0 = e.value
  | [_, _], .byte a, .byte b => p.num = a ∧ a = b
  | [_, _], _, _ => False
  | [_, _, top], .byte a, e => top = a ∧ e.value = 0x0A
  | [_, _, top], d, e => top = d.value ∧ d.value = e.value
  | _, _, _ => False

theorem Bytes.append {a : Nat} {xs ys : List UInt8} :
    Bytes m a (xs ++ ys) ↔ Bytes m a xs ∧ Bytes m (a + xs.length) ys := by
  induction xs generalizing a with
  | nil => simp [Bytes]
  | cons x xs ih => simp [Bytes, ih, and_assoc, Nat.add_assoc, Nat.add_comm 1]

/-- What stands behind the package operator, as far as it is looked at. -/
def behind (m : Mem) (s5 : Nat) (p : Package) (i : Nat) : UInt8 := m (s5 + 4 + p.head.length + i)

theorem num_ne_small (p : Package) {b : UInt8} (hb : b.toNat < 2) : p.num ≠ b := by
  intro heq
  have htwo := p.two_le_num
  rw [heq] at htwo
  omega

/-- The bytes at the fixed places are the constants exactly for the encodings named. -/
theorem inPlace_iff {s5 : Nat} (p : Package) (hbytes : Bytes m (s5 + 4) p.head) :
    m (s5 + 8) = p.first.value ∧ m (s5 + 10) = p.second.value ↔ InPlace p (behind m s5 p) := by
  have h0 : p.num ≠ 0 := num_ne_small p (by decide)
  have h1 : p.num ≠ 1 := num_ne_small p (by decide)
  unfold InPlace behind
  simp only [Package.head] at hbytes ⊢
  obtain hlist | ⟨x, hlist⟩ | ⟨x, y, hlist⟩ | ⟨x, y, z, hlist⟩ := p.length.follow_cases
  · rw [hlist] at hbytes ⊢
    cases hd : p.first <;> cases he : p.second <;>
      simp_all [Const.bytes, Const.value, Bytes, Nat.add_assoc]
  · rw [hlist] at hbytes ⊢
    cases hd : p.first <;> cases he : p.second <;>
      simp_all [Const.bytes, Const.value, Bytes, Nat.add_assoc, @eq_comm UInt8 10]
  · rw [hlist] at hbytes ⊢
    cases hd : p.first <;> cases he : p.second <;>
      simp_all [Const.bytes, Const.value, Bytes, Nat.add_assoc]
    -- A package with two elements does not count zero or one.
    · exact fun heq hb => h0 (heq.trans hb)
    · exact fun heq hb => h1 (heq.trans hb)
  · rw [hlist] at hbytes ⊢
    cases hd : p.first <;> cases he : p.second <;>
      simp_all [Const.bytes, Const.value, Bytes, Nat.add_assoc, @eq_comm UInt8 10]

theorem shiftLeft_ten_inj {b c : UInt8} : b.toNat <<< 10 = c.toNat <<< 10 ↔ b = c := by
  rw [Nat.shiftLeft_eq, Nat.shiftLeft_eq, ← UInt8.toNat_inj]
  omega

/-- The body of the table begins with other terms, then comes `Name(_S5_, Package)`, and nothing
in front of it looks like the object. -/
structure Named (m : Mem) (dsdt len pos : Nat) (p : Package) : Prop where
  first : FirstS5 m (dsdt + 36) (len - 36) pos
  package : Bytes m (dsdt + 36 + pos + 4) p.bytes
  inside : pos + 4 + p.bytes.length ≤ len - 36

/-- The sleep types are the first two constants exactly for the encodings of `InPlace`. -/
theorem acpiShutdownInit_iff (m : Mem) (fadt : Fadt) (slp : SleepTypes) (len pos : Nat)
    (p : Package) (h : Dsdt m fadt.dsdt len) (hnamed : Named m fadt.dsdt len pos p) :
    (∀ fuel, len < fuel → ∃ out,
      acpiShutdownInit (fun a => some (m a)) fuel fadt slp =
        some (0, out, ⟨p.first.value.toNat <<< 10, p.second.value.toNat <<< 10⟩)) ↔
    InPlace p (behind m (fadt.dsdt + 36 + pos) p) := by
  have hhead := (Bytes.append.mp hnamed.package).1
  rw [← inPlace_iff p hhead]
  constructor
  · intro hall
    obtain ⟨out, hrun⟩ := hall (len + 1) (Nat.lt_succ_self len)
    rw [acpiShutdownInit_run h hnamed.first (Nat.lt_succ_self len)] at hrun
    simp only [Option.some.injEq, Prod.mk.injEq, SleepTypes.mk.injEq, shiftLeft_ten_inj] at hrun
    exact hrun.2.2
  · intro hplaces fuel hfuel
    rw [acpiShutdownInit_run h hnamed.first hfuel, hplaces.1, hplaces.2]
    exact ⟨_, rfl⟩

/-- A table with a body. -/
def tableOf (body : List UInt8) : Mem := ⟨fun a =>
  ([0x44, 0x53, 0x44, 0x54, UInt8.ofNat (36 + body.length), 0, 0, 0] ++ List.replicate 28 0 ++
    body).getD (a - 4096) 0⟩

def tableFadt : Fadt := ⟨4096, 0, 0, 0, 0⟩

/-- Two sleep types `5` behind their prefixes. -/
def fives : Package where
  length := ⟨6, [], rfl, fun h => absurd rfl h⟩
  num := 2
  first := .byte 5
  second := .byte 5
  rest := []
  enough := Nat.le_refl 2
  measured := rfl

theorem dsdt_tableOf {body : List UInt8} (hbody : body.length < 220) :
    Dsdt (tableOf body) 4096 (36 + body.length) where
  len_eq := by
    simp [load32, tableOf]
    omega
  header := Nat.le_add_right 36 _
  inside := by omega

theorem acpiShutdownInit_iff_fives :
    Dsdt (tableOf (0x08 :: s5Name ++ fives.bytes)) 4096 48 ∧
    Named (tableOf (0x08 :: s5Name ++ fives.bytes)) 4096 48 1 fives ∧
    ((∀ fuel, 48 < fuel → ∃ out, acpiShutdownInit
      (fun a => some (tableOf (0x08 :: s5Name ++ fives.bytes) a)) fuel tableFadt ⟨0, 0⟩ =
        some (0, out, ⟨fives.first.value.toNat <<< 10, fives.second.value.toNat <<< 10⟩)) ↔
    InPlace fives (behind (tableOf (0x08 :: s5Name ++ fives.bytes)) (4096 + 36 + 1) fives)) :=
  have hd : Dsdt (tableOf (0x08 :: s5Name ++ fives.bytes)) 4096 48 := dsdt_tableOf (by decide)
  have hn : Named (tableOf (0x08 :: s5Name ++ fives.bytes)) 4096 48 1 fives :=
    { first := ⟨⟨by decide, by decide, by decide, by decide, by decide⟩,
        fun q hq hat => absurd hat.pos (by omega)⟩
      package := by decide
      inside := by decide }
  ⟨hd, hn, acpiShutdownInit_iff (tableOf (0x08 :: s5Name ++ fives.bytes)) tableFadt ⟨0, 0⟩ 48 1
    fives hd hn⟩

/-- The first sleep type is `ZeroOp`, a single byte, so that everything behind it stands one byte
nearer than where it is fetched. -/
def zeroFive : Package where
  length := ⟨5, [], rfl, fun h => absurd rfl h⟩
  num := 2
  first := .zeroOp
  second := .byte 5
  rest := []
  enough := Nat.le_refl 2
  measured := rfl

theorem acpiShutdownInit_fails :
    ¬ ∀ (m : Mem) (fadt : Fadt) (slp : SleepTypes) (len pos : Nat) (p : Package),
      Dsdt m fadt.dsdt len → Named m fadt.dsdt len pos p → ∀ fuel, len < fuel → ∃ out,
        acpiShutdownInit (fun a => some (m a)) fuel fadt slp =
          some (0, out, ⟨p.first.value.toNat <<< 10, p.second.value.toNat <<< 10⟩) := by
  intro hall
  have hd : Dsdt (tableOf (0x08 :: s5Name ++ zeroFive.bytes)) 4096 47 := dsdt_tableOf (by decide)
  have hfirst : FirstS5 (tableOf (0x08 :: s5Name ++ zeroFive.bytes)) (4096 + 36) (47 - 36) 1 :=
    ⟨⟨by decide, by decide, by decide, by decide, by decide⟩,
      fun q hq hat => absurd hat.pos (by omega)⟩
  obtain ⟨out, hrun⟩ := hall _ tableFadt ⟨0, 0⟩ 47 1 zeroFive hd
    ⟨hfirst, by decide, by decide⟩ 48 (by decide)
  rw [acpiShutdownInit_run hd hfirst (Nat.lt_succ_self 47)] at hrun
  simp only [Option.some.injEq, Prod.mk.injEq, SleepTypes.mk.injEq, shiftLeft_ten_inj] at hrun
  exact absurd hrun.2.2.1 (by decide)

/- What is read of the table. -/

/-- Every byte looked at lies in the table, and so does every object that is accepted. -/
def StaysInside (m : Mem) (fadt : Fadt) (len : Nat) (slp : SleepTypes) : Prop :=
  (∃ r, ∀ fuel, len < fuel → acpiShutdownInit (view m fadt.dsdt len) fuel fadt slp = some r) ∧
  ∀ fuel s5, len < fuel → acpiSearchS5 (fun a => some (m a)) fuel (fadt.dsdt + 36) len = some s5 →
    s5 ≠ 0 → fadt.dsdt ≤ s5 ∧ s5 + 5 ≤ fadt.dsdt + len

theorem read_len (h : Dsdt m dsdt len) : read32 (view m dsdt len) (dsdt + 4) = some len := by
  have hheader := h.header
  have hrd : Readable (view m dsdt len) m (dsdt + 4) 4 :=
    (view_readable m dsdt len).sub (by omega) (by omega)
  rw [read32_some hrd, h.len_eq]

/-- Without an object far enough from its end the table is left. -/
theorem acpiShutdownInit_leaves (h : Dsdt m fadt.dsdt len) (hfuel : len < fuel)
    (hfar : ∀ p, FirstS5 m (fadt.dsdt + 36) (len - 36) p → ¬ p + 10 < len - 36) :
    acpiShutdownInit (view m fadt.dsdt len) fuel fadt slp = none := by
  have hheader := h.header
  apply acpiShutdownInit_outside (read_len h)
  intro s5 hs5
  cases search_table h hfuel with
  | inr hnone =>
    rw [hnone.1] at hs5
    simp at hs5
  | inl hfound =>
    obtain ⟨p, hsearch, hp⟩ := hfound
    have hend := hfar p hp
    rw [hsearch, Option.some.injEq] at hs5
    rw [← hs5]
    exact ⟨by omega, if_neg (by omega)⟩

/-- The fetch stays inside exactly when the first object stands in the body, eleven bytes or more
before its end. -/
theorem acpiShutdownInit_inside (m : Mem) (fadt : Fadt) (slp : SleepTypes) (len : Nat)
    (h : Dsdt m fadt.dsdt len) :
    StaysInside m fadt len slp ↔
      ∃ p, FirstS5 m (fadt.dsdt + 36) (len - 36) p ∧ p + 10 < len - 36 := by
  have hheader := h.header
  constructor
  · intro hstays
    by_contra hno
    obtain ⟨r, hr⟩ := hstays.1
    have hrun := hr (len + 1) (Nat.lt_succ_self len)
    rw [acpiShutdownInit_leaves h (Nat.lt_succ_self len) fun p hp hroom => hno ⟨p, hp, hroom⟩]
      at hrun
    simp at hrun
  · intro hex
    obtain ⟨p, hp, hroom⟩ := hex
    constructor
    · have hin : ∀ i, i ≤ 10 → view m fadt.dsdt len (fadt.dsdt + 36 + p + i) =
          some (m (fadt.dsdt + 36 + p + i)) := by
        intro i hi
        exact if_pos (by omega)
      refine ⟨_, fun fuel hfuel => acpiShutdownInit_found (read_len h) ?_
        (by omega) (hin 6 (by decide)) (hin 8 (by decide)) (hin 10 (by decide))⟩
      cases search_table h hfuel with
      | inr hnone => exact absurd hp.1 (hnone.2 p)
      | inl hfound =>
        obtain ⟨q, hsearch, hq⟩ := hfound
        rw [hsearch, hp.unique hq]
    · intro fuel s5 hfuel hsearch h0
      rw [search_found h hp hfuel, Option.some.injEq] at hsearch
      omega

/-- The package of `fives` is as long as it must be. -/
theorem acpiShutdownInit_inside_fives :
    Dsdt (tableOf (0x08 :: s5Name ++ fives.bytes)) 4096 48 ∧
    (StaysInside (tableOf (0x08 :: s5Name ++ fives.bytes)) tableFadt 48 ⟨0, 0⟩ ↔
      ∃ p, FirstS5 (tableOf (0x08 :: s5Name ++ fives.bytes)) (4096 + 36) (48 - 36) p ∧
        p + 10 < 48 - 36) :=
  have hd : Dsdt (tableOf (0x08 :: s5Name ++ fives.bytes)) 4096 48 := dsdt_tableOf (by decide)
  ⟨hd, acpiShutdownInit_inside (tableOf (0x08 :: s5Name ++ fives.bytes)) tableFadt ⟨0, 0⟩ 48 hd⟩

/-- The search of an empty body begins behind the table. -/
theorem acpiShutdownInit_inside_fails :
    ¬ ∀ (m : Mem) (fadt : Fadt) (slp : SleepTypes) (len : Nat),
      Dsdt m fadt.dsdt len → StaysInside m fadt len slp := by
  intro hall
  have hd : Dsdt (tableOf []) tableFadt.dsdt 36 := dsdt_tableOf (by decide)
  have hempty : ∀ p, FirstS5 (tableOf []) (tableFadt.dsdt + 36) (36 - 36) p →
      ¬ p + 10 < 36 - 36 := by
    intro p _
    omega
  obtain ⟨r, hr⟩ := (hall (tableOf []) tableFadt ⟨0, 0⟩ 36 hd).1
  have hrun := hr 37 (by decide)
  rw [acpiShutdownInit_leaves hd (by decide) hempty] at hrun
  simp at hrun

end Foos.Acpi
