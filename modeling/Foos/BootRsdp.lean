import Foos.Memmem
import Foos.Occurrence
import Foos.Printf

/-! The search for the RSDP in `boot/setup.s`, in real mode. Segments are 16-bit words; the BIOS,
its stack and the registers it keeps are left out. -/
namespace Foos.Boot
open ByteMemory Libc Occurrence

/-- `rsdp_sig` as the words that `cmpsw` compares. -/
def rsdpWords : List Nat := [0x5352, 0x2044, 0x5450, 0x2052]

/-- `repe cmpsw`: CX when the words from `di` on have been compared. -/
def repeCmpsw (m : Mem) : List Nat → Nat → Nat
  | [], _ => 0
  | w :: sig, di => if w = load16 m di then repeCmpsw m sig (di + 2) else sig.length

/-- A word as `jle` sees it. -/
def signed16 (a : Nat) : Int := if a < 0x8000 then a else (a : Int) - 0x10000

/-- Both loops: `jcxz` leaves with the segment that was compared, and `jle` ends the loop when the
next segment is above `dx`. -/
def lookup (m : Mem) (dx : Nat) : Nat → Nat → Option (Option Nat)
  | 0, _ => none
  | fuel+1, ax =>
    if repeCmpsw m rsdpWords (16 * ax) = 0 then some (some ax)
    else
      let ax := (ax + 1) % 0x10000
      if signed16 ax ≤ signed16 dx then lookup m dx fuel ax else some none

/-- The word at `0040:000E`. -/
def ebda (m : Mem) : Nat := load16 m 0x40E

/-- `shlw $4,%ax` -/
def lookup2Start (m : Mem) : Nat := ebda m * 16 % 0x10000

def lookupRsdp (fuel : Nat) (m : Mem) : Option (Option Nat) := do
  match ← lookup m 0xFFFF fuel 0xE000 with
  | some ax => some (some ax)
  | none =>
    let ax := lookup2Start m
    let dx := (ax + 0x400) % 0x10000
    lookup m dx fuel ax

def storeWord (m : Mem) (a v : Nat) : Mem := store8 (store8 m a (byteOf v 0)) (a + 1) (byteOf v 1)

def KCONF_FLAGS : Nat := 0x80000
def KCONF_RSDPSEG : Nat := 0x80002

def foundRsdp (m : Mem) (ax : Nat) : Mem :=
  storeWord (storeWord m KCONF_FLAGS (load16 m KCONF_FLAGS ||| 2)) KCONF_RSDPSEG ax

/-- The memory and what has been printed when the search is over. -/
def setupRsdp (fuel : Nat) (m : Mem) : Option (Mem × List UInt8) := do
  match ← lookupRsdp fuel m with
  | some ax => some (foundRsdp m ax, Printf.chars "[setup] looking for RSDP...found\r\n")
  | none => some (m, Printf.chars "[setup] looking for RSDP...not found\r\n")

/- What the search is for. -/

/-- The RSDP flag of the kernel configuration. -/
def flag (m : Mem) : Bool := (load16 m KCONF_FLAGS).testBit 1

def Full (m : Mem) (s : Nat) : Prop := Bytes m (16 * s) (Printf.chars "RSD PTR ")

/-- The lowest segment of the first range with the signature, or the lowest paragraph of the EBDA
when the first range has none. -/
def Lowest (m : Mem) (s : Nat) : Prop :=
  (∃ k, FirstBelow (fun k => Full m (0xE000 + k)) 0x2000 (some k) ∧ s = 0xE000 + k) ∨
  (FirstBelow (fun k => Full m (0xE000 + k)) 0x2000 none ∧
    ∃ j, FirstBelow (fun j => Full m (ebda m + j)) 64 (some j) ∧ s = ebda m + j)

/-- The flag says whether there is a signature, and then the lowest place is stored. -/
structure Located (m m' : Mem) : Prop where
  flag_iff : flag m' = true ↔ (∃ k, k < 0x2000 ∧ Full m (0xE000 + k)) ∨
    ∃ j, j < 64 ∧ Full m (ebda m + j)
  stored : ∀ s, Lowest m s → load16 m' KCONF_RSDPSEG = s

/- What the code looks for. -/

/-- The first six bytes of the signature. -/
def Near (m : Mem) (s : Nat) : Prop := Bytes m (16 * s) (Printf.chars "RSD PT")

/-- The rounds of the second loop: the end of the range is negative when its beginning is one of
the last 1024 positive words. -/
def rounds (start : Nat) : Nat := if 0x7C00 ≤ start ∧ start < 0x8000 then 1 else 0x401

def second (m : Mem) (k : Nat) : Nat := (lookup2Start m + k) % 0x10000

/-- The conditions under which the search ends with the right answer. -/
def SearchRight (m : Mem) : Prop :=
  (∃ k, FirstBelow (fun k => Near m (0xE000 + k)) 0x2000 (some k) ∧ Full m (0xE000 + k)) ∨
  (FirstBelow (fun k => Near m (0xE000 + k)) 0x2000 none ∧
    ((∃ k j, FirstBelow (fun k => Near m (second m k)) (rounds (lookup2Start m)) (some k) ∧
      FirstBelow (fun j => Full m (ebda m + j)) 64 (some j) ∧ second m k = ebda m + j) ∨
    (FirstBelow (fun k => Near m (second m k)) (rounds (lookup2Start m)) none ∧
      ((FirstBelow (fun j => Full m (ebda m + j)) 64 none ∧ flag m = false) ∨
      ∃ j, FirstBelow (fun j => Full m (ebda m + j)) 64 (some j) ∧ flag m = true ∧
        load16 m KCONF_RSDPSEG = ebda m + j))))

instance (m : Mem) (s : Nat) : Decidable (Full m s) :=
  inferInstanceAs (Decidable (Bytes m (16 * s) _))

instance (m : Mem) (s : Nat) : Decidable (Near m s) :=
  inferInstanceAs (Decidable (Bytes m (16 * s) _))

variable {m : Mem} {ax dx fuel n s k : Nat}

theorem word_eq_iff {a : Nat} {b c : UInt8} :
    b.toNat + 256 * c.toNat = load16 m a ↔ m a = b ∧ m (a + 1) = c := by
  have hb := b.toNat_lt
  have hc := c.toNat_lt
  have h0 := (m a).toNat_lt
  have h1 := (m (a + 1)).toNat_lt
  rw [load16, ← UInt8.toNat_inj, ← UInt8.toNat_inj]
  omega

/-- With one word to go CX becomes zero whether it is equal or not. -/
theorem repeCmpsw_last (w di : Nat) : repeCmpsw m [w] di = 0 := by
  simp [repeCmpsw]

theorem repeCmpsw_cons {w di : Nat} {sig : List Nat} (hsig : sig ≠ []) :
    repeCmpsw m (w :: sig) di = 0 ↔ w = load16 m di ∧ repeCmpsw m sig (di + 2) = 0 := by
  by_cases hw : w = load16 m di
  · simp [repeCmpsw, hw]
  · simp [repeCmpsw, hw, hsig]

/-- `jcxz` does not see the last word. -/
theorem repeCmpsw_iff : repeCmpsw m rsdpWords (16 * s) = 0 ↔ Near m s := by
  have hchars : Printf.chars "RSD PT" = [0x52, 0x53, 0x44, 0x20, 0x50, 0x54] := by decide
  have h1 : 0x5352 = load16 m (16 * s) ↔ _ := word_eq_iff (b := 0x52) (c := 0x53)
  have h2 : 0x2044 = load16 m (16 * s + 2) ↔ _ := word_eq_iff (b := 0x44) (c := 0x20)
  have h3 : 0x5450 = load16 m (16 * s + 4) ↔ _ := word_eq_iff (b := 0x50) (c := 0x54)
  rw [rsdpWords, repeCmpsw_cons (by simp), repeCmpsw_cons (by simp), repeCmpsw_cons (by simp),
    h1, h2, h3]
  simp [repeCmpsw_last, Near, hchars, Bytes, Nat.add_assoc, and_assoc]

theorem Full.near (h : Full m s) : Near m s := by
  have hfull : Printf.chars "RSD PTR " = [0x52, 0x53, 0x44, 0x20, 0x50, 0x54, 0x52, 0x20] := by
    decide
  have hnear : Printf.chars "RSD PT" = [0x52, 0x53, 0x44, 0x20, 0x50, 0x54] := by decide
  simp only [Full, hfull, Bytes] at h
  simp only [Near, hnear, Bytes, and_true]
  exact ⟨h.1, h.2.1, h.2.2.1, h.2.2.2.1, h.2.2.2.2.1, h.2.2.2.2.2.1⟩

theorem lookup_here (h : Near m ax) : lookup m dx (fuel + 1) ax = some (some ax) :=
  if_pos (repeCmpsw_iff.mpr h)

theorem lookup_next (h : ¬ Near m ax) : lookup m dx (fuel + 1) ax =
    if signed16 ((ax + 1) % 0x10000) ≤ signed16 dx then lookup m dx fuel ((ax + 1) % 0x10000)
    else some none :=
  if_neg fun h0 => h (repeCmpsw_iff.mp h0)

/-- A loop that goes on for `n` rounds more finds the first near signature among its segments. -/
theorem lookup_run (hax : ax < 0x10000) (hfuel : n < fuel)
    (hmore : ∀ k, k < n → signed16 ((ax + (k + 1)) % 0x10000) ≤ signed16 dx)
    (hstop : ¬ signed16 ((ax + (n + 1)) % 0x10000) ≤ signed16 dx) :
    ∃ r, FirstBelow (fun k => Near m ((ax + k) % 0x10000)) (n + 1) r ∧
      lookup m dx fuel ax = some (r.map fun k => (ax + k) % 0x10000) := by
  induction n generalizing ax fuel with
  | zero =>
    obtain ⟨fuel, rfl⟩ := Nat.exists_eq_succ_of_ne_zero (Nat.ne_of_gt hfuel)
    have hself : (ax + 0) % 0x10000 = ax := Nat.mod_eq_of_lt hax
    by_cases hat : Near m ax
    · refine ⟨some 0, firstBelow_here 0 (hself.symm ▸ hat), ?_⟩
      rw [lookup_here hat, Option.map_some, hself]
    · refine ⟨none, (firstBelow_zero _).next (hself.symm ▸ hat), ?_⟩
      rw [lookup_next hat, if_neg hstop]
      rfl
  | succ n ih =>
    obtain ⟨fuel, rfl⟩ := Nat.exists_eq_succ_of_ne_zero (Nat.ne_of_gt (Nat.zero_lt_of_lt hfuel))
    have hself : (ax + 0) % 0x10000 = ax := Nat.mod_eq_of_lt hax
    have hshift : ∀ k, ((ax + 1) % 0x10000 + k) % 0x10000 = (ax + (k + 1)) % 0x10000 := by
      intro k
      omega
    by_cases hat : Near m ax
    · refine ⟨some 0, firstBelow_here _ (hself.symm ▸ hat), ?_⟩
      rw [lookup_here hat, Option.map_some, hself]
    · have hnext : (ax + 1) % 0x10000 < 0x10000 := by omega
      have hrest : n < fuel := by omega
      have hgoes : ∀ k, k < n →
          signed16 (((ax + 1) % 0x10000 + (k + 1)) % 0x10000) ≤ signed16 dx := by
        intro k hk
        rw [hshift]
        exact hmore (k + 1) (Nat.succ_lt_succ hk)
      obtain ⟨r, hr, hrun⟩ := ih hnext hrest hgoes (by rwa [hshift])
      simp only [hshift] at hr hrun
      refine ⟨_, hr.next (hself.symm ▸ hat), ?_⟩
      rw [lookup_next hat, if_pos (hmore 0 (Nat.succ_pos n)), hrun]
      cases r <;> rfl

/-- The first loop looks at every segment from `0xE000` to `0xFFFF`. -/
theorem lookup_first (m : Mem) (hfuel : 0x10000 ≤ fuel) :
    ∃ r, FirstBelow (fun k => Near m (0xE000 + k)) 0x2000 r ∧
      lookup m 0xFFFF fuel 0xE000 = some (r.map (0xE000 + ·)) := by
  have hseg : ∀ k, k < 0x2000 → (0xE000 + k) % 0x10000 = 0xE000 + k := by
    intro k hk
    omega
  have hmore : ∀ k, k < 0x1FFF → signed16 ((0xE000 + (k + 1)) % 0x10000) ≤ signed16 0xFFFF := by
    intro k hk
    rw [hseg (k + 1) (by omega)]
    unfold signed16
    split_ifs <;> omega
  have hrounds : 0x1FFF < fuel := by omega
  obtain ⟨r, hr, hrun⟩ := lookup_run (m := m) (by decide) hrounds hmore (by decide)
  refine ⟨r, hr.congr fun k hk => by rw [hseg k hk], ?_⟩
  rw [hrun]
  cases r with
  | none => rfl
  | some k => rw [Option.map_some, Option.map_some, hseg k hr.1]

/-- The second loop looks at 1025 segments, or at one when its bound turns negative. -/
theorem lookup_second (m : Mem) (hfuel : 0x10000 ≤ fuel) :
    ∃ r, FirstBelow (fun k => Near m (second m k)) (rounds (lookup2Start m)) r ∧
      lookup m ((lookup2Start m + 0x400) % 0x10000) fuel (lookup2Start m) =
        some (r.map (second m)) := by
  have hstart : lookup2Start m < 0x10000 := Nat.mod_lt _ (by decide)
  have heven : lookup2Start m % 16 = 0 := by
    unfold lookup2Start
    omega
  by_cases hlast : 0x7C00 ≤ lookup2Start m ∧ lookup2Start m < 0x8000
  · rw [rounds, if_pos hlast]
    apply lookup_run (n := 0) hstart (by omega)
    · intro k hk
      exact absurd hk (Nat.not_lt_zero k)
    · unfold signed16
      split_ifs <;> omega
  · rw [rounds, if_neg hlast]
    apply lookup_run (n := 0x400) hstart (by omega)
    · intro k hk
      unfold signed16
      split_ifs <;> omega
    · unfold signed16
      split_ifs <;> omega

theorem lookupRsdp_found (hfuel : 0x10000 ≤ fuel)
    (hr : FirstBelow (fun k => Near m (0xE000 + k)) 0x2000 (some k)) :
    lookupRsdp fuel m = some (some (0xE000 + k)) := by
  obtain ⟨r, hr', hrun⟩ := lookup_first m hfuel
  rw [lookupRsdp, hrun, hr'.unique hr]
  rfl

theorem lookupRsdp_second {r : Option Nat} (hfuel : 0x10000 ≤ fuel)
    (hnone : FirstBelow (fun k => Near m (0xE000 + k)) 0x2000 none)
    (hr : FirstBelow (fun k => Near m (second m k)) (rounds (lookup2Start m)) r) :
    lookupRsdp fuel m = some (r.map (second m)) := by
  obtain ⟨r1, hr1, hrun1⟩ := lookup_first m hfuel
  obtain ⟨r2, hr2, hrun2⟩ := lookup_second m hfuel
  rw [lookupRsdp, hrun1, hr1.unique hnone, ← hr2.unique hr, ← hrun2]
  rfl

/- The kernel configuration. -/

theorem load16_storeWord (m : Mem) (a v : Nat) : load16 (storeWord m a v) a = v % 0x10000 := by
  simp only [load16, storeWord, store8, byteOf]
  norm_num
  omega

theorem load16_storeWord_ne (m : Mem) {a b : Nat} (v : Nat) (h : b + 2 ≤ a ∨ a + 2 ≤ b) :
    load16 (storeWord m a v) b = load16 m b := by
  simp only [load16, storeWord]
  rw [store8_ne _ _ _ _ (by omega), store8_ne _ _ _ _ (by omega), store8_ne _ _ _ _ (by omega),
    store8_ne _ _ _ _ (by omega)]

theorem foundRsdp_stored (hax : ax < 0x10000) :
    load16 (foundRsdp m ax) KCONF_RSDPSEG = ax := by
  rw [foundRsdp, load16_storeWord, Nat.mod_eq_of_lt hax]

theorem foundRsdp_flag (m : Mem) (ax : Nat) : flag (foundRsdp m ax) = true := by
  have hbit : Nat.testBit 2 1 = true := by decide
  rw [flag, foundRsdp, load16_storeWord_ne _ _ (by decide), load16_storeWord,
    show 0x10000 = 2 ^ 16 by decide, Nat.testBit_mod_two_pow, Nat.testBit_or, hbit, Bool.or_true]
  rfl

/- The right answer. -/

theorem Lowest.unique {t : Nat} (hs : Lowest m s) (ht : Lowest m t) : s = t := by
  cases hs with
  | inl h1 =>
    obtain ⟨k, hk, rfl⟩ := h1
    cases ht with
    | inl h2 =>
      obtain ⟨k', hk', rfl⟩ := h2
      rw [Option.some.inj (hk.unique hk')]
    | inr h2 => exact absurd (hk.unique h2.1) (by simp)
  | inr h1 =>
    obtain ⟨hnone, j, hj, rfl⟩ := h1
    cases ht with
    | inl h2 =>
      obtain ⟨k', hk', rfl⟩ := h2
      exact absurd (hk'.unique hnone) (by simp)
    | inr h2 =>
      obtain ⟨-, j', hj', rfl⟩ := h2
      rw [Option.some.inj (hj.unique hj')]

theorem exists_lowest : ((∃ k, k < 0x2000 ∧ Full m (0xE000 + k)) ∨
    ∃ j, j < 64 ∧ Full m (ebda m + j)) ↔ ∃ s, Lowest m s := by
  constructor
  · intro hpresent
    obtain ⟨r, hr⟩ := exists_firstBelow (fun k => Full m (0xE000 + k)) 0x2000
    cases r with
    | some k => exact ⟨_, .inl ⟨k, hr, rfl⟩⟩
    | none =>
      cases hpresent with
      | inl h1 =>
        obtain ⟨k, hk, hfull⟩ := h1
        exact absurd hfull (hr k hk)
      | inr h2 =>
        obtain ⟨j, hj⟩ := exists_firstBelow_some.mp h2
        exact ⟨_, .inr ⟨hr, j, hj, rfl⟩⟩
  · intro hex
    obtain ⟨s, hs⟩ := hex
    cases hs with
    | inl h1 =>
      obtain ⟨k, hk, -⟩ := h1
      exact .inl ⟨k, hk.1, hk.2.1⟩
    | inr h2 =>
      obtain ⟨-, j, hj, -⟩ := h2
      exact .inr ⟨j, hj.1, hj.2.1⟩

/-- A segment has been stored. -/
theorem located_found (m : Mem) (hax : ax < 0x10000) :
    Located m (foundRsdp m ax) ↔ Lowest m ax := by
  constructor
  · intro h
    obtain ⟨s, hs⟩ := exists_lowest.mp (h.flag_iff.mp (foundRsdp_flag m ax))
    have hstored := h.stored s hs
    rw [foundRsdp_stored hax] at hstored
    rwa [hstored]
  · intro hlow
    constructor
    · rw [exists_lowest]
      exact ⟨fun _ => ⟨ax, hlow⟩, fun _ => foundRsdp_flag m ax⟩
    · intro s hs
      rw [foundRsdp_stored hax]
      exact hlow.unique hs

/-- Nothing has been stored. -/
theorem located_same (m : Mem) : Located m m ↔ ((∀ s, ¬ Lowest m s) ∧ flag m = false) ∨
    ∃ s, Lowest m s ∧ flag m = true ∧ load16 m KCONF_RSDPSEG = s := by
  constructor
  · intro h
    by_cases hex : ∃ s, Lowest m s
    · obtain ⟨s, hs⟩ := hex
      exact .inr ⟨s, hs, h.flag_iff.mpr (exists_lowest.mpr ⟨s, hs⟩), h.stored s hs⟩
    · refine .inl ⟨fun s hs => hex ⟨s, hs⟩, ?_⟩
      rw [← Bool.not_eq_true, h.flag_iff, exists_lowest]
      exact hex
  · intro h
    cases h with
    | inl hnone =>
      refine ⟨?_, fun s hs => absurd hs (hnone.1 s)⟩
      rw [exists_lowest, hnone.2]
      simp [hnone.1]
    | inr hsome =>
      obtain ⟨s, hs, hflag, hstored⟩ := hsome
      refine ⟨?_, fun t ht => hstored.trans (hs.unique ht)⟩
      rw [exists_lowest, hflag]
      exact ⟨fun _ => ⟨s, hs⟩, fun _ => rfl⟩

/-- In the first range only the nearest segment can be the lowest. -/
theorem lowest_near (hr : FirstBelow (fun k => Near m (0xE000 + k)) 0x2000 (some k)) :
    Lowest m (0xE000 + k) ↔ Full m (0xE000 + k) := by
  constructor
  · intro hlow
    cases hlow with
    | inl h1 =>
      obtain ⟨k', hk', heq⟩ := h1
      rw [heq]
      exact hk'.2.1
    | inr h2 =>
      obtain ⟨hnone, j, hj, heq⟩ := h2
      have hfull : Full m (0xE000 + k) := heq ▸ hj.2.1
      exact absurd hfull (hnone k hr.1)
  · intro hfull
    exact .inl ⟨k, hr.strengthen (fun _ h => h.near) hfull, rfl⟩

theorem lowest_ebda (hnone : FirstBelow (fun k => Near m (0xE000 + k)) 0x2000 none) :
    Lowest m s ↔ ∃ j, FirstBelow (fun j => Full m (ebda m + j)) 64 (some j) ∧ s = ebda m + j := by
  have hfull : FirstBelow (fun k => Full m (0xE000 + k)) 0x2000 none :=
    hnone.none_of_imp fun _ h => h.near
  constructor
  · intro hlow
    cases hlow with
    | inl h1 =>
      obtain ⟨k, hk, -⟩ := h1
      exact absurd (hk.unique hfull) (by simp)
    | inr h2 => exact h2.2
  · intro hex
    exact .inr ⟨hfull, hex⟩

/-- The search terminates, and what it leaves is right. -/
def Searches (m : Mem) : Prop :=
  ∃ m' out, (∀ fuel, 0x10000 ≤ fuel → setupRsdp fuel m = some (m', out)) ∧ Located m m'

theorem searches_of {out : List UInt8} {m' : Mem}
    (hsetup : ∀ fuel, 0x10000 ≤ fuel → setupRsdp fuel m = some (m', out)) :
    Searches m ↔ Located m m' := by
  constructor
  · intro hex
    obtain ⟨m'', out', hrun, hloc⟩ := hex
    have heq := (hrun 0x10000 (Nat.le_refl _)).symm.trans (hsetup 0x10000 (Nat.le_refl _))
    simp only [Option.some.injEq, Prod.mk.injEq] at heq
    rw [heq.1] at hloc
    exact hloc
  · intro hloc
    exact ⟨_, _, hsetup, hloc⟩

theorem searches_found (hrun : ∀ fuel, 0x10000 ≤ fuel → lookupRsdp fuel m = some (some ax))
    (hax : ax < 0x10000) : Searches m ↔ Lowest m ax := by
  have hsetup : ∀ fuel, 0x10000 ≤ fuel → setupRsdp fuel m =
      some (foundRsdp m ax, Printf.chars "[setup] looking for RSDP...found\r\n") := by
    intro fuel hfuel
    rw [setupRsdp, hrun fuel hfuel]
    rfl
  rw [← located_found m hax]
  exact searches_of hsetup

theorem searches_none (hrun : ∀ fuel, 0x10000 ≤ fuel → lookupRsdp fuel m = some none) :
    Searches m ↔ Located m m := by
  have hsetup : ∀ fuel, 0x10000 ≤ fuel → setupRsdp fuel m =
      some (m, Printf.chars "[setup] looking for RSDP...not found\r\n") := by
    intro fuel hfuel
    rw [setupRsdp, hrun fuel hfuel]
    rfl
  exact searches_of hsetup

/-- The search is right exactly when no near miss comes first, the second loop meets the right
paragraph, and a search without success finds the configuration as it should be left. -/
theorem setupRsdp_iff (m : Mem) : Searches m ↔ SearchRight m := by
  obtain ⟨r1, h1⟩ := exists_firstBelow (fun k => Near m (0xE000 + k)) 0x2000
  cases r1 with
  | some k =>
    have hk := h1.1
    rw [searches_found (fun fuel hfuel => lookupRsdp_found hfuel h1) (by omega), lowest_near h1]
    constructor
    · intro hfull
      exact .inl ⟨k, h1, hfull⟩
    · intro hright
      cases hright with
      | inl hfirst =>
        obtain ⟨k', hk', hfull⟩ := hfirst
        rwa [Option.some.inj (h1.unique hk')]
      | inr hnone => exact absurd (h1.unique hnone.1) (by simp)
  | none =>
    have hno1 : ¬ ∃ k, FirstBelow (fun k => Near m (0xE000 + k)) 0x2000 (some k) ∧
        Full m (0xE000 + k) := by
      intro hex
      obtain ⟨k, hk, -⟩ := hex
      exact absurd (hk.unique h1) (by simp)
    obtain ⟨r2, h2⟩ := exists_firstBelow (fun k => Near m (second m k)) (rounds (lookup2Start m))
    cases r2 with
    | some k =>
      rw [searches_found (fun fuel hfuel => lookupRsdp_second hfuel h1 h2)
        (Nat.mod_lt _ (by decide)), lowest_ebda h1, SearchRight, or_iff_right hno1,
        and_iff_right h1, or_iff_left fun h => absurd (h2.unique h.1) (by simp)]
      constructor
      · intro hex
        obtain ⟨j, hj, heq⟩ := hex
        exact ⟨k, j, h2, hj, heq⟩
      · intro hex
        obtain ⟨k', j, hk', hj, heq⟩ := hex
        rw [← Option.some.inj (h2.unique hk')] at heq
        exact ⟨j, hj, heq⟩
    | none =>
      have hno2 : ¬ ∃ k j, FirstBelow (fun k => Near m (second m k)) (rounds (lookup2Start m))
          (some k) ∧ FirstBelow (fun j => Full m (ebda m + j)) 64 (some j) ∧
          second m k = ebda m + j := by
        intro hex
        obtain ⟨k, j, hk, -⟩ := hex
        exact absurd (hk.unique h2) (by simp)
      rw [searches_none fun fuel hfuel => lookupRsdp_second hfuel h1 h2, located_same,
        SearchRight, or_iff_right hno1, and_iff_right h1, or_iff_right hno2, and_iff_right h2,
        FirstBelow.none_iff]
      simp only [lowest_ebda h1]
      constructor
      · intro h
        cases h with
        | inl hnone =>
          refine .inl ⟨?_, hnone.2⟩
          intro hex
          obtain ⟨j, hj⟩ := hex
          exact hnone.1 _ ⟨j, hj, rfl⟩
        | inr hsome =>
          obtain ⟨s, ⟨j, hj, rfl⟩, hkept⟩ := hsome
          exact .inr ⟨j, hj, hkept⟩
      · intro h
        cases h with
        | inl hnone =>
          refine .inl ⟨?_, hnone.2⟩
          intro s hs
          obtain ⟨j, hj, -⟩ := hs
          exact hnone.1 ⟨j, hj⟩
        | inr hsome =>
          obtain ⟨j, hj, hkept⟩ := hsome
          exact .inr ⟨_, ⟨j, hj, rfl⟩, hkept⟩

/-- `RSD PTX ` at `E000:0000` in memory that is zero elsewhere. -/
def nearMiss : Mem :=
  ⟨fun a => if 0xE0000 ≤ a then (Printf.chars "RSD PTX ").getD (a - 0xE0000) 0 else 0⟩

theorem setupRsdp_fails : ¬ ∀ m, Searches m := by
  intro hall
  have hfirst : FirstBelow (fun k => Near nearMiss (0xE000 + k)) 0x2000 (some 0) :=
    ⟨by decide, (by decide : Near nearMiss (0xE000 + 0)),
      fun j hj => absurd hj (Nat.not_lt_zero j)⟩
  have hfull : Full nearMiss (0xE000 + 0) := by
    rw [← lowest_near hfirst]
    exact (searches_found (fun fuel hfuel => lookupRsdp_found hfuel hfirst) (by decide)).mp
      (hall nearMiss)
  exact absurd hfull (by decide)

end Foos.Boot
