import Mathlib.Data.Nat.Find
import Foos.Libc

/-! `strtok` of `libc/strtok.c` and the `strspn` it calls: the tokens it hands out are the
maximal runs of characters that are no delimiters. -/
namespace Foos.Libc
open ByteMemory CString

/-- Where the scan of the set at `b` for `c` stops: at the character or at the NUL. -/
def scanSet : Nat → Mem → UInt8 → Nat → Option Nat
  | 0, _, _, _ => none
  | fuel+1, m, c, b =>
    if m b = 0 then some b else if c = m b then some b else scanSet fuel m c (b + 1)

def strspnFrom (accept : Nat) : Nat → Mem → Nat → Nat → Option Nat
  | 0, _, _, _ => none
  | fuel+1, m, a, count =>
    if m a = 0 then some count
    else do
      let b ← scanSet fuel m (m a) accept
      if m b = 0 then some count else strspnFrom accept fuel m (a + 1) (count + 1)

def strspn (fuel : Nat) (m : Mem) (str accept : Nat) : Option Nat :=
  strspnFrom accept fuel m str 0

/-- The loop of `strtok`: what it returns, the memory, and the new `old`. -/
def strtokLoop (delim : Nat) : Nat → Mem → Nat → Nat → Bool → Bool → Option (Nat × Mem × Nat)
  | 0, _, _, _, _, _ => none
  | fuel+1, m, str, ptr, f, i =>
    if m str = 0 then some (ptr, m, str)
    else do
      let b ← scanSet fuel m (m str) delim
      let hit := m b ≠ 0
      let m := if hit then store8 m str 0 else m
      let i := if hit then true else i
      let first := m str ≠ 0 ∧ f = true
      let ptr := if first then str else ptr
      let f := if first then false else f
      if m str ≠ 0 ∧ f = false ∧ i = true then some (ptr, m, str)
      else strtokLoop delim fuel m (str + 1) ptr f i

/-- `strtok(str,delim)`, with the static `old` before and after. -/
def strtok (fuel : Nat) (m : Mem) (old str delim : Nat) : Option (Nat × Mem × Nat) := do
  let str := if str = 0 then old else str
  let n ← strspn fuel m str delim
  strtokLoop delim fuel m (str + n) 0 true false

/-- The call number `k` of `strtok(str,delim)`, `strtok(NULL,delim)`, `strtok(NULL,delim)`, … -/
def strtokCall (fuel delim : Nat) : Nat → Nat → Mem → Nat → Option (Nat × Mem × Nat)
  | 0, str, m, old => strtok fuel m old str delim
  | k+1, str, m, old => do
    let r ← strtok fuel m old str delim
    strtokCall fuel delim k 0 r.2.1 r.2.2

end Foos.Libc

/-! Maximal runs of positions below `n` that do not have a property. -/
namespace MaximalRuns

/-- From `i` up to `j` no position has the property, and the run cannot be made longer. -/
structure MaximalRun (D : Nat → Prop) (n i j : Nat) : Prop where
  nonempty : i < j
  within : j ≤ n
  free : ∀ u, i ≤ u → u < j → ¬ D u
  start : ∀ u, u + 1 = i → D u
  stop : j < n → D j

variable {D : Nat → Prop} {n i j i' j' q r : Nat}

/-- What holds at `q`, and from the next position up to `r`, holds from `q` on. -/
theorem from_here {P : Nat → Prop} (h : P q) (hnext : ∀ u, q + 1 ≤ u → u < r → P u) (u : Nat)
    (h1 : q ≤ u) (h2 : u < r) : P u := by
  cases Nat.eq_or_lt_of_le h1 with
  | inl heq => exact heq ▸ h
  | inr hlt => exact hnext u hlt h2

theorem MaximalRun.stop_unique (h : MaximalRun D n i j) (h' : MaximalRun D n i j') : j = j' := by
  have hle : ∀ {a b}, MaximalRun D n i a → MaximalRun D n i b → a ≤ b := by
    intro a b ha hb
    by_contra hlt
    have hstop := hb.stop (by have := ha.within; omega)
    exact ha.free b (Nat.le_of_lt hb.nonempty) (by omega) hstop
  exact Nat.le_antisymm (hle h h') (hle h' h)

/-- No run begins behind a run and before the next position without the property. -/
theorem MaximalRun.next (h : MaximalRun D n q j) (hgap : ∀ u, j ≤ u → u < r → D u)
    (hi : MaximalRun D n i i') (hqi : q < i) : r ≤ i := by
  by_contra hlt
  obtain ⟨u, rfl⟩ : ∃ u, i = u + 1 := ⟨i - 1, by omega⟩
  cases Nat.lt_or_ge u j with
  | inl huj => exact h.free u (by omega) huj (hi.start u rfl)
  | inr hju =>
    exact hi.free (u + 1) (Nat.le_refl _) hi.nonempty (hgap (u + 1) (by omega) (by omega))

/-- A position without the property lies in a run; the first one begins one. -/
theorem exists_run (h : ∃ u, u < n ∧ ¬ D u) : ∃ i j, MaximalRun D n i j := by
  classical
  obtain ⟨hlt, hnot⟩ := Nat.find_spec h
  have hends : ∃ k, Nat.find h < k ∧ (k = n ∨ D k) := ⟨n, hlt, Or.inl rfl⟩
  obtain ⟨hij, hj⟩ := Nat.find_spec hends
  have hjn : Nat.find hends ≤ n := Nat.find_min' hends ⟨hlt, Or.inl rfl⟩
  refine ⟨Nat.find h, Nat.find hends, hij, hjn, fun u h1 h2 => ?_, fun u hu => ?_, fun hlt' => ?_⟩
  · cases Nat.eq_or_lt_of_le h1 with
    | inl heq =>
      obtain rfl := heq
      exact hnot
    | inr h1 => exact fun hd => Nat.find_min hends h2 ⟨h1, Or.inr hd⟩
  · by_contra hd
    exact Nat.find_min h (m := u) (by omega) ⟨by omega, hd⟩
  · exact hj.resolve_left (Nat.ne_of_lt hlt')

end MaximalRuns

namespace Foos.Libc
open ByteMemory CString MaximalRuns

/-- Position `u` of `s` holds a character of `d`. -/
def IsDelim (s d : List UInt8) (u : Nat) : Prop := ∃ c, s[u]? = some c ∧ c ∈ d

/-- The memory once `strtok` has gone through `s`, at `a` of `m`, up to position `q`. -/
structure Cut (m : Mem) (a : Nat) (s d : List UInt8) (q : Nat) (m' : Mem) : Prop where
  within : q ≤ s.length
  rest : ∀ u c, q ≤ u → s[u]? = some c → m' (a + u) = c
  kept : ∀ u c, s[u]? = some c → c ∉ d → m' (a + u) = c
  ends : ∀ u, u + 1 < q → ¬ IsDelim s d u → IsDelim s d (u + 1) → m' (a + (u + 1)) = 0
  outside : ∀ y, y < a ∨ a + s.length ≤ y → m' y = m y

theorem Cut.front {m : Mem} {a : Nat} {s : List UInt8} (d : List UInt8) (hs : Str m a s) :
    Cut m a s d 0 m :=
  ⟨Nat.zero_le _, fun _ _ _ hc => hs.char hc, fun _ _ hc _ => hs.char hc,
    fun _ hu => absurd hu (Nat.not_lt_zero _), fun _ _ => rfl⟩

theorem scanSet_str {m : Mem} {c : UInt8} {d : List UInt8} {b fuel : Nat} (h : Str m b d)
    (hfuel : d.length < fuel) : ∃ e, scanSet fuel m c b = some e ∧ (m e = 0 ↔ c ∉ d) := by
  induction d generalizing b fuel with
  | nil =>
    obtain ⟨fuel, rfl⟩ := Nat.exists_eq_add_one_of_ne_zero (Nat.ne_zero_of_lt hfuel)
    have h0 : m b = 0 := h
    exact ⟨b, if_pos h0, by simp [h0]⟩
  | cons x d ih =>
    simp only [List.length_cons] at hfuel
    obtain ⟨fuel, rfl⟩ := Nat.exists_eq_add_one_of_ne_zero (Nat.ne_zero_of_lt hfuel)
    obtain ⟨hx, hne, hd⟩ := h
    have hb : m b ≠ 0 := hx ▸ hne
    by_cases hc : c = m b
    · refine ⟨b, by rw [scanSet, if_neg hb, if_pos hc], ?_⟩
      simp [hc, hx, hne]
    · obtain ⟨e, he, hiff⟩ := ih hd (Nat.lt_of_succ_lt_succ hfuel)
      refine ⟨e, by rw [scanSet, if_neg hb, if_neg hc, he], ?_⟩
      rw [hiff, List.mem_cons, not_or]
      exact ⟨fun h => ⟨hx ▸ hc, h⟩, fun h => h.2⟩

section
variable {m m' : Mem} {a b q fuel : Nat} {s d : List UInt8}

theorem not_isDelim {u : Nat} {c : UInt8} (h : s[u]? = some c) : ¬ IsDelim s d u ↔ c ∉ d := by
  simp [IsDelim, h]

/-- There is a token exactly when some character is no delimiter. -/
theorem exists_token {s d : List UInt8} :
    (∃ i j, MaximalRun (IsDelim s d) s.length i j) ↔ ∃ c ∈ s, c ∉ d := by
  constructor
  · rintro ⟨i, j, h⟩
    have hi : i < s.length := Nat.lt_of_lt_of_le h.nonempty h.within
    have hc : s[i]? = some s[i] := List.getElem?_eq_getElem hi
    exact ⟨s[i], List.getElem_mem hi, (not_isDelim hc).mp (h.free i (Nat.le_refl i) h.nonempty)⟩
  · rintro ⟨c, hc, hd⟩
    obtain ⟨u, hu⟩ := List.getElem?_of_mem hc
    exact exists_run ⟨u, (List.getElem?_eq_some_iff.mp hu).1, (not_isDelim hu).mpr hd⟩

theorem Cut.set (h : Cut m a s d q m') (hd : Str m b d)
    (hsep : b + d.length < a ∨ a + s.length ≤ b) : Str m' b d :=
  hd.congr fun y h1 h2 => h.outside y (by omega)

theorem Cut.nul (h : Cut m a s d q m') (hs : Str m a s) : m' (a + s.length) = 0 :=
  (h.outside _ (Or.inr (Nat.le_refl _))).trans hs.nul

theorem Cut.char_ne {u : Nat} {c : UInt8} (h : Cut m a s d q m') (hs : Str m a s) (hu : q ≤ u)
    (hc : s[u]? = some c) : m' (a + u) ≠ 0 := by
  rw [h.rest u c hu hc]
  exact hs.chars c (List.mem_of_getElem? hc)

theorem Cut.pass {c : UInt8} (h : Cut m a s d q m') (hc : s[q]? = some c) (hd : c ∉ d) :
    Cut m a s d (q + 1) m' := by
  refine ⟨(List.getElem?_eq_some_iff.mp hc).1, fun u x hu => h.rest u x (by omega), h.kept,
    fun u hu hu1 hu2 => ?_, h.outside⟩
  cases Nat.lt_or_ge (u + 1) q with
  | inl hlt => exact h.ends u hlt hu1 hu2
  | inr hge =>
    obtain rfl : q = u + 1 := by omega
    exact absurd hu2 ((not_isDelim hc).mpr hd)

theorem Cut.cut {c : UInt8} (h : Cut m a s d q m') (hc : s[q]? = some c) (hd : c ∈ d) :
    Cut m a s d (q + 1) (store8 m' (a + q) 0) := by
  have hlt : q < s.length := (List.getElem?_eq_some_iff.mp hc).1
  refine ⟨hlt, fun u x hu hx => ?_, fun u x hx hxd => ?_, fun u hu hu1 hu2 => ?_, fun y hy => ?_⟩
  · rw [store8_ne _ _ _ _ (by omega)]
    exact h.rest u x (by omega) hx
  · have hne : u ≠ q := by
      rintro rfl
      exact hxd (Option.some.inj (hc.symm.trans hx) ▸ hd)
    rw [store8_ne _ _ _ _ (by omega)]
    exact h.kept u x hx hxd
  · by_cases huq : u + 1 = q
    · rw [huq]
      exact store8_same _ _ _
    · rw [store8_ne _ _ _ _ (by omega)]
      exact h.ends u (by omega) hu1 hu2
  · rw [store8_ne _ _ _ _ (by omega)]
    exact h.outside y hy

/-- In front of the end of the string a round of the loop looks its character up in the set. -/
theorem Cut.scan (h : Cut m a s d q m') (hs : Str m a s) (hset : Str m' b d) {r : Nat}
    {c : UInt8} (hqr : q ≤ r) (hc : s[r]? = some c) (hfuel : d.length < fuel) :
    m' (a + r) ≠ 0 ∧ ∃ e, scanSet fuel m' (m' (a + r)) b = some e ∧ (m' e = 0 ↔ c ∉ d) := by
  obtain ⟨e, he, hiff⟩ := scanSet_str (c := m' (a + r)) hset hfuel
  rw [h.rest r _ hqr hc] at hiff
  exact ⟨h.char_ne hs hqr hc, e, he, hiff⟩

/-- `strspn` counts the delimiters at the front. -/
theorem Cut.strspnFrom (h : Cut m a s d q m') (hs : Str m a s) (hset : Str m' b d) {r n : Nat}
    (hr : r ≤ s.length) (hqr : q ≤ r) (hfuel : s.length - r + d.length < fuel) :
    ∃ k, strspnFrom b fuel m' (a + r) n = some (n + k) ∧ r + k ≤ s.length ∧
      (∀ u, r ≤ u → u < r + k → IsDelim s d u) ∧ ¬ IsDelim s d (r + k) := by
  induction hl : s.length - r generalizing r n fuel with
  | zero =>
    obtain rfl : r = s.length := by omega
    obtain ⟨fuel, rfl⟩ := Nat.exists_eq_add_one_of_ne_zero (Nat.ne_zero_of_lt hfuel)
    exact ⟨0, if_pos (h.nul hs), Nat.le_refl _, fun u h1 h2 => by omega, by simp [IsDelim]⟩
  | succ l ih =>
    have hlt : r < s.length := by omega
    have hc : s[r]? = some s[r] := List.getElem?_eq_getElem hlt
    obtain ⟨fuel, rfl⟩ := Nat.exists_eq_add_one_of_ne_zero (Nat.ne_zero_of_lt hfuel)
    have hshort : d.length < fuel := by omega
    obtain ⟨hne, e, he, hiff⟩ := h.scan hs hset hqr hc hshort
    simp only [Libc.strspnFrom, if_neg hne, he, Option.bind_eq_bind, Option.bind_some]
    by_cases hd : s[r] ∈ d
    · rw [if_neg (fun h0 => hiff.mp h0 hd)]
      have hleft : s.length - (r + 1) + d.length < fuel := by omega
      obtain ⟨k, hk, hle, hall, hstop⟩ := ih (r := r + 1) (n := n + 1) hlt (by omega) hleft
        (by omega)
      rw [Nat.add_right_comm, Nat.add_assoc] at hall
      refine ⟨k + 1, ?_, by omega, from_here ⟨_, hc, hd⟩ hall, ?_⟩
      · rw [Nat.add_assoc a r 1, hk]
        congr 1
        omega
      · rwa [Nat.add_right_comm, Nat.add_assoc] at hstop
    · rw [if_pos (hiff.mpr hd)]
      exact ⟨0, rfl, hr, fun u h1 h2 => by omega, (not_isDelim hc).mpr hd⟩

/-- Behind a token the loop cuts off the delimiters and stops at the next token. -/
theorem Cut.loop_delims (h : Cut m a s d q m') (hs : Str m a s) (hd : Str m b d)
    (hsep : b + d.length < a ∨ a + s.length ≤ b) (hfuel : s.length - q + d.length < fuel)
    (ptr : Nat) : ∃ m'' r, strtokLoop b fuel m' (a + q) ptr false true = some (ptr, m'', a + r) ∧
      Cut m a s d r m'' ∧ q ≤ r ∧ (∀ u, q ≤ u → u < r → IsDelim s d u) ∧ ¬ IsDelim s d r := by
  induction hl : s.length - q generalizing q m' fuel with
  | zero =>
    obtain rfl : q = s.length := by have := h.within; omega
    obtain ⟨fuel, rfl⟩ := Nat.exists_eq_add_one_of_ne_zero (Nat.ne_zero_of_lt hfuel)
    exact ⟨m', s.length, if_pos (h.nul hs), h, Nat.le_refl _, fun u h1 h2 => by omega,
      by simp [IsDelim]⟩
  | succ l ih =>
    have hlt : q < s.length := by omega
    have hc : s[q]? = some s[q] := List.getElem?_eq_getElem hlt
    obtain ⟨fuel, rfl⟩ := Nat.exists_eq_add_one_of_ne_zero (Nat.ne_zero_of_lt hfuel)
    have hset : d.length < fuel := by omega
    obtain ⟨hne, e, he, hiff⟩ := h.scan hs (h.set hd hsep) (Nat.le_refl q) hc hset
    simp only [strtokLoop, if_neg hne, he, Option.bind_eq_bind, Option.bind_some]
    by_cases hdel : s[q] ∈ d
    · have hhit : m' e ≠ 0 := fun h0 => hiff.mp h0 hdel
      have hleft : s.length - (q + 1) + d.length < fuel := by omega
      obtain ⟨m'', r, hrun, hcut, hle, hall, hstop⟩ := ih (h.cut hc hdel) hleft (by omega)
      refine ⟨m'', r, ?_, hcut, by omega, from_here ⟨_, hc, hdel⟩ hall, hstop⟩
      simpa [hhit, store8_same, Nat.add_assoc] using hrun
    · have hmiss : m' e = 0 := hiff.mpr hdel
      refine ⟨m', q, ?_, h, Nat.le_refl q, fun u h1 h2 => by omega, (not_isDelim hc).mpr hdel⟩
      simp [hmiss, hne]

/-- Within a token the loop goes on to its end, and cuts off the delimiters behind it. -/
theorem Cut.loop_token (h : Cut m a s d q m') (hs : Str m a s) (hd : Str m b d)
    (hsep : b + d.length < a ∨ a + s.length ≤ b) (hfuel : s.length - q + d.length < fuel)
    (ptr : Nat) : ∃ m'' j r, strtokLoop b fuel m' (a + q) ptr false false = some (ptr, m'', a + r) ∧
      Cut m a s d r m'' ∧ q ≤ j ∧ j ≤ r ∧ (∀ u, q ≤ u → u < j → ¬ IsDelim s d u) ∧
      (j < s.length → IsDelim s d j) ∧ (∀ u, j ≤ u → u < r → IsDelim s d u) ∧
      ¬ IsDelim s d r := by
  induction hl : s.length - q generalizing q m' fuel with
  | zero =>
    obtain rfl : q = s.length := by have := h.within; omega
    obtain ⟨fuel, rfl⟩ := Nat.exists_eq_add_one_of_ne_zero (Nat.ne_zero_of_lt hfuel)
    exact ⟨m', s.length, s.length, if_pos (h.nul hs), h, Nat.le_refl _, Nat.le_refl _,
      fun u h1 h2 => by omega, fun h => absurd h (Nat.lt_irrefl _), fun u h1 h2 => by omega,
      by simp [IsDelim]⟩
  | succ l ih =>
    have hlt : q < s.length := by omega
    have hc : s[q]? = some s[q] := List.getElem?_eq_getElem hlt
    obtain ⟨fuel, rfl⟩ := Nat.exists_eq_add_one_of_ne_zero (Nat.ne_zero_of_lt hfuel)
    have hset : d.length < fuel := by omega
    obtain ⟨hne, e, he, hiff⟩ := h.scan hs (h.set hd hsep) (Nat.le_refl q) hc hset
    simp only [strtokLoop, if_neg hne, he, Option.bind_eq_bind, Option.bind_some]
    by_cases hdel : s[q] ∈ d
    · have hhit : m' e ≠ 0 := fun h0 => hiff.mp h0 hdel
      obtain ⟨m'', r, hrun, hcut, hle, hall, hstop⟩ :=
        (h.cut hc hdel).loop_delims hs hd hsep (by omega : s.length - (q + 1) + d.length < fuel) ptr
      have hdelim : IsDelim s d q := ⟨_, hc, hdel⟩
      refine ⟨m'', q, r, ?_, hcut, Nat.le_refl q, by omega, fun u h1 h2 => by omega,
        fun _ => hdelim, from_here hdelim hall, hstop⟩
      simpa [hhit, store8_same, Nat.add_assoc] using hrun
    · have hmiss : m' e = 0 := hiff.mpr hdel
      have hleft : s.length - (q + 1) + d.length < fuel := by omega
      obtain ⟨m'', j, r, hrun, hcut, hqj, hjr, hfree, hstop, hall, hend⟩ :=
        ih (h.pass hc hdel) hleft (by omega)
      have hnot : ¬ IsDelim s d q := (not_isDelim hc).mpr hdel
      refine ⟨m'', j, r, ?_, hcut, by omega, hjr, from_here hnot hfree, hstop, hall, hend⟩
      simpa [hmiss, hne, Nat.add_assoc] using hrun

/-- From the first character of a token on the loop finds the token. -/
theorem Cut.loop_start (h : Cut m a s d q m') (hs : Str m a s) (hd : Str m b d)
    (hsep : b + d.length < a ∨ a + s.length ≤ b) (hfuel : s.length - q + d.length < fuel)
    (hq : q < s.length) (hnot : ¬ IsDelim s d q) :
    ∃ m'' j r, strtokLoop b fuel m' (a + q) 0 true false = some (a + q, m'', a + r) ∧
      Cut m a s d r m'' ∧ q < j ∧ j ≤ r ∧ (∀ u, q ≤ u → u < j → ¬ IsDelim s d u) ∧
      (j < s.length → IsDelim s d j) ∧ (∀ u, j ≤ u → u < r → IsDelim s d u) ∧
      ¬ IsDelim s d r := by
  have hc : s[q]? = some s[q] := List.getElem?_eq_getElem hq
  have hdel : s[q] ∉ d := (not_isDelim hc).mp hnot
  obtain ⟨fuel, rfl⟩ := Nat.exists_eq_add_one_of_ne_zero (Nat.ne_zero_of_lt hfuel)
  have hset : d.length < fuel := by omega
  obtain ⟨hne, e, he, hiff⟩ := h.scan hs (h.set hd hsep) (Nat.le_refl q) hc hset
  have hmiss : m' e = 0 := hiff.mpr hdel
  have hleft : s.length - (q + 1) + d.length < fuel := by omega
  obtain ⟨m'', j, r, hrun, hcut, hqj, hjr, hfree, hstop, hall, hend⟩ :=
    (h.pass hc hdel).loop_token hs hd hsep hleft (a + q)
  refine ⟨m'', j, r, ?_, hcut, hqj, hjr, from_here hnot hfree, hstop, hall, hend⟩
  simp only [strtokLoop, if_neg hne, he, Option.bind_eq_bind, Option.bind_some]
  simpa [hmiss, hne, Nat.add_assoc] using hrun

/-- Where `strtok` may be when it is called: at the front, or where it stopped. -/
def Resumes (s d : List UInt8) (q : Nat) : Prop :=
  q = 0 ∨ ¬ IsDelim s d q ∧ (q < s.length → ∀ u, u + 1 = q → IsDelim s d u)

/-- A call skips to the next token or to the end, then enters the loop. -/
theorem Cut.enter (h : Cut m a s d q m') (hs : Str m a s) (hset : Str m' b d)
    (hres : Resumes s d q) (hfuel : s.length + d.length < fuel) {str old : Nat}
    (hat : (if str = 0 then old else str) = a + q) :
    ∃ r, strtok fuel m' old str b = strtokLoop b fuel m' (a + r) 0 true false ∧
      Cut m a s d r m' ∧ q ≤ r ∧ (∀ u, q ≤ u → u < r → IsDelim s d u) ∧ ¬ IsDelim s d r ∧
      (r < s.length → ∀ u, u + 1 = r → IsDelim s d u) := by
  obtain ⟨k, hk, hle, hall, hstop⟩ := h.strspnFrom hs hset h.within (Nat.le_refl q) (n := 0)
    (by omega : s.length - q + d.length < fuel)
  have hrun : strtok fuel m' old str b = strtokLoop b fuel m' (a + (q + k)) 0 true false := by
    rw [strtok, hat, strspn, hk, Nat.zero_add, ← Nat.add_assoc]
    rfl
  refine ⟨q + k, hrun, ?_, Nat.le_add_right q k, hall, hstop, fun hlt u hu => ?_⟩
  · rcases hres with rfl | ⟨hnot, -⟩
    · refine ⟨hle, fun u c hu hc => h.rest u c (Nat.zero_le u) hc, h.kept, fun u hu hu1 => ?_,
        h.outside⟩
      exact absurd (hall u (Nat.zero_le u) (by omega)) hu1
    · obtain rfl : k = 0 := by
        by_contra hk0
        exact hnot (hall q (Nat.le_refl q) (by omega))
      exact h
  · cases Nat.lt_or_ge u q with
    | inl huq =>
      rcases hres with rfl | ⟨-, hstart⟩
      · omega
      · exact hstart (by omega) u (by omega)
    | inr hqu => exact hall u hqu (by omega)

/-- Runs from `q` on are runs from `r` on, when only delimiters stand between. -/
theorem runs_from_skip {r : Nat} (hqr : q ≤ r) (hall : ∀ u, q ≤ u → u < r → IsDelim s d u)
    {i j : Nat} (h : MaximalRun (IsDelim s d) s.length i j) : q ≤ i ↔ r ≤ i := by
  refine ⟨fun hqi => ?_, fun hri => Nat.le_trans hqr hri⟩
  by_contra hlt
  exact h.free i (Nat.le_refl i) h.nonempty (hall i hqi (by omega))

/-- With nothing but delimiters left a call returns NULL. -/
theorem Cut.call_none (h : Cut m a s d s.length m') (hs : Str m a s) (hfuel : 0 < fuel)
    (ptr : Nat) (f i : Bool) :
    strtokLoop b fuel m' (a + s.length) ptr f i = some (ptr, m', a + s.length) := by
  obtain ⟨fuel, rfl⟩ := Nat.exists_eq_add_one_of_ne_zero (Nat.ne_zero_of_lt hfuel)
  exact if_pos (h.nul hs)

/-- At the end every call returns NULL. -/
theorem Cut.calls_end (h : Cut m a s d s.length m') (hs : Str m a s) (hset : Str m' b d)
    (hfuel : s.length + d.length < fuel) {str old : Nat}
    (hat : (if str = 0 then old else str) = a + s.length) (k : Nat) :
    strtokCall fuel b k str m' old = some (0, m', a + s.length) := by
  have hend : Resumes s d s.length := Or.inr ⟨by simp [IsDelim], fun h => absurd h (Nat.lt_irrefl _)⟩
  have hone : ∀ str old, (if str = 0 then old else str) = a + s.length →
      strtok fuel m' old str b = some (0, m', a + s.length) := by
    intro str old hat
    obtain ⟨r, hrun, hcut, hle, -⟩ := h.enter hs hset hend hfuel hat
    obtain rfl : r = s.length := Nat.le_antisymm hcut.within hle
    rw [hrun, h.call_none hs (by omega)]
  induction k generalizing str old with
  | zero => exact hone str old hat
  | succ k ih =>
    simp only [strtokCall, hone str old hat, Option.bind_eq_bind, Option.bind_some]
    exact ih (if_pos rfl)

/-- A call either returns NULL, with no token left, or the first token that begins at `q` or
later, and stops behind it. -/
theorem Cut.next_token (h : Cut m a s d q m') (hs : Str m a s) (hd : Str m b d)
    (hsep : b + d.length < a ∨ a + s.length ≤ b) (hres : Resumes s d q)
    (hfuel : s.length + d.length < fuel) {str old : Nat}
    (hat : (if str = 0 then old else str) = a + q) :
    (strtok fuel m' old str b = some (0, m', a + s.length) ∧ Cut m a s d s.length m' ∧
        ∀ i j, MaximalRun (IsDelim s d) s.length i j → ¬ q ≤ i) ∨
      ∃ m'' i j t, strtok fuel m' old str b = some (a + i, m'', a + t) ∧ Cut m a s d t m'' ∧
        Resumes s d t ∧ MaximalRun (IsDelim s d) s.length i j ∧ i < t ∧
        (j < t ∨ j = s.length) ∧
        ∀ i' j', MaximalRun (IsDelim s d) s.length i' j' → (q ≤ i' ↔ (i', j') = (i, j) ∨ t ≤ i') := by
  obtain ⟨r, hrun, hcut, hqr, hskip, hnot, hstart⟩ := h.enter hs (h.set hd hsep) hres hfuel hat
  cases Nat.eq_or_lt_of_le hcut.within with
  | inl heq =>
    obtain rfl := heq
    refine Or.inl ⟨hrun.trans (hcut.call_none hs (by omega) 0 true false), hcut,
      fun i j hmax hqi => ?_⟩
    have hri := (runs_from_skip hqr hskip hmax).mp hqi
    have := hmax.nonempty
    have := hmax.within
    omega
  | inr hlt =>
    obtain ⟨m'', j, t, hloop, hcut', hrj, hjt, hfree, hstop, hgap, hnot'⟩ :=
      hcut.loop_start hs hd hsep (by omega : s.length - r + d.length < fuel) hlt hnot
    have hjlen : j < t ∨ j = s.length := by
      cases Nat.eq_or_lt_of_le hjt with
      | inl heq =>
        obtain rfl := heq
        cases Nat.eq_or_lt_of_le hcut'.within with
        | inl heq => exact Or.inr heq
        | inr hjs => exact absurd (hstop hjs) hnot'
      | inr hjt => exact Or.inl hjt
    have hmax : MaximalRun (IsDelim s d) s.length r j :=
      ⟨hrj, Nat.le_trans hjt hcut'.within, hfree, hstart hlt, hstop⟩
    have hres' : Resumes s d t :=
      Or.inr ⟨hnot', fun hts u hu => hgap u (by omega) (by omega)⟩
    refine Or.inr ⟨m'', r, j, t, hrun.trans hloop, hcut', hres', hmax, by omega, hjlen,
      fun i' j' hmax' => ?_⟩
    rw [runs_from_skip hqr hskip hmax']
    constructor
    · intro hri
      cases Nat.eq_or_lt_of_le hri with
      | inl heq =>
        obtain rfl := heq
        exact Or.inl (by rw [hmax.stop_unique hmax'])
      | inr hri => exact Or.inr (hmax.next hgap hmax' hri)
    · rintro (heq | hti)
      · exact Nat.le_of_eq (Prod.mk.inj heq).1.symm
      · omega

/-- The calls from position `q` on hand out the tokens that begin there or later, in order. -/
theorem Cut.calls (h : Cut m a s d q m') (hs : Str m a s) (hd : Str m b d)
    (hsep : b + d.length < a ∨ a + s.length ≤ b) (hres : Resumes s d q)
    (hfuel : s.length + d.length < fuel) {str old : Nat}
    (hat : (if str = 0 then old else str) = a + q) :
    ∃ l : List (Nat × Nat), l.Pairwise (fun x y => x.1 < y.1) ∧
      (∀ i j, (i, j) ∈ l ↔ MaximalRun (IsDelim s d) s.length i j ∧ q ≤ i) ∧
      ∀ k, ∃ ptr m'' r, strtokCall fuel b k str m' old = some (ptr, m'', a + r) ∧
        Cut m a s d r m'' ∧ q ≤ r ∧ (∀ x, l[k]? = some x → ptr = a + x.1) ∧
        (l.length ≤ k → ptr = 0) ∧ ∀ n x, n ≤ k → l[n]? = some x → x.2 < r ∨ x.2 = s.length := by
  induction hl : s.length - q using Nat.strong_induction_on generalizing q m' str old with
  | _ n ih =>
    obtain ⟨hcall, hcut, hnone⟩ | ⟨m'', i, j, t, hcall, hcut', hres', hmax, hit, hjlen, hnext⟩ :=
      h.next_token hs hd hsep hres hfuel hat
    · refine ⟨[], .nil, fun i j => ⟨nofun, fun ⟨hmax, hqi⟩ => absurd hqi (hnone i j hmax)⟩,
        fun k => ⟨0, m', s.length, ?_, hcut, h.within, nofun, fun _ => rfl, nofun⟩⟩
      cases k with
      | zero => exact hcall
      | succ k =>
        simp only [strtokCall, hcall, Option.bind_eq_bind, Option.bind_some]
        exact hcut.calls_end hs (h.set hd hsep) hfuel (if_pos rfl) k
    · have hqi : q ≤ i := (hnext i j hmax).mpr (Or.inl rfl)
      have hts := hcut'.within
      obtain ⟨l, hsorted, hmem, hcalls⟩ := ih _ (by omega) hcut' hres'
        (show (if (0 : Nat) = 0 then a + t else 0) = a + t from if_pos rfl) rfl
      refine ⟨(i, j) :: l, List.pairwise_cons.mpr ⟨fun x hx => ?_, hsorted⟩, fun i' j' => ?_,
        fun k => ?_⟩
      · have := ((hmem x.1 x.2).mp hx).2
        simp only
        omega
      · rw [List.mem_cons, hmem]
        constructor
        · rintro (heq | ⟨hmax', hti⟩)
          · obtain ⟨rfl, rfl⟩ := Prod.mk.inj heq
            exact ⟨hmax, hqi⟩
          · exact ⟨hmax', by omega⟩
        · rintro ⟨hmax', hqi'⟩
          exact ((hnext i' j' hmax').mp hqi').imp_right fun hti => ⟨hmax', hti⟩
      · cases k with
        | zero =>
          refine ⟨a + i, m'', t, hcall, hcut', by omega, fun x hx => ?_, nofun, fun n x hn hx => ?_⟩
          · obtain rfl := Option.some.inj hx
            rfl
          · obtain rfl : n = 0 := Nat.le_zero.mp hn
            obtain rfl := Option.some.inj hx
            exact hjlen
        | succ k =>
          obtain ⟨ptr, M, u, hk, hM, htu, hptr, hnull, hread⟩ := hcalls k
          refine ⟨ptr, M, u, ?_, hM, by omega, fun x hx => hptr x hx,
            fun hle => hnull (Nat.le_of_succ_le_succ hle), fun n x hn hx => ?_⟩
          · simp only [strtokCall, hcall, Option.bind_eq_bind, Option.bind_some]
            exact hk
          · cases n with
            | zero =>
              obtain rfl := Option.some.inj hx
              exact hjlen.imp (fun h => Nat.lt_of_lt_of_le h htu) id
            | succ n => exact hread n x (Nat.le_of_succ_le_succ hn) hx

/-- The text of a run. -/
def text (s : List UInt8) (x : Nat × Nat) : List UInt8 := (s.take x.2).drop x.1

/-- A token that was returned stands as a string at its place. -/
theorem Cut.readable (h : Cut m a s d q m') (hs : Str m a s) {x : Nat × Nat}
    (hx : MaximalRun (IsDelim s d) s.length x.1 x.2) (hq : x.2 < q ∨ x.2 = s.length) :
    Str m' (a + x.1) (text s x) := by
  obtain ⟨i, j⟩ := x
  have hij := hx.nonempty
  have hj := hx.within
  have hlen : (text s (i, j)).length = j - i := by
    simp only [text, List.length_drop, List.length_take]
    omega
  refine Str.of_getD (fun c hc => hs.chars c (List.mem_of_mem_take (List.mem_of_mem_drop hc)))
    fun t ht => ?_
  rw [hlen] at ht
  rw [Nat.add_assoc]
  cases Nat.eq_or_lt_of_le ht with
  | inl heq =>
    obtain rfl := heq
    -- the byte behind the token
    have hend : m' (a + (i + (j - i))) = 0 := by
      have hsum : i + (j - i) = j - 1 + 1 := by omega
      cases hq with
      | inl hq =>
        rw [hsum]
        refine h.ends (j - 1) (by omega) (hx.free _ (by omega) (by omega)) ?_
        have hstop : IsDelim s d j := hx.stop (Nat.lt_of_lt_of_le hq h.within)
        rwa [show j - 1 + 1 = j by omega]
      | inr hq =>
        rw [show i + (j - i) = s.length by omega]
        exact h.nul hs
    rw [hend, List.getD_eq_getElem?_getD, List.getElem?_eq_none (by omega)]
    rfl
  | inr ht =>
    have hlt : i + t < s.length := by omega
    have hc : s[i + t]? = some s[i + t] := List.getElem?_eq_getElem hlt
    rw [h.kept _ _ hc ((not_isDelim hc).mp (hx.free _ (by omega) (by omega)))]
    have htext : (text s (i, j))[t]? = some s[i + t] := by
      rw [text, List.getElem?_drop, List.getElem?_take_of_lt (by omega), hc]
    rw [List.getD_eq_getElem?_getD, htext, Option.getD_some]

/-- `strtok(s,d)` and then `strtok(NULL,d)` again and again hand out the maximal runs of
characters that are not in `d`, in order and in place, and then NULL for ever. -/
theorem strtok_tokens (hs : Str m a s) (hd : Str m b d) (ha : 0 < a)
    (hsep : b + d.length < a ∨ a + s.length ≤ b) (hfuel : s.length + d.length < fuel)
    (old : Nat) : ∃ l : List (Nat × Nat), l.Pairwise (fun x y => x.1 < y.1) ∧
      (∀ i j, (i, j) ∈ l ↔ MaximalRun (IsDelim s d) s.length i j) ∧
      ∀ k, ∃ ptr m' old', strtokCall fuel b k a m old = some (ptr, m', old') ∧
        ptr = (l[k]?).elim 0 (fun x => a + x.1) ∧
        (∀ n x, n ≤ k → l[n]? = some x → Str m' (a + x.1) (text s x)) ∧
        (∀ y, y < a ∨ a + s.length ≤ y → m' y = m y) ∧
        ∀ x ∈ l, ∀ u, x.1 ≤ u → u < x.2 → m' (a + u) = m (a + u) := by
  obtain ⟨l, hsorted, hmem, hcalls⟩ := (Cut.front d hs).calls hs hd hsep (Or.inl rfl) hfuel
    (show (if a = 0 then old else a) = a + 0 from if_neg (by omega))
  have hrun : ∀ x ∈ l, MaximalRun (IsDelim s d) s.length x.1 x.2 := fun x hx =>
    ((hmem x.1 x.2).mp hx).1
  refine ⟨l, hsorted, fun i j => (hmem i j).trans (and_iff_left (Nat.zero_le i)), fun k => ?_⟩
  obtain ⟨ptr, m', r, hk, hcut, -, hptr, hnull, hread⟩ := hcalls k
  refine ⟨ptr, m', a + r, hk, ?_, fun n x hn hx => ?_, hcut.outside,
    fun x hx u h1 h2 => ?_⟩
  · cases hget : l[k]? with
    | none => exact hnull (List.getElem?_eq_none_iff.mp hget)
    | some x => exact hptr x hget
  · exact hcut.readable hs (hrun x (List.mem_of_getElem? hx)) (hread n x hn hx)
  · have hmax := hrun x hx
    have hlt : u < s.length := Nat.lt_of_lt_of_le h2 hmax.within
    have hc : s[u]? = some s[u] := List.getElem?_eq_getElem hlt
    rw [hcut.kept u _ hc ((not_isDelim hc).mp (hmax.free u h1 h2)), hs.char hc]

end

/-- `"/dev/tty"` and `"/"`, as the shell tokenizes them. -/
def shellTest : Mem :=
  putString (putString ⟨fun _ => 0⟩ 0x1000 [47, 100, 101, 118, 47, 116, 116, 121]) 0x2000 [47]

theorem strtok_tokens_shell : ∃ l : List (Nat × Nat), l.Pairwise (fun x y => x.1 < y.1) ∧
    (∀ i j, (i, j) ∈ l ↔ MaximalRun (IsDelim [47, 100, 101, 118, 47, 116, 116, 121] [47]) 8 i j) ∧
    ∀ k, ∃ ptr m' old', strtokCall 10 0x2000 k 0x1000 shellTest 0 = some (ptr, m', old') ∧
      ptr = (l[k]?).elim 0 (fun x => 0x1000 + x.1) ∧
      (∀ n x, n ≤ k → l[n]? = some x →
        Str m' (0x1000 + x.1) (text [47, 100, 101, 118, 47, 116, 116, 121] x)) ∧
      (∀ y, y < 0x1000 ∨ 0x1000 + 8 ≤ y → m' y = shellTest y) ∧
      ∀ x ∈ l, ∀ u, x.1 ≤ u → u < x.2 → m' (0x1000 + u) = shellTest (0x1000 + u) :=
  strtok_tokens
    ((putString_str (chars_of_all (by decide))).congr fun y _ h => putString_outside (Or.inl (by simp at h; omega)))
    (putString_str (chars_of_all (by decide))) (by decide) (by decide) (by decide) 0

end Foos.Libc
