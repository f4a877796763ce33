import Foos.CString

/-! What a piece of code leaves alone: two memories that differ in some areas only. -/
namespace ByteMemory
open CString

/-- `y` is in none of the areas, each given by address and length. -/
def Outside (areas : List (Nat × Nat)) (y : Nat) : Prop :=
  ∀ r ∈ areas, y < r.1 ∨ r.1 + r.2 ≤ y

/-- The `n` bytes at `p` are in none of the areas. -/
def Apart (areas : List (Nat × Nat)) (p n : Nat) : Prop :=
  ∀ r ∈ areas, p + n ≤ r.1 ∨ r.1 + r.2 ≤ p

/-- The memories differ in the areas at most. -/
def Frame (areas : List (Nat × Nat)) (m m' : Mem) : Prop :=
  ∀ y, Outside areas y → m' y = m y

instance (areas : List (Nat × Nat)) (p n : Nat) : Decidable (Apart areas p n) :=
  inferInstanceAs (Decidable (∀ r ∈ areas, _))

section
variable {areas : List (Nat × Nat)} {m m' m'' : Mem} {a n p y : Nat}

@[simp] theorem outside_nil : Outside [] y := nofun

@[simp] theorem outside_cons :
    Outside ((a, n) :: areas) y ↔ (y < a ∨ a + n ≤ y) ∧ Outside areas y := by
  simp [Outside]

theorem outside_single : Outside [(a, n)] y ↔ y < a ∨ a + n ≤ y := by
  rw [outside_cons]
  exact and_iff_left outside_nil

theorem not_outside : ¬ Outside areas y ↔ ∃ r ∈ areas, r.1 ≤ y ∧ y < r.1 + r.2 := by
  simp only [Outside, not_forall, not_or, Nat.not_lt, Nat.not_le, exists_prop]

@[simp] theorem apart_nil : Apart [] p n := nofun

@[simp] theorem apart_cons {b k : Nat} :
    Apart ((b, k) :: areas) p n ↔ (p + n ≤ b ∨ b + k ≤ p) ∧ Apart areas p n := by
  simp [Apart]

theorem Apart.outside (h : Apart areas p n) (h1 : p ≤ y) (h2 : y < p + n) : Outside areas y := by
  intro r hr
  have := h r hr
  omega

theorem Apart.sub {q k : Nat} (h : Apart areas p n) (h1 : p ≤ q) (h2 : q + k ≤ p + n) :
    Apart areas q k := by
  intro r hr
  have := h r hr
  omega

theorem Frame.refl (areas : List (Nat × Nat)) (m : Mem) : Frame areas m m := fun _ _ => rfl

theorem Frame.trans (h : Frame areas m m') (h' : Frame areas m' m'') : Frame areas m m'' :=
  fun y hy => (h' y hy).trans (h y hy)

theorem Frame.mono {areas' : List (Nat × Nat)} (h : Frame areas m m')
    (hsub : ∀ y, Outside areas' y → Outside areas y) : Frame areas' m m' :=
  fun y hy => h y (hsub y hy)

theorem Frame.store8 (h : Frame [(a, n)] m m') {v : UInt8} (h1 : a ≤ p) (h2 : p < a + n) :
    Frame [(a, n)] m (store8 m' p v) := by
  intro y hy
  rw [store8_ne m' p y v (by simp at hy; omega)]
  exact h y hy

theorem Frame.store32 (h : Frame [(a, n)] m m') {v : Nat} (h1 : a ≤ p) (h2 : p + 4 ≤ a + n) :
    Frame [(a, n)] m (store32 m' p v) := by
  intro y hy
  rw [store32_outside m' p v y (by simp at hy; omega)]
  exact h y hy

theorem Frame.memset (h : Frame [(a, n)] m m') {c : UInt8} {k : Nat} (h1 : a ≤ p)
    (h2 : p + k ≤ a + n) : Frame [(a, n)] m (memset m' p c k) := by
  intro y hy
  have hy' : ¬ (p ≤ y ∧ y < p + k) := by
    simp at hy
    omega
  exact (if_neg hy').trans (h y hy)

theorem Frame.putString (h : Frame [(a, n)] m m') {s : List UInt8} (h1 : a ≤ p)
    (h2 : p + s.length < a + n) : Frame [(a, n)] m (putString m' p s) := by
  intro y hy
  rw [putString_outside (by simp at hy; omega)]
  exact h y hy

theorem Frame.load32 (h : Frame areas m m') (ha : Apart areas p 4) : load32 m' p = load32 m p :=
  load32_congr fun y h1 h2 => h y (ha.outside h1 h2)

theorem Frame.str (h : Frame areas m m') {s : List UInt8} (hs : Str m p s)
    (ha : Apart areas p (s.length + 1)) : Str m' p s :=
  hs.congr fun y h1 h2 => h y (ha.outside h1 (by omega))

end

theorem memset_inside {m : Mem} {s n y : Nat} {c : UInt8} (h1 : s ≤ y) (h2 : y < s + n) :
    memset m s c n y = c := if_pos ⟨h1, h2⟩

theorem memcpy_frame (m : Mem) (dest src n : Nat) : Frame [(dest, n)] m (memcpy m dest src n) := by
  induction n generalizing m dest src with
  | zero => exact Frame.refl _ m
  | succ n ih =>
    intro y hy
    rw [outside_single] at hy
    refine (ih _ _ _ y ?_).trans (store8_ne m dest y _ (by omega))
    rw [outside_single]
    omega

/-- What stands apart from its destination is copied. -/
theorem memcpy_copied {m : Mem} {dest src n i : Nat} (happ : dest + n ≤ src ∨ src + n ≤ dest)
    (hi : i < n) : memcpy m dest src n (dest + i) = m (src + i) := by
  induction n generalizing m dest src i with
  | zero => exact absurd hi (Nat.not_lt_zero i)
  | succ n ih =>
    cases i with
    | zero =>
      refine (memcpy_frame _ (dest + 1) (src + 1) n dest ?_).trans (store8_same m dest _)
      rw [outside_single]
      omega
    | succ i =>
      rw [memcpy, Nat.add_comm i 1, ← Nat.add_assoc, ih (by omega) (by omega), Nat.add_assoc]
      exact store8_ne m dest _ _ (by omega)

/-- The bytes `s`, put at `a`. -/
def putBytes (m : Mem) (a : Nat) : List UInt8 → Mem
  | [] => m
  | c :: s => putBytes (store8 m a c) (a + 1) s

theorem putBytes_frame (m : Mem) (a : Nat) (s : List UInt8) :
    Frame [(a, s.length)] m (putBytes m a s) := by
  induction s generalizing m a with
  | nil => exact Frame.refl _ m
  | cons c s ih =>
    intro y hy
    simp only [outside_cons, outside_nil, and_true, List.length_cons] at hy
    refine (ih _ _ y ?_).trans (store8_ne m a y c (by omega))
    rw [outside_single]
    omega

theorem putBytes_at {m : Mem} {a i : Nat} {s : List UInt8} {c : UInt8} (h : s[i]? = some c) :
    putBytes m a s (a + i) = c := by
  induction s generalizing m a i with
  | nil => simp at h
  | cons d s ih =>
    cases i with
    | zero =>
      obtain rfl : d = c := by simpa using h
      refine (putBytes_frame _ (a + 1) s a ?_).trans (store8_same m a d)
      rw [outside_single]
      omega
    | succ i =>
      rw [putBytes, Nat.add_comm i 1, ← Nat.add_assoc]
      exact ih (by simpa using h)

theorem putBytes_append (m : Mem) (a : Nat) (s t : List UInt8) :
    putBytes m a (s ++ t) = putBytes (putBytes m a s) (a + s.length) t := by
  induction s generalizing m a with
  | nil => rfl
  | cons c s ih =>
    rw [List.cons_append, putBytes, ih, putBytes, List.length_cons, Nat.add_comm s.length 1,
      Nat.add_assoc]

theorem putString_eq (m : Mem) (a : Nat) (s : List UInt8) :
    putString m a s = store8 (putBytes m a s) (a + s.length) 0 := by
  induction s generalizing m a with
  | nil => rfl
  | cons c s ih =>
    rw [putString, ih, putBytes, List.length_cons, Nat.add_comm s.length 1, Nat.add_assoc]

theorem load32_store8_ne {m : Mem} {a b : Nat} {v : UInt8} (h : a < b ∨ b + 4 ≤ a) :
    load32 (store8 m a v) b = load32 m b :=
  load32_congr fun y h1 h2 => store8_ne m a y v (by omega)

theorem load32_putString {m : Mem} {a b : Nat} {s : List UInt8}
    (h : a + s.length < b ∨ b + 4 ≤ a) : load32 (putString m a s) b = load32 m b :=
  load32_congr fun _ h1 h2 => putString_outside (by omega)

end ByteMemory
