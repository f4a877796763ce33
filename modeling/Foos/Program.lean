import Mathlib.Data.List.Basic

/-! Imperative programs over a state: a run returns a value, is stopped for good by an
assertion, or goes on without end from some state on. -/
namespace Program

inductive Res (σ α : Type) where
  | ret (a : α) (s : σ)
  | halt (s : σ)
  | spin (s : σ)

/-- A program is a function of the state it starts in. -/
def Prog (σ α : Type) : Type := σ → Res σ α

variable {σ α β : Type}

def bind (x : Prog σ α) (f : α → Prog σ β) : Prog σ β := fun s =>
  match x s with
  | .ret a t => f a t
  | .halt t => .halt t
  | .spin t => .spin t

instance : Monad (Prog σ) where
  pure a := fun s => .ret a s
  bind := bind

def modify (f : σ → σ) : Prog σ Unit := fun s => .ret () (f s)
def read (f : σ → α) : Prog σ α := fun s => .ret (f s) s
def assert (c : Bool) : Prog σ Unit := fun s => if c then .ret () s else .halt s
def diverge : Prog σ α := fun s => .spin s

/-- A partial update of the state; where it is undefined the program does not come back. -/
def update (f : σ → Option (α × σ)) : Prog σ α := fun s =>
  match f s with
  | some (a, t) => .ret a t
  | none => .spin s

/-- `n` rounds of a loop whose counter starts at `i`. -/
def forFrom (body : Nat → Prog σ Unit) : Nat → Nat → Prog σ Unit
  | _, 0 => pure ()
  | i, n+1 => do
    body i
    forFrom body (i + 1) n

@[simp] theorem pure_run (a : α) (s : σ) : (pure a : Prog σ α) s = .ret a s := rfl

theorem bind_run (x : Prog σ α) (f : α → Prog σ β) (s : σ) :
    (x >>= f) s = match x s with
      | .ret a t => f a t
      | .halt t => .halt t
      | .spin t => .spin t := rfl

theorem bind_ret {x : Prog σ α} {f : α → Prog σ β} {s t : σ} {a : α} (h : x s = .ret a t) :
    (x >>= f) s = f a t := by
  rw [bind_run, h]

theorem bind_halt {x : Prog σ α} {f : α → Prog σ β} {s t : σ} (h : x s = .halt t) :
    (x >>= f) s = .halt t := by
  rw [bind_run, h]

theorem bind_spin {x : Prog σ α} {f : α → Prog σ β} {s t : σ} (h : x s = .spin t) :
    (x >>= f) s = .spin t := by
  rw [bind_run, h]

@[simp] theorem modify_run (f : σ → σ) (s : σ) : modify f s = .ret () (f s) := rfl
@[simp] theorem read_run (f : σ → α) (s : σ) : read f s = .ret (f s) s := rfl
@[simp] theorem diverge_run (s : σ) : (diverge : Prog σ α) s = .spin s := rfl

@[simp] theorem pure_bind_run (a : α) (f : α → Prog σ β) (s : σ) :
    ((pure a : Prog σ α) >>= f) s = f a s := rfl

@[simp] theorem modify_bind_run (f : σ → σ) (g : Unit → Prog σ β) (s : σ) :
    (modify f >>= g) s = g () (f s) := rfl

@[simp] theorem read_bind_run (f : σ → α) (g : α → Prog σ β) (s : σ) :
    (read f >>= g) s = g (f s) s := rfl

@[simp] theorem bind_assoc_run {γ : Type} (x : Prog σ α) (f : α → Prog σ β) (g : β → Prog σ γ)
    (s : σ) : (x >>= f >>= g) s = (x >>= fun a => f a >>= g) s := by
  simp only [bind_run]
  cases x s <;> rfl

theorem assert_pass {c : Bool} (h : c = true) (s : σ) : assert c s = .ret () s := if_pos h

theorem assert_stop {c : Bool} (h : c = false) (s : σ) : assert c s = .halt s := by
  rw [assert, h]
  rfl

theorem update_run {f : σ → Option (α × σ)} {s t : σ} {a : α} (h : f s = some (a, t)) :
    update f s = .ret a t := by
  simp only [update, h]

theorem update_spin {f : σ → Option (α × σ)} {s : σ} (h : f s = none) :
    (update f : Prog σ α) s = .spin s := by
  simp only [update, h]

/-- A loop keeps what every round keeps. -/
theorem forFrom_ret {I : Nat → σ → Prop} {body : Nat → Prog σ Unit} {i n : Nat} {s : σ}
    (hbody : ∀ j s, i ≤ j → j < i + n → I j s → ∃ t, body j s = .ret () t ∧ I (j + 1) t)
    (hs : I i s) : ∃ t, forFrom body i n s = .ret () t ∧ I (i + n) t := by
  induction n generalizing i s with
  | zero => exact ⟨s, rfl, hs⟩
  | succ n ih =>
    obtain ⟨t, hrun, ht⟩ := hbody i s (Nat.le_refl i) (by omega) hs
    obtain ⟨u, hrest, hu⟩ := ih (fun j s h1 h2 => hbody j s (by omega) (by omega)) ht
    exact ⟨u, (bind_ret hrun).trans hrest, by rwa [Nat.add_right_comm] at hu⟩

theorem forFrom_append (body : Nat → Prog σ Unit) (i n k : Nat) (s : σ) :
    forFrom body i (n + k) s = (forFrom body i n >>= fun _ => forFrom body (i + n) k) s := by
  induction n generalizing i s with
  | zero => rw [Nat.zero_add]; rfl
  | succ n ih =>
    rw [Nat.add_right_comm, forFrom, forFrom, bind_assoc_run, bind_run, bind_run]
    cases body i s with
    | ret a t => exact (ih (i + 1) t).trans (by rw [Nat.add_assoc, Nat.add_comm 1 n])
    | halt t => rfl
    | spin t => rfl

/-- The last state of a run. -/
def Res.final : Res σ α → σ
  | .ret _ s => s
  | .halt s => s
  | .spin s => s

/-- Every run of `x` leads to a state related to its start by `R`. -/
def Respects (R : σ → σ → Prop) (x : Prog σ α) : Prop := ∀ s, R s (x s).final

section Respects
variable {R : σ → σ → Prop}

theorem respects_pure (hrefl : ∀ s, R s s) (a : α) : Respects R (pure a : Prog σ α) := hrefl

theorem respects_bind (htrans : ∀ s t u, R s t → R t u → R s u) {x : Prog σ α}
    {f : α → Prog σ β} (hx : Respects R x) (hf : ∀ a, Respects R (f a)) :
    Respects R (x >>= f) := by
  intro s
  have hxs := hx s
  rw [bind_run]
  cases hr : x s with
  | ret a t =>
    rw [hr] at hxs
    exact htrans s t _ hxs (hf a t)
  | halt t => rwa [hr] at hxs
  | spin t => rwa [hr] at hxs

theorem respects_modify {f : σ → σ} (h : ∀ s, R s (f s)) : Respects R (modify f) := h

theorem respects_read (hrefl : ∀ s, R s s) (f : σ → α) : Respects R (read f) := hrefl

theorem respects_diverge (hrefl : ∀ s, R s s) : Respects R (diverge : Prog σ α) := hrefl

theorem respects_assert (hrefl : ∀ s, R s s) (c : Bool) : Respects R (assert c) := by
  intro s
  cases c with
  | false => exact hrefl s
  | true => exact hrefl s

theorem respects_update (hrefl : ∀ s, R s s) {f : σ → Option (α × σ)}
    (h : ∀ s a t, f s = some (a, t) → R s t) : Respects R (update f) := by
  intro s
  unfold update
  cases hf : f s with
  | none => exact hrefl s
  | some r => exact h s r.1 r.2 hf

theorem respects_ite {c : Prop} [Decidable c] {x y : Prog σ α} (hx : Respects R x)
    (hy : Respects R y) : Respects R (if c then x else y) := by
  split
  · exact hx
  · exact hy

theorem respects_forFrom (hrefl : ∀ s, R s s) (htrans : ∀ s t u, R s t → R t u → R s u)
    {body : Nat → Prog σ Unit} (h : ∀ i, Respects R (body i)) (i n : Nat) :
    Respects R (forFrom body i n) := by
  induction n generalizing i with
  | zero => exact respects_pure hrefl ()
  | succ n ih => exact respects_bind htrans (h i) fun _ => ih (i + 1)

end Respects

/-- A result as it looks when only a part of the state is seen. -/
def Res.image {τ : Type} (f : σ → τ) : Res σ α → Res τ α
  | .ret a s => .ret a (f s)
  | .halt s => .halt (f s)
  | .spin s => .spin (f s)

/-- Seen through `f`, `x` does what `y` does. -/
def Follows {τ : Type} (f : σ → τ) (x : Prog σ α) (y : Prog τ α) : Prop :=
  ∀ s, (x s).image f = y (f s)

section Follows
variable {τ : Type} {f : σ → τ}

theorem follows_pure (a : α) : Follows f (pure a) (pure a) := fun _ => rfl

theorem follows_bind {x : Prog σ α} {y : Prog τ α} {g : α → Prog σ β} {g' : α → Prog τ β}
    (hx : Follows f x y) (hg : ∀ a, Follows f (g a) (g' a)) :
    Follows f (x >>= g) (y >>= g') := by
  intro s
  have hxs := hx s
  rw [bind_run, bind_run, ← hxs]
  cases x s with
  | ret a t => exact hg a t
  | halt t => rfl
  | spin t => rfl

theorem follows_read {r : σ → α} {r' : τ → α} (h : ∀ s, r s = r' (f s)) :
    Follows f (read r) (read r') := fun s => congrArg (fun a => Res.ret a (f s)) (h s)

theorem follows_modify {g : σ → σ} {g' : τ → τ} (h : ∀ s, f (g s) = g' (f s)) :
    Follows f (modify g) (modify g') := fun s => congrArg (Res.ret ()) (h s)

theorem follows_update {g : σ → Option (α × σ)} {g' : τ → Option (α × τ)}
    (h : ∀ s, (g s).map (fun r => (r.1, f r.2)) = g' (f s)) :
    Follows f (update g) (update g') := by
  intro s
  have hs := h s
  rw [update, update, ← hs]
  cases g s with
  | none => rfl
  | some r => rfl

theorem follows_ite {c : Prop} [Decidable c] {x x' : Prog σ α} {y y' : Prog τ α}
    (hx : Follows f x y) (hx' : Follows f x' y') :
    Follows f (if c then x else x') (if c then y else y') := by
  split
  · exact hx
  · exact hx'

end Follows

/-- `x` stops for good or does what `y` does. -/
def Watches (x y : Prog σ α) : Prop := ∀ s, (∃ t, x s = .halt t) ∨ x s = y s

section Watches
variable {x y : Prog σ α}

theorem watches_refl (x : Prog σ α) : Watches x x := fun _ => Or.inr rfl

/-- An assertion in front only stops what follows. -/
theorem watches_assert (c : Bool) (x : Prog σ α) : Watches (assert c >>= fun _ => x) x := by
  intro s
  cases c with
  | false => exact Or.inl ⟨s, rfl⟩
  | true => exact Or.inr rfl

theorem watches_bind {f g : α → Prog σ β} (hx : Watches x y) (hf : ∀ a, Watches (f a) (g a)) :
    Watches (x >>= f) (y >>= g) := by
  intro s
  cases hx s with
  | inl hstop =>
    obtain ⟨t, hstop⟩ := hstop
    exact Or.inl ⟨t, bind_halt hstop⟩
  | inr heq =>
    rw [bind_run, bind_run, heq]
    cases y s with
    | ret a t => exact hf a t
    | halt t => exact Or.inr rfl
    | spin t => exact Or.inr rfl

theorem watches_ite {c : Prop} [Decidable c] {x' y' : Prog σ α} (hx : Watches x y)
    (hx' : Watches x' y') : Watches (if c then x else x') (if c then y else y') := by
  split
  · exact hx
  · exact hx'

theorem Watches.ret {s t : σ} {a : α} (h : Watches x y) (hx : x s = .ret a t) : y s = .ret a t := by
  cases h s with
  | inl hstop =>
    obtain ⟨u, hstop⟩ := hstop
    rw [hx] at hstop
    cases hstop
  | inr heq => exact heq.symm.trans hx

end Watches

/-- No run of `x` is stopped by an assertion. -/
def Unstopped (x : Prog σ α) : Prop := ∀ s t, x s ≠ .halt t

section Unstopped

theorem unstopped_pure (a : α) : Unstopped (pure a : Prog σ α) := fun _ _ => nofun

theorem unstopped_read (f : σ → α) : Unstopped (read f) := fun _ _ => nofun

theorem unstopped_modify (f : σ → σ) : Unstopped (modify f) := fun _ _ => nofun

theorem unstopped_diverge : Unstopped (diverge : Prog σ α) := fun _ _ => nofun

theorem unstopped_update (f : σ → Option (α × σ)) : Unstopped (update f) := by
  intro s t h
  unfold update at h
  cases hf : f s with
  | none =>
    rw [hf] at h
    cases h
  | some r =>
    rw [hf] at h
    cases h

/-- The run of a sequence stops in its first part, or in the second part behind the first. -/
theorem bind_ne_halt {x : Prog σ α} {f : α → Prog σ β} {s : σ} (hx : ∀ t, x s ≠ .halt t)
    (hf : ∀ a t, x s = .ret a t → ∀ u, f a t ≠ .halt u) (t : σ) : (x >>= f) s ≠ .halt t := by
  rw [bind_run]
  cases hr : x s with
  | ret a u => exact hf a u hr t
  | halt u => exact absurd hr (hx u)
  | spin u => exact nofun

theorem unstopped_bind {x : Prog σ α} {f : α → Prog σ β} (hx : Unstopped x)
    (hf : ∀ a, Unstopped (f a)) : Unstopped (x >>= f) :=
  fun s => bind_ne_halt (hx s) fun a t _ => hf a t

theorem unstopped_ite {c : Prop} [Decidable c] {x y : Prog σ α} (hx : Unstopped x)
    (hy : Unstopped y) : Unstopped (if c then x else y) := by
  split
  · exact hx
  · exact hy

end Unstopped

end Program
