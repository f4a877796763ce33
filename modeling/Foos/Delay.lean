import Mathlib.Data.List.TakeWhile
import Foos.Transition

/-! `pit_delay` of `kernel/dev/pit.c`, one statement after the other, with the timer interrupt
between any two of them. -/
namespace Foos.Pit
open Transition

def EBUSY : Nat := 16

/-- The statement that `pit_delay(_ticks)` is about to execute. -/
inductive Pc where
  | out
  | checkBusy (_ticks : Nat)
  | setErrno
  | returnErrno
  | setBusy (_ticks : Nat)
  | setTicks (_ticks : Nat)
  | whileBusy
  deriving DecidableEq

structure State where
  busy : Bool
  ticks : Nat
  errno : Nat
  pc : Pc
  ret : Int

inductive Act where
  | call (n : Nat)
  | stmt
  | irq
  deriving DecidableEq

def pitIrq (s : State) : State :=
  if s.busy ∧ 0 < s.ticks then { s with ticks := s.ticks - 1 } else { s with busy := false }

def pitDelay (s : State) : State :=
  match s.pc with
  | .out => s
  | .checkBusy n => if s.busy then { s with pc := .setErrno } else { s with pc := .setBusy n }
  | .setErrno => { s with errno := EBUSY, pc := .returnErrno }
  | .returnErrno => { s with ret := -s.errno, pc := .out }
  | .setBusy n => { s with busy := true, pc := .setTicks n }
  | .setTicks n => { s with ticks := n, pc := .whileBusy }
  | .whileBusy => if s.busy then s else { s with ret := 0, pc := .out }

/-- The kernel calls `pit_delay` when no call is in progress; interrupts come at any time. -/
inductive Step : State → Act → State → Prop
  | call {s : State} (n : Nat) (h : s.pc = .out) : Step s (.call n) { s with pc := .checkBusy n }
  | stmt {s : State} (h : s.pc ≠ .out) : Step s .stmt (pitDelay s)
  | irq {s : State} : Step s .irq (pitIrq s)

/-- The statics of `pit.c` at boot. -/
def start : State := ⟨false, 0, 0, .out, 0⟩

abbrev Trace := List (State × Act × State)

/-- The timer interrupts of a run. -/
def irqs (tr : Trace) : Nat := tr.countP fun e => e.2.1 = .irq

def Pc.isSetTicks : Pc → Bool
  | .setTicks _ => true
  | _ => false

/-- Those that come when `busy` is set and `ticks` is not yet. -/
def early (tr : Trace) : Nat := tr.countP fun e => e.2.1 = .irq ∧ e.1.pc.isSetTicks

/-- The part of a call before it waits. -/
def upToWait (tr : Trace) : Trace := tr.takeWhile fun e => e.1.pc ≠ .whileBusy

/-- A call `pit_delay(n)` from `s` that has come as far as `t`. -/
structure Call (s : State) (n : Nat) (tr : Trace) (t : State) : Prop where
  run : Run Step { s with pc := .checkBusy n } tr t
  inside : ∀ e ∈ tr, e.1.pc ≠ .out

/-- A whole call that returns 0. -/
def Returns (s : State) (n : Nat) (tr : Trace) : Prop :=
  ∃ t, Call s n tr t ∧ t.pc = .out ∧ t.ret = 0

theorem irqs_snoc (tr : Trace) (u v : State) (a : Act) :
    irqs (tr ++ [(u, a, v)]) = irqs tr + if a = .irq then 1 else 0 := by
  rw [irqs, List.countP_append, List.countP_singleton]
  simp [irqs]

theorem early_snoc (tr : Trace) (u v : State) (a : Act) :
    early (tr ++ [(u, a, v)]) = early tr + if a = .irq ∧ u.pc.isSetTicks then 1 else 0 := by
  rw [early, List.countP_append, List.countP_singleton]
  simp [early]

theorem upToWait_waiting {tr : Trace} {u v : State} {a : Act} (h : u.pc = .whileBusy) :
    upToWait (tr ++ [(u, a, v)]) = upToWait tr := by
  induction tr with
  | nil => simp [upToWait, h]
  | cons d tr ih =>
    simp only [upToWait, List.cons_append, List.takeWhile_cons] at ih ⊢
    rw [ih]

theorem upToWait_before {tr : Trace} {u v : State} {a : Act} (h : u.pc ≠ .whileBusy)
    (htr : upToWait tr = tr) : upToWait (tr ++ [(u, a, v)]) = tr ++ [(u, a, v)] := by
  simp only [upToWait] at htr
  simp only [upToWait, List.takeWhile_append, htr, if_true]
  simp [h]

theorem irqs_upToWait (tr : Trace) : irqs (upToWait tr) ≤ irqs tr :=
  (List.takeWhile_sublist _).countP_le

/-- `busy` is clear when no delay is in progress or one has just begun. -/
def Quiet (s : State) : Prop :=
  match s.pc with
  | .out | .checkBusy _ | .setBusy _ => s.busy = false
  | .setErrno | .returnErrno => False
  | .setTicks _ | .whileBusy => True

theorem Quiet.step {s t : State} {a : Act} (hq : Quiet s) (h : Step s a t) : Quiet t := by
  obtain ⟨busy, ticks, errno, pc, ret⟩ := s
  cases h with
  | call n h =>
    obtain rfl : pc = .out := h
    exact hq
  | stmt h =>
    cases pc with
    | out => exact absurd rfl h
    | checkBusy n =>
      obtain rfl : busy = false := hq
      rfl
    | setErrno => exact hq.elim
    | returnErrno => exact hq.elim
    | setBusy n => trivial
    | setTicks n => trivial
    | whileBusy =>
      cases busy with
      | false => rfl
      | true => trivial
  | irq =>
    unfold pitIrq
    cases pc <;> split <;> simp_all [Quiet]

theorem start_quiet {tr : Trace} {s : State} (h : Run Step start tr s) : Quiet s :=
  h.invariant (Q := fun _ _ => True) (fun _ _ _ hq _ => hq.step) rfl fun _ _ => trivial

/-- Where a call stands: what the early interrupts took off the ticks left from the delay
before, or that they were too many for them. -/
def Progress (s : State) (n : Nat) (tr : Trace) (t : State) : Prop :=
  match t.pc with
  | .checkBusy m | .setBusy m =>
    m = n ∧ upToWait tr = tr ∧ t.busy = false ∧ t.ticks = s.ticks ∧ early tr = 0
  | .setTicks m => m = n ∧ upToWait tr = tr ∧
    (t.busy = true ∧ early tr + t.ticks = s.ticks ∨ t.busy = false ∧ s.ticks < early tr)
  | .whileBusy => t.busy = true ∧ early (upToWait tr) ≤ s.ticks ∧ n ≤ t.ticks + irqs tr ∨
    t.busy = false ∧ (early (upToWait tr) ≤ s.ticks → n < irqs tr)
  | .out => (∃ e ∈ tr, e.1.pc = .whileBusy) ∧ (early (upToWait tr) ≤ s.ticks → n < irqs tr)
  | .setErrno | .returnErrno => False

theorem Progress.stmt {s t : State} {n : Nat} {tr : Trace} (h : Progress s n tr t)
    (hin : t.pc ≠ .out) : Progress s n (tr ++ [(t, .stmt, pitDelay t)]) (pitDelay t) := by
  obtain ⟨busy, ticks, errno, pc, ret⟩ := t
  cases pc with
  | out => exact absurd rfl hin
  | checkBusy m =>
    obtain ⟨rfl, htr, rfl, hticks, hearly⟩ := h
    exact ⟨rfl, upToWait_before (by simp) htr, rfl, hticks, by simpa [early_snoc] using hearly⟩
  | setErrno => exact h.elim
  | returnErrno => exact h.elim
  | setBusy m =>
    obtain ⟨rfl, htr, -, hticks, hearly⟩ := h
    refine ⟨rfl, upToWait_before (by simp) htr, Or.inl ⟨rfl, ?_⟩⟩
    simpa [pitDelay, early_snoc, hearly] using hticks
  | setTicks m =>
    obtain ⟨rfl, htr, hbusy⟩ := h
    have hearly : ∀ v, early (upToWait (tr ++ [(⟨busy, ticks, errno, .setTicks m, ret⟩, .stmt, v)])) =
        early tr := fun v => by
      rw [upToWait_before (by simp) htr, early_snoc]
      rfl
    rcases hbusy with ⟨rfl, hsum⟩ | ⟨rfl, hmore⟩
    · exact Or.inl ⟨rfl, by rw [hearly]; omega, Nat.le_add_right m _⟩
    · exact Or.inr ⟨rfl, fun hle => by rw [hearly] at hle; omega⟩
  | whileBusy =>
    have hwait : ∀ v, upToWait (tr ++ [(⟨busy, ticks, errno, .whileBusy, ret⟩, .stmt, v)]) =
        upToWait tr := fun v => upToWait_waiting rfl
    rcases h with ⟨rfl, hle, hn⟩ | ⟨rfl, hn⟩
    · exact Or.inl ⟨rfl, by rwa [hwait], by simpa [pitDelay, irqs_snoc] using hn⟩
    · refine ⟨⟨_, List.mem_append_right _ (List.mem_singleton_self _), rfl⟩, fun hle => ?_⟩
      rw [hwait] at hle
      simpa [irqs_snoc] using hn hle

theorem Progress.irq {s t : State} {n : Nat} {tr : Trace} (h : Progress s n tr t)
    (hin : t.pc ≠ .out) : Progress s n (tr ++ [(t, .irq, pitIrq t)]) (pitIrq t) := by
  obtain ⟨busy, ticks, errno, pc, ret⟩ := t
  cases pc with
  | out => exact absurd rfl hin
  | checkBusy m =>
    obtain ⟨rfl, htr, rfl, hticks, hearly⟩ := h
    exact ⟨rfl, upToWait_before (by simp) htr, rfl, hticks,
      by simpa [early_snoc, Pc.isSetTicks] using hearly⟩
  | setErrno => exact h.elim
  | returnErrno => exact h.elim
  | setBusy m =>
    obtain ⟨rfl, htr, rfl, hticks, hearly⟩ := h
    exact ⟨rfl, upToWait_before (by simp) htr, rfl, hticks,
      by simpa [early_snoc, Pc.isSetTicks] using hearly⟩
  | setTicks m =>
    obtain ⟨rfl, htr, hbusy⟩ := h
    simp only at hbusy
    have hearly : ∀ v, early (tr ++ [(⟨busy, ticks, errno, .setTicks m, ret⟩, .irq, v)]) =
        early tr + 1 := fun v => early_snoc _ _ _ _
    have hup := fun v => upToWait_before (u := ⟨busy, ticks, errno, .setTicks m, ret⟩) (v := v)
      (a := .irq) (by simp) htr
    rcases hbusy with ⟨rfl, hsum⟩ | ⟨rfl, hmore⟩
    · cases Nat.eq_zero_or_pos ticks with
      | inl heq =>
        obtain rfl := heq
        exact ⟨rfl, hup _, Or.inr ⟨rfl, by rw [hearly]; omega⟩⟩
      | inr hpos =>
        have hirq : pitIrq ⟨true, ticks, errno, .setTicks m, ret⟩ =
            ⟨true, ticks - 1, errno, .setTicks m, ret⟩ := if_pos ⟨rfl, hpos⟩
        rw [hirq]
        exact ⟨rfl, hup _, Or.inl ⟨rfl, by rw [hearly]; simp only; omega⟩⟩
    · exact ⟨rfl, hup _, Or.inr ⟨rfl, by rw [hearly]; omega⟩⟩
  | whileBusy =>
    have hwait : ∀ v, upToWait (tr ++ [(⟨busy, ticks, errno, .whileBusy, ret⟩, .irq, v)]) =
        upToWait tr := fun v => upToWait_waiting rfl
    have hmore : ∀ v, irqs (tr ++ [(⟨busy, ticks, errno, .whileBusy, ret⟩, .irq, v)]) =
        irqs tr + 1 := fun v => irqs_snoc _ _ _ _
    rcases h with ⟨rfl, hle, hn⟩ | ⟨rfl, hn⟩
    · cases Nat.eq_zero_or_pos ticks with
      | inl heq =>
        obtain rfl := heq
        exact Or.inr ⟨rfl, fun _ => by rw [hmore]; simp only at hn; omega⟩
      | inr hpos =>
        have hirq : pitIrq ⟨true, ticks, errno, .whileBusy, ret⟩ =
            ⟨true, ticks - 1, errno, .whileBusy, ret⟩ := if_pos ⟨rfl, hpos⟩
        rw [hirq]
        refine Or.inl ⟨rfl, by rwa [hwait], ?_⟩
        rw [hmore]
        simp only at hn ⊢
        omega
    · refine Or.inr ⟨rfl, fun hle => ?_⟩
      rw [hwait] at hle
      rw [hmore]
      exact Nat.lt_succ_of_lt (hn hle)

theorem Call.progress {s t : State} {n : Nat} {tr : Trace} (hq : s.busy = false)
    (h : Call s n tr t) : Progress s n tr t := by
  obtain ⟨hrun, hin⟩ := h
  induction hrun with
  | nil => exact ⟨rfl, rfl, hq, rfl, rfl⟩
  | snoc hr hst ih =>
    have hprog := ih fun e he => hin e (List.mem_append_left _ he)
    have hne := hin _ (List.mem_append_right _ (List.mem_singleton_self _))
    cases hst with
    | call n h => exact absurd h hne
    | stmt h => exact hprog.stmt hne
    | irq => exact hprog.irq hne

/-- After too many early interrupts the call may return as soon as it waits. -/
theorem Returns.shortest {s : State} {n : Nat} {tr : Trace} (hq : s.busy = false)
    (h : Returns s n tr) (hmore : s.ticks < early (upToWait tr)) :
    ∃ tr', Returns s n tr' ∧ upToWait tr' = upToWait tr ∧ irqs tr' = irqs (upToWait tr) := by
  obtain ⟨t, hcall, hout, -⟩ := h
  have hprog := hcall.progress hq
  rw [Progress, hout] at hprog
  obtain ⟨⟨e, he, hwait⟩, -⟩ := hprog
  have hcut : upToWait tr ++ tr.dropWhile (fun e => e.1.pc ≠ .whileBusy) = tr :=
    List.takeWhile_append_dropWhile
  cases hd : tr.dropWhile (fun e => e.1.pc ≠ .whileBusy) with
  | nil =>
    rw [hd, List.append_nil] at hcut
    have hall := List.mem_takeWhile_imp (hcut.symm ▸ he : e ∈ upToWait tr)
    exact absurd hwait (of_decide_eq_true hall)
  | cons d rest =>
    have hdw : d.1.pc = .whileBusy := by
      have hfirst := List.head?_dropWhile_not
        (fun e : State × Act × State => decide (e.1.pc ≠ .whileBusy)) tr
      rw [hd] at hfirst
      simpa using hfirst
    rw [hd] at hcut
    obtain ⟨u, hpre, hrest⟩ := Run.split (hcut.symm ▸ hcall.run)
    obtain ⟨rfl, -, -⟩ := hrest.uncons
    have hinpre : ∀ e ∈ upToWait tr, e.1.pc ≠ .out := fun e he =>
      hcall.inside e ((List.takeWhile_sublist _).mem he)
    have hpart := Call.progress hq ⟨hpre, hinpre⟩
    have hup : upToWait (upToWait tr) = upToWait tr := List.takeWhile_idem
    rw [Progress, hdw, hup] at hpart
    obtain ⟨-, hle, -⟩ | ⟨hbusy, -⟩ := hpart
    · omega
    have hexit : pitDelay d.1 = { d.1 with ret := 0, pc := .out } := by
      simp only [pitDelay, hdw, hbusy]
      rfl
    refine ⟨upToWait tr ++ [(d.1, .stmt, pitDelay d.1)], ⟨pitDelay d.1, ⟨?_, ?_⟩, ?_, ?_⟩, ?_, ?_⟩
    · exact .snoc hpre (.stmt (by simp [hdw]))
    · intro e he
      cases List.mem_append.mp he with
      | inl he => exact hinpre e he
      | inr he =>
        rw [List.mem_singleton.mp he]
        simp [hdw]
    · rw [hexit]
    · rw [hexit]
    · exact (upToWait_waiting hdw).trans hup
    · exact irqs_snoc _ _ _ _

/-- After earlier delays of any kind, all calls that go alike up to their wait and return 0 last
`n` interrupts exactly when the ticks left from before outlast the early interrupts, or the
call saw `n` interrupts before its wait. -/
theorem delay_lasts_iff {s : State} {n : Nat} {tr₀ tr : Trace} (hs : Run Step start tr₀ s)
    (hout : s.pc = .out) (h : Returns s n tr) :
    (∀ tr', Returns s n tr' → upToWait tr' = upToWait tr → n ≤ irqs tr') ↔
      early (upToWait tr) ≤ s.ticks ∨ n ≤ irqs (upToWait tr) := by
  have hq : s.busy = false := by
    have hquiet := start_quiet hs
    rwa [Quiet, hout] at hquiet
  constructor
  · intro hall
    cases Nat.lt_or_ge s.ticks (early (upToWait tr)) with
    | inl hmore =>
      obtain ⟨tr', hret, hup, hirqs⟩ := h.shortest hq hmore
      exact Or.inr (hirqs ▸ hall tr' hret hup)
    | inr hle => exact Or.inl hle
  · rintro (hle | hn) tr' ⟨t, hcall, hpc, -⟩ hup
    · have hprog := hcall.progress hq
      rw [Progress, hpc, hup] at hprog
      exact Nat.le_of_lt (hprog.2 hle)
    · exact Nat.le_trans hn (hup ▸ irqs_upToWait tr')

/-- A call that runs by a schedule of interrupts and statements. -/
def play : State → List Act → Trace × State
  | s, [] => ([], s)
  | s, a :: as =>
    let t := if a = .irq then pitIrq s else pitDelay s
    ((s, a, t) :: (play t as).1, (play t as).2)

theorem play_run {s : State} {as : List Act}
    (h : ∀ e ∈ (play s as).1, e.1.pc ≠ .out ∧ (e.2.1 = .stmt ∨ e.2.1 = .irq)) :
    Run Step s (play s as).1 (play s as).2 := by
  induction as generalizing s with
  | nil => exact .nil
  | cons a as ih =>
    obtain ⟨hpc, ha⟩ := h _ (List.mem_cons_self ..)
    refine Run.cons ?_ (ih fun e he => h e (List.mem_cons_of_mem _ he))
    cases ha with
    | inl heq =>
      obtain rfl := heq
      exact .stmt hpc
    | inr heq =>
      obtain rfl := heq
      exact .irq

/-- The call `pit_delay(2)` at boot, with an interrupt right after `busy=1`. -/
def hasty : Trace × State :=
  play { start with pc := .checkBusy 2 } [.stmt, .stmt, .irq, .stmt, .stmt]

theorem hasty_returns : Returns start 2 hasty.1 := by
  have h : ∀ e ∈ hasty.1, e.1.pc ≠ .out ∧ (e.2.1 = .stmt ∨ e.2.1 = .irq) := by decide
  exact ⟨hasty.2, ⟨play_run h, fun e he => (h e he).1⟩, rfl, rfl⟩

theorem delay_lasts_iff_hasty :
    (∀ tr', Returns start 2 tr' → upToWait tr' = upToWait hasty.1 → 2 ≤ irqs tr') ↔
      early (upToWait hasty.1) ≤ 0 ∨ 2 ≤ irqs (upToWait hasty.1) :=
  delay_lasts_iff .nil rfl hasty_returns

/-- It returns 0 after that one interrupt. -/
theorem delay_lasts_fails : ¬ ∀ s tr₀ n tr, Run Step start tr₀ s → s.pc = .out →
    Returns s n tr → n ≤ irqs tr := fun h =>
  absurd (h start [] 2 hasty.1 .nil rfl hasty_returns) (by decide)

end Foos.Pit
