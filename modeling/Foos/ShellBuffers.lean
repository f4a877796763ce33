import Foos.OpenClose
import Foos.Shell

/-! Which command lines the shell can echo through the buffers of its formatted prints. -/
namespace Foos.Shell
open Fs Printf

/-- Each of the calls stays in its buffer. -/
def AllFit (cs : List Call) : Prop := ∀ c ∈ cs, c.Fits

theorem AllFit.nil : AllFit [] := nofun

theorem AllFit.cons {c : Call} {cs : List Call} (hc : c.Fits) (hcs : AllFit cs) :
    AllFit (c :: cs) := List.forall_mem_cons.mpr ⟨hc, hcs⟩

theorem AllFit.append {cs ds : List Call} (hcs : AllFit cs) (hds : AllFit ds) :
    AllFit (cs ++ ds) := List.forall_mem_append.mpr ⟨hcs, hds⟩

theorem AllFit.map {α : Type} {f : α → Call} {l : List α} (h : ∀ a ∈ l, (f a).Fits) :
    AllFit (l.map f) := List.forall_mem_map.mpr h

theorem AllFit.single {c : Call} : AllFit [c] ↔ c.Fits := List.forall_mem_singleton

theorem allocated_fits (fresh : List UInt32) : AllFit (allocated fresh) :=
  .map fun data _ => word_fits data (by simp [chars])

theorem released_fits (size : UInt32) : (released size).Fits :=
  word_fits size (by simp [chars])

theorem doBlock_fits (blocks : List (UInt32 × UInt32 × UInt32)) : AllFit (doBlock blocks) :=
  .map fun _ _ => printf_fits (by simp [chars]) (by simp)

theorem doStackTrace_fits (frames : List UInt32) : AllFit (doStackTrace frames) :=
  .map fun eip _ => word_fits eip (by simp [chars])

theorem choice_length {p : Prop} [Decidable p] {s t : List UInt8} {n : Nat}
    (hs : s.length ≤ n) (ht : t.length ≤ n) : (if p then s else t).length ≤ n := by
  split
  · exact hs
  · exact ht

theorem pageFault_fits (regs : Registers) (addr : UInt32) (frames : List UInt32) :
    AllFit (pageFault regs addr frames) := by
  refine .cons ?_ (.append ?_ (doStackTrace_fits frames))
  · have hwrite := choice_length (p := regs.errCode &&& 0x2 ≠ 0) (s := chars "writing")
      (t := chars "reading") (n := 16) (by decide) (by decide)
    have hpresent := choice_length (p := regs.errCode &&& 0x1 ≠ 0) (s := [])
      (t := chars " non-present") (n := 16) (by decide) (by decide)
    refine printf_fits (by simp [chars]) ?_
    simp only [widths_cons, widths_nil, Arg.width, Option.getD_some]
    omega
  · split
    · exact AllFit.single.mpr (printf_fits (by simp [chars]) (by simp))
    · exact .nil

theorem Interrupt.calls_fit (i : Interrupt) : AllFit i.calls := by
  cases i with
  | capsLock enabled =>
    exact AllFit.single.mpr (str_fits (by simp [chars])
      (choice_length (by decide) (by decide)))
  | unhandled regs =>
    refine AllFit.single.mpr (word_fits regs.intNo ?_)
    simp [chars]
  | generalProtection regs =>
    refine .cons (word_fits regs.errCode ?_) (.cons (word_fits regs.esp ?_)
      (.cons (word_fits regs.eip ?_) (.cons (word_fits regs.ds ?_) .nil)))
    all_goals simp [chars]
  | pageFault regs addr frames => exact pageFault_fits regs addr frames

theorem checkMemory_fits (M : Machine) : AllFit (checkMemory M) :=
  .cons (word_fits _ (by simp [chars])) (doBlock_fits M.blocks)

theorem checkTime_fits (M : Machine) : AllFit (checkTime M) :=
  AllFit.single.mpr (printf_fits (by simp [chars]) (by simp))

theorem testStrtok_fits : AllFit testStrtok :=
  AllFit.single.mpr (printf_fits (by simp [chars]) (by decide))

theorem testMalloc_fits (M : Machine) : AllFit (testMalloc M) := by
  refine .append (.append (.append (allocated_fits _) ?_) (allocated_fits _)) ?_
  · refine .cons (word_fits _ ?_) (.cons (released_fits _) (.cons (word_fits _ ?_) .nil))
    all_goals simp [chars]
  · refine .cons (word_fits _ ?_) (.cons (released_fits _) .nil)
    simp [chars]

/-- The texts of the table fit their fields, the description without its NUL. -/
theorem handlersOf_short (help : Machine → Tree δ → List Call) :
    ∀ h ∈ handlersOf help, (chars h.cmd).length < 16 ∧ (chars h.description).length ≤ 32 := by
  simp [handlersOf, chars]

theorem shellHelp_fits : AllFit shellHelp := by
  refine .map fun h hh => printf_fits (by simp [chars]) ?_
  have hshort := handlersOf_short _ h hh
  simp only [widths_cons, widths_nil, Arg.width, Option.getD_some]
  omega

theorem fsLookup_fits (M : Machine) (t : Tree δ) (path : List UInt8) :
    AllFit (fsLookup M t path).2 :=
  .append (allocated_fits _) (.cons (released_fits _) .nil)

theorem fsOpen_fits (M : Machine) (file : Node) : AllFit (fsOpen M file) := by
  unfold fsOpen
  split
  · exact allocated_fits _
  · exact .nil

theorem devClose_fits (M : Machine) (devs : List (Device δ)) (no : Nat) :
    AllFit (devClose M devs no) := by
  unfold devClose
  split
  · exact .nil
  · rename_i ptr _
    have hshort := ptr.short
    split
    · refine .cons (str_fits ?_ (by omega)) (.map fun size _ => released_fits size)
      simp [chars]
    · refine AllFit.single.mpr (str_fits ?_ (by omega))
      simp [chars]

theorem fsClose_fits (M : Machine) (devs : List (Device δ)) (file : Node) :
    AllFit (fsClose M devs file) := by
  unfold fsClose
  split
  · exact devClose_fits M devs _
  · exact .nil

theorem listEntry_fits (t : Tree δ) (dir : Nat) (name : List UInt8) :
    (listEntry t dir name).Fits := by
  have htype : ∀ i, (Arg.str (fileType.get i)).width ≤ 7 := by decide
  have hwidth := htype ⟨(t.node (child t.dir dir name)).flags &&& 0xF, t.typed _⟩
  have hname := (t.node (child t.dir dir name)).name.short
  refine printf_fits (by simp [chars]) ?_
  simp only [widths_cons, widths_nil]
  simp only [Arg.width, Option.getD_some] at hwidth ⊢
  omega

theorem listDirectory_fits (t : Tree δ) (dir : Nat) : AllFit (listDirectory t dir) := by
  have hname := (t.node dir).name.short
  simp only [listDirectory]
  split_ifs
  · exact .nil
  · refine AllFit.single.mpr (str_fits ?_ (by omega))
    simp [chars]
  · refine .cons (printf_fits (by simp [chars]) ?_)
      (.map fun ent _ => listEntry_fits t dir ent.1)
    simp
    omega

theorem Tree.entry_short (t : Tree δ) (x : Nat) :
    ∀ e ∈ (t.dir x).getD [], e.1.length < 32 := by
  cases hd : t.dir x with
  | none => nofun
  | some es =>
    intro e he
    rw [t.named x es hd e he]
    exact (t.node e.2).name.short

theorem listDevs_fits (t : Tree δ) : AllFit (listDevs t) := by
  intro c hc
  obtain ⟨i, hi, rfl⟩ := List.mem_mapIdx.mp hc
  have hname := t.entry_short _ _ (List.getElem_mem hi)
  refine printf_fits (by simp [chars]) ?_
  simp
  omega

/-- The handlers in the table do not see the line. -/
theorem handlers_fit (M : Machine) (t : Tree δ) :
    ∀ h ∈ handlers δ, ∀ f, h.handle = some f → AllFit (f M t) := by
  simp only [handlers, handlersOf, List.forall_mem_cons, Option.some.injEq, forall_eq']
  simpa using ⟨shellHelp_fits, listDevs_fits t, AllFit.nil, checkTime_fits M, checkMemory_fits M,
    fsLookup_fits M t _, testStrtok_fits, testMalloc_fits M, pageFault_fits _ _ _⟩

/-- An entry of the root is found by its own name, which is short. -/
theorem Tree.child_short (t : Tree δ) {x : Nat} {name : List UInt8}
    (h : child t.dir x name ≠ 0) : name.length < 32 := by
  unfold child at h
  cases hd : t.dir x with
  | none => simp [hd] at h
  | some es =>
    cases hf : es.find? fun e => e.1 == name with
    | none => simp [hd, hf] at h
    | some e =>
      have heq : e.1 = name := by simpa using List.find?_some hf
      rw [← heq, t.named x es hd e (List.mem_of_find?_eq_some hf)]
      exact (t.node e.2).name.short

theorem notFound_fits (s : List UInt8) :
    (printf "%s: No such file or directory\n" [.str (some s)]).Fits ↔ s.length ≤ 483 := by
  have h := fits_echo (chars ": No such file or directory\n") (by decide) s
  rw [show BUFSIZ = 512 from rfl,
    show (chars ": No such file or directory\n").length = 28 by decide] at h
  exact h.trans (by omega)

theorem unknown_fits (s : List UInt8) :
    (printf "%s: Unknown command\n" [.str (some s)]).Fits ↔ s.length ≤ 493 := by
  have h := fits_echo (chars ": Unknown command\n") (by decide) s
  rw [show BUFSIZ = 512 from rfl, show (chars ": Unknown command\n").length = 18 by decide] at h
  exact h.trans (by omega)

/-- Only a name that no entry has can be too long to be echoed. -/
theorem catFile_fits_iff (M : Machine) (t : Tree δ) (ptr : List UInt8) :
    AllFit (catFile M t ptr) ↔ ptr.length ≤ 483 := by
  simp only [catFile]
  by_cases hfile : child t.dir t.root ptr = 0
  · rw [if_pos hfile, AllFit.single, notFound_fits]
  · have hshort := t.child_short hfile
    rw [if_neg hfile]
    refine iff_of_true ?_ (by omega)
    split
    · refine AllFit.single.mpr (str_fits ?_ (by omega))
      simp [chars]
    · exact .append (fsOpen_fits M _) (fsClose_fits M _ _)

/-- Lines whose echo fits: a path after `ls` is not echoed, and the texts behind the name of a
missing file and behind an unknown command have 28 and 18 characters. -/
def EchoFits (buf : List UInt8) : Prop :=
  if buf.take 2 = chars "ls" then True
  else if buf.take 4 = chars "cat " then buf.length ≤ 487
  else buf.length ≤ 493

/-- A line that a handler knows is short. -/
theorem dispatch_fits_iff (M : Machine) (t : Tree δ) (buf : List UInt8) :
    AllFit (dispatch M t buf) ↔ buf.length ≤ 493 := by
  unfold dispatch
  split
  · rename_i h hf
    have hmem := List.mem_of_find?_eq_some hf
    have hshort := (handlersOf_short _ h hmem).1
    have hbuf : buf = chars h.cmd := by simpa using List.find?_some hf
    refine iff_of_true ?_ (by rw [hbuf]; omega)
    split
    · exact handlers_fit M t h hmem _ ‹_›
    · refine AllFit.single.mpr (str_fits ?_ (by omega))
      simp [chars]
  · by_cases hnil : buf = []
    · rw [if_pos hnil, hnil]
      exact iff_of_true .nil (Nat.zero_le _)
    · rw [if_neg hnil, AllFit.single, unknown_fits]

theorem shellMain_fits_iff (M : Machine) (t : Tree δ) (buf : List UInt8) :
    AllFit (shellMain M t buf) ↔ EchoFits buf := by
  unfold shellMain EchoFits
  by_cases hexit : buf = chars "exit"
  · rw [if_pos hexit, hexit]
    exact iff_of_true .nil (by decide)
  rw [if_neg hexit]
  split_ifs
  · exact iff_of_true (listDirectory_fits t _) trivial
  · exact iff_of_true (.append (fsLookup_fits M t _) (listDirectory_fits t _)) trivial
  · rw [catFile_fits_iff, List.length_drop]
    omega
  · exact dispatch_fits_iff M t buf

/-- The prints that are made while the shell executes a line stay in their buffers exactly when
the echo of the line does. -/
theorem vsprintf_fits_iff (M : Machine) (t : Tree δ) (buf : Text 512) :
    (∀ c, Makes M t buf.chars c → c.Fits) ↔ EchoFits buf.chars := by
  rw [← shellMain_fits_iff M t]
  refine ⟨fun h c hc => h c (Or.inl hc), fun h c hc => ?_⟩
  rcases hc with hc | ⟨i, -, hi⟩
  · exact h c hc
  · exact i.calls_fit c hi

/-- A root with nothing but the `dev` of the two devices. -/
def bareTree : Tree Unit where
  devs := kernel.devs
  dir x := if x = 1 then some [(chars "dev", 2)]
    else if x = 2 then some [(chars "tty", 3), (chars "ramdisk", 4)] else none
  root := 1
  node x :=
    if x = 2 then
      ⟨⟨chars "dev", by decide, CString.chars_of_all (by decide)⟩, FS_DIR, 0, 0, 2⟩
    else if x = 3 then
      ⟨⟨chars "tty", by decide, CString.chars_of_all (by decide)⟩, FS_CHAR, 0, 0, 0⟩
    else if x = 4 then
      ⟨⟨chars "ramdisk", by decide, CString.chars_of_all (by decide)⟩, FS_CHAR, 0, 0, 1⟩
    else ⟨⟨chars "ramdisk", by decide, CString.chars_of_all (by decide)⟩, FS_DIR, 0, 0, 1⟩
  named x es h := by
    split_ifs at h <;> cases h <;> simp
  count x es h := by
    split_ifs at h with h1 h2
    · cases h
      subst h1
      rfl
    · cases h
      subst h2
      rfl
  typed x := by split_ifs <;> decide
  device x h := by
    split_ifs at h ⊢
    · exact absurd h (by decide)
    · decide
    · decide
    · exact absurd h (by decide)
  dev := by decide +kernel

/-- No block is announced, nothing fails. -/
def quiet : Machine :=
  ⟨fun _ => 0, fun _ => ⟨[], 0⟩, fun _ => 0, [], [], [], ⟨0, 0, 0, 0, 0⟩, [], []⟩

/-- A line of 494 characters. -/
def longWord : Text 512 :=
  ⟨List.replicate 494 97, List.length_replicate.trans_lt (by decide),
    fun c hc => by rw [List.eq_of_mem_replicate hc]; decide⟩

theorem vsprintf_fits_fails : ¬ ∀ c, Makes quiet bareTree longWord.chars c → c.Fits := by
  intro h
  have hfit := (shellMain_fits_iff quiet bareTree longWord.chars).mp fun c hc => h c (Or.inl hc)
  rw [longWord, EchoFits, if_neg (by rw [List.take_replicate]; decide),
    if_neg (by rw [List.take_replicate]; decide), List.length_replicate] at hfit
  omega

end Foos.Shell
