import Foos.Shell

/-! Command lines: what a line asks of the shell, and what the tests of `shell_main` take it for. -/
namespace Foos.CommandLine
open Printf

/-- The functions in the table `handlers`. -/
inductive Handler where
  | shellHelp
  | listDevs
  | checkFloppy
  | checkTime
  | checkMemory
  | testFsdev
  | testStrtok
  | testMalloc
  | triggerPf
  deriving DecidableEq

structure CmdHandler where
  cmd : String
  description : String
  handle : Option Handler

def handlers : List CmdHandler :=
  [⟨"help", "print this message", some .shellHelp⟩,
    ⟨"ls [FILE]", "list directory contents", none⟩,
    ⟨"cat [FILE]", "print out the contents of a file", none⟩,
    ⟨"devs", "list available FOOS devices", some .listDevs⟩,
    ⟨"floppy", "check floppy status", some .checkFloppy⟩,
    ⟨"time", "get the current time", some .checkTime⟩,
    ⟨"mem", "print the status of kernel heap", some .checkMemory⟩,
    ⟨"tty", "write `Hello world' to /dev/tty", some .testFsdev⟩,
    ⟨"tok", "test tokenizing strings", some .testStrtok⟩,
    ⟨"malloc", "test the efficiency of malloc()", some .testMalloc⟩,
    ⟨"fault", "trigger a page fault", some .triggerPf⟩,
    ⟨"exit", "quit the shell", none⟩]

/-- What the shell can do with a line. The path of the root is empty. -/
inductive Action where
  | quit
  | list (path : List UInt8)
  | print (name : List UInt8)
  | run (h : Handler)
  | noHandler (cmd : List UInt8)
  | nothing
  | unknown
  deriving DecidableEq

/-- The grammar of the command lines. -/
def Asks (line : List UInt8) : Action → Prop
  | .quit => line = chars "exit"
  | .list path => (line = chars "ls" ∧ path = []) ∨ line = chars "ls " ++ path
  | .print name => line = chars "cat " ++ name
  | .run h => ∃ e ∈ handlers, e.handle = some h ∧ line = chars e.cmd
  | .noHandler _ => False
  | .nothing => line = []
  | .unknown => line ≠ chars "exit" ∧ line ≠ chars "ls" ∧ ¬ chars "ls " <+: line ∧
      ¬ chars "cat " <+: line ∧ (∀ e ∈ handlers, line ≠ chars e.cmd) ∧ line ≠ []

/-- `if(handlers[i].handle)` -/
def CmdHandler.action (e : CmdHandler) : Action :=
  match e.handle with
  | some h => .run h
  | none => .noHandler (chars e.cmd)

/-- `for(i=0;i<nhandlers;i++)` and what follows it. -/
def searched (line : List UInt8) : Action :=
  match handlers.find? fun e => line = chars e.cmd with
  | some e => e.action
  | none => if line = [] then .nothing else .unknown

/-- What the tests of `shell_main` take the line for. -/
def taken (line : List UInt8) : Action :=
  if line = chars "exit" then .quit
  else if chars "ls" <+: line then .list (line.drop 3)
  else if chars "cat " <+: line then .print (line.drop 4)
  else searched line

/-- What the grammar takes it for. -/
def asked (line : List UInt8) : Action :=
  if line = chars "exit" then .quit
  else if line = chars "ls" then .list []
  else if chars "ls " <+: line then .list (line.drop 3)
  else if chars "cat " <+: line then .print (line.drop 4)
  else searched line

/-- The line does not begin with `ls`, or it is `ls`, or a blank follows. -/
def LsApart (line : List UInt8) : Prop :=
  ¬ chars "ls" <+: line ∨ line = chars "ls" ∨ chars "ls " <+: line

instance (line : List UInt8) : Decidable (LsApart line) :=
  inferInstanceAs (Decidable (_ ∨ _ ∨ _))

theorem chars_exit : chars "exit" = [101, 120, 105, 116] := by decide
theorem chars_ls : chars "ls" = [108, 115] := by decide
theorem chars_ls_blank : chars "ls " = [108, 115, 32] := by decide
theorem chars_cat : chars "cat " = [99, 97, 116, 32] := by decide

theorem take_ls (line : List UInt8) : line.take 2 = chars "ls" ↔ chars "ls" <+: line := by
  rw [List.prefix_iff_eq_take, eq_comm]
  rfl

theorem take_cat (line : List UInt8) : line.take 4 = chars "cat " ↔ chars "cat " <+: line := by
  rw [List.prefix_iff_eq_take, eq_comm]
  rfl

theorem handlers_length : handlers.length = 12 := rfl

variable {line : List UInt8} {a : Action}

theorem searched_found {e : CmdHandler}
    (h : handlers.find? (fun e => line = chars e.cmd) = some e) : searched line = e.action := by
  rw [searched, h]

theorem searched_end (h : handlers.find? (fun e => line = chars e.cmd) = none) :
    searched line = if line = [] then .nothing else .unknown := by
  rw [searched, h]

/-- The search ends at an entry of that name or behind the table. -/
theorem searched_cases (line : List UInt8) :
    (∃ e ∈ handlers, line = chars e.cmd ∧ searched line = e.action) ∨
    ((∀ e ∈ handlers, line ≠ chars e.cmd) ∧
      searched line = if line = [] then .nothing else .unknown) := by
  cases hfind : handlers.find? fun e => line = chars e.cmd with
  | some e =>
    exact Or.inl ⟨e, List.mem_of_find?_eq_some hfind, by simpa using List.find?_some hfind,
      searched_found hfind⟩
  | none =>
    exact Or.inr ⟨fun e he => by simpa using List.find?_eq_none.mp hfind e he, searched_end hfind⟩

/-- The commands without a function have been tested for before the search. -/
theorem handlers_null : ∀ e ∈ handlers, e.handle = none →
    chars "ls " <+: chars e.cmd ∨ chars "cat " <+: chars e.cmd ∨ e.cmd = "exit" := by
  decide

/-- Every function of the table is asked for by its name. -/
theorem asked_handler : ∀ e ∈ handlers, ∀ h, e.handle = some h → asked (chars e.cmd) = .run h := by
  decide

/-- A line asks for one thing at most. -/
theorem Asks.eq_asked (h : Asks line a) : a = asked line := by
  cases a with
  | quit => exact (if_pos h).symm
  | list path =>
    cases h with
    | inl hls =>
      obtain ⟨rfl, rfl⟩ := hls
      decide
    | inr hls =>
      subst hls
      rw [asked, if_neg (by simp [chars_ls_blank, chars_exit]),
        if_neg (by simp [chars_ls_blank, chars_ls]), if_pos (List.prefix_append ..)]
      rfl
  | print name =>
    have hline : line = chars "cat " ++ name := h
    subst hline
    rw [asked, if_neg (by simp [chars_cat, chars_exit]), if_neg (by simp [chars_cat, chars_ls]),
      if_neg (by simp [chars_cat, chars_ls_blank]), if_pos (List.prefix_append ..)]
    rfl
  | run f =>
    obtain ⟨e, he, hf, rfl⟩ := h
    exact (asked_handler e he f hf).symm
  | noHandler cmd => exact h.elim
  | nothing =>
    obtain rfl : line = [] := h
    decide
  | unknown =>
    obtain ⟨hexit, hls, hblank, hcat, hnone, hne⟩ := h
    rw [asked, if_neg hexit, if_neg hls, if_neg hblank, if_neg hcat]
    cases searched_cases line with
    | inl hfound =>
      obtain ⟨e, he, hline, -⟩ := hfound
      exact absurd hline (hnone e he)
    | inr hend => rw [hend.2, if_neg hne]

/-- A line that begins otherwise than `exit`, `ls ` and `cat ` asks for what the search finds. -/
theorem asks_searched (hexit : line ≠ chars "exit") (hls : line ≠ chars "ls")
    (hblank : ¬ chars "ls " <+: line) (hcat : ¬ chars "cat " <+: line) :
    Asks line (searched line) := by
  cases searched_cases line with
  | inl hfound =>
    obtain ⟨e, he, hline, hrun⟩ := hfound
    rw [hrun, CmdHandler.action]
    cases hhandle : e.handle with
    | some h => exact ⟨e, he, hhandle, hline⟩
    | none =>
      cases handlers_null e he hhandle with
      | inl h => exact absurd (hline ▸ h) hblank
      | inr h =>
        cases h with
        | inl h => exact absurd (hline ▸ h) hcat
        | inr h => exact absurd (h ▸ hline) hexit
  | inr hend =>
    rw [hend.2]
    by_cases hnil : line = []
    · rw [if_pos hnil]
      exact hnil
    · rw [if_neg hnil]
      exact ⟨hexit, hls, hblank, hcat, hend.1, hnil⟩

/-- Every line asks for something. -/
theorem asks_asked (line : List UInt8) : Asks line (asked line) := by
  by_cases hexit : line = chars "exit"
  · rw [asked, if_pos hexit]
    exact hexit
  by_cases hls : line = chars "ls"
  · rw [asked, if_neg hexit, if_pos hls]
    exact Or.inl ⟨hls, rfl⟩
  by_cases hblank : chars "ls " <+: line
  · rw [asked, if_neg hexit, if_neg hls, if_pos hblank]
    obtain ⟨path, rfl⟩ := hblank
    exact Or.inr rfl
  by_cases hcat : chars "cat " <+: line
  · rw [asked, if_neg hexit, if_neg hls, if_neg hblank, if_pos hcat]
    obtain ⟨name, rfl⟩ := hcat
    rfl
  rw [asked, if_neg hexit, if_neg hls, if_neg hblank, if_neg hcat]
  exact asks_searched hexit hls hblank hcat

theorem asks_iff : Asks line a ↔ asked line = a :=
  ⟨fun h => h.eq_asked.symm, fun h => h ▸ asks_asked line⟩

/-- What the search finds takes no argument. -/
theorem searched_plain (line arg : List UInt8) :
    searched line ≠ .list arg ∧ searched line ≠ .print arg := by
  cases searched_cases line with
  | inl hfound =>
    obtain ⟨e, -, -, hrun⟩ := hfound
    rw [hrun, CmdHandler.action]
    cases e.handle <;> exact ⟨nofun, nofun⟩
  | inr hend =>
    rw [hend.2]
    split <;> exact ⟨nofun, nofun⟩

/-- The tests of the shell take a line for what it asks exactly when `ls` stands apart. -/
theorem taken_asked_iff : taken line = asked line ↔ LsApart line := by
  by_cases hls : chars "ls" <+: line
  · have hexit : line ≠ chars "exit" := by
      intro h
      rw [h] at hls
      revert hls
      decide
    rw [LsApart, taken, asked, if_neg hexit, if_neg hexit, if_pos hls]
    by_cases heq : line = chars "ls"
    · rw [if_pos heq, heq]
      decide
    by_cases hblank : chars "ls " <+: line
    · rw [if_neg heq, if_pos hblank]
      exact iff_of_true rfl (Or.inr (Or.inr hblank))
    have hcat : ¬ chars "cat " <+: line := by
      obtain ⟨rest, rfl⟩ := hls
      simp [chars_cat, chars_ls]
    rw [if_neg heq, if_neg hblank, if_neg hcat]
    exact iff_of_false (searched_plain line _).1.symm (by simp [hls, heq, hblank])
  · have heq : line ≠ chars "ls" := fun h => hls (h ▸ List.prefix_refl _)
    have hblank : ¬ chars "ls " <+: line := fun h => hls (.trans (by decide) h)
    rw [taken, asked, if_neg hls, if_neg heq, if_neg hblank]
    exact iff_of_true rfl (Or.inl hls)

/-- The shell does exactly what is asked, for every thing it can do, when `ls` stands apart. -/
theorem taken_asks_iff : (∀ a, taken line = a ↔ Asks line a) ↔ LsApart line := by
  rw [← taken_asked_iff]
  constructor
  · intro h
    exact (asks_iff.mp ((h _).mp rfl)).symm
  · intro h a
    rw [h, asks_iff]

/- The formatted prints of the actions. -/

section
open Shell
variable {δ : Type} (M : Machine) (t : Shell.Tree δ)

def Handler.calls : Handler → List Call
  | .shellHelp => Shell.shellHelp
  | .listDevs => Shell.listDevs t
  | .checkFloppy => []
  | .checkTime => Shell.checkTime M
  | .checkMemory => Shell.checkMemory M
  | .testFsdev => Shell.testFsdev M t
  | .testStrtok => Shell.testStrtok
  | .testMalloc => Shell.testMalloc M
  | .triggerPf => Shell.triggerPf M

def Action.calls (line : List UInt8) : Action → List Call
  | .quit => []
  | .list path =>
    if path = [] then listDirectory t t.root
    else (fsLookup M t path).2 ++ listDirectory t (fsLookup M t path).1
  | .print name => catFile M t name
  | .run h => h.calls M t
  | .noHandler cmd => [printf "No handler found for `%s'\n" [.str (some cmd)]]
  | .nothing => []
  | .unknown => [printf "%s: Unknown command\n" [.str (some line)]]

theorem handlers_shell : Shell.handlers δ = handlers.map fun e =>
    ⟨e.cmd, e.description, e.handle.map fun h M t => h.calls M t⟩ := rfl

/-- The loop over the table prints what the search finds. -/
theorem dispatch_searched (line : List UInt8) :
    dispatch M t line = (searched line).calls M t line := by
  rw [dispatch, handlers_shell, List.find?_map]
  simp only [Function.comp_def]
  cases hfind : handlers.find? fun e => line = chars e.cmd with
  | none =>
    rw [searched_end hfind]
    by_cases hnil : line = []
    · simp only [Option.map_none, if_pos hnil, Action.calls]
    · simp only [Option.map_none, if_neg hnil, Action.calls]
  | some e =>
    rw [searched_found hfind]
    cases hhandle : e.handle with
    | some h => simp only [Option.map_some, CmdHandler.action, hhandle, Action.calls]
    | none => simp only [Option.map_some, Option.map_none, CmdHandler.action, hhandle, Action.calls]

/-- The prints of a round are those of the action that the line is taken for. -/
theorem shellMain_taken (line : List UInt8) :
    shellMain M t line = (taken line).calls M t line := by
  simp only [shellMain, taken, take_ls, take_cat, dispatch_searched, ← List.drop_eq_nil_iff]
  by_cases hexit : line = chars "exit"
  · rw [if_pos hexit, if_pos hexit, Action.calls]
  by_cases hlist : chars "ls" <+: line
  · rw [if_neg hexit, if_neg hexit, if_pos hlist, if_pos hlist, Action.calls]
  by_cases hprint : chars "cat " <+: line
  · rw [if_neg hexit, if_neg hexit, if_neg hlist, if_neg hlist, if_pos hprint, if_pos hprint,
      Action.calls]
  rw [if_neg hexit, if_neg hexit, if_neg hlist, if_neg hlist, if_neg hprint, if_neg hprint]

end

end Foos.CommandLine
