import Foos.LineEditor
import Foos.Rendering
import Foos.RootDirectory

/-! `cat_file` and the round of `shell_main` that calls it, with the functions of `libc/output.c`
that print, and the part of `kernel_main` that loads the greeting. They run on memory, where the
command line, the file name in it and the file share one buffer. What prints returns the bytes
that it sends to the terminal. An access through a NULL inode, or behind the buffer, stops the
run. -/
namespace Foos.Cat
open Terminal Devices Program ByteMemory Word32 CString Fs Printf Vsprintf Libc

/-- `dev_write(DEV_TTY, …)` of a literal or a local variable. -/
def send (data : List UInt8) : Code Driver (List UInt8) := do
  let ptr ← read fun w => (w.devs DEV_TTY).data
  if ptr = 0 then diverge
  else do
    onConsole DEV_TTY fun s => ttyWrite s data
    pure data

/-- The characters of the string at `s`. -/
def stringAt (fuel s : Nat) : Code Driver (List UInt8) := update fun w =>
  (strlen fuel w.mem s).map fun n => ((List.range n).map fun i => w.mem (s + i), w)

def _puts (fuel : Nat) (S : System Driver) (s : Nat) : Code Driver (List UInt8) := do
  let data ← stringAt fuel s
  let _ ← devWrite S.devs DEV_TTY s data.length
  pure data

def putchar (c : UInt8) : Code Driver (List UInt8) := send [c]

def puts (fuel : Nat) (S : System Driver) (s : Nat) : Code Driver (List UInt8) := do
  let data ← _puts fuel S s
  let newline ← putchar 10
  pure (data ++ newline)

/-- `printf` of the string at `s` with a text behind it. -/
def printfStr (fuel s : Nat) (text : String) : Code Driver (List UInt8) := do
  let str ← stringAt fuel s
  send (textOf (.str (some str) :: (chars text).map .plain))

/-- `tty_read` of the current terminal. -/
def gets (buf : Nat) : Code Driver Nat := ttydevRead DEV_TTY buf 0 BUFSIZ

/-- An inode is used through its pointer. -/
def used (node : Nat) : Code Driver Unit := assert (node ≠ 0)

def catFile (fuel : Nat) (S : System Driver) (fsRoot buf ptr : Nat) :
    Code Driver (List UInt8) := do
  used fsRoot
  let file ← fsFinddir fuel S fsRoot ptr
  if file = 0 then printfStr fuel ptr ": No such file or directory\n"
  else do
    used file
    let bits ← ofMem fun m => flags m file
    if bits &&& FS_DIR ≠ 0 then printfStr fuel ptr ": Is a directory\n"
    else do
      let _ ← fsOpen S file 0
      let sz ← ofMem fun m => size m file
      let _ ← fsRead S file buf sz 0
      let out ← puts fuel S buf
      let _ ← fsClose S file
      pure out

/-- The line passes the tests of `shell_main` in front of `cat_file`. -/
def IsCat (line : List UInt8) : Prop :=
  line ≠ chars "exit" ∧ line.take 2 ≠ chars "ls" ∧ line.take 4 = chars "cat "

instance (line : List UInt8) : Decidable (IsCat line) := inferInstanceAs (Decidable (_ ∧ _ ∧ _))

/-- A round of the loop in `shell_main`, up to the end of a `cat` command or to the beginning of
any other. -/
def shellRound (fuel : Nat) (S : System Driver) (fsRoot buf : Nat) :
    Code Driver (Option (List UInt8)) := do
  let _ ← send (chars "> ")
  onMem fun m => memset m buf 0 BUFSIZ
  let _ ← gets buf
  let line ← stringAt fuel buf
  if IsCat line then do
    let out ← catFile fuel S fsRoot buf (buf + 4)
    pure (some out)
  else pure none

/-- `kernel_main` from the look-up of the greeting, whose name is at `name`, to its terminator. -/
def loadGreeting (fuel : Nat) (S : System Driver) (fsRoot buf name : Nat) : Code Driver Int := do
  used fsRoot
  let tmp ← fsFinddir fuel S fsRoot name
  used tmp
  let _ ← fsOpen S tmp 0
  let sz ← ofMem fun m => size m tmp
  let i ← fsRead S tmp buf sz 0
  let _ ← fsClose S tmp
  let sz ← ofMem fun m => size m tmp
  assert (sz < BUFSIZ)
  onMem fun m => store8 m (buf + sz) 0
  pure i

/- The line that is entered. -/

/-- The driver when the characters are on the screen. -/
def shown (d : Driver) (data : List UInt8) : Driver := { d with con := ttyWrite d.con data }

theorem shown_append (d : Driver) (a b : List UInt8) : shown (shown d a) b = shown d (a ++ b) := by
  simp only [shown, ttyWrite, List.foldl_append]

/-- At the prompt the user enters these characters, as the keys decode to, and ENTER. -/
def Entered (w : World Driver) (typed : List UInt8) : Prop :=
  ∃ s keys, (shown (w.driver DEV_TTY) (chars "> ")).wait = .line s keys ∧ s.tty.tmp = typed.length ∧
    bytes s.tty.buf typed.length = typed ∧ typed.length ≤ 511

/-- The C string that they are. -/
def lineOf (typed : List UInt8) : List UInt8 := typed.takeWhile fun c => c ≠ 0

/-- The file that a `cat` command for the typed characters prints. -/
def catTarget (files : List Header) (typed : List UInt8) : Option Header :=
  if IsCat (lineOf typed) then fileNamed files ((lineOf typed).drop 4) else none

theorem Entered.short {w : World Driver} {typed : List UInt8} (h : Entered w typed) :
    typed.length ≤ 511 := by
  obtain ⟨s, keys, -, -, -, hlen⟩ := h
  exact hlen

theorem ttyWrite_kbd (s : Console) (data : List UInt8) : (ttyWrite s data).tty.kbd = s.tty.kbd := by
  induction data generalizing s with
  | nil => rfl
  | cons c data ih => exact (ih (ttyWritechar s c)).trans (ttyWritechar_line s c).kbd

/-- What a line editor makes of the keys in front of the first ENTER is entered. -/
theorem entered_keys {w : World Driver} {keys rest : List UInt8}
    (hirq : (w.driver DEV_TTY).irq1 = true)
    (hflush : (w.driver DEV_TTY).con.tty.kbd.flush = false)
    (hkeys : (w.driver DEV_TTY).keys = keys ++ ENTER :: rest) (hfirst : ENTER ∉ keys)
    (hmake : ∀ k ∈ keys, isRelease k = false → k ≤ 0x3A)
    (hroom : ∀ pre, pre <+: keys →
      (pre.foldl Editor.key (Editor.start (w.driver DEV_TTY).con)).line.length ≤ 511) :
    Entered w (keys.foldl Editor.key (Editor.start (w.driver DEV_TTY).con)).line := by
  have hkbd := ttyWrite_kbd (w.driver DEV_TTY).con (chars "> ")
  have hstart : Editor.start (shown (w.driver DEV_TTY) (chars "> ")).con =
      Editor.start (w.driver DEV_TTY).con := by
    simp only [Editor.start, shown, hkbd]
  have hflush' : (shown (w.driver DEV_TTY) (chars "> ")).con.tty.kbd.flush = false := by
    rw [shown, hkbd]
    exact hflush
  have hfollows := follows_start hflush'
  rw [hstart] at hfollows
  obtain ⟨s, hwait, htmp, hbytes⟩ := hfollows.waits hfirst hmake hroom rest
  refine ⟨s, rest, ?_, htmp, hbytes, hroom keys (List.prefix_refl keys)⟩
  have hirq' : (shown (w.driver DEV_TTY) (chars "> ")).irq1 = true := hirq
  have hkeys' : (shown (w.driver DEV_TTY) (chars "> ")).keys = keys ++ ENTER :: rest := hkeys
  rw [Driver.wait, hirq', if_pos rfl, hkeys']
  exact hwait

/-- Nothing changes but the state of the drivers that is not in memory. -/
structure Shown (w t : World Driver) : Prop where
  mem : t.mem = w.mem
  devs : t.devs = w.devs
  fileBase : t.fileBase = w.fileBase

theorem Shown.trans {w t u : World Driver} (h : Shown w t) (h' : Shown t u) : Shown w u :=
  ⟨h'.mem.trans h.mem, h'.devs.trans h.devs, h'.fileBase.trans h.fileBase⟩

theorem Shown.keeps {w t : World Driver} (h : Shown w t) (held : List (Nat × Nat)) :
    Keeps held w t :=
  ⟨fun y _ => by rw [h.mem], fun no => by rw [h.devs], h.fileBase⟩

theorem keeps_of_frame {held : List (Nat × Nat)} {w t : World Driver} {a n : Nat}
    (hframe : Frame [(a, n)] w.mem t.mem) (happ : Apart held a n)
    (hdata : ∀ no, (t.devs no).data = (w.devs no).data) (hbase : t.fileBase = w.fileBase) :
    Keeps held w t := by
  refine ⟨fun y hy => hframe y ?_, hdata, hbase⟩
  obtain ⟨r, hr, h1, h2⟩ := not_outside.mp hy
  have hsep := happ r hr
  rw [outside_single]
  omega

section
variable {S : System Driver} {fuel a : Nat} {str : List UInt8} {w : World Driver}

theorem send_run (hopen : (w.devs DEV_TTY).data ≠ 0) (data : List UInt8) :
    ∃ t, send data w = .ret data t ∧ Shown w t ∧
      t.driver DEV_TTY = shown (w.driver DEV_TTY) data := by
  rw [send, read_bind_run, if_neg hopen]
  refine ⟨_, rfl, ⟨rfl, rfl, rfl⟩, ?_⟩
  show Function.update w.driver DEV_TTY (shown (w.driver DEV_TTY) data) DEV_TTY = _
  exact Function.update_self ..

theorem stringAt_run (h : Str w.mem a str) (hfuel : str.length < fuel)
    (hlen : str.length < 4294967295) : stringAt fuel a w = .ret str w := by
  refine update_run ?_
  rw [strlen_str h hlen hfuel, Option.map_some]
  refine congrArg (fun data => some (data, w)) (List.ext_getElem (by simp) fun i h1 h2 => ?_)
  rw [List.getElem_map, List.getElem_range]
  exact h.char (List.getElem?_eq_getElem h2)

theorem stringAt_cases (fuel a : Nat) (w : World Driver) :
    stringAt fuel a w = .spin w ∨ ∃ data, stringAt fuel a w = .ret data w := by
  cases h : strlen fuel w.mem a with
  | none =>
    refine Or.inl (update_spin ?_)
    rw [h]
    rfl
  | some n =>
    refine Or.inr ⟨(List.range n).map fun i => w.mem (a + i), update_run ?_⟩
    rw [h]
    rfl

theorem puts_shows (hS : S.devs[DEV_TTY]? = some (tty S.heap))
    (hopen : (w.devs DEV_TTY).data ≠ 0) (h : stringAt fuel a w = .ret str w) :
    ∃ t, puts fuel S a w = .ret (str ++ [10]) t ∧ Shown w t ∧
      t.driver DEV_TTY = shown (w.driver DEV_TTY) (str ++ [10]) := by
  have hstr : (List.range str.length).map (fun i => w.mem (a + i)) = str := by
    cases hn : strlen fuel w.mem a with
    | none =>
      have hspin : stringAt fuel a w = .spin w := update_spin (by rw [hn]; rfl)
      exact absurd (h.symm.trans hspin) nofun
    | some n =>
      have hrun : stringAt fuel a w = .ret ((List.range n).map fun i => w.mem (a + i)) w :=
        update_run (by rw [hn]; rfl)
      obtain ⟨hdata, -⟩ := Res.ret.inj (h.symm.trans hrun)
      rw [hdata, List.length_map, List.length_range]
  have hwrite : ∃ t, devWrite S.devs DEV_TTY a str.length w = .ret str.length t ∧ Shown w t ∧
      t.driver DEV_TTY = shown (w.driver DEV_TTY) str := by
    simp only [devWrite, hS, tty, ttydevWrite, read_bind_run, ofMem_bind_run, if_neg hopen, hstr]
    refine ⟨_, rfl, ⟨rfl, rfl, rfl⟩, ?_⟩
    show Function.update w.driver DEV_TTY (shown (w.driver DEV_TTY) str) DEV_TTY = _
    exact Function.update_self ..
  obtain ⟨t, hrun, ht, hd⟩ := hwrite
  obtain ⟨u, hsend, hu, hd'⟩ := send_run (w := t) (ht.devs ▸ hopen) [10]
  refine ⟨u, ?_, ht.trans hu, by rw [hd', hd, shown_append]⟩
  have hputs : _puts fuel S a w = .ret str t := by
    rw [_puts, bind_ret h, bind_ret hrun]
    rfl
  rw [puts, bind_ret hputs, putchar, bind_ret hsend]
  rfl

theorem puts_of_string (hS : S.devs[DEV_TTY]? = some (tty S.heap))
    (hopen : (w.devs DEV_TTY).data ≠ 0) (h : stringAt fuel a w = .ret str w) :
    ∃ t, puts fuel S a w = .ret (str ++ [10]) t ∧ Shown w t := by
  obtain ⟨t, hrun, ht, -⟩ := puts_shows hS hopen h
  exact ⟨t, hrun, ht⟩

/-- `puts` does not stop the run: it comes back, or `strlen` goes on without end. -/
theorem puts_cases (hS : S.devs[DEV_TTY]? = some (tty S.heap))
    (hopen : (w.devs DEV_TTY).data ≠ 0) (fuel a : Nat) :
    puts fuel S a w = .spin w ∨ ∃ out t, puts fuel S a w = .ret out t ∧ Shown w t := by
  cases stringAt_cases fuel a w with
  | inl hspin =>
    refine Or.inl ?_
    rw [puts, _puts]
    exact bind_spin (bind_spin hspin)
  | inr hret =>
    obtain ⟨data, hret⟩ := hret
    exact Or.inr ⟨_, puts_of_string hS hopen hret⟩

theorem textOf_plain (text : List UInt8) : textOf (text.map .plain) = text := by
  induction text with
  | nil => rfl
  | cons c text ih => exact congrArg (List.cons c) ih

/-- The string is printed, and the text behind it. -/
theorem printfStr_shows (hopen : (w.devs DEV_TTY).data ≠ 0) (h : Str w.mem a str)
    (hfuel : str.length < fuel) (hlen : str.length < 4294967295) (text : String) :
    ∃ t, printfStr fuel a text w = .ret (str ++ chars text) t ∧ Shown w t ∧
      t.driver DEV_TTY = shown (w.driver DEV_TTY) (str ++ chars text) := by
  have htext : textOf (.str (some str) :: (chars text).map .plain) = str ++ chars text :=
    congrArg (str ++ ·) (textOf_plain (chars text))
  obtain ⟨t, hrun, ht⟩ := send_run hopen (str ++ chars text)
  refine ⟨t, ?_, ht⟩
  rw [printfStr, bind_ret (stringAt_run h hfuel hlen), htext]
  exact hrun

theorem printfStr_run (hopen : (w.devs DEV_TTY).data ≠ 0) (h : Str w.mem a str)
    (hfuel : str.length < fuel) (hlen : str.length < 4294967295) (text : String) :
    ∃ t, printfStr fuel a text w = .ret (str ++ chars text) t ∧ Shown w t := by
  obtain ⟨t, hrun, ht, -⟩ := printfStr_shows hopen h hfuel hlen text
  exact ⟨t, hrun, ht⟩

theorem used_pass {node : Nat} (h : node ≠ 0) (w : World Driver) : used node w = .ret () w :=
  assert_pass (decide_eq_true h) w

theorem used_null (w : World Driver) : used 0 w = .halt w := rfl

end

/-- The line is in the buffer, which is zero behind it. -/
def Holds (m : Mem) (buf : Nat) (typed : List UInt8) : Prop :=
  ∀ k, k < BUFSIZ → m (buf + k) = typed.getD k 0

theorem Holds.str {m : Mem} {buf : Nat} {typed : List UInt8} (h : Holds m buf typed)
    (hlen : typed.length ≤ 511) : Str m buf (lineOf typed) :=
  .takeWhile fun t ht => h t (by simp only [BUFSIZ]; omega)

theorem lineOf_length (typed : List UInt8) : (lineOf typed).length ≤ typed.length :=
  (List.takeWhile_prefix _).length_le

/-- From the prompt on, up to what a round does with the line, only the buffer is filled. -/
theorem prompt_line (buf : Nat) {w : World Driver} {typed : List UInt8} (hline : Entered w typed)
    (hopen : (w.devs DEV_TTY).data ≠ 0) :
    ∃ v, (∀ {α : Type} (rest : Code Driver α), (send (chars "> ") >>= fun _ =>
        onMem (fun m => memset m buf 0 BUFSIZ) >>= fun _ => gets buf >>= fun _ => rest) w =
          rest v) ∧
      Holds v.mem buf typed ∧ Frame [(buf, BUFSIZ)] w.mem v.mem ∧ v.devs = w.devs ∧
      v.fileBase = w.fileBase := by
  obtain ⟨s, keys, hwait, htmp, hbytes, hlen⟩ := hline
  obtain ⟨t, hsend, ht, hdriver⟩ := send_run hopen (chars "> ")
  let t' := t.setMem (memset t.mem buf 0 BUFSIZ)
  have hopen' : (t'.devs DEV_TTY).data ≠ 0 := by
    rw [World.setMem_devs, ht.devs]
    exact hopen
  have hwait' : (t'.driver DEV_TTY).wait = .line s keys := by
    rw [World.setMem_driver, hdriver]
    exact hwait
  obtain ⟨v, hgets, hmem, -, hdevs, hbase⟩ :=
    ttydevRead_line t' buf 0 BUFSIZ hopen' hwait' htmp hlen
  rw [hbytes] at hmem
  have hholds : Holds v.mem buf typed := by
    intro k hk
    rw [hmem]
    by_cases hin : k < typed.length
    · rw [putBytes_at (List.getElem?_eq_getElem hin), List.getD_eq_getElem _ _ hin]
    · rw [List.getD_eq_default _ _ (Nat.le_of_not_lt hin)]
      refine (putBytes_frame _ _ _ _ ?_).trans (memset_inside (Nat.le_add_right _ _) (by omega))
      rw [outside_single]
      omega
  have hframe : Frame [(buf, BUFSIZ)] w.mem v.mem := by
    have hset : Frame [(buf, BUFSIZ)] w.mem t'.mem := by
      rw [← ht.mem]
      exact (Frame.refl _ t.mem).memset (Nat.le_refl buf) (Nat.le_refl _)
    rw [hmem]
    refine hset.trans ((putBytes_frame _ buf typed).mono fun y hy => ?_)
    rw [outside_single] at hy ⊢
    simp only [BUFSIZ] at hy
    omega
  refine ⟨v, fun rest => ?_, hholds, hframe, hdevs.trans ht.devs, hbase.trans ht.fileBase⟩
  rw [bind_ret hsend, onMem_bind_run, gets, bind_ret hgets]

/-- Up to the tests on the line, a round only fills the buffer. -/
theorem shellRound_line (S : System Driver) (fsRoot buf : Nat) {fuel : Nat} {w : World Driver}
    {typed : List UInt8} (hline : Entered w typed) (hopen : (w.devs DEV_TTY).data ≠ 0)
    (hfuel : BUFSIZ ≤ fuel) :
    ∃ v, shellRound fuel S fsRoot buf w =
        (if IsCat (lineOf typed) then
          catFile fuel S fsRoot buf (buf + 4) >>= fun out => pure (some out)
        else pure none) v ∧
      Holds v.mem buf typed ∧ Frame [(buf, BUFSIZ)] w.mem v.mem ∧ v.devs = w.devs ∧
      v.fileBase = w.fileBase := by
  obtain ⟨v, hrun, hholds, hkept⟩ := prompt_line buf hline hopen
  have hlen := hline.short
  have hle := lineOf_length typed
  have hstring : stringAt fuel buf v = .ret (lineOf typed) v :=
    stringAt_run (hholds.str hlen) (by simp only [BUFSIZ] at hfuel; omega) (by omega)
  exact ⟨v, (hrun _).trans (bind_ret hstring), hholds, hkept⟩

end Foos.Cat
