import Foos.CatRuns

/-! What `cat` prints of a file that is shorter than the buffer: its content, and behind it the
rest of a command line that is longer than the file. -/
namespace Foos.Cat
open Terminal Devices Program ByteMemory Word32 CString Fs Printf Kmalloc Transition

/-- The bytes of the file in the image. -/
structure Contains (m : Mem) (img N n : Nat) (f : Header) (content : List UInt8) : Prop where
  size : f.size = content.length
  inside : fileBase n + f.offset + content.length ≤ N
  byte : ∀ t (h : t < content.length), m (img + fileBase n + f.offset + t) = content[t]

/-- The characters of the command that prints a file. -/
def catLine (name : List UInt8) : List UInt8 := chars "cat " ++ name

theorem catLine_length (name : List UInt8) : (catLine name).length = 4 + name.length := by
  rw [catLine, List.length_append]
  rfl

theorem catLine_chars {name : List UInt8} (h : ∀ c ∈ name, c ≠ 0) : ∀ c ∈ catLine name, c ≠ 0 := by
  intro c hc
  cases List.mem_append.mp hc with
  | inl hcat => exact chars_of_all (by decide) c hcat
  | inr hname => exact h c hname

theorem lineOf_self {typed : List UInt8} (h : ∀ c ∈ typed, c ≠ 0) : lineOf typed = typed :=
  List.takeWhile_eq_self_iff.mpr fun c hc => by simp [h c hc]

theorem catLine_isCat (name : List UInt8) : IsCat (catLine name) := by
  have hcat : chars "cat " = [99, 97, 116, 32] := by decide
  have hls : chars "ls" = [108, 115] := by decide
  have hexit : chars "exit" = [101, 120, 105, 116] := by decide
  rw [IsCat, catLine, hcat, hls, hexit]
  simp

section
variable {S : System Driver} {files : List Header} {root p rd img N fuel buf : Nat}
  {w w' : World Driver} {f : Header} {content typed : List UInt8}

theorem Contains.congr {m m' : Mem} {n : Nat} (h : Contains m img N n f content)
    (hm : ∀ y, img ≤ y → y < img + N → m' y = m y) : Contains m' img N n f content := by
  refine ⟨h.size, h.inside, fun t ht => ?_⟩
  have hin := h.inside
  rw [← h.byte t ht]
  exact hm _ (by omega) (by omega)

theorem Contains.keeps (h : Contains w.mem img N files.length f content)
    (hk : Keeps (heldBy root p files.length rd img N) w w') :
    Contains w'.mem img N files.length f content :=
  h.congr fun y h1 h2 => hk.mem y (not_outside.mpr ⟨(img, N), by simp [heldBy], h1, h2⟩)

/-- The content of the file covers the beginning of the line. -/
theorem overlay_byte {m : Mem} {src : Nat} (hholds : Holds m buf typed)
    (htlen : typed.length < BUFSIZ) (hclen : content.length < BUFSIZ)
    (hsrc : ∀ k (h : k < content.length), m (src + k) = content[k])
    (happ : buf + content.length ≤ src ∨ src + content.length ≤ buf) {k : Nat}
    (hk : k ≤ (content ++ typed.drop content.length).length) :
    memcpy m buf src content.length (buf + k) =
      (content ++ typed.drop content.length).getD k 0 := by
  rw [List.length_append, List.length_drop] at hk
  by_cases hlt : k < content.length
  · rw [memcpy_copied happ hlt, hsrc k hlt, List.getD_append _ _ _ _ hlt,
      List.getD_eq_getElem _ _ hlt]
  · have hout : Outside [(buf, content.length)] (buf + k) := by
      rw [outside_single]
      omega
    have hback : content.length + (k - content.length) = k := by omega
    rw [memcpy_frame _ _ _ _ _ hout, hholds k (by omega), List.getD_append_right _ _ _ _
      (Nat.le_of_not_lt hlt), List.getD_eq_getElem?_getD, List.getD_eq_getElem?_getD,
      List.getElem?_drop, hback]

theorem overlay_str {m : Mem} {src : Nat} (hholds : Holds m buf typed)
    (htyped : ∀ c ∈ typed, c ≠ 0) (htlen : typed.length < BUFSIZ)
    (hcontent : ∀ c ∈ content, c ≠ 0) (hclen : content.length < BUFSIZ)
    (hsrc : ∀ k (h : k < content.length), m (src + k) = content[k])
    (happ : buf + content.length ≤ src ∨ src + content.length ≤ buf) :
    Str (memcpy m buf src content.length) buf (content ++ typed.drop content.length) := by
  refine .of_getD (fun c hc => ?_) fun k hk => overlay_byte hholds htlen hclen hsrc happ hk
  cases List.mem_append.mp hc with
  | inl hc => exact hcontent c hc
  | inr hc => exact htyped c (List.mem_of_mem_drop hc)

/-- Where the bytes of a file are, and that reading them does not wrap. -/
theorem Contains.source {m : Mem} {n : Nat} (h : Contains m img N n f content)
    (hwrap : img + N ≤ 4294967296) (hpos : 0 < content.length) :
    add32 img (add32 (fileBase n) f.offset) = img + fileBase n + f.offset := by
  have hin := h.inside
  rw [add32_of_lt (by omega : fileBase n + f.offset < 4294967296), add32_of_lt (by omega)]
  exact (Nat.add_assoc ..).symm

/-- A `cat` command prints the file together with what it leaves of the command line. -/
theorem shellRound_cat (hS : ServedBy S buf) (h : Rooted S files root p rd img w)
    (hroot : root ≠ 0) (hopen : (w.devs DEV_TTY).data ≠ 0) (hfuel : BUFSIZ ≤ fuel)
    (hf : fileNamed files f.name = some f) (hfile : Contains w.mem img N files.length f content)
    (hcontent : ∀ c ∈ content, c ≠ 0) (hlen : content.length < BUFSIZ)
    (hline : Entered w (catLine f.name))
    (hheld : Apart (heldBy root p files.length rd img N) buf BUFSIZ)
    (hbuf : buf + BUFSIZ ≤ 4294967296) (hwrap : img + N ≤ 4294967296) :
    ∃ t, shellRound fuel S root buf w =
      .ret (some (content ++ (catLine f.name).drop content.length ++ [10])) t := by
  have hshort := f.short
  have hchars := catLine_chars f.chars
  have hcount := catLine_length f.name
  obtain ⟨v, hrun, hholds, hframe, hdevs, hbase⟩ :=
    shellRound_line S root buf hline hopen hfuel
  have hkeeps : Keeps (heldBy root p files.length rd img N) w v :=
    keeps_of_frame hframe hheld (fun no => by rw [hdevs]) hbase
  have hself := lineOf_self hchars
  rw [hself, if_pos (catLine_isCat f.name)] at hrun
  have harg : Str v.mem (buf + 4) f.name :=
    (catLine_isCat f.name).argument (hself ▸ hholds.str (by omega))
  have hsize := hfile.size
  have h32 : 32 ≤ fuel := Nat.le_trans (by decide) hfuel
  obtain ⟨t, ht, hmem, -, hret⟩ := catFile_reads hS (h.keeps hkeeps) hroot h32 harg hf (by omega)
    hheld hbuf
  have hin := hfile.inside
  have hsrc := hfile.source hwrap
  have himg := hheld (img, N) (by simp [heldBy])
  simp only [BUFSIZ] at hlen himg hfuel
  have hstr : Str t.mem buf (content ++ (catLine f.name).drop content.length) := by
    rw [hmem, hsize]
    refine overlay_str hholds hchars (by simp only [BUFSIZ]; omega) hcontent hlen
      (fun k hk => ?_) ?_
    · rw [hsrc (by omega)]
      exact (hfile.keeps hkeeps).byte k hk
    · by_cases hpos : 0 < content.length
      · rw [hsrc hpos]
        omega
      · omega
  have hstrlen : (content ++ (catLine f.name).drop content.length).length < 512 := by
    rw [List.length_append, List.length_drop]
    omega
  have hopen' : (t.devs DEV_TTY).data ≠ 0 := by
    rw [ht.data, hdevs]
    exact hopen
  obtain ⟨u, hputs, hu⟩ := puts_of_string hS.tty hopen'
    (stringAt_run hstr (by omega : _ < fuel) (by omega))
  exact ⟨u, hrun.trans (bind_ret (hret _ u hputs hu))⟩

/-- What is left of the line is nothing when the file is not shorter. -/
theorem leftover_iff (content typed : List UInt8) :
    content ++ typed.drop content.length ++ [10] = content ++ [10] ↔
      typed.length ≤ content.length := by
  rw [List.append_assoc, List.append_cancel_left_eq]
  constructor
  · intro h
    have hlen := congrArg List.length h
    rw [List.length_append, List.length_drop] at hlen
    simp only [List.length_singleton] at hlen
    omega
  · intro h
    rw [List.drop_eq_nil_of_le h]
    rfl

end

/-- After `ramfs_init`, and after any rounds whose `cat` commands print files that fit the buffer,
`cat` prints exactly a file that is shorter than the buffer, and a newline, when and only when the
file is not shorter than the command line. -/
theorem cat_prints_iff {S : System Driver} {fill : Mem → Nat → Nat → Prop} {files : List Header}
    {img N fuel buf : Nat} {w : World Driver} (hS : S.devs = table S.heap)
    (htable : Tabled w.mem img N files) (hwrap : img + N ≤ 4294967296) (hpres : Presented S w img)
    (hopen : (w.devs DEV_TTY).data ≠ 0) (hbuf : buf + BUFSIZ ≤ 4294967296)
    (hdis : AllApart ((buf, BUFSIZ) :: mountAreas S (w.devs DEV_RAMDISK).data img N))
    (hsup : Supplies fill S.heap.kmalloca (mountRequests S files.length) w.k
      ((buf, BUFSIZ) :: mountAreas S (w.devs DEV_RAMDISK).data img N)) (hfuel : BUFSIZ ≤ fuel) :
    ∃ root p w₁, ramfsInit fuel S w = .ret root w₁ ∧ root ≠ 0 ∧
      ∀ tr w₂, Run (ShellStep fuel S root buf
          (heldBy root p files.length (w.devs DEV_RAMDISK).data img N)) w₁ tr w₂ →
        (∀ e ∈ tr, FitsBuffer files e.2.1) →
        ∀ f content, fileNamed files f.name = some f →
          Contains w.mem img N files.length f content → content.length < BUFSIZ →
          (∀ c ∈ content, c ≠ 0) → Entered w₂ (catLine f.name) →
          ((∃ t, shellRound fuel S root buf w₂ = .ret (some (content ++ [10])) t) ↔
            (catLine f.name).length ≤ content.length) := by
  obtain ⟨root, p, w₁, hrun, hroot, hrooted, hheld, hdevs, himg, -⟩ :=
    mounted_beside [] htable hpres hdis hsup hfuel
  refine ⟨root, p, w₁, hrun, hroot, fun tr w₂ hshell hfits f content hf hfile hlen hcontent
    hline => ?_⟩
  have hserved := servedBy_table hS buf
  have hopen₁ : (w₁.devs DEV_TTY).data ≠ 0 := by
    rw [hdevs]
    exact hopen
  have hkeeps := shellRun_keeps hserved hrooted hroot hopen₁ hfuel hheld hbuf hshell hfits
  have hopen₂ : (w₂.devs DEV_TTY).data ≠ 0 := by
    rw [hkeeps.data]
    exact hopen₁
  obtain ⟨t, hcat⟩ := shellRound_cat hserved (hrooted.keeps hkeeps) hroot hopen₂ hfuel hf
    ((hfile.congr himg).keeps hkeeps) hcontent hlen hline hheld hbuf hwrap
  rw [← leftover_iff content]
  constructor
  · intro hex
    obtain ⟨t', hexact⟩ := hex
    exact Option.some.inj (Res.ret.inj (hcat.symm.trans hexact)).1
  · intro heq
    rw [heq] at hcat
    exact ⟨t, hcat⟩

def shellKernel : System Driver := ⟨kernelLink, kernelHeap, table kernelHeap⟩

theorem a_short : ([97] : List UInt8).length ≤ 31 := by decide

theorem b_short : ([98] : List UInt8).length ≤ 31 := by decide

theorem a_chars : ∀ c ∈ ([97] : List UInt8), c ≠ 0 := chars_of_all (by decide)

theorem b_chars : ∀ c ∈ ([98] : List UInt8), c ≠ 0 := chars_of_all (by decide)

/-- Two files: `a` with `hello`, and `b` with `hi`. -/
def greetings : List Header :=
  [⟨[97], 0, 5, a_short, a_chars⟩, ⟨[98], 5, 2, b_short, b_chars⟩]

/-- Memory with the image of these files at `0x200000`. -/
def greetingsDisk : Mem :=
  let m : Mem := ⟨fun _ => 0⟩
  let m := store32 m 0x100000 0x200000
  let m := store32 m 0x200000 0x0002D158
  let m := store32 m 0x200004 0xDEADF11E
  let m := store8 m 0x200008 97
  let m := store32 m 0x20002C 5
  let m := store32 m 0x200030 0xDEADF11E
  let m := store8 m 0x200034 98
  let m := store32 m 0x200054 5
  let m := store32 m 0x200058 2
  putBytes m 0x20005C (chars "hellohi")

/-- The kernel with that ramdisk and the terminal open. -/
def shellBoot (m : Mem) : World Driver :=
  { openTerminal [] with k := ⟨m, 0⟩, devs := fun _ => ⟨0, 0x100000⟩ }

/-- The keys and ENTER will be typed. -/
def typing (w : World Driver) (keys : List UInt8) : World Driver :=
  { w with driver := fun _ => (openTerminal (keys ++ [ENTER])).driver DEV_TTY }

theorem typing_keeps (held : List (Nat × Nat)) (w : World Driver) (keys : List UInt8) :
    Keeps held w (typing w keys) := ⟨fun _ _ => rfl, fun _ => rfl, rfl⟩

theorem typing_entered (w : World Driver) {keys : List UInt8} (hfirst : ENTER ∉ keys)
    (hmake : ∀ k ∈ keys, isRelease k = false → k ≤ 0x3A)
    (hroom : ∀ pre ∈ List.inits keys, (pre.foldl Editor.key
      (Editor.start (bootState.w.driver DEV_TTY).con)).line.length ≤ 511) :
    Entered (typing w keys)
      (keys.foldl Editor.key (Editor.start (bootState.w.driver DEV_TTY).con)).line :=
  entered_keys rfl rfl rfl hfirst hmake fun pre hpre => hroom pre ((List.mem_inits pre _).mpr hpre)

theorem greetings_tabled : Tabled greetingsDisk 0x200000 99 greetings := by
  refine ⟨by decide +kernel, by decide +kernel, fun i f hf => ?_, by decide⟩
  match i, hf with
  | 0, hf =>
    obtain rfl := Option.some.inj hf
    exact ⟨by decide +kernel, by decide +kernel, by decide +kernel, by decide +kernel⟩
  | 1, hf =>
    obtain rfl := Option.some.inj hf
    exact ⟨by decide +kernel, by decide +kernel, by decide +kernel, by decide +kernel⟩

theorem greetings_presented : Presented shellKernel (shellBoot greetingsDisk) 0x200000 :=
  ⟨rfl, by decide, by decide +kernel⟩

theorem greetings_zero {y : Nat} (hy : heapBase ≤ y) : greetingsDisk y = 0 := by
  simp only [heapBase] at hy
  have hlen : (chars "hellohi").length = 7 := by decide
  refine (putBytes_frame _ 0x20005C (chars "hellohi") y ?_).trans ?_
  · rw [outside_single, hlen]
    omega
  · simp (disch := omega) only [store32_outside, store8_ne]

theorem greetings_supplies : Supplies ZeroFilled shellKernel.heap.kmalloca
    (mountRequests shellKernel greetings.length) (shellBoot greetingsDisk).k
      ((0x300000, BUFSIZ) :: mountAreas shellKernel 0x100000 0x200000 99) := by
  have h : Pristine ⟨⟨greetingsDisk, 0⟩, []⟩ := ⟨fun y hy _ => greetings_zero hy, rfl⟩
  exact pristine_supplies h.holds.heap (by decide) (by decide) (by decide) (by decide)

/-- The keys are typed while the shell waits. -/
theorem typing_run (fuel : Nat) (S : System Driver) (root buf : Nat) (held : List (Nat × Nat))
    (w : World Driver) (keys : List UInt8) :
    Run (ShellStep fuel S root buf held) w [(w, none, typing w keys)] (typing w keys) :=
  .cons (.meanwhile (typing_keeps held w keys)) .nil

/-- The keys of `cat a` and of `cat b`. -/
def catKeys (last : UInt8) : List UInt8 := [0x2E, 0x1E, 0x14, 0x39, last]

theorem catKeys_a (w : World Driver) : Entered (typing w (catKeys 0x1E)) (catLine [97]) :=
  typing_entered w (by decide) (by decide +kernel) (by decide +kernel)

theorem catKeys_b (w : World Driver) : Entered (typing w (catKeys 0x30)) (catLine [98]) :=
  typing_entered w (by decide) (by decide +kernel) (by decide +kernel)

theorem cat_prints_iff_hello : ∃ root p w₁ tr w₂,
    ramfsInit 512 shellKernel (shellBoot greetingsDisk) = .ret root w₁ ∧
      Run (ShellStep 512 shellKernel root 0x300000 (heldBy root p 2 0x100000 0x200000 99))
        w₁ tr w₂ ∧
      Entered w₂ (catLine [97]) ∧
      ∃ t, shellRound 512 shellKernel root 0x300000 w₂ = .ret (some (chars "hello" ++ [10])) t := by
  obtain ⟨root, p, w₁, hrun, -, hcat⟩ := cat_prints_iff (w := shellBoot greetingsDisk) rfl
    greetings_tabled (by decide) greetings_presented (by decide) (by decide) (by decide)
    greetings_supplies (show BUFSIZ ≤ 512 by decide)
  have hshell := typing_run 512 shellKernel root 0x300000 (heldBy root p 2 0x100000 0x200000 99) w₁
    (catKeys 0x1E)
  refine ⟨root, p, w₁, _, _, hrun, hshell, catKeys_a w₁, ?_⟩
  refine (hcat _ _ hshell (fun e he typed heq => ?_) greetings[0] (chars "hello") rfl
    ⟨rfl, by decide, by decide +kernel⟩ (by decide) (chars_of_all (by decide))
      (catKeys_a w₁)).mpr (by decide)
  obtain rfl := List.mem_singleton.mp he
  cases heq

/-- The file `hi` is printed over the beginning of `cat b`. -/
theorem cat_prints_fails : ∃ root p w₁ tr w₂,
    ramfsInit 512 shellKernel (shellBoot greetingsDisk) = .ret root w₁ ∧
      Run (ShellStep 512 shellKernel root 0x300000 (heldBy root p 2 0x100000 0x200000 99))
        w₁ tr w₂ ∧
      Entered w₂ (catLine [98]) ∧
      fileNamed greetings [98] = some greetings[1] ∧
      Contains greetingsDisk 0x200000 99 2 greetings[1] (chars "hi") ∧
      (∃ t, shellRound 512 shellKernel root 0x300000 w₂ =
        .ret (some (chars "hit b" ++ [10])) t) ∧
      ¬ ∃ t, shellRound 512 shellKernel root 0x300000 w₂ = .ret (some (chars "hi" ++ [10])) t := by
  obtain ⟨root, p, w₁, hrun, hroot, hrooted, hheld, hdevs, himg, -⟩ :=
    mounted_beside (w := shellBoot greetingsDisk) [] greetings_tabled greetings_presented
      (by decide) greetings_supplies (show BUFSIZ ≤ 512 by decide)
  have hshell := typing_run 512 shellKernel root 0x300000 (heldBy root p 2 0x100000 0x200000 99) w₁
    (catKeys 0x30)
  have hfile : Contains greetingsDisk 0x200000 99 2 greetings[1] (chars "hi") :=
    ⟨rfl, by decide, by decide +kernel⟩
  have hopen : (w₁.devs DEV_TTY).data ≠ 0 := by
    rw [hdevs]
    decide
  have hrooted₂ := hrooted.keeps (typing_keeps (heldBy root p 2 0x100000 0x200000 99) w₁
    (catKeys 0x30))
  obtain ⟨t, hcat⟩ := shellRound_cat (servedBy_table rfl 0x300000) hrooted₂ hroot hopen
    (show BUFSIZ ≤ 512 by decide) (f := greetings[1]) rfl (hfile.congr himg)
    (chars_of_all (by decide)) (by decide) (catKeys_b w₁) hheld (by decide) (by decide)
  have hprinted : chars "hi" ++ (catLine greetings[1].name).drop (chars "hi").length ++ [10] =
      chars "hit b" ++ [10] := by decide
  rw [hprinted] at hcat
  refine ⟨root, p, w₁, _, _, hrun, hshell, catKeys_b w₁, rfl, hfile, ⟨t, hcat⟩, fun hex => ?_⟩
  obtain ⟨t', hexact⟩ := hex
  have heq := Option.some.inj (Res.ret.inj (hcat.symm.trans hexact)).1
  exact absurd heq (by decide)

end Foos.Cat
