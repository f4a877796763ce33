import Foos.Sessions

/-! Runs of the loop of the shell from its prompt on: rounds, and between them whatever leaves alone
what the shell and its heap hold. -/
namespace Foos.Dispatch.Site
open Terminal Devices Program ByteMemory Word32 CString Fs Printf Libc Cmpsb Cat Transition

section
variable (K : Site) (rest : Nat → Code Driver (List UInt8))

/-- The answer to the line follows on the screen what was there when the line was read. -/
def Shows (v : World Driver) (typed : List UInt8) (t : World Driver) : Prop :=
  t.driver DEV_TTY = Cat.shown (v.driver DEV_TTY) (answer K.files K.S.devs K.content typed)

/-- A round behind which the loop goes on, or what happens until the next line is entered. -/
inductive SessionStep : World Driver → Option (List UInt8) → World Driver → Prop
  | round {w v t : World Driver} {typed out : List UInt8} {c : Command} {fl fl' : Flags} {old : Nat}
      (hline : Entered w typed) (hread : readCommand K.L K.fuel K.buf fl fl' w = .ret c v)
      (hrun : K.run rest old c v = .ret out t) (hgoes : c ≠ .quit) : SessionStep w (some typed) t
  | meanwhile {w t : World Driver} (h : Keeps K.kept w t) (hheap : K.Heap w.mem → K.Heap t.mem) :
      SessionStep w none t

def Answers (w : World Driver) (typed : List UInt8) (t : World Driver) : Prop :=
  ∃ fl fl' c v, readCommand K.L K.fuel K.buf fl fl' w = .ret c v ∧ K.Shows v typed t

/-- The line is read and answered, and the loop ends behind `exit` only. -/
def Serves (w : World Driver) (typed : List UInt8) : Prop :=
  ∀ fl fl' old, ∃ c v out t, readCommand K.L K.fuel K.buf fl fl' w = .ret c v ∧
    K.run rest old c v = .ret out t ∧ K.Shows v typed t ∧ K.Live t ∧
    (c = .quit ↔ lineOf typed = chars "exit")

end

section
variable {K : Site} {rest : Nat → Code Driver (List UInt8)} {w t : World Driver}
  {typed : List UInt8} {step : Option (List UInt8)}

theorem Live.reads (hK : K.Sound) (h : K.Live w) (hline : Entered w typed) (fl fl' : Flags) :
    ∃ c v, readCommand K.L K.fuel K.buf fl fl' w = .ret c v ∧ K.Live v ∧
      Cat.Holds v.mem K.buf typed ∧ Does K.L v.mem c (CommandLine.taken (lineOf typed)) ∧
      c.Points K.buf (lineOf typed) := by
  have hfuel := hK.fuel
  have hlen := lineOf_length typed
  have hshort := hline.short
  obtain ⟨v, hrun, hholds, hframe, hdevs, hbase⟩ := prompt_line K.buf hline h.opened
  have hv : K.Live v := h.frame hframe (hK.held_one (List.mem_cons_self ..)) hK.bufApart
    (fun no => by rw [hdevs]) hbase
  have hfit : (lineOf typed).length < 4294967295 ∧ (lineOf typed).length < K.fuel := by omega
  obtain ⟨c, hc, hdoes, hptr⟩ := command_does hv.loaded (hholds.str hshort) hfit.1 hfit.2 fl fl'
  exact ⟨c, v, (hrun _).trans (update_run (by rw [hc]; rfl)), hv, hholds, hdoes, hptr⟩

theorem does_quit_iff {L : ShellLink} {m : Mem} {c : Command} {a : CommandLine.Action}
    (h : Does L m c a) : c = .quit ↔ a = .quit := by
  constructor
  · rintro rfl
    exact does_quit.mp h
  · rintro rfl
    cases c with
    | quit => rfl
    | _ => exact h.elim

theorem Live.serves (hK : K.Sound) (h : K.Live w) (hline : Entered w typed)
    (hans : Answered K.files K.content typed) : K.Serves rest w typed := by
  intro fl fl' old
  obtain ⟨c, v, hread, hv, hholds, hdoes, hptr⟩ := h.reads hK hline fl fl'
  obtain ⟨out, t, hrun, hshows, ht⟩ := hv.answers hK hholds hline.short hdoes hptr hans rest old
  exact ⟨c, v, out, t, hread, hrun, hshows, ht, (does_quit_iff hdoes).trans taken_quit⟩

/-- A step keeps what the shell needs at its prompt, and a round answers its line. -/
theorem SessionStep.live (hK : K.Sound) (h : K.Live w)
    (hans : ∀ typed, step = some typed → Answered K.files K.content typed)
    (hst : SessionStep K rest w step t) :
    K.Live t ∧ ∀ typed, step = some typed → K.Answers w typed t := by
  cases hst with
  | @round v _ typed out c fl fl' old hline hread hrun _ =>
    have hserves : K.Serves rest w typed := h.serves hK hline (hans typed rfl)
    obtain ⟨c', v', out', t', hread', hrun', hshows, ht, -⟩ := hserves fl fl' old
    obtain ⟨rfl, rfl⟩ := Res.ret.inj (hread.symm.trans hread')
    obtain ⟨-, rfl⟩ := Res.ret.inj (hrun.symm.trans hrun')
    refine ⟨ht, fun typed' heq => ?_⟩
    obtain rfl := Option.some.inj heq
    exact ⟨fl, fl', c, v, hread, hshows⟩
  | meanwhile hkeeps hheap => exact ⟨h.keeps hkeeps (hheap h.heap), fun _ heq => by cases heq⟩

theorem step_live (hK : K.Sound) (w : World Driver) (step : Option (List UInt8))
    (t : World Driver) (h : K.Live w)
    (hans : ∀ typed, step = some typed → Answered K.files K.content typed)
    (hst : SessionStep K rest w step t) : K.Live t := (hst.live hK h hans).1

end

/-- An entry of the table. -/
def storeHandler (L : ShellLink) (i : Nat) (e : CommandLine.CmdHandler) (m : Mem) : Mem :=
  let m := putString m (cmd (L.entry i)) (chars e.cmd)
  let m := putString m (description (L.entry i)) (chars e.description)
  store32 m (L.entry i + 48) (L.pointer e.handle)

/-- The table from entry `i` on. -/
def storeHandlers (L : ShellLink) : Nat → List CommandLine.CmdHandler → Mem → Mem
  | _, [], m => m
  | i, e :: es, m => storeHandlers L (i + 1) es (storeHandler L i e m)

/-- The texts fit their fields, the description perhaps without its NUL. -/
def FitsFields (e : CommandLine.CmdHandler) : Prop :=
  (chars e.cmd).length < 16 ∧ (chars e.description).length ≤ 32

theorem handlers_fitFields : ∀ e ∈ CommandLine.handlers, FitsFields e := by
  intro e he
  have hcmd := cmd_length e he
  obtain ⟨-, hdesc⟩ := description_length e he
  exact ⟨hcmd, by omega⟩

section
variable {L : ShellLink} {e : CommandLine.CmdHandler} {es : List CommandLine.CmdHandler}
  {i j k : Nat}

theorem storeHandler_frame (he : FitsFields e) (m : Mem) :
    Frame [(L.entry i, 52)] m (storeHandler L i e m) := by
  obtain ⟨hcmd, hdesc⟩ := he
  have h1 := (Frame.refl [(L.entry i, 52)] m).putString (s := chars e.cmd)
    (show L.entry i ≤ cmd (L.entry i) from Nat.le_refl _) (by simp only [cmd]; omega)
  have h2 := h1.putString (p := description (L.entry i)) (s := chars e.description)
    (Nat.le_add_right _ _) (by simp only [description]; omega)
  exact h2.store32 (Nat.le_add_right _ _) (by omega)

theorem storeHandlers_frame (hes : ∀ e ∈ es, FitsFields e) (m : Mem) :
    Frame [(L.entry i, es.length * 52)] m (storeHandlers L i es m) := by
  induction es generalizing i m with
  | nil => exact Frame.refl _ m
  | cons e es ih =>
    have hone := storeHandler_frame (L := L) (i := i) (hes e (List.mem_cons_self ..)) m
    have hrest := ih (i := i + 1) (fun e he => hes e (List.mem_cons_of_mem _ he))
      (storeHandler L i e m)
    refine (hone.mono fun y hy => ?_).trans (hrest.mono fun y hy => ?_)
    all_goals
      rw [outside_single, List.length_cons] at hy
      rw [outside_single]
      simp only [ShellLink.entry] at hy ⊢
      omega

theorem putString_field {m : Mem} {a : Nat} {s : List UInt8}
    (hzero : s.length < k → m (a + k) = 0) : putString m a s (a + k) = s.getD k 0 := by
  cases Nat.lt_trichotomy k s.length with
  | inl hlt =>
    rw [putString_eq, store8_ne _ _ _ _ (by omega), putBytes_at (List.getElem?_eq_getElem hlt),
      List.getD_eq_getElem _ _ hlt]
  | inr hge =>
    rw [List.getD_eq_default _ _ (by omega)]
    cases hge with
    | inl heq =>
      rw [heq, putString_eq]
      exact store8_same _ _ _
    | inr hgt => rw [putString_outside (by omega), hzero hgt]

/-- In memory of zeros each description is followed by zeros in its field. -/
theorem storeHandlers_description (hes : ∀ e ∈ es, FitsFields e) {m : Mem}
    (hzero : ∀ y, L.entry i ≤ y → y < L.entry i + es.length * 52 → m y = 0) (hj : j < es.length)
    (hk : k < 32) : storeHandlers L i es m (description (L.entry (i + j)) + k) =
      (chars es[j].description).getD k 0 := by
  induction es generalizing i j m with
  | nil => exact absurd hj (Nat.not_lt_zero j)
  | cons e es ih =>
    have hone := hes e (List.mem_cons_self ..)
    have hrest : ∀ e ∈ es, FitsFields e := fun e he => hes e (List.mem_cons_of_mem _ he)
    rw [List.length_cons] at hzero
    cases j with
    | zero =>
      have hlater : Outside [(L.entry (i + 1), es.length * 52)]
          (description (L.entry i) + k) := by
        rw [outside_single]
        simp only [description, ShellLink.entry]
        omega
      show storeHandlers L (i + 1) es (storeHandler L i e m) (description (L.entry i) + k) =
        (chars e.description).getD k 0
      rw [storeHandlers_frame hrest _ _ hlater, storeHandler,
        store32_outside _ _ _ _ (by simp only [description]; omega)]
      refine putString_field fun hlong => ?_
      rw [putString_outside (by have := hone.1; simp only [cmd, description]; omega)]
      exact hzero _ (by simp only [description]; omega) (by simp only [description]; omega)
    | succ j =>
      have hi : i + (j + 1) = i + 1 + j := by omega
      rw [storeHandlers, hi]
      refine ih hrest (fun y h1 h2 => ?_) (Nat.lt_of_succ_lt_succ hj)
      have hout : Outside [(L.entry i, 52)] y := by
        rw [outside_single]
        simp only [ShellLink.entry] at h1 ⊢
        omega
      rw [storeHandler_frame hone m y hout]
      simp only [ShellLink.entry] at h1 h2 hzero
      exact hzero y (by omega) (by omega)

end

/-- The directories of `devTree`, an empty ramdisk, and the literals of the shell. -/
def sessionLiterals : Mem :=
  let m := store32 devTree 0x100300 0x210000
  let m := putString m 0x5000 (chars "exit")
  let m := putString m 0x5010 (chars "ls")
  let m := putString m 0x5020 (chars "cat ")
  store32 m 0x5050 12

def sessionLow : Mem := storeHandlers shellLink 0 CommandLine.handlers sessionLiterals

/-- Behind the first allocation. -/
def sessionMem : Mem :=
  Kmalloc.setUsed (Kmalloc.setSize sessionLow Kmalloc.heapBase 8) Kmalloc.heapBase 1

def sessionSite : Site where
  S := shellKernel
  L := shellLink
  files := []
  content := fun _ => []
  root := 0x100000
  p := 0x100100
  q := 0x100200
  rd := 0x100300
  img := 0x210000
  N := 4
  buf := 0x300000
  dev := 0x200010
  sep := 0x200000
  us := [⟨true, 8⟩]
  hf := 8
  fuel := 544

def sessionBoot : World Driver :=
  { shellBoot sessionMem with devs := fun _ => ⟨0, 0x100300⟩, fileBase := 4 }

/-- Besides the literals, the ramdisk and the table nothing has changed. -/
theorem sessionLow_at {y : Nat} (hy : 0x100000 ≤ y ∧ y < 0x100300 ∨ 0x100304 ≤ y) :
    sessionLow y = devTree y := by
  have hout : Outside [(shellLink.entry 0, CommandLine.handlers.length * 52)] y := by
    rw [outside_single]
    simp only [CommandLine.handlers_length, ShellLink.entry, shellLink]
    omega
  have hexit : (chars "exit").length = 4 := rfl
  have hls : (chars "ls").length = 2 := rfl
  have hcat : (chars "cat ").length = 4 := rfl
  rw [sessionLow, storeHandlers_frame handlers_fitFields _ _ hout, sessionLiterals]
  simp (disch := omega) only [store32_outside, putString_outside]

theorem sessionLiterals_zero {y : Nat} (h1 : 0x6000 ≤ y) (h2 : y < 0x6270) :
    sessionLiterals y = 0 := by
  have hexit : (chars "exit").length = 4 := rfl
  have hls : (chars "ls").length = 2 := rfl
  have hcat : (chars "cat ").length = 4 := rfl
  have hpath : (chars "/dev/tty").length = 8 := rfl
  have hhello : (chars "Hello world\n").length = 12 := rfl
  simp (disch := omega) only [sessionLiterals, devTree, deviceInode, setFlags, setImpl, setReaddir,
    setFinddir, setPtr, setRead, setWrite, name, store32_outside, store8_ne, putString_outside]

theorem sessionMem_at {y : Nat} (hy : y < Kmalloc.heapBase) : sessionMem y = sessionLow y := by
  simp (disch := omega) only [sessionMem, Kmalloc.setUsed, Kmalloc.setSize, store32_outside]

theorem sessionMem_heap : Kmalloc.Represents sessionMem [⟨true, 8⟩] := by
  have hlow : Frame [(0, Kmalloc.heapBase)] devTree sessionLow := fun y hy => by
    rw [outside_single] at hy
    simp only [Kmalloc.heapBase] at hy
    exact sessionLow_at (Or.inr (by omega))
  have hheld : Kmalloc.Held [⟨false, 0⟩] [(0, Kmalloc.heapBase)] := fun r hr => by
    obtain rfl := List.mem_singleton.mp hr
    exact Or.inl (by decide)
  have hfree := devTree_ready.blocks.outside hheld hlow
  obtain ⟨m, hrun, hrep, -⟩ :=
    @Kmalloc.Represents.lookup_root sessionLow 8 hfree (by decide) (by decide) (by decide)
  have hcur : Kmalloc.cursor sessionLow 0 = Kmalloc.heapBase := rfl
  have hsize : Kmalloc.size sessionLow Kmalloc.heapBase = 0 :=
    (hfree.chain.header (List.mem_cons_self ..)).size_eq
  have hmem : Kmalloc.lookup 1 sessionLow 0 8 0 = some (Kmalloc.heapBase, sessionMem) := by
    rw [Kmalloc.lookup]
    simp only [hcur, if_neg (show ¬ Kmalloc.heapBase = 0 by decide), hsize]
    rw [if_neg (by omega), if_pos ⟨trivial, trivial⟩]
    rfl
  have heq : m = sessionMem := congrArg Prod.snd (Option.some.inj ((hrun 0).symm.trans hmem))
  exact heq ▸ hrep

theorem sessionSite_sound : sessionSite.Sound := by
  refine ⟨rfl, rfl, by decide, by decide, by decide, fun r hr => Or.inl ?_, by decide, by decide,
    by decide, by decide, by decide, by decide, by decide⟩
  revert r
  decide

theorem sessionBoot_mem : sessionBoot.mem = sessionMem := rfl

theorem sessionBoot_described : ∀ i (h : i < CommandLine.handlers.length), ∀ k, k < 32 →
    sessionBoot.mem (description (sessionSite.L.entry i) + k) =
      (chars CommandLine.handlers[i].description).getD k 0 := by
  intro i hi k hk
  have hcount := CommandLine.handlers_length
  have haddr : description (shellLink.entry i) + k < Kmalloc.heapBase := by
    simp only [description, ShellLink.entry, shellLink, Kmalloc.heapBase]
    omega
  have hzero : ∀ y, shellLink.entry 0 ≤ y →
      y < shellLink.entry 0 + CommandLine.handlers.length * 52 → sessionLiterals y = 0 := by
    intro y h1 h2
    simp only [ShellLink.entry, shellLink, hcount] at h1 h2
    exact sessionLiterals_zero (by omega) (by omega)
  have hfield := storeHandlers_description handlers_fitFields hzero hi hk
  rw [Nat.zero_add] at hfield
  have hlink : sessionSite.L = shellLink := rfl
  rw [sessionBoot_mem, hlink, sessionMem_at haddr, sessionLow]
  exact hfield

theorem sessionMem_loaded : Loaded shellLink sessionMem :=
  ⟨by decide +kernel, by decide +kernel, by decide +kernel, by decide +kernel, by decide +kernel,
    by decide +kernel, by decide +kernel⟩

theorem sessionMem_mounted : MountedAt shellKernel [] 0x100000 0x100100 0x100200 sessionMem := by
  refine devTree_mounted.congr fun y hy => ?_
  obtain ⟨r, hr, h1, h2⟩ := not_outside.mp hy
  have hall : ∀ r ∈ treeAreas [] shellKernel.devs 0x100000 0x100100 0x100200,
      0x100000 ≤ r.1 ∧ r.1 + r.2 ≤ 0x100300 := by decide
  have hin := hall r hr
  rw [sessionMem_at (by simp only [Kmalloc.heapBase]; omega)]
  exact sessionLow_at (Or.inl (by omega))

theorem sessionBoot_live : sessionSite.Live sessionBoot := by
  have hm := sessionMem_mounted
  refine ⟨⟨rfl, by decide, by decide +kernel, rfl, hm.filesPos, hm.rootDir, hm.rootImpl, hm.file,
    by decide +kernel, by decide +kernel⟩, hm, fun f hf => absurd hf List.not_mem_nil,
    sessionMem_loaded, sessionBoot_described, by decide +kernel, by decide +kernel,
    by decide +kernel, by decide, ⟨_, sessionMem_heap, ⟨by decide, Or.inl rfl⟩⟩⟩

/-- The keys of `devs`. -/
def devsKeys : List UInt8 := [0x20, 0x12, 0x2F, 0x1F]

def someRest : Nat → Code Driver (List UInt8) := fun _ => pure []

theorem devs_entered : Entered (typing sessionBoot devsKeys) (chars "devs") :=
  typing_entered _ (by decide) (by decide +kernel) (by decide +kernel)

theorem devs_typed : SessionStep sessionSite someRest sessionBoot none
    (typing sessionBoot devsKeys) := .meanwhile (typing_keeps _ _ _) id

end Foos.Dispatch.Site
