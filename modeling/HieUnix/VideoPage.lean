import HieUnix.Ownership
import HieUnix.UserCommand

/-!
# The video page

The page that `vidmap` gives to a program has one entry for all processes. `vidmap` lets it map the
video memory for whoever asks, the timer tick sets it by the terminal of the process it resumes, and
a terminal switch takes it off the screen. A process in the background never has the video memory
mapped in runs in which background processes do not ask for it and a `halt` goes back to a process
of the same terminal (`videoIsolated_of_safe`).

Programs may be executed from the background here, where the tables are not stacks of processes any
more. What is left of the invariant is `Placed`: every head is a process of its terminal that runs
or was suspended on its own stack.
-/

namespace HieUnix

open Function

variable {m : Machine} {k k' k₁ : Kernel} {fr sub : Frame} {c p r i : Slot} {t : Term}

/-! ## Runs with `vidmap` -/

/-- An operation on the process tables, or a `vidmap` on the frame `fr`. -/
inductive VideoOp
  | kernel (op : Op)
  | vidmap (fr : Frame) (mem : Memory) (screenStart : Word)

/-- The runs of the kernel with the `vidmap` calls of the running process. -/
def videoLTS (m : Machine) : LTS Kernel VideoOp where
  init := (kernelLTS m).init
  step k op k' :=
    match op with
    | .kernel op => (kernelLTS m).step k op k'
    | .vidmap fr mem screenStart =>
      (getPcb k.esp = some fr.pcb ∨ getPcb k.tssEsp0 = some fr.pcb) ∧
        k' = (sysVidmap m (k.entered fr) mem screenStart).val.2.1

/-- The video page maps the video memory: the entry of the directory is present and leads to
`pt_vid1`, and the entry there is present and has the address `VIDEO`. -/
def Kernel.MapsVideo (m : Machine) (k : Kernel) : Prop :=
  k.videoPde &&& 1 = 1 ∧ k.videoPde &&& 0xFFFFF000 = m.ptVid1 &&& 0xFFFFF000 ∧
    k.videoPte &&& 1 = 1 ∧ k.videoPte &&& 0xFFFFF000 = 0xB8000

/-- A process in the background does not have the video memory mapped while it runs. -/
def VideoIsolated (m : Machine) (k : Kernel) : Prop :=
  ∀ r, getPcb k.esp = some r → (k.pcb r).terminalNumber ≠ k.currentActiveTerminal →
    ¬ k.MapsVideo m

/-- A `vidmap` that passes the check of its pointer is of a process of the active terminal; and a
`halt` goes back to a process of the same terminal, or restarts the shell of the active one. -/
def VideoSafe (k : Kernel) : VideoOp → Prop
  | .kernel (.halt fr _ _) =>
    match (k.pcb fr.pcb).parent with
    | some p => k.pcbUsed p = true ∧ (k.pcb p).terminalNumber = (k.pcb fr.pcb).terminalNumber
    | none => (k.pcb fr.pcb).terminalNumber = k.currentActiveTerminal
  | .kernel _ => True
  | .vidmap fr _ screenStart =>
    accessOk screenStart ≠ error → (k.pcb fr.pcb).terminalNumber = k.currentActiveTerminal

/-! ## What `execute` does in any state -/

/-- What starting a program does, when the page it gets may be of another number than its slot. -/
structure Launched (k : Kernel) (fr : Frame) (c : Slot) (k' : Kernel) : Prop where
  pcbUsed : k'.pcbUsed = update k.pcbUsed c true
  termCurrPcb : k'.termCurrPcb = update k.termCurrPcb k.currentActiveTerminal (some c)
  active : k'.currentActiveTerminal = k.currentActiveTerminal
  esp : k'.esp = getKstackAddr c
  tssEsp0 : k'.tssEsp0 = getKstackAddr c
  terminalNumber : (k'.pcb c).terminalNumber = k.currentActiveTerminal
  pcbIdx : (k'.pcb c).pcbIdx = c
  ptIdx : (k'.pcb c).ptIdx < maxNumProg
  tssEsp : (k'.pcb c).tssEsp = getKstackAddr c
  parent : (k'.pcb c).parent = (k.termCurrPcb k.currentActiveTerminal).map fun _ => fr.pcb
  old : (k.termCurrPcb k.currentActiveTerminal).isSome →
    (k'.pcb c).oldTssEsp = k.tssEsp0 ∧ (k'.pcb c).oldEsp = fr.esp
  caller : fr.pcb ≠ c →
    k'.pcb fr.pcb = { k.pcb fr.pcb with esp := fr.esp, ebp := fr.ebp, eip := .retHere }
  other : ∀ i, i ≠ c → i ≠ fr.pcb → k'.pcb i = k.pcb i

theorem launched_runChild (k : Kernel) (fr : Frame) (pt c : Slot) (command : List Byte)
    (exe : Exe) : Launched k fr c (runChild m (allocatedAt k pt c) fr command exe pt c) := by
  obtain ⟨hused, -, -, htss, hesp, hcurr, hactive⟩ :=
    runChild_tables (m := m) (allocatedAt k pt c) fr command exe pt c
  obtain ⟨p, hp, hparent, hterm, hpt, hidx, htssEsp, hold⟩ :=
    runChild_pcb_self m (allocatedAt k pt c) fr pt c command exe
  have hpcb := runChild_pcb m (allocatedAt k pt c) fr pt c command exe
  exact
    { pcbUsed := hused, termCurrPcb := hcurr, active := hactive, esp := hesp, tssEsp0 := htss
      terminalNumber := hp ▸ hterm, pcbIdx := hp ▸ hidx, ptIdx := hp ▸ hpt ▸ pt.isLt
      tssEsp := hp ▸ htssEsp, parent := hp ▸ hparent
      old := fun h => hp ▸ ⟨(hold h).1, (hold h).2.1⟩
      caller := fun hne => (hpcb fr.pcb).trans (by rw [if_pos rfl, if_neg hne]; rfl)
      other := fun i hic hifr => (hpcb i).trans (by rw [if_neg hifr, if_neg hic]; rfl) }

/-- An `execute` that fails has at most taken a page; one that does not starts a program in a free
slot. -/
theorem execute_launches (m : Machine) (k : Kernel) (fr : Frame) (command : Option (List Byte)) :
    (∃ used pde v, execute m k fr command
        = (.ret v, { k with progUsedPage := used, progPde := pde }) ∧
      ¬ (Starts m k command ∧ firstFree k.progUsedPage ≠ none)) ∨
    ∃ c eip k', firstFree k.pcbUsed = some c ∧ execute m k fr command = (.enter eip, k') ∧
      Launched k fr c k' := by
  -- a command that is no program starts nothing
  have hfail : ∀ {s : List Byte}, checkProgram m.fs m.img s = none →
      ¬ (Starts m k (some s) ∧ firstFree k.progUsedPage ≠ none) := by
    rintro s hnone ⟨⟨s', hs', -, hsome, -⟩, -⟩
    rw [← Option.some.inj hs', hnone] at hsome
    cases hsome
  match command with
  | none =>
    refine .inl ⟨k.progUsedPage, k.progPde, error, rfl, ?_⟩
    intro h
    obtain ⟨⟨s, hs, -⟩, -⟩ := h
    cases hs
  | some s =>
    by_cases hs : s = []
    · refine .inl ⟨k.progUsedPage, k.progPde, error, if_pos hs, ?_⟩
      intro h
      obtain ⟨⟨s', hs', hne, -⟩, -⟩ := h
      exact hne (Option.some.inj hs' ▸ hs)
    rw [execute_eq m k fr hs]
    cases hexe : checkProgram m.fs m.img s with
    | none => exact .inl ⟨k.progUsedPage, k.progPde, error, rfl, hfail hexe⟩
    | some exe =>
      -- a program page, then a slot
      cases hpage : firstFree k.progUsedPage with
      | none => exact .inl ⟨k.progUsedPage, k.progPde, error, rfl, fun h => h.2 rfl⟩
      | some pt =>
        cases hslot : firstFree k.pcbUsed with
        | none =>
          refine .inl ⟨update k.progUsedPage pt true, progPde pt, error, rfl, ?_⟩
          intro h
          obtain ⟨⟨s', -, -, -, hsome⟩, -⟩ := h
          rw [hslot] at hsome
          cases hsome
        | some c =>
          exact .inr ⟨c, exe.eip, runChild m (allocatedAt k pt c) fr s exe pt c, rfl, rfl,
            launched_runChild k fr pt c s exe⟩

/-- A shell starts when a page and a slot are free. -/
theorem execute_shell_launches (m : Machine) (fr : Frame) (hpage : firstFree k.progUsedPage ≠ none)
    (hslot : firstFree k.pcbUsed ≠ none) :
    ∃ c eip k', firstFree k.pcbUsed = some c ∧ execute m k fr (some shell) = (.enter eip, k') ∧
      Launched k fr c k' := by
  apply (execute_launches m k fr (some shell)).resolve_left
  intro h
  obtain ⟨used, pde, v, -, hnot⟩ := h
  refine hnot ⟨⟨shell, rfl, List.cons_ne_nil _ _, ?_, Option.isSome_iff_ne_none.mpr hslot⟩, hpage⟩
  rw [m.checkProgram_shell]
  rfl

theorem Launched.same (h : Launched k fr c k') (hi : i ≠ c) : (k'.pcb i).Same (k.pcb i) := by
  rcases eq_or_ne i fr.pcb with rfl | hne
  · rw [h.caller hi]
    constructor <;> rfl
  · rw [h.other i hi hne]
    exact .rfl

/-! ## Pages -/

theorem exists_setProgPage (k : Kernel) (idx : ℕ) :
    ∃ used pde, k.setProgPage idx = { k with progUsedPage := used, progPde := pde } := by
  rw [Kernel.setProgPage]
  split
  · exact ⟨_, _, rfl⟩
  · exact ⟨k.progUsedPage, k.progPde, rfl⟩

theorem exists_freeProgPage (k : Kernel) (idx : ℕ) :
    ∃ used pde, k.freeProgPage idx = { k with progUsedPage := used, progPde := pde } := by
  rw [Kernel.freeProgPage]
  split
  · exact ⟨_, _, rfl⟩
  · exact ⟨k.progUsedPage, k.progPde, rfl⟩

/-- The video page taken off the screen is that of no screen. -/
theorem not_mapsVideo_setVideoPage (m : Machine) (k : Kernel) :
    ¬ (k.setVideoPage m false).MapsVideo m := by
  intro h
  have hoff : ((0xBC000 : Word) ||| 0x4 ||| 0x2 ||| 0x1) &&& 0xFFFFF000 ≠ 0xB8000 := by decide
  exact hoff h.2.2.2

/-- `vidmap` maps the video memory. -/
theorem mapsVideo_addNewPt (m : Machine) (k : Kernel) : (addNewPt m k 0xB8000).MapsVideo m := by
  have hpresent : ((0xB8000 : Word) &&& 0xFFFFF000 ||| 7) &&& 1 = 1 := by decide
  have hframe : ((0xB8000 : Word) &&& 0xFFFFF000 ||| 7) &&& 0xFFFFF000 = 0xB8000 := by decide
  refine ⟨?_, ?_, hpresent, hframe⟩
  · show (m.ptVid1 ||| 0x4 ||| 0x2 ||| 0x1) &&& 1 = 1
    apply BitVec.eq_of_getLsbD_eq
    intro i _
    simp only [BitVec.getLsbD_and, BitVec.getLsbD_or]
    cases (1 : Word).getLsbD i
    · rw [Bool.and_false]
    · rw [Bool.or_true, Bool.and_true]
  · show (m.ptVid1 ||| 0x4 ||| 0x2 ||| 0x1) &&& 0xFFFFF000 = m.ptVid1 &&& 0xFFFFF000
    have h4 : (0x4 : Word) &&& 0xFFFFF000 = 0#32 := by decide
    have h2 : (0x2 : Word) &&& 0xFFFFF000 = 0#32 := by decide
    have h1 : (0x1 : Word) &&& 0xFFFFF000 = 0#32 := by decide
    rw [BitVec.and_or_distrib_right, BitVec.and_or_distrib_right, BitVec.and_or_distrib_right, h4,
      h2, h1, BitVec.or_zero, BitVec.or_zero, BitVec.or_zero]

/-- The control block of the process in the frame `fr` when `__switch_to` has left it. -/
def switchedPcb (k : Kernel) (fr : Frame) : Pcb :=
  { k.pcb fr.pcb with esp := fr.esp, ebp := fr.ebp, eip := .switched }

theorem exists_switchTo (m : Machine) (k : Kernel) (fr : Frame) (u : Term) (i : Slot) :
    ∃ used pde, (switchTo m k fr u i).2
      = { k.setVideoPage m (decide (u = k.currentActiveTerminal)) with
          progUsedPage := used
          progPde := pde
          tssEsp0 := (k.pcb i).tssEsp
          pcb := update k.pcb fr.pcb (switchedPcb k fr)
          esp := (update k.pcb fr.pcb (switchedPcb k fr) i).esp } := by
  obtain ⟨used, pde, heq⟩ := exists_setProgPage (k.setTssEsp0 (k.pcb i).tssEsp) (k.pcb i).ptIdx
  have hstep : ∀ k₁, (k.setTssEsp0 (k.pcb i).tssEsp).setProgPage (k.pcb i).ptIdx = k₁ →
      (switchTo m k fr u i).2 = { k₁.setVideoPage m (decide (u = k₁.currentActiveTerminal)) with
        pcb := update k₁.pcb fr.pcb (switchedPcb k₁ fr)
        esp := (update k₁.pcb fr.pcb (switchedPcb k₁ fr) i).esp } := by
    intro k₁ hk₁
    rw [← hk₁]
    rfl
  exact ⟨used, pde, hstep _ heq⟩

theorem exists_halt_of_parent (m : Machine) (hparent : (k.pcb fr.pcb).parent = some p)
    (sub : Frame) (arg : Word) :
    ∃ used pde, (halt m k fr sub arg).2
      = { k with
          termCurrPcb := update k.termCurrPcb (k.pcb fr.pcb).terminalNumber (some p)
          progUsedPage := used
          progPde := pde
          tssEsp0 := (k.pcb fr.pcb).oldTssEsp
          pcbUsed := update k.pcbUsed (k.pcb fr.pcb).pcbIdx false
          pcb := update k.pcb p { k.pcb p with returnVal := (arg.setWidth 8).setWidth 32 &&& 0xFF }
          esp := (k.pcb fr.pcb).oldEsp } := by
  have hstep : ∀ k₁ k₂ : Kernel,
      (k.setTermCurr (k.pcb fr.pcb).terminalNumber (some p)).freeProgPage (k.pcb fr.pcb).ptIdx
        = k₁ →
      k₁.setProgPage (k₁.pcb p).ptIdx = k₂ → (halt m k fr sub arg).2 = { k₂ with
        tssEsp0 := (k.pcb fr.pcb).oldTssEsp
        pcbUsed := update k₂.pcbUsed (k.pcb fr.pcb).pcbIdx false
        pcb := update k₂.pcb p
          { k₂.pcb p with returnVal := (arg.setWidth 8).setWidth 32 &&& 0xFF }
        esp := (k.pcb fr.pcb).oldEsp } := by
    intro k₁ k₂ hk₁ hk₂
    rw [← hk₂, ← hk₁]
    simp only [halt, hparent]
    rfl
  obtain ⟨used₁, pde₁, heq₁⟩ := exists_freeProgPage
    (k.setTermCurr (k.pcb fr.pcb).terminalNumber (some p)) (k.pcb fr.pcb).ptIdx
  obtain ⟨used, pde, heq⟩ := exists_setProgPage
    { k.setTermCurr (k.pcb fr.pcb).terminalNumber (some p) with
      progUsedPage := used₁, progPde := pde₁ } (k.pcb p).ptIdx
  exact ⟨used, pde, hstep _ _ heq₁ heq⟩

/-- The kernel of a process without a parent that has freed what it had. -/
def rootFreedAt (k : Kernel) (r : Slot) (page : Slot) : Kernel :=
  { k with
    termCurrPcb := update k.termCurrPcb (k.pcb r).terminalNumber none
    progUsedPage := update k.progUsedPage page false
    progPde := 0
    tssEsp0 := (k.pcb r).oldTssEsp
    pcbUsed := update k.pcbUsed r false }

theorem exists_halt_of_root (m : Machine) (hparent : (k.pcb fr.pcb).parent = none)
    (hpt : (k.pcb fr.pcb).ptIdx < maxNumProg) (hidx : (k.pcb fr.pcb).pcbIdx = fr.pcb)
    (sub : Frame) (arg : Word) :
    ∃ page c k', firstFree (rootFreedAt k fr.pcb page).pcbUsed = some c ∧
      (halt m k fr sub arg).2 = k' ∧ Launched (rootFreedAt k fr.pcb page) sub c k' := by
  have hk : (((k.setTermCurr (k.pcb fr.pcb).terminalNumber none).freeProgPage
      (k.pcb fr.pcb).ptIdx).setTssEsp0 (k.pcb fr.pcb).oldTssEsp).freePcb (k.pcb fr.pcb).pcbIdx
        = rootFreedAt k fr.pcb ⟨(k.pcb fr.pcb).ptIdx, hpt⟩ := by
    rw [Kernel.freeProgPage, dif_pos hpt, hidx]
    rfl
  have hpage :
      firstFree (rootFreedAt k fr.pcb ⟨(k.pcb fr.pcb).ptIdx, hpt⟩).progUsedPage ≠ none := by
    intro h
    have hfree : update k.progUsedPage ⟨(k.pcb fr.pcb).ptIdx, hpt⟩ false
        ⟨(k.pcb fr.pcb).ptIdx, hpt⟩ = true := firstFree_eq_none h _
    rw [update_self] at hfree
    cases hfree
  have hslot : firstFree (rootFreedAt k fr.pcb ⟨(k.pcb fr.pcb).ptIdx, hpt⟩).pcbUsed ≠ none := by
    intro h
    have hfree : update k.pcbUsed fr.pcb false fr.pcb = true := firstFree_eq_none h fr.pcb
    rw [update_self] at hfree
    cases hfree
  obtain ⟨c, eip, k', hc, hexec, hst⟩ := execute_shell_launches m sub hpage hslot
  refine ⟨_, c, k', hc, ?_, hst⟩
  simp only [halt, hparent, hk, hexec]

/-! ## The invariant -/

/-- Every head is a process of its terminal, and is `r` or was suspended on its own stack. Every
process has its own slot and stack, and returns to the stack of its parent. -/
structure Placed (k : Kernel) (r : Slot) : Prop where
  used : ∀ t i, k.termCurrPcb t = some i → k.pcbUsed i = true
  owner : ∀ t i, k.termCurrPcb t = some i → (k.pcb i).terminalNumber = t
  saved : ∀ t i, k.termCurrPcb t = some i → i ≠ r → getPcb (k.pcb i).esp = some i
  self : ∀ i, k.pcbUsed i = true →
    (k.pcb i).ptIdx < maxNumProg ∧ (k.pcb i).pcbIdx = i ∧ (k.pcb i).tssEsp = getKstackAddr i
  back : ∀ i p, k.pcbUsed i = true → (k.pcb i).parent = some p →
    p ≠ i ∧ getPcb (k.pcb i).oldTssEsp = some p ∧ getPcb (k.pcb i).oldEsp = some p

/-- `r` is running on top of its terminal, and does not have the video memory mapped in the
background. -/
structure VideoInv (m : Machine) (k : Kernel) (r : Slot) : Prop extends Placed k r where
  current : getPcb k.esp = some r
  entry : getPcb k.tssEsp0 = some r
  head : k.termCurrPcb (k.pcb r).terminalNumber = some r
  hidden : (k.pcb r).terminalNumber ≠ k.currentActiveTerminal → ¬ k.MapsVideo m

theorem Placed.congr {r' : Slot} (h : Placed k r) (hsame : ∀ i, (k'.pcb i).Same (k.pcb i))
    (hsaved : ∀ t i, k.termCurrPcb t = some i → i ≠ r' → getPcb (k'.pcb i).esp = some i)
    (hhead : k'.termCurrPcb = k.termCurrPcb) (hused : k'.pcbUsed = k.pcbUsed) : Placed k' r' := by
  constructor
  · rw [hhead, hused]
    exact h.used
  · intro t i hi
    rw [hhead] at hi
    rw [(hsame i).terminalNumber]
    exact h.owner t i hi
  · rw [hhead]
    exact hsaved
  · intro i hi
    rw [hused] at hi
    rw [(hsame i).ptIdx, (hsame i).pcbIdx, (hsame i).tssEsp]
    exact h.self i hi
  · intro i p hi hp
    rw [hused] at hi
    rw [(hsame i).parent] at hp
    rw [(hsame i).oldTssEsp, (hsame i).oldEsp]
    exact h.back i p hi hp

theorem VideoInv.used_self (h : VideoInv m k r) : k.pcbUsed r = true := h.used _ _ h.head

/-- The frame that is called on is on the stack of the running process. -/
theorem VideoInv.frame_eq (h : VideoInv m k r)
    (hfr : getPcb k.esp = some fr.pcb ∨ getPcb k.tssEsp0 = some fr.pcb) : fr.pcb = r := by
  rcases hfr with hfr | hfr
  · exact (Option.some.inj (h.current.symm.trans hfr)).symm
  · exact (Option.some.inj (h.entry.symm.trans hfr)).symm

/-- Only the stack pointer changes when an operation is entered. -/
theorem VideoInv.enter (h : VideoInv m k r) (hfr : fr.pcb = r) : VideoInv m (k.entered fr) r :=
  { h with current := hfr ▸ fr.getPcb_esp }

/-- Starting a program, for whichever terminal is looked at, puts it on top. -/
theorem Placed.of_launched (h : Placed k fr.pcb) (hc : firstFree k.pcbUsed = some c)
    (hst : Launched k fr c k')
    (hcaller : k.termCurrPcb k.currentActiveTerminal ≠ none →
      k.pcbUsed fr.pcb = true ∧ getPcb k.tssEsp0 = some fr.pcb) : Placed k' c := by
  have hfree : k.pcbUsed c = false := firstFree_eq_some hc
  have hne : ∀ i, k.pcbUsed i = true → i ≠ c := by
    intro i hi he
    rw [he, hfree] at hi
    cases hi
  -- a head is the new process, or was a head before
  have hcases : ∀ t i, k'.termCurrPcb t = some i →
      (i = c ∧ t = k.currentActiveTerminal) ∨ (i ≠ c ∧ k.termCurrPcb t = some i) := by
    intro t i hi
    rw [hst.termCurrPcb, update_apply] at hi
    split_ifs at hi with ht
    · exact .inl ⟨(Option.some.inj hi).symm, ht⟩
    · exact .inr ⟨hne i (h.used t i hi), hi⟩
  have hused : ∀ i, i ≠ c → k'.pcbUsed i = k.pcbUsed i := by
    intro i hi
    rw [hst.pcbUsed, update_of_ne hi]
  constructor
  · intro t i hi
    rcases hcases t i hi with ⟨rfl, -⟩ | ⟨hic, hi⟩
    · rw [hst.pcbUsed, update_self]
    · rw [hused i hic]
      exact h.used t i hi
  · intro t i hi
    rcases hcases t i hi with ⟨rfl, rfl⟩ | ⟨hic, hi⟩
    · exact hst.terminalNumber
    · rw [(hst.same hic).terminalNumber]
      exact h.owner t i hi
  · intro t i hi hic
    have hi' := ((hcases t i hi).resolve_left fun h => hic h.1).2
    rcases eq_or_ne i fr.pcb with rfl | hifr
    · rw [hst.caller hic]
      exact fr.getPcb_esp
    · rw [hst.other i hic hifr]
      exact h.saved t i hi' hifr
  · intro i hi
    rcases eq_or_ne i c with rfl | hic
    · exact ⟨hst.ptIdx, hst.pcbIdx, hst.tssEsp⟩
    · have hsame := hst.same hic
      rw [hsame.ptIdx, hsame.pcbIdx, hsame.tssEsp]
      rw [hused i hic] at hi
      exact h.self i hi
  · intro i p hi hp
    rcases eq_or_ne i c with rfl | hic
    · rw [hst.parent] at hp
      cases hhead : k.termCurrPcb k.currentActiveTerminal with
      | none =>
        rw [hhead] at hp
        cases hp
      | some j =>
        rw [hhead, Option.map_some] at hp
        obtain ⟨hfr, htss⟩ := hcaller (by rw [hhead]; exact Option.some_ne_none j)
        obtain ⟨holdTss, holdEsp⟩ := hst.old (by rw [hhead]; rfl)
        rw [← Option.some.inj hp, holdTss, holdEsp]
        exact ⟨hne _ hfr, htss, fr.getPcb_esp⟩
    · have hsame := hst.same hic
      rw [hsame.parent] at hp
      rw [hsame.oldTssEsp, hsame.oldEsp]
      rw [hused i hic] at hi
      exact h.back i p hi hp

/-- A program that was started is the running one, and its terminal is looked at. -/
theorem VideoInv.of_launched (h : Placed k fr.pcb) (hc : firstFree k.pcbUsed = some c)
    (hst : Launched k fr c k')
    (hcaller : k.termCurrPcb k.currentActiveTerminal ≠ none →
      k.pcbUsed fr.pcb = true ∧ getPcb k.tssEsp0 = some fr.pcb) (m : Machine) :
    VideoInv m k' c := by
  refine ⟨h.of_launched hc hst hcaller, ?_, ?_, ?_, ?_⟩
  · rw [hst.esp, getPcb_getKstackAddr]
  · rw [hst.tssEsp0, getPcb_getKstackAddr]
  · rw [hst.terminalNumber, hst.termCurrPcb, update_self]
  · intro hback
    rw [hst.terminalNumber, hst.active] at hback
    exact absurd rfl hback

/-- A process that has freed its slot leaves the others in place, when the heads are those that were
there or the process `r'` of the terminal. -/
theorem Placed.freed {r' : Slot} (h : Placed k r) (hused : k'.pcbUsed = update k.pcbUsed r false)
    (hsame : ∀ i, (k'.pcb i).Same (k.pcb i)) (hesp : ∀ i, i ≠ r' → (k'.pcb i).esp = (k.pcb i).esp)
    (hheads : ∀ t i, k'.termCurrPcb t = some i → i ≠ r ∧ (k.termCurrPcb t = some i ∨
      i = r' ∧ k.pcbUsed i = true ∧ (k.pcb i).terminalNumber = t)) : Placed k' r' := by
  constructor
  · intro t i hi
    obtain ⟨hne, hcase⟩ := hheads t i hi
    rw [hused, update_of_ne hne]
    rcases hcase with hi' | ⟨-, hi', -⟩
    · exact h.used t i hi'
    · exact hi'
  · intro t i hi
    rw [(hsame i).terminalNumber]
    rcases (hheads t i hi).2 with hi' | ⟨-, -, hterm⟩
    · exact h.owner t i hi'
    · exact hterm
  · intro t i hi hne
    obtain ⟨hner, hcase⟩ := hheads t i hi
    rw [hesp i hne]
    exact h.saved t i (hcase.resolve_right fun h => hne h.1) hner
  · intro i hi
    rw [hused] at hi
    rw [(hsame i).ptIdx, (hsame i).pcbIdx, (hsame i).tssEsp]
    exact h.self i (used_of_freed hi).2
  · intro i p hi hp
    rw [hused] at hi
    rw [(hsame i).parent] at hp
    rw [(hsame i).oldTssEsp, (hsame i).oldEsp]
    exact h.back i p (used_of_freed hi).2 hp

/-- No other terminal has the process. -/
theorem Placed.ne_of_other (h : Placed k r) {j : Slot} (ht : t ≠ (k.pcb j).terminalNumber)
    (hi : k.termCurrPcb t = some i) : i ≠ j := by
  rintro rfl
  exact ht (h.owner t i hi).symm

/-! ## One operation -/

theorem VideoInv.execute (h : VideoInv m k r) (hfr : fr.pcb = r) (command : Option (List Byte)) :
    ∃ r', VideoInv m (execute m k fr command).2 r' := by
  subst hfr
  rcases execute_launches m k fr command with ⟨used, pde, v, heq, -⟩ | ⟨c, eip, k', hc, heq, hst⟩
  · rw [heq]
    exact ⟨fr.pcb, { h with }⟩
  · rw [heq]
    exact ⟨c, .of_launched h.toPlaced hc hst (fun _ => ⟨h.used_self, h.entry⟩) m⟩

/-- A tick gives the running process the video memory if and only if it chose the active
terminal. -/
theorem VideoInv.tick (h : VideoInv m k r) (hfr : fr.pcb = r) {ctl : Control}
    (hrun : doHandlePit m k fr = some (ctl, k')) : ∃ r', VideoInv m k' r' := by
  subst hfr
  have hsome : k.termCurrPcb (k.pcb fr.pcb).terminalNumber ≠ none := by
    rw [h.head]
    exact Option.some_ne_none _
  obtain ⟨u, i, hi, heq⟩ := doHandlePit_eq_some hsome m fr
  obtain rfl : (switchTo m k fr u i).2 = k' :=
    congrArg Prod.snd (Option.some.inj (heq.symm.trans hrun))
  obtain ⟨used, pde, heq'⟩ := exists_switchTo m k fr u i
  rw [heq']
  have hsaved : ∀ t j, k.termCurrPcb t = some j →
      getPcb (update k.pcb fr.pcb (switchedPcb k fr) j).esp = some j := by
    intro t j hj
    rcases eq_or_ne j fr.pcb with rfl | hne
    · rw [update_self]
      exact fr.getPcb_esp
    · rw [update_of_ne hne]
      exact h.saved t j hj hne
  have hsame : ∀ j, (update k.pcb fr.pcb (switchedPcb k fr) j).Same (k.pcb j) :=
    same_update (by constructor <;> rfl)
  have hterm := (hsame i).terminalNumber.trans (h.owner u i hi)
  refine ⟨i, h.toPlaced.congr hsame (fun t j hj _ => hsaved t j hj) rfl rfl, hsaved u i hi,
    ?_, ?_, ?_⟩
  · show getPcb (k.pcb i).tssEsp = some i
    rw [(h.self i (h.used u i hi)).2.2, getPcb_getKstackAddr]
  · show k.termCurrPcb (update k.pcb fr.pcb (switchedPcb k fr) i).terminalNumber = some i
    rw [hterm, hi]
  · intro hback
    rw [show _ = u from hterm] at hback
    have hoff : decide (u = k.currentActiveTerminal) = false := decide_eq_false hback
    rw [hoff]
    exact not_mapsVideo_setVideoPage m k

/-- A `halt` makes a parent of the same terminal the running process. -/
theorem VideoInv.halt_of_parent (h : VideoInv m k fr.pcb) (hparent : (k.pcb fr.pcb).parent = some p)
    (hused : k.pcbUsed p = true) (hterm : (k.pcb p).terminalNumber = (k.pcb fr.pcb).terminalNumber)
    (sub : Frame) (arg : Word) : VideoInv m (halt m k fr sub arg).2 p := by
  obtain ⟨-, hidx, -⟩ := h.self fr.pcb h.used_self
  obtain ⟨hne, htss, hesp⟩ := h.back fr.pcb p h.used_self hparent
  obtain ⟨used, pde, heq⟩ := exists_halt_of_parent m hparent sub arg
  rw [heq]
  have hsame : ∀ i, (update k.pcb p
      { k.pcb p with returnVal := (arg.setWidth 8).setWidth 32 &&& 0xFF } i).Same (k.pcb i) :=
    same_update (by constructor <;> rfl)
  refine ⟨?_, hesp, htss, ?_, ?_⟩
  · apply h.toPlaced.freed
    · show update k.pcbUsed (k.pcb fr.pcb).pcbIdx false = _
      rw [hidx]
    · exact hsame
    · intro i hi
      show (update k.pcb p _ i).esp = _
      rw [update_of_ne hi]
    · intro t i hi
      change update k.termCurrPcb (k.pcb fr.pcb).terminalNumber (some p) t = some i at hi
      rw [update_apply] at hi
      split_ifs at hi with ht
      · obtain rfl := Option.some.inj hi
        exact ⟨hne, .inr ⟨rfl, hused, hterm.trans ht.symm⟩⟩
      · exact ⟨h.ne_of_other ht hi, .inl hi⟩
  · rw [(hsame p).terminalNumber, hterm]
    exact update_self _ _ _
  · rw [(hsame p).terminalNumber, hterm]
    exact h.hidden

/-- A `halt` without a parent restarts the shell of the active terminal. -/
theorem VideoInv.halt_of_root (h : VideoInv m k fr.pcb) (hparent : (k.pcb fr.pcb).parent = none)
    (hactive : (k.pcb fr.pcb).terminalNumber = k.currentActiveTerminal) (sub : Frame) (arg : Word) :
    ∃ r', VideoInv m (halt m k fr sub arg).2 r' := by
  obtain ⟨hpt, hidx, -⟩ := h.self fr.pcb h.used_self
  obtain ⟨page, c, k', hc, heq, hst⟩ := exists_halt_of_root m hparent hpt hidx sub arg
  rw [heq]
  have hplaced : Placed (rootFreedAt k fr.pcb page) sub.pcb := by
    refine h.toPlaced.freed rfl (fun _ => .rfl) (fun _ _ => rfl) ?_
    intro t i hi
    change update k.termCurrPcb (k.pcb fr.pcb).terminalNumber none t = some i at hi
    rw [update_apply] at hi
    split_ifs at hi with ht
    exact ⟨h.ne_of_other ht hi, .inl hi⟩
  -- the terminal that is looked at has no process now, so that the new shell has no parent
  have hnone : (rootFreedAt k fr.pcb page).termCurrPcb
      (rootFreedAt k fr.pcb page).currentActiveTerminal = none := by
    show update k.termCurrPcb (k.pcb fr.pcb).terminalNumber none k.currentActiveTerminal = none
    rw [hactive, update_self]
  exact ⟨c, .of_launched hplaced hc hst (fun hsome => absurd hnone hsome) m⟩

/-- A `halt` makes the parent the running process, or restarts the shell of the active terminal. -/
theorem VideoInv.halt (h : VideoInv m k r) (hfr : fr.pcb = r) {arg : Word}
    (hsafe : VideoSafe k (.kernel (.halt fr sub arg))) :
    ∃ r', VideoInv m (halt m k fr sub arg).2 r' := by
  subst hfr
  rw [VideoSafe] at hsafe
  cases hparent : (k.pcb fr.pcb).parent with
  | some p =>
    rw [hparent] at hsafe
    exact ⟨p, h.halt_of_parent hparent hsafe.1 hsafe.2 sub arg⟩
  | none =>
    rw [hparent] at hsafe
    exact h.halt_of_root hparent hsafe sub arg

/-- A terminal switch takes the video page off the screen, whichever terminal the running process
is of. -/
theorem VideoInv.switch (h : VideoInv m k r) (hfr : fr.pcb = r) (old new : Term) :
    ∃ r', VideoInv m (changeVideoMem m k fr old new).2 r' := by
  rcases changeVideoMem_cases m k fr old new with heq | ⟨k₁, hk₁, ⟨-, heq⟩ | ⟨-, -, heq⟩⟩
  · rw [heq]
    exact ⟨r, h⟩
  all_goals
    have h₁ : VideoInv m k₁ r := by
      rw [hk₁]
      exact { h with hidden := fun _ => not_mapsVideo_setVideoPage m k }
    rw [heq]
  · exact ⟨r, h₁⟩
  · exact h₁.execute hfr (some shell)

/-- `vidmap` fails, or maps the video memory. -/
theorem sysVidmap_cases (m : Machine) (k : Kernel) (mem : Memory) (screenStart : Word) :
    (accessOk screenStart = error ∧ (sysVidmap m k mem screenStart).val.2.1 = k) ∨
      (accessOk screenStart ≠ error ∧
        (sysVidmap m k mem screenStart).val.2.1 = addNewPt m k 0xB8000) := by
  have hnull : accessOk 0 = error := rfl
  by_cases hok : accessOk screenStart = error
  · left
    rw [sysVidmap, if_pos hok, ite_self]
    exact ⟨hok, rfl⟩
  · right
    have hne : screenStart ≠ 0 := by
      intro h
      rw [h] at hok
      exact hok hnull
    rw [sysVidmap, if_neg hne, if_neg hok]
    exact ⟨hok, rfl⟩

/-- **One operation** keeps the invariant. -/
theorem VideoInv.step {op : VideoOp} (h : VideoInv m k r) (hsafe : VideoSafe k op)
    (hst : (videoLTS m).step k op k') : ∃ r', VideoInv m k' r' := by
  match op with
  | .kernel (.execute fr command) =>
    obtain ⟨hop, c, hrun⟩ := hst
    have hfr : fr.pcb = r := h.frame_eq hop.1
    rw [← show _ = k' from congrArg Prod.snd (Option.some.inj hrun)]
    exact (h.enter hfr).execute hfr command
  | .kernel (.halt fr sub arg) =>
    obtain ⟨hop, c, hrun⟩ := hst
    have hfr : fr.pcb = r := h.frame_eq hop.1
    rw [← show _ = k' from congrArg Prod.snd (Option.some.inj hrun)]
    exact (h.enter hfr).halt hfr hsafe
  | .kernel (.switch fr new) =>
    obtain ⟨hop, c, hrun⟩ := hst
    have hfr : fr.pcb = r := h.frame_eq hop.1
    rw [← show _ = k' from congrArg Prod.snd (Option.some.inj hrun)]
    exact (h.enter hfr).switch hfr _ new
  | .kernel (.tick fr) =>
    obtain ⟨hop, c, hrun⟩ := hst
    have hfr : fr.pcb = r := h.frame_eq hop.1
    exact (h.enter hfr).tick hfr hrun
  | .vidmap fr mem screenStart =>
    obtain ⟨hop, rfl⟩ := hst
    have hfr : fr.pcb = r := h.frame_eq hop
    have hent := h.enter hfr
    rcases sysVidmap_cases m (k.entered fr) mem screenStart with ⟨-, heq⟩ | ⟨hok, heq⟩
    · rw [heq]
      exact ⟨r, hent⟩
    · rw [heq]
      have hactive := hsafe hok
      rw [hfr] at hactive
      exact ⟨r, { hent with hidden := fun hback => absurd hactive hback }⟩

/-! ## Runs -/

theorem videoInv_init (h : (videoLTS m).init k) : VideoInv m k 0 := by
  obtain ⟨pcb, progPage, fr, hfr, rfl⟩ := h
  have hplaced : Placed (bootKernel pcb progPage) fr.pcb := by
    constructor
    · intro t i hi
      cases hi
    · intro t i hi
      cases hi
    · intro t i hi _
      cases hi
    · intro i hi
      cases hi
    · intro i p hi _
      cases hi
  have hfree : firstFree (bootKernel pcb progPage).pcbUsed = some 0 := rfl
  obtain ⟨c, eip, k', hc, hexec, hst⟩ := execute_shell_launches m fr
    (show firstFree (bootKernel pcb progPage).progUsedPage ≠ none from Option.some_ne_none 0)
    (show firstFree (bootKernel pcb progPage).pcbUsed ≠ none from Option.some_ne_none 0)
  obtain rfl := Option.some.inj (hfree.symm.trans hc)
  rw [hexec]
  exact .of_launched hplaced hc hst (fun hsome => absurd rfl hsome) m

theorem VideoInv.videoIsolated (h : VideoInv m k r) : VideoIsolated m k := by
  intro r' hr' hback
  obtain rfl := Option.some.inj (h.current.symm.trans hr')
  exact h.hidden hback

theorem exists_videoInv_of_reach (h : (videoLTS m).Reach VideoSafe k) : ∃ r, VideoInv m k r := by
  apply h.invariant (I := fun k => ∃ r, VideoInv m k r)
  · intro k hinit
    exact ⟨0, videoInv_init hinit⟩
  · intro k op k' hinv hsafe hst
    obtain ⟨r, hinv⟩ := hinv
    exact hinv.step hsafe hst

/-- **Video page isolation.** In every state of a run in which `vidmap` is called in the foreground
and `halt` goes back to a process of the same terminal, a process in the background does not have
the video memory mapped; and a further `vidmap` leaves it so if and only if it keeps to that. -/
theorem videoIsolated_of_safe (h : (videoLTS m).Reach VideoSafe k) :
    VideoIsolated m k ∧ ∀ fr mem screenStart k',
      (videoLTS m).step k (.vidmap fr mem screenStart) k' →
        (VideoIsolated m k' ↔ VideoSafe k (.vidmap fr mem screenStart)) := by
  obtain ⟨r, hinv⟩ := exists_videoInv_of_reach h
  refine ⟨hinv.videoIsolated, ?_⟩
  intro fr mem screenStart k' hst
  constructor
  · intro hiso hok
    by_contra hback
    obtain ⟨hop, rfl⟩ := hst
    rcases sysVidmap_cases m (k.entered fr) mem screenStart with ⟨herr, -⟩ | ⟨-, heq⟩
    · exact hok herr
    · rw [heq] at hiso
      exact hiso fr.pcb fr.getPcb_esp hback (mapsVideo_addNewPt m (k.entered fr))
  · intro hsafe
    obtain ⟨r', hinv'⟩ := hinv.step hsafe hst
    exact hinv'.videoIsolated

/-! ## A program in the background that draws on the screen -/

/-- The shell of terminal 0 has called `vidmap` while terminal 1 is looked at. -/
def sampleMapped : Kernel :=
  (sysVidmap sampleMachine (sampleTicked.entered (Frame.top 0)) (fun _ => 0) 0x8048000).val.2.1

theorem sampleMapped_step : (videoLTS sampleMachine).step sampleTicked
    (.vidmap (Frame.top 0) (fun _ => 0) 0x8048000) sampleMapped :=
  ⟨.inl (by decide), rfl⟩

theorem sampleTicked_videoReach : (videoLTS sampleMachine).Reach VideoSafe sampleTicked :=
  .step (a := .kernel (.tick (Frame.top 1)))
    (.step (a := .kernel (.switch (Frame.top 0) 1)) (.init sampleBoot_init) trivial
      sampleSwitched_step)
    trivial sampleTicked_step

/-- Then it has the video memory mapped. -/
theorem not_videoIsolated_sampleMapped :
    ∃ k, (videoLTS sampleMachine).Reach LTS.always k ∧ ¬ VideoIsolated sampleMachine k := by
  have hreach : (videoLTS sampleMachine).Reach LTS.always sampleTicked :=
    sampleTicked_videoReach.mono fun _ _ _ _ => trivial
  refine ⟨sampleMapped, .step hreach trivial sampleMapped_step, ?_⟩
  intro h
  have hback : (sampleMapped.pcb 0).terminalNumber ≠ sampleMapped.currentActiveTerminal := by
    decide
  have hesp : getPcb sampleMapped.esp = some 0 := by decide
  apply h 0 hesp hback
  rw [Kernel.MapsVideo]
  decide

/-! ## A program that draws in the foreground -/

/-- The program of terminal 0 has called `vidmap`. -/
def sampleDrawing : Kernel :=
  (sysVidmap sampleMachine (sampleLaunched.entered (Frame.top 1)) (fun _ => 0)
    0x8048000).val.2.1

/-- The user has switched to terminal 1. -/
def sampleHidden : Kernel :=
  (changeVideoMem sampleMachine (sampleDrawing.entered (Frame.top 1)) (Frame.top 1)
    sampleDrawing.currentActiveTerminal 1).2

/-- A tick has resumed the program. -/
def sampleBehind : Kernel :=
  (switchTo sampleMachine (sampleHidden.entered (Frame.top 2)) (Frame.top 2) 0 1).2

theorem sampleDrawing_step : (videoLTS sampleMachine).step sampleLaunched
    (.vidmap (Frame.top 1) (fun _ => 0) 0x8048000) sampleDrawing :=
  ⟨.inl (by decide), rfl⟩

theorem sampleHidden_step : (videoLTS sampleMachine).step sampleDrawing
    (.kernel (.switch (Frame.top 1) 1)) sampleHidden :=
  ⟨⟨.inl (by decide), trivial⟩, _, rfl⟩

theorem sampleBehind_step : (videoLTS sampleMachine).step sampleHidden
    (.kernel (.tick (Frame.top 2))) sampleBehind := by
  have hhead : sampleHidden.termCurrPcb 0 = some 1 := by decide
  have hnext : nextTerminal sampleHidden.termCurrPcb 2 = some 0 := by decide
  exact ⟨⟨.inl (by decide), trivial⟩, _,
    doHandlePit_of_next sampleMachine (sampleHidden.entered (Frame.top 2)) (Frame.top 2) hnext
      hhead⟩

theorem sampleBehind_reach : (videoLTS sampleMachine).Reach VideoSafe sampleBehind := by
  have h1 : (videoLTS sampleMachine).Reach VideoSafe sampleLaunched :=
    .step (a := .kernel (.execute (Frame.top 0) (some shell))) (.init sampleBoot_init) trivial
      sampleLaunched_step
  have h2 : (videoLTS sampleMachine).Reach VideoSafe sampleDrawing :=
    .step (a := .vidmap (Frame.top 1) (fun _ => 0) 0x8048000) h1 (fun _ => by decide)
      sampleDrawing_step
  have h3 : (videoLTS sampleMachine).Reach VideoSafe sampleHidden :=
    .step (a := .kernel (.switch (Frame.top 1) 1)) h2 trivial sampleHidden_step
  exact .step (a := .kernel (.tick (Frame.top 2))) h3 trivial sampleBehind_step

/-- It drew on the screen while it was looked at, and does not when it runs in the background. -/
theorem videoIsolated_of_safe_sample : sampleDrawing.MapsVideo sampleMachine ∧
    getPcb sampleBehind.esp = some 1 ∧ ¬ sampleBehind.MapsVideo sampleMachine := by
  have hesp : getPcb sampleBehind.esp = some 1 := by decide
  have hback : (sampleBehind.pcb 1).terminalNumber ≠ sampleBehind.currentActiveTerminal := by
    decide
  exact ⟨mapsVideo_addNewPt sampleMachine (sampleLaunched.entered (Frame.top 1)), hesp,
    (videoIsolated_of_safe sampleBehind_reach).1 1 hesp hback⟩

end HieUnix
