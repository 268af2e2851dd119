import HieUnix.Process
import HieUnix.Lib.LinkedStacks

/-!
# The process tables as stacks of processes

Each terminal has a stack of processes, linked through `parent` with the running or next program
on top. `Tables k L` says that the tables of `k` describe the stacks `L`, with the pages and the
return data of each process in place; `Inv k r L` adds that `r` is running.

The first part says once what each operation does to the tables (`execute_cases`,
`halt_of_parent`, `halt_of_root`, `doHandlePit_cases`, `changeVideoMem_cases`); the second derives
from it that each operation keeps the invariant.

`execute` pushes the new process on the stack of the terminal that is looked at. That is the
stack of its caller when the caller's terminal is the active one, which is the condition the
step lemmas have.
-/

namespace HieUnix

open Function LinkedStacks

variable {m : Machine} {k k' : Kernel} {fr sub : Frame} {c p r : Slot} {L : Term → List Slot}

/-! ## What `execute` does -/

theorem firstFree_eq_some {used : Slot → Bool} (h : firstFree used = some c) : used c = false := by
  simpa using List.find?_some h

theorem firstFree_eq_none {used : Slot → Bool} (h : firstFree used = none) (i : Slot) :
    used i = true := by
  have hi := List.find?_eq_none.mp h i (List.mem_finRange i)
  simpa using hi

/-- `execute` gets as far as starting a program. -/
def Starts (m : Machine) (k : Kernel) (command : Option (List Byte)) : Prop :=
  ∃ s, command = some s ∧ s ≠ [] ∧ (checkProgram m.fs m.img s).isSome ∧
    (firstFree k.pcbUsed).isSome

/-- What starting a program in slot `c` from the frame `fr` does to the tables. -/
structure Started (k : Kernel) (fr : Frame) (c : Slot) (k' : Kernel) : Prop where
  pcbUsed : k'.pcbUsed = update k.pcbUsed c true
  progUsedPage : k'.progUsedPage = update k.progUsedPage c true
  progPde : k'.progPde = progPde c
  tssEsp0 : k'.tssEsp0 = getKstackAddr c
  esp : k'.esp = getKstackAddr c
  termCurrPcb : k'.termCurrPcb = update k.termCurrPcb k.currentActiveTerminal (some c)
  active : k'.currentActiveTerminal = k.currentActiveTerminal
  parent : (k'.pcb c).parent = (k.termCurrPcb k.currentActiveTerminal).map fun _ => fr.pcb
  terminalNumber : (k'.pcb c).terminalNumber = k.currentActiveTerminal
  ptIdx : (k'.pcb c).ptIdx = c
  pcbIdx : (k'.pcb c).pcbIdx = c
  tssEsp : (k'.pcb c).tssEsp = getKstackAddr c
  oldTssEsp : (k.termCurrPcb k.currentActiveTerminal).isSome → (k'.pcb c).oldTssEsp = k.tssEsp0
  oldEsp : (k.termCurrPcb k.currentActiveTerminal).isSome → (k'.pcb c).oldEsp = fr.esp
  oldEbp : (k.termCurrPcb k.currentActiveTerminal).isSome → (k'.pcb c).oldEbp = fr.ebp
  caller : fr.pcb ≠ c →
    k'.pcb fr.pcb = { k.pcb fr.pcb with esp := fr.esp, ebp := fr.ebp, eip := .retHere }
  other : ∀ i, i ≠ c → i ≠ fr.pcb → k'.pcb i = k.pcb i

theorem Started.head (h : Started k fr c k') :
    k'.termCurrPcb k.currentActiveTerminal = some c := by
  rw [h.termCurrPcb, update_self]

/-- The process control blocks after `execute`. -/
theorem runChild_pcb (m : Machine) (k : Kernel) (fr : Frame) (pt c : Slot) (command : List Byte)
    (exe : Exe) (i : Slot) :
    (runChild m k fr command exe pt c).pcb i
      = let child := childPcb k command pt c
        let linked :=
          match k.termCurrPcb k.currentActiveTerminal with
          | some _ => { child with
              parent := some fr.pcb, oldEsp := fr.esp, oldEbp := fr.ebp, oldTssEsp := k.tssEsp0 }
          | none => { child with parent := none }
        let p := if i = c then linked else k.pcb i
        if i = fr.pcb then { p with esp := fr.esp, ebp := fr.ebp, eip := .retHere } else p := by
  simp only [runChild, Kernel.setTssEsp0, Kernel.setTermCurr, Kernel.setPcb]
  cases k.termCurrPcb k.currentActiveTerminal <;>
    · simp only [update_apply, update_idem]
      split_ifs <;> simp_all

/-- The control block of the new process after `execute`. -/
theorem runChild_pcb_self (m : Machine) (k : Kernel) (fr : Frame) (pt c : Slot)
    (command : List Byte) (exe : Exe) :
    ∃ p, (runChild m k fr command exe pt c).pcb c = p ∧
      p.parent = (k.termCurrPcb k.currentActiveTerminal).map (fun _ => fr.pcb) ∧
      p.terminalNumber = k.currentActiveTerminal ∧ p.ptIdx = pt ∧ p.pcbIdx = c ∧
      p.tssEsp = getKstackAddr c ∧
      ((k.termCurrPcb k.currentActiveTerminal).isSome →
        p.oldTssEsp = k.tssEsp0 ∧ p.oldEsp = fr.esp ∧ p.oldEbp = fr.ebp) := by
  refine ⟨_, rfl, ?_⟩
  rw [runChild_pcb]
  cases k.termCurrPcb k.currentActiveTerminal <;>
    · simp only [↓reduceIte]
      split_ifs <;> simp [childPcb, storeArguments, initializePcb]

/-- The tables after `execute`: the allocators have done their part before. -/
theorem runChild_tables (k : Kernel) (fr : Frame) (command : List Byte) (exe : Exe)
    (pt c : Slot) :
    let k' := runChild m k fr command exe pt c
    k'.pcbUsed = k.pcbUsed ∧ k'.progUsedPage = k.progUsedPage ∧ k'.progPde = k.progPde ∧
      k'.tssEsp0 = getKstackAddr c ∧ k'.esp = getKstackAddr c ∧
      k'.termCurrPcb = update k.termCurrPcb k.currentActiveTerminal (some c) ∧
      k'.currentActiveTerminal = k.currentActiveTerminal := by
  cases h : k.termCurrPcb k.currentActiveTerminal <;>
    simp [runChild, Kernel.setPcb, Kernel.setTssEsp0, Kernel.setTermCurr, h]

/-- The kernel between the two allocators and `initialize_pcb`, when the page it gets may be of
another number than its slot. -/
def allocatedAt (k : Kernel) (pt c : Slot) : Kernel :=
  { k with
    progUsedPage := update k.progUsedPage pt true
    progPde := progPde pt
    pcbUsed := update k.pcbUsed c true }

/-- `execute` of a command: the checks, the two allocators, and the start of the program. -/
theorem execute_eq (m : Machine) (k : Kernel) (fr : Frame) {s : List Byte} (hs : s ≠ []) :
    execute m k fr (some s)
      = match checkProgram m.fs m.img s, firstFree k.progUsedPage, firstFree k.pcbUsed with
        | none, _, _ => (.ret error, k)
        | some _, none, _ => (.ret error, k)
        | some _, some pt, none =>
          (.ret error, { k with
            progUsedPage := update k.progUsedPage pt true
            progPde := progPde pt })
        | some exe, some pt, some c =>
          (.enter exe.eip, runChild m (allocatedAt k pt c) fr s exe pt c) := by
  rw [execute, if_neg hs]
  cases checkProgram m.fs m.img s with
  | none => rfl
  | some exe =>
    rw [Kernel.addProgPage]
    cases firstFree k.progUsedPage with
    | none => rfl
    | some pt =>
      dsimp only [Option.map_some]
      rw [Kernel.addPcb]
      cases firstFree k.pcbUsed <;> rfl

/-- The kernel between the two allocators when page and slot have one number. -/
def allocated (k : Kernel) (c : Slot) : Kernel :=
  { k with
    progUsedPage := update k.progUsedPage c true
    progPde := progPde c
    pcbUsed := update k.pcbUsed c true }

@[simp] theorem allocated_pcb (k : Kernel) (c : Slot) : (allocated k c).pcb = k.pcb := rfl

theorem started_runChild (k : Kernel) (fr : Frame) (c : Slot) (command : List Byte) (exe : Exe) :
    Started k fr c (runChild m (allocated k c) fr command exe c c) := by
  obtain ⟨hused, hpage, hpde, htss, hesp, hcurr, hactive⟩ :=
    runChild_tables (m := m) (allocated k c) fr command exe c c
  obtain ⟨p, hp, hparent, hterm, hpt, hidx, htssEsp, hold⟩ :=
    runChild_pcb_self m (allocated k c) fr c c command exe
  have hpcb := runChild_pcb m (allocated k c) fr c c command exe
  exact
    { pcbUsed := hused, progUsedPage := hpage, progPde := hpde, tssEsp0 := htss, esp := hesp
      termCurrPcb := hcurr, active := hactive
      parent := hp ▸ hparent, terminalNumber := hp ▸ hterm, ptIdx := hp ▸ hpt
      pcbIdx := hp ▸ hidx, tssEsp := hp ▸ htssEsp
      oldTssEsp := fun h => hp ▸ (hold h).1
      oldEsp := fun h => hp ▸ (hold h).2.1
      oldEbp := fun h => hp ▸ (hold h).2.2
      caller := fun hne => by simpa [hne] using hpcb fr.pcb
      other := fun i hic hifr => by simpa [hic, hifr] using hpcb i }

/-- Both allocators give the first free slot, so `execute` fails and changes nothing, or starts
a program there. -/
theorem execute_cases (hpage : k.progUsedPage = k.pcbUsed) (fr : Frame)
    (command : Option (List Byte)) :
    (¬ Starts m k command ∧ execute m k fr command = (.ret error, k)) ∨
    (Starts m k command ∧ ∃ c eip k', firstFree k.pcbUsed = some c ∧
      execute m k fr command = (.enter eip, k') ∧ Started k fr c k') := by
  match command with
  | none => exact .inl ⟨fun ⟨_, h, _⟩ => (Option.some_ne_none _ h.symm).elim, rfl⟩
  | some s =>
    by_cases hs : s = []
    · exact .inl ⟨fun ⟨_, h, hne, _⟩ => hne (Option.some.inj h ▸ hs), if_pos hs⟩
    rw [execute_eq m k fr hs, hpage]
    match hexe : checkProgram m.fs m.img s, hfree : firstFree k.pcbUsed with
    | none, _ =>
      refine .inl ⟨fun ⟨_, h, _, hsome, _⟩ => ?_, rfl⟩
      rw [← Option.some.inj h, hexe] at hsome
      exact Bool.false_ne_true hsome
    | some exe, none =>
      refine .inl ⟨fun ⟨_, _, _, _, hsome⟩ => ?_, rfl⟩
      rw [hfree] at hsome
      exact Bool.false_ne_true hsome
    | some exe, some c =>
      exact .inr ⟨⟨s, rfl, hs, by rw [hexe]; rfl, by rw [hfree]; rfl⟩, c, exe.eip,
        runChild m (allocated k c) fr s exe c c, rfl, rfl, started_runChild k fr c s exe⟩

/-- A shell starts when a slot is free. -/
theorem execute_shell (m : Machine) (hpage : k.progUsedPage = k.pcbUsed)
    (hfree : firstFree k.pcbUsed ≠ none) (fr : Frame) :
    ∃ c eip k', firstFree k.pcbUsed = some c ∧
      execute m k fr (some shell) = (.enter eip, k') ∧ Started k fr c k' := by
  rcases execute_cases (m := m) hpage fr (some shell) with ⟨hnot, -⟩ | ⟨-, h⟩
  · refine absurd ⟨shell, rfl, List.cons_ne_nil _ _, ?_, Option.isSome_iff_ne_none.mpr hfree⟩ hnot
    rw [m.checkProgram_shell]
    rfl
  · exact h

/-! ## What `halt` does -/

/-- `halt` of a process with a parent. -/
theorem halt_of_parent (hparent : (k.pcb fr.pcb).parent = some p)
    (hpt : (k.pcb fr.pcb).ptIdx = fr.pcb) (hidx : (k.pcb fr.pcb).pcbIdx = fr.pcb)
    (hpt' : (k.pcb p).ptIdx = p) (sub : Frame) (arg : Word) :
    halt m k fr sub arg = (.jump (k.pcb fr.pcb).oldEsp (k.pcb fr.pcb).oldEbp .retHere,
      { k with
        termCurrPcb := update k.termCurrPcb (k.pcb fr.pcb).terminalNumber (some p)
        progUsedPage := update (update k.progUsedPage fr.pcb false) p true
        progPde := progPde p
        tssEsp0 := (k.pcb fr.pcb).oldTssEsp
        pcbUsed := update k.pcbUsed fr.pcb false
        pcb := update k.pcb p { k.pcb p with returnVal := (arg.setWidth 8).setWidth 32 &&& 0xFF }
        esp := (k.pcb fr.pcb).oldEsp }) := by
  simp only [halt, hparent, Kernel.setTermCurr, Kernel.freeProgPage, Kernel.setProgPage,
    Kernel.setTssEsp0, Kernel.freePcb, Kernel.setPcb, hpt, hpt', hidx, Fin.is_lt, dite_true]

/-- The kernel of a root process that has freed what it had. -/
def rootFreed (k : Kernel) (r : Slot) : Kernel :=
  { k with
    termCurrPcb := update k.termCurrPcb (k.pcb r).terminalNumber none
    progUsedPage := update k.progUsedPage r false
    progPde := 0
    tssEsp0 := (k.pcb r).oldTssEsp
    pcbUsed := update k.pcbUsed r false }

/-- `halt` of a process without a parent executes a shell when it has freed what it had. -/
theorem halt_of_root (hpage : k.progUsedPage = k.pcbUsed) (hparent : (k.pcb fr.pcb).parent = none)
    (hpt : (k.pcb fr.pcb).ptIdx = fr.pcb) (hidx : (k.pcb fr.pcb).pcbIdx = fr.pcb) (sub : Frame)
    (arg : Word) :
    ∃ c eip k', firstFree (rootFreed k fr.pcb).pcbUsed = some c ∧
      halt m k fr sub arg = (.enter eip, k') ∧ Started (rootFreed k fr.pcb) sub c k' := by
  have hfree : firstFree (rootFreed k fr.pcb).pcbUsed ≠ none := fun h => by
    simpa [rootFreed] using firstFree_eq_none h fr.pcb
  have hpage' : (rootFreed k fr.pcb).progUsedPage = (rootFreed k fr.pcb).pcbUsed := by
    simp only [rootFreed, hpage]
  obtain ⟨c, eip, k', hc, hexec, hstarted⟩ := execute_shell m hpage' hfree sub
  refine ⟨c, eip, k', hc, ?_, hstarted⟩
  have hk : (((k.setTermCurr (k.pcb fr.pcb).terminalNumber none).freeProgPage
      (k.pcb fr.pcb).ptIdx).setTssEsp0 (k.pcb fr.pcb).oldTssEsp).freePcb (k.pcb fr.pcb).pcbIdx
        = rootFreed k fr.pcb := by
    simp only [Kernel.setTermCurr, Kernel.freeProgPage, Kernel.setTssEsp0, Kernel.freePcb, hpt,
      hidx, Fin.is_lt, dite_true, rootFreed]
  simp only [halt, hparent, hk, hexec]

/-! ## What a tick and a terminal switch do -/

/-- The terminal an index of the selection loop stands for. -/
def indexTerminal (i : ℕ) : Term := ⟨i % numTerminals, mod_numTerminals_lt i⟩

/-- The loop ends at a head, or where it started. -/
theorem nextIndexLoop_eq_some {head : Term → Option Slot} {q fuel i n : ℕ}
    (h : nextIndexLoop head q fuel i = some n) :
    head (indexTerminal n) ≠ none ∨ n % numTerminals = q := by
  induction fuel generalizing i with
  | zero => cases h
  | succ fuel ih =>
    rw [nextIndexLoop] at h
    split at h
    · split at h
      · rename_i hq
        exact .inr (Option.some.inj h ▸ hq)
      · exact ih h
    · rename_i hi
      exact .inl (Option.some.inj h ▸ hi)

/-- The loop ends at the latest at a head. -/
theorem nextIndexLoop_isSome {head : Term → Option Slot} {q fuel i n : ℕ}
    (hn : head (indexTerminal n) ≠ none) (hle : i ≤ n) (hlt : n < i + fuel) :
    (nextIndexLoop head q fuel i).isSome := by
  induction fuel generalizing i with
  | zero => omega
  | succ fuel ih =>
    rw [nextIndexLoop]
    split
    · rename_i hi
      split
      · rfl
      · have hne : i ≠ n := fun h => hn (h ▸ hi)
        exact ih (by omega) (by omega)
    · rfl

/-- The search for the running process ends at its terminal, or past the last one. -/
theorem findIndex_cases (head : Term → Option Slot) (temp : Slot) :
    (∃ t : Term, findIndex head temp = t ∧ head t = some temp) ∨
      findIndex head temp = numTerminals := by
  rw [findIndex]
  split
  · rename_i j hj
    exact .inl ⟨j, rfl, by simpa using List.find?_some hj⟩
  · exact .inr rfl

/-- The selection ends at a terminal with a program when there is one. -/
theorem nextTerminal_eq_some {head : Term → Option Slot} {t : Term} (ht : head t ≠ none)
    (temp : Slot) : ∃ u i, nextTerminal head temp = some u ∧ head u = some i := by
  have hq : findIndex head temp ≤ numTerminals := by
    rcases findIndex_cases head temp with ⟨u, hu, -⟩ | h <;> omega
  -- one of the next three indices stands for `t`
  obtain ⟨n, hle, hlt, hn⟩ : ∃ n, findIndex head temp + 1 ≤ n ∧
      n < findIndex head temp + 1 + 6 ∧ indexTerminal n = t := by
    have h3 : numTerminals = 3 := rfl
    refine ⟨t.val + if findIndex head temp + 1 ≤ t.val then 0
      else if findIndex head temp + 1 ≤ t.val + 3 then 3 else 6, ?_, ?_, Fin.ext ?_⟩
    · split_ifs <;> omega
    · split_ifs <;> omega
    · show _ % 3 = t.val
      split_ifs <;> omega
  obtain ⟨n', hn'⟩ := Option.isSome_iff_exists.mp
    (nextIndexLoop_isSome (q := findIndex head temp) (hn ▸ ht) hle hlt)
  refine ⟨indexTerminal n', ?_⟩
  have hnext : nextTerminal head temp = some (indexTerminal n') := by
    rw [nextTerminal]
    exact congrArg (Option.map indexTerminal) hn'
  rcases nextIndexLoop_eq_some hn' with hhead | hmod
  · obtain ⟨i, hi⟩ := Option.ne_none_iff_exists'.mp hhead
    exact ⟨i, hnext, hi⟩
  · rcases findIndex_cases head temp with ⟨u, hu, hhead⟩ | hlast
    · refine ⟨temp, hnext, ?_⟩
      rw [show indexTerminal n' = u from Fin.ext (hmod.trans hu), hhead]
    · exact absurd (hmod.trans hlast) (Nat.ne_of_lt (mod_numTerminals_lt _))

/-- What a tick that interrupts the frame `fr` and resumes process `i` does to the tables. -/
structure Resumed (k : Kernel) (fr : Frame) (i : Slot) (k' : Kernel) : Prop where
  pcbUsed : k'.pcbUsed = k.pcbUsed
  progUsedPage : k'.progUsedPage = update k.progUsedPage i true
  progPde : k'.progPde = progPde i
  tssEsp0 : k'.tssEsp0 = (k.pcb i).tssEsp
  termCurrPcb : k'.termCurrPcb = k.termCurrPcb
  active : k'.currentActiveTerminal = k.currentActiveTerminal
  pcb : k'.pcb = update k.pcb fr.pcb
    { k.pcb fr.pcb with esp := fr.esp, ebp := fr.ebp, eip := .switched }
  esp : k'.esp = (k'.pcb i).esp

theorem resumed_switchTo {i : Slot} (hpt : (k.pcb i).ptIdx = i) (m : Machine) (fr : Frame)
    (u : Term) : Resumed k fr i (switchTo m k fr u i).2 := by
  constructor <;>
    simp [switchTo, Kernel.setTssEsp0, Kernel.setProgPage, Kernel.setVideoPage, Kernel.setPcb, hpt]

/-- A tick that chooses the terminal `t` resumes its program. -/
theorem doHandlePit_of_next (m : Machine) (k : Kernel) (fr : Frame) {t : Term} {i : Slot}
    (hnext : nextTerminal k.termCurrPcb fr.pcb = some t) (hhead : k.termCurrPcb t = some i) :
    doHandlePit m k fr = some (switchTo m k fr t i) := by
  have hsome : ¬ ∀ t, k.termCurrPcb t = none := fun h => by
    rw [h t] at hhead
    cases hhead
  rw [doHandlePit, if_neg hsome, hnext]
  dsimp only
  rw [hhead, Option.map_some]

/-- A tick resumes the program on top of some terminal, when there is one. -/
theorem doHandlePit_eq_some {t : Term} (ht : k.termCurrPcb t ≠ none) (m : Machine) (fr : Frame) :
    ∃ u i, k.termCurrPcb u = some i ∧ doHandlePit m k fr = some (switchTo m k fr u i) := by
  obtain ⟨u, i, hnext, hhead⟩ := nextTerminal_eq_some ht fr.pcb
  exact ⟨u, i, hhead, doHandlePit_of_next m k fr hnext hhead⟩

/-- `change_video_mem` does nothing to the tables, or executes a shell on a terminal that has
none while a slot is free. -/
theorem changeVideoMem_cases (m : Machine) (k : Kernel) (fr : Frame) (old new : Term) :
    changeVideoMem m k fr old new = (.ret 0, k) ∨
    ∃ k₁ : Kernel, k₁ = { k.setVideoPage m false with currentActiveTerminal := new } ∧
      ((k.termCurrPcb new ≠ none ∧ changeVideoMem m k fr old new = (.ret 0, k₁)) ∨
        (k.termCurrPcb new = none ∧ firstFree k.pcbUsed ≠ none ∧
          changeVideoMem m k fr old new = execute m k₁ fr (some shell))) := by
  by_cases hsame : old = new
  · exact .inl (if_pos hsame)
  by_cases hfull : firstFree k.pcbUsed = none ∧ k.termCurrPcb new = none
  · exact .inl (by rw [changeVideoMem, if_neg hsame, if_pos hfull])
  refine .inr ⟨_, rfl, ?_⟩
  rw [changeVideoMem, if_neg hsame, if_neg hfull]
  match hhead : k.termCurrPcb new with
  | some i => exact .inl ⟨Option.some_ne_none i, by simp [Kernel.setVideoPage, hhead]⟩
  | none =>
    exact .inr ⟨rfl, fun h => hfull ⟨h, hhead⟩, by simp [Kernel.setVideoPage, hhead]⟩

end HieUnix
