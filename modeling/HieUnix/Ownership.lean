import HieUnix.ProcessInvariant
import HieUnix.FileRead

/-!
# Who owns a process

In which runs every process belongs to exactly one terminal. `execute` attaches the new process
to the terminal that is looked at, and so does the shell a root process leaves behind, while
`halt` removes a process from its own terminal. A run keeps the ownership when no program is
started for a terminal in the background (`Foreground`); a program that a background process
executes is put on top of another terminal's process, which is then lost.
-/

namespace HieUnix

open Function LinkedStacks Relation

variable {m : Machine} {k k' : Kernel} {r : Slot} {L : Term → List Slot} {op : Op}

/-! ## Ownership -/

/-- Every process belongs to exactly one terminal. -/
structure Owned (k : Kernel) : Prop where
  head : ∀ t i, k.termCurrPcb t = some i → k.pcbUsed i = true ∧ (k.pcb i).terminalNumber = t
  unique : ∀ i, k.pcbUsed i = true →
    ∃! t, Reaches (fun i => (k.pcb i).parent) (k.termCurrPcb t) i
  acyclic : ∀ i, k.pcbUsed i = true → ¬ TransGen (Link fun i => (k.pcb i).parent) i i

theorem Tables.owned (h : Tables k L) : Owned k where
  head _ _ ht := ⟨h.used_of_head ht, h.terminalNumber_of_head ht⟩
  unique i hi := by
    obtain ⟨t, ht⟩ := (h.used_iff i).mp hi
    exact h.linked.existsUnique_head ht
  acyclic i hi := by
    obtain ⟨t, ht⟩ := (h.used_iff i).mp hi
    exact h.linked.acyclic ht

/-- An operation that starts programs in the foreground changes the head of no terminal but that
of its caller. -/
theorem Effect.termCurrPcb_eq {c : Control} {r' : Slot} {L' : Term → List Slot}
    (h : Effect m k r L op c k' r' L') (hcall : op.IsCall) {u : Term} (hu : u ≠ op.terminal k) :
    k'.termCurrPcb u = k.termCurrPcb u := by
  cases h with
  | failed _ _ => rfl
  | started hfr _ hact _ hst =>
    subst hfr
    exact (congrFun hst.termCurrPcb u).trans
      (update_of_ne (fun he => hu (he.trans hact.symm)) _ _)
  | returned hfr _ _ hhead _ _ _ =>
    subst hfr
    exact (congrFun hhead u).trans (update_of_ne hu _ _)
  | restarted hfr _ _ hact _ _ hst =>
    subst hfr
    have hu' : u ≠ k.currentActiveTerminal := fun he => hu (he.trans hact.symm)
    exact (congrFun hst.termCurrPcb u).trans
      ((update_of_ne hu' _ _).trans (update_of_ne hu _ _))
  | looked _ _ _ _ _ => exact hcall.elim
  | spawned _ _ _ _ _ _ _ _ => exact hcall.elim
  | resumed _ _ _ => exact hcall.elim

/-- Starting a program for a terminal in the background replaces the process on top of the
active one. -/
theorem Inv.termCurrPcb_ne_of_not_foreground (h : Inv k r L) (hnot : ¬ Foreground m k op)
    (hst : (kernelLTS m).step k op k') :
    ∃ u, u ≠ op.terminal k ∧ k'.termCurrPcb u ≠ k.termCurrPcb u := by
  obtain ⟨hop, c, hrun⟩ := hst
  have hfr : op.frame.pcb = r := h.frame_eq hop
  have hent := h.enter hfr
  obtain ⟨i, hi⟩ := Option.ne_none_iff_exists'.mp h.active
  have hused := h.toTables.used_of_head hi
  match op with
  | .execute fr command =>
    obtain ⟨hstarts, hne⟩ := Classical.not_imp.mp hnot
    rcases execute_cases (m := m) hent.page fr command with
      ⟨hfail, -⟩ | ⟨-, c', eip, k'', hc, heq, hstart⟩
    · exact absurd hstarts hfail
    · obtain rfl : k'' = k' := congrArg Prod.snd (heq.symm.trans (Option.some.inj hrun))
      refine ⟨k.currentActiveTerminal, fun he => hne he.symm, fun he => ?_⟩
      -- the slot of the new process was free
      have hfree : k.pcbUsed c' = false := firstFree_eq_some hc
      obtain rfl : c' = i := Option.some.inj (hstart.head.symm.trans (he.trans hi))
      rw [hused] at hfree
      cases hfree
  | .halt fr sub arg =>
    obtain rfl : fr.pcb = r := hfr
    obtain ⟨hparent, hne⟩ := Classical.not_imp.mp hnot
    obtain ⟨hpt, hidx, -⟩ := h.self fr.pcb h.used
    obtain ⟨c', eip, k'', hc, heq, hstart⟩ :=
      HieUnix.halt_of_root (m := m) hent.page hparent hpt hidx sub arg
    obtain rfl : k'' = k' := congrArg Prod.snd (heq.symm.trans (Option.some.inj hrun))
    refine ⟨k.currentActiveTerminal, fun he => hne he.symm, fun he => ?_⟩
    have hfree : update k.pcbUsed fr.pcb false c' = false := firstFree_eq_some hc
    obtain rfl : c' = i := Option.some.inj (hstart.head.symm.trans (he.trans hi))
    have hne' : c' ≠ fr.pcb := fun he' => hne
      (by rw [← h.toTables.terminalNumber_of_head hi, he']; rfl)
    rw [update_of_ne hne', hused] at hfree
    cases hfree
  | .switch fr new => exact absurd trivial hnot
  | .tick fr => exact absurd trivial hnot

/-- **Ownership.** In every state of a run whose programs start in the foreground, each process
belongs to exactly one terminal; and a further `execute` or `halt` changes the head of no
terminal but its caller's if and only if it keeps to that condition. -/
theorem owned_of_foreground (h : (kernelLTS m).Reach (Foreground m) k) :
    Owned k ∧ ∀ op k', op.IsCall → (kernelLTS m).step k op k' →
      ((∀ u, u ≠ op.terminal k → k'.termCurrPcb u = k.termCurrPcb u) ↔ Foreground m k op) := by
  obtain ⟨r, L, hI⟩ := exists_inv_of_reach h
  refine ⟨hI.toTables.owned, fun op k' hcall hst => ⟨fun hsame => ?_, fun hfg => ?_⟩⟩
  · by_contra hnot
    obtain ⟨u, hu, hne⟩ := hI.termCurrPcb_ne_of_not_foreground hnot hst
    exact hne (hsame u hu)
  · obtain ⟨hop, c, hrun⟩ := hst
    obtain ⟨r', L', heff, -⟩ := hI.effect hfg hop hrun
    exact fun u hu => heff.termCurrPcb_eq hcall hu

/-! ## The running process -/

/-- A system call is only made by a process of the active terminal. -/
def ActiveCalls (k : Kernel) (op : Op) : Prop :=
  op.IsCall → op.terminal k = k.currentActiveTerminal

theorem ActiveCalls.foreground (h : ActiveCalls k op) : Foreground m k op := by
  match op with
  | .execute _ _ => exact fun _ => h trivial
  | .halt _ _ _ => exact fun _ => h trivial
  | .switch _ _ => exact trivial
  | .tick _ => exact trivial

/-- Slots have pages at different addresses. -/
theorem progPageAddr_injective :
    ∀ i j : Slot, progPageAddr i = progPageAddr j → i = j := by
  decide

/-- **Address space and kernel stack follow the running process**, in every run whose calls are
made in the foreground: the program page and the stack for the next entry are those of the
process that `get_pcb` finds, the two tables of used slots agree, and two processes never have
the same page. -/
theorem running_of_activeCalls (h : (kernelLTS m).Reach ActiveCalls k) :
    ∃ r, getPcb k.esp = some r ∧ k.pcbUsed r = true ∧
      k.progPde = progPde (k.pcb r).ptIdx ∧ k.tssEsp0 = pcbAddr r + 0x2000 - 4 ∧
      (∀ i, k.progUsedPage i = k.pcbUsed i) ∧
      (∀ i, k.pcbUsed i = true → (k.pcb i).ptIdx = (k.pcb i).pcbIdx ∧ (k.pcb i).pcbIdx = i) ∧
      ∀ i j, k.pcbUsed i = true → k.pcbUsed j = true → i ≠ j →
        progPageAddr (k.pcb i).ptIdx ≠ progPageAddr (k.pcb j).ptIdx := by
  obtain ⟨r, L, hI⟩ := exists_inv_of_reach (h.mono fun _ _ _ hcall => hcall.foreground (m := m))
  refine ⟨r, hI.current, hI.used, ?_, hI.tssEsp0, fun i => ?_, fun i hi => ?_,
    fun i j hi hj hne he => ?_⟩
  · rw [hI.progPde, (hI.self r hI.used).1]
  · rw [hI.page]
  · obtain ⟨hpt, hidx, -⟩ := hI.self i hi
    rw [hpt, hidx]
    exact ⟨rfl, rfl⟩
  · rw [(hI.self i hi).1, (hI.self j hj).1] at he
    exact hne (progPageAddr_injective i j he)

/-! ## A run that loses a process -/

/-- A machine with the sample image. -/
def sampleMachine : Machine where
  fs := fsInit sampleImage sampleBase
  img := sampleImage
  ptVid1 := 0x405000
  shellExe := ⟨0, execAddr, 40⟩
  checkProgram_shell := by decide

/-- Boot memory that is all zero. -/
def samplePcb : Pcb where
  fileDesc _ := Fd.closed
  parent := none
  ptIdx := 0
  pcbIdx := 0
  oldEsp := 0
  oldEbp := 0
  oldTssEsp := 0
  returnVal := 0
  argumentBufferSize := 0
  terminalNumber := 0
  tssEsp := 0
  eip := .retHere
  esp := 0
  ebp := 0
  argumentBuffer _ := 0

/-- After boot. -/
def sampleBoot : Kernel :=
  (execute sampleMachine (bootKernel (fun _ => samplePcb) fun _ _ => 0) (Frame.top 0)
    (some shell)).2

theorem sampleBoot_init : (kernelLTS sampleMachine).init sampleBoot :=
  ⟨_, _, Frame.top 0, rfl, rfl⟩

/-- The user has switched to terminal 1. -/
def sampleSwitched : Kernel :=
  (changeVideoMem sampleMachine (sampleBoot.entered (Frame.top 0)) (Frame.top 0)
    sampleBoot.currentActiveTerminal 1).2

/-- A tick has resumed the shell of terminal 0. -/
def sampleTicked : Kernel :=
  (switchTo sampleMachine (sampleSwitched.entered (Frame.top 1)) (Frame.top 1) 0 0).2

/-- The shell of terminal 0 has executed a program. -/
def sampleStolen : Kernel :=
  (execute sampleMachine (sampleTicked.entered (Frame.top 0)) (Frame.top 0)
    (some shell)).2

theorem sampleSwitched_step :
    (kernelLTS sampleMachine).step sampleBoot (.switch (Frame.top 0) 1) sampleSwitched :=
  ⟨⟨.inl (by decide), trivial⟩, _, rfl⟩

theorem sampleTicked_step :
    (kernelLTS sampleMachine).step sampleSwitched (.tick (Frame.top 1)) sampleTicked := by
  have hhead : sampleSwitched.termCurrPcb 0 = some 0 := by decide
  have hnext : nextTerminal sampleSwitched.termCurrPcb 1 = some 0 := by decide
  exact ⟨⟨.inl (by decide), trivial⟩, _,
    doHandlePit_of_next sampleMachine (sampleSwitched.entered (Frame.top 1)) (Frame.top 1) hnext
      hhead⟩

theorem sampleStolen_step :
    (kernelLTS sampleMachine).step sampleTicked (.execute (Frame.top 0) (some shell))
      sampleStolen :=
  ⟨⟨.inl (by decide), trivial⟩, _, rfl⟩

/-- The shell of terminal 0 is then below the heads of two terminals, and that of terminal 1
below none. -/
theorem not_owned_sampleStolen :
    ∃ k, (kernelLTS sampleMachine).Reach LTS.always k ∧ ¬ Owned k := by
  refine ⟨sampleStolen, .step (.step (.step (.init sampleBoot_init) trivial sampleSwitched_step)
    trivial sampleTicked_step) trivial sampleStolen_step, fun h => ?_⟩
  have hused : sampleStolen.pcbUsed 0 = true := by decide
  have h0 : sampleStolen.termCurrPcb 0 = some 0 := by decide
  have h1 : sampleStolen.termCurrPcb 1 = some 2 := by decide
  have h2 : (sampleStolen.pcb 2).parent = some 0 := by decide
  have hr0 : Reaches (fun i => (sampleStolen.pcb i).parent) (sampleStolen.termCurrPcb 0) 0 :=
    ⟨0, h0, .refl⟩
  have hr1 : Reaches (fun i => (sampleStolen.pcb i).parent) (sampleStolen.termCurrPcb 1) 0 :=
    ⟨2, h1, .single h2⟩
  exact absurd ((h.unique 0 hused).unique hr0 hr1) (by decide)

/-! ## A run in the foreground -/

/-- The first shell has executed a program. -/
def sampleLaunched : Kernel :=
  (execute sampleMachine (sampleBoot.entered (Frame.top 0)) (Frame.top 0) (some shell)).2

/-- The user has switched to terminal 1 from there. -/
def sampleLeft : Kernel :=
  (changeVideoMem sampleMachine (sampleLaunched.entered (Frame.top 1)) (Frame.top 1)
    sampleLaunched.currentActiveTerminal 1).2

/-- A tick has resumed the program. -/
def sampleRejoined : Kernel :=
  (switchTo sampleMachine (sampleLeft.entered (Frame.top 2)) (Frame.top 2) 0 1).2

/-- The user has switched back to terminal 0. -/
def sampleShownAgain : Kernel :=
  (changeVideoMem sampleMachine (sampleRejoined.entered (Frame.top 1)) (Frame.top 1)
    sampleRejoined.currentActiveTerminal 0).2

/-- The program has halted. -/
def sampleFinished : Kernel :=
  (halt sampleMachine (sampleShownAgain.entered (Frame.top 1)) (Frame.top 1) (Frame.top 1) 0).2

theorem sampleLaunched_step :
    (kernelLTS sampleMachine).step sampleBoot (.execute (Frame.top 0) (some shell))
      sampleLaunched := ⟨⟨.inl (by decide), trivial⟩, _, rfl⟩

theorem sampleLeft_step :
    (kernelLTS sampleMachine).step sampleLaunched (.switch (Frame.top 1) 1) sampleLeft :=
  ⟨⟨.inl (by decide), trivial⟩, _, rfl⟩

theorem sampleRejoined_step :
    (kernelLTS sampleMachine).step sampleLeft (.tick (Frame.top 2)) sampleRejoined := by
  have hhead : sampleLeft.termCurrPcb 0 = some 1 := by decide
  have hnext : nextTerminal sampleLeft.termCurrPcb 2 = some 0 := by decide
  exact ⟨⟨.inl (by decide), trivial⟩, _,
    doHandlePit_of_next sampleMachine (sampleLeft.entered (Frame.top 2)) (Frame.top 2) hnext
      hhead⟩

theorem sampleShownAgain_step :
    (kernelLTS sampleMachine).step sampleRejoined (.switch (Frame.top 1) 0) sampleShownAgain :=
  ⟨⟨.inl (by decide), trivial⟩, _, rfl⟩

theorem sampleFinished_step :
    (kernelLTS sampleMachine).step sampleShownAgain (.halt (Frame.top 1) (Frame.top 1) 0)
      sampleFinished :=
  ⟨⟨.inl (by decide), rfl⟩, _, rfl⟩

theorem sampleFinished_reach : (kernelLTS sampleMachine).Reach ActiveCalls sampleFinished := by
  have h1 : (kernelLTS sampleMachine).Reach ActiveCalls sampleLaunched :=
    .step (.init sampleBoot_init) (fun _ => by decide) sampleLaunched_step
  have h2 : (kernelLTS sampleMachine).Reach ActiveCalls sampleLeft :=
    .step (a := .switch (Frame.top 1) 1) h1 False.elim sampleLeft_step
  have h3 : (kernelLTS sampleMachine).Reach ActiveCalls sampleRejoined :=
    .step (a := .tick (Frame.top 2)) h2 False.elim sampleRejoined_step
  have h4 : (kernelLTS sampleMachine).Reach ActiveCalls sampleShownAgain :=
    .step (a := .switch (Frame.top 1) 0) h3 False.elim sampleShownAgain_step
  exact .step h4 (fun _ => by decide) sampleFinished_step

/-- Each shell belongs to its terminal then. -/
theorem owned_of_foreground_sample : Owned sampleFinished ∧
    sampleFinished.termCurrPcb 0 = some 0 ∧ sampleFinished.termCurrPcb 1 = some 2 :=
  ⟨(owned_of_foreground (sampleFinished_reach.mono fun _ _ _ hcall =>
    hcall.foreground (m := sampleMachine))).1, by decide, by decide⟩

/-- The shell that the program has gone back to has its page and its stack. -/
theorem running_of_activeCalls_sample :
    getPcb sampleFinished.esp = some 0 ∧
      sampleFinished.progPde = progPde (sampleFinished.pcb 0).ptIdx ∧
      sampleFinished.tssEsp0 = pcbAddr 0 + 0x2000 - 4 := by
  have hesp : getPcb sampleFinished.esp = some 0 := by decide
  obtain ⟨r, hr, -, hpde, htss, -⟩ := running_of_activeCalls sampleFinished_reach
  obtain rfl : 0 = r := Option.some.inj (hesp.symm.trans hr)
  exact ⟨hesp, hpde, htss⟩

end HieUnix
