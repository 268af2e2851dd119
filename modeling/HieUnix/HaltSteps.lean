import HieUnix.Ownership

/-!
# The steps of `halt`

`halt` is entered through a trap gate, so that the timer can interrupt it after each of its
writes. Here it is a list of steps (`haltSteps`) and a jump (`haltLeave`), which together are the
`halt` of `Process` (`halt_eq_steps`), and `haltLTS` lets a tick or a key press come between any
two of them. The state has, for each kernel stack, what is left of the call of `halt` on it.

`execute` clears the interrupt flag, and the handlers of the timer and the keyboard are entered
through interrupt gates, so those stay single operations.
-/

namespace HieUnix

open Function

/-! ## Steps -/

/-- One write of `halt`. The argument `p` is `parent_pcb_ptr`; `curr_pcb_ptr` is the process on
whose stack the call is. -/
inductive HaltStep
  /-- `term_curr_pcb[curr_pcb_ptr->terminal_number] = p`, with interrupts off. -/
  | setTermCurr (p : Option Slot)
  /-- The first write of `free_prog_page(curr_pcb_ptr->pt_idx)`. -/
  | clearPde
  /-- The second write of `free_prog_page(curr_pcb_ptr->pt_idx)`. -/
  | freePage
  /-- The first write of `set_prog_page(p->pt_idx)`. -/
  | setPde (p : Slot)
  /-- The second write of `set_prog_page(p->pt_idx)`. -/
  | markPage (p : Slot)
  /-- `tss.esp0 = curr_pcb_ptr->old_tssESP`. -/
  | setTssEsp0
  /-- `pcb_used[curr_pcb_ptr->pcb_idx] = 0`. -/
  | freePcb
  /-- `p->return_val = status & EIGHT_BIT_MASK`. -/
  | setReturnVal (p : Slot)
deriving DecidableEq, Repr

/-- The steps of `halt` for a process with the given parent. -/
def haltSteps : Option Slot → List HaltStep
  | some p => [.setTermCurr (some p), .clearPde, .freePage, .setPde p, .markPage p, .setTssEsp0,
      .freePcb, .setReturnVal p]
  | none => [.setTermCurr none, .clearPde, .freePage, .setTssEsp0, .freePcb]

/-- A step of the `halt` of process `r`. -/
def HaltStep.run (r : Slot) (status : Byte) (k : Kernel) : HaltStep → Kernel
  | .setTermCurr p => k.setTermCurr (k.pcb r).terminalNumber p
  | .clearPde => if (k.pcb r).ptIdx < maxNumProg then { k with progPde := 0 } else k
  | .freePage =>
    if h : (k.pcb r).ptIdx < maxNumProg then
      { k with progUsedPage := update k.progUsedPage ⟨(k.pcb r).ptIdx, h⟩ false }
    else k
  | .setPde p =>
    if (k.pcb p).ptIdx < maxNumProg then { k with progPde := HieUnix.progPde (k.pcb p).ptIdx }
    else k
  | .markPage p =>
    if h : (k.pcb p).ptIdx < maxNumProg then
      { k with progUsedPage := update k.progUsedPage ⟨(k.pcb p).ptIdx, h⟩ true }
    else k
  | .setTssEsp0 => k.setTssEsp0 (k.pcb r).oldTssEsp
  | .freePcb => k.freePcb (k.pcb r).pcbIdx
  | .setReturnVal p => k.setPcb p fun q => { q with returnVal := status.setWidth 32 &&& 0xFF }

/-- A call of `halt` that has not ended: what it has read, the frame of its `execute`, whether
interrupts are on, and the steps it has still to take. -/
structure HaltCall where
  parent : Option Slot
  status : Byte
  sub : Frame
  intr : Bool
  todo : List HaltStep

/-- The call after `halt` has read the parent of the process. -/
def HaltCall.start (parent : Option Slot) (sub : Frame) (arg : Word) (intr : Bool) : HaltCall :=
  ⟨parent, arg.setWidth 8, sub, intr, haltSteps parent⟩

/-- The end of `halt`: the jump to `ret_here`, or the shell it executes. -/
def haltLeave (m : Machine) (k : Kernel) (r : Slot) (parent : Option Slot) (sub : Frame) :
    Control × Kernel :=
  match parent with
  | some _ => (.jump (k.pcb r).oldEsp (k.pcb r).oldEbp .retHere, { k with esp := (k.pcb r).oldEsp })
  | none =>
    match execute m k sub (some shell) with
    | (.ret _, k) => (.ret 0, k)
    | r => r

/-- The steps of `halt`, one after the other, are `halt`. -/
theorem halt_eq_steps (m : Machine) (k : Kernel) (fr sub : Frame) (arg : Word) :
    halt m k fr sub arg = haltLeave m
      ((haltSteps (k.pcb fr.pcb).parent).foldl (HaltStep.run fr.pcb (arg.setWidth 8)) k)
      fr.pcb (k.pcb fr.pcb).parent sub := by
  match h : (k.pcb fr.pcb).parent with
  | some p =>
    simp only [halt, h, haltSteps, haltLeave, List.foldl_cons, List.foldl_nil, HaltStep.run,
      Kernel.setTermCurr, Kernel.freeProgPage, Kernel.setProgPage, Kernel.setTssEsp0,
      Kernel.freePcb, Kernel.setPcb]
    -- the return value is not among what is read after it is set
    have hold : ∀ q, (update k.pcb p { k.pcb p with returnVal := q } fr.pcb).oldEsp
          = (k.pcb fr.pcb).oldEsp ∧
        (update k.pcb p { k.pcb p with returnVal := q } fr.pcb).oldEbp
          = (k.pcb fr.pcb).oldEbp := by
      intro q
      rw [update_apply]
      split_ifs with he
      · rw [he]
        exact ⟨rfl, rfl⟩
      · exact ⟨rfl, rfl⟩
    by_cases hpt : (k.pcb fr.pcb).ptIdx < maxNumProg <;>
      by_cases hpt' : (k.pcb p).ptIdx < maxNumProg <;>
        simp [hpt, hpt', hold]
  | none =>
    have hsteps : (haltSteps none).foldl (HaltStep.run fr.pcb (arg.setWidth 8)) k
        = (((k.setTermCurr (k.pcb fr.pcb).terminalNumber none).freeProgPage
          (k.pcb fr.pcb).ptIdx).setTssEsp0 (k.pcb fr.pcb).oldTssEsp).freePcb
            (k.pcb fr.pcb).pcbIdx := by
      simp only [haltSteps, List.foldl_cons, List.foldl_nil, HaltStep.run, Kernel.setTermCurr,
        Kernel.freeProgPage, Kernel.setTssEsp0, Kernel.freePcb]
      by_cases hpt : (k.pcb fr.pcb).ptIdx < maxNumProg <;> simp [hpt]
    rw [hsteps]
    simp only [halt, h]
    rfl

/-! ## Runs in which `halt` can be interrupted -/

/-- The kernel, and for each kernel stack the call of `halt` on it that has not ended. -/
structure HaltState where
  kernel : Kernel
  halts : Slot → Option HaltCall

/-- The operations, with `halt` as a call and the steps it goes on with. -/
inductive HaltAct
  | execute (fr : Frame) (command : Option (List Byte))
  | halt (fr sub : Frame) (arg : Word) (intr : Bool)
  | next
  | switch (fr : Frame) (newTermNum : Term)
  | tick (fr : Frame)

/-- A frame on the current kernel stack, or on the one the CPU takes from the task state. -/
def OnStack (k : Kernel) (fr : Frame) : Prop :=
  getPcb k.esp = some fr.pcb ∨ getPcb k.tssEsp0 = some fr.pcb

namespace HaltState

/-- The call of `halt` on the current kernel stack. -/
def current (s : HaltState) : Option HaltCall := (getPcb s.kernel.esp).bind s.halts

/-- A process that is not in `halt` makes a system call. -/
def Calls (s : HaltState) (fr : Frame) : Prop := s.current = none ∧ OnStack s.kernel fr

/-- An interrupt comes. In `halt` the CPU is on the kernel stack already. -/
def Interrupts (s : HaltState) (fr : Frame) : Prop :=
  match s.current with
  | none => OnStack s.kernel fr
  | some h => h.intr = true ∧ getPcb s.kernel.esp = some fr.pcb

/-- The state after an operation. A program that is started has its kernel stack to itself. -/
def after (halts : Slot → Option HaltCall) (result : Control × Kernel) : HaltState :=
  match result.1, getPcb result.2.esp with
  | .enter _, some i => ⟨result.2, update halts i none⟩
  | _, _ => ⟨result.2, halts⟩

/-- The process `r` goes on with its call `h` of `halt`. -/
def next (m : Machine) (s : HaltState) (r : Slot) (h : HaltCall) : HaltState :=
  match h.todo with
  | step :: todo =>
    ⟨step.run r h.status s.kernel, update s.halts r (some { h with todo := todo })⟩
  | [] => after (update s.halts r none) (haltLeave m s.kernel r h.parent h.sub)

end HaltState

open HaltState

/-- The kernel's runs in which `halt` is not one operation. -/
def haltLTS (m : Machine) : LTS HaltState HaltAct where
  init s := (kernelLTS m).init s.kernel ∧ s.halts = fun _ => none
  step s a s' :=
    match a with
    | .execute fr command =>
      s.Calls fr ∧ s' = after s.halts (execute m (s.kernel.entered fr) fr command)
    | .halt fr sub arg intr =>
      s.Calls fr ∧ sub.pcb = fr.pcb ∧
        s' = ⟨s.kernel.entered fr, update s.halts fr.pcb
          (some (.start (s.kernel.pcb fr.pcb).parent sub arg intr))⟩
    | .next => ∃ r h, getPcb s.kernel.esp = some r ∧ s.halts r = some h ∧ s' = s.next m r h
    | .switch fr newTermNum =>
      s.Interrupts fr ∧
        s' = after s.halts (changeVideoMem m (s.kernel.entered fr) fr
          s.kernel.currentActiveTerminal newTermNum)
    | .tick fr =>
      s.Interrupts fr ∧
        ∃ result, doHandlePit m (s.kernel.entered fr) fr = some result ∧ s' = after s.halts result

/-! ## A `halt` that is not interrupted -/

@[simp] theorem HaltStep.run_esp (r : Slot) (status : Byte) (k : Kernel) (step : HaltStep) :
    (step.run r status k).esp = k.esp := by
  cases step <;> simp only [HaltStep.run, Kernel.setTermCurr, Kernel.setTssEsp0, Kernel.freePcb,
    Kernel.setPcb] <;> split_ifs <;> rfl

theorem foldl_run_esp (r : Slot) (status : Byte) (steps : List HaltStep) (k : Kernel) :
    (steps.foldl (HaltStep.run r status) k).esp = k.esp := by
  induction steps generalizing k with
  | nil => rfl
  | cons step steps ih => rw [List.foldl_cons, ih, HaltStep.run_esp]

/-- Without an interrupt, a call of `halt` takes its steps. -/
theorem run_haltSteps (m : Machine) {r : Slot} {h : HaltCall} (todo : List HaltStep) (k : Kernel)
    (halts : Slot → Option HaltCall) (hr : getPcb k.esp = some r) :
    (haltLTS m).Run ⟨k, update halts r (some { h with todo := todo })⟩
      (List.replicate todo.length .next)
      ⟨todo.foldl (HaltStep.run r h.status) k, update halts r (some { h with todo := [] })⟩ := by
  induction todo generalizing k with
  | nil => exact .nil _
  | cons step todo ih =>
    refine .cons ⟨r, { h with todo := step :: todo }, hr, update_self _ _ _, rfl⟩ ?_
    have hnext := ih (step.run r h.status k) (by rw [HaltStep.run_esp, hr])
    rw [List.foldl_cons]
    simpa only [HaltState.next, update_idem] using hnext

/-- **An uninterrupted call of `halt`** has the effect of the operation `halt`. -/
theorem run_halt (m : Machine) {s : HaltState} {fr sub : Frame} (hcall : s.Calls fr)
    (hsub : sub.pcb = fr.pcb) (arg : Word) (intr : Bool) :
    (haltLTS m).Run s
      (.halt fr sub arg intr ::
        (List.replicate (haltSteps (s.kernel.pcb fr.pcb).parent).length .next ++ [.next]))
      (after (update s.halts fr.pcb none) (halt m (s.kernel.entered fr) fr sub arg)) := by
  refine .cons ⟨hcall, hsub, rfl⟩ ?_
  have hesp : getPcb (s.kernel.entered fr).esp = some fr.pcb := fr.getPcb_esp
  have hrun := run_haltSteps m (h := .start (s.kernel.pcb fr.pcb).parent sub arg intr)
    (haltSteps (s.kernel.pcb fr.pcb).parent) (s.kernel.entered fr) s.halts hesp
  refine hrun.append (.cons ⟨fr.pcb, _, ?_, update_self _ _ _, rfl⟩ ?_)
  · rw [foldl_run_esp]
    exact hesp
  · simp only [HaltState.next, update_idem]
    rw [halt_eq_steps]
    exact .nil _

/-- The runs of the operation `halt` are among the runs of its steps. -/
theorem reach_halt (m : Machine) {s : HaltState} {fr sub : Frame}
    (hreach : (haltLTS m).Reach LTS.always s) (hcall : s.Calls fr) (hsub : sub.pcb = fr.pcb)
    (arg : Word) :
    (haltLTS m).Reach LTS.always
      (after (update s.halts fr.pcb none) (halt m (s.kernel.entered fr) fr sub arg)) :=
  hreach.run (run_halt m hcall hsub arg true)

end HieUnix
