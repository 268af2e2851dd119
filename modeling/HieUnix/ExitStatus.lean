import HieUnix.Bracket

/-!
# The value an `execute` returns

A program ends by the system call `halt`, with the 32-bit `%ebx` as its argument, or by a CPU
exception, whose handler calls `halt` with 256. `halt` leaves the low byte of its argument in the
parent's control block and jumps to `ret_here`; the parent reads it there some time later, after
any number of ticks and terminal switches. The record of `statusLTS` keeps, for each process that
is back in `execute` and has not returned yet, how its program ended.

Each `execute` returns the status of its own program, but never the 256 that its header promises
for an exception: the parameter of `halt` has eight bits.
-/

namespace HieUnix

open Function LinkedStacks

variable {m : Machine} {k k' : Kernel} {r p : Slot} {L : Term → List Slot}

/-! ## Endings -/

/-- How a program ends. -/
inductive Ending
  | syscall (ebx : Word)
  | exception
deriving DecidableEq, Repr

/-- What `halt` is called with: `%ebx`, or the 256 that the exception handlers push. -/
def Ending.arg : Ending → Word
  | .syscall ebx => ebx
  | .exception => 256

/-- What the header of `execute` says it returns: 256 for an exception, 0 to 255 for `halt`. -/
def Ending.status : Ending → Word
  | .syscall ebx => (ebx.setWidth 8).setWidth 32
  | .exception => 256

/-- What `halt` stores. -/
def Ending.stored (e : Ending) : Word := (e.arg.setWidth 8).setWidth 32 &&& 0xFF

/-- The stored value is the promised one except after an exception. -/
theorem Ending.stored_eq_status_iff (e : Ending) : e.stored = e.status ↔ e ≠ .exception := by
  cases e with
  | syscall ebx =>
    refine iff_of_true ?_ Ending.noConfusion
    show (ebx.setWidth 8).setWidth 32 &&& 0xFF = (ebx.setWidth 8).setWidth 32
    apply BitVec.eq_of_toNat_eq
    have hlt := (ebx.setWidth 8).isLt
    rw [BitVec.toNat_and, BitVec.toNat_setWidth, Nat.mod_eq_of_lt (by omega)]
    show _ &&& (2 ^ 8 - 1) = _
    rw [Nat.and_two_pow_sub_one_eq_mod, Nat.mod_eq_of_lt hlt]
  | exception => exact iff_of_false (by decide) fun h => h rfl

/-! ## Runs with returns -/

/-- A step of the processes: a program ends, a process executes the `return` of `execute`, or one
of the other operations. -/
inductive Event
  | execute (fr : Frame) (command : Option (List Byte))
  | ends (fr sub : Frame) (e : Ending)
  | switch (fr : Frame) (newTermNum : Term)
  | tick (fr : Frame)
  | ret (fr : Frame)

/-- The operation of the kernel in an event. -/
def Event.op : Event → Option Op
  | .execute fr command => some (.execute fr command)
  | .ends fr sub e => some (.halt fr sub e.arg)
  | .switch fr newTermNum => some (.switch fr newTermNum)
  | .tick fr => some (.tick fr)
  | .ret _ => none

/-- For each process that is back at `ret_here`, how the program ended that it executed. -/
abbrev Ended := Slot → Option Ending

/-- A `halt` brings the parent back to `ret_here`. -/
def recordEnd (k : Kernel) (ev : Event) (ended : Ended) : Ended :=
  match ev with
  | .ends fr _ e =>
    match (k.pcb fr.pcb).parent with
    | some p => update ended p (some e)
    | none => ended
  | .ret fr => update ended fr.pcb none
  | _ => ended

/-- A `halt` of a program that was executed records its ending for the parent. -/
theorem recordEnd_of_parent {ev : Event} (ended : Ended) {fr sub : Frame} {arg : Word}
    (hev : ev.op = some (.halt fr sub arg)) (hp : (k.pcb fr.pcb).parent = some p) :
    ∃ e : Ending, arg = e.arg ∧ recordEnd k ev ended = update ended p (some e) := by
  cases ev with
  | ends fr' sub' e =>
    obtain ⟨rfl, rfl, rfl⟩ := Op.halt.inj (Option.some.inj hev)
    exact ⟨e, rfl, by simp only [recordEnd, hp]⟩
  | execute _ _ => cases hev
  | switch _ _ => cases hev
  | tick _ => cases hev
  | ret _ => cases hev

/-- Every other operation records nothing. -/
theorem recordEnd_eq_self {ev : Event} {ended : Ended} {op : Op} (hev : ev.op = some op)
    (hp : ∀ fr sub arg, op = .halt fr sub arg → (k.pcb fr.pcb).parent = none) :
    recordEnd k ev ended = ended := by
  cases ev with
  | ends fr sub e =>
    simp only [recordEnd, hp fr sub e.arg (Option.some.inj hev).symm]
  | execute _ _ => rfl
  | switch _ _ => rfl
  | tick _ => rfl
  | ret _ => cases hev

/-- The kernel with the calls under way and the programs that ended. A process that is back at
`ret_here` makes no system call before it has returned. -/
def statusLTS (m : Machine) : LTS ((Kernel × (Slot → Call)) × Ended) Event where
  init q := (callLTS m).init q.1 ∧ q.2 = fun _ => none
  step q ev q' := q'.2 = recordEnd q.1.1 ev q.2 ∧
    match ev with
    | .ret fr => getPcb q.1.1.esp = some fr.pcb ∧ q.2 fr.pcb ≠ none ∧
        q'.1 = (q.1.1.entered fr, q.1.2)
    | ev => ∃ op, ev.op = some op ∧ (op.IsCall → q.2 op.frame.pcb = none) ∧
        (callLTS m).step q.1 op q'.1

/-- The operations of an event start programs in the foreground. -/
def EventForeground (m : Machine) (q : (Kernel × (Slot → Call)) × Ended) (ev : Event) : Prop :=
  ∀ op, ev.op = some op → Foreground m q.1.1 op

/-- A process back at `ret_here` is on top of its terminal and has its program's status. -/
def StatusSaved (k : Kernel) (ended : Ended) : Prop :=
  ∀ q e, ended q = some e →
    k.termCurrPcb (k.pcb q).terminalNumber = some q ∧ (k.pcb q).returnVal = e.stored

variable {ended : Ended}

/-- What the head of a terminal, the terminal and the return value of a process are, is all that
matters. -/
theorem StatusSaved.congr (h : StatusSaved k ended)
    (hsame : ∀ q e, ended q = some e →
      (k'.pcb q).terminalNumber = (k.pcb q).terminalNumber ∧
        (k'.pcb q).returnVal = (k.pcb q).returnVal ∧
        k'.termCurrPcb (k.pcb q).terminalNumber = k.termCurrPcb (k.pcb q).terminalNumber) :
    StatusSaved k' ended := by
  intro q e hq
  obtain ⟨hhead, hval⟩ := h q e hq
  obtain ⟨hterm, hret, hcurr⟩ := hsame q e hq
  rw [hterm, hcurr, hret]
  exact ⟨hhead, hval⟩

/-- A program started on another terminal, in a free slot. -/
theorem StatusSaved.of_started {k₁ : Kernel} {fr : Frame} {c : Slot} (h : StatusSaved k₁ ended)
    (hst : Started k₁ fr c k')
    (hne : ∀ q e, ended q = some e →
      q ≠ c ∧ (k₁.pcb q).terminalNumber ≠ k₁.currentActiveTerminal) : StatusSaved k' ended := by
  refine h.congr fun q e hq => ?_
  obtain ⟨hqc, hterm⟩ := hne q e hq
  refine ⟨(hst.same hqc).terminalNumber, hst.returnVal hqc, ?_⟩
  rw [hst.termCurrPcb, update_of_ne hterm]

/-- A process back at `ret_here` on the terminal of the running process is the running process. -/
theorem StatusSaved.eq_of_terminal (h : StatusSaved k ended) (hI : Inv k r L) {q : Slot}
    {e : Ending} (hq : ended q = some e)
    (hterm : (k.pcb q).terminalNumber = (k.pcb r).terminalNumber) : q = r := by
  have hhead := (h q e hq).1
  rw [hterm, hI.head] at hhead
  exact (Option.some.inj hhead).symm

/-- **One operation** keeps what the processes back at `ret_here` will return. -/
theorem StatusSaved.effect {ctl : Control} {r' : Slot} {L' : Term → List Slot} {ev : Event}
    {op : Op} (h : StatusSaved k ended) (hI : Inv k r L) (hev : ev.op = some op)
    (hcall : op.IsCall → ended op.frame.pcb = none) (heff : Effect m k r L op ctl k' r' L') :
    StatusSaved k' (recordEnd k ev ended) := by
  have hused : ∀ q e, ended q = some e → k.pcbUsed q = true := fun q e hq =>
    hI.toTables.used_of_head (h q e hq).1
  -- a process that makes a system call is not back at `ret_here`
  have hother : op.IsCall → op.frame.pcb = r → ∀ q e, ended q = some e →
      q ≠ r ∧ (k.pcb q).terminalNumber ≠ (k.pcb r).terminalNumber := by
    intro hc hfr q e hq
    have hqr : q ≠ r := fun he => by
      rw [he, ← hfr, hcall hc] at hq
      cases hq
    exact ⟨hqr, fun hterm => hqr (h.eq_of_terminal hI hq hterm)⟩
  cases heff with
  | failed hfr _ =>
    rw [recordEnd_eq_self hev fun _ _ _ he => by cases he]
    exact h
  | @started fr _ _ _ _ hfr _ hact hfree hst =>
    rw [recordEnd_eq_self hev fun _ _ _ he => by cases he]
    have hent : StatusSaved (k.entered fr) ended := h
    refine hent.of_started hst fun q e hq => ?_
    obtain ⟨-, hterm⟩ := hother trivial hfr q e hq
    exact ⟨fun he => absurd (he ▸ hused q e hq) (by rw [firstFree_eq_some hfree]; decide),
      fun he => hterm (he.trans hact.symm)⟩
  | @returned fr _ _ _ _ _ hfr hparent hl hhead _ hpcb _ =>
    obtain ⟨e', rfl, hrec⟩ := recordEnd_of_parent ended hev (hfr ▸ hparent)
    have hpterm : (k.pcb r').terminalNumber = (k.pcb r).terminalNumber :=
      hI.linked.owner _ r' (by rw [hl]; simp)
    rw [hrec]
    intro q e hq
    rw [hpcb, hhead]
    rcases eq_or_ne q r' with rfl | hne
    · -- the parent is on top now, and has the status
      rw [update_self] at hq
      obtain rfl := Option.some.inj hq
      rw [update_self, hpterm, update_self]
      exact ⟨rfl, rfl⟩
    · rw [update_of_ne hne] at hq
      obtain ⟨-, hterm⟩ := hother trivial hfr q e hq
      rw [update_of_ne hne, update_of_ne hterm]
      exact h q e hq
  | @restarted fr sub _ _ _ _ hfr hsub hparent hact _ hfree hst =>
    rw [recordEnd_eq_self hev fun _ _ _ he => by obtain ⟨rfl, -, -⟩ := Op.halt.inj he; rw [hfr, hparent]]
    have hfreed : StatusSaved (rootFreed (k.entered fr) r) ended := by
      refine h.congr fun q e hq => ⟨rfl, rfl, ?_⟩
      exact update_of_ne (hother trivial hfr q e hq).2 _ _
    refine hfreed.of_started hst fun q e hq => ?_
    obtain ⟨hqr, hterm⟩ := hother trivial hfr q e hq
    refine ⟨fun he => ?_, fun he => hterm (he.trans hact.symm)⟩
    have hnot : update k.pcbUsed r false r' = false := firstFree_eq_some hfree
    rw [← he, update_of_ne hqr, hused q e hq] at hnot
    cases hnot
  | looked _ hpcb hhead _ _ =>
    rw [recordEnd_eq_self hev fun _ _ _ he => by cases he]
    exact h.congr fun q _ _ => ⟨by rw [hpcb], by rw [hpcb], by rw [hhead]⟩
  | @spawned _ _ _ _ k₁ _ hfr hpcb hhead hused' hact hnone hfree hst =>
    rw [recordEnd_eq_self hev fun _ _ _ he => by cases he]
    have h₁ : StatusSaved k₁ ended :=
      h.congr fun q _ _ => ⟨by rw [hpcb], by rw [hpcb], by rw [hhead]⟩
    refine h₁.of_started hst fun q e hq => ⟨fun he => ?_, fun he => ?_⟩
    · have hnot := firstFree_eq_some hfree
      rw [← he, hused', hused q e hq] at hnot
      cases hnot
    · have hq' := (h₁ q e hq).1
      rw [he, hact, hhead, hnone] at hq'
      cases hq'
  | resumed hfr _ hres =>
    rw [recordEnd_eq_self hev fun _ _ _ he => by cases he]
    exact h.congr fun q _ _ =>
      ⟨(hres.same q).terminalNumber, hres.returnVal q, by rw [hres.termCurrPcb]; rfl⟩

/-- What every event keeps. -/
structure StatusInv (q : (Kernel × (Slot → Call)) × Ended) : Prop where
  inv : ∃ r L, Inv q.1.1 r L
  calls : CallsSaved q.1.1 q.1.2
  status : StatusSaved q.1.1 q.2

/-- An event is a `return` of `execute`, or an operation. -/
theorem statusLTS_step_cases {q q' : (Kernel × (Slot → Call)) × Ended} {ev : Event}
    (h : (statusLTS m).step q ev q') :
    (∃ fr, ev = .ret fr ∧ getPcb q.1.1.esp = some fr.pcb ∧ q' = ((q.1.1.entered fr, q.1.2),
      update q.2 fr.pcb none)) ∨
    ∃ op, ev.op = some op ∧ (op.IsCall → q.2 op.frame.pcb = none) ∧
      (callLTS m).step q.1 op q'.1 ∧ q'.2 = recordEnd q.1.1 ev q.2 := by
  obtain ⟨hrec, hst⟩ := h
  cases ev with
  | ret fr => exact .inl ⟨fr, rfl, hst.1, Prod.ext hst.2.2 hrec⟩
  | execute fr command =>
    obtain ⟨op, hop, hcall, hst⟩ := hst
    exact .inr ⟨op, hop, hcall, hst, hrec⟩
  | ends fr sub e =>
    obtain ⟨op, hop, hcall, hst⟩ := hst
    exact .inr ⟨op, hop, hcall, hst, hrec⟩
  | switch fr newTermNum =>
    obtain ⟨op, hop, hcall, hst⟩ := hst
    exact .inr ⟨op, hop, hcall, hst, hrec⟩
  | tick fr =>
    obtain ⟨op, hop, hcall, hst⟩ := hst
    exact .inr ⟨op, hop, hcall, hst, hrec⟩

theorem StatusInv.step {q q' : (Kernel × (Slot → Call)) × Ended} {ev : Event} (h : StatusInv q)
    (hfg : EventForeground m q ev) (hst : (statusLTS m).step q ev q') : StatusInv q' := by
  obtain ⟨⟨r, L, hI⟩, hcalls, hstatus⟩ := h
  rcases statusLTS_step_cases hst with ⟨fr, rfl, hesp, rfl⟩ | ⟨op, hop, hcall, ⟨⟨hen, c, hrun⟩, hrec⟩, hend⟩
  · have hfr : fr.pcb = r := Option.some.inj (hesp.symm.trans hI.current)
    refine ⟨⟨r, L, hI.enter hfr⟩, hcalls, fun q e hq => hstatus q e ?_⟩
    rcases eq_or_ne q fr.pcb with rfl | hne
    · dsimp only at hq
      rw [update_self] at hq
      cases hq
    · dsimp only at hq
      rwa [update_of_ne hne] at hq
  · obtain ⟨r', L', heff, hI'⟩ := hI.effect (hfg op hop) hen hrun
    refine ⟨⟨r', L', hI'⟩, ?_, ?_⟩
    · rw [hrec]
      exact hcalls.effect hI hrun heff
    · rw [hend]
      exact hstatus.effect hI hop hcall heff

/-- **Every run** whose programs start in the foreground. -/
theorem statusInv_of_reach {q : (Kernel × (Slot → Call)) × Ended}
    (h : (statusLTS m).Reach (EventForeground m) q) : StatusInv q := by
  refine LTS.Reach.invariant (I := StatusInv) ?_ (fun _ _ _ hI hfg hst => hI.step hfg hst) h
  rintro q ⟨⟨hinit, -⟩, hended⟩
  refine ⟨⟨_, _, inv_init hinit⟩, callsSaved_init hinit _, fun i e hi => ?_⟩
  rw [hended] at hi
  cases hi

/-- **The exit status.** In every run whose programs start in the foreground: when a program that
was executed ends, control goes back to the `execute` that started it, with the ending recorded;
and the value that this `execute` then returns is the promised status if and only if the program
was not ended by an exception. -/
theorem returned_status_iff {q : (Kernel × (Slot → Call)) × Ended}
    (h : (statusLTS m).Reach (EventForeground m) q) :
    (∀ fr sub e q' p, (statusLTS m).step q (.ends fr sub e) q' →
      (q.1.1.pcb fr.pcb).parent = some p →
        (halt m (q.1.1.entered fr) fr sub e.arg).1
            = .jump (q.1.2 fr.pcb).esp (q.1.2 fr.pcb).ebp .retHere ∧ q'.2 p = some e) ∧
    ∀ fr q', (statusLTS m).step q (.ret fr) q' →
      ∃ e, q.2 fr.pcb = some e ∧
        ((q.1.1.pcb fr.pcb).returnVal = e.status ↔ e ≠ .exception) := by
  obtain ⟨⟨r, L, hI⟩, hcalls, hstatus⟩ := statusInv_of_reach h
  refine ⟨fun fr sub e q' p hst hp => ?_, fun fr q' hst => ?_⟩
  · obtain ⟨hend, op, hop, -, ⟨hen, -⟩, -⟩ := hst
    obtain rfl := Option.some.inj hop
    obtain rfl : fr.pcb = r := hI.frame_eq hen
    -- `halt` jumps to the frame its `execute` has recorded in the slot
    obtain ⟨hesp, hebp⟩ := hcalls fr.pcb p hI.used hp
    refine ⟨?_, ?_⟩
    · rw [← hesp, ← hebp]
      simp only [halt, Kernel.entered_pcb, hp]
    · rw [hend]
      simp only [recordEnd, hp, update_self]
  · obtain ⟨-, -, hne, -⟩ := hst
    obtain ⟨e, he⟩ := Option.ne_none_iff_exists'.mp hne
    refine ⟨e, he, ?_⟩
    rw [(hstatus fr.pcb e he).2]
    exact e.stored_eq_status_iff

/-! ## A program that crashes -/

/-- The shell has executed a program, and the program has ended by `e`. -/
def sampleEnded (e : Ending) : (Kernel × (Slot → Call)) × Ended :=
  ((sampleReturned e.arg, sampleCalls), update (fun _ => none) 0 (some e))

theorem sampleEnded_reach (e : Ending) :
    (statusLTS sampleMachine).Reach (EventForeground sampleMachine) (sampleEnded e) := by
  have hparent : (sampleChild.pcb 1).parent = some 0 := by decide
  have hterm : (sampleBoot.pcb 0).terminalNumber = sampleBoot.currentActiveTerminal := by
    decide
  refine .step (s := ((sampleChild, sampleCalls), fun _ => none))
    (a := .ends (Frame.top 1) (Frame.top 1) e)
    (.step (s := ((sampleBoot, fun _ => ⟨sampleBoot.procTables, 0, 0⟩), fun _ => none))
      (a := .execute (Frame.top 0) (some shell)) (.init ⟨⟨sampleBoot_init, rfl⟩, rfl⟩) ?_ ?_) ?_ ?_
  · rintro op hop
    obtain rfl := Option.some.inj hop
    exact fun _ => hterm
  · exact ⟨rfl, _, rfl, fun _ => rfl, sampleChild_step, rfl⟩
  · rintro op hop
    obtain rfl := Option.some.inj hop
    intro hnone
    rw [show (sampleChild.pcb (Frame.top 1).pcb).parent = some 0 from hparent] at hnone
    cases hnone
  · refine ⟨?_, _, rfl, fun _ => rfl, sampleReturned_step e.arg, rfl⟩
    simp only [recordEnd, show (sampleChild.pcb (Frame.top 1).pcb).parent = some 0 from hparent]
    rfl

/-- The shell is back in `execute` and returns. -/
theorem sampleEnded_ret {e : Ending} (hesp : getPcb (sampleReturned e.arg).esp = some 0) :
    (statusLTS sampleMachine).step (sampleEnded e) (.ret (Frame.top 0))
      (((sampleReturned e.arg).entered (Frame.top 0), sampleCalls),
        update (sampleEnded e).2 0 none) :=
  ⟨rfl, hesp, Option.some_ne_none e, rfl⟩

/-- The shell's `execute` returns the 5 that its program halts with. -/
theorem returned_status_iff_sample : ((sampleReturned 5).pcb 0).returnVal = 5 := by
  obtain ⟨-, hret⟩ := returned_status_iff (sampleEnded_reach (.syscall 5))
  obtain ⟨e, he, hiff⟩ := hret _ _ (sampleEnded_ret (e := .syscall 5) (by decide))
  obtain rfl : Ending.syscall 5 = e := Option.some.inj he
  exact hiff.mpr Ending.noConfusion

/-- After a page fault of its program the shell's `execute` returns 0, as after `halt(0)`, and
not 256. -/
theorem exception_status_lost :
    ∃ q q' fr, (statusLTS sampleMachine).Reach LTS.always q ∧
      (statusLTS sampleMachine).step q (.ret fr) q' ∧ q.2 fr.pcb = some .exception ∧
      (q.1.1.pcb fr.pcb).returnVal = 0 ∧ Ending.exception.status = 256 :=
  ⟨_, _, _, (sampleEnded_reach .exception).mono fun _ _ _ _ => trivial,
    sampleEnded_ret (e := .exception) (by decide), rfl, by decide, rfl⟩

end HieUnix
