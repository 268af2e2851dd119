import HieUnix.HaltSteps

/-!
# The process tables while a process halts

`halt` takes its process off its terminal first, and frees its slot several writes later.
`Leaving` describes a process in between: without it, the tables are those of the stacks that
remain, and the steps it has still to take free its slot. A call of `halt` that has not begun to
show the tables is `Waiting`.

Each step of a run keeps this (`HaltInv.step`) when no tick switches to another process while
the running one is no head and not yet free, and a program that is started replaces at most its
caller (`Undisturbed`).
-/

namespace HieUnix

open Function LinkedStacks HaltState

variable {m : Machine} {k k' : Kernel} {fr : Frame} {r i c p : Slot} {L : Term → List Slot}
  {halts : Slot → Option HaltCall} {h : HaltCall} {s s' : HaltState}

/-! ## Undisturbed steps -/

/-- The slot `i` and the page of its process are free. -/
def Freed (k : Kernel) (i : Slot) : Prop := k.pcbUsed i = false ∧ k.progUsedPage i = false

/-- The running process is in `halt`, is no head any more, and its slot is not yet free. -/
def Unlinked (s : HaltState) : Prop :=
  ∃ r h, getPcb s.kernel.esp = some r ∧ s.halts r = some h ∧ .setTermCurr h.parent ∉ h.todo ∧
    .freePcb ∈ h.todo

/-- A switch to the terminal `new` starts a shell. -/
def StartsShell (k : Kernel) (new : Term) : Prop :=
  k.currentActiveTerminal ≠ new ∧ k.termCurrPcb new = none ∧ firstFree k.pcbUsed ≠ none

/-- A program that `r` starts replaces no other process as the head of the active terminal. -/
def Attaches (k : Kernel) (r : Slot) : Prop :=
  ∀ i, k.termCurrPcb k.currentActiveTerminal = some i → i = r

/-- While the running process is no head but not yet free, a tick comes only when there is no
program to switch to, and no switch of terminals starts a shell; and a program that is started
replaces at most the process that starts it. -/
def Undisturbed (m : Machine) (s : HaltState) : HaltAct → Prop
  | .execute fr command => Starts m s.kernel command → Attaches s.kernel fr.pcb
  | .halt _ _ _ _ => True
  | .next => ∀ r h, getPcb s.kernel.esp = some r → s.halts r = some h → h.todo = [] →
      h.parent = none → Attaches s.kernel r
  | .switch _ new => Unlinked s → ¬ StartsShell s.kernel new
  | .tick _ => Unlinked s → ∀ t, s.kernel.termCurrPcb t = none

/-! ## Calls of `halt` that have not begun to change the tables -/

/-- The call `h` of process `i` has not begun to change the tables. -/
structure Waiting (k : Kernel) (i : Slot) (h : HaltCall) : Prop where
  parent : h.parent = (k.pcb i).parent
  sub : h.sub.pcb = i
  todo : h.todo = haltSteps h.parent
  head : k.termCurrPcb (k.pcb i).terminalNumber = some i

/-- The calls of all processes have not begun to change the tables. -/
def Parked (k : Kernel) (halts : Slot → Option HaltCall) : Prop :=
  ∀ i h, k.pcbUsed i = true → halts i = some h → Waiting k i h

theorem Parked.congr (h : Parked k halts) (hsame : ∀ i, (k'.pcb i).Same (k.pcb i))
    (hhead : k'.termCurrPcb = k.termCurrPcb) (hused : k'.pcbUsed = k.pcbUsed) :
    Parked k' halts := by
  intro i hc hi hhalt
  obtain ⟨hparent, hsub, htodo, hh⟩ := h i hc (hused ▸ hi) hhalt
  refine ⟨?_, hsub, htodo, ?_⟩
  · rw [(hsame i).parent, hparent]
  · rw [(hsame i).terminalNumber, hhead, hh]

/-- Starting a program does not touch the calls, unless that of the process it replaces. -/
theorem Parked.of_started (h : Parked k halts) (hst : Started k fr c k')
    (hhead : ∀ i, k.termCurrPcb k.currentActiveTerminal = some i → halts i = none) :
    Parked k' (update halts c none) := by
  intro i hc hi hhalt
  rcases eq_or_ne i c with rfl | hne
  · rw [update_self] at hhalt
    cases hhalt
  · rw [update_of_ne hne] at hhalt
    rw [hst.pcbUsed, update_of_ne hne] at hi
    obtain ⟨hparent, hsub, htodo, hh⟩ := h i hc hi hhalt
    have hsame := hst.same hne
    refine ⟨?_, hsub, htodo, ?_⟩
    · rw [hsame.parent, hparent]
    · rw [hsame.terminalNumber, hst.termCurrPcb, update_of_ne, hh]
      intro ht
      rw [hhead i (ht ▸ hh)] at hhalt
      cases hhalt

/-! ## What a step changes -/

/-- The kernel without the slot and the page of process `r`. -/
def Kernel.released (k : Kernel) (r : Slot) : Kernel :=
  { k with pcbUsed := update k.pcbUsed r false, progUsedPage := update k.progUsedPage r false }

theorem Kernel.released_eq_self (h : Freed k r) : k.released r = k := by
  have hused : update k.pcbUsed r false = k.pcbUsed := update_eq_self_iff.mpr h.1.symm
  have hpage : update k.progUsedPage r false = k.progUsedPage := update_eq_self_iff.mpr h.2.symm
  rw [Kernel.released, hused, hpage]

theorem mem_haltSteps_markPage {parent : Option Slot} (h : .markPage p ∈ haltSteps parent) :
    parent = some p := by
  cases parent <;> simp_all [haltSteps]

/-- A step changes at most the return value in a control block. -/
theorem HaltStep.run_pcb (r : Slot) (status : Byte) (k : Kernel) (step : HaltStep) (i : Slot) :
    ((step.run r status k).pcb i).Same (k.pcb i) ∧
      ((step.run r status k).pcb i).esp = (k.pcb i).esp := by
  cases step with
  | setReturnVal p =>
    simp only [HaltStep.run, Kernel.setPcb, update_apply]
    split_ifs with hi
    · subst hi
      exact ⟨by constructor <;> rfl, rfl⟩
    · exact ⟨.rfl, rfl⟩
  | clearPde | freePage | setPde _ | markPage _ =>
    simp only [HaltStep.run]
    split_ifs <;> exact ⟨.rfl, rfl⟩
  | setTermCurr _ | setTssEsp0 | freePcb => exact ⟨.rfl, rfl⟩

/-- After the first step, the heads stay as they are. -/
theorem HaltStep.run_termCurrPcb (r : Slot) (status : Byte) (k : Kernel) {step : HaltStep}
    (hstep : ∀ p, step ≠ .setTermCurr p) :
    (step.run r status k).termCurrPcb = k.termCurrPcb := by
  cases step with
  | setTermCurr p => exact absurd rfl (hstep p)
  | clearPde | freePage | setPde _ | markPage _ =>
    simp only [HaltStep.run]
    split_ifs <;> rfl
  | setTssEsp0 | freePcb | setReturnVal _ => rfl

/-- The steps of `r` use and free no slot but its own. -/
theorem HaltStep.run_pcbUsed (status : Byte) (step : HaltStep) (hidx : (k.pcb r).pcbIdx = r) :
    (step.run r status k).pcbUsed
      = if step = .freePcb then update k.pcbUsed r false else k.pcbUsed := by
  cases step with
  | clearPde | freePage | setPde _ | markPage _ =>
    simp only [HaltStep.run]
    split_ifs <;> first | rfl | contradiction
  | freePcb => simp [HaltStep.run, Kernel.freePcb, hidx]
  | setTermCurr _ | setTssEsp0 | setReturnVal _ => rfl

/-- **One step** after the first leaves the tables of the other processes as they are. -/
theorem Tables.run_step {step : HaltStep} (status : Byte) (h : Tables (k.released r) L)
    (hpt : (k.pcb r).ptIdx = r) (hidx : (k.pcb r).pcbIdx = r)
    (hstep : ∀ p, step ≠ .setTermCurr p)
    (hmark : ∀ p, step = .markPage p → (k.released r).pcbUsed p = true) :
    Tables ((step.run r status k).released r) L := by
  have hused : update (step.run r status k).pcbUsed r false = update k.pcbUsed r false := by
    rw [HaltStep.run_pcbUsed status step hidx]
    split_ifs
    · exact update_idem _ _ _
    · rfl
  have hpage : update (step.run r status k).progUsedPage r false
      = update k.progUsedPage r false := by
    cases step with
    | setTermCurr p => exact absurd rfl (hstep p)
    | freePage => simp [HaltStep.run, hpt]
    | markPage p =>
      -- the page of the parent is in use already
      have hp := hmark p rfl
      have hpt' : (k.pcb p).ptIdx = p := (h.self p hp).1
      have hne : p ≠ r := by
        rintro rfl
        simp [Kernel.released] at hp
      have hin : k.progUsedPage p = true := by
        rw [← h.page] at hp
        simpa [Kernel.released, hne] using hp
      simp only [HaltStep.run, hpt', Fin.is_lt, dite_true, Fin.eta]
      have hsame : update k.progUsedPage p true = k.progUsedPage :=
        update_eq_self_iff.mpr hin.symm
      rw [hsame]
    | clearPde | setPde _ =>
      simp only [HaltStep.run]
      split_ifs <;> rfl
    | setTssEsp0 | freePcb | setReturnVal _ => rfl
  refine h.congr (fun i => ?_) ?_ hused hpage
  · exact (HaltStep.run_pcb r status k step i).1
  · exact HaltStep.run_termCurrPcb r status k hstep

/-! ## A process that is leaving -/

/-- The kernel when `r` has taken the steps that its call has still to take. -/
def HaltCall.finish (h : HaltCall) (r : Slot) (k : Kernel) : Kernel :=
  h.todo.foldl (HaltStep.run r h.status) k

/-- What the steps of `halt` are for: the process is freed, and its parent has its page and its
kernel stack. -/
structure Finished (k : Kernel) (r : Slot) (parent : Option Slot) : Prop where
  freed : Freed k r
  progPde : ∀ p, parent = some p → k.progPde = progPde p
  tssEsp0 : ∀ p, parent = some p → k.tssEsp0 = getKstackAddr p

theorem finished_haltSteps (status : Byte) (hpt : (k.pcb r).ptIdx = r)
    (hidx : (k.pcb r).pcbIdx = r)
    (hparent : ∀ p, (k.pcb r).parent = some p →
      p ≠ r ∧ (k.pcb p).ptIdx = p ∧ (k.pcb r).oldTssEsp = getKstackAddr p) :
    Finished ((haltSteps (k.pcb r).parent).foldl (HaltStep.run r status) k) r
      (k.pcb r).parent := by
  match hp : (k.pcb r).parent with
  | none =>
    simp only [haltSteps, List.foldl_cons, List.foldl_nil, HaltStep.run, Kernel.setTermCurr,
      Kernel.setTssEsp0, Kernel.freePcb, hpt, hidx, Fin.is_lt, dite_true, if_true, Fin.eta]
    refine ⟨⟨update_self _ _ _, update_self _ _ _⟩, fun p h => ?_, fun p h => ?_⟩
    · cases h
    · cases h
  | some p =>
    obtain ⟨hne, hpt', hold⟩ := hparent p hp
    simp only [haltSteps, List.foldl_cons, List.foldl_nil, HaltStep.run, Kernel.setTermCurr,
      Kernel.setTssEsp0, Kernel.freePcb, Kernel.setPcb, hpt, hpt', hidx, Fin.is_lt, dite_true,
      if_true, Fin.eta]
    refine ⟨⟨update_self _ _ _, ?_⟩, fun p' h => ?_, fun p' h => ?_⟩
    · dsimp only
      rw [update_of_ne hne.symm, update_self]
    · rw [← Option.some.inj h]
    · rw [← Option.some.inj h, hold]

/-- The process `r` has taken itself off its terminal, and goes on with its call `h` of `halt`.
`L` is the stacks of the other processes. -/
structure Leaving (s : HaltState) (r : Slot) (L : Term → List Slot) (h : HaltCall) : Prop where
  current : getPcb s.kernel.esp = some r
  halting : s.halts r = some h
  sub : h.sub.pcb = r
  todo : h.todo <:+ (haltSteps h.parent).tail
  tables : Tables (s.kernel.released r) L
  saved : Saved s.kernel r
  parked : Parked (s.kernel.released r) s.halts
  used : .freePcb ∈ h.todo → s.kernel.pcbUsed r = true
  ptIdx : (s.kernel.pcb r).ptIdx = r
  pcbIdx : (s.kernel.pcb r).pcbIdx = r
  head : s.kernel.termCurrPcb (s.kernel.pcb r).terminalNumber = h.parent
  oldEsp : ∀ p, h.parent = some p → getPcb (s.kernel.pcb r).oldEsp = some p
  done : Finished (h.finish r s.kernel) r h.parent

/-- The state of a run: the running process, with the calls of `halt` that have not begun, or a
process that is leaving. -/
inductive HaltInv (s : HaltState) (r : Slot) (L : Term → List Slot) : Prop
  | running : Running s.kernel r L → Parked s.kernel s.halts → HaltInv s r L
  | leaving (h : HaltCall) : Leaving s r L h → HaltInv s r L

/-- Two steps with the same effect on the tables. -/
theorem HaltStep.run_sameTables (r : Slot) (status : Byte) (step : HaltStep)
    (h : k.SameTables k') : (step.run r status k).SameTables (step.run r status k') := by
  obtain ⟨hpcb, hhead, hused, hpage, hpde, htss⟩ := h
  cases step with
  | clearPde | freePage | setPde _ | markPage _ =>
    simp only [HaltStep.run, hpcb]
    split_ifs <;> constructor <;> simp only [hpcb, hhead, hused, hpage, hpde, htss]
  | setTermCurr p =>
    constructor <;> simp only [HaltStep.run, Kernel.setTermCurr, hpcb, hhead, hused, hpage, hpde, htss]
  | setTssEsp0 =>
    constructor <;> simp only [HaltStep.run, Kernel.setTssEsp0, hpcb, hhead, hused, hpage, hpde]
  | freePcb =>
    constructor <;> simp only [HaltStep.run, Kernel.freePcb, hpcb, hhead, hused, hpage, hpde, htss]
  | setReturnVal p =>
    constructor <;> simp only [HaltStep.run, Kernel.setPcb, hpcb, hhead, hused, hpage, hpde, htss]

theorem HaltCall.finish_sameTables (h : HaltCall) (r : Slot) (hsame : k.SameTables k') :
    (h.finish r k).SameTables (h.finish r k') := by
  unfold HaltCall.finish
  induction h.todo generalizing k k' with
  | nil => exact hsame
  | cons step todo ih => exact ih (step.run_sameTables r h.status hsame)

theorem Kernel.SameTables.released (h : k.SameTables k') (r : Slot) :
    (k.released r).SameTables (k'.released r) := by
  obtain ⟨hpcb, hhead, hused, hpage, hpde, htss⟩ := h
  constructor <;> simp only [Kernel.released, hpcb, hhead, hused, hpage, hpde, htss]

theorem Kernel.SameTables.same (h : k.SameTables k') (i : Slot) :
    (k'.pcb i).Same (k.pcb i) := by
  rw [h.pcb]
  exact .rfl

/-- What is looked at, and where on its stack it is, makes no difference to a process that is
leaving. -/
theorem Leaving.congr {h' : HaltCall} (h : Leaving s r L h') (hsame : s.kernel.SameTables k')
    (hesp : getPcb k'.esp = some r) : Leaving ⟨k', s.halts⟩ r L h' := by
  have hrel := hsame.released r
  have hfin := h'.finish_sameTables r hsame
  exact
    { current := hesp
      halting := h.halting
      sub := h.sub
      todo := h.todo
      tables := h.tables.congr hrel.same hrel.termCurrPcb hrel.pcbUsed hrel.progUsedPage
      saved := fun i hi hne => by
        dsimp only
        rw [hsame.pcb]
        exact h.saved i (hsame.pcbUsed ▸ hi) hne
      parked := h.parked.congr hrel.same hrel.termCurrPcb hrel.pcbUsed
      used := fun hmem => hsame.pcbUsed ▸ h.used hmem
      ptIdx := hsame.pcb ▸ h.ptIdx
      pcbIdx := hsame.pcb ▸ h.pcbIdx
      head := by
        dsimp only
        rw [hsame.pcb, hsame.termCurrPcb, h.head]
      oldEsp := hsame.pcb ▸ h.oldEsp
      done :=
        { freed := by
            rw [Freed, hfin.pcbUsed, hfin.progUsedPage]
            exact h.done.freed
          progPde := hfin.progPde ▸ h.done.progPde
          tssEsp0 := hfin.tssEsp0 ▸ h.done.tssEsp0 } }

/-! ## The steps of `halt` keep the invariant -/

theorem haltSteps_eq_cons (parent : Option Slot) :
    haltSteps parent = .setTermCurr parent :: (haltSteps parent).tail := by
  cases parent <;> rfl

theorem setTermCurr_notMem_tail (parent q : Option Slot) :
    .setTermCurr q ∉ (haltSteps parent).tail := by
  cases parent <;> simp [haltSteps]

theorem nodup_haltSteps (parent : Option Slot) : (haltSteps parent).Nodup := by
  cases parent <;> simp [haltSteps]

/-- A process whose slot and page are free needs nothing for its calls. -/
theorem Parked.update_self (hp : Parked (k.released r) halts) (x : Option HaltCall) :
    Parked (k.released r) (update halts r x) := by
  intro i hc hi hhalt
  have hne : i ≠ r := by
    rintro rfl
    simp [Kernel.released] at hi
  rw [update_of_ne hne] at hhalt
  exact hp i hc hi hhalt

/-- **The first step** takes the process off its terminal. -/
theorem Running.leaving (hrun : Running s.kernel r L) (hpark : Parked s.kernel s.halts)
    (hr : s.halts r = some h) (m : Machine) :
    ∃ L' h', Leaving (s.next m r h) r L' h' := by
  obtain ⟨hparent, hsub, htodo, -⟩ := hpark r h hrun.used hr
  obtain ⟨l, hl, -⟩ := hrun.linked.cons_of_head hrun.head
  obtain ⟨hpt, hidx, -⟩ := hrun.self r hrun.used
  have hnext : s.next m r h
      = ⟨s.kernel.setTermCurr (s.kernel.pcb r).terminalNumber h.parent,
        update s.halts r (some { h with todo := (haltSteps h.parent).tail })⟩ := by
    rw [HaltState.next, htodo, haltSteps_eq_cons]
    rfl
  refine ⟨update L (s.kernel.pcb r).terminalNumber l, { h with todo := (haltSteps h.parent).tail },
    ?_⟩
  rw [hnext]
  exact
    { current := hrun.current
      halting := Function.update_self _ _ _
      sub := hsub
      todo := List.suffix_refl _
      tables := by
        refine hrun.toTables.of_removed hl ?_ rfl ?_ fun _ => .rfl
        · rw [← hparent]
          rfl
        · simp only [Kernel.released, Kernel.setTermCurr, hrun.page]
      saved := hrun.saved
      parked := by
        refine Parked.update_self ?_ _
        intro i hc hi hhalt
        have hne : i ≠ r := by
          rintro rfl
          simp [Kernel.released] at hi
        have hused : s.kernel.pcbUsed i = true := by
          simpa [Kernel.released, Kernel.setTermCurr, hne] using hi
        obtain ⟨hp, hs, ht, hh⟩ := hpark i hc hused hhalt
        refine ⟨hp, hs, ht, ?_⟩
        -- another head is on another terminal
        have hterm : (s.kernel.pcb i).terminalNumber ≠ (s.kernel.pcb r).terminalNumber := by
          intro he
          rw [he, hrun.head] at hh
          exact hne (Option.some.inj hh).symm
        exact (update_of_ne hterm _ _).trans hh
      used := fun _ => hrun.used
      ptIdx := hpt
      pcbIdx := hidx
      head := Function.update_self _ _ _
      oldEsp := fun p hp => (hrun.caller r p hrun.used (hparent ▸ hp)).2
      done := by
        have hfin := finished_haltSteps h.status hpt hidx fun p hp => by
          obtain ⟨l', hl'⟩ := hrun.parent_below hp
          have hnd := (hrun.linked.chain (s.kernel.pcb r).terminalNumber).nodup
          rw [hl'] at hnd
          have hmem : p ∈ L (s.kernel.pcb r).terminalNumber := by simp [hl']
          have hpused := (hrun.used_iff p).mpr ⟨_, hmem⟩
          refine ⟨fun he => ?_, (hrun.self p hpused).1, (hrun.caller r p hrun.used hp).1⟩
          exact (List.nodup_cons.mp hnd).1 (he ▸ List.mem_cons_self)
        rw [← hparent, haltSteps_eq_cons] at hfin
        exact hfin }

/-- **Each further step** leaves the others alone. -/
theorem Leaving.next_cons (hl : Leaving s r L h) {step : HaltStep} {todo : List HaltStep}
    (htodo : h.todo = step :: todo) (m : Machine) :
    Leaving (s.next m r h) r L { h with todo := todo } := by
  have hnext : s.next m r h = ⟨step.run r h.status s.kernel,
      update s.halts r (some { h with todo := todo })⟩ := by
    rw [HaltState.next, htodo]
  have hsuf := hl.todo
  rw [htodo] at hsuf
  have hmem : step ∈ (haltSteps h.parent).tail := hsuf.subset List.mem_cons_self
  have hstep : ∀ p, step ≠ .setTermCurr p := by
    rintro p rfl
    exact setTermCurr_notMem_tail _ _ hmem
  have hmark : ∀ p, step = .markPage p → (s.kernel.released r).pcbUsed p = true := by
    rintro p rfl
    have hp := mem_haltSteps_markPage (List.mem_of_mem_tail hmem)
    exact hl.tables.used_of_head (t := (s.kernel.pcb r).terminalNumber) (hl.head.trans hp)
  have hused := HaltStep.run_pcbUsed h.status step hl.pcbIdx
  have hpcb := HaltStep.run_pcb r h.status s.kernel step
  have hhead := HaltStep.run_termCurrPcb r h.status s.kernel hstep
  have hrel : ((step.run r h.status s.kernel).released r).pcbUsed
      = (s.kernel.released r).pcbUsed := by
    simp only [Kernel.released, hused]
    split_ifs
    · exact update_idem _ _ _
    · rfl
  rw [hnext]
  exact
    { current := by
        dsimp only
        rw [HaltStep.run_esp, hl.current]
      halting := Function.update_self _ _ _
      sub := hl.sub
      todo := (List.suffix_cons step todo).trans hsuf
      tables := hl.tables.run_step h.status hl.ptIdx hl.pcbIdx hstep hmark
      saved := fun i hi hne => by
        dsimp only at hi ⊢
        rw [(hpcb i).2]
        refine hl.saved i ?_ hne
        rw [hused] at hi
        split_ifs at hi
        · rwa [update_of_ne hne] at hi
        · exact hi
      parked := by
        have hpark : Parked ((step.run r h.status s.kernel).released r) s.halts :=
          hl.parked.congr (fun i => (hpcb i).1) hhead hrel
        exact hpark.update_self _
      used := fun hfree => by
        -- the slot is freed once
        have hne : step ≠ .freePcb := by
          rintro rfl
          have hnd := (nodup_haltSteps h.parent).sublist
            (hsuf.sublist.trans (List.tail_sublist _))
          exact (List.nodup_cons.mp hnd).1 hfree
        dsimp only
        rw [hused, if_neg hne]
        exact hl.used (htodo ▸ List.mem_cons_of_mem _ hfree)
      ptIdx := (hpcb r).1.ptIdx.trans hl.ptIdx
      pcbIdx := (hpcb r).1.pcbIdx.trans hl.pcbIdx
      head := by
        dsimp only
        rw [(hpcb r).1.terminalNumber, hhead, hl.head]
      oldEsp := (hpcb r).1.oldEsp ▸ hl.oldEsp
      done := by
        have hdone := hl.done
        rw [HaltCall.finish, htodo, List.foldl_cons] at hdone
        exact hdone }

/-! ## After the slot is free -/

/-- A suffix of a list that lacks one of its elements lies behind that element. -/
theorem suffix_of_notMem {α : Type*} {l : List α} {a : α} (pre post : List α)
    (h : l <:+ pre ++ a :: post) (ha : a ∉ l) : l <:+ post := by
  rcases List.suffix_or_suffix_of_suffix h (List.suffix_append pre (a :: post)) with hl | hl
  · rcases List.suffix_cons_iff.mp hl with rfl | hl
    · exact absurd List.mem_cons_self ha
    · exact hl
  · exact absurd (hl.subset List.mem_cons_self) ha

/-- What a `halt` that has cleared `pcb_used` has still to do. -/
theorem eq_of_suffix_haltSteps {parent : Option Slot} {todo : List HaltStep}
    (h : todo <:+ haltSteps parent) (hfree : .freePcb ∉ todo) :
    todo = [] ∨ ∃ p, todo = [.setReturnVal p] := by
  cases parent with
  | none =>
    have hnil := suffix_of_notMem [.setTermCurr none, .clearPde, .freePage, .setTssEsp0] [] h hfree
    exact .inl (List.suffix_nil.mp hnil)
  | some p =>
    have hone := suffix_of_notMem [.setTermCurr (some p), .clearPde, .freePage, .setPde p,
      .markPage p, .setTssEsp0] [.setReturnVal p] h hfree
    rcases List.suffix_cons_iff.mp hone with he | hnil
    · exact .inr ⟨p, he⟩
    · exact .inl (List.suffix_nil.mp hnil)

/-- The steps after `pcb_used` is cleared change no table. -/
theorem Leaving.freed (hl : Leaving s r L h) (hfree : .freePcb ∉ h.todo) : Freed s.kernel r := by
  have hfin := hl.done.freed
  have hsuf := hl.todo.trans (List.tail_suffix (haltSteps h.parent))
  rcases eq_of_suffix_haltSteps hsuf hfree with he | ⟨p, he⟩
  · rwa [HaltCall.finish, he] at hfin
  · -- storing the return value frees nothing and links nothing
    rwa [HaltCall.finish, he] at hfin

/-- A process that is not unlinked has freed its slot. -/
theorem Leaving.notMem_of_not_unlinked (hl : Leaving s r L h) (hnot : ¬ Unlinked s) :
    .freePcb ∉ h.todo := by
  intro hfree
  refine hnot ⟨r, h, hl.current, hl.halting, fun hmem => ?_, hfree⟩
  exact setTermCurr_notMem_tail _ _ (hl.todo.subset hmem)

/-- **The last step** of a process with a parent makes the parent the running process. -/
theorem Leaving.returned (hl : Leaving s r L h) (htodo : h.todo = []) (hparent : h.parent = some p)
    (m : Machine) : HaltInv (s.next m r h) p L := by
  have hfree : Freed s.kernel r := hl.freed (by rw [htodo]; exact List.not_mem_nil)
  have hnext : s.next m r h = ⟨{ s.kernel with esp := (s.kernel.pcb r).oldEsp },
      update s.halts r none⟩ := by
    rw [HaltState.next, htodo]
    simp only [haltLeave, hparent]
    rfl
  have htables := hl.tables
  have hpark := hl.parked.update_self none
  have hdone := hl.done
  -- the slot and the page are free already: nothing is released any more
  rw [Kernel.released_eq_self hfree] at htables hpark
  rw [HaltCall.finish, htodo, List.foldl_nil] at hdone
  have hhead := hl.head
  rw [hparent] at hhead
  rw [hnext]
  refine .running ?_ (hpark.congr (fun _ => .rfl) rfl rfl)
  exact
    { toTables := htables.congr (fun _ => .rfl) rfl rfl rfl
      current := hl.oldEsp p hparent
      head := by
        dsimp only
        rw [htables.terminalNumber_of_head hhead, hhead]
      progPde := hdone.progPde p hparent
      tssEsp0 := hdone.tssEsp0 p hparent
      saved := fun i hi _ => by
        have hne : i ≠ r := by
          rintro rfl
          rw [hfree.1] at hi
          cases hi
        exact hl.saved i hi hne }

/-! ## Operations on the tables -/

theorem after_enter {eip : Word} (hesp : getPcb k'.esp = some c) :
    after halts (.enter eip, k') = ⟨k', update halts c none⟩ := by
  simp only [after, hesp]

/-- Starting a program that replaces at most its caller. -/
theorem HaltInv.of_started (ht : Tables k L) (hsaved : Saved k fr.pcb) (hp : Parked k halts)
    (hc : firstFree k.pcbUsed = some c) (hst : Started k fr c k')
    (hcaller : ∀ i, k.termCurrPcb k.currentActiveTerminal = some i →
      (i = fr.pcb ∧ k.tssEsp0 = getKstackAddr fr.pcb) ∧ halts i = none) (eip : Word) :
    HaltInv (after halts (.enter eip, k')) c
      (update L k.currentActiveTerminal (c :: L k.currentActiveTerminal)) := by
  rw [after_enter (hst.esp ▸ getPcb_getKstackAddr c)]
  exact .running (.of_started ht hsaved hc hst fun i hi => (hcaller i hi).1)
    (hp.of_started hst fun i hi => (hcaller i hi).2)

/-- A tick resumes a head. -/
theorem HaltInv.of_tick (ht : Tables k L) (hsaved : Saved k fr.pcb) (hp : Parked k halts)
    {t : Term} (hhead : k.termCurrPcb t ≠ none) (m : Machine) {result : Control × Kernel}
    (htick : doHandlePit m k fr = some result) : ∃ i, HaltInv (after halts result) i L := by
  obtain ⟨u, i, hi, heq⟩ := doHandlePit_eq_some hhead m fr
  obtain rfl : switchTo m k fr u i = result := Option.some.inj (heq.symm.trans htick)
  have hres := resumed_switchTo (ht.self i (ht.used_of_head hi)).1 m fr u
  exact ⟨i, .running (.of_resumed ht hsaved hi hres)
    (hp.congr hres.same hres.termCurrPcb hres.pcbUsed)⟩

/-- A switch that starts no shell changes only what is looked at. -/
theorem changeVideoMem_of_not_startsShell (m : Machine) (fr : Frame) {new : Term}
    (hnot : ¬ StartsShell k new) :
    ∃ k₁, k.SameTables k₁ ∧ k₁.esp = k.esp ∧
      changeVideoMem m k fr k.currentActiveTerminal new = (.ret 0, k₁) := by
  by_cases hsame : k.currentActiveTerminal = new
  · exact ⟨k, by constructor <;> rfl, rfl, if_pos hsame⟩
  rcases changeVideoMem_cases m k fr k.currentActiveTerminal new with
    heq | ⟨k₁, rfl, ⟨-, heq⟩ | ⟨hhead, hfree, -⟩⟩
  · exact ⟨k, by constructor <;> rfl, rfl, heq⟩
  · exact ⟨{ k.setVideoPage m false with currentActiveTerminal := new },
      by constructor <;> rfl, rfl, heq⟩
  · exact absurd ⟨hsame, hhead, hfree⟩ hnot

/-- A switch that starts a shell executes it on a terminal that has no process. -/
theorem changeVideoMem_of_startsShell (m : Machine) (fr : Frame) {new : Term}
    (hshell : StartsShell k new) (hpage : k.progUsedPage = k.pcbUsed) :
    ∃ k₁ c eip k', k.SameTables k₁ ∧ k₁.currentActiveTerminal = new ∧
      firstFree k₁.pcbUsed = some c ∧ Started k₁ fr c k' ∧
      changeVideoMem m k fr k.currentActiveTerminal new = (.enter eip, k') := by
  obtain ⟨hne, hhead, hfree⟩ := hshell
  have heq : changeVideoMem m k fr k.currentActiveTerminal new
      = execute m { k.setVideoPage m false with currentActiveTerminal := new } fr
        (some shell) := by
    rw [changeVideoMem, if_neg hne, if_neg fun h => hfree h.1]
    simp [Kernel.setVideoPage, hhead]
  obtain ⟨c, eip, k', hc, hexec, hst⟩ := execute_shell
    (k := { k.setVideoPage m false with currentActiveTerminal := new }) m hpage hfree fr
  exact ⟨_, c, eip, k', by constructor <;> rfl, rfl, hc, hst, heq.trans hexec⟩

theorem HaltInv.of_startsShell (ht : Tables k L) (hsaved : Saved k fr.pcb) (hp : Parked k halts)
    (m : Machine) {new : Term} (hshell : StartsShell k new) :
    ∃ c L', HaltInv (after halts (changeVideoMem m k fr k.currentActiveTerminal new)) c L' := by
  obtain ⟨k₁, c, eip, k', hsame, hact, hc, hst, heq⟩ :=
    changeVideoMem_of_startsShell m fr hshell ht.page
  rw [heq]
  have ht₁ : Tables k₁ L :=
    ht.congr hsame.same hsame.termCurrPcb hsame.pcbUsed hsame.progUsedPage
  have hsaved₁ : Saved k₁ fr.pcb := fun i hi hne => by
    rw [hsame.pcb]
    exact hsaved i (hsame.pcbUsed ▸ hi) hne
  have hp₁ : Parked k₁ halts := hp.congr hsame.same hsame.termCurrPcb hsame.pcbUsed
  refine ⟨c, _, HaltInv.of_started ht₁ hsaved₁ hp₁ hc hst (fun i hi => ?_) eip⟩
  rw [hact, hsame.termCurrPcb, hshell.2.1] at hi
  cases hi

/-- A process without a parent executes a shell in the end. -/
theorem Leaving.next_of_root (hl : Leaving s r L h) (htodo : h.todo = []) (hparent : h.parent = none)
    (m : Machine) :
    ∃ c eip k', firstFree s.kernel.pcbUsed = some c ∧ Started s.kernel h.sub c k' ∧
      s.next m r h = after (update s.halts r none) (.enter eip, k') := by
  have hfree : Freed s.kernel r := hl.freed (by rw [htodo]; exact List.not_mem_nil)
  have htables := hl.tables
  rw [Kernel.released_eq_self hfree] at htables
  have hfirst : firstFree s.kernel.pcbUsed ≠ none := fun he => by
    have hr := firstFree_eq_none he r
    rw [hfree.1] at hr
    cases hr
  obtain ⟨c, eip, k', hc, hexec, hst⟩ := execute_shell m htables.page hfirst h.sub
  refine ⟨c, eip, k', hc, hst, ?_⟩
  rw [HaltState.next, htodo]
  simp only [haltLeave, hparent, hexec]

/-- **The last step** of a process without a parent makes the shell the running process. -/
theorem Leaving.restarted (hl : Leaving s r L h) (htodo : h.todo = []) (hparent : h.parent = none)
    (m : Machine) (hatt : Attaches s.kernel r) : ∃ c L', HaltInv (s.next m r h) c L' := by
  have hfree : Freed s.kernel r := hl.freed (by rw [htodo]; exact List.not_mem_nil)
  have htables := hl.tables
  have hpark := hl.parked.update_self none
  rw [Kernel.released_eq_self hfree] at htables hpark
  obtain ⟨c, eip, k', hc, hst, hnext⟩ := hl.next_of_root htodo hparent m
  rw [hnext]
  have hsaved : Saved s.kernel h.sub.pcb := by
    rw [hl.sub]
    exact hl.saved
  refine ⟨c, _, HaltInv.of_started htables hsaved hpark hc hst (fun i hi => ?_) eip⟩
  -- the process itself is no head
  have hused := htables.used_of_head hi
  rw [hatt i hi, hfree.1] at hused
  cases hused

/-! ## Runs -/

theorem Running.pcb_eq (h : Running k r L) (hfr : OnStack k fr) : fr.pcb = r := by
  rcases hfr with h1 | h1
  · exact (Option.some.inj (h.current.symm.trans h1)).symm
  · rw [h.tssEsp0, getPcb_getKstackAddr] at h1
    exact (Option.some.inj h1).symm

namespace HaltInv

theorem current (hI : HaltInv s r L) : getPcb s.kernel.esp = some r := by
  cases hI with
  | running hrun _ => exact hrun.current
  | leaving _ hl => exact hl.current

theorem current_eq (hI : HaltInv s r L) : s.current = s.halts r := by
  rw [HaltState.current, hI.current, Option.bind_some]

/-- A process that makes a system call is not leaving. -/
theorem of_calls (hI : HaltInv s r L) (hcall : s.Calls fr) :
    fr.pcb = r ∧ s.halts r = none ∧ Running s.kernel r L ∧ Parked s.kernel s.halts := by
  have hcur := hcall.1
  rw [hI.current_eq] at hcur
  cases hI with
  | running hrun hpark => exact ⟨hrun.pcb_eq hcall.2, hcur, hrun, hpark⟩
  | leaving h hl =>
    rw [hl.halting] at hcur
    cases hcur

theorem pcb_eq_of_interrupts (hI : HaltInv s r L) (hfr : s.Interrupts fr) : fr.pcb = r := by
  rw [HaltState.Interrupts, hI.current_eq] at hfr
  match hr : s.halts r with
  | none =>
    rw [hr] at hfr
    exact (hI.of_calls ⟨hI.current_eq.trans hr, hfr⟩).1
  | some h =>
    rw [hr] at hfr
    exact (Option.some.inj (hI.current.symm.trans hfr.2)).symm

theorem congr (hI : HaltInv s r L) (hsame : s.kernel.SameTables k')
    (hesp : getPcb k'.esp = some r) : HaltInv ⟨k', s.halts⟩ r L := by
  cases hI with
  | running hrun hpark =>
    exact .running (hrun.congr hsame hesp)
      (hpark.congr hsame.same hsame.termCurrPcb hsame.pcbUsed)
  | leaving h hl => exact .leaving h (hl.congr hsame hesp)

/-- Only the stack pointer changes when an operation is entered. -/
theorem enter (hI : HaltInv s fr.pcb L) : HaltInv ⟨s.kernel.entered fr, s.halts⟩ fr.pcb L :=
  hI.congr (s.kernel.sameTables_entered fr) fr.getPcb_esp

/-- Unless the running process is unlinked, the tables are those of the stacks. -/
theorem tables (hI : HaltInv s r L) (hnot : ¬ Unlinked s) :
    Tables s.kernel L ∧ Saved s.kernel r ∧ Parked s.kernel s.halts := by
  cases hI with
  | running hrun hpark => exact ⟨hrun.toTables, hrun.saved, hpark⟩
  | leaving h hl =>
    have hfree := hl.freed (hl.notMem_of_not_unlinked hnot)
    have htables := hl.tables
    have hpark := hl.parked
    rw [Kernel.released_eq_self hfree] at htables hpark
    exact ⟨htables, hl.saved, hpark⟩

theorem not_unlinked_of_running (hrun : Running s.kernel r L) (hpark : Parked s.kernel s.halts) :
    ¬ Unlinked s := by
  rintro ⟨r', h, hr', hhalt, hnot, -⟩
  obtain rfl : r = r' := Option.some.inj (hrun.current.symm.trans hr')
  rw [(hpark r h hrun.used hhalt).todo, haltSteps_eq_cons] at hnot
  exact hnot List.mem_cons_self

/-! ### One lemma for each step -/

theorem execute (hI : HaltInv s r L) (hcall : s.Calls fr) {command : Option (List Byte)}
    (hatt : Starts m s.kernel command → Attaches s.kernel fr.pcb) :
    ∃ r' L', HaltInv (after s.halts (execute m (s.kernel.entered fr) fr command)) r' L' := by
  obtain ⟨rfl, hcur, hrun, hpark⟩ := hI.of_calls hcall
  have hent : Running (s.kernel.entered fr) fr.pcb L :=
    hrun.congr (s.kernel.sameTables_entered fr) fr.getPcb_esp
  have hpark' : Parked (s.kernel.entered fr) s.halts := hpark.congr (fun _ => .rfl) rfl rfl
  rcases execute_cases (m := m) hent.page fr command with
    ⟨-, heq⟩ | ⟨hstarts, c, eip, k', hc, heq, hstart⟩
  · rw [heq]
    exact ⟨_, _, .running hent hpark'⟩
  · rw [heq]
    refine ⟨c, _, of_started hent.toTables hent.saved hpark' hc hstart (fun i hi => ?_) eip⟩
    have hi : i = fr.pcb := hatt hstarts i hi
    exact ⟨⟨hi, hent.tssEsp0⟩, hi ▸ hcur⟩

theorem halt {sub : Frame} (hI : HaltInv s r L) (hcall : s.Calls fr) (hsub : sub.pcb = fr.pcb)
    (arg : Word) (intr : Bool) :
    HaltInv ⟨s.kernel.entered fr, update s.halts fr.pcb
      (some (.start (s.kernel.pcb fr.pcb).parent sub arg intr))⟩ r L := by
  obtain ⟨rfl, -, hrun, hpark⟩ := hI.of_calls hcall
  refine .running (hrun.congr (s.kernel.sameTables_entered fr) fr.getPcb_esp) ?_
  intro i h hi hhalt
  dsimp only at hhalt
  rcases eq_or_ne i fr.pcb with rfl | hne
  · rw [update_self] at hhalt
    obtain rfl := Option.some.inj hhalt
    exact ⟨rfl, hsub, rfl, hrun.head⟩
  · rw [update_of_ne hne] at hhalt
    obtain ⟨hparent, hsub', htodo, hhead⟩ := hpark i h hi hhalt
    exact ⟨hparent, hsub', htodo, hhead⟩

theorem next (hI : HaltInv s r L) (hhalt : s.halts r = some h)
    (hatt : h.todo = [] → h.parent = none → Attaches s.kernel r) (m : Machine) :
    ∃ r' L', HaltInv (s.next m r h) r' L' := by
  cases hI with
  | running hrun hpark =>
    obtain ⟨L', h', hl⟩ := hrun.leaving hpark hhalt m
    exact ⟨r, L', .leaving h' hl⟩
  | leaving h' hl =>
    obtain rfl : h' = h := Option.some.inj (hl.halting.symm.trans hhalt)
    match htodo : h'.todo, hparent : h'.parent with
    | step :: todo, _ => exact ⟨r, L, .leaving _ (hl.next_cons htodo m)⟩
    | [], some p => exact ⟨p, L, hl.returned htodo hparent m⟩
    | [], none => exact hl.restarted htodo hparent m (hatt htodo hparent)

theorem switch {new : Term} (hI : HaltInv s r L) (hfr : s.Interrupts fr)
    (hok : Unlinked s → ¬ StartsShell s.kernel new) (m : Machine) :
    ∃ r' L', HaltInv (after s.halts (changeVideoMem m (s.kernel.entered fr) fr
      (s.kernel.entered fr).currentActiveTerminal new)) r' L' := by
  obtain rfl := hI.pcb_eq_of_interrupts hfr
  by_cases hshell : StartsShell (s.kernel.entered fr) new
  · obtain ⟨ht, hsaved, hpark⟩ := hI.tables fun hwin => hok hwin hshell
    have ht' : Tables (s.kernel.entered fr) L := ht.congr (fun _ => .rfl) rfl rfl rfl
    exact of_startsShell ht' hsaved (hpark.congr (fun _ => .rfl) rfl rfl) m hshell
  · obtain ⟨k₁, hsame, hesp, heq⟩ := changeVideoMem_of_not_startsShell m fr hshell
    rw [heq]
    refine ⟨fr.pcb, L, hI.enter.congr hsame ?_⟩
    rw [hesp]
    exact fr.getPcb_esp

theorem tick (hI : HaltInv s r L) (hfr : s.Interrupts fr)
    (hok : Unlinked s → ∀ t, s.kernel.termCurrPcb t = none) {result : Control × Kernel}
    (htick : doHandlePit m (s.kernel.entered fr) fr = some result) :
    ∃ r' L', HaltInv (after s.halts result) r' L' := by
  obtain rfl := hI.pcb_eq_of_interrupts hfr
  by_cases hall : ∀ t, s.kernel.termCurrPcb t = none
  · -- the tick returns to what it has interrupted
    have hret : doHandlePit m (s.kernel.entered fr) fr = some (.ret 0, s.kernel.entered fr) :=
      if_pos hall
    obtain rfl := Option.some.inj (hret.symm.trans htick)
    exact ⟨fr.pcb, L, hI.enter⟩
  · obtain ⟨t, ht⟩ := not_forall.mp hall
    obtain ⟨htab, hsaved, hpark⟩ := hI.tables fun hwin => hall (hok hwin)
    have htab' : Tables (s.kernel.entered fr) L := htab.congr (fun _ => .rfl) rfl rfl rfl
    obtain ⟨i, hi⟩ := of_tick htab' hsaved (hpark.congr (fun _ => .rfl) rfl rfl) ht m htick
    exact ⟨i, L, hi⟩

/-- **One step** of an undisturbed run keeps the invariant. -/
theorem step {a : HaltAct} (hI : HaltInv s r L) (hok : Undisturbed m s a)
    (hst : (haltLTS m).step s a s') : ∃ r' L', HaltInv s' r' L' := by
  match a with
  | .execute fr command =>
    obtain ⟨hcall, rfl⟩ := hst
    exact hI.execute hcall hok
  | .halt fr sub arg intr =>
    obtain ⟨hcall, hsub, rfl⟩ := hst
    exact ⟨r, L, hI.halt hcall hsub arg intr⟩
  | .next =>
    obtain ⟨r', h, hr', hhalt, rfl⟩ := hst
    obtain rfl : r = r' := Option.some.inj (hI.current.symm.trans hr')
    exact hI.next hhalt (hok r h hr' hhalt) m
  | .switch fr new =>
    obtain ⟨hfr, rfl⟩ := hst
    exact hI.switch hfr hok m
  | .tick fr =>
    obtain ⟨hfr, result, htick, rfl⟩ := hst
    exact hI.tick hfr hok htick

end HaltInv

end HieUnix
