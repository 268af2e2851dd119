import HieUnix.ProcessTables

/-!
# The invariant of the process tables

`Tables k L`: the control blocks, pages and heads of `k` describe the stacks `L`, one for each
terminal, and every process has the slot's own page, the slot's own stack, and the return data
of its parent. `Running k r L`: moreover `r` is running, is on top of its stack, and has its page
and its kernel stack selected, while every other process was suspended on its own stack.
`Inv k r L` adds that the terminal that is looked at has a process.

Each operation keeps `Inv` for a new running process and new stacks, given that a program is
only pushed on the stack of its caller (`Foreground`). `Effect` lists what an operation can then
do, and is what the proofs about runs go by.
-/

namespace HieUnix

open Function LinkedStacks

variable {m : Machine} {k k' : Kernel} {fr sub : Frame} {c p r i : Slot} {t : Term}
  {L : Term → List Slot}

/-- Two control blocks agree on what the tables are about: all but the descriptors, the arguments
and the return value, and where the process was suspended. -/
structure Pcb.Same (p q : Pcb) : Prop where
  parent : p.parent = q.parent
  terminalNumber : p.terminalNumber = q.terminalNumber
  ptIdx : p.ptIdx = q.ptIdx
  pcbIdx : p.pcbIdx = q.pcbIdx
  tssEsp : p.tssEsp = q.tssEsp
  oldTssEsp : p.oldTssEsp = q.oldTssEsp
  oldEsp : p.oldEsp = q.oldEsp
  oldEbp : p.oldEbp = q.oldEbp

theorem Pcb.Same.rfl {p : Pcb} : p.Same p := by
  constructor <;> exact Eq.refl _

/-- Replacing a control block by one that is the same for the tables. -/
theorem same_update {pcb : Slot → Pcb} {q : Pcb} (h : q.Same (pcb p)) (i : Slot) :
    (update pcb p q i).Same (pcb i) := by
  rcases eq_or_ne i p with rfl | hne
  · rw [update_self]
    exact h
  · rw [update_of_ne hne]
    exact .rfl

/-- What is in use after one entry was freed. -/
theorem used_of_freed {used : Slot → Bool} {i : Slot} (h : update used c false i = true) :
    i ≠ c ∧ used i = true := by
  rw [update_apply] at h
  split_ifs at h with hne
  exact ⟨hne, h⟩

/-- The tables of `k` describe the stacks `L`. -/
structure Tables (k : Kernel) (L : Term → List Slot) : Prop where
  linked : Stacks (fun i => (k.pcb i).parent) (fun i => (k.pcb i).terminalNumber) k.termCurrPcb L
  used_iff : ∀ i, k.pcbUsed i = true ↔ ∃ t, i ∈ L t
  page : k.progUsedPage = k.pcbUsed
  self : ∀ i, k.pcbUsed i = true →
    (k.pcb i).ptIdx = i ∧ (k.pcb i).pcbIdx = i ∧ (k.pcb i).tssEsp = getKstackAddr i
  caller : ∀ i p, k.pcbUsed i = true → (k.pcb i).parent = some p →
    (k.pcb i).oldTssEsp = getKstackAddr p ∧ getPcb (k.pcb i).oldEsp = some p

/-- Every process other than `r` was suspended on its own stack. -/
def Saved (k : Kernel) (r : Slot) : Prop :=
  ∀ i, k.pcbUsed i = true → i ≠ r → getPcb (k.pcb i).esp = some i

/-- `r` is running, and the tables of `k` describe the stacks `L`. -/
structure Running (k : Kernel) (r : Slot) (L : Term → List Slot) : Prop extends Tables k L where
  current : getPcb k.esp = some r
  head : k.termCurrPcb (k.pcb r).terminalNumber = some r
  progPde : k.progPde = progPde r
  tssEsp0 : k.tssEsp0 = getKstackAddr r
  saved : Saved k r

/-- Moreover the terminal that is looked at has a process. -/
structure Inv (k : Kernel) (r : Slot) (L : Term → List Slot) : Prop extends Running k r L where
  active : k.termCurrPcb k.currentActiveTerminal ≠ none

/-! ## Consequences -/

theorem Tables.used_of_head (h : Tables k L) (ht : k.termCurrPcb t = some i) :
    k.pcbUsed i = true :=
  (h.used_iff i).mpr ⟨t, h.linked.mem_of_head ht⟩

theorem Tables.terminalNumber_of_head (h : Tables k L) (ht : k.termCurrPcb t = some i) :
    (k.pcb i).terminalNumber = t :=
  h.linked.owner t i (h.linked.mem_of_head ht)

theorem Running.used (h : Running k r L) : k.pcbUsed r = true := h.used_of_head h.head

/-- The frame an operation is called on is on the stack of the running process. -/
theorem Running.frame_eq (h : Running k r L) {op : Op} (hop : op.Enabled k) : op.frame.pcb = r := by
  rcases hop.1 with h1 | h1
  · exact (Option.some.inj (h.current.symm.trans h1)).symm
  · rw [h.tssEsp0, getPcb_getKstackAddr] at h1
    exact (Option.some.inj h1).symm

/-- Two kernels have the same tables: they differ at most in what is looked at, in the stack
pointer and in the contents of pages. -/
structure Kernel.SameTables (k k' : Kernel) : Prop where
  pcb : k'.pcb = k.pcb
  termCurrPcb : k'.termCurrPcb = k.termCurrPcb
  pcbUsed : k'.pcbUsed = k.pcbUsed
  progUsedPage : k'.progUsedPage = k.progUsedPage
  progPde : k'.progPde = k.progPde
  tssEsp0 : k'.tssEsp0 = k.tssEsp0

theorem Kernel.sameTables_entered (k : Kernel) (fr : Frame) : k.SameTables (k.entered fr) := by
  constructor <;> rfl

/-- The tables depend on the heads, the used slots and pages, and what the control blocks say
about the tables. -/
theorem Tables.congr (h : Tables k L) (hsame : ∀ i, (k'.pcb i).Same (k.pcb i))
    (hhead : k'.termCurrPcb = k.termCurrPcb) (hused : k'.pcbUsed = k.pcbUsed)
    (hpage : k'.progUsedPage = k.progUsedPage) : Tables k' L where
  linked := by
    rw [hhead]
    exact h.linked.congr fun _ j _ => ⟨(hsame j).parent, (hsame j).terminalNumber⟩
  used_iff := hused ▸ h.used_iff
  page := by rw [hpage, hused, h.page]
  self i hi := by
    rw [(hsame i).ptIdx, (hsame i).pcbIdx, (hsame i).tssEsp]
    exact h.self i (hused ▸ hi)
  caller i p hi hp := by
    rw [(hsame i).parent] at hp
    rw [(hsame i).oldTssEsp, (hsame i).oldEsp]
    exact h.caller i p (hused ▸ hi) hp

theorem Running.congr (h : Running k r L) (hsame : k.SameTables k')
    (hesp : getPcb k'.esp = some r) : Running k' r L where
  toTables := by
    refine h.toTables.congr (fun i => ?_) hsame.termCurrPcb hsame.pcbUsed hsame.progUsedPage
    rw [hsame.pcb]
    exact .rfl
  current := hesp
  head := by rw [hsame.pcb, hsame.termCurrPcb, h.head]
  progPde := hsame.progPde.trans h.progPde
  tssEsp0 := hsame.tssEsp0.trans h.tssEsp0
  saved i hi hne := by
    rw [hsame.pcb]
    exact h.saved i (hsame.pcbUsed ▸ hi) hne

/-- Only the stack pointer changes when an operation is entered. -/
theorem Inv.enter (h : Inv k r L) (hfr : fr.pcb = r) : Inv (k.entered fr) r L :=
  { h with current := hfr ▸ fr.getPcb_esp }

/-! ## Starting a program -/

/-- The control blocks of the others are the same. -/
theorem Started.same (h : Started k fr c k') (hi : i ≠ c) : (k'.pcb i).Same (k.pcb i) := by
  rcases eq_or_ne i fr.pcb with rfl | hne
  · rw [h.caller hi]
    constructor <;> rfl
  · rw [h.other i hi hne]
    exact .rfl

theorem Started.returnVal (h : Started k fr c k') (hi : i ≠ c) :
    (k'.pcb i).returnVal = (k.pcb i).returnVal := by
  rcases eq_or_ne i fr.pcb with rfl | hne
  · rw [h.caller hi]
  · rw [h.other i hi hne]

/-- Starting a program keeps the tables, when the caller is what is on top of the active
terminal's stack. -/
theorem Tables.of_started (h : Tables k L) (hc : firstFree k.pcbUsed = some c)
    (hst : Started k fr c k')
    (hcaller : ∀ i, k.termCurrPcb k.currentActiveTerminal = some i →
      i = fr.pcb ∧ k.tssEsp0 = getKstackAddr fr.pcb) :
    Tables k' (update L k.currentActiveTerminal (c :: L k.currentActiveTerminal)) := by
  have hfree : k.pcbUsed c = false := firstFree_eq_some hc
  have hnot : ∀ t, c ∉ L t := fun t ht => by
    rw [(h.used_iff c).mpr ⟨t, ht⟩] at hfree
    exact Bool.false_ne_true hfree.symm
  have hne : ∀ t, ∀ i ∈ L t, i ≠ c := fun t i hi he => hnot t (he ▸ hi)
  have hused : ∀ i, k'.pcbUsed i = true ↔ i = c ∨ k.pcbUsed i = true := fun i => by
    rw [hst.pcbUsed, update_apply]
    split_ifs with hi <;> simp [hi]
  refine ⟨?_, fun i => ?_, ?_, fun i hi => ?_, fun i p hi hp => ?_⟩
  -- the child goes on top of the active stack, and its parent is what was there
  · rw [hst.termCurrPcb]
    refine h.linked.push hnot ?_ hst.terminalNumber fun t i hi =>
      ⟨(hst.same (hne t i hi)).parent, (hst.same (hne t i hi)).terminalNumber⟩
    refine hst.parent.trans ?_
    match hhead : k.termCurrPcb k.currentActiveTerminal with
    | none => rfl
    | some i => rw [Option.map_some, (hcaller i hhead).1]
  · rw [hused, Stacks.exists_mem_push_iff, h.used_iff]
  · rw [hst.progUsedPage, hst.pcbUsed, h.page]
  · rcases eq_or_ne i c with rfl | hic
    · exact ⟨hst.ptIdx, hst.pcbIdx, hst.tssEsp⟩
    · have hsame := hst.same hic
      rw [hsame.ptIdx, hsame.pcbIdx, hsame.tssEsp]
      exact h.self i (((hused i).mp hi).resolve_left hic)
  · rcases eq_or_ne i c with rfl | hic
    · -- the new process returns to its caller
      rw [hst.parent] at hp
      match hhead : k.termCurrPcb k.currentActiveTerminal with
      | none => rw [hhead] at hp; cases hp
      | some j =>
        rw [hhead, Option.map_some] at hp
        obtain rfl := Option.some.inj hp
        rw [hst.oldTssEsp (by rw [hhead]; rfl), hst.oldEsp (by rw [hhead]; rfl)]
        exact ⟨(hcaller j hhead).2, fr.getPcb_esp⟩
    · have hsame := hst.same hic
      rw [hsame.parent] at hp
      rw [hsame.oldTssEsp, hsame.oldEsp]
      exact h.caller i p (((hused i).mp hi).resolve_left hic) hp

/-- Starting a program makes it the running one. -/
theorem Running.of_started (h : Tables k L) (hsaved : Saved k fr.pcb)
    (hc : firstFree k.pcbUsed = some c) (hst : Started k fr c k')
    (hcaller : ∀ i, k.termCurrPcb k.currentActiveTerminal = some i →
      i = fr.pcb ∧ k.tssEsp0 = getKstackAddr fr.pcb) :
    Running k' c (update L k.currentActiveTerminal (c :: L k.currentActiveTerminal)) where
  toTables := h.of_started hc hst hcaller
  current := by rw [hst.esp, getPcb_getKstackAddr]
  head := by rw [hst.terminalNumber, hst.termCurrPcb, update_self]
  progPde := hst.progPde
  tssEsp0 := hst.tssEsp0
  saved i hi hne := by
    rw [hst.pcbUsed, update_of_ne hne] at hi
    rcases eq_or_ne i fr.pcb with rfl | hifr
    · rw [hst.caller hne]
      exact fr.getPcb_esp
    · rw [hst.other i hne hifr]
      exact hsaved i hi hifr

theorem Inv.of_started (h : Tables k L) (hsaved : Saved k fr.pcb)
    (hc : firstFree k.pcbUsed = some c) (hst : Started k fr c k')
    (hcaller : ∀ i, k.termCurrPcb k.currentActiveTerminal = some i →
      i = fr.pcb ∧ k.tssEsp0 = getKstackAddr fr.pcb) :
    Inv k' c (update L k.currentActiveTerminal (c :: L k.currentActiveTerminal)) where
  toRunning := .of_started h hsaved hc hst hcaller
  active := by
    rw [hst.active, hst.termCurrPcb, update_self]
    exact Option.some_ne_none c

/-- An `execute` that fails changes nothing; one that starts a program for a process of the
active terminal makes it the running process. -/
theorem Inv.execute (h : Inv k r L) (hfr : fr.pcb = r) (command : Option (List Byte))
    (hactive : Starts m k command → (k.pcb r).terminalNumber = k.currentActiveTerminal) :
    (¬ Starts m k command ∧ execute m k fr command = (.ret error, k)) ∨
    (Starts m k command ∧ ∃ c eip k', execute m k fr command = (.enter eip, k') ∧
      firstFree k.pcbUsed = some c ∧ Started k fr c k' ∧
      Inv k' c (update L k.currentActiveTerminal (c :: L k.currentActiveTerminal))) := by
  rcases execute_cases h.page fr command with hfail | ⟨hstarts, c, eip, k', hc, heq, hst⟩
  · exact .inl hfail
  · refine .inr ⟨hstarts, c, eip, k', heq, hc, hst,
      .of_started h.toTables (hfr ▸ h.saved) hc hst ?_⟩
    intro i hi
    rw [← hactive hstarts, h.head] at hi
    rw [hfr, h.tssEsp0]
    exact ⟨(Option.some.inj hi).symm, rfl⟩

/-! ## Ending a program -/

/-- Taking the top process `c` off its stack keeps the tables. -/
theorem Tables.of_removed (h : Tables k L) {l : List Slot} (hl : L t = c :: l)
    (hcurr : k'.termCurrPcb = update k.termCurrPcb t (k.pcb c).parent)
    (hused : k'.pcbUsed = update k.pcbUsed c false) (hpage : k'.progUsedPage = k'.pcbUsed)
    (hsame : ∀ i, (k'.pcb i).Same (k.pcb i)) : Tables k' (update L t l) := by
  have hiff : ∀ i, k'.pcbUsed i = true ↔ i ≠ c ∧ k.pcbUsed i = true := fun i => by
    rw [hused, update_apply]
    split_ifs with hi <;> simp [hi]
  refine ⟨?_, fun i => ?_, hpage, fun i hi => ?_, fun i p hi hp => ?_⟩
  · rw [hcurr]
    exact (h.linked.pop hl).congr fun _ i _ => ⟨(hsame i).parent, (hsame i).terminalNumber⟩
  · rw [hiff, h.linked.exists_mem_pop_iff hl, h.used_iff]
  · rw [(hsame i).ptIdx, (hsame i).pcbIdx, (hsame i).tssEsp]
    exact h.self i ((hiff i).mp hi).2
  · rw [(hsame i).parent] at hp
    rw [(hsame i).oldTssEsp, (hsame i).oldEsp]
    exact h.caller i p ((hiff i).mp hi).2 hp

/-- A process with a parent is on top of its parent. -/
theorem Running.parent_below (h : Running k r L) (hparent : (k.pcb r).parent = some p) :
    ∃ l, L (k.pcb r).terminalNumber = r :: p :: l := by
  obtain ⟨l, hl, hchain⟩ := h.linked.cons_of_head h.head
  rw [hparent] at hchain
  obtain ⟨l', rfl, -⟩ := Chain.some_iff.mp hchain
  exact ⟨l', hl⟩

/-- A process without a parent is alone on its terminal. -/
theorem Inv.alone (h : Inv k r L) (hparent : (k.pcb r).parent = none) :
    L (k.pcb r).terminalNumber = [r] := by
  obtain ⟨l, hl, hchain⟩ := h.linked.cons_of_head h.head
  rw [hparent, Chain.none_iff] at hchain
  rw [hl, hchain]

/-- A `halt` of a process with a parent makes the parent the running process. -/
theorem Inv.halt_of_parent (h : Inv k r L) (hfr : fr.pcb = r)
    (hparent : (k.pcb r).parent = some p) {l : List Slot}
    (hl : L (k.pcb r).terminalNumber = r :: p :: l) (m : Machine) (sub : Frame) (arg : Word) :
    Inv (halt m k fr sub arg).2 p (update L (k.pcb r).terminalNumber (p :: l)) := by
  subst hfr
  have hp : p ∈ L (k.pcb fr.pcb).terminalNumber := by simp [hl]
  have hnd := (h.linked.chain (k.pcb fr.pcb).terminalNumber).nodup
  rw [hl] at hnd
  have hne : p ≠ fr.pcb := fun he => (List.nodup_cons.mp hnd).1 (he ▸ List.mem_cons_self)
  have hpused : k.pcbUsed p = true := (h.used_iff p).mpr ⟨_, hp⟩
  obtain ⟨hpt, hidx, -⟩ := h.self fr.pcb h.used
  obtain ⟨hold, hesp⟩ := h.caller fr.pcb p h.used hparent
  rw [HieUnix.halt_of_parent hparent hpt hidx (h.self p hpused).1]
  -- of the parent only the return value changes, which no table depends on
  have hsame : ∀ i, (update k.pcb p
      { k.pcb p with returnVal := (arg.setWidth 8).setWidth 32 &&& 0xFF } i).Same (k.pcb i) :=
    same_update (by constructor <;> rfl)
  have hterm := (hsame p).terminalNumber.trans (h.linked.owner _ p hp)
  have hpage : update (update k.progUsedPage fr.pcb false) p true
      = update k.pcbUsed fr.pcb false := by
    rw [h.page, update_eq_self_iff.mpr]
    rw [update_of_ne hne, hpused]
  exact
    { toTables := h.toTables.of_removed hl (by rw [hparent]) rfl hpage hsame
      current := hesp
      head := by
        rw [hterm]
        exact update_self _ _ _
      progPde := rfl
      tssEsp0 := hold
      saved := fun i hi hip => by
        dsimp only at hi ⊢
        rcases eq_or_ne i fr.pcb with rfl | hir
        · rw [update_self] at hi
          cases hi
        · rw [update_of_ne hir] at hi
          rw [update_of_ne hip]
          exact h.saved i hi hir
      active := by
        dsimp only
        rcases eq_or_ne k.currentActiveTerminal (k.pcb fr.pcb).terminalNumber with he | hne'
        · rw [he, update_self]
          exact Option.some_ne_none p
        · rw [update_of_ne hne']
          exact h.active }

/-- A `halt` of a root process on the active terminal replaces it by a new shell. -/
theorem Inv.halt_of_root (h : Inv k r L) (hfr : fr.pcb = r) (hsub : sub.pcb = r)
    (hparent : (k.pcb r).parent = none)
    (hactive : (k.pcb r).terminalNumber = k.currentActiveTerminal) (m : Machine) (arg : Word) :
    ∃ c eip k', halt m k fr sub arg = (.enter eip, k') ∧
      firstFree (rootFreed k r).pcbUsed = some c ∧ Started (rootFreed k r) sub c k' ∧
      Inv k' c (update L k.currentActiveTerminal [c]) := by
  subst hfr
  obtain ⟨hpt, hidx, -⟩ := h.self fr.pcb h.used
  obtain ⟨c, eip, k', hc, heq, hst⟩ := HieUnix.halt_of_root (m := m) h.page hparent hpt hidx sub arg
  refine ⟨c, eip, k', heq, hc, hst, ?_⟩
  have htables : Tables (rootFreed k fr.pcb) (update L k.currentActiveTerminal []) := by
    refine h.toTables.of_removed (hactive ▸ h.alone hparent) ?_ rfl ?_ fun _ => .rfl
    · rw [hparent, ← hactive]
      rfl
    · simp only [rootFreed, h.page]
  have hsaved : Saved (rootFreed k fr.pcb) sub.pcb := by
    intro i hi hne
    rw [hsub] at hne
    simp only [rootFreed] at hi
    rw [update_of_ne hne] at hi
    exact h.saved i hi hne
  -- the terminal is empty when its shell is started again: nobody is the caller
  have hinv := Inv.of_started htables hsaved hc hst fun i hi => by
    simp only [rootFreed, hactive, update_self] at hi
    cases hi
  simpa [rootFreed] using hinv

/-! ## Ticks and terminal switches -/

theorem Resumed.same (h : Resumed k fr i k') (j : Slot) : (k'.pcb j).Same (k.pcb j) := by
  rw [h.pcb]
  exact same_update (by constructor <;> rfl) j

theorem Resumed.returnVal (h : Resumed k fr i k') (j : Slot) :
    (k'.pcb j).returnVal = (k.pcb j).returnVal := by
  rw [h.pcb, update_apply]
  split_ifs with hj
  · rw [hj]
  · rfl

/-- Resuming the head of a terminal makes it the running process. -/
theorem Running.of_resumed (h : Tables k L) (hsaved : Saved k fr.pcb)
    (hi : k.termCurrPcb t = some i) (hres : Resumed k fr i k') : Running k' i L := by
  have hused := h.used_of_head hi
  have hsame := hres.same
  have hesp : ∀ j, k.pcbUsed j = true → getPcb (k'.pcb j).esp = some j := by
    intro j hj
    rw [hres.pcb, update_apply]
    split_ifs with hjr
    · exact hjr ▸ fr.getPcb_esp
    · exact hsaved j hj hjr
  have hpage : k'.progUsedPage = k.progUsedPage := by
    rw [hres.progUsedPage, h.page, update_eq_self_iff]
    exact hused.symm
  exact
    { toTables := h.congr hsame hres.termCurrPcb hres.pcbUsed hpage
      current := by rw [hres.esp, hesp i hused]
      head := by
        rw [(hsame i).terminalNumber, hres.termCurrPcb, h.terminalNumber_of_head hi, hi]
      progPde := hres.progPde
      tssEsp0 := hres.tssEsp0.trans (h.self i hused).2.2
      saved := fun j hj _ => hesp j (hres.pcbUsed ▸ hj) }

theorem Inv.of_resumed (h : Inv k fr.pcb L) (hi : k.termCurrPcb t = some i)
    (hres : Resumed k fr i k') : Inv k' i L where
  toRunning := .of_resumed h.toTables h.saved hi hres
  active := by
    rw [hres.active, hres.termCurrPcb]
    exact h.active

/-- A tick resumes a head. -/
theorem Inv.tick (h : Inv k r L) (hfr : fr.pcb = r) (m : Machine) :
    ∃ t i c k', k.termCurrPcb t = some i ∧ doHandlePit m k fr = some (c, k') ∧
      Resumed k fr i k' ∧ Inv k' i L := by
  subst hfr
  have hhead : k.termCurrPcb (k.pcb fr.pcb).terminalNumber ≠ none := by
    rw [h.head]
    exact Option.some_ne_none _
  obtain ⟨t, i, hi, heq⟩ := doHandlePit_eq_some hhead m fr
  have hres := resumed_switchTo (h.self i (h.toTables.used_of_head hi)).1 m fr t
  exact ⟨t, i, _, _, hi, heq, hres, h.of_resumed hi hres⟩

/-- A terminal switch only changes what is looked at, or puts a shell on a terminal that has no
process. -/
theorem Inv.switch (h : Inv k r L) (hfr : fr.pcb = r) (m : Machine) (new : Term) :
    ∃ k₁ : Kernel, k₁.pcb = k.pcb ∧ k₁.termCurrPcb = k.termCurrPcb ∧ k₁.pcbUsed = k.pcbUsed ∧
      (k₁.currentActiveTerminal = k.currentActiveTerminal ∨ k₁.currentActiveTerminal = new) ∧
      ((changeVideoMem m k fr k.currentActiveTerminal new = (.ret 0, k₁) ∧ Inv k₁ r L) ∨
        ∃ c eip k', changeVideoMem m k fr k.currentActiveTerminal new = (.enter eip, k') ∧
          k.termCurrPcb new = none ∧ k₁.currentActiveTerminal = new ∧
          firstFree k₁.pcbUsed = some c ∧ Started k₁ fr c k' ∧ Inv k' c (update L new [c])) := by
  rcases changeVideoMem_cases m k fr k.currentActiveTerminal new with
    heq | ⟨k₁, rfl, ⟨hhead, heq⟩ | ⟨hhead, hfree, heq⟩⟩
  · exact ⟨k, rfl, rfl, rfl, .inl rfl, .inl ⟨heq, h⟩⟩
  · exact ⟨{ k.setVideoPage m false with currentActiveTerminal := new }, rfl, rfl, rfl,
      .inr rfl, .inl ⟨heq, { h with active := hhead }⟩⟩
  · -- the new shell has no parent, and the process interrupted is suspended in `execute`
    have htables : Tables { k.setVideoPage m false with currentActiveTerminal := new } L :=
      { h with }
    obtain ⟨c, eip, k', hc, hexec, hst⟩ := execute_shell m htables.page hfree fr
    have hnil := h.linked.eq_nil_of_head hhead
    have hinv := Inv.of_started htables (hfr ▸ h.saved) hc hst fun i hi => by
      rw [show k.termCurrPcb new = some i from hi] at hhead
      cases hhead
    refine ⟨{ k.setVideoPage m false with currentActiveTerminal := new }, rfl, rfl, rfl,
      .inr rfl, .inr ⟨c, eip, k', heq.trans hexec, hhead, rfl, hc, hst, ?_⟩⟩
    simpa [hnil] using hinv

/-! ## What an operation can do -/

/-- A system call of the running process. -/
def Op.IsCall : Op → Prop
  | .execute _ _ => True
  | .halt _ _ _ => True
  | .switch _ _ => False
  | .tick _ => False

/-- The terminal of the process an operation interrupts or is called by. -/
def Op.terminal (k : Kernel) (op : Op) : Term := (k.pcb op.frame.pcb).terminalNumber

/-- Programs are only started for the terminal that is looked at: an `execute` that starts one
and a `halt` that restarts a shell are calls of a process of the active terminal. -/
def Foreground (m : Machine) (k : Kernel) (op : Op) : Prop :=
  match op with
  | .execute _ command => Starts m k command → op.terminal k = k.currentActiveTerminal
  | .halt fr _ _ => (k.pcb fr.pcb).parent = none → op.terminal k = k.currentActiveTerminal
  | .switch _ _ => True
  | .tick _ => True

/-- What the operation `op` of the running process `r` does: where control goes, the kernel after
it, and the running process and the stacks after it. -/
inductive Effect (m : Machine) (k : Kernel) (r : Slot) (L : Term → List Slot) :
    Op → Control → Kernel → Slot → (Term → List Slot) → Prop
  /-- An `execute` that fails. -/
  | failed {fr : Frame} {command : Option (List Byte)} :
      fr.pcb = r → ¬ Starts m k command →
      Effect m k r L (.execute fr command) (.ret error) (k.entered fr) r L
  /-- An `execute` that starts a program. -/
  | started {fr : Frame} {command : Option (List Byte)} {c : Slot} {eip : Word} {k' : Kernel} :
      fr.pcb = r → Starts m k command → (k.pcb r).terminalNumber = k.currentActiveTerminal →
      firstFree k.pcbUsed = some c → Started (k.entered fr) fr c k' →
      Effect m k r L (.execute fr command) (.enter eip) k' c
        (update L k.currentActiveTerminal (c :: L k.currentActiveTerminal))
  /-- A `halt` that returns to the parent. -/
  | returned {fr sub : Frame} {arg : Word} {p : Slot} {l : List Slot} {k' : Kernel} :
      fr.pcb = r → (k.pcb r).parent = some p → L (k.pcb r).terminalNumber = r :: p :: l →
      k'.termCurrPcb = update k.termCurrPcb (k.pcb r).terminalNumber (some p) →
      k'.pcbUsed = update k.pcbUsed r false →
      k'.pcb = update k.pcb p
        { k.pcb p with returnVal := (arg.setWidth 8).setWidth 32 &&& 0xFF } →
      k'.currentActiveTerminal = k.currentActiveTerminal →
      Effect m k r L (.halt fr sub arg) (.jump (k.pcb r).oldEsp (k.pcb r).oldEbp .retHere) k' p
        (update L (k.pcb r).terminalNumber (p :: l))
  /-- A `halt` of a root process. -/
  | restarted {fr sub : Frame} {arg : Word} {c : Slot} {eip : Word} {k' : Kernel} :
      fr.pcb = r → sub.pcb = r → (k.pcb r).parent = none →
      (k.pcb r).terminalNumber = k.currentActiveTerminal →
      L k.currentActiveTerminal = [r] → firstFree (rootFreed (k.entered fr) r).pcbUsed = some c →
      Started (rootFreed (k.entered fr) r) sub c k' →
      Effect m k r L (.halt fr sub arg) (.enter eip) k' c (update L k.currentActiveTerminal [c])
  /-- A switch to a terminal that has a process, or to none. -/
  | looked {fr : Frame} {new : Term} {k' : Kernel} :
      fr.pcb = r → k'.pcb = k.pcb → k'.termCurrPcb = k.termCurrPcb → k'.pcbUsed = k.pcbUsed →
      (k'.currentActiveTerminal = k.currentActiveTerminal ∨ k'.currentActiveTerminal = new) →
      Effect m k r L (.switch fr new) (.ret 0) k' r L
  /-- A switch to a terminal that has no process. -/
  | spawned {fr : Frame} {new : Term} {c : Slot} {eip : Word} {k₁ k' : Kernel} :
      fr.pcb = r → k₁.pcb = k.pcb → k₁.termCurrPcb = k.termCurrPcb → k₁.pcbUsed = k.pcbUsed →
      k₁.currentActiveTerminal = new → k.termCurrPcb new = none → firstFree k₁.pcbUsed = some c →
      Started k₁ fr c k' →
      Effect m k r L (.switch fr new) (.enter eip) k' c (update L new [c])
  /-- A tick. -/
  | resumed {fr : Frame} {t : Term} {i : Slot} {c : Control} {k' : Kernel} :
      fr.pcb = r → k.termCurrPcb t = some i → Resumed (k.entered fr) fr i k' →
      Effect m k r L (.tick fr) c k' i L

/-- **One operation** has one of these effects and keeps the invariant. -/
theorem Inv.effect {op : Op} (h : Inv k r L) (hfg : Foreground m k op) (hop : op.Enabled k)
    {c : Control} (hrun : op.run m (k.entered op.frame) = some (c, k')) :
    ∃ r' L', Effect m k r L op c k' r' L' ∧ Inv k' r' L' := by
  have hfr : op.frame.pcb = r := h.frame_eq hop
  match op with
  | .execute fr command =>
    obtain rfl : fr.pcb = r := hfr
    have hent : Inv (k.entered fr) fr.pcb L := h.enter rfl
    rcases hent.execute rfl command hfg with
      ⟨hnot, heq⟩ | ⟨hstarts, i, eip, k'', heq, hfree, hstart, hinv⟩
    · obtain ⟨rfl, rfl⟩ := Prod.mk.inj (heq.symm.trans (Option.some.inj hrun))
      exact ⟨_, _, .failed rfl hnot, hent⟩
    · obtain ⟨rfl, rfl⟩ := Prod.mk.inj (heq.symm.trans (Option.some.inj hrun))
      exact ⟨_, _, .started rfl hstarts (hfg hstarts) hfree hstart, hinv⟩
  | .halt fr sub arg =>
    obtain rfl : fr.pcb = r := hfr
    have hent : Inv (k.entered fr) fr.pcb L := h.enter rfl
    match hparent : (k.pcb fr.pcb).parent with
    | some p =>
      obtain ⟨l, hl⟩ := hent.parent_below hparent
      have hinv := hent.halt_of_parent rfl hparent hl m sub arg
      have hp : k.pcbUsed p = true := (h.used_iff p).mpr ⟨_, by rw [hl]; simp⟩
      obtain ⟨hpt, hidx, -⟩ := h.self fr.pcb h.used
      have heq := HieUnix.halt_of_parent (k := k.entered fr) (m := m) hparent hpt hidx
        (h.self p hp).1 sub arg
      obtain ⟨rfl, rfl⟩ := Prod.mk.inj (heq.symm.trans (Option.some.inj hrun))
      rw [heq] at hinv
      exact ⟨_, _, .returned rfl hparent hl rfl rfl rfl rfl, hinv⟩
    | none =>
      -- a root is restarted only in the foreground, where the new shell takes its terminal
      obtain ⟨i, eip, k'', heq, hfree, hstart, hinv⟩ :=
        hent.halt_of_root rfl hop.2 hparent (hfg hparent) m arg
      obtain ⟨rfl, rfl⟩ := Prod.mk.inj (heq.symm.trans (Option.some.inj hrun))
      have halone := h.alone hparent
      rw [show (k.pcb fr.pcb).terminalNumber = _ from hfg hparent] at halone
      exact ⟨_, _, .restarted rfl hop.2 hparent (hfg hparent) halone hfree hstart, hinv⟩
  | .switch fr new =>
    obtain ⟨k₁, hpcb, hhead, hused, hlook,
      ⟨heq, hinv⟩ | ⟨i, eip, k'', heq, hnil, hact, hfree, hstart, hinv⟩⟩ := (h.enter hfr).switch hfr m new
    · obtain ⟨rfl, rfl⟩ := Prod.mk.inj (heq.symm.trans (Option.some.inj hrun))
      exact ⟨_, _, .looked hfr hpcb hhead hused hlook, hinv⟩
    · obtain ⟨rfl, rfl⟩ := Prod.mk.inj (heq.symm.trans (Option.some.inj hrun))
      exact ⟨_, _, .spawned hfr hpcb hhead hused hact hnil hfree hstart, hinv⟩
  | .tick fr =>
    obtain ⟨t, i, c', k'', hi, heq, hres, hinv⟩ := (h.enter hfr).tick hfr m
    obtain ⟨rfl, rfl⟩ := Prod.mk.inj (Option.some.inj (heq.symm.trans hrun))
    exact ⟨_, _, .resumed hfr hi hres, hinv⟩

/-! ## Runs -/

/-- The state after boot: a shell in slot 0, on terminal 0, which is looked at. -/
theorem init_spec (h : (kernelLTS m).init k) :
    Inv k 0 (update (fun _ => []) 0 [0]) ∧ k.currentActiveTerminal = 0 := by
  obtain ⟨pcb, progPage, fr, hfr, rfl⟩ := h
  have htables : Tables (bootKernel pcb progPage) fun _ => [] :=
    { linked := ⟨fun _ => .nil, fun _ _ h => absurd h List.not_mem_nil⟩
      used_iff := fun i => iff_of_false Bool.false_ne_true fun ⟨_, h⟩ => List.not_mem_nil h
      page := rfl
      self := fun _ h => absurd h Bool.false_ne_true
      caller := fun _ _ h => absurd h Bool.false_ne_true }
  have hfree : firstFree (bootKernel pcb progPage).pcbUsed = some 0 := rfl
  obtain ⟨c, eip, k', hc, hexec, hst⟩ :=
    execute_shell m htables.page (by rw [hfree]; exact Option.some_ne_none 0) fr
  obtain rfl := Option.some.inj (hfree.symm.trans hc)
  rw [hexec]
  exact ⟨.of_started htables (fun _ h => by cases h) hc hst fun _ h => (by cases h), hst.active⟩

theorem inv_init (h : (kernelLTS m).init k) : Inv k 0 (update (fun _ => []) 0 [0]) :=
  (init_spec h).1

/-- **Every run** whose programs start in the foreground keeps the invariant. -/
theorem exists_inv_of_reach (h : (kernelLTS m).Reach (Foreground m) k) : ∃ r L, Inv k r L := by
  refine h.invariant (I := fun k => ∃ r L, Inv k r L) (fun _ hinit => ⟨_, _, inv_init hinit⟩) ?_
  rintro k op k' ⟨r, L, hI⟩ hfg ⟨hop, c, hrun⟩
  obtain ⟨r', L', -, hI'⟩ := hI.effect hfg hop hrun
  exact ⟨r', L', hI'⟩

end HieUnix
