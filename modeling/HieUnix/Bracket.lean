import HieUnix.Ownership

/-!
# Execute and halt as brackets

An `execute` that starts a program returns when the program halts. The record `callLTS` keeps,
for the program in each slot, what the `execute` that started it found: the process tables, and
the frame it was called on. A `halt` then goes back to that frame (`halt_returns`), and on one
terminal it leaves the tables as that `execute` found them (`bracket`).

The tables of one terminal are a function of its stack of processes (`tablesOf`), which is how
they come back: `execute` pushes a process and `halt` pops it.
-/

namespace HieUnix

open Function LinkedStacks

variable {m : Machine} {k k' : Kernel} {r c p : Slot} {L : Term → List Slot} {l : List Slot}
  {op : Op}

/-! ## The record -/

/-- The tables a program's start and end change. -/
structure ProcTables where
  pcbUsed : Slot → Bool
  progUsedPage : Slot → Bool
  progPde : Word
  tssEsp0 : Word
  head : Option Slot

/-- The tables of a kernel, with the head of terminal 0. -/
def Kernel.procTables (k : Kernel) : ProcTables :=
  ⟨k.pcbUsed, k.progUsedPage, k.progPde, k.tssEsp0, k.termCurrPcb 0⟩

/-- What an `execute` found: the tables, and the frame it was called on. -/
structure Call where
  tables : ProcTables
  esp : Word
  ebp : Word

/-- An `execute` that starts a program is recorded for the program's slot. -/
def recordCall (m : Machine) (k : Kernel) (op : Op) (k' : Kernel) (calls : Slot → Call) :
    Slot → Call :=
  match op with
  | .execute fr command =>
    match (execute m (k.entered fr) fr command).1, k'.termCurrPcb k.currentActiveTerminal with
    | .enter _, some c => update calls c ⟨k.procTables, fr.esp, fr.ebp⟩
    | _, _ => calls
  | _ => calls

/-- An `execute` that fails is not recorded. -/
theorem recordCall_of_ret {fr : Frame} {command : Option (List Byte)} {v : Word}
    (hrun : (Op.execute fr command).run m (k.entered (Op.execute fr command).frame)
      = some (.ret v, k'))
    (calls : Slot → Call) : recordCall m k (.execute fr command) k' calls = calls := by
  have hctl : (execute m (k.entered fr) fr command).1 = .ret v :=
    congrArg Prod.fst (Option.some.inj hrun)
  simp only [recordCall, hctl]

theorem recordCall_of_enter {fr : Frame} {command : Option (List Byte)} {eip : Word}
    (hrun : (Op.execute fr command).run m (k.entered (Op.execute fr command).frame)
      = some (.enter eip, k'))
    (hhead : k'.termCurrPcb k.currentActiveTerminal = some c) (calls : Slot → Call) :
    recordCall m k (.execute fr command) k' calls
      = update calls c ⟨k.procTables, fr.esp, fr.ebp⟩ := by
  have hctl : (execute m (k.entered fr) fr command).1 = .enter eip :=
    congrArg Prod.fst (Option.some.inj hrun)
  simp only [recordCall, hctl, hhead]

/-- The kernel with the record of the calls that are under way. -/
def callLTS (m : Machine) : LTS (Kernel × (Slot → Call)) Op :=
  (kernelLTS m).history (fun k _ => ⟨k.procTables, 0, 0⟩) (recordCall m)

/-- The record takes nothing away from the runs and adds none. -/
theorem exists_calls_iff_reach {ok : Kernel → Op → Prop} :
    (∃ calls, (callLTS m).Reach (fun q op => ok q.1 op) (k, calls)) ↔ (kernelLTS m).Reach ok k :=
  ⟨fun ⟨_, h⟩ => h.of_history, fun h => h.exists_history⟩

/-! ## Where a program returns to -/

/-- The return data of every process are those of the call that started it. -/
def CallsSaved (k : Kernel) (calls : Slot → Call) : Prop :=
  ∀ c p, k.pcbUsed c = true → (k.pcb c).parent = some p →
    (k.pcb c).oldEsp = (calls c).esp ∧ (k.pcb c).oldEbp = (calls c).ebp

/-- Starting a process without a parent records nothing, and its slot was free. -/
theorem CallsSaved.of_started {k₁ : Kernel} {fr : Frame} {calls : Slot → Call}
    (h : CallsSaved k₁ calls) (hst : Started k₁ fr c k')
    (hhead : k₁.termCurrPcb k₁.currentActiveTerminal = none) : CallsSaved k' calls := by
  intro i p hi hp
  rcases eq_or_ne i c with rfl | hic
  · rw [hst.parent, hhead] at hp
    cases hp
  · rw [hst.pcbUsed, update_of_ne hic] at hi
    have hsame := hst.same hic
    rw [hsame.parent] at hp
    rw [hsame.oldEsp, hsame.oldEbp]
    exact h i p hi hp

theorem CallsSaved.congr {calls : Slot → Call} (h : CallsSaved k calls)
    (hused : ∀ i, k'.pcbUsed i = true → k.pcbUsed i = true)
    (hsame : ∀ i, (k'.pcb i).Same (k.pcb i)) : CallsSaved k' calls := by
  intro i p hi hp
  rw [(hsame i).parent] at hp
  rw [(hsame i).oldEsp, (hsame i).oldEbp]
  exact h i p (hused i hi) hp

/-- **One operation** keeps the return data of every process. -/
theorem CallsSaved.effect {calls : Slot → Call} {ctl : Control} {r' : Slot}
    {L' : Term → List Slot} (h : CallsSaved k calls) (hI : Inv k r L)
    (hrun : op.run m (k.entered op.frame) = some (ctl, k'))
    (heff : Effect m k r L op ctl k' r' L') : CallsSaved k' (recordCall m k op k' calls) := by
  cases heff with
  | failed hfr hnot =>
    rw [recordCall_of_ret hrun]
    exact h
  | @started fr command _ eip _ hfr _ hact hfree hst =>
    have hsome : ((k.entered fr).termCurrPcb (k.entered fr).currentActiveTerminal).isSome :=
      Option.isSome_iff_ne_none.mpr hI.active
    rw [recordCall_of_enter hrun hst.head]
    intro i p hi hp
    -- the new process has just been recorded, and the others are as before
    rcases eq_or_ne i r' with rfl | hne
    · rw [update_self, hst.oldEsp hsome, hst.oldEbp hsome]
      exact ⟨rfl, rfl⟩
    · rw [hst.pcbUsed, update_of_ne hne] at hi
      have hsame := hst.same hne
      rw [hsame.parent] at hp
      rw [update_of_ne hne, hsame.oldEsp, hsame.oldEbp]
      exact h i p hi hp
  | returned hfr hparent hl _ hused hpcb _ =>
    -- of the parent only the return value changes
    refine h.congr (fun i hi => ?_) fun i => ?_
    · rw [hused] at hi
      exact (used_of_freed hi).2
    · rw [hpcb]
      exact same_update (by constructor <;> rfl) i
  | @restarted fr _ _ _ _ _ hfr _ hparent hact _ _ hst =>
    -- the new shell has no parent
    have hfreed : CallsSaved (rootFreed (k.entered fr) r) calls :=
      h.congr (fun i hi => (used_of_freed hi).2) fun _ => .rfl
    refine hfreed.of_started hst ?_
    simp only [rootFreed, Kernel.entered, hact, update_self]
  | looked _ hpcb _ hused _ =>
    exact h.congr (fun i hi => hused ▸ hi) fun i => hpcb ▸ .rfl
  | spawned _ hpcb hhead hused hact hnone hfree hst =>
    refine (h.congr (fun i hi => hused ▸ hi) fun i => hpcb ▸ .rfl).of_started hst ?_
    rw [hact, hhead, hnone]
  | resumed _ _ hres =>
    exact h.congr (fun i hi => hres.pcbUsed ▸ hi) hres.same

theorem exists_mem_oneTerminal {i : Slot} :
    (∃ t : Term, i ∈ update (fun _ => []) (0 : Term) l t) ↔ i ∈ l := by
  constructor
  · rintro ⟨t, ht⟩
    rw [update_apply] at ht
    split_ifs at ht
    · exact ht
    · cases ht
  · exact fun h => ⟨0, by rwa [update_self]⟩

/-- After boot no process has a parent. -/
theorem callsSaved_init (h : (kernelLTS m).init k) (calls : Slot → Call) :
    CallsSaved k calls := by
  have hI := inv_init h
  intro i p hi hp
  have hi0 : i = 0 := List.mem_singleton.mp (exists_mem_oneTerminal.mp ((hI.used_iff i).mp hi))
  have hchain := hI.linked.chain 0
  rw [update_self] at hchain
  have hnone : Chain (fun i => (k.pcb i).parent) (k.pcb 0).parent [] := hchain.head_eq.2
  rw [← hi0, hp] at hnone
  cases hnone

/-- **Every run** whose programs start in the foreground keeps the return data. -/
theorem exists_inv_of_callLTS {calls : Slot → Call}
    (h : (callLTS m).Reach (fun q op => Foreground m q.1 op) (k, calls)) :
    (∃ r L, Inv k r L) ∧ CallsSaved k calls := by
  refine LTS.Reach.invariant (I := fun q : Kernel × (Slot → Call) =>
    (∃ r L, Inv q.1 r L) ∧ CallsSaved q.1 q.2) ?_ ?_ h
  · rintro q ⟨hinit, -⟩
    exact ⟨⟨_, _, inv_init hinit⟩, callsSaved_init hinit _⟩
  · rintro ⟨k, calls⟩ op ⟨k', calls'⟩ ⟨⟨r, L, hI⟩, hsaved⟩ hfg ⟨⟨hop, c, hrun⟩, hrec⟩
    obtain ⟨r', L', heff, hI'⟩ := hI.effect hfg hop hrun
    have hsaved' := hsaved.effect hI hrun heff
    rw [← show calls' = recordCall m k op k' calls from hrec] at hsaved'
    exact ⟨⟨r', L', hI'⟩, hsaved'⟩

/-- A `halt` of a program that was executed goes back to the frame of that `execute`. -/
theorem halt_returns {calls : Slot → Call}
    (h : (callLTS m).Reach (fun q op => Foreground m q.1 op) (k, calls)) {fr sub : Frame}
    {arg : Word} (hst : (kernelLTS m).step k (.halt fr sub arg) k')
    (hparent : (k.pcb fr.pcb).parent = some p) :
    (halt m (k.entered fr) fr sub arg).1
      = .jump (calls fr.pcb).esp (calls fr.pcb).ebp .retHere := by
  obtain ⟨⟨r, L, hI⟩, hsaved⟩ := exists_inv_of_callLTS h
  obtain rfl : fr.pcb = r := hI.frame_eq hst.1
  obtain ⟨hesp, hebp⟩ := hsaved fr.pcb p hI.used hparent
  rw [← hesp, ← hebp]
  simp only [halt, Kernel.entered_pcb, hparent]

/-! ## One terminal -/

/-- The tables when terminal 0 has the processes `r :: l` and no other terminal has any. -/
def tablesOf (r : Slot) (l : List Slot) : ProcTables where
  pcbUsed i := decide (i ∈ r :: l)
  progUsedPage i := decide (i ∈ r :: l)
  progPde := progPde r
  tssEsp0 := getKstackAddr r
  head := some r

/-- The tables are a function of the processes. -/
theorem Inv.procTables_eq (h : Inv k r (update (fun _ => []) 0 (r :: l))) :
    k.procTables = tablesOf r l := by
  have hused : k.pcbUsed = fun i => decide (i ∈ r :: l) := by
    funext i
    rw [Bool.eq_iff_iff, h.used_iff, exists_mem_oneTerminal, decide_eq_true_iff]
  have hchain := h.linked.chain 0
  rw [update_self] at hchain
  rw [Kernel.procTables, tablesOf, h.page, hused, h.progPde, h.tssEsp0, hchain.head_eq.1]

/-- Terminal 0 has the processes `r :: l`, it is the only one looked at, and each call on it
found the tables of the processes below. -/
structure OneTerminal (k : Kernel) (calls : Slot → Call) (r : Slot) (l : List Slot) : Prop where
  inv : Inv k r (update (fun _ => []) 0 (r :: l))
  active : k.currentActiveTerminal = 0
  tables : ∀ c p l', c :: p :: l' <:+ r :: l → (calls c).tables = tablesOf p l'

variable {calls : Slot → Call}

theorem OneTerminal.procTables_eq (h : OneTerminal k calls r l) : k.procTables = tablesOf r l :=
  h.inv.procTables_eq

theorem OneTerminal.terminalNumber (h : OneTerminal k calls r l) :
    (k.pcb r).terminalNumber = 0 :=
  h.inv.linked.owner 0 r (by rw [update_self]; exact List.mem_cons_self)

/-- The terminal that is looked at stays the same. -/
def Op.StaysOnTerminal0 : Op → Prop
  | .switch _ new => new = 0
  | _ => True

theorem OneTerminal.foreground (h : OneTerminal k calls r l) (hop : op.Enabled k) :
    Foreground m k op := by
  have hterm : op.terminal k = k.currentActiveTerminal := by
    rw [Op.terminal, h.inv.frame_eq hop, h.terminalNumber, h.active]
  match op with
  | .execute _ _ => exact fun _ => hterm
  | .halt _ _ _ => exact fun _ => hterm
  | .switch _ _ => exact trivial
  | .tick _ => exact trivial

/-- Pushing a program records the tables of the processes below it. -/
theorem OneTerminal.push {fr : Frame} (h : OneTerminal k calls r l)
    (hc : c ∉ r :: l) (hact : k'.currentActiveTerminal = 0)
    (hI : Inv k' c (update (fun _ => []) 0 (c :: r :: l))) :
    OneTerminal k' (update calls c ⟨k.procTables, fr.esp, fr.ebp⟩) c (r :: l) where
  inv := hI
  active := hact
  tables d p l' hsuffix := by
    rcases List.suffix_cons_iff.mp hsuffix with heq | hsuffix
    · obtain ⟨rfl, hpl⟩ := List.cons.inj heq
      obtain ⟨rfl, rfl⟩ := List.cons.inj hpl
      rw [update_self]
      exact h.procTables_eq
    · have hd : d ≠ c := fun he => hc (he ▸ hsuffix.subset List.mem_cons_self)
      rw [update_of_ne hd]
      exact h.tables d p l' hsuffix

/-- **One operation** keeps to one terminal, and its tables are those of its processes. -/
theorem OneTerminal.effect {ctl : Control} {r' : Slot} {L' : Term → List Slot}
    (h : OneTerminal k calls r l) (hstay : op.StaysOnTerminal0)
    (hrun : op.run m (k.entered op.frame) = some (ctl, k'))
    (heff : Effect m k r (update (fun _ => []) 0 (r :: l)) op ctl k' r' L') (hI : Inv k' r' L') :
    ∃ l', OneTerminal k' (recordCall m k op k' calls) r' l' := by
  have hact := h.active
  have hterm := h.terminalNumber
  cases heff with
  | failed hfr hnot =>
    rw [recordCall_of_ret hrun]
    exact ⟨l, hI, hact, h.tables⟩
  | @started fr command _ eip _ hfr _ _ hfree hst =>
    rw [recordCall_of_enter hrun hst.head]
    rw [hact, update_self, update_idem] at hI
    -- the slot of the new process was free
    refine ⟨r :: l, h.push ?_ (hst.active.trans hact) hI⟩
    intro hmem
    have hused := (h.inv.used_iff r').mpr (exists_mem_oneTerminal.mpr hmem)
    rw [firstFree_eq_some hfree] at hused
    cases hused
  | returned hfr hparent hl _ _ _ hact' =>
    rw [hterm, update_self] at hl
    obtain rfl := (List.cons.inj hl).2
    rw [hterm, update_idem] at hI
    exact ⟨_, hI, hact'.trans hact, fun c p l' hs => h.tables c p l' (hs.trans (List.suffix_cons _ _))⟩
  | restarted hfr _ hparent _ _ _ hst =>
    rw [hact, update_idem] at hI
    -- a single process has none below it
    refine ⟨[], hI, hst.active.trans hact, fun c p l' hs => ?_⟩
    have hlen := hs.length_le
    simp only [List.length_cons, List.length_nil] at hlen
    omega
  | looked _ _ _ _ hlook =>
    refine ⟨l, hI, ?_, h.tables⟩
    rcases hlook with hlook | hlook
    · exact hlook.trans hact
    · exact hlook.trans hstay
  | spawned _ _ hhead _ _ hnone _ _ =>
    -- terminal 0 always has a process
    have hhead0 := h.inv.head
    rw [hterm, ← show _ = (0 : Term) from hstay, hnone] at hhead0
    cases hhead0
  | @resumed fr t _ _ _ hfr hi hres =>
    -- the only head is the running process
    have hmem := h.inv.linked.mem_of_head hi
    have ht : t = 0 := by
      by_contra hne
      rw [update_of_ne hne] at hmem
      cases hmem
    rw [ht, ← hterm, h.inv.head] at hi
    obtain rfl := Option.some.inj hi
    exact ⟨l, hI, hres.active.trans hact, h.tables⟩

theorem oneTerminal_init (h : (kernelLTS m).init k) (calls : Slot → Call) :
    OneTerminal k calls 0 [] where
  inv := (init_spec h).1
  active := (init_spec h).2
  tables c p l' hs := by
    have hlen := hs.length_le
    simp only [List.length_cons, List.length_nil] at hlen
    omega

/-- **Every run** on one terminal keeps to it. -/
theorem exists_oneTerminal_of_reach
    (h : (callLTS m).Reach (fun _ op => op.StaysOnTerminal0) (k, calls)) :
    (∃ r l, OneTerminal k calls r l) ∧ CallsSaved k calls := by
  refine LTS.Reach.invariant (I := fun q : Kernel × (Slot → Call) =>
    (∃ r l, OneTerminal q.1 q.2 r l) ∧ CallsSaved q.1 q.2) ?_ ?_ h
  · rintro q ⟨hinit, -⟩
    exact ⟨⟨0, [], oneTerminal_init hinit _⟩, callsSaved_init hinit _⟩
  · rintro ⟨k, calls⟩ op ⟨k', calls'⟩ ⟨⟨r, l, hone⟩, hsaved⟩ hstay ⟨⟨hop, c, hrun⟩, hrec⟩
    obtain rfl : calls' = recordCall m k op k' calls := hrec
    obtain ⟨r', L', heff, hI⟩ := hone.inv.effect (hone.foreground hop) hop hrun
    obtain ⟨l', hone'⟩ := hone.effect hstay hrun heff hI
    exact ⟨⟨r', l', hone'⟩, hsaved.effect hone.inv hrun heff⟩

/-- When the only process is gone, slot 0 is the first free one. -/
theorem OneTerminal.firstFree_rootFreed (h : OneTerminal k calls r []) (fr : Frame) :
    firstFree (rootFreed (k.entered fr) r).pcbUsed = some 0 := by
  have hfree : (rootFreed (k.entered fr) r).pcbUsed = fun _ => false := by
    funext i
    simp only [rootFreed, Kernel.entered_pcbUsed, update_apply]
    split_ifs with hi
    · rfl
    · rw [Bool.eq_false_iff, ne_eq, h.inv.used_iff, exists_mem_oneTerminal, List.mem_singleton]
      exact hi
  rw [hfree]
  rfl

/-- **Execute and halt are brackets.** In every run on terminal 0, with ticks anywhere, an
`execute` that fails returns -1 and leaves the tables alone; a `halt` of a program that was
executed goes back to the frame of that `execute` and leaves the tables as that `execute` found
them; and a `halt` of the root shell leaves them as after boot. -/
theorem execute_halt_bracket
    (h : (callLTS m).Reach (fun _ op => op.StaysOnTerminal0) (k, calls)) :
    (∀ fr command k', (kernelLTS m).step k (.execute fr command) k' →
      ∀ v, (execute m (k.entered fr) fr command).1 = .ret v →
        v = error ∧ k'.procTables = k.procTables) ∧
    ∀ fr sub arg k', (kernelLTS m).step k (.halt fr sub arg) k' →
      (∀ p, (k.pcb fr.pcb).parent = some p →
        (halt m (k.entered fr) fr sub arg).1
            = .jump (calls fr.pcb).esp (calls fr.pcb).ebp .retHere ∧
          k'.procTables = (calls fr.pcb).tables) ∧
      ((k.pcb fr.pcb).parent = none →
        ∀ k₀, (kernelLTS m).init k₀ → k'.procTables = k₀.procTables) := by
  obtain ⟨⟨r, l, hone⟩, hsaved⟩ := exists_oneTerminal_of_reach h
  have hact := hone.active
  have hterm := hone.terminalNumber
  refine ⟨fun fr command k' ⟨hop, c, hrun⟩ v hv => ?_,
    fun fr sub arg k' ⟨hop, c, hrun⟩ => ⟨fun p hp => ?_, fun hp k₀ hk₀ => ?_⟩⟩
  all_goals obtain ⟨r', L', heff, hI⟩ := hone.inv.effect (hone.foreground hop) hop hrun
  · have hc : c = .ret v := (congrArg Prod.fst (Option.some.inj hrun)).symm.trans hv
    cases heff with
    | failed _ _ => exact ⟨(Control.ret.inj hc).symm, rfl⟩
    | started _ _ _ _ _ => cases hc
  · cases heff with
    | returned hfr hparent hl _ _ _ _ =>
      subst hfr
      obtain rfl := Option.some.inj (hp.symm.trans hparent)
      obtain ⟨hesp, hebp⟩ := hsaved fr.pcb p hone.inv.used hp
      rw [hterm, update_self] at hl
      obtain rfl := (List.cons.inj hl).2
      rw [hterm, update_idem] at hI
      -- the tables recorded for the program are those of the processes below it
      rw [← hesp, ← hebp, hI.procTables_eq, hone.tables _ _ _ List.suffix_rfl]
      exact ⟨congrArg Prod.fst (Option.some.inj hrun), rfl⟩
    | restarted hfr _ hparent _ _ _ _ =>
      rw [hfr, hparent] at hp
      cases hp
  · cases heff with
    | returned hfr hparent _ _ _ _ _ =>
      rw [hfr, hparent] at hp
      cases hp
    | restarted hfr _ _ _ halone hfree _ =>
      subst hfr
      -- the new shell is in slot 0 again, as after boot
      rw [hact, update_self] at halone
      obtain rfl := (List.cons.inj halone).2
      obtain rfl := Option.some.inj ((hone.firstFree_rootFreed fr).symm.trans hfree)
      rw [hact, update_idem] at hI
      rw [hI.procTables_eq, (inv_init hk₀).procTables_eq]

/-- The shell after boot has executed a program. -/
def sampleChild : Kernel :=
  (execute sampleMachine (sampleBoot.entered (Frame.top 0)) (Frame.top 0) (some shell)).2

/-- The program has halted. -/
def sampleReturned (arg : Word) : Kernel :=
  (halt sampleMachine (sampleChild.entered (Frame.top 1)) (Frame.top 1) (Frame.top 1) arg).2

theorem sampleChild_step : (kernelLTS sampleMachine).step sampleBoot
    (.execute (Frame.top 0) (some shell)) sampleChild :=
  ⟨⟨.inl (by decide), trivial⟩, _, rfl⟩

theorem sampleReturned_step (arg : Word) : (kernelLTS sampleMachine).step sampleChild
    (.halt (Frame.top 1) (Frame.top 1) arg) (sampleReturned arg) :=
  ⟨⟨.inl (show getPcb sampleChild.esp = some 1 by decide), rfl⟩, _, rfl⟩

/-- What is recorded for the program. -/
def sampleCalls : Slot → Call :=
  recordCall sampleMachine sampleBoot (.execute (Frame.top 0) (some shell)) sampleChild
    fun _ => ⟨sampleBoot.procTables, 0, 0⟩

theorem sampleCalls_apply : sampleCalls 1
    = ⟨sampleBoot.procTables, getKstackAddr 0, getKstackAddr 0⟩ := by
  have hctl : (execute sampleMachine (sampleBoot.entered (Frame.top 0)) (Frame.top 0)
      (some shell)).1 = .enter execAddr := by decide
  have hhead : sampleChild.termCurrPcb sampleBoot.currentActiveTerminal = some 1 := by
    decide
  simp only [sampleCalls, recordCall, hctl, hhead, update_self]
  rfl

/-- The tables after the program are those the shell executed it with. -/
theorem execute_halt_bracket_sample : (sampleReturned 5).procTables = sampleBoot.procTables := by
  have hreach : (callLTS sampleMachine).Reach (fun _ op => op.StaysOnTerminal0)
      (sampleChild, sampleCalls) :=
    .step (s := (sampleBoot, fun _ => ⟨sampleBoot.procTables, 0, 0⟩))
      (a := .execute (Frame.top 0) (some shell)) (.init ⟨sampleBoot_init, rfl⟩) trivial
      ⟨sampleChild_step, rfl⟩
  obtain ⟨-, hhalt⟩ := execute_halt_bracket hreach
  have hparent : (sampleChild.pcb 1).parent = some 0 := by decide
  obtain ⟨-, htables⟩ := (hhalt _ _ _ _ (sampleReturned_step 5)).1 0 hparent
  exact htables.trans (congrArg Call.tables sampleCalls_apply)

end HieUnix
