import HieUnix.HaltInvariant
import HieUnix.Bracket

/-!
# Ticks inside `halt`

Which runs lose a process. The timer finds the running process among the heads of the terminals,
and `halt` takes its process out of them several writes before it frees its slot. A tick in
between suspends a process that no head leads to, and its slot and page stay in use for ever
(`not_noneLost_sampleLost`); an undisturbed run loses nothing, and its calls of `halt` end
(`noneLost_of_undisturbed`).
-/

namespace HieUnix

open Function LinkedStacks HaltState

variable {m : Machine} {k : Kernel} {fr : Frame} {r i : Slot} {L : Term → List Slot}
  {halts : Slot → Option HaltCall} {h : HaltCall} {s s' : HaltState}

/-! ## What holds in every state -/

/-- The process `i` is on the parent chain of the head of a terminal. -/
def OnChain (k : Kernel) (i : Slot) : Prop :=
  ∃ t, Reaches (fun i => (k.pcb i).parent) (k.termCurrPcb t) i

/-- A process is running, and each of the others is on the parent chain of a head or has been
freed. The page of a process is that of its slot. -/
def NoneLost (k : Kernel) : Prop :=
  (∃ r, getPcb k.esp = some r ∧ ∀ i, i ≠ r → OnChain k i ∨ Freed k i) ∧
    ∀ i, k.pcbUsed i = true → (k.pcb i).ptIdx = i

theorem exists_haltInv_of_reach (h : (haltLTS m).Reach (Undisturbed m) s) :
    ∃ r L, HaltInv s r L := by
  refine h.invariant (I := fun s => ∃ r L, HaltInv s r L) (fun s hinit => ?_) ?_
  · obtain ⟨hk, hhalts⟩ := hinit
    refine ⟨0, _, .running (inv_init hk).toRunning fun i h _ hi => ?_⟩
    rw [hhalts] at hi
    cases hi
  · rintro s a s' ⟨r, L, hI⟩ hok hst
    exact hI.step hok hst

theorem Tables.onChain_or_freed (h : Tables k L) (i : Slot) : OnChain k i ∨ Freed k i := by
  by_cases hi : k.pcbUsed i = true
  · obtain ⟨t, ht⟩ := (h.used_iff i).mp hi
    exact .inl ⟨t, h.linked.reaches_iff.mpr ht⟩
  · have hfree : k.pcbUsed i = false := Bool.eq_false_of_not_eq_true hi
    refine .inr ⟨hfree, ?_⟩
    rw [h.page, hfree]

theorem HaltInv.noneLost (h : HaltInv s r L) : NoneLost s.kernel := by
  cases h with
  | running hrun _ =>
    exact ⟨⟨r, hrun.current, fun i _ => hrun.toTables.onChain_or_freed i⟩,
      fun i hi => (hrun.self i hi).1⟩
  | leaving h hl =>
    refine ⟨⟨r, hl.current, fun i hne => ?_⟩, fun i hi => ?_⟩
    · refine (hl.tables.onChain_or_freed i).imp_right fun hfree => ?_
      simpa [Freed, Kernel.released, hne] using hfree
    · rcases eq_or_ne i r with rfl | hne
      · exact hl.ptIdx
      · refine (hl.tables.self i ?_).1
        simpa [Kernel.released, hne] using hi

/-! ## A tick that loses a process -/

/-- A tick that finds a program to switch to, while the running process is no head and not free,
loses that process. -/
theorem HaltInv.not_noneLost_of_tick (hI : HaltInv s r L) (hwin : Unlinked s) {t : Term}
    (ht : s.kernel.termCurrPcb t ≠ none) (hfr : s.Interrupts fr) {result : Control × Kernel}
    (htick : doHandlePit m (s.kernel.entered fr) fr = some result) : ¬ NoneLost result.2 := by
  obtain rfl := hI.pcb_eq_of_interrupts hfr
  cases hI with
  | running hrun hpark => exact absurd hwin (not_unlinked_of_running hrun hpark)
  | leaving h hl =>
    obtain ⟨u, i, hi, heq⟩ := doHandlePit_eq_some (k := s.kernel.entered fr) ht m fr
    obtain rfl := Option.some.inj (heq.symm.trans htick)
    -- the process it resumes is another one
    have hiu := hl.tables.used_of_head (t := u) hi
    have hne : i ≠ fr.pcb := by
      rintro rfl
      simp [Kernel.released] at hiu
    have hused : s.kernel.pcbUsed i = true := by
      simpa [Kernel.released, hne] using hiu
    have hres := resumed_switchTo (k := s.kernel.entered fr) (hl.tables.self i hiu).1 m fr u
    have hesp : getPcb (switchTo m (s.kernel.entered fr) fr u i).2.esp = some i := by
      rw [hres.esp, hres.pcb, update_of_ne hne]
      exact hl.saved i hused hne
    obtain ⟨r', h', hr', hhalt, -, hfree⟩ := hwin
    obtain rfl : fr.pcb = r' := Option.some.inj (hl.current.symm.trans hr')
    obtain rfl : h = h' := Option.some.inj (hl.halting.symm.trans hhalt)
    rintro ⟨⟨r', hr', hall⟩, -⟩
    obtain rfl : i = r' := Option.some.inj (hesp.symm.trans hr')
    rcases hall fr.pcb hne.symm with ⟨v, hv⟩ | hfreed
    · -- no head leads to it
      have hlinked := hl.tables.linked.congr fun _ j _ =>
        ⟨(hres.same j).parent, (hres.same j).terminalNumber⟩
      rw [hres.termCurrPcb] at hv
      have hin := (hl.tables.used_iff fr.pcb).mpr ⟨v, hlinked.reaches_iff.mp hv⟩
      simp [Kernel.released] at hin
    · rw [Freed, hres.pcbUsed] at hfreed
      exact Bool.false_ne_true (hfreed.1.symm.trans (hl.used hfree))

/-! ## Every call of `halt` ends -/

/-- The number of steps that the call of process `i` has still to take. -/
def HaltState.left (s : HaltState) (i : Slot) : ℕ := ((s.halts i).map fun h => h.todo.length).getD 0

/-- Process `i` takes a step of its call of `halt`. -/
def TakesStep (i : Slot) (s : HaltState) (a : HaltAct) : Prop :=
  a = .next ∧ getPcb s.kernel.esp = some i

/-- A process in `halt` that is always running or the head of a terminal is given the CPU again
and again. -/
def Fair {m : Machine} (E : (haltLTS m).Exec (Undisturbed m)) : Prop :=
  ∀ i n, (∀ n', n ≤ n' → (E.state n').halts i ≠ none ∧
      (getPcb (E.state n').kernel.esp = some i ∨ ∃ t, (E.state n').kernel.termCurrPcb t = some i)) →
    ∃ n', n ≤ n' ∧ TakesStep i (E.state n') (E.label n')

namespace HaltInv

theorem freed_of_unused (hI : HaltInv s r L) (hi : s.kernel.pcbUsed i = false) :
    Freed s.kernel i := by
  cases hI with
  | running hrun hpark => exact ⟨hi, by rw [hrun.page, hi]⟩
  | leaving h hl =>
    rcases eq_or_ne i r with rfl | hne
    · refine hl.freed fun hfree => ?_
      rw [hl.used hfree] at hi
      cases hi
    · have hpage := congrFun hl.tables.page i
      simp only [Kernel.released, update_of_ne hne] at hpage
      exact ⟨hi, by rw [hpage, hi]⟩

/-- A process in `halt` that has not been freed is running or the head of a terminal. -/
theorem scheduled (hI : HaltInv s r L) (hhalt : s.halts i ≠ none) (hnot : ¬ Freed s.kernel i) :
    getPcb s.kernel.esp = some i ∨ ∃ t, s.kernel.termCurrPcb t = some i := by
  obtain ⟨h, hi⟩ := Option.ne_none_iff_exists'.mp hhalt
  have hused : s.kernel.pcbUsed i = true :=
    Bool.eq_true_of_not_eq_false fun hfree => hnot (hI.freed_of_unused hfree)
  cases hI with
  | running hrun hpark => exact .inr ⟨_, (hpark i h hused hi).head⟩
  | leaving h' hl =>
    rcases eq_or_ne i r with rfl | hne
    · exact .inl hl.current
    · refine .inr ⟨_, (hl.parked i h ?_ hi).head⟩
      simpa [Kernel.released, hne] using hused

/-- An operation ends no call of `halt` of a process that has not been freed. -/
theorem halts_execute (hI : HaltInv s r L) (hcall : s.Calls fr) {command : Option (List Byte)}
    (hnot : ¬ Freed s.kernel i) :
    (after s.halts (HieUnix.execute m (s.kernel.entered fr) fr command)).halts i = s.halts i := by
  obtain ⟨-, -, hrun, -⟩ := hI.of_calls hcall
  rcases execute_cases (m := m) (k := s.kernel.entered fr) hrun.page fr command with
    ⟨-, heq⟩ | ⟨-, c, eip, k', hc, heq, hst⟩
  · rw [heq]
    rfl
  · rw [heq, after_enter (hst.esp ▸ getPcb_getKstackAddr c)]
    refine update_of_ne ?_ _ _
    rintro rfl
    exact hnot (hI.freed_of_unused (firstFree_eq_some hc))

theorem halts_switch {new : Term} (hI : HaltInv s r L)
    (hok : Unlinked s → ¬ StartsShell s.kernel new) (m : Machine) (hnot : ¬ Freed s.kernel i) :
    (after s.halts (changeVideoMem m (s.kernel.entered fr) fr
      (s.kernel.entered fr).currentActiveTerminal new)).halts i = s.halts i := by
  by_cases hshell : StartsShell (s.kernel.entered fr) new
  · obtain ⟨ht, -, -⟩ := hI.tables fun hwin => hok hwin hshell
    obtain ⟨k₁, c, eip, k', hsame, -, hc, hst, heq⟩ :=
      changeVideoMem_of_startsShell m fr hshell ht.page
    rw [heq, after_enter (hst.esp ▸ getPcb_getKstackAddr c)]
    refine update_of_ne ?_ _ _
    rintro rfl
    rw [hsame.pcbUsed] at hc
    exact hnot (hI.freed_of_unused (firstFree_eq_some hc))
  · obtain ⟨k₁, -, -, heq⟩ := changeVideoMem_of_not_startsShell m fr hshell
    rw [heq]
    rfl

theorem halts_tick {result : Control × Kernel} (htick : doHandlePit m k fr = some result) :
    (after halts result).halts = halts := by
  by_cases hall : ∀ t, k.termCurrPcb t = none
  · have hret : doHandlePit m k fr = some (.ret 0, k) := if_pos hall
    obtain rfl := Option.some.inj (hret.symm.trans htick)
    rfl
  · obtain ⟨t, ht⟩ := not_forall.mp hall
    obtain ⟨u, i, -, heq⟩ := doHandlePit_eq_some ht m fr
    obtain rfl := Option.some.inj (heq.symm.trans htick)
    rfl

/-- A step of `halt` is one step less for its process, and nothing for the others. -/
theorem halts_next (hI : HaltInv s r L) (hhalt : s.halts r = some h) (m : Machine)
    (hi : s.halts i ≠ none) (hnot : ¬ Freed s.kernel i) :
    (s.next m r h).halts i ≠ none ∧ (s.next m r h).left i ≤ s.left i ∧
      (i = r → (s.next m r h).left i < s.left i) := by
  match htodo : h.todo with
  | step :: todo =>
    have hnext : (s.next m r h).halts = update s.halts r (some { h with todo := todo }) := by
      rw [HaltState.next, htodo]
    rcases eq_or_ne i r with rfl | hne
    · rw [HaltState.left, HaltState.left, hnext, update_self, hhalt]
      simp [htodo]
    · rw [HaltState.left, HaltState.left, hnext, update_of_ne hne]
      exact ⟨hi, Nat.le_refl _, fun he => absurd he hne⟩
  | [] =>
    cases hI with
    | running hrun hpark =>
      -- a call that has not begun has steps to take
      have hlist := (hpark r h hrun.used hhalt).todo
      rw [htodo, haltSteps_eq_cons] at hlist
      cases hlist
    | leaving h' hl =>
      obtain rfl : h' = h := Option.some.inj (hl.halting.symm.trans hhalt)
      have hfree : Freed s.kernel r := hl.freed (by rw [htodo]; exact List.not_mem_nil)
      have hne : i ≠ r := fun he => hnot (he ▸ hfree)
      have hsame : (s.next m r h').halts i = s.halts i := by
        rw [HaltState.next, htodo]
        cases hparent : h'.parent with
        | some p =>
          simp only [haltLeave]
          exact update_of_ne hne _ _
        | none =>
          obtain ⟨c, eip, k', hc, hst, hnext⟩ := hl.next_of_root htodo hparent m
          rw [HaltState.next, htodo, hparent] at hnext
          dsimp only at hnext ⊢
          rw [hnext, after_enter (hst.esp ▸ getPcb_getKstackAddr c)]
          have hic : i ≠ c := by
            rintro rfl
            exact hnot ((leaving h' hl).freed_of_unused (firstFree_eq_some hc))
          exact (update_of_ne hic _ _).trans (update_of_ne hne _ _)
      rw [HaltState.left, HaltState.left, hsame]
      exact ⟨hi, Nat.le_refl _, fun he => absurd he hne⟩

/-- **One step** ends no call of `halt` of a process that has not been freed, and brings it one
step nearer to its end when that process takes it. -/
theorem halts_step {a : HaltAct} (hI : HaltInv s r L) (hok : Undisturbed m s a)
    (hst : (haltLTS m).step s a s') (hi : s.halts i ≠ none) (hnot : ¬ Freed s.kernel i) :
    s'.halts i ≠ none ∧ s'.left i ≤ s.left i ∧ (TakesStep i s a → s'.left i < s.left i) := by
  -- what does not take a step of the call leaves it as it is
  have hkeep : s'.halts i = s.halts i → a ≠ .next →
      s'.halts i ≠ none ∧ s'.left i ≤ s.left i ∧ (TakesStep i s a → s'.left i < s.left i) := by
    intro hsame hne
    rw [HaltState.left, HaltState.left, hsame]
    exact ⟨hi, Nat.le_refl _, fun htake => absurd htake.1 hne⟩
  match a with
  | .execute fr command =>
    obtain ⟨hcall, rfl⟩ := hst
    exact hkeep (hI.halts_execute hcall hnot) nofun
  | .halt fr sub arg intr =>
    obtain ⟨hcall, hsub, rfl⟩ := hst
    obtain ⟨rfl, hcur, -, -⟩ := hI.of_calls hcall
    have hne : i ≠ fr.pcb := fun he => hi (he ▸ hcur)
    exact hkeep (update_of_ne hne _ _) nofun
  | .next =>
    obtain ⟨r', h, hr', hhalt, rfl⟩ := hst
    obtain rfl : r = r' := Option.some.inj (hI.current.symm.trans hr')
    obtain ⟨hsome, hle, hlt⟩ := hI.halts_next hhalt m hi hnot
    refine ⟨hsome, hle, fun htake => hlt ?_⟩
    exact Option.some.inj (htake.2.symm.trans hI.current)
  | .switch fr new =>
    obtain ⟨-, rfl⟩ := hst
    exact hkeep (hI.halts_switch hok m hnot) nofun
  | .tick fr =>
    obtain ⟨-, result, htick, rfl⟩ := hst
    exact hkeep (congrFun (halts_tick htick) i) nofun

end HaltInv

/-- **No slot is lost** in a run whose steps leave a process alone while it is no head and not yet
free: each process that is not running is on the parent chain of a head or has been freed, a
further tick loses a process exactly when it does not keep to that condition, and each call of
`halt` frees its process when the heads are given the CPU. -/
theorem noneLost_of_undisturbed (m : Machine) :
    (∀ s, (haltLTS m).Reach (Undisturbed m) s → NoneLost s.kernel ∧
      ∀ fr s', (haltLTS m).step s (.tick fr) s' →
        (NoneLost s'.kernel ↔ Undisturbed m s (.tick fr))) ∧
    ∀ E : (haltLTS m).Exec (Undisturbed m), Fair E → ∀ n i, (E.state n).halts i ≠ none →
      ∃ n', n ≤ n' ∧ Freed (E.state n').kernel i := by
  refine ⟨fun s hreach => ?_, fun E hfair n i hi => ?_⟩
  · obtain ⟨r, L, hI⟩ := exists_haltInv_of_reach hreach
    refine ⟨hI.noneLost, fun fr s' hst => ⟨fun hnone hwin t => ?_, fun hok => ?_⟩⟩
    · obtain ⟨hfr, result, htick, rfl⟩ := hst
      -- a tick inside the window leaves the process being unlinked behind
      by_contra ht
      have hkernel : (after s.halts result).kernel = result.2 := by
        unfold after
        split <;> rfl
      rw [hkernel] at hnone
      exact hI.not_noneLost_of_tick hwin ht hfr htick hnone
    · obtain ⟨r', L', hI'⟩ := hI.step hok hst
      exact hI'.noneLost
  · refine E.eventually (P := fun s => s.halts i ≠ none) (Q := fun s => Freed s.kernel i)
      (v := fun s => s.left i) (TakesStep i) ?_ (fun n₁ hall => ?_) hi
    · intro s a s' hreach hok hst hhalt hnot
      obtain ⟨r, L, hI⟩ := exists_haltInv_of_reach hreach
      exact hI.halts_step hok hst hhalt hnot
    · refine hfair i n₁ fun n' hn' => ⟨(hall n' hn').1, ?_⟩
      obtain ⟨r, L, hI⟩ := exists_haltInv_of_reach (E.reach n')
      exact hI.scheduled (hall n' hn').1 (hall n' hn').2

/-! ## A run that loses a process -/

/-- The call of `halt` of the program that the first shell has executed. -/
def sampleHaltCall : HaltCall := .start (some 0) (Frame.top 1) 0 true

/-- The program has called `halt`. -/
def sampleHalting : HaltState :=
  ⟨sampleChild.entered (Frame.top 1), update (fun _ => none) 1 (some sampleHaltCall)⟩

/-- It has made the shell the head of the terminal. -/
def sampleRemoved : HaltState := sampleHalting.next sampleMachine 1 sampleHaltCall

/-- A tick has resumed the shell. -/
def sampleLost : HaltState :=
  after sampleRemoved.halts
    (switchTo sampleMachine (sampleRemoved.kernel.entered (Frame.top 1)) (Frame.top 1) 0 0)

theorem sampleExecuted_step : (haltLTS sampleMachine).step ⟨sampleBoot, fun _ => none⟩
    (.execute (Frame.top 0) (some shell)) ⟨sampleChild, fun _ => none⟩ := by
  have hesp : getPcb sampleBoot.esp = some 0 := by decide
  have hesp' : getPcb sampleChild.esp = some 1 := by decide
  have hctl : (execute sampleMachine (sampleBoot.entered (Frame.top 0)) (Frame.top 0)
      (some shell)).1 = .enter execAddr := by decide
  refine ⟨⟨?_, .inl hesp⟩, ?_⟩
  · simp only [HaltState.current, hesp, Option.bind_some]
  · have hexec : execute sampleMachine (sampleBoot.entered (Frame.top 0)) (Frame.top 0)
        (some shell) = (.enter execAddr, sampleChild) := Prod.ext hctl rfl
    rw [hexec, after_enter hesp', update_eq_self_iff.mpr rfl]

theorem sampleHalting_step : (haltLTS sampleMachine).step ⟨sampleChild, fun _ => none⟩
    (.halt (Frame.top 1) (Frame.top 1) 0 true) sampleHalting := by
  have hesp : getPcb sampleChild.esp = some 1 := by decide
  have hparent : (sampleChild.pcb 1).parent = some 0 := by decide
  refine ⟨⟨?_, .inl hesp⟩, rfl, ?_⟩
  · simp only [HaltState.current, hesp, Option.bind_some]
  · rw [show (sampleChild.pcb (Frame.top 1).pcb).parent = some 0 from hparent]
    rfl

theorem sampleHalting_halts : sampleHalting.halts 1 = some sampleHaltCall := by
  unfold sampleHalting
  dsimp only
  rw [update_self]

theorem sampleRemoved_step : (haltLTS sampleMachine).step sampleHalting .next sampleRemoved :=
  ⟨1, _, (Frame.top 1).getPcb_esp, sampleHalting_halts, rfl⟩

theorem sampleLost_step : (haltLTS sampleMachine).step sampleRemoved (.tick (Frame.top 1))
    sampleLost := by
  have hesp : getPcb sampleRemoved.kernel.esp = some 1 := (Frame.top 1).getPcb_esp
  have hhead : sampleRemoved.kernel.termCurrPcb 0 = some 0 := by decide
  have hnext : nextTerminal sampleRemoved.kernel.termCurrPcb 1 = some 0 := by decide
  refine ⟨?_, _, doHandlePit_of_next sampleMachine (sampleRemoved.kernel.entered (Frame.top 1))
    (Frame.top 1) hnext hhead, rfl⟩
  rw [HaltState.Interrupts, HaltState.current, hesp]
  exact ⟨rfl, hesp⟩

/-- The program then is in use, and no head leads to it. -/
theorem not_noneLost_sampleLost :
    ∃ s, (haltLTS sampleMachine).Reach LTS.always s ∧ ¬ NoneLost s.kernel := by
  refine ⟨sampleLost, .step (.step (.step (.step (.init ⟨sampleBoot_init, rfl⟩) trivial
    sampleExecuted_step) trivial sampleHalting_step) trivial sampleRemoved_step) trivial
    sampleLost_step, ?_⟩
  have hesp : getPcb sampleLost.kernel.esp = some 0 := by decide
  have hused : sampleLost.kernel.pcbUsed 1 = true := by decide
  have hchain : ∀ t, Chain (fun i => (sampleLost.kernel.pcb i).parent)
      (sampleLost.kernel.termCurrPcb t) (if t = 0 then [0] else []) := by
    have hhead : ∀ t, sampleLost.kernel.termCurrPcb t = if t = 0 then some 0 else none := by
      decide
    have hparent : (sampleLost.kernel.pcb 0).parent = none := by decide
    intro t
    rw [hhead]
    split_ifs
    · exact .cons (hparent ▸ .nil)
    · exact .nil
  rintro ⟨⟨r, hr, hall⟩, -⟩
  obtain rfl : 0 = r := Option.some.inj (hesp.symm.trans hr)
  rcases hall 1 (by decide) with ⟨t, ht⟩ | hfreed
  · have hmem := (hchain t).mem_iff_reaches.mpr ht
    split_ifs at hmem <;> simp at hmem
  · rw [Freed, hused] at hfreed
    cases hfreed.1

/-! ## A run that loses none -/

/-- The steps of a call of `halt` to a parent are undisturbed. -/
theorem reach_haltSteps (m : Machine) {r : Slot} {h : HaltCall} (hparent : h.parent ≠ none)
    (todo : List HaltStep) (k : Kernel) (halts : Slot → Option HaltCall)
    (hr : getPcb k.esp = some r)
    (hreach : (haltLTS m).Reach (Undisturbed m)
      ⟨k, update halts r (some { h with todo := todo })⟩) :
    (haltLTS m).Reach (Undisturbed m)
      ⟨todo.foldl (HaltStep.run r h.status) k, update halts r (some { h with todo := [] })⟩ := by
  induction todo generalizing k with
  | nil => exact hreach
  | cons step todo ih =>
    have hst : (haltLTS m).step ⟨k, update halts r (some { h with todo := step :: todo })⟩ .next
        ⟨step.run r h.status k, update halts r (some { h with todo := todo })⟩ :=
      ⟨r, { h with todo := step :: todo }, hr, update_self _ _ _, by
        simp only [HaltState.next, update_idem]⟩
    refine ih _ (by rw [HaltStep.run_esp, hr]) (.step hreach ?_ hst)
    rintro r' h' hr' hh' - hnone
    obtain rfl : r = r' := Option.some.inj (hr.symm.trans hr')
    dsimp only at hh'
    rw [update_self] at hh'
    obtain rfl := Option.some.inj hh'
    exact absurd hnone hparent

/-- In `halt` it is interrupted by a key, which starts a shell on terminal 1. -/
def sampleInterrupted : Kernel :=
  (changeVideoMem sampleMachine (sampleHalting.kernel.entered (Frame.top 1)) (Frame.top 1) 0 1).2

/-- A tick gives it the CPU back. -/
def sampleBackInHalt : Kernel :=
  (switchTo sampleMachine (sampleInterrupted.entered (Frame.top 2)) (Frame.top 2) 0 1).2

theorem sampleInterrupted_step : (haltLTS sampleMachine).step sampleHalting
    (.switch (Frame.top 1) 1) ⟨sampleInterrupted, sampleHalting.halts⟩ := by
  have hesp : getPcb sampleHalting.kernel.esp = some 1 := (Frame.top 1).getPcb_esp
  have hesp' : getPcb sampleInterrupted.esp = some 2 := by decide
  have hctl : (changeVideoMem sampleMachine (sampleHalting.kernel.entered (Frame.top 1))
      (Frame.top 1) 0 1).1 = .enter execAddr := by decide
  refine ⟨?_, ?_⟩
  · rw [HaltState.Interrupts, HaltState.current, hesp, Option.bind_some, sampleHalting_halts]
    exact ⟨rfl, hesp⟩
  · have hres : changeVideoMem sampleMachine (sampleHalting.kernel.entered (Frame.top 1))
        (Frame.top 1) sampleHalting.kernel.currentActiveTerminal 1
        = (.enter execAddr, sampleInterrupted) := Prod.ext hctl rfl
    have hhalts : update sampleHalting.halts 2 none = sampleHalting.halts :=
      update_eq_self_iff.mpr rfl
    rw [hres, after_enter hesp', hhalts]

theorem sampleBackInHalt_step : (haltLTS sampleMachine).step
    ⟨sampleInterrupted, sampleHalting.halts⟩ (.tick (Frame.top 2))
    ⟨sampleBackInHalt, sampleHalting.halts⟩ := by
  have hesp : getPcb sampleInterrupted.esp = some 2 := by decide
  have hhead : sampleInterrupted.termCurrPcb 0 = some 1 := by decide
  have hnext : nextTerminal sampleInterrupted.termCurrPcb 2 = some 0 := by decide
  refine ⟨?_, _, doHandlePit_of_next sampleMachine (sampleInterrupted.entered (Frame.top 2))
    (Frame.top 2) hnext hhead, rfl⟩
  have hnone : sampleHalting.halts 2 = none := rfl
  rw [HaltState.Interrupts, HaltState.current, hesp, Option.bind_some, hnone]
  exact .inl hesp

/-- The program has been freed. -/
def sampleFreed : Kernel :=
  (haltSteps (some 0)).foldl (HaltStep.run 1 sampleHaltCall.status) sampleBackInHalt

/-- A call of `halt` that is suspended before its first write and gets the CPU back at a tick. -/
theorem noneLost_of_undisturbed_sample : Freed sampleFreed 1 ∧ sampleFreed.termCurrPcb 0 = some 0 ∧
    NoneLost sampleFreed := by
  have hexecute : Undisturbed sampleMachine ⟨sampleBoot, fun _ => none⟩
      (.execute (Frame.top 0) (some shell)) := by
    intro _ i hi
    have hhead : sampleBoot.termCurrPcb sampleBoot.currentActiveTerminal = some 0 := by
      decide
    exact Option.some.inj (hi.symm.trans hhead)
  have hswitch : Undisturbed sampleMachine sampleHalting (.switch (Frame.top 1) 1) := by
    rintro ⟨r, h, hr, hhalt, htodo, -⟩
    have hesp : getPcb sampleHalting.kernel.esp = some 1 := (Frame.top 1).getPcb_esp
    obtain rfl : 1 = r := Option.some.inj (hesp.symm.trans hr)
    obtain rfl := Option.some.inj (sampleHalting_halts.symm.trans hhalt)
    exact absurd (by decide) htodo
  have htick : Undisturbed sampleMachine ⟨sampleInterrupted, sampleHalting.halts⟩
      (.tick (Frame.top 2)) := by
    rintro ⟨r, h, hr, hhalt, -⟩
    have hesp : getPcb sampleInterrupted.esp = some 2 := by decide
    obtain rfl : 2 = r := Option.some.inj (hesp.symm.trans hr)
    cases hhalt
  have hback : (haltLTS sampleMachine).Reach (Undisturbed sampleMachine)
      ⟨sampleBackInHalt, sampleHalting.halts⟩ :=
    .step (.step (.step (.step (.init ⟨sampleBoot_init, rfl⟩) hexecute sampleExecuted_step)
      (a := .halt (Frame.top 1) (Frame.top 1) 0 true) trivial sampleHalting_step) hswitch
      sampleInterrupted_step) htick sampleBackInHalt_step
  have hfreed := reach_haltSteps sampleMachine (h := sampleHaltCall) (by decide)
    (haltSteps (some 0)) sampleBackInHalt (fun _ => none) (by decide) hback
  exact ⟨⟨by decide, by decide⟩, by decide,
    ((noneLost_of_undisturbed sampleMachine).1 _ hfreed).1⟩

end HieUnix
