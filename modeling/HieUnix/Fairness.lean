import HieUnix.Dispatch

/-!
# Round robin

The timer shares the CPU among the terminals. `do_handle_pit` goes on from the terminal of the
running process to the next one that has a program, so that each tick brings the turn of a waiting
terminal closer (`nextTerminal_closer`), and nothing but a shell on a terminal that had none takes
it back. In runs whose programs start in the foreground no terminal loses its last program, and each
waits for a bounded number of ticks only (`turn_comes`).
-/

namespace HieUnix

open Function

variable {m : Machine} {k k' : Kernel} {fr : Frame} {r i temp : Slot} {L : Term → List Slot}
  {t u q : Term} {op : Op}

/-! ## Turns -/

/-- How many terminals further the terminal `t` is, going on from `q`. -/
def turnsFrom (q t : Term) : ℕ := (t.val + numTerminals - q.val) % numTerminals

/-- The terminals without a program. -/
def emptyTerminals (termCurrPcb : Term → Option Slot) : Finset Term :=
  Finset.univ.filter fun t => termCurrPcb t = none

/-- The terminal of the running process. -/
def Kernel.terminal (k : Kernel) : Term :=
  match getPcb k.esp with
  | some r => (k.pcb r).terminalNumber
  | none => 0

/-- The process running is of the terminal `t`. -/
def Kernel.RunsOn (k : Kernel) (t : Term) : Prop :=
  ∃ r, getPcb k.esp = some r ∧ (k.pcb r).terminalNumber = t

/-- What the terminal `t` may have to wait for: its turn, and one round for each shell that can
still be started. -/
def Kernel.wait (k : Kernel) (t : Term) : ℕ :=
  3 * (emptyTerminals k.termCurrPcb).card + turnsFrom k.terminal t

/-- The operation is a tick. -/
def Op.isTick : Op → Bool
  | .tick _ => true
  | _ => false

theorem turnsFrom_lt (q t : Term) : turnsFrom q t < 3 := mod_numTerminals_lt _

theorem Inv.terminal_eq (h : Inv k r L) : k.terminal = (k.pcb r).terminalNumber := by
  rw [Kernel.terminal, h.current]

theorem Inv.runsOn_iff (h : Inv k r L) : k.RunsOn t ↔ k.terminal = t := by
  rw [h.terminal_eq]
  constructor
  · rintro ⟨r', hr', ht⟩
    obtain rfl := Option.some.inj (h.current.symm.trans hr')
    exact ht
  · intro ht
    exact ⟨r, h.current, ht⟩

/-! ## The selection -/

/-- Going on from `q`, the terminal `t` is one or two further. -/
theorem turnsFrom_cases : ∀ q t : Term, t ≠ q →
    (t = indexTerminal (q + 1) ∧ turnsFrom q t = 1) ∨
      (t = indexTerminal (q + 2) ∧ turnsFrom q t = 2 ∧
        turnsFrom (indexTerminal (q + 1)) t = 1) := by
  decide

theorem turnsFrom_self : ∀ t : Term, turnsFrom t t = 0 := by decide

theorem add_two_mod_ne : ∀ q : Term, (q.val + 1 + 1) % numTerminals ≠ q.val := by decide

theorem nextIndexLoop_succ (head : Term → Option Slot) (qindex fuel i : ℕ) :
    nextIndexLoop head qindex (fuel + 1) i
      = if head (indexTerminal i) = none then
          if (i + 1) % numTerminals = qindex then some (i + 1)
          else nextIndexLoop head qindex fuel (i + 1)
        else some i := rfl

/-- **The next terminal** is one with a program, and nearer to each waiting one. -/
theorem nextTerminal_closer {head : Term → Option Slot} (hq : head q = some temp)
    (huniq : ∀ u, head u = some temp → u = q) (ht : head t ≠ none) (hne : t ≠ q) :
    ∃ u i, nextTerminal head temp = some u ∧ head u = some i ∧ turnsFrom u t < turnsFrom q t := by
  rw [nextTerminal, findIndex_eq hq huniq]
  by_cases hnext : head (indexTerminal (q + 1)) = none
  · -- the next one is empty, so that `t` is the one after it
    obtain ⟨rfl, -⟩ | ⟨rfl, htwo, -⟩ := turnsFrom_cases q t hne
    · exact absurd hnext ht
    · obtain ⟨i, hi⟩ := Option.ne_none_iff_exists'.mp ht
      refine ⟨indexTerminal (q + 2), i, ?_, hi, ?_⟩
      · show Option.map indexTerminal (nextIndexLoop head q 6 (q + 1)) = _
        rw [nextIndexLoop_succ, if_pos hnext, if_neg (add_two_mod_ne q), nextIndexLoop_succ,
          if_neg ht]
        rfl
      · rw [turnsFrom_self, htwo]
        decide
  · obtain ⟨i, hi⟩ := Option.ne_none_iff_exists'.mp hnext
    refine ⟨indexTerminal (q + 1), i, ?_, hi, ?_⟩
    · show Option.map indexTerminal (nextIndexLoop head q 6 (q + 1)) = _
      rw [nextIndexLoop_succ, if_neg hnext]
      rfl
    · obtain ⟨rfl, hone⟩ | ⟨-, htwo, hone⟩ := turnsFrom_cases q t hne
      · rw [turnsFrom_self, hone]
        decide
      · rw [htwo, hone]
        decide

/-! ## Steps -/

theorem emptyTerminals_congr {head head' : Term → Option Slot}
    (h : ∀ t, head' t = none ↔ head t = none) : emptyTerminals head' = emptyTerminals head := by
  ext t
  simp [emptyTerminals, h t]

/-- The head of a terminal that has a program is replaced. -/
theorem emptyTerminals_update {head : Term → Option Slot} (hu : head u ≠ none) (i : Slot) :
    emptyTerminals (update head u (some i)) = emptyTerminals head := by
  apply emptyTerminals_congr
  intro t
  rcases eq_or_ne t u with rfl | hne
  · rw [update_self]
    exact iff_of_false (Option.some_ne_none i) hu
  · rw [update_of_ne hne]

/-- A program on an empty terminal. -/
theorem card_emptyTerminals_update {head : Term → Option Slot} (hu : head u = none) (i : Slot) :
    (emptyTerminals (update head u (some i))).card < (emptyTerminals head).card := by
  apply Finset.card_lt_card
  rw [Finset.ssubset_iff_of_subset]
  · refine ⟨u, by simp [emptyTerminals, hu], ?_⟩
    simp [emptyTerminals]
  · intro t ht
    rcases eq_or_ne t u with rfl | hne
    · simp [emptyTerminals] at ht
    · simpa [emptyTerminals, update_of_ne hne] using ht

/-- What a step does to the terminals that wait. -/
structure Waits (k k' : Kernel) : Prop where
  kept : ∀ t, k.termCurrPcb t ≠ none → k'.termCurrPcb t ≠ none
  wait : ∀ t, k'.wait t ≤ k.wait t

/-- The process running afterwards is of the same terminal, and has replaced its head. -/
theorem Inv.waits_of_update {L' : Term → List Slot} {r' : Slot} (h : Inv k r L) (h' : Inv k' r' L')
    (hhead : k'.termCurrPcb = update k.termCurrPcb (k.pcb r).terminalNumber (some r')) :
    Waits k k' := by
  have hempty : emptyTerminals k'.termCurrPcb = emptyTerminals k.termCurrPcb := by
    rw [hhead]
    exact emptyTerminals_update (by rw [h.head]; exact Option.some_ne_none r) r'
  have hterm : k'.terminal = k.terminal := by
    rw [h'.terminal_eq, h.terminal_eq]
    apply h'.toTables.terminalNumber_of_head
    rw [hhead, update_self]
  constructor
  · intro t ht
    rw [hhead]
    rcases eq_or_ne t (k.pcb r).terminalNumber with rfl | hne
    · rw [update_self]
      exact Option.some_ne_none r'
    · rwa [update_of_ne hne]
  · intro t
    rw [Kernel.wait, Kernel.wait, hempty, hterm]

/-- **Step.** No terminal loses its last program, and no step makes one wait longer. -/
theorem Effect.waits {c : Control} {r' : Slot} {L' : Term → List Slot} (h : Inv k r L)
    (h' : Inv k' r' L') (heff : Effect m k r L op c k' r' L') (htick : op.isTick = false) :
    Waits k k' := by
  -- where no head changes, nobody waits longer
  have hsame : k'.termCurrPcb = k.termCurrPcb → k'.pcb = k.pcb → r' = r → Waits k k' := by
    rintro hhead hpcb rfl
    refine ⟨fun t ht => hhead ▸ ht, fun t => ?_⟩
    rw [Kernel.wait, Kernel.wait, h'.terminal_eq, h.terminal_eq, hhead, hpcb]
  -- otherwise only the terminal of the process that runs gets another head
  cases heff with
  | failed _ _ => exact hsame rfl rfl rfl
  | started hfr _ hact _ hst =>
    exact h.waits_of_update h' (hact ▸ hst.termCurrPcb)
  | returned _ _ _ hhead _ _ _ => exact h.waits_of_update h' hhead
  | @restarted fr sub arg c eip k' _ _ hparent hact _ _ hst =>
    refine h.waits_of_update h' ?_
    have hhead := hst.termCurrPcb
    have hroot : (rootFreed (k.entered fr) r).currentActiveTerminal = k.currentActiveTerminal := rfl
    have hfreed : (rootFreed (k.entered fr) r).termCurrPcb
        = update k.termCurrPcb (k.pcb r).terminalNumber none := rfl
    rw [hhead, hroot, hfreed, hact, update_idem]
  | looked _ hpcb hhead _ _ => exact hsame hhead hpcb rfl
  | @spawned fr new c eip k₁ k' _ hpcb hhead₁ _ hact hnone _ hst =>
    have hhead : k'.termCurrPcb = update k.termCurrPcb new (some r') := by
      rw [hst.termCurrPcb, hhead₁, hact]
    have hcard := card_emptyTerminals_update hnone r'
    constructor
    · intro t ht
      rw [hhead]
      rcases eq_or_ne t new with rfl | hne
      · rw [update_self]
        exact Option.some_ne_none r'
      · rwa [update_of_ne hne]
    · -- the new shell runs at once, but there are fewer terminals without one
      intro t
      have hlt := turnsFrom_lt k'.terminal t
      rw [Kernel.wait, Kernel.wait, hhead]
      omega
  | resumed _ _ _ => cases htick

/-- A tick brings the turn of each waiting terminal closer. -/
theorem Inv.tick_closer (h : Inv k r L) (hfr : fr.pcb = r) {c : Control}
    (hrun : doHandlePit m (k.entered fr) fr = some (c, k')) :
    k'.termCurrPcb = k.termCurrPcb ∧
      ∀ t, k.termCurrPcb t ≠ none → k.terminal ≠ t → k'.wait t < k.wait t := by
  subst hfr
  have hent : Inv (k.entered fr) fr.pcb L := h.enter rfl
  have huniq : ∀ u, k.termCurrPcb u = some fr.pcb → u = (k.pcb fr.pcb).terminalNumber := fun u hu =>
    (h.toTables.terminalNumber_of_head hu).symm
  -- what the tick resumes when it has chosen a terminal
  have hresume : ∀ u i, nextTerminal k.termCurrPcb fr.pcb = some u → k.termCurrPcb u = some i →
      k'.termCurrPcb = k.termCurrPcb ∧ k'.terminal = u := by
    intro u i hnext hhead
    have heq := doHandlePit_of_next m (k.entered fr) fr hnext hhead
    have hk' : (switchTo m (k.entered fr) fr u i).2 = k' :=
      congrArg Prod.snd (Option.some.inj (heq.symm.trans hrun))
    have hres := resumed_switchTo (k := k.entered fr)
      (hent.self i (hent.toTables.used_of_head hhead)).1 m fr u
    rw [hk'] at hres
    have hinv := hent.of_resumed hhead hres
    refine ⟨hres.termCurrPcb, ?_⟩
    rw [hinv.terminal_eq]
    apply hinv.toTables.terminalNumber_of_head
    rw [hres.termCurrPcb]
    exact hhead
  have hheads : k'.termCurrPcb = k.termCurrPcb := by
    have hrun : k.termCurrPcb (k.pcb fr.pcb).terminalNumber ≠ none := by
      rw [h.head]
      exact Option.some_ne_none _
    obtain ⟨u, i, hnext, hhead⟩ := nextTerminal_eq_some hrun fr.pcb
    exact (hresume u i hnext hhead).1
  refine ⟨hheads, fun t ht hne => ?_⟩
  rw [h.terminal_eq] at hne
  obtain ⟨u, i, hnext, hhead, hlt⟩ := nextTerminal_closer h.head huniq ht hne.symm
  obtain ⟨-, hterm⟩ := hresume u i hnext hhead
  rw [Kernel.wait, Kernel.wait, hheads, hterm, h.terminal_eq]
  omega

/-! ## Runs -/

/-- **One operation** keeps a waiting terminal from waiting longer, and a tick makes it wait
less. -/
theorem wait_step (h : Inv k r L) (hfg : Foreground m k op) (hst : (kernelLTS m).step k op k')
    (ht : k.termCurrPcb t ≠ none) (hnot : ¬ k.RunsOn t) :
    k'.termCurrPcb t ≠ none ∧ k'.wait t ≤ k.wait t ∧ (op.isTick = true → k'.wait t < k.wait t) := by
  obtain ⟨hop, c, hrun⟩ := hst
  have hfr : op.frame.pcb = r := h.frame_eq hop
  rw [h.runsOn_iff] at hnot
  cases htick : op.isTick with
  | false =>
    obtain ⟨r', L', heff, h'⟩ := h.effect hfg hop hrun
    have hwaits := heff.waits h h' htick
    exact ⟨hwaits.kept t ht, hwaits.wait t, fun hcon => Bool.noConfusion hcon⟩
  | true =>
    match op with
    | .tick fr =>
      obtain ⟨hheads, hcloser⟩ := h.tick_closer hfr hrun
      have hlt := hcloser t ht hnot
      exact ⟨hheads ▸ ht, Nat.le_of_lt hlt, fun _ => hlt⟩

/-- **No terminal starves.** In every infinite run whose programs start in the foreground and in
which the timer keeps ticking, each terminal with a program gets the CPU again and again; the wait
is at most two ticks, and three more for each terminal that has no shell yet. -/
theorem turn_comes (E : (kernelLTS m).Exec (Foreground m))
    (hticks : ∀ n, ∃ n', n ≤ n' ∧ (E.label n').isTick = true) (n : ℕ) (t : Term)
    (ht : (E.state n).termCurrPcb t ≠ none) :
    ∃ n', n ≤ n' ∧ (E.state n').RunsOn t ∧
      ((Finset.Ico n n').filter fun j => (E.label j).isTick = true).card
        ≤ 3 * (emptyTerminals (E.state n).termCurrPcb).card + 2 := by
  have hstep : ∀ k op k', (kernelLTS m).Reach (Foreground m) k → Foreground m k op →
      (kernelLTS m).step k op k' → k.termCurrPcb t ≠ none → ¬ k.RunsOn t →
      k'.termCurrPcb t ≠ none ∧ k'.wait t ≤ k.wait t ∧
        (op.isTick = true → k'.wait t < k.wait t) := by
    intro k op k' hreach hfg hst hP hQ
    obtain ⟨r, L, hI⟩ := exists_inv_of_reach hreach
    exact wait_step hI hfg hst hP hQ
  obtain ⟨n', hle, hQ, hcard⟩ := E.eventually_within (P := fun k => k.termCurrPcb t ≠ none)
    (Q := fun k => k.RunsOn t) (v := fun k => k.wait t) (fun _ op => op.isTick = true) hstep
    (fun n _ => hticks n) ht
  refine ⟨n', hle, hQ, hcard.trans ?_⟩
  have hlt := turnsFrom_lt (E.state n).terminal t
  rw [Kernel.wait]
  omega

/-- A tick can always be taken, and leaves the heads of the terminals alone. -/
theorem Inv.exists_tick (h : Inv k r L) (m : Machine) :
    ∃ a k', Op.isTick a = true ∧ Foreground m k a ∧ (kernelLTS m).step k a k' ∧
      (∃ r L, Inv k' r L) ∧ k'.termCurrPcb = k.termCurrPcb := by
  have hfr : (Frame.top r).pcb = r := rfl
  obtain ⟨t, i, c, k', -, heq, -, hinv⟩ := (h.enter hfr).tick hfr m
  exact ⟨.tick (Frame.top r), k', rfl, trivial, ⟨⟨.inl h.current, trivial⟩, c, heq⟩, ⟨i, L, hinv⟩,
    (h.tick_closer hfr heq).1⟩

/-- The user switches to terminal 1, where a shell starts, and only the timer is heard from then on.
The shell of terminal 0 waits at first, and each of the two gets the CPU again and again. -/
theorem turn_comes_sample : ∃ E : (kernelLTS sampleMachine).Exec (Foreground sampleMachine),
    (E.state 1).termCurrPcb 0 = some 0 ∧ ¬ (E.state 1).RunsOn 0 ∧
    ∀ n, 1 ≤ n → ∀ t, t ≠ 2 → ∃ n', n ≤ n' ∧ (E.state n').RunsOn t ∧
      ((Finset.Ico n n').filter fun j => (E.label j).isTick = true).card ≤ 5 := by
  have hfg : Foreground sampleMachine sampleBoot (.switch (Frame.top 0) 1) := trivial
  have hreach : (kernelLTS sampleMachine).Reach (Foreground sampleMachine) sampleSwitched :=
    .step (.init sampleBoot_init) hfg sampleSwitched_step
  obtain ⟨r, L, hI⟩ := exists_inv_of_reach hreach
  obtain ⟨E, hstart, hE⟩ : ∃ E : ((kernelLTS sampleMachine).startAt sampleSwitched).Exec
      (Foreground sampleMachine), E.state 0 = sampleSwitched ∧
      ∀ n, ((∃ r L, Inv (E.state n) r L) ∧
        (E.state n).termCurrPcb = sampleSwitched.termCurrPcb) ∧ (E.label n).isTick = true := by
    apply LTS.exists_exec (I := fun k => (∃ r L, Inv k r L) ∧
      k.termCurrPcb = sampleSwitched.termCurrPcb) (Q := fun op : Op => op.isTick = true) rfl
      ⟨⟨r, L, hI⟩, rfl⟩
    rintro k ⟨⟨r, L, hk⟩, hheads⟩
    obtain ⟨op, k', htick, hfg, hst, hk', hsame⟩ := hk.exists_tick sampleMachine
    exact ⟨op, k', htick, hfg, hst, hk', hsame.trans hheads⟩
  have hheads : sampleSwitched.termCurrPcb 0 = some 0 ∧
    ∀ t, t ≠ 2 → sampleSwitched.termCurrPcb t ≠ none := by decide
  have hempty : (emptyTerminals sampleSwitched.termCurrPcb).card = 1 := by decide
  have hesp : getPcb sampleSwitched.esp = some 1 := by decide
  have hterm : (sampleSwitched.pcb 1).terminalNumber ≠ 0 := by decide
  refine ⟨E.cons sampleBoot_init hfg sampleSwitched_step, ?_, ?_, fun n hn t ht => ?_⟩
  · show (E.state 0).termCurrPcb 0 = some 0
    rw [hstart]
    exact hheads.1
  · show ¬ (E.state 0).RunsOn 0
    rw [hstart]
    rintro ⟨r', hr', ht⟩
    obtain rfl := Option.some.inj (hesp.symm.trans hr')
    exact hterm ht
  · obtain ⟨n, rfl⟩ : ∃ n', n = n' + 1 := ⟨n - 1, by omega⟩
    have hnone : (E.state n).termCurrPcb t ≠ none := by
      rw [(hE n).1.2]
      exact hheads.2 t ht
    have hcard : 3 * (emptyTerminals (E.state n).termCurrPcb).card + 2 = 5 := by
      rw [(hE n).1.2, hempty]
    obtain ⟨n', hle, hruns, hticks⟩ := turn_comes (E.cons sampleBoot_init hfg sampleSwitched_step)
      (fun n => ⟨n + 1, Nat.le_succ n, (hE n).2⟩) (n + 1) t hnone
    exact ⟨n', hle, hruns, hticks.trans (le_of_eq hcard)⟩

end HieUnix
