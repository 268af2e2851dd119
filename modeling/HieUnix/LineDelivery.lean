import HieUnix.LineEditing

/-!
# Whose line a read gets

The line buffers and `enter_flag` belong to a terminal, but `enter_buffer` and `mouse_command` are
shared. A record of the lines completed and the clicks made, each with its terminal, says whether a
read gets what was meant for it (`DeliveredRightly`). It does in every run in which no terminal has
something pending when a line is completed or a click is made on another one, and no read of a
click clears a line that is being typed (`deliveredRightly_of_safe`): then at most one
terminal has its flag set, and what the read takes was recorded for that terminal.
-/

namespace HieUnix

open Function

/-! ## The record -/

/-- The lines completed with the return key and the commands of the clicks, each with the terminal
that was active. The newest come first. -/
structure Delivery where
  lines : List (Term × (ℕ → Byte))
  clicks : List (Term × (ℕ → Byte))

/-- What an event adds to the record. -/
def recordDelivery (tty : Tty) (op : TtyOp) (tty' : Tty) (d : Delivery) : Delivery :=
  match op with
  | .key _ _ c =>
    if isEnter tty.mods c then
      { d with lines := (tty.active, tty.con.inputBuffer tty.active) :: d.lines }
    else d
  | .click _ => { d with clicks := (tty.active, tty'.con.mouseCommand) :: d.clicks }
  | _ => d

/-- The runs of the terminals with the record. -/
def deliveryLTS (m : Machine) : LTS (Tty × Delivery) TtyOp :=
  (ttyLTS m).history (fun _ => ⟨[], []⟩) recordDelivery

/-- What a read on terminal `t` would take. -/
def Console.pending (con : Console) (t : Term) : Option (ℕ → Byte) :=
  if con.enterFlag t = 0 then none
  else if con.MousePending then some con.mouseCommand
  else some con.enterBuffer

/-- The unfinished line of terminal `u` and what is pending there are as they were. -/
structure LineKept (con con' : Console) (u : Term) : Prop where
  inputBuffer : ∀ i < 128, con'.inputBuffer u i = con.inputBuffer u i
  currBuffPos : con'.currBuffPos u = con.currBuffPos u
  pending : con'.pending u = con.pending u

/-- A read on `t` takes a line completed on `t` or a click made while `t` was active; it and the
return key disturb no other terminal. -/
def DeliveredRightly (m : Machine) (d : Delivery) (tty : Tty) : TtyOp → Prop
  | .key k fr c => isEnter tty.mods c = true →
    ∀ u, u ≠ tty.active → LineKept tty.con (doHandleKeyboard m k fr tty c).2.2.con u
  | .read t mem buf nbytes => buf ≠ 0 →
    let r := terminalRead tty.con t mem buf nbytes
    ((∃ line n, (t, line) ∈ d.lines ∧ n ≤ 128 ∧ r.1 = BitVec.ofNat 32 (n + 1) ∧
        r.2.2.bytes buf (n + 1) = (List.range n).map line ++ [chr '\n']) ∨
      ∃ command, (t, command) ∈ d.clicks ∧ r.1 = 32 ∧
        r.2.2.bytes buf 32 = (List.range 32).map command) ∧
      ∀ u, u ≠ t → LineKept tty.con r.2.1 u
  | _ => True

/-- The events that the shared buffers allow for: nothing is pending on another terminal when a
line is completed or a click is made; a click is on a row that begins with a character, or the
line in `enter_buffer` is of the same terminal; and a read that takes a click finds its own
terminal active, or no unfinished line on the active one. -/
def DeliverySafe (p : Tty × Delivery) : TtyOp → Prop
  | .key _ _ c => isEnter p.1.mods c = true →
    ∀ u, u ≠ p.1.active → p.1.con.enterFlag u = 0
  | .click newPos => (∀ u, u ≠ p.1.active → p.1.con.enterFlag u = 0) ∧
    (rowChar p.1.scr newPos 0 ≠ 0 ∨ ∃ line rest, p.2.lines = (p.1.active, line) :: rest)
  | .read t _ buf _ => buf ≠ 0 → p.1.con.MousePending →
    t = p.1.active ∨ p.1.con.currBuffPos p.1.active = 0 ∧
      ∀ i < 128, p.1.con.inputBuffer p.1.active i = 0
  | _ => True

/-! ## The invariant -/

/-- At most one terminal has something pending, and the record says that it is for that
terminal. -/
structure DeliveryInv (con : Console) (d : Delivery) : Prop where
  one : ∀ t u, con.enterFlag t ≠ 0 → con.enterFlag u ≠ 0 → t = u
  click : con.MousePending → ∃ t, con.enterFlag t ≠ 0 ∧ (t, con.mouseCommand) ∈ d.clicks
  line : ∀ t, con.enterFlag t ≠ 0 → ¬ con.MousePending →
    ∃ rest, d.lines = (t, con.enterBuffer) :: rest
  last : ∀ p rest, d.lines = p :: rest → p.2 = con.enterBuffer

variable {m : Machine} {k : Kernel} {fr : Frame} {tty tty' : Tty} {d : Delivery}
  {con con' : Console} {c : Byte} {t u : Term}

/-- The invariant is about what is pending. -/
theorem DeliveryInv.congr (h : DeliveryInv con d) (hsame : con'.SamePending con) :
    DeliveryInv con' d := by
  constructor
  · rw [hsame.enterFlag]
    exact h.one
  · rw [mousePending_congr hsame.mouseCommand, hsame.enterFlag, hsame.mouseCommand]
    exact h.click
  · rw [mousePending_congr hsame.mouseCommand, hsame.enterFlag, hsame.enterBuffer]
    exact h.line
  · rw [hsame.enterBuffer]
    exact h.last

/-- A flag that is set is set on the only terminal where something may be pending. -/
theorem flag_update_one (flag : Term → Byte) (hother : ∀ u, u ≠ t → flag u = 0) {u : Term}
    (h : update flag t 1 u ≠ 0) : u = t := by
  by_contra hne
  rw [update_of_ne hne] at h
  exact h (hother u hne)

/-- The return key, with nothing pending elsewhere. -/
theorem DeliveryInv.enter (h : DeliveryInv tty.con d) (m : Machine) (k : Kernel) (fr : Frame)
    (henter : isEnter tty.mods c = true)
    (hother : ∀ u, u ≠ tty.active → tty.con.enterFlag u = 0) :
    DeliveryInv (doHandleKeyboard m k fr tty c).2.2.con
      { d with lines := (tty.active, tty.con.inputBuffer tty.active) :: d.lines } := by
  have hflag : (doHandleKeyboard m k fr tty c).2.2.con.enterFlag
      = update tty.con.enterFlag tty.active 1 := by
    rw [doHandleKeyboard_enter m k fr henter]
    rfl
  have hbuffer : (doHandleKeyboard m k fr tty c).2.2.con.enterBuffer
      = tty.con.inputBuffer tty.active := by
    rw [doHandleKeyboard_enter m k fr henter]
    rfl
  have hcommand : (doHandleKeyboard m k fr tty c).2.2.con.mouseCommand = tty.con.mouseCommand := by
    rw [doHandleKeyboard_enter m k fr henter]
    rfl
  constructor
  · intro t u ht hu
    rw [hflag] at ht hu
    rw [flag_update_one _ hother ht, flag_update_one _ hother hu]
  · intro hmouse
    obtain ⟨t, ht, hclick⟩ := h.click ((mousePending_congr hcommand).mp hmouse)
    -- a click that is pending was made on the active terminal, as nothing is pending elsewhere
    have hactive : t = tty.active := by
      by_contra hne
      exact ht (hother t hne)
    refine ⟨t, ?_, ?_⟩
    · rw [hflag, hactive, update_self]
      decide
    · rw [hcommand]
      exact hclick
  · intro t ht _
    rw [hflag] at ht
    rw [flag_update_one _ hother ht, hbuffer]
    exact ⟨d.lines, rfl⟩
  · intro p rest hp
    rw [hbuffer, ← (List.cons.inj hp).1]

/-- A click, with nothing pending elsewhere. -/
theorem DeliveryInv.runProg (h : DeliveryInv tty.con d) {newPos : Word}
    (hother : ∀ u, u ≠ tty.active → tty.con.enterFlag u = 0)
    (hrow : rowChar tty.scr newPos 0 ≠ 0 ∨ ∃ line rest, d.lines = (tty.active, line) :: rest) :
    DeliveryInv (runProg tty newPos).con
      { d with clicks := (tty.active, (runProg tty newPos).con.mouseCommand) :: d.clicks } := by
  constructor
  · intro t u ht hu
    rw [flag_update_one _ hother ht, flag_update_one _ hother hu]
  · intro _
    refine ⟨tty.active, ?_, List.mem_cons_self⟩
    show update tty.con.enterFlag tty.active 1 tty.active ≠ 0
    rw [update_self]
    decide
  · intro t ht hmouse
    rw [mousePending_iff, not_not] at hmouse
    obtain ⟨line, rest, hline⟩ := hrow.resolve_left (not_not_intro hmouse)
    have hlast := h.last _ _ hline
    refine ⟨rest, ?_⟩
    rw [flag_update_one _ hother ht]
    show d.lines = (tty.active, tty.con.enterBuffer) :: rest
    rw [hline, ← hlast]
  · exact h.last

/-- A read clears the flag of its terminal, and the click. -/
theorem DeliveryInv.terminalRead (h : DeliveryInv con d) (hflag : con.enterFlag t ≠ 0)
    (mem : Memory) (buf nbytes : Word) :
    DeliveryInv (terminalRead con t mem buf nbytes).2.1 d := by
  -- after the read no flag is set
  have hclear : ∀ u, update con.enterFlag t 0 u = 0 := by
    intro u
    by_cases hu : u = t
    · rw [hu, update_self]
    · rw [update_of_ne hu]
      by_contra hne
      exact hu (h.one u t hne hflag)
  by_cases hmouse : con.MousePending
  · by_cases hbuf : buf = 0
    · rw [HieUnix.terminalRead, if_pos hbuf]
      exact h
    · rw [terminalRead_of_mouse hbuf hmouse]
      constructor
      · intro t u ht _
        exact absurd (hclear t) ht
      · intro hmouse'
        rw [mousePending_iff] at hmouse'
        exact absurd (strncpy_nil_zero con.mouseCommand) hmouse'
      · intro t ht _
        exact absurd (hclear t) ht
      · exact h.last
  · rw [terminalRead_con hmouse]
    split_ifs
    · exact h
    · constructor
      · intro t u ht _
        exact absurd (hclear t) ht
      · intro hmouse'
        exact absurd hmouse' hmouse
      · intro t ht _
        exact absurd (hclear t) ht
      · exact h.last

/-- A safe event keeps the invariant. -/
theorem DeliveryInv.step {p p' : Tty × Delivery} {op : TtyOp} (h : DeliveryInv p.1.con p.2)
    (hsafe : DeliverySafe p op) (hstep : (deliveryLTS m).step p op p') :
    DeliveryInv p'.1.con p'.2 := by
  obtain ⟨tty, d⟩ := p
  obtain ⟨tty', d'⟩ := p'
  obtain ⟨⟨henabled, hrun⟩, hd⟩ := hstep
  dsimp only at hrun hd h henabled ⊢
  rw [hd, hrun]
  cases op with
  | key k fr c =>
    cases henter : isEnter tty.mods c with
    | true =>
      have hrecord : recordDelivery tty (.key k fr c) (TtyOp.run m tty (.key k fr c)) d
          = { d with lines := (tty.active, tty.con.inputBuffer tty.active) :: d.lines } :=
        if_pos henter
      rw [hrecord]
      exact h.enter m k fr henter (hsafe henter)
    | false =>
      have hrecord : recordDelivery tty (.key k fr c) (TtyOp.run m tty (.key k fr c)) d = d :=
        if_neg (by rw [henter]; exact Bool.false_ne_true)
      rw [hrecord]
      exact h.congr (doHandleKeyboard_samePending m k fr henter)
  | afterSwitch => exact h
  | putc t c => exact h
  | read t mem buf nbytes =>
    show DeliveryInv (HieUnix.terminalRead tty.con t mem buf nbytes).2.1 d
    rcases henabled with hbuf | hflag
    · rw [HieUnix.terminalRead, if_pos hbuf]
      exact h
    · exact h.terminalRead hflag mem buf nbytes
  | click newPos => exact h.runProg hsafe.1 hsafe.2

/-! ## Delivery -/

theorem pending_eq_none (h : con.enterFlag u = 0) : con.pending u = none := if_pos h

/-- The return key disturbs no terminal that has nothing pending. -/
theorem undisturbed_enter (m : Machine) (k : Kernel) (fr : Frame)
    (henter : isEnter tty.mods c = true) (hu : u ≠ tty.active) (hflag : tty.con.enterFlag u = 0) :
    LineKept tty.con (doHandleKeyboard m k fr tty c).2.2.con u := by
  rw [doHandleKeyboard_enter m k fr henter]
  constructor
  · intro i _
    exact congrFun (update_of_ne hu _ _) i
  · exact update_of_ne hu _ _
  · rw [pending_eq_none hflag]
    apply pending_eq_none
    exact (update_of_ne hu _ _).trans hflag

/-- A read that takes a click takes one made on its terminal. -/
theorem DeliveryInv.readMouse (h : DeliveryInv con d) (hflag : con.enterFlag t ≠ 0)
    (hmouse : con.MousePending) {buf : Word} (hbuf : buf ≠ 0)
    (hsafe : t = con.currentActiveTerminal ∨ con.currBuffPos con.currentActiveTerminal = 0 ∧
      ∀ i < 128, con.inputBuffer con.currentActiveTerminal i = 0) (mem : Memory) (nbytes : Word) :
    let r := HieUnix.terminalRead con t mem buf nbytes
    (∃ command, (t, command) ∈ d.clicks ∧ r.1 = 32 ∧
        r.2.2.bytes buf 32 = (List.range 32).map command) ∧
      ∀ u, u ≠ t → LineKept con r.2.1 u := by
  intro r
  have hr : r = _ := terminalRead_of_mouse hbuf hmouse
  obtain ⟨t', hflag', hclick⟩ := h.click hmouse
  rw [h.one t' t hflag' hflag] at hclick
  rw [hr]
  refine ⟨⟨con.mouseCommand, hclick, rfl, ?_⟩, ?_⟩
  · exact Memory.bytes_patch (Nat.le_refl 32) (by decide)
  · intro u hu
    have hnone : con.enterFlag u = 0 := by
      by_contra hne
      exact hu (h.one u t hne hflag)
    constructor
    · intro i hi
      show update con.inputBuffer con.currentActiveTerminal (fun _ => 0) u i = _
      by_cases hactive : u = con.currentActiveTerminal
      · rw [← hactive] at hsafe ⊢
        rw [update_self, (hsafe.resolve_left hu.symm).2 i hi]
      · rw [update_of_ne hactive]
    · show update con.currBuffPos con.currentActiveTerminal 0 u = _
      by_cases hactive : u = con.currentActiveTerminal
      · rw [← hactive] at hsafe ⊢
        rw [update_self, (hsafe.resolve_left hu.symm).1]
      · rw [update_of_ne hactive]
    · rw [pending_eq_none hnone]
      apply pending_eq_none
      exact (update_of_ne hu _ _).trans hnone

/-- A read that takes a line takes the one completed on its terminal. -/
theorem DeliveryInv.readLine (h : DeliveryInv con d) (hflag : con.enterFlag t ≠ 0)
    (hmouse : ¬ con.MousePending) {buf : Word} (hbuf : buf ≠ 0) (mem : Memory) (nbytes : Word) :
    let r := HieUnix.terminalRead con t mem buf nbytes
    (∃ line n, (t, line) ∈ d.lines ∧ n ≤ 128 ∧ r.1 = BitVec.ofNat 32 (n + 1) ∧
        r.2.2.bytes buf (n + 1) = (List.range n).map line ++ [chr '\n']) ∧
      ∀ u, u ≠ t → LineKept con r.2.1 u := by
  intro r
  obtain ⟨mem', hread, hbytes, -⟩ := terminalRead_of_line hbuf hmouse t mem nbytes
  have hr : r = _ := hread
  obtain ⟨rest, hlines⟩ := h.line t hflag hmouse
  rw [hr]
  refine ⟨⟨con.enterBuffer, lineLength con nbytes, ?_, lineLength_le con nbytes, rfl, hbytes⟩, ?_⟩
  · rw [hlines]
    exact List.mem_cons_self
  · intro u hu
    have hnone : con.enterFlag u = 0 := by
      by_contra hne
      exact hu (h.one u t hne hflag)
    refine ⟨fun _ _ => rfl, rfl, ?_⟩
    rw [pending_eq_none hnone]
    apply pending_eq_none
    exact (update_of_ne hu _ _).trans hnone

theorem DeliveryInv.deliveredRightly (h : DeliveryInv tty.con d) {op : TtyOp}
    (henabled : op.Enabled tty) (hsafe : DeliverySafe (tty, d) op) (m : Machine) :
    DeliveredRightly m d tty op := by
  cases op with
  | key k fr c =>
    intro henter u hu
    exact undisturbed_enter m k fr henter hu (hsafe henter u hu)
  | read t mem buf nbytes =>
    intro hbuf
    have hflag : tty.con.enterFlag t ≠ 0 := henabled.resolve_left hbuf
    by_cases hmouse : tty.con.MousePending
    · have hread := h.readMouse hflag hmouse hbuf (hsafe hbuf hmouse) mem nbytes
      exact ⟨.inr hread.1, hread.2⟩
    · have hread := h.readLine hflag hmouse hbuf mem nbytes
      exact ⟨.inl hread.1, hread.2⟩
  | afterSwitch => trivial
  | putc t c => trivial
  | click newPos => trivial

/-- **In every run of safe events a read gets what was completed or clicked on its terminal**, and
disturbs no other. -/
theorem deliveredRightly_of_safe {p : Tty × Delivery} (h : (deliveryLTS m).Reach DeliverySafe p)
    {op : TtyOp} (henabled : op.Enabled p.1) (hsafe : DeliverySafe p op) :
    DeliveredRightly m p.2 p.1 op := by
  have hinv : DeliveryInv p.1.con p.2 := by
    refine LTS.Reach.invariant (I := fun p => DeliveryInv p.1.con p.2) ?_ ?_ h
    · intro p ⟨⟨mem, banner, hboot⟩, hd⟩
      rw [hboot, hd]
      constructor
      · intro t u ht _
        exact absurd rfl ht
      · intro hmouse
        have hnot : ¬ bootConsole.MousePending := by decide
        exact absurd hmouse hnot
      · intro t ht _
        exact absurd rfl ht
      · intro p rest hp
        cases hp
    · intro p op p' hp hok hstep
      exact hp.step hok hstep
  exact hinv.deliveredRightly henabled hsafe m

/-! ## A line for another terminal -/

/-- A, return, Alt-F2, B, return. -/
def sampleKeys : List TtyOp :=
  [.key (sampleTables 0) (Frame.top 0) 30, .key (sampleTables 0) (Frame.top 0) 28,
    .key (sampleTables 0) (Frame.top 0) 56, .key (sampleTables 0) (Frame.top 0) 60,
    .key (sampleTables 1) (Frame.top 0) 48, .key (sampleTables 1) (Frame.top 0) 28]

/-- The state and the record after a list of events. -/
def deliver (m : Machine) (p : Tty × Delivery) (ops : List TtyOp) : Tty × Delivery :=
  ops.foldl (fun p op => (op.run m p.1, recordDelivery p.1 op (op.run m p.1) p.2)) p

/-- The terminals after the sample keys. -/
def sampleDelivered : Tty × Delivery :=
  deliver sampleMachine (bootTty (fun _ => 0) [], ⟨[], []⟩) sampleKeys

theorem reach_deliver {ok : Tty × Delivery → TtyOp → Prop} {p : Tty × Delivery} (op : TtyOp)
    (h : (deliveryLTS m).Reach ok p) (henabled : op.Enabled p.1) (hok : ok p op) :
    (deliveryLTS m).Reach ok (deliver m p [op]) :=
  .step h hok ⟨⟨henabled, rfl⟩, rfl⟩

theorem sampleDelivered_reach : (deliveryLTS sampleMachine).Reach LTS.always sampleDelivered := by
  have h0 : (deliveryLTS sampleMachine).Reach LTS.always
      (bootTty (fun _ => 0) [], (⟨[], []⟩ : Delivery)) := .init ⟨⟨fun _ => 0, [], rfl⟩, rfl⟩
  have h1 := reach_deliver (.key (sampleTables 0) (Frame.top 0) 30) h0 rfl trivial
  have h2 := reach_deliver (.key (sampleTables 0) (Frame.top 0) 28) h1 rfl trivial
  have h3 := reach_deliver (.key (sampleTables 0) (Frame.top 0) 56) h2 rfl trivial
  have h4 := reach_deliver (.key (sampleTables 0) (Frame.top 0) 60) h3 rfl trivial
  have h5 := reach_deliver (.key (sampleTables 1) (Frame.top 0) 48) h4 rfl trivial
  exact reach_deliver (.key (sampleTables 1) (Frame.top 0) 28) h5 rfl trivial

/-- The read on terminal 0 takes the line completed on terminal 1. -/
theorem not_deliveredRightly : ¬ ∀ m p op, (deliveryLTS m).Reach LTS.always p → op.Enabled p.1 →
    DeliveredRightly m p.2 p.1 op := by
  intro h
  have henabled : (TtyOp.read 0 (fun _ => 0) 0x8048000 128).Enabled sampleDelivered.1 := by
    right
    decide
  obtain ⟨hread, -⟩ := h sampleMachine sampleDelivered _ sampleDelivered_reach henabled (by decide)
  rcases hread with ⟨line, n, hline, hn, hcount, hbytes⟩ | ⟨command, hclick, -⟩
  · have hfirst : (terminalRead sampleDelivered.1.con 0 (fun _ => 0) 0x8048000 128).2.2.bytes
        0x8048000 2 = [0x62, chr '\n'] := by
      decide
    have htyped : line 0 = 0x61 := by
      rcases List.mem_cons.mp hline with heq | hrest
      · cases (Prod.mk.inj heq).1
      · rw [(Prod.mk.inj (List.mem_singleton.mp hrest)).2]
        decide
    have hcount' : (2 : Word) = BitVec.ofNat 32 (n + 1) := hcount
    obtain rfl : n = 1 := by
      bv_omega
    have hbytes' : [0x62, chr '\n'] = [line 0, chr '\n'] := hfirst.symm.trans hbytes
    have hline0 : 0x62 = line 0 := (List.cons.inj hbytes').1
    rw [htyped] at hline0
    exact absurd hline0 (by decide)
  · have hnone : sampleDelivered.2.clicks = [] := rfl
    rw [hnone] at hclick
    cases hclick

/-- A line is completed on terminal 0, and another is being typed on terminal 1. -/
def sampleWaiting : Tty × Delivery :=
  deliver sampleMachine (bootTty (fun _ => 0) [], ⟨[], []⟩) (sampleKeys.take 5)

theorem sampleWaiting_reach : (deliveryLTS sampleMachine).Reach DeliverySafe sampleWaiting := by
  have h0 : (deliveryLTS sampleMachine).Reach DeliverySafe
      (bootTty (fun _ => 0) [], (⟨[], []⟩ : Delivery)) := .init ⟨⟨fun _ => 0, [], rfl⟩, rfl⟩
  have h1 := reach_deliver (.key (sampleTables 0) (Frame.top 0) 30) h0 rfl fun _ _ _ => rfl
  have h2 := reach_deliver (.key (sampleTables 0) (Frame.top 0) 28) h1 rfl fun _ _ _ => rfl
  have h3 := reach_deliver (.key (sampleTables 0) (Frame.top 0) 56) h2 rfl
    fun henter => absurd henter (by decide)
  have h4 := reach_deliver (.key (sampleTables 0) (Frame.top 0) 60) h3 rfl
    fun henter => absurd henter (by decide)
  exact reach_deliver (.key (sampleTables 1) (Frame.top 0) 48) h4 rfl
    fun henter => absurd henter (by decide)

/-- The shell of terminal 0 reads its line while the other is being typed, and that one stays. -/
theorem deliveredRightly_of_safe_sample :
    let op : TtyOp := .read 0 (fun _ => 0) 0x8048000 128
    let r := terminalRead sampleWaiting.1.con 0 (fun _ => 0) 0x8048000 128
    DeliveredRightly sampleMachine sampleWaiting.2 sampleWaiting.1 op ∧
      sampleWaiting.1.active = 1 ∧ r.2.2.bytes 0x8048000 2 = [0x61, chr '\n'] ∧
      r.2.1.inputBuffer 1 0 = 0x62 ∧ r.2.1.currBuffPos 1 = 1 := by
  intro op r
  have henabled : op.Enabled sampleWaiting.1 := by
    right
    decide
  have hread := deliveredRightly_of_safe sampleWaiting_reach henabled
    fun _ hmouse => absurd hmouse (by decide)
  obtain ⟨-, hkept⟩ := hread (by decide)
  have hother := hkept 1 (by decide)
  refine ⟨hread, by decide, by decide, ?_, ?_⟩
  · rw [hother.inputBuffer 0 (by decide)]
    decide
  · rw [hother.currBuffPos]
    decide

end HieUnix
