import HieUnix.SwitchSteps

/-!
# Processes that wait

Every run of the context switch: programs run, the timer switches between them, programs start
others and halt. A process that gave up the processor in whatever way gets it back with its
registers, its flags and its segments as they were, whichever processes ran in between.
-/

namespace HieUnix.Interrupt

open X86 Function

variable {S : Symbols} {C : KernelCode} {KernelData : Word → Prop} {depth : ℕ}
  {ready : Way → Core Reg → ℕ → Word → Memory → Prop} {i j : Slot} {w : Way}
  {c e p q r : Core Reg} {v : Waiting} {W : Slot → Option Waiting} {m m' : Memory}
  {s s' : SwitchState} {a : SwitchEvent}

/-! ## The invariant -/

/-- The program that gets the processor back from the process that waited. -/
def Resumed (s s' : SwitchState) (a : SwitchEvent) : Prop :=
  (∀ v, s.waiting s'.current = some v → s'.core = v.back s'.core) ∧
    (a = .tick s.current → s'.core = { s.core with mem := s'.core.mem })

theorem SwitchInv.ne_current (h : SwitchInv S C depth ready s) (hi : (s.waiting i).isSome) :
    i ≠ s.current := by
  rintro rfl
  rw [h.current] at hi
  exact absurd hi (by decide)

/-- A block says which stack the interrupts of its process take as long as its words stay. -/
theorem SwitchInv.tssEsp_congr (h : SwitchInv S C depth ready s)
    (hi : i = s.current ∨ (s.waiting i).isSome)
    (hm : ∀ b, StartWord i b → m b = s.core.mem b) :
    m.load32 (pcbAddr i + 180) = getKstackAddr i :=
  (load32_startWord_congr (.inr rfl) hm).trans (h.tssEsp i hi)

theorem SwitchInv.run (hC : Compiled S C KernelData depth ready) (h : SwitchInv S C depth ready s)
    (hruns : Runs S .tick c)
    (hmem : ∀ b, ¬ KernelData b → ¬ KernelStack s.current b → c.mem b = s.core.mem b)
    (hroom : c.cpl = 0 → Room S depth s.current c) :
    SwitchInv S C depth ready { s with core := c } := by
  have hstart : ∀ j b, StartWord j b → c.mem b = s.core.mem b := fun j b hb =>
    hb.kept hC fun hd hk _ _ => hmem b hd hk
  have hesp0 : c.mem.load32 (S.tss + 4) = getKstackAddr s.current :=
    (load32_tssWord_congr fun b hb => hC.tssWord_kept hb (hmem b)).trans h.esp0
  refine ⟨hruns, ?_, hesp0, h.current, fun i hi => h.tssEsp_congr hi (hstart i),
    h.suspended.congr fun i b hi hb => ?_, fun j i hj => ?_, h.only⟩
  · by_cases hcpl : c.cpl = 0
    · exact hroom hcpl
    · exact room_of_esp0 hcpl hesp0 hC.fits
  · have hpark : Parked i b := hb.imp id .inr
    exact hpark.kept hC (h.ne_current hi) fun hd hk _ _ => hmem b hd hk
  · obtain ⟨v, hv, hfor⟩ := h.children j i hj
    exact ⟨v, hv, hfor.congr (hstart j)⟩

/-- What is in memory and in the registers when `do_handle_pit` has switched stacks: `W` are the
processes that wait then. -/
structure Switched (S : Symbols) (C : KernelCode) (depth : ℕ)
    (ready : Way → Core Reg → ℕ → Word → Memory → Prop) (s : SwitchState) (j : Slot)
    (W : Slot → Option Waiting) (v : Waiting) (q : Core Reg) : Prop where
  suspended : Suspended S C depth ready W q.mem
  next : W j = some v
  esp : q.esp = v.stored
  ebp : q.reg .ebp = v.ebp
  eip : q.eip = v.label C
  inKernel : InKernel q
  tabled : Tabled S q.mem
  esp0 : q.mem.load32 (S.tss + 4) = getKstackAddr j
  start : ∀ i b, StartWord i b → q.mem b = s.core.mem b

/-- `do_handle_pit` switches to a process that can go on, and the interrupts to its stack. -/
theorem SwitchInv.switched (hC : Compiled S C KernelData depth ready)
    (h : SwitchInv S C depth ready s) (henter : Enters S .tick s.core e)
    (hto : C.toSwitch j (Way.tick.enter C.retAddr e) p)
    (hj : j = s.current ∨ (s.waiting j).isSome) (hq : q = pitSwitch S C.switched j p)
    (hW : W = update s.waiting s.current
      (some (waitingAt .tick s.core (Way.tick.enter C.retAddr e) p q.mem))) :
    ∃ v, Switched S C depth ready s j W v q := by
  have hfits := hC.fits
  have hroom := h.room
  obtain ⟨k, hin, hready⟩ := hC.toSwitch _ _ _ hto
  -- the process that gives up the processor waits as the others do
  have hv := hin.parks_tick hC henter hroom hready (j := j) (m := q.mem) (by rw [hq])
  rw [pitSwitch, hin.and_pcbMask henter hroom hfits] at hq
  have hp : ∀ b, ¬ KernelData b → ¬ KernelStack s.current b → p.mem b = s.core.mem b := fun b =>
    hin.mem_eq henter hroom hfits
  have hset : ∀ b, ¬ KernelStack s.current b → ¬ NewWord s.current b →
      q.mem b = (setTssEsp0 S (p.mem.load32 (pcbAddr j + 180)) p).mem b := by
    intro b hk hn
    rw [hq]
    exact mem_switchStacks (fun hb => hk (hin.pushed henter hroom hfits hb).1) hn
  have hout : ∀ b, ¬ KernelData b → ¬ KernelStack s.current b → ¬ NewWord s.current b →
      ¬ TssWord S b → q.mem b = s.core.mem b := fun b hd hk hn ht =>
    ((hset b hk hn).trans (Memory.store32_of_not_inSpan _ _ ht)).trans (hp b hd hk)
  have hesp0 : q.mem.load32 (S.tss + 4) = getKstackAddr j := by
    rw [load32_tssWord_congr fun b hb => hset b (fun h => hC.tss b hb _ h.inPage)
      fun h => hC.tss b hb _ h.inPage]
    refine (Memory.load32_store32_self _ _ _).trans (h.tssEsp_congr hj fun b hb => ?_)
    exact hb.kept hC fun hd hk _ _ => hp b hd hk
  have hsusp := h.suspended.update_some hv fun i b hi hb =>
    Parked.kept hC (hb.imp id .inr) hi (hout b)
  rw [← hW] at hsusp
  -- `j` may be the process itself
  obtain ⟨v, hWj⟩ : ∃ v, W j = some v := by
    by_cases hjc : j = s.current
    · exact ⟨_, by rw [hW, hjc, update_self]⟩
    · obtain ⟨v, hv⟩ := Option.isSome_iff_exists.mp (hj.resolve_left hjc)
      exact ⟨v, by rw [hW, update_of_ne hjc, hv]⟩
  obtain ⟨hesp, hebp, heip⟩ := loaded_switchStacks C.switched s.current j
    (setTssEsp0 S (p.mem.load32 (pcbAddr j + 180)) p)
  rw [← hq] at hesp hebp heip
  have hheld := (hsusp j v hWj).2
  have hkernel := hin.inKernel henter
  exact ⟨v, hsusp, hWj, hesp.trans hheld.esp, hebp.trans hheld.ebp, heip.trans hheld.eip,
    by rw [hq]; exact ⟨hkernel.cs, hkernel.ss, hkernel.ds, hkernel.es⟩,
    h.runs.tabled.congr fun b hb => hC.inTables_kept hb (hout b), hesp0,
    fun i b hb => hb.kept hC (hout b)⟩

/-- A switch by the timer. -/
theorem SwitchInv.tick (hC : Compiled S C KernelData depth ready)
    (h : SwitchInv S C depth ready s) (henter : Enters S .tick s.core e)
    (hto : C.toSwitch j (Way.tick.enter C.retAddr e) p)
    (hj : j = s.current ∨ (s.waiting j).isSome) (hchild : ∀ i, s.parent i ≠ some j)
    (hq : q = pitSwitch S C.switched j p) (hfrom : C.Continued q r) (hret : r.eip = C.retAddr w)
    (hs' : s' = { s with
      core := w.leave S.registers r
      current := j
      waiting := update (update s.waiting s.current
        (some (waitingAt .tick s.core (Way.tick.enter C.retAddr e) p q.mem))) j none }) :
    SwitchInv S C depth ready s' ∧ Resumed s s' (.tick j) := by
  generalize hv₀ : waitingAt .tick s.core (Way.tick.enter C.retAddr e) p q.mem = v₀ at hs'
  generalize hW : update s.waiting s.current (some v₀) = W at hs'
  obtain ⟨v, hsw⟩ := h.switched hC henter hto hj hq (W := W) (by rw [← hW, ← hv₀])
  -- the processor is at the label of `j`, with the stack of `j`
  have hgo := hsw.suspended.resume hsw.next hC hsw.esp hsw.ebp hsw.eip hsw.inKernel hsw.tabled
    hsw.esp0 hfrom hret
  have hback := hgo.back
  have hWj := hsw.next
  have hstart : ∀ i b, StartWord i b → (w.leave S.registers r).mem b = s.core.mem b :=
    fun i b hb => (hgo.start i b hb).trans (hsw.start i b hb)
  subst hs'
  refine ⟨⟨hgo.runs, hgo.room, hgo.esp0, update_self .., fun i hi => ?_, hgo.suspended,
    fun i i' hi => ?_, h.only⟩, fun v' hv' => ?_, fun ha => ?_⟩
  · refine h.tssEsp_congr ?_ (hstart i)
    by_cases hij : i = j
    · exact hij ▸ hj
    · have hi : (update W j none i).isSome := hi.resolve_left hij
      rw [update_of_ne hij, ← hW] at hi
      by_cases hic : i = s.current
      · exact .inl hic
      · rw [update_of_ne hic] at hi
        exact .inr hi
  · obtain ⟨v', hv', hfor⟩ := h.children i i' hi
    have hi' : i' ≠ s.current := h.ne_current (by rw [hv']; rfl)
    have hij : i' ≠ j := by
      rintro rfl
      exact hchild i hi
    refine ⟨v', ?_, hfor.congr (hstart i)⟩
    show update W j none i' = some v'
    rw [update_of_ne hij, ← hW, update_of_ne hi', hv']
  · have hjc : j ≠ s.current := h.ne_current (by rw [hv']; rfl)
    rw [← hW, update_of_ne hjc] at hWj
    obtain rfl := Option.some.inj (hWj.symm.trans hv')
    exact hback
  · obtain rfl := SwitchEvent.tick.inj ha
    rw [← hW, update_self] at hWj
    obtain rfl := Option.some.inj hWj
    rw [← hv₀] at hback
    exact hback

/-- A program is started. -/
theorem SwitchInv.start (hC : Compiled S C KernelData depth ready)
    (h : SwitchInv S C depth ready s) {nested : Bool} (hw : w ≠ .tick)
    (henter : Enters S w s.core e) (hto : C.toStart w (w.enter C.retAddr e) p)
    (hj : j ≠ s.current) (hfree : s.waiting j = none)
    (hstart : C.start j (executeStores S C.retHere (p.esp &&& pcbMask) j nested p) c)
    (hs' : s' = {
      core := c
      current := j
      waiting := update s.waiting s.current
        (some (waitingAt w s.core (w.enter C.retAddr e) p c.mem))
      parent := update s.parent j (if nested then some s.current else none) }) :
    SwitchInv S C depth ready s' := by
  have hfits := hC.fits
  have hroom := h.room
  obtain ⟨k, hin⟩ := hC.toStart _ _ _ hto
  have hused := hin.used
  rw [hin.and_pcbMask henter hroom hfits, executeStores_eq] at hstart
  obtain ⟨hmode, hready, hmem⟩ := hC.start _ _ _ _ _ _ _ hto hin (fun b hb => by
    have hk := hroom.below henter hfits (hb.mono (show k ≤ depth by omega))
    exact mem_executeStores hk.not_words.1 (fun h => page_disjoint hj.symm hk.inPage h.inPage)
      fun h => hC.tss b h _ hk.inPage) hstart
  have hp : ∀ b, ¬ KernelData b → ¬ KernelStack s.current b → p.mem b = s.core.mem b := fun b =>
    hin.mem_eq henter hroom hfits
  -- what is stored after the words of the switch
  have hlast : ∀ b, ¬ KernelData b → ¬ KernelStack s.current b → c.mem b
      = (executeStores S C.retHere (pcbAddr s.current) j nested p).mem b := fun b hd hk =>
    hmem b hd fun hb => hk (hroom.below henter hfits hb)
  have hout : ∀ b, ¬ KernelData b → ¬ KernelStack s.current b → ¬ NewWord s.current b →
      ¬ TssWord S b → ¬ StartWord j b → c.mem b = s.core.mem b := by
    intro b hd hk hn ht ho
    rw [hlast b hd hk, mem_executeStores hn ho ht]
    exact hp b hd hk
  -- the words for the parent are in the block of `j`, which is free
  have hother : ∀ i b, i ≠ s.current → NewWord i b ∨ KernelStack i b →
      c.mem b = s.core.mem b := by
    intro i b hi hb
    have hpark : Parked i b := hb.imp id .inr
    refine hpark.kept hC hi fun hd hk hn ht => hout b hd hk hn ht fun ho => ?_
    by_cases hij : i = j
    · subst hij
      exact hb.elim ho.not_newWord fun h => h.not_words.2 ho
    · exact page_disjoint hij hpark.inPage ho.inPage
  have hold : ∀ i b, i ≠ j → StartWord i b → c.mem b = s.core.mem b := fun i b hij hb =>
    hb.kept hC fun hd hk hn ht => hout b hd hk hn ht
      fun h => page_disjoint hij hb.inPage h.inPage
  have htab : Tabled S c.mem := h.runs.tabled.congr fun b hb => hC.inTables_kept hb
    fun hd hk hn ht => hout b hd hk hn ht fun h => hC.tables b (.inl hb) _ h.inPage
  obtain ⟨hv, hchild⟩ := hin.parks_start hC henter hroom hw hj.symm hready hmem
  have hsusp := h.suspended.update_some hv hother
  obtain ⟨hesp0, htssEsp⟩ := esp0_executeStores hC.tss C.retHere s.current j nested p
  rw [← load32_tssWord_congr fun b hb => hC.tssWord_kept hb (hlast b)] at hesp0
  rw [← load32_startWord_congr (.inr rfl) fun b hb => hlast b (Parked.not_data hC (.inr (.inl hb)))
    fun h => page_disjoint hj hb.inPage h.inPage] at htssEsp
  have hcpl : c.cpl ≠ 0 := by
    rw [hmode.1]
    decide
  subst hs'
  refine ⟨⟨htab, .inl hmode.1, hmode.2.1, hmode.2.2⟩, room_of_esp0 hcpl hesp0 hfits, hesp0, ?_,
    fun i hi => ?_, hsusp, fun i i' hi => ?_, fun i i' k hi hi' => ?_⟩
  · show update s.waiting s.current _ j = none
    rw [update_of_ne hj, hfree]
  · by_cases hij : i = j
    · subst hij
      exact htssEsp
    · refine h.tssEsp_congr ?_ fun b hb => hold i b hij hb
      have hi := hi.resolve_left hij
      by_cases hic : i = s.current
      · exact .inl hic
      · change (update s.waiting s.current _ i).isSome at hi
        rw [update_of_ne hic] at hi
        exact .inr hi
  · by_cases hij : i = j
    · subst hij
      change update s.parent i _ i = some i' at hi
      rw [update_self] at hi
      cases nested with
      | false => exact absurd hi (by simp)
      | true =>
        obtain rfl := Option.some.inj hi
        obtain ⟨hoesp, hoebp, hotss⟩ := hchild rfl
        refine ⟨_, update_self .., hw, hoesp, hoebp, hotss.trans ?_⟩
        exact (load32_tssWord_congr fun b hb => hC.tssWord_kept hb (hp b)).trans h.esp0
    · change update s.parent j _ i = some i' at hi
      rw [update_of_ne hij] at hi
      obtain ⟨v, hv, hfor⟩ := h.children i i' hi
      have hi' : i' ≠ s.current := h.ne_current (by rw [hv]; rfl)
      exact ⟨v, (update_of_ne hi' ..).trans hv, hfor.congr fun b hb => hold i b hij hb⟩
  · -- the process that has the processor has no other child
    have hnone : ∀ i, s.parent i ≠ some s.current := by
      intro i hi
      obtain ⟨v, hv, -⟩ := h.children i s.current hi
      exact h.ne_current (by rw [hv]; rfl) rfl
    have hnew : ∀ x, update s.parent j (if nested then some s.current else none) x = some k →
        x ≠ j ∧ s.parent x = some k ∨ x = j ∧ k = s.current := by
      intro x hx
      by_cases hxj : x = j
      · subst hxj
        rw [update_self] at hx
        cases nested with
        | false => exact absurd hx (by simp)
        | true => exact .inr ⟨rfl, (Option.some.inj hx).symm⟩
      · rw [update_of_ne hxj] at hx
        exact .inl ⟨hxj, hx⟩
    obtain ⟨-, h1⟩ | ⟨h1, h1'⟩ := hnew i hi
    · obtain ⟨-, h2⟩ | ⟨-, rfl⟩ := hnew i' hi'
      · exact h.only i i' k h1 h2
      · exact absurd h1 (hnone i)
    · obtain ⟨-, h2⟩ | ⟨h2, -⟩ := hnew i' hi'
      · subst h1'
        exact absurd h2 (hnone i')
      · exact h1.trans h2.symm

/-- A child halts. -/
theorem SwitchInv.halt (hC : Compiled S C KernelData depth ready)
    (h : SwitchInv S C depth ready s) (hparent : s.parent s.current = some i)
    (hto : C.toHalt s.current s.core p)
    (hfrom : C.fromStart (haltJump S C.retHere (pcbAddr s.current) p) r)
    (hret : r.eip = C.retAddr w)
    (hs' : s' = {
      core := w.leave S.registers r
      current := i
      waiting := update s.waiting i none
      parent := update s.parent s.current none }) :
    SwitchInv S C depth ready s' ∧ Resumed s s' (.halt i) := by
  obtain ⟨hkernel, hmem⟩ := hC.toHalt _ _ _ hto
  obtain ⟨v, hv, hfor⟩ := h.children _ _ hparent
  have hway := hfor.way
  have hstored := Waiting.stored_of_ne hway
  have hlabel := Waiting.label_of_ne C hway
  have hfor' : WaitsFor s.current i v p.mem := hfor.congr fun b hb =>
    hb.kept hC fun hd hk _ _ => hmem b hd hk
  -- `halt` takes from its own block what `__switch_to` takes from that of the next process
  generalize hq : haltJump S C.retHere (pcbAddr s.current) p = q at hfrom
  have hout : ∀ b, ¬ KernelData b → ¬ KernelStack s.current b → ¬ NewWord s.current b →
      ¬ TssWord S b → q.mem b = s.core.mem b := by
    intro b hd hk _ ht
    rw [← hq, ← hmem b hd hk]
    exact Memory.store32_of_not_inSpan _ _ ht
  have hqesp : q.esp = v.stored := by
    rw [hstored, ← hfor'.esp, ← hq]
    show (setTssEsp0 S _ p).mem.load32 (pcbAddr s.current + 140) = _
    exact load32_block_tss hC.tss _ (by decide)
  have hqebp : q.reg .ebp = v.ebp := by
    rw [← hfor'.ebp, ← hq]
    show update p.reg .ebp ((setTssEsp0 S _ p).mem.load32 (pcbAddr s.current + 152)) .ebp = _
    rw [update_self]
    exact load32_block_tss hC.tss _ (by decide)
  have hqeip : q.eip = C.retHere := by rw [← hq]; rfl
  have hesp0 : q.mem.load32 (S.tss + 4) = getKstackAddr i := by
    rw [← hfor'.tssEsp, ← hq]
    exact Memory.load32_store32_self _ _ _
  have hstart : ∀ j b, StartWord j b → q.mem b = s.core.mem b := fun j b hb => hb.kept hC (hout b)
  have hsusp : Suspended S C depth ready s.waiting q.mem := by
    refine h.suspended.congr fun j b hj hb => ?_
    have hpark : Parked j b := hb.imp id .inr
    exact hpark.kept hC (h.ne_current hj) (hout b)
  have hgo := hsusp.resume hv hC hqesp hqebp (hqeip.trans hlabel.symm)
    (by rw [← hq]; exact ⟨hkernel.cs, hkernel.ss, hkernel.ds, hkernel.es⟩)
    (h.runs.tabled.congr fun b hb => hC.inTables_kept hb (hout b)) hesp0 (.inr ⟨hqeip, hfrom⟩) hret
  subst hs'
  refine ⟨⟨hgo.runs, hgo.room, hgo.esp0, update_self .., fun j hj => ?_, hgo.suspended,
    fun j i' hj => ?_, fun j j' k hj hj' => ?_⟩, fun v' hv' => ?_, fun ha => absurd ha (by simp)⟩
  · refine h.tssEsp_congr (.inr ?_) fun b hb => (hgo.start j b hb).trans (hstart j b hb)
    by_cases hji : j = i
    · rw [hji, hv]
      rfl
    · have hj := hj.resolve_left hji
      change (update s.waiting i none j).isSome at hj
      rwa [update_of_ne hji] at hj
  · change update s.parent s.current none j = some i' at hj
    have hjc : j ≠ s.current := by
      rintro rfl
      rw [update_self] at hj
      exact absurd hj (by simp)
    rw [update_of_ne hjc] at hj
    obtain ⟨v', hv', hfor'⟩ := h.children j i' hj
    -- the parent waited for this child only
    have hi' : i' ≠ i := by
      rintro rfl
      exact hjc (h.only _ _ _ hj hparent)
    exact ⟨v', (update_of_ne hi' ..).trans hv',
      hfor'.congr fun b hb => (hgo.start j b hb).trans (hstart j b hb)⟩
  · have hold : ∀ x, update s.parent s.current none x = some k → s.parent x = some k := by
      intro x hx
      by_cases hxc : x = s.current
      · subst hxc
        rw [update_self] at hx
        exact absurd hx (by simp)
      · rwa [update_of_ne hxc] at hx
    exact h.only _ _ _ (hold j hj) (hold j' hj')
  · obtain rfl := Option.some.inj (hv.symm.trans hv')
    exact hgo.back

/-- A program that `execute` has started, on a stack to which nothing returns. -/
theorem Compiled.launched (hC : Compiled S C KernelData depth ready) (htab : Tabled S p.mem)
    (hesp : InSpan p.esp (pcbAddr i) 8192)
    (hstart : C.restart i j (executeStores S C.retHere (p.esp &&& pcbMask) j false p) c) :
    Runs S .tick c ∧ Room S depth j c ∧ c.mem.load32 (S.tss + 4) = getKstackAddr j ∧
      c.mem.load32 (pcbAddr j + 180) = getKstackAddr j ∧
      ∀ b, ¬ KernelData b → ¬ KernelStack i b → ¬ NewWord i b → ¬ TssWord S b → ¬ StartWord j b →
        c.mem b = p.mem b := by
  rw [and_pcbMask hesp] at hstart
  obtain ⟨⟨hcpl, hds, hes⟩, hlast⟩ := hC.restart _ _ _ _ hstart
  have hout : ∀ b, ¬ KernelData b → ¬ KernelStack i b → ¬ NewWord i b → ¬ TssWord S b →
      ¬ StartWord j b → c.mem b = p.mem b := fun b hd hk hn ht ho =>
    (hlast b hd hk).trans (mem_executeStores hn ho ht)
  have htab' : Tabled S c.mem := htab.congr fun b hb => hC.inTables_kept hb
    fun hd hk hn ht => hout b hd hk hn ht fun h => hC.tables b (.inl hb) _ h.inPage
  obtain ⟨hesp0, htssEsp⟩ := esp0_executeStores hC.tss C.retHere i j false p
  rw [← load32_tssWord_congr fun b hb => hC.tssWord_kept hb (hlast b)] at hesp0
  have hword : ∀ b, StartWord j b →
      c.mem b = (executeStores S C.retHere (pcbAddr i) j false p).mem b := fun b hb =>
    hb.kept hC fun hd hk _ _ => hlast b hd hk
  rw [← load32_startWord_congr (.inr rfl) hword] at htssEsp
  have hcpl' : c.cpl ≠ 0 := by
    rw [hcpl]
    decide
  exact ⟨⟨htab', .inl hcpl, hds, hes⟩, room_of_esp0 hcpl' hesp0 hC.fits, hesp0, htssEsp, hout⟩

/-- A program without a parent is started again. -/
theorem SwitchInv.restart (hC : Compiled S C KernelData depth ready)
    (h : SwitchInv S C depth ready s) (hparent : s.parent s.current = none)
    (hj : j = s.current ∨ s.waiting j = none) (hto : C.toRestart s.current s.core p)
    (hq : q = setTssEsp0 S (p.mem.load32 (pcbAddr s.current + 164)) p)
    (hstart : C.restart s.current j (executeStores S C.retHere (q.esp &&& pcbMask) j false q) c) :
    SwitchInv S C depth ready
      { s with core := c, current := j, parent := update s.parent j none } := by
  obtain ⟨hesp, hp⟩ := hC.toRestart _ _ _ hto
  have hqp : ∀ b, ¬ KernelData b → ¬ KernelStack s.current b → ¬ TssWord S b →
      q.mem b = s.core.mem b := by
    intro b hd hk ht
    rw [hq, ← hp b hd hk]
    exact Memory.store32_of_not_inSpan _ _ ht
  have htab : Tabled S q.mem := h.runs.tabled.congr fun b hb =>
    hC.inTables_kept hb fun hd hk _ ht => hqp b hd hk ht
  have hqesp : InSpan q.esp (pcbAddr s.current) 8192 := by
    rw [hq]
    exact hesp
  obtain ⟨hruns, hroom, hesp0, htssEsp, hmem⟩ := hC.launched htab hqesp hstart
  have hfree : s.waiting j = none := by
    obtain rfl | hj := hj
    · exact h.current
    · exact hj
  -- the stores go to the kernel, to the process that ends and to the one that starts
  have hout : ∀ b, ¬ KernelData b → ¬ KernelStack s.current b → ¬ NewWord s.current b →
      ¬ TssWord S b → ¬ StartWord j b → c.mem b = s.core.mem b := fun b hd hk hn ht ho =>
    (hmem b hd hk hn ht ho).trans (hqp b hd hk ht)
  have hother : ∀ i b, i ≠ s.current → i ≠ j → Parked i b → c.mem b = s.core.mem b :=
    fun i b hi hij hb => hb.kept hC hi fun hd hk hn ht => hout b hd hk hn ht
      fun h => page_disjoint hij hb.inPage h.inPage
  have hsub : ∀ x k, update s.parent j none x = some k → x ≠ j ∧ s.parent x = some k := by
    intro x k hx
    by_cases hxj : x = j
    · subst hxj
      rw [update_self] at hx
      exact absurd hx (by simp)
    · rw [update_of_ne hxj] at hx
      exact ⟨hxj, hx⟩
  -- nobody who waits is in the slot
  have hne : ∀ i, (s.waiting i).isSome → i ≠ j := by
    rintro i hi rfl
    rw [hfree] at hi
    exact absurd hi (by decide)
  refine ⟨hruns, hroom, hesp0, hfree, fun i hi => ?_, h.suspended.congr fun i b hi hb => ?_,
    fun i i' hi => ?_, fun i i' k hi hi' => h.only _ _ _ (hsub _ _ hi).2 (hsub _ _ hi').2⟩
  · by_cases hij : i = j
    · subst hij
      exact htssEsp
    · have hi : (s.waiting i).isSome := hi.resolve_left hij
      exact h.tssEsp_congr (.inr hi) fun b hb =>
        hother i b (h.ne_current hi) hij (.inr (.inl hb))
  · exact hother i b (h.ne_current hi) (hne i hi) (hb.imp id .inr)
  · obtain ⟨hij, hi⟩ := hsub _ _ hi
    have hic : i ≠ s.current := by
      rintro rfl
      rw [hparent] at hi
      exact absurd hi (by simp)
    obtain ⟨v, hv, hfor⟩ := h.children i i' hi
    exact ⟨v, hv, hfor.congr fun b hb => hother i b hic hij (.inr (.inl hb))⟩

/-- **One step.** -/
theorem SwitchInv.step (hC : Compiled S C KernelData depth ready)
    (h : SwitchInv S C depth ready s) (hst : SwitchStep S C KernelData depth s a s') :
    SwitchInv S C depth ready s' ∧ Resumed s s' a := by
  -- nothing goes on that waited
  have hnone : s.waiting s'.current = none → (∀ j, a ≠ .tick j) → Resumed s s' a :=
    fun h ha => ⟨fun v hv => absurd (h.symm.trans hv) (by simp), fun h => absurd h (ha _)⟩
  cases hst with
  | run hruns hmem hroom => exact ⟨h.run hC hruns hmem hroom, hnone h.current (by simp)⟩
  | tick henter hto hj hchild hq hfrom hret =>
    exact h.tick hC henter hto hj hchild hq hfrom hret rfl
  | start hw henter hto hj hfree hstart =>
    exact ⟨h.start hC hw henter hto hj hfree hstart rfl, hnone hfree (by simp)⟩
  | halt hparent hto hfrom hret => exact h.halt hC hparent hto hfrom hret rfl
  | restart hparent hj hto hq hstart =>
    refine ⟨h.restart hC hparent hj hto hq hstart, hnone ?_ (by simp)⟩
    obtain rfl | hj := hj
    · exact h.current
    · exact hj

/-! ## Runs -/

/-- The machine, once the boot code has executed the first program. -/
def switchLTS (S : Symbols) (C : KernelCode) (KernelData : Word → Prop) (depth : ℕ) :
    LTS SwitchState SwitchEvent where
  init s := (∃ i p, Tabled S p.mem ∧ InSpan p.esp (pcbAddr i) 8192 ∧
      C.restart i s.current
        (executeStores S C.retHere (p.esp &&& pcbMask) s.current false p) s.core) ∧
    (∀ i, s.waiting i = none) ∧ ∀ i, s.parent i = none
  step := SwitchStep S C KernelData depth

/-- How the process that has the processor comes to wait. -/
def SwitchEvent.way : SwitchEvent → Option Way
  | tick _ => some .tick
  | start w _ _ => some w
  | _ => none

/-- The process that gave up the processor waits. -/
theorem SwitchStep.waiting (h : SwitchStep S C KernelData depth s a s') (ha : a.way = some w)
    (haway : s'.current ≠ s.current) :
    ∃ v, s'.waiting s.current = some v ∧ v.way = w ∧ v.user = s.core := by
  cases h with
  | run => exact absurd ha (by simp [SwitchEvent.way])
  | tick henter hto hj hchild hq hfrom hret =>
    refine ⟨_, (update_of_ne haway.symm ..).trans (update_self ..), ?_, rfl⟩
    exact Option.some.inj ha
  | start => exact ⟨_, update_self .., Option.some.inj ha, rfl⟩
  | halt => exact absurd ha (by simp [SwitchEvent.way])
  | restart => exact absurd ha (by simp [SwitchEvent.way])

/-- The part of a run in which a process does not have the processor. -/
inductive AwayRun (S : Symbols) (C : KernelCode) (KernelData : Word → Prop) (depth : ℕ)
    (i : Slot) : SwitchState → SwitchState → Prop
  | refl {s : SwitchState} : s.current ≠ i → AwayRun S C KernelData depth i s s
  | step {s s₁ s' : SwitchState} {a : SwitchEvent} : AwayRun S C KernelData depth i s s₁ →
      SwitchStep S C KernelData depth s₁ a s' → s'.current ≠ i →
      AwayRun S C KernelData depth i s s'

theorem AwayRun.reach (h : AwayRun S C KernelData depth i s s')
    (hs : (switchLTS S C KernelData depth).Reach LTS.always s) :
    (switchLTS S C KernelData depth).Reach LTS.always s' := by
  induction h with
  | refl => exact hs
  | step _ hst _ ih => exact .step ih trivial hst

end HieUnix.Interrupt
