import Mathlib.Logic.Relation
import Mathlib.Data.Nat.Notation
import Mathlib.Order.Interval.Finset.Nat
import Mathlib.Tactic.Common

/-!
# Labelled transition systems

A system is a set of starting states and a labelled step relation. Four rules carry every
proof about runs:

* `Reach.invariant`: what holds at the start and is kept by each allowed step holds in every
  state reached;
* `history`: a system may be given extra state that only records what has happened; a run of
  the system is a run of the recorded system and back, so that a statement about the record is
  a statement about the runs;
* `Simulates.reach`: a relation kept by each step relates every reached state to a reached
  state of the more abstract system;
* `Exec.eventually`: what a fair infinite run works towards with a variant is reached, and
  `Exec.eventually_within` bounds how long it takes.

Reachability is relative to a condition on steps, so that "in every run whose steps all
satisfy `ok`" is `T.Reach ok`.
-/

/-- A labelled transition system. -/
structure LTS (σ α : Type*) where
  init : σ → Prop
  step : σ → α → σ → Prop

namespace LTS

variable {σ α γ τ : Type*}

/-- The states of the runs whose steps all satisfy `ok`. -/
inductive Reach (T : LTS σ α) (ok : σ → α → Prop) : σ → Prop
  | init {s : σ} : T.init s → Reach T ok s
  | step {s s' : σ} {a : α} : Reach T ok s → ok s a → T.step s a s' → Reach T ok s'

/-- The condition every step satisfies. -/
def always (_ : σ) (_ : α) : Prop := True

variable {T : LTS σ α} {ok ok' : σ → α → Prop} {s s' : σ}

/-- **Invariant rule.** -/
theorem Reach.invariant {I : σ → Prop} (hinit : ∀ s, T.init s → I s)
    (hstep : ∀ s a s', I s → ok s a → T.step s a s' → I s') (h : T.Reach ok s) : I s := by
  induction h with
  | init h => exact hinit _ h
  | step _ hok hst ih => exact hstep _ _ _ ih hok hst

/-- A run under a condition is a run under any condition it implies in the states the run
goes through. -/
theorem Reach.mono (himp : ∀ s a, T.Reach ok s → ok s a → ok' s a) (h : T.Reach ok s) :
    T.Reach ok' s := by
  induction h with
  | init h => exact .init h
  | step hs hok hst ih => exact .step ih (himp _ _ hs hok) hst

/-! ## History variables -/

/-- `T` with a record: `start` is its value in the first state, `upd` what a step adds. -/
def history (T : LTS σ α) (start : σ → γ) (upd : σ → α → σ → γ → γ) : LTS (σ × γ) α where
  init p := T.init p.1 ∧ p.2 = start p.1
  step p a p' := T.step p.1 a p'.1 ∧ p'.2 = upd p.1 a p'.1 p.2

variable {start : σ → γ} {upd : σ → α → σ → γ → γ}

/-- Forgetting the record gives a run. -/
theorem Reach.of_history {p : σ × γ}
    (h : (T.history start upd).Reach (fun q a => ok q.1 a) p) : T.Reach ok p.1 := by
  induction h with
  | init h => exact .init h.1
  | step _ hok hst ih => exact .step ih hok hst.1

/-- Every run has a record. -/
theorem Reach.exists_history (h : T.Reach ok s) :
    ∃ g, (T.history start upd).Reach (fun q a => ok q.1 a) (s, g) := by
  induction h with
  | @init s h => exact ⟨start s, .init ⟨h, rfl⟩⟩
  | @step s s' a _ hok hst ih =>
    obtain ⟨g, hg⟩ := ih
    exact ⟨upd s a s' g, .step hg hok ⟨hst, rfl⟩⟩

/-! ## Runs along a list of labels -/

/-- A run along the labels `as`. -/
inductive Run (T : LTS σ α) : σ → List α → σ → Prop
  | nil (s : σ) : Run T s [] s
  | cons {s s' s'' : σ} {a : α} {as : List α} :
      T.step s a s' → Run T s' as s'' → Run T s (a :: as) s''

theorem Run.append {as bs : List α} {s'' : σ} (h : T.Run s as s') (h' : T.Run s' bs s'') :
    T.Run s (as ++ bs) s'' := by
  induction h with
  | nil => exact h'
  | cons hst _ ih => exact .cons hst (ih h')

theorem Reach.run {as : List α} (h : T.Reach always s) (hr : T.Run s as s') :
    T.Reach always s' := by
  induction hr with
  | nil => exact h
  | cons hst _ ih => exact ih (.step h trivial hst)

/-! ## Runs from a given state -/

/-- The system started in the state `s`. -/
def startAt (T : LTS σ α) (s : σ) : LTS σ α where
  init s' := s' = s
  step := T.step

/-- A run that goes on from a reached state. -/
theorem Reach.trans (h : T.Reach ok s) (h' : (T.startAt s).Reach ok s') : T.Reach ok s' := by
  induction h' with
  | init hs => exact hs ▸ h
  | step _ hok hst ih => exact .step ih hok hst

/-! ## Simulation -/

/-- `R` relates the states of `T` to states of a more abstract `U`, and every step of `T` to
a step of `U` under the same label. -/
structure Simulates (T : LTS σ α) (U : LTS τ α) (R : σ → τ → Prop) : Prop where
  init : ∀ s, T.init s → ∃ u, U.init u ∧ R s u
  step : ∀ s a s' u, R s u → T.step s a s' → ∃ u', U.step u a u' ∧ R s' u'

/-- **Simulation rule.** -/
theorem Simulates.reach {U : LTS τ α} {R : σ → τ → Prop} (h : Simulates T U R)
    (hs : T.Reach always s) : ∃ u, U.Reach always u ∧ R s u := by
  induction hs with
  | init hi =>
    obtain ⟨u, hu, hR⟩ := h.init _ hi
    exact ⟨u, .init hu, hR⟩
  | step _ _ hst ih =>
    obtain ⟨u, hu, hR⟩ := ih
    obtain ⟨u', hstep, hR'⟩ := h.step _ _ _ _ hR hst
    exact ⟨u', .step hu trivial hstep, hR'⟩

/-! ## Infinite runs -/

/-- An infinite run whose steps all satisfy `ok`. -/
structure Exec (T : LTS σ α) (ok : σ → α → Prop) where
  state : ℕ → σ
  label : ℕ → α
  init : T.init (state 0)
  ok : ∀ n, ok (state n) (label n)
  step : ∀ n, T.step (state n) (label n) (state (n + 1))

namespace Exec

theorem reach (E : T.Exec ok) (n : ℕ) : T.Reach ok (E.state n) := by
  induction n with
  | zero => exact .init E.init
  | succ n ih => exact .step ih (E.ok n) (E.step n)

variable {P Q : σ → Prop} {v : σ → ℕ}

/-- **Variant rule.** While `Q` is not reached, each step keeps `P` and does not increase `v`,
and the steps `own` decrease it. A run in which such a step is taken again and again while `P`
holds and `Q` does not reaches `Q`. -/
theorem eventually (E : T.Exec ok) (own : σ → α → Prop)
    (hstep : ∀ s a s', T.Reach ok s → ok s a → T.step s a s' → P s → ¬ Q s →
      P s' ∧ v s' ≤ v s ∧ (own s a → v s' < v s))
    (hfair : ∀ n, (∀ n', n ≤ n' → P (E.state n') ∧ ¬ Q (E.state n')) →
      ∃ n', n ≤ n' ∧ own (E.state n') (E.label n'))
    {n : ℕ} (hP : P (E.state n)) : ∃ n', n ≤ n' ∧ Q (E.state n') := by
  refine Classical.byContradiction fun hnever => ?_
  have hnot : ∀ n', n ≤ n' → ¬ Q (E.state n') := fun n' hle hQ => hnever ⟨n', hle, hQ⟩
  have hone := fun n' (hle : n ≤ n') (h : P (E.state n')) =>
    hstep _ _ _ (E.reach n') (E.ok n') (E.step n') h (hnot n' hle)
  have hkeep : ∀ d, P (E.state (n + d)) := by
    intro d
    induction d with
    | zero => exact hP
    | succ d ih => exact (hone (n + d) (Nat.le_add_right n d) ih).1
  have hP' : ∀ n', n ≤ n' → P (E.state n') := fun n' hle => by
    rw [← Nat.add_sub_of_le hle]
    exact hkeep (n' - n)
  have hle : ∀ n₁ d, n ≤ n₁ → v (E.state (n₁ + d)) ≤ v (E.state n₁) := by
    intro n₁ d hn₁
    induction d with
    | zero => exact Nat.le_refl _
    | succ d ih =>
      have hn : n ≤ n₁ + d := Nat.le_trans hn₁ (Nat.le_add_right n₁ d)
      exact Nat.le_trans (hone _ hn (hP' _ hn)).2.1 ih
  -- the variant would decrease for ever
  have hdesc : ∀ b n₁, n ≤ n₁ → v (E.state n₁) < b → False := by
    intro b
    induction b with
    | zero =>
      intro n₁ _ hb
      exact absurd hb (Nat.not_lt_zero _)
    | succ b ih =>
      intro n₁ hn₁ hb
      obtain ⟨n₂, hn₂, hown⟩ := hfair n₁ fun n' h =>
        ⟨hP' n' (Nat.le_trans hn₁ h), hnot n' (Nat.le_trans hn₁ h)⟩
      have hn := Nat.le_trans hn₁ hn₂
      have hlt := (hone n₂ hn (hP' n₂ hn)).2.2 hown
      have hle₂ := hle n₁ (n₂ - n₁) hn₁
      rw [Nat.add_sub_of_le hn₂] at hle₂
      exact ih (n₂ + 1) (by omega) (by omega)
  exact hdesc _ n (Nat.le_refl n) (Nat.lt_succ_self _)

/-- **Bounded variant rule.** The run gets there before the steps `own` have been taken more often
than the variant was large. -/
theorem eventually_within (E : T.Exec ok) (own : σ → α → Prop) [∀ s a, Decidable (own s a)]
    (hstep : ∀ s a s', T.Reach ok s → ok s a → T.step s a s' → P s → ¬ Q s →
      P s' ∧ v s' ≤ v s ∧ (own s a → v s' < v s))
    (hfair : ∀ n, (∀ n', n ≤ n' → P (E.state n') ∧ ¬ Q (E.state n')) →
      ∃ n', n ≤ n' ∧ own (E.state n') (E.label n'))
    {n : ℕ} (hP : P (E.state n)) :
    ∃ n', n ≤ n' ∧ Q (E.state n') ∧
      ((Finset.Ico n n').filter fun j => own (E.state j) (E.label j)).card ≤ v (E.state n) := by
  classical
  have hex := E.eventually own hstep hfair hP
  obtain ⟨hle, hQ⟩ := Nat.find_spec hex
  have hnot : ∀ j, n ≤ j → j < Nat.find hex → ¬ Q (E.state j) := fun j hj hlt hQj =>
    Nat.find_min hex hlt ⟨hj, hQj⟩
  -- up to the first such state, each step of `own` is paid for by the variant
  have hpaid : ∀ d, n + d ≤ Nat.find hex → P (E.state (n + d)) ∧
      ((Finset.Ico n (n + d)).filter fun j => own (E.state j) (E.label j)).card
        + v (E.state (n + d)) ≤ v (E.state n) := by
    intro d
    induction d with
    | zero =>
      intro _
      exact ⟨hP, by simp⟩
    | succ d ih =>
      intro hd
      obtain ⟨hPd, hcard⟩ := ih (by omega)
      obtain ⟨hP', hv, hown⟩ := hstep _ _ _ (E.reach (n + d)) (E.ok (n + d)) (E.step (n + d)) hPd
        (hnot _ (by omega) (by omega))
      refine ⟨hP', ?_⟩
      have hico : Finset.Ico n (n + (d + 1)) = insert (n + d) (Finset.Ico n (n + d)) := by
        ext j
        simp only [Finset.mem_insert, Finset.mem_Ico]
        omega
      rw [hico, Finset.filter_insert]
      show _ + v (E.state (n + d + 1)) ≤ _
      split_ifs with h
      · have hlt := hown h
        have hins := Finset.card_insert_le (n + d)
          ((Finset.Ico n (n + d)).filter fun j => own (E.state j) (E.label j))
        omega
      · omega
  have hlast := (hpaid (Nat.find hex - n) (by omega)).2
  rw [Nat.add_sub_of_le hle] at hlast
  exact ⟨Nat.find hex, hle, hQ, by omega⟩

/-- A step ahead of an infinite run. -/
def cons (E : (T.startAt s').Exec ok) (hinit : T.init s) (hok : ok s a) (hst : T.step s a s') :
    T.Exec ok where
  state
    | 0 => s
    | n + 1 => E.state n
  label
    | 0 => a
    | n + 1 => E.label n
  init := hinit
  ok
    | 0 => hok
    | n + 1 => E.ok n
  step
    | 0 => by
      have h0 : E.state 0 = s' := E.init
      show T.step s a (E.state 0)
      rw [h0]
      exact hst
    | n + 1 => E.step n

end Exec

/-- Where an invariant always allows a step, there is an infinite run of such steps. -/
theorem exists_exec {I : σ → Prop} {Q : α → Prop} (hinit : T.init s) (hI : I s)
    (hstep : ∀ s, I s → ∃ a s', Q a ∧ ok s a ∧ T.step s a s' ∧ I s') :
    ∃ E : T.Exec ok, E.state 0 = s ∧ ∀ n, I (E.state n) ∧ Q (E.label n) := by
  choose label next hlabel hok hnext hkeep using hstep
  let advance : {s // I s} → {s // I s} := fun p => ⟨next p.1 p.2, hkeep p.1 p.2⟩
  refine ⟨⟨fun n => (advance^[n] ⟨s, hI⟩).1, fun n => label _ (advance^[n] ⟨s, hI⟩).2, hinit,
    fun n => hok _ _, fun n => ?_⟩, rfl, fun n => ⟨(advance^[n] ⟨s, hI⟩).2, hlabel _ _⟩⟩
  simp only [Function.iterate_succ_apply']
  exact hnext _ _

end LTS
