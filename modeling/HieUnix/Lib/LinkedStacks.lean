import Mathlib.Logic.Relation
import Mathlib.Logic.Function.Basic
import Mathlib.Data.List.Nodup

/-!
# Stacks linked through one pointer field

A set of nodes carries one pointer each (`next`), and each owner `t` has a head pointer
`head t`. When following the pointers from every head ends, the nodes form one stack per
owner. This file has the two operations such a structure lives by, pushing a fresh node on one
stack and taking the top off one, and what they are for: every node of a stack is reached from
exactly one head, and no node is reached from itself.

`Chain next p l` says that following `next` from the pointer `p` visits the nodes of `l` in
order and then ends.
-/

namespace LinkedStacks

open Relation Function

variable {α τ : Type*} {next next' : α → Option α}

/-! ## One chain -/

/-- Following `next` from `p` visits `l` and ends. -/
inductive Chain (next : α → Option α) : Option α → List α → Prop
  | nil : Chain next none []
  | cons {a : α} {l : List α} : Chain next (next a) l → Chain next (some a) (a :: l)

/-- `b` is the node that `a` points to. -/
def Link (next : α → Option α) (a b : α) : Prop := next a = some b

/-- `a` is met when following `next` from the pointer `p`. -/
def Reaches (next : α → Option α) (p : Option α) (a : α) : Prop :=
  ∃ b, p = some b ∧ ReflTransGen (Link next) b a

namespace Chain

variable {p : Option α} {l l' : List α} {a : α}

@[simp] theorem none_iff : Chain next none l ↔ l = [] :=
  ⟨fun h => by cases h; rfl, fun h => h ▸ .nil⟩

theorem some_iff : Chain next (some a) l ↔ ∃ l', l = a :: l' ∧ Chain next (next a) l' :=
  ⟨fun h => by cases h with | cons h => exact ⟨_, rfl, h⟩, fun ⟨_, hl, h⟩ => hl ▸ .cons h⟩

/-- The top of a chain is where the pointer points. -/
theorem head_eq (h : Chain next p (a :: l)) : p = some a ∧ Chain next (next a) l := by
  cases h with
  | cons h => exact ⟨rfl, h⟩

/-- A pointer has one chain. -/
theorem functional (h : Chain next p l) (h' : Chain next p l') : l = l' := by
  induction h generalizing l' with
  | nil => exact (none_iff.mp h').symm
  | cons _ ih =>
    obtain ⟨l'', rfl, h''⟩ := some_iff.mp h'
    rw [ih h'']

/-- The rest of a chain from any of its nodes is the chain of that node. -/
theorem suffix {l₁ l₂ : List α} (h : Chain next p (l₁ ++ a :: l₂)) :
    Chain next (some a) (a :: l₂) := by
  induction l₁ generalizing p with
  | nil =>
    obtain ⟨rfl, -⟩ := h.head_eq
    exact h
  | cons b l₁ ih => exact ih h.head_eq.2

/-- A chain visits no node twice: the chain from the second visit would be the chain from the
first, and longer than itself. -/
theorem nodup (h : Chain next p l) : l.Nodup := by
  induction h with
  | nil => exact List.nodup_nil
  | @cons a l h ih =>
    refine List.nodup_cons.mpr ⟨fun hmem => ?_, ih⟩
    obtain ⟨l₁, l₂, rfl⟩ := List.append_of_mem hmem
    have heq := h.suffix.functional (.cons h)
    have hlen := congrArg List.length heq
    simp only [List.length_cons, List.length_append] at hlen
    omega

/-- Only the pointers of the visited nodes matter. -/
theorem congr (h : Chain next p l) (hsame : ∀ a ∈ l, next' a = next a) : Chain next' p l := by
  induction h with
  | nil => exact .nil
  | @cons a l _ ih =>
    refine .cons ?_
    rw [hsame a List.mem_cons_self]
    exact ih fun b hb => hsame b (List.mem_cons_of_mem _ hb)

/-- A visited node points to a visited node or nowhere. -/
theorem mem_of_link (h : Chain next p l) {b : α} (ha : a ∈ l) (hab : next a = some b) :
    b ∈ l := by
  obtain ⟨l₁, l₂, rfl⟩ := List.append_of_mem ha
  obtain ⟨-, h₂⟩ := h.suffix.head_eq
  rw [hab] at h₂
  obtain ⟨l₃, rfl, -⟩ := some_iff.mp h₂
  simp

/-- The visited nodes are those reached from the pointer. -/
theorem mem_iff_reaches (h : Chain next p l) : a ∈ l ↔ Reaches next p a := by
  constructor
  · intro ha
    induction h with
    | nil => cases ha
    | @cons b l h ih =>
      rcases List.mem_cons.mp ha with rfl | ha
      · exact ⟨a, rfl, .refl⟩
      · obtain ⟨c, hc, hca⟩ := ih ha
        exact ⟨b, rfl, .head hc hca⟩
  · rintro ⟨b, rfl, hba⟩
    obtain ⟨l', rfl, -⟩ := some_iff.mp h
    induction hba with
    | refl => exact List.mem_cons_self
    | tail _ hlink ih => exact h.mem_of_link ih hlink

/-- What lies below a node on its chain is reached from it in at least one step. -/
theorem mem_of_transGen {b : α} (h : Chain next (some a) (a :: l))
    (hab : TransGen (Link next) a b) : b ∈ l := by
  obtain ⟨-, h₂⟩ := h.head_eq
  obtain ⟨c, hac, hcb⟩ := TransGen.head'_iff.mp hab
  exact h₂.mem_iff_reaches.mpr ⟨c, hac, hcb⟩

/-- No visited node is reached from itself. -/
theorem acyclic (h : Chain next p l) (ha : a ∈ l) : ¬ TransGen (Link next) a a := by
  intro hcycle
  obtain ⟨l₁, l₂, rfl⟩ := List.append_of_mem ha
  have hmem := h.suffix.mem_of_transGen hcycle
  exact (List.nodup_cons.mp h.suffix.nodup).1 hmem

/-- **Unlink.** The node after `b` leaves the chain when `b` is made to point past it. -/
theorem unlink [DecidableEq α] {b : α} {l₁ l₂ : List α}
    (h : Chain next p (l₁ ++ b :: a :: l₂)) :
    Chain (update next b (next a)) p (l₁ ++ b :: l₂) := by
  induction l₁ generalizing p with
  | nil =>
    obtain ⟨rfl, hb⟩ := h.head_eq
    have hnodup := (List.nodup_cons.mp h.nodup).1
    refine .cons ?_
    rw [update_self]
    refine hb.head_eq.2.congr fun c hc => update_of_ne ?_ _ _
    rintro rfl
    exact hnodup (List.mem_cons_of_mem a hc)
  | cons c l₁ ih =>
    obtain ⟨rfl, hc⟩ := h.head_eq
    have hne : c ≠ b := by
      rintro rfl
      exact (List.nodup_cons.mp h.nodup).1 (List.mem_append_right l₁ List.mem_cons_self)
    refine .cons ?_
    rw [update_of_ne hne]
    exact ih hc

end Chain

/-! ## A stack for each owner -/

/-- The pointers of `head` lead to the stacks `L`, and each node is on its owner's stack. -/
structure Stacks (next : α → Option α) (owner : α → τ) (head : τ → Option α)
    (L : τ → List α) : Prop where
  chain : ∀ t, Chain next (head t) (L t)
  owner : ∀ t, ∀ a ∈ L t, owner a = t

namespace Stacks

variable {owner owner' : α → τ} {head : τ → Option α} {L : τ → List α} {a c : α} {t u : τ}

/-- A head is on top of its stack. -/
theorem cons_of_head (h : Stacks next owner head L) (ha : head t = some a) :
    ∃ l, L t = a :: l ∧ Chain next (next a) l := by
  have hc := h.chain t
  rw [ha] at hc
  exact Chain.some_iff.mp hc

theorem mem_of_head (h : Stacks next owner head L) (ha : head t = some a) : a ∈ L t := by
  obtain ⟨l, hl, -⟩ := h.cons_of_head ha
  rw [hl]
  exact List.mem_cons_self

theorem eq_nil_of_head (h : Stacks next owner head L) (ht : head t = none) : L t = [] := by
  have hc := h.chain t
  rwa [ht, Chain.none_iff] at hc

/-- The stacks are disjoint. -/
theorem eq_of_mem (h : Stacks next owner head L) (ht : a ∈ L t) (hu : a ∈ L u) : t = u :=
  (h.owner t a ht).symm.trans (h.owner u a hu)

/-- A node of a stack is reached from the head of that stack and from no other. -/
theorem reaches_iff (h : Stacks next owner head L) : Reaches next (head t) a ↔ a ∈ L t :=
  (h.chain t).mem_iff_reaches.symm

theorem existsUnique_head (h : Stacks next owner head L) (ha : a ∈ L t) :
    ∃! u, Reaches next (head u) a :=
  ⟨t, h.reaches_iff.mpr ha, fun _ hu => h.eq_of_mem (h.reaches_iff.mp hu) ha⟩

theorem acyclic (h : Stacks next owner head L) (ha : a ∈ L t) :
    ¬ TransGen (Link next) a a :=
  (h.chain t).acyclic ha

/-- Only the pointers and owners of the nodes on the stacks matter. -/
theorem congr (h : Stacks next owner head L)
    (hsame : ∀ t, ∀ a ∈ L t, next' a = next a ∧ owner' a = owner a) :
    Stacks next' owner' head L where
  chain t := (h.chain t).congr fun a ha => (hsame t a ha).1
  owner t a ha := (hsame t a ha).2.trans (h.owner t a ha)

variable [DecidableEq τ]

/-- **Push.** A node on no stack, made to point to the head of `t`, becomes the head. -/
theorem push (h : Stacks next owner head L) (hc : ∀ u, c ∉ L u) (hnext : next' c = head t)
    (howner : owner' c = t)
    (hsame : ∀ u, ∀ a ∈ L u, next' a = next a ∧ owner' a = owner a) :
    Stacks next' owner' (update head t (some c)) (update L t (c :: L t)) where
  chain u := by
    by_cases hu : u = t
    · subst hu
      rw [update_self, update_self]
      refine .cons ?_
      rw [hnext]
      exact (h.chain u).congr fun a ha => (hsame u a ha).1
    · rw [update_of_ne hu, update_of_ne hu]
      exact (h.chain u).congr fun a ha => (hsame u a ha).1
  owner u a ha := by
    by_cases hu : u = t
    · subst hu
      rw [update_self] at ha
      rcases List.mem_cons.mp ha with rfl | ha
      · exact howner
      · exact (hsame u a ha).2.trans (h.owner u a ha)
    · rw [update_of_ne hu] at ha
      exact (hsame u a ha).2.trans (h.owner u a ha)

/-- **Pop.** The head of `t` is set to what the top node points to. -/
theorem pop (h : Stacks next owner head L) {l : List α} (hl : L t = c :: l) :
    Stacks next owner (update head t (next c)) (update L t l) where
  chain u := by
    by_cases hu : u = t
    · subst hu
      rw [update_self, update_self]
      have hc := h.chain u
      rw [hl] at hc
      exact hc.head_eq.2
    · rw [update_of_ne hu, update_of_ne hu]
      exact h.chain u
  owner u a ha := by
    by_cases hu : u = t
    · subst hu
      rw [update_self] at ha
      exact h.owner u a (hl ▸ List.mem_cons_of_mem c ha)
    · rw [update_of_ne hu] at ha
      exact h.owner u a ha

/-- The nodes after a push. -/
theorem exists_mem_push_iff {L : τ → List α} {t : τ} {a c : α} :
    (∃ u, a ∈ update L t (c :: L t) u) ↔ a = c ∨ ∃ u, a ∈ L u := by
  constructor
  · rintro ⟨u, hu⟩
    rcases eq_or_ne u t with rfl | hne
    · rw [update_self] at hu
      exact (List.mem_cons.mp hu).imp_right fun h => ⟨u, h⟩
    · rw [update_of_ne hne] at hu
      exact .inr ⟨u, hu⟩
  · rintro (rfl | ⟨u, hu⟩)
    · exact ⟨t, by rw [update_self]; exact List.mem_cons_self⟩
    · rcases eq_or_ne u t with rfl | hne
      · exact ⟨u, by rw [update_self]; exact List.mem_cons_of_mem _ hu⟩
      · exact ⟨u, by rwa [update_of_ne hne]⟩

/-- The nodes after a pop. -/
theorem exists_mem_pop_iff (h : Stacks next owner head L) {l : List α} (hl : L t = c :: l) :
    (∃ u, a ∈ update L t l u) ↔ a ≠ c ∧ ∃ u, a ∈ L u := by
  have hc : c ∈ L t := hl ▸ List.mem_cons_self
  have hnd := (h.chain t).nodup
  rw [hl, List.nodup_cons] at hnd
  constructor
  · rintro ⟨u, hu⟩
    rcases eq_or_ne u t with rfl | hne
    · rw [update_self] at hu
      exact ⟨fun he => hnd.1 (he ▸ hu), u, hl ▸ List.mem_cons_of_mem _ hu⟩
    · rw [update_of_ne hne] at hu
      exact ⟨fun he => hne (h.eq_of_mem hu (he ▸ hc)), u, hu⟩
  · rintro ⟨hac, u, hu⟩
    rcases eq_or_ne u t with rfl | hne
    · rw [hl] at hu
      exact ⟨u, by rw [update_self]; exact (List.mem_cons.mp hu).resolve_left hac⟩
    · exact ⟨u, by rwa [update_of_ne hne]⟩

end Stacks

end LinkedStacks
