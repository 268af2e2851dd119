import HieUnix.Lib.Memory

/-!
# Computations with the addresses they access

A `Traced` computation is a value with the spans of memory that computing it reads and writes.
The accesses are primitives; sequencing puts the spans together, so that a definition in
`do` notation whose only accesses are primitives records each of them. What is proved about the
addresses is proved with `touches_bind`, and `val_bind` forgets the record.
-/

/-- A value, and the spans of addresses that were accessed for it. -/
structure Traced (α : Type*) where
  val : α
  spans : List (Word × ℕ)

namespace Traced

universe u

variable {α β : Type u}

/-- `a` is accessed. -/
def Touches (x : Traced α) (a : Word) : Prop := ∃ s ∈ x.spans, InSpan a s.1 s.2

instance : Monad Traced where
  pure v := ⟨v, []⟩
  bind x f := ⟨(f x.val).val, x.spans ++ (f x.val).spans⟩

/-! ## Accesses -/

/-- A byte read. -/
def load (m : Memory) (a : Word) : Traced Byte := ⟨m a, [(a, 1)]⟩

/-- A word read. -/
def load32 (m : Memory) (a : Word) : Traced Word := ⟨m.load32 a, [(a, 4)]⟩

/-- A byte written. -/
def store (m : Memory) (a : Word) (v : Byte) : Traced Memory := ⟨m.store8 a v, [(a, 1)]⟩

/-- A word written. -/
def store32 (m : Memory) (a v : Word) : Traced Memory := ⟨m.store32 a v, [(a, 4)]⟩

/-- A span set to one byte. -/
def fill (m : Memory) (start : Word) (v : Byte) (len : ℕ) : Traced Memory :=
  ⟨m.fill start v len, [(start, len)]⟩

/-- A span written from its start on. -/
def patch (m : Memory) (start : Word) (len : ℕ) (f : ℕ → Byte) : Traced Memory :=
  ⟨m.patch start 0 len f, [(start, len)]⟩

/-- A span read. -/
def bytes (m : Memory) (start : Word) (len : ℕ) : Traced (List Byte) :=
  ⟨m.bytes start len, [(start, len)]⟩

/-! ## Rules -/

section Rules

variable {x : Traced α} {f : α → Traced β} {m : Memory} {a b start : Word} {v : Byte} {len : ℕ}

@[simp] theorem val_pure (v : α) : (pure v : Traced α).val = v := rfl

@[simp] theorem val_bind : (x >>= f).val = (f x.val).val := rfl

@[simp] theorem not_touches_pure (v : α) : ¬ (pure v : Traced α).Touches a :=
  fun ⟨_, h, _⟩ => absurd h List.not_mem_nil

@[simp] theorem touches_bind : (x >>= f).Touches a ↔ x.Touches a ∨ (f x.val).Touches a := by
  constructor
  · rintro ⟨s, hs, ha⟩
    rcases List.mem_append.mp hs with h | h
    · exact Or.inl ⟨s, h, ha⟩
    · exact Or.inr ⟨s, h, ha⟩
  · rintro (⟨s, hs, ha⟩ | ⟨s, hs, ha⟩)
    · exact ⟨s, List.mem_append_left _ hs, ha⟩
    · exact ⟨s, List.mem_append_right _ hs, ha⟩

@[simp] theorem not_mem_spans_pure (s : Word × ℕ) (v : α) : s ∉ (pure v : Traced α).spans :=
  List.not_mem_nil

@[simp] theorem mem_spans_bind {s : Word × ℕ} :
    s ∈ (x >>= f).spans ↔ s ∈ x.spans ∨ s ∈ (f x.val).spans :=
  List.mem_append

@[simp] theorem mem_spans_load {s : Word × ℕ} : s ∈ (load m b).spans ↔ s = (b, 1) :=
  List.mem_singleton

@[simp] theorem mem_spans_load32 {s : Word × ℕ} : s ∈ (load32 m b).spans ↔ s = (b, 4) :=
  List.mem_singleton

theorem touches_singleton {s : Word × ℕ} {v : α} :
    (⟨v, [s]⟩ : Traced α).Touches a ↔ InSpan a s.1 s.2 := by
  constructor
  · rintro ⟨t, ht, ha⟩
    rwa [List.mem_singleton.mp ht] at ha
  · intro ha
    exact ⟨s, List.mem_singleton_self s, ha⟩

theorem inSpan_one : InSpan a b 1 ↔ a = b := by
  unfold InSpan
  constructor
  · intro h
    bv_omega
  · rintro rfl
    bv_omega

@[simp] theorem val_load : (load m b).val = m b := rfl

@[simp] theorem touches_load : (load m b).Touches a ↔ a = b :=
  touches_singleton.trans inSpan_one

@[simp] theorem val_load32 : (load32 m b).val = m.load32 b := rfl

@[simp] theorem val_store : (store m b v).val = m.store8 b v := rfl

@[simp] theorem touches_store : (store m b v).Touches a ↔ a = b :=
  touches_singleton.trans inSpan_one

@[simp] theorem val_store32 (w : Word) : (store32 m b w).val = m.store32 b w := rfl

@[simp] theorem touches_store32 (w : Word) : (store32 m b w).Touches a ↔ InSpan a b 4 :=
  touches_singleton

@[simp] theorem val_fill : (fill m start v len).val = m.fill start v len := rfl

@[simp] theorem touches_fill : (fill m start v len).Touches a ↔ InSpan a start len :=
  touches_singleton

@[simp] theorem val_patch (f : ℕ → Byte) : (patch m start len f).val = m.patch start 0 len f := rfl

@[simp] theorem touches_patch (f : ℕ → Byte) :
    (patch m start len f).Touches a ↔ InSpan a start len :=
  touches_singleton

@[simp] theorem val_bytes : (bytes m start len).val = m.bytes start len := rfl

@[simp] theorem touches_bytes : (bytes m start len).Touches a ↔ InSpan a start len :=
  touches_singleton

end Rules

end Traced
