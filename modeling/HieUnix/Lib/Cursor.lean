import Mathlib.Data.List.Basic
import Mathlib.Algebra.BigOperators.Group.List.Basic
import Mathlib.Algebra.Ring.Nat
import Mathlib.Tactic.Common

/-!
# Reading a byte string through a cursor

What a sequential reader is for: requests of any sizes read consecutive pieces of the string,
each as long as the string still allows, so that the pieces put together are a beginning of the
string and the position is how much has been read.
-/

namespace Cursor

variable {β : Type*}

/-- The piece a request of size `n` gets at position `pos`. -/
def read (s : List β) (pos n : ℕ) : List β := (s.drop pos).take n

/-- The pieces a list of requests gets, from position `pos` on. -/
def reads (s : List β) : ℕ → List ℕ → List (List β)
  | _, [] => []
  | pos, n :: ns => read s pos n :: reads s (pos + (read s pos n).length) ns

/-- A piece is as long as the request and the rest of the string allow. -/
@[simp] theorem length_read (s : List β) (pos n : ℕ) :
    (read s pos n).length = min n (s.length - pos) := by
  simp [read]

@[simp] theorem length_reads (s : List β) (pos : ℕ) (ns : List ℕ) :
    (reads s pos ns).length = ns.length := by
  induction ns generalizing pos with
  | nil => rfl
  | cons n ns ih => rw [reads, List.length_cons, ih, List.length_cons]

/-- At the end of the string a request gets nothing. -/
theorem read_of_le {s : List β} {pos : ℕ} (h : s.length ≤ pos) (n : ℕ) : read s pos n = [] := by
  simp [read, List.drop_eq_nil_of_le h]

/-- **The pieces, put together, are the next `ns.sum` elements.** -/
theorem flatten_reads (s : List β) (ns : List ℕ) (pos : ℕ) :
    (reads s pos ns).flatten = read s pos ns.sum := by
  induction ns generalizing pos with
  | nil => simp [reads, read]
  | cons n ns ih =>
    rw [reads, List.flatten_cons, ih, List.sum_cons, length_read]
    rcases Nat.le_total n (s.length - pos) with h | h
    · rw [Nat.min_eq_left h, read, read, read, ← List.drop_drop, ← List.take_add]
    · have hle : s.length ≤ pos + (s.length - pos) := by omega
      rw [Nat.min_eq_right h, read_of_le hle, List.append_nil, read, read,
        List.take_of_length_le (by simpa using h),
        List.take_of_length_le (by simp only [List.length_drop]; omega)]

/-- Where the piece of request `i` starts. -/
theorem getElem?_reads (s : List β) (ns : List ℕ) (pos i : ℕ) :
    (reads s pos ns)[i]? = ns[i]?.map fun n => read s (pos + (ns.take i).sum) n := by
  induction ns generalizing pos i with
  | nil => rfl
  | cons n ns ih =>
    cases i with
    | zero => rfl
    | succ i =>
      rw [reads, List.getElem?_cons_succ, List.getElem?_cons_succ, ih, List.take_succ_cons,
        List.sum_cons, length_read]
      rcases Nat.le_total n (s.length - pos) with h | h
      · rw [Nat.min_eq_left h, Nat.add_assoc]
      · -- the request reaches the end, after which every piece is empty
        rw [Nat.min_eq_right h]
        congr 1
        funext k
        rw [read_of_le (by omega), read_of_le (by omega)]

/-- The position after the requests: as far as they ask, or the end. -/
theorem add_length_flatten_reads {s : List β} {pos : ℕ} (h : pos ≤ s.length) (ns : List ℕ) :
    pos + (reads s pos ns).flatten.length = min (pos + ns.sum) s.length := by
  rw [flatten_reads, length_read]
  omega

end Cursor
