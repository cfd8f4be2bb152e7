import Mathlib.Data.Int.Notation
import Mathlib.Tactic.Common

namespace Cyque.Library.Memory

/-- A block of memory and the writes through its address, the last one first.
An offset need not lie inside the block. -/
structure Buffer (α : Type) where
  size : ℕ
  writes : List (ℤ × α)
deriving DecidableEq

/-- The argument is converted to an unsigned number. One that was negative
asks for more than there can be. -/
def malloc (α : Type) (size : ℤ) : Option (Buffer α) :=
  if size < 0 then none else some ⟨size.toNat, []⟩

namespace Buffer

variable {α : Type} {b : Buffer α} {i j : ℤ} {a : α}

def put (b : Buffer α) (i : ℤ) (a : α) : Buffer α := { b with writes := (i, a) :: b.writes }

def copy (b : Buffer α) (i : ℤ) : List α → Buffer α
  | [] => b
  | a :: as => (b.put i a).copy (i + 1) as

/-- No write went past an end of the block. -/
def Inside (b : Buffer α) : Prop := ∀ p ∈ b.writes, 0 ≤ p.1 ∧ p.1 < b.size

def read (b : Buffer α) (i : ℤ) : Option α := b.writes.lookup i

/-- The given values are found from an offset on. -/
def HasAt (b : Buffer α) (i : ℤ) (as : List α) : Prop := ∀ j < as.length, b.read (i + j) = as[j]?

theorem inside_nil (n : ℕ) : (⟨n, []⟩ : Buffer α).Inside := by
  intro p hp
  cases hp

@[simp] theorem inside_put : (b.put i a).Inside ↔ b.Inside ∧ 0 ≤ i ∧ i < b.size := by
  simp only [Inside, put, List.forall_mem_cons]
  exact and_comm

theorem size_copy (as : List α) : (b.copy i as).size = b.size := by
  induction as generalizing b i with
  | nil => rfl
  | cons a as ih => exact ih

theorem inside_copy (as : List α) :
    (b.copy i as).Inside ↔ b.Inside ∧ (as = [] ∨ 0 ≤ i ∧ i + as.length ≤ b.size) := by
  induction as generalizing b i with
  | nil => simp [copy]
  | cons a as ih =>
    rw [copy, ih, inside_put]
    have hsize : (b.put i a).size = b.size := rfl
    simp only [hsize, List.length_cons, reduceCtorEq, false_or, and_assoc]
    refine and_congr_right (fun _ ↦ ?_)
    rw [← List.length_eq_zero_iff]
    omega

theorem read_put : (b.put i a).read j = if j = i then some a else b.read j := by
  rw [read, put, List.lookup_cons]
  split
  · rename_i h
    rw [if_pos (eq_of_beq h)]
  · rename_i h
    rw [if_neg (fun he ↦ by simp [he] at h)]
    rfl

theorem read_copy (as : List α) :
    (b.copy i as).read j = if i ≤ j ∧ j < i + as.length then as[(j - i).toNat]? else b.read j := by
  induction as generalizing b i with
  | nil => rw [copy, if_neg (by simp only [List.length_nil]; omega)]
  | cons a as ih =>
    rw [copy, ih, read_put, List.length_cons]
    by_cases hj : j = i
    · subst hj
      rw [if_neg (by omega), if_pos rfl, if_pos (by omega), Int.sub_self]
      rfl
    · rw [if_neg hj]
      by_cases hin : i + 1 ≤ j ∧ j < i + 1 + as.length
      · rw [if_pos hin, if_pos (by omega)]
        have hnext : (j - i).toNat = (j - (i + 1)).toNat + 1 := by omega
        rw [hnext, List.getElem?_cons_succ]
      · rw [if_neg hin, if_neg (by omega)]

theorem copy_append (as cs : List α) : b.copy i (as ++ cs) = (b.copy i as).copy (i + as.length) cs := by
  induction as generalizing b i with
  | nil => simp [copy]
  | cons a as ih =>
    have hi : i + 1 + as.length = i + (a :: as).length := by
      rw [List.length_cons]
      omega
    rw [List.cons_append, copy, ih, hi, copy]

theorem hasAt_copy (as : List α) : (b.copy i as).HasAt i as := by
  intro j hj
  rw [read_copy, if_pos (by omega)]
  congr 1
  omega

namespace HasAt

variable {as cs : List α}

theorem copy (h : b.HasAt i as) {k : ℤ} (hk : i + as.length ≤ k) (cs : List α) : (b.copy k cs).HasAt i as := by
  intro j hj
  rw [read_copy, if_neg (by omega)]
  exact h j hj

theorem take (h : b.HasAt i as) (n : ℕ) : b.HasAt i (as.take n) := by
  intro j hj
  rw [List.length_take] at hj
  rw [h j (by omega), List.getElem?_take_of_lt (by omega)]

theorem append (h : b.HasAt i as) (h' : b.HasAt (i + as.length) cs) : b.HasAt i (as ++ cs) := by
  intro j hj
  rw [List.length_append] at hj
  by_cases hlt : j < as.length
  · rw [List.getElem?_append_left hlt]
    exact h j hlt
  · rw [List.getElem?_append_right (by omega), ← h' (j - as.length) (by omega)]
    congr 1
    omega

end HasAt

theorem hasAt_put_copy (as : List α) : ((b.copy 0 as).put as.length a).HasAt 0 (as ++ [a]) := by
  have h : b.copy 0 (as ++ [a]) = (b.copy 0 as).put as.length a := by
    rw [copy_append, Int.zero_add]
    rfl
  rw [← h]
  exact hasAt_copy _

theorem hasAt_put_copy_copy (as cs : List α) (h : cs.length ≤ as.length) :
    (((b.copy 0 as).copy (as.length - cs.length) cs).put as.length a).HasAt 0
      (as.take (as.length - cs.length) ++ cs ++ [a]) := by
  have hlen : ((as.take (as.length - cs.length)).length : ℤ) = as.length - cs.length := by
    rw [List.length_take]
    omega
  have hend : (b.copy 0 as).copy (as.length - cs.length) (cs ++ [a]) =
      ((b.copy 0 as).copy (as.length - cs.length) cs).put as.length a := by
    rw [copy_append, Int.sub_add_cancel]
    rfl
  rw [← hend, List.append_assoc]
  refine .append ((hasAt_copy as).take _ |>.copy (by omega) _) ?_
  rw [Int.zero_add, hlen]
  exact hasAt_copy _

end Buffer

end Cyque.Library.Memory
