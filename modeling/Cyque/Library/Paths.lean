import Cyque.Library.Scanning
import Mathlib.Data.List.DropRight

namespace Cyque.Library.Paths

open Scanning

def components (path : Text) : List Text := (path.splitOn '/').filter (fun w ↦ w ≠ [])

abbrev Absolute (path : Text) : Prop := path.head? = some '/'

/-- The path is the root, or lies below it by its components alone. -/
def Below (root path : Text) : Prop :=
  (Absolute path ↔ Absolute root) ∧
    ∃ extra, components path = components root ++ extra ∧ "..".toList ∉ extra

/-- A text that may be put behind the root. -/
def Harmless (root tail : Text) : Prop :=
  "..".toList ∉ components tail ∧
    (tail = [] ∨ if root = [] then ¬ Absolute tail else root.getLast? = some '/' ∨ Absolute tail)

variable {a b root tail : Text}

@[simp]
theorem components_nil : components [] = [] := by simp [components]

theorem components_slash (a b : Text) : components (a ++ '/' :: b) = components a ++ components b := by
  simp only [components, List.splitOn_append_cons_self, List.filter_append]

theorem components_word (ha : a ≠ []) (h : '/' ∉ a) : components a = [a] := by
  simp [components, List.splitOn_eq_singleton h, ha]

theorem exists_of_absolute (h : Absolute b) : ∃ b', b = '/' :: b' := by
  cases b with
  | nil => cases h
  | cons c b' =>
    cases h
    exact ⟨b', rfl⟩

theorem components_join (h : a = [] ∨ a.getLast? = some '/' ∨ b = [] ∨ Absolute b) :
    components (a ++ b) = components a ++ components b := by
  rcases h with rfl | ha | rfl | hb
  · simp
  · obtain ⟨a', rfl⟩ := List.getLast?_eq_some_iff.mp ha
    rw [List.append_assoc, List.singleton_append, components_slash, components_slash,
      components_nil, List.append_nil]
  · simp
  · obtain ⟨b', rfl⟩ := exists_of_absolute hb
    have hb' : components ('/' :: b') = components b' := by
      simpa using components_slash [] b'
    rw [components_slash, hb']

theorem exists_last_component (ha : a ≠ []) (hl : a.getLast? ≠ some '/') :
    ∃ a₀ c, a = a₀ ++ c ∧ c ≠ [] ∧ '/' ∉ c ∧ (a₀ = [] ∨ a₀.getLast? = some '/') := by
  refine ⟨a.rdropWhile (fun x ↦ x ≠ '/'), a.rtakeWhile (fun x ↦ x ≠ '/'),
    (List.rdropWhile_append_rtakeWhile ..).symm, fun h ↦ ?_, fun h ↦ ?_, ?_⟩
  · have hlast := List.rtakeWhile_eq_nil_iff.mp h ha
    rw [List.getLast?_eq_getLast_of_ne_nil ha] at hl
    simp only [ne_eq, decide_not, Bool.not_eq_true', decide_eq_false_iff_not, not_not] at hlast
    exact hl (congrArg some hlast)
  · simpa using List.mem_rtakeWhile_imp h
  · rcases eq_or_ne (a.rdropWhile (fun x ↦ x ≠ '/')) [] with h | h
    · exact .inl h
    · refine .inr ?_
      rw [List.getLast?_eq_getLast_of_ne_nil h]
      simpa using List.rdropWhile_last_not _ _ h

theorem exists_first_component (hb : b ≠ []) (hf : ¬ Absolute b) :
    ∃ d b₀, b = d ++ b₀ ∧ d ≠ [] ∧ '/' ∉ d ∧ (b₀ = [] ∨ Absolute b₀) := by
  refine ⟨b.takeWhile (fun x ↦ x ≠ '/'), b.dropWhile (fun x ↦ x ≠ '/'),
    List.takeWhile_append_dropWhile.symm, fun h ↦ ?_, fun h ↦ ?_, ?_⟩
  · cases b with
    | nil => exact hb rfl
    | cons x b =>
      simp only [List.takeWhile_cons] at h
      split at h
      · cases h
      · rename_i hx
        exact hf (congrArg some (by simpa using hx))
  · simpa using List.mem_takeWhile_imp h
  · rcases h : b.dropWhile (fun x ↦ x ≠ '/') with - | ⟨x, rest⟩
    · exact .inl rfl
    · have hx := List.head_dropWhile_not (fun x ↦ decide (x ≠ '/')) (l := b) (by rw [h]; simp)
      simp only [h, List.head_cons] at hx
      exact .inr (congrArg some (by simpa using hx))

theorem components_append_ne (ha : a ≠ []) (hl : a.getLast? ≠ some '/') (hb : b ≠ [])
    (hf : ¬ Absolute b) (extra : List Text) : components (a ++ b) ≠ components a ++ extra := by
  obtain ⟨a₀, c, rfl, hc, hcs, ha₀⟩ := exists_last_component ha hl
  obtain ⟨d, b₀, rfl, hd, hds, hb₀⟩ := exists_first_component hb hf
  have hcd : '/' ∉ c ++ d := by simp [hcs, hds]
  have hleft : components (a₀ ++ c ++ (d ++ b₀)) = components a₀ ++ (c ++ d) :: components b₀ := by
    rw [List.append_assoc, ← List.append_assoc c d b₀, components_join (ha₀.imp_right .inl),
      components_join (.inr (.inr hb₀)), components_word (by simp [hc]) hcd, List.singleton_append]
  rw [hleft, components_join (ha₀.imp_right .inl), components_word hc hcs, List.append_assoc]
  intro h
  have h := List.append_cancel_left h
  rw [List.singleton_append, List.cons.injEq] at h
  exact hd (List.append_right_eq_self.mp h.1)

theorem absolute_append (ha : a ≠ []) (b : Text) : Absolute (a ++ b) ↔ Absolute a := by
  simp only [Absolute, List.head?_append_of_ne_nil a ha]

theorem below_append_iff : Below root (root ++ tail) ↔ Harmless root tail := by
  rcases eq_or_ne tail [] with rfl | ht
  · simp [Below, Harmless]
  rcases eq_or_ne root [] with rfl | hr
  · have hroot : ¬ Absolute [] := nofun
    simp [Below, Harmless, ht, hroot, and_comm, -List.head?_nil]
  · simp only [Below, Harmless, absolute_append hr, ht, hr, if_neg, not_false_eq_true, true_and, false_or]
    by_cases hj : root.getLast? = some '/' ∨ Absolute tail
    · rw [components_join (.inr (hj.imp_right .inr))]
      simp [hj]
    · rw [not_or] at hj
      refine iff_of_false ?_ (fun h ↦ h.2.elim hj.1 hj.2)
      rintro ⟨extra, h, -⟩
      exact components_append_ne hr hj.1 ht hj.2 extra h

/-- What stands before a slash of the root is above it, unless only slashes
follow. -/
theorem below_slash_iff (ha : a ≠ []) : Below (a ++ '/' :: b) a ↔ components b = [] := by
  simp only [Below, absolute_append ha, true_and, components_slash]
  constructor
  · rintro ⟨extra, h, -⟩
    rw [List.append_assoc] at h
    exact (List.append_eq_nil_iff.mp (List.self_eq_append_right.mp h)).1
  · intro h
    exact ⟨[], by simp [h]⟩

end Cyque.Library.Paths
