import Cyque.Library.Execution
import Mathlib.Data.List.Nodup
import Mathlib.Logic.Function.Basic
import Mathlib.Tactic.Common

namespace Cyque.Library.Pointers

open Execution

variable {α : Type}

/-- The cells that are allocated. An address is not given out a second time,
so a pointer to a cell that was freed stays invalid. -/
structure Heap (α : Type) where
  cell : ℕ → Option α
  top : ℕ
  unused : ∀ p, top ≤ p → cell p = none

namespace Heap

def empty (α : Type) : Heap α := ⟨fun _ ↦ none, 0, fun _ _ ↦ rfl⟩

theorem lt_top {s : Heap α} {p : ℕ} {a : α} (h : s.cell p = some a) : p < s.top := by
  by_contra hp
  rw [s.unused p (by omega)] at h
  cases h

def push (s : Heap α) (a : α) : Heap α where
  cell := Function.update s.cell s.top (some a)
  top := s.top + 1
  unused p hp := by
    rw [Function.update_of_ne (by omega)]
    exact s.unused p (by omega)

def put (s : Heap α) (p : ℕ) (c : Option α) (hp : p < s.top) : Heap α where
  cell := Function.update s.cell p c
  top := s.top
  unused q hq := by
    rw [Function.update_of_ne (by omega)]
    exact s.unused q hq

variable {s : Heap α} {p q : ℕ} {a : α} {c : Option α}

@[simp] theorem cell_push_self : (s.push a).cell s.top = some a := Function.update_self _ _ _

theorem cell_push (h : p ≠ s.top) : (s.push a).cell p = s.cell p := Function.update_of_ne h _ _

@[simp] theorem cell_put_self (hp : p < s.top) : (s.put p c hp).cell p = c := Function.update_self _ _ _

theorem cell_put (hp : p < s.top) (h : q ≠ p) : (s.put p c hp).cell q = s.cell q :=
  Function.update_of_ne h _ _

end Heap

def malloc (a : α) : Exec (Heap α) ℕ := fun _ s ↦ .done s.top (s.push a)

def load (p : ℕ) : Exec (Heap α) α := do
  let s ← get
  deref (s.cell p)

def store (p : ℕ) (a : α) : Exec (Heap α) Unit := fun _ s ↦
  match h : s.cell p with
  | some _ => .done () (s.put p (some a) (Heap.lt_top h))
  | none => .fault

def free (p : ℕ) : Exec (Heap α) Unit := fun _ s ↦
  match h : s.cell p with
  | some _ => .done () (s.put p none (Heap.lt_top h))
  | none => .fault

variable {s : Heap α} {p : ℕ} {a b : α} {n : ℕ}

theorem load_done (h : s.cell p = some a) : load p n s = .done a s := by
  rw [load, bind_apply, get_apply]
  dsimp only
  rw [h]
  rfl

theorem load_fault (h : s.cell p = none) : load p n s = .fault := by
  rw [load, bind_apply, get_apply]
  dsimp only
  rw [h]
  rfl

theorem store_done (h : s.cell p = some b) :
    store p a n s = .done () (s.put p (some a) (Heap.lt_top h)) := by
  unfold store
  split
  · rfl
  · rename_i hn
    rw [hn] at h
    cases h

theorem free_done (h : s.cell p = some b) : free p n s = .done () (s.put p none (Heap.lt_top h)) := by
  unfold free
  split
  · rfl
  · rename_i hn
    rw [hn] at h
    cases h

/-- Code that has the cells `A` to itself, and afterwards the cells `A'`,
leaves all others alone and gives back what it has no more. -/
structure Acts (A A' : List ℕ) (s s' : Heap α) : Prop where
  top : s.top ≤ s'.top
  cell : ∀ p, p ∉ A → p ∉ A' → s'.cell p = s.cell p
  fresh : ∀ p ∈ A', p ∈ A ∨ s.top ≤ p
  freed : ∀ p ∈ A, p ∉ A' → s'.cell p = none

namespace Acts

variable {A A' A'' B : List ℕ} {s' s'' : Heap α}

theorem refl (A : List ℕ) (s : Heap α) : Acts A A s s :=
  ⟨Nat.le_refl _, fun _ _ _ ↦ rfl, fun _ hp ↦ .inl hp, fun _ hp hn ↦ absurd hp hn⟩

theorem trans (h : Acts A A' s s') (h' : Acts A' A'' s' s'') : Acts A A'' s s'' := by
  refine ⟨Nat.le_trans h.top h'.top, fun p hp hp'' ↦ ?_, fun p hp ↦ ?_, fun p hp hp'' ↦ ?_⟩
  · by_cases hp' : p ∈ A'
    · rw [h'.freed p hp' hp'']
      exact (s.unused p ((h.fresh p hp').resolve_left hp)).symm
    · rw [h'.cell p hp' hp'', h.cell p hp hp']
  · rcases h'.fresh p hp with hp' | htop
    · exact h.fresh p hp'
    · exact .inr (Nat.le_trans h.top htop)
  · by_cases hp' : p ∈ A'
    · exact h'.freed p hp' hp''
    · rw [h'.cell p hp' hp'', h.freed p hp hp']

theorem frame (h : Acts A A' s s') (hp : p ∉ A) (ht : p < s.top) : s'.cell p = s.cell p := by
  refine h.cell p hp (fun hp' ↦ ?_)
  rcases h.fresh p hp' with hA | htop
  · exact hp hA
  · omega

theorem congr {B' : List ℕ} (h : Acts A A' s s') (hA : ∀ p, p ∈ B ↔ p ∈ A) (hA' : ∀ p, p ∈ B' ↔ p ∈ A') :
    Acts B B' s s' := by
  refine ⟨h.top, fun p hp hp' ↦ ?_, fun p hp ↦ ?_, fun p hp hp' ↦ ?_⟩
  · rw [hA] at hp
    rw [hA'] at hp'
    exact h.cell p hp hp'
  · rw [hA]
    exact h.fresh p ((hA' p).mp hp)
  · rw [hA'] at hp'
    exact h.freed p ((hA p).mp hp) hp'

theorem mono (h : Acts A A' s s') (B : List ℕ) : Acts (A ++ B) (A' ++ B) s s' := by
  refine ⟨h.top, fun p hp hp' ↦ ?_, fun p hp ↦ ?_, fun p hp hp' ↦ ?_⟩
  · rw [List.mem_append, not_or] at hp hp'
    exact h.cell p hp.1 hp'.1
  · rcases List.mem_append.mp hp with hp | hp
    · exact (h.fresh p hp).imp_left (List.mem_append_left _)
    · exact .inl (List.mem_append_right _ hp)
  · rw [List.mem_append, not_or] at hp'
    rcases List.mem_append.mp hp with hp | hp
    · exact h.freed p hp hp'.1
    · exact absurd hp hp'.2

theorem push (s : Heap α) (a : α) (hA : ∀ p, p ∈ A' ↔ p = s.top ∨ p ∈ A) : Acts A A' s (s.push a) := by
  refine ⟨Nat.le_succ _, fun p _ hp ↦ ?_, fun p hp ↦ ?_, fun p hp hn ↦ absurd ((hA p).mpr (.inr hp)) hn⟩
  · exact Heap.cell_push (fun h ↦ hp ((hA p).mpr (.inl h)))
  · rcases (hA p).mp hp with rfl | hp
    · exact .inr (Nat.le_refl _)
    · exact .inl hp

theorem put (hp : p ∈ A) (ht : p < s.top) (c : Option α) : Acts A A s (s.put p c ht) := by
  refine ⟨Nat.le_refl _, fun q hq _ ↦ ?_, fun _ hq ↦ .inl hq, fun _ hq hn ↦ absurd hq hn⟩
  apply Heap.cell_put
  rintro rfl
  exact hq hp

theorem erase (hp : p ∈ A) (ht : p < s.top) (hA : ∀ q, q ∈ A' ↔ q ∈ A ∧ q ≠ p) :
    Acts A A' s (s.put p none ht) := by
  refine ⟨Nat.le_refl _, fun q hq _ ↦ ?_, fun q hq ↦ .inl ((hA q).mp hq).1, fun q hq hn ↦ ?_⟩
  · apply Heap.cell_put
    rintro rfl
    exact hq hp
  · by_cases hqp : q = p
    · subst hqp
      exact Heap.cell_put_self ht
    · exact absurd ((hA q).mpr ⟨hq, hqp⟩) hn

end Acts

structure Node (α : Type) where
  item : α
  next : Option ℕ

/-- The cells on the way from one pointer to another, with their addresses. -/
def Segment (s : Heap (Node α)) : Option ℕ → List (ℕ × α) → Option ℕ → Prop
  | e, [], e' => e = e'
  | e, (p, a) :: as, e' => e = some p ∧ ∃ q, s.cell p = some ⟨a, q⟩ ∧ Segment s q as e'

/-- The list that starts at a pointer. -/
abbrev Chain (s : Heap (Node α)) (e : Option ℕ) (as : List (ℕ × α)) : Prop := Segment s e as none

def addresses (as : List (ℕ × α)) : List ℕ := as.map Prod.fst

@[simp] theorem addresses_nil : addresses ([] : List (ℕ × α)) = [] := rfl

@[simp] theorem addresses_cons (x : ℕ × α) (as : List (ℕ × α)) : addresses (x :: as) = x.1 :: addresses as := rfl

@[simp] theorem addresses_append (as bs : List (ℕ × α)) : addresses (as ++ bs) = addresses as ++ addresses bs :=
  List.map_append

namespace Segment

variable {s s' : Heap (Node α)} {e e' : Option ℕ} {p : ℕ} {a : α} {as bs : List (ℕ × α)}

theorem congr (h : Segment s e as e') (hs : ∀ p ∈ addresses as, s'.cell p = s.cell p) :
    Segment s' e as e' := by
  induction as generalizing e with
  | nil => exact h
  | cons x as ih =>
    obtain ⟨he, q, hq, hc⟩ := h
    rw [addresses_cons] at hs
    refine ⟨he, q, (hs _ List.mem_cons_self).trans hq, ih hc (fun p hp ↦ ?_)⟩
    exact hs p (List.mem_cons_of_mem _ hp)

theorem append : Segment s e (as ++ bs) e' ↔ ∃ m, Segment s e as m ∧ Segment s m bs e' := by
  induction as generalizing e with
  | nil =>
    constructor
    · exact fun h ↦ ⟨e, rfl, h⟩
    · rintro ⟨m, rfl, h⟩
      exact h
  | cons x as ih =>
    constructor
    · rintro ⟨he, q, hq, h⟩
      obtain ⟨m, h₁, h₂⟩ := ih.mp h
      exact ⟨m, ⟨he, q, hq, h₁⟩, h₂⟩
    · rintro ⟨m, ⟨he, q, hq, h₁⟩, h₂⟩
      exact ⟨he, q, hq, ih.mpr ⟨m, h₁, h₂⟩⟩

theorem cell (h : Segment s e as e') {x : ℕ × α} (hx : x ∈ as) : ∃ q, s.cell x.1 = some ⟨x.2, q⟩ := by
  obtain ⟨as₁, as₂, rfl⟩ := List.append_of_mem hx
  obtain ⟨m, -, -, q, hq, -⟩ := append.mp h
  exact ⟨q, hq⟩

theorem lt_top (h : Segment s e as e') (hp : p ∈ addresses as) : p < s.top := by
  obtain ⟨x, hx, rfl⟩ := List.mem_map.mp hp
  obtain ⟨q, hq⟩ := h.cell hx
  exact Heap.lt_top hq

theorem frame {A A' : List ℕ} (h : Segment s e as e') (hs : Acts A A' s s')
    (hA : ∀ p ∈ addresses as, p ∉ A) : Segment s' e as e' :=
  h.congr (fun p hp ↦ hs.frame (hA p hp) (h.lt_top hp))

theorem map (g : ℕ × α → α) (h : Segment s e as e')
    (hs : ∀ x ∈ as, ∀ q, s.cell x.1 = some ⟨x.2, q⟩ → s'.cell x.1 = some ⟨g x, q⟩) :
    Segment s' e (as.map (fun x ↦ (x.1, g x))) e' := by
  induction as generalizing e with
  | nil => exact h
  | cons x as ih =>
    obtain ⟨he, q, hq, hc⟩ := h
    exact ⟨he, q, hs x List.mem_cons_self q hq, ih hc (fun y hy ↦ hs y (List.mem_cons_of_mem _ hy))⟩

theorem push (h : Chain s e as) : Chain (s.push ⟨a, e⟩) (some s.top) ((s.top, a) :: as) := by
  refine ⟨rfl, e, Heap.cell_push_self, h.congr (fun p hp ↦ Heap.cell_push ?_)⟩
  have := h.lt_top hp
  omega

/-- Take a cell out that is not the first one: the one before it is linked to
the one after it. -/
theorem unlink {f : ℕ} {b : α} {q : Option ℕ} {cs : List (ℕ × α)}
    (h : Chain s e (as ++ (f, b) :: (p, a) :: cs))
    (hn : (addresses (as ++ (f, b) :: (p, a) :: cs)).Nodup) (hp : s.cell p = some ⟨a, q⟩) :
    ∃ hf hp', Chain ((s.put f (some ⟨b, q⟩) hf).put p none hp') e (as ++ (f, b) :: cs) := by
  obtain ⟨m, has, rfl, _, hfc, rfl, q', hq', hcs⟩ := append.mp h
  rw [hp] at hq'
  cases hq'
  simp only [addresses_append, addresses_cons, List.nodup_append, List.nodup_cons, List.mem_cons,
    not_or] at hn
  obtain ⟨-, ⟨⟨hfp, hf⟩, hpc, -⟩, hd⟩ := hn
  have hft := Heap.lt_top hfc
  have hpt := Heap.lt_top hp
  have hsame : ∀ r, r ≠ f → r ≠ p → ((s.put f (some ⟨b, q⟩) hft).put p none hpt).cell r = s.cell r := by
    intro r hrf hrp
    exact (Heap.cell_put (s := s.put f (some ⟨b, q⟩) hft) hpt hrp).trans (Heap.cell_put hft hrf)
  refine ⟨hft, hpt, append.mpr ⟨some f, has.congr (fun r hr ↦ ?_), rfl, q, ?_, hcs.congr (fun r hr ↦ ?_)⟩⟩
  · exact hsame r (hd r hr f (.inl rfl)) (hd r hr p (.inr (.inl rfl)))
  · exact (Heap.cell_put (s := s.put f (some ⟨b, q⟩) hft) hpt hfp).trans (Heap.cell_put_self hft)
  · refine hsame r ?_ ?_
    · rintro rfl
      exact hf hr
    · rintro rfl
      exact hpc hr

end Segment

end Cyque.Library.Pointers
