import Cyque.Exchange

namespace Cyque.Placement

open Library.Execution Library.Lookup Library.Scanning Queue Link Workers Messages Transfer Dispatch
open Footprint

/-- Where an outstanding task is. -/
inductive Place
  | ready
  | running (k : Key)
  | finished (k : Key)
  | complete
deriving DecidableEq

@[grind] def workerOf : Option Place → Option Key
  | some (.running k) => some k
  | some (.finished k) => some k
  | _ => none

@[grind] def isRunning : Option Place → Bool
  | some (.running _) => true
  | _ => false

@[grind] def isFinished : Option Place → Bool
  | some (.finished _) => true
  | _ => false

/-- The containers of the master hold the outstanding tasks as `p` places
them, and nothing else. -/
structure Consistent (s : State) (p : Ref → Option Place) : Prop where
  ready : ∀ r, r ∈ s.readyList ↔ p r = some .ready
  ready_nodup : s.readyList.Nodup
  complete : ∀ r, r ∈ s.completeList ↔ p r = some .complete
  complete_nodup : s.completeList.Nodup
  running : ∀ i r, s.runningTasks.lookup i = some r ↔ (s.heap r).taskid = i ∧ isRunning (p r)
  finished : ∀ i r, s.finishedTasks.lookup i = some r ↔ (s.heap r).taskid = i ∧ isFinished (p r)
  mapped : ∀ i k, s.workerTaskMap.lookup i = some k ↔
    ∃ r, (s.heap r).taskid = i ∧ workerOf (p r) = some k
  held : ∀ k w, s.workerTable.lookup k = some w → ∀ i r, w.currentTasks.lookup i = some r ↔
    (s.heap r).taskid = i ∧ workerOf (p r) = some k
  connected : ∀ r k, workerOf (p r) = some k → Connected s k
  available : ∀ k j, s.workersWithAvailableResults.lookup k = some j → j = k ∧ Connected s k
  distinct : ∀ r r', p r ≠ none → p r' ≠ none → (s.heap r).taskid = (s.heap r').taskid → r = r'
  named : ∀ r, p r ≠ none → 0 < (s.heap r).taskid ∧ (s.heap r).taskid < s.nextTaskid
  made : ∀ r, p r ≠ none → r < s.allocated
  unlabeled : ∀ r, (s.heap r).unlabeled

variable {s s' : State} {p : Ref → Option Place} {q : Option Place} {k : Key} {r : Ref}

@[grind →] theorem ne_none_of_workerOf (h : workerOf q = some k) : q ≠ none := by
  rintro rfl
  cases h

@[grind →] theorem ne_none_of_isRunning (h : isRunning q = true) : q ≠ none := by
  rintro rfl
  cases h

@[grind →] theorem ne_none_of_isFinished (h : isFinished q = true) : q ≠ none := by
  rintro rfl
  cases h

theorem Consistent.congr_placed (h : Consistent s p) (hready : s'.readyList.Perm s.readyList)
    (hcomplete : s'.completeList = s.completeList)
    (hrunning : ∀ i, s'.runningTasks.lookup i = s.runningTasks.lookup i)
    (hfinished : ∀ i, s'.finishedTasks.lookup i = s.finishedTasks.lookup i)
    (hmapped : ∀ i, s'.workerTaskMap.lookup i = s.workerTaskMap.lookup i)
    (hheld : ∀ k w', s'.workerTable.lookup k = some w' →
      (∃ w, s.workerTable.lookup k = some w ∧ ∀ i, w'.currentTasks.lookup i = w.currentTasks.lookup i) ∨
        ¬ Connected s k ∧ ∀ i, w'.currentTasks.lookup i = none)
    (hconnected : ∀ r k, workerOf (p r) = some k → Connected s' k)
    (havailable : ∀ k j, s'.workersWithAvailableResults.lookup k = some j → j = k ∧ Connected s' k)
    (hheap : ∀ r, p r ≠ none → (s'.heap r).taskid = (s.heap r).taskid)
    (hunlabeled : ∀ r, (s'.heap r).unlabeled)
    (hnext : s'.nextTaskid = s.nextTaskid) (hmade : s.allocated ≤ s'.allocated) : Consistent s' p where
  ready r := by rw [hready.mem_iff]; exact h.ready r
  ready_nodup := hready.nodup_iff.mpr h.ready_nodup
  complete r := by rw [hcomplete]; exact h.complete r
  complete_nodup := hcomplete ▸ h.complete_nodup
  running i r := by
    have := hheap r
    rw [hrunning, h.running]
    grind
  finished i r := by
    have := hheap r
    rw [hfinished, h.finished]
    grind
  mapped i k := by
    rw [hmapped, h.mapped]
    refine exists_congr (fun r ↦ ?_)
    have := hheap r
    grind
  held k w' hw' i r := by
    rcases hheld k w' hw' with ⟨w, hw, hc⟩ | ⟨hn, hc⟩
    · have := hheap r
      rw [hc, h.held k w hw]
      grind
    · rw [hc]
      exact iff_of_false (by rintro ⟨⟩) (fun hr ↦ hn (h.connected r k hr.2))
  connected := hconnected
  available := havailable
  distinct r r' hr hr' he := h.distinct r r' hr hr' (by rwa [hheap r hr, hheap r' hr'] at he)
  named r hr := by
    rw [hheap r hr, hnext]
    exact h.named r hr
  made r hr := (h.made r hr).trans_le hmade
  unlabeled := hunlabeled

theorem Consistent.congr (h : Consistent s p) (hready : s'.readyList.Perm s.readyList)
    (hcomplete : s'.completeList = s.completeList)
    (hrunning : ∀ i, s'.runningTasks.lookup i = s.runningTasks.lookup i)
    (hfinished : ∀ i, s'.finishedTasks.lookup i = s.finishedTasks.lookup i)
    (hmapped : ∀ i, s'.workerTaskMap.lookup i = s.workerTaskMap.lookup i)
    (hheld : ∀ k w', s'.workerTable.lookup k = some w' →
      (∃ w, s.workerTable.lookup k = some w ∧ ∀ i, w'.currentTasks.lookup i = w.currentTasks.lookup i) ∨
        ¬ Connected s k ∧ ∀ i, w'.currentTasks.lookup i = none)
    (hconnected : ∀ r k, workerOf (p r) = some k → Connected s' k)
    (havailable : ∀ k j, s'.workersWithAvailableResults.lookup k = some j → j = k ∧ Connected s' k)
    (hheap : ∀ r, (s'.heap r).taskid = (s.heap r).taskid ∧ (s'.heap r).unlabeled = (s.heap r).unlabeled)
    (hnext : s'.nextTaskid = s.nextTaskid) (hmade : s.allocated ≤ s'.allocated) : Consistent s' p :=
  h.congr_placed hready hcomplete hrunning hfinished hmapped hheld hconnected havailable
    (fun r _ ↦ (hheap r).1) (fun r ↦ (hheap r).2 ▸ h.unlabeled r) hnext hmade

section At

variable (h : Consistent s p) (hr : p r ≠ none)

include h hr

theorem Consistent.running_at :
    s.runningTasks.lookup (s.heap r).taskid = if isRunning (p r) then some r else none := by
  ext r'
  rw [h.running]
  have := h.distinct r r' hr
  grind

theorem Consistent.finished_at :
    s.finishedTasks.lookup (s.heap r).taskid = if isFinished (p r) then some r else none := by
  ext r'
  rw [h.finished]
  have := h.distinct r r' hr
  grind

theorem Consistent.mapped_at : s.workerTaskMap.lookup (s.heap r).taskid = workerOf (p r) := by
  ext k
  rw [h.mapped]
  constructor
  · rintro ⟨r', he, hk⟩
    rwa [h.distinct r r' hr (ne_none_of_workerOf hk) he.symm]
  · exact fun hk ↦ ⟨r, rfl, hk⟩

theorem Consistent.held_at {w : Worker} (hw : s.workerTable.lookup k = some w) :
    w.currentTasks.lookup (s.heap r).taskid = if workerOf (p r) = some k then some r else none := by
  ext r'
  rw [h.held k w hw]
  have := h.distinct r r' hr
  grind

end At

/-- One task changes its place, and may leave the queue. -/
theorem Consistent.relocate (h : Consistent s p) (hr : p r ≠ none)
    (hready : ∀ r', r' ∈ s'.readyList ↔ if r' = r then q = some .ready else r' ∈ s.readyList)
    (hready' : s'.readyList.Nodup)
    (hcomplete : ∀ r', r' ∈ s'.completeList ↔
      if r' = r then q = some .complete else r' ∈ s.completeList)
    (hcomplete' : s'.completeList.Nodup)
    (hrunning : ∀ i, s'.runningTasks.lookup i =
      if i = (s.heap r).taskid then (if isRunning q then some r else none)
      else s.runningTasks.lookup i)
    (hfinished : ∀ i, s'.finishedTasks.lookup i =
      if i = (s.heap r).taskid then (if isFinished q then some r else none)
      else s.finishedTasks.lookup i)
    (hmapped : ∀ i, s'.workerTaskMap.lookup i =
      if i = (s.heap r).taskid then workerOf q else s.workerTaskMap.lookup i)
    (hheld : ∀ k w', s'.workerTable.lookup k = some w' → ∃ w, s.workerTable.lookup k = some w ∧
      ∀ i, w'.currentTasks.lookup i =
        if i = (s.heap r).taskid then (if workerOf q = some k then some r else none)
        else w.currentTasks.lookup i)
    (hconnected : ∀ k, Connected s k → Connected s' k) (hq : ∀ k, workerOf q = some k → Connected s k)
    (havailable : s'.workersWithAvailableResults = s.workersWithAvailableResults)
    (hheap : ∀ r, (s'.heap r).taskid = (s.heap r).taskid ∧ (s'.heap r).unlabeled = (s.heap r).unlabeled)
    (hnext : s'.nextTaskid = s.nextTaskid) (hmade : s'.allocated = s.allocated) :
    Consistent s' (Function.update p r q) where
  ready r' := by
    have := h.ready r'
    rw [hready, Function.update_apply]
    grind
  ready_nodup := hready'
  complete r' := by
    have := h.complete r'
    rw [hcomplete, Function.update_apply]
    grind
  complete_nodup := hcomplete'
  running i r' := by
    have := h.running i r'
    have := h.running_at hr
    rw [hrunning, (hheap r').1, Function.update_apply]
    grind
  finished i r' := by
    have := h.finished i r'
    have := h.finished_at hr
    rw [hfinished, (hheap r').1, Function.update_apply]
    grind
  mapped i k := by
    simp only [hmapped, (hheap _).1, Function.update_apply]
    by_cases hi : i = (s.heap r).taskid
    · rw [if_pos hi]
      constructor
      · exact fun hk ↦ ⟨r, hi.symm, by rwa [if_pos rfl]⟩
      · rintro ⟨r', he, hk⟩
        have := h.distinct r r' hr
        grind
    · rw [if_neg hi, h.mapped]
      refine exists_congr (fun r' ↦ ?_)
      grind
  held k w' hw' i r' := by
    obtain ⟨w, hw, hc⟩ := hheld k w' hw'
    have := h.held k w hw i r'
    have := h.held_at hr hw
    rw [hc, (hheap r').1, Function.update_apply]
    grind
  connected r' k hk := by
    rw [Function.update_apply] at hk
    split at hk
    · exact hconnected k (hq k hk)
    · exact hconnected k (h.connected r' k hk)
  available k j hj := by
    rw [havailable] at hj
    exact ⟨(h.available k j hj).1, hconnected k (h.available k j hj).2⟩
  distinct r₁ r₂ h₁ h₂ he := by
    rw [(hheap r₁).1, (hheap r₂).1] at he
    rw [Function.update_apply] at h₁ h₂
    have := h.distinct r₁ r₂
    grind
  named r' hr' := by
    rw [(hheap r').1, hnext]
    rw [Function.update_apply] at hr'
    have := h.named r'
    grind
  made r' hr' := by
    rw [hmade]
    rw [Function.update_apply] at hr'
    have := h.made r'
    grind
  unlabeled r' := by
    rw [(hheap r').2]
    exact h.unlabeled r'

theorem exists_of_isRunning (h : isRunning q = true) : ∃ k, q = some (.running k) := by
  match q, h with
  | some (.running k), _ => exact ⟨k, rfl⟩

theorem exists_of_isFinished (h : isFinished q = true) : ∃ k, q = some (.finished k) := by
  match q, h with
  | some (.finished k), _ => exact ⟨k, rfl⟩

theorem isRunning_eq_false (h : workerOf q = none) : isRunning q = false := by
  cases hq : isRunning q with
  | false => rfl
  | true =>
    obtain ⟨k, rfl⟩ := exists_of_isRunning hq
    cases h

theorem isFinished_eq_false (h : workerOf q = none) : isFinished q = false := by
  cases hq : isFinished q with
  | false => rfl
  | true =>
    obtain ⟨k, rfl⟩ := exists_of_isFinished hq
    cases h

theorem Consistent.agree {p' : Ref → Option Place} (h : Consistent s p) (h' : Consistent s p')
    {q : Place} (hr : p r = some q) : p' r = some q := by
  have hworker : ∀ {k j}, workerOf (p r) = some k → workerOf (p' r) = some j → j = k := by
    intro k j hk hj
    have hmap := (h.mapped _ k).mpr ⟨r, rfl, hk⟩
    rw [(h'.mapped _ j).mpr ⟨r, rfl, hj⟩] at hmap
    exact Option.some.inj hmap
  cases q with
  | ready => exact (h'.ready r).mp ((h.ready r).mpr hr)
  | complete => exact (h'.complete r).mp ((h.complete r).mpr hr)
  | running k =>
    have hrun := ((h'.running _ r).mp ((h.running _ r).mpr ⟨rfl, by rw [hr]; rfl⟩)).2
    obtain ⟨j, hj⟩ := exists_of_isRunning hrun
    rw [hj, hworker (k := k) (j := j) (by rw [hr]; rfl) (by rw [hj]; rfl)]
  | finished k =>
    have hfin := ((h'.finished _ r).mp ((h.finished _ r).mpr ⟨rfl, by rw [hr]; rfl⟩)).2
    obtain ⟨j, hj⟩ := exists_of_isFinished hfin
    rw [hj, hworker (k := k) (j := j) (by rw [hr]; rfl) (by rw [hj]; rfl)]

theorem Consistent.unique {p' : Ref → Option Place} (h : Consistent s p) (h' : Consistent s p')
    (r : Ref) : p r = p' r := by
  ext q
  exact ⟨h.agree h', h'.agree h⟩

end Cyque.Placement
