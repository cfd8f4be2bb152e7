import Cyque.Polling
import Cyque.Api

namespace Cyque.Turns

open Library.Execution Library.Lookup Library.Scanning Queue Link Files Workers Messages Transfer
open Dispatch Wait Api Footprint Exchange Placement History Steps Conduct Collect Polling Relation

def create (command : Text) (s : State) : State :=
  { s with
    heap := Function.update s.heap s.allocated (workQueueTaskCreate (cString command))
    goHeap := Function.update s.goHeap s.allocated newGoTask
    allocated := s.allocated + 1 }

def withdraw (id : ℤ) (s : State) : State :=
  { s with trace := s.trace ++ [.cancelled id], tasks := Function.update s.tasks id none }

def withdrawAll (s : State) : State :=
  { s with trace := s.trace ++ [.cancelledAll], tasks := fun _ ↦ none }

def clearLists (s : State) : State := { s with readyList := [], completeList := [] }

/-- What happens to the queue in a call. `d` allows for tasks that are
taken from a worker without ceremony. -/
inductive Turn (σ : Scope) (d : Prop) : State → State → Prop
  | step {s s' : State} (h : Step σ s s') : Turn σ d s s'
  | create (s : State) (command : Text) : Turn σ d s (create command s)
  | submit (s : State) (now : ℕ) (r : Ref) (hr : r < s.allocated) (hi : 0 < s.nextTaskid)
      (hl : s.nextTaskid < 2 ^ 31 - 1) (hn : ∃ p, Consistent s p ∧ p r = none) (hc : Reads now s) :
      Turn σ d s (submitTask now r s)
  | handOver (s : State) (r : Ref) (hr : s.completeList.head? = some r) :
      Turn σ d s (handOver (s.heap r).taskid r (s.heap r) (popComplete s))
  | gaveUp (s : State) : Turn σ d s (s.log .gaveUp)
  | release (s : State) (k : Key) (r : Ref) (hr : Holds s k r) : Turn σ d s (release k r s)
  | unready (s : State) (r : Ref) (hr : r ∈ s.readyList) :
      Turn σ d s { s with readyList := s.readyList.erase r }
  | uncomplete (s : State) (r : Ref) (hr : r ∈ s.completeList) :
      Turn σ d s { s with completeList := s.completeList.erase r }
  | withdraw (s : State) (id : ℤ) : Turn σ d s (withdraw id s)
  | clearLists (s : State) : Turn σ d s (clearLists s)
  | kill (s : State) (k : Key) (hk : Connected s k) : Turn σ d s (s.log (.sent k (.kill (-1))))
  | drop (s s' : State) (k : Key) (r : Ref) (hd : d) (hr : Holds s k r)
      (h : ReflTransGen (Quiet k) (dropTask (s.heap r).taskid s) s') :
      Turn σ d s (dropFromWorker k (s.heap r).taskid (s.heap r) s')
  | withdrawAll (s : State) : Turn σ d s (withdrawAll s)

variable {s s' : State} {p : Ref → Option Place} {k : Key} {r : Ref}

theorem consistent_create (h : Consistent s p) (command : Text) :
    Consistent (create command s) p := by
  refine h.congr_placed (.refl _) rfl (fun _ ↦ rfl) (fun _ ↦ rfl) (fun _ ↦ rfl)
    (fun j w hw ↦ .inl ⟨w, hw, fun _ ↦ rfl⟩) h.connected h.available (fun r hr ↦ ?_) (fun r ↦ ?_) rfl
    (Nat.le_succ _)
  · simp [create, Function.update_of_ne (h.made r hr).ne]
  · by_cases he : r = s.allocated
    · subst he
      simp [create, workQueueTaskCreate]
    · simpa [create, Function.update_of_ne he] using h.unlabeled r

theorem consistent_submit (h : Consistent s p) (hr : p r = none) (ha : r < s.allocated)
    (hi : 0 < s.nextTaskid) (now : ℕ) :
    Consistent (submitTask now r s) (Function.update p r (some .ready)) := by
  have hheap : ∀ r', ((submitTask now r s).heap r').taskid =
      if r' = r then s.nextTaskid else (s.heap r').taskid := by
    intro r'
    by_cases he : r' = r
    · subst he
      simp [submitTask, resetTask]
    · simp [submitTask, he]
  have hlt := h.named
  refine ⟨fun r' ↦ ?_, ?_, fun r' ↦ ?_, h.complete_nodup, fun i r' ↦ ?_, fun i r' ↦ ?_, fun i k ↦ ?_,
    fun k w hw i r' ↦ ?_, fun r' k hk ↦ ?_, h.available, fun r₁ r₂ h₁ h₂ he ↦ ?_, fun r' hr' ↦ ?_,
    fun r' hr' ↦ ?_, fun r' ↦ ?_⟩
  · have := h.ready r'
    rw [Function.update_apply]
    simp only [submitTask, List.mem_append, List.mem_singleton]
    grind
  · have := h.ready r
    have := h.ready_nodup
    simp only [submitTask]
    grind
  · have := h.complete r'
    rw [Function.update_apply]
    simp only [submitTask]
    grind
  · have := h.running i r'
    rw [hheap, Function.update_apply]
    simp only [submitTask]
    grind
  · have := h.finished i r'
    rw [hheap, Function.update_apply]
    simp only [submitTask]
    grind
  · have := h.mapped i k
    simp only [hheap, Function.update_apply]
    rw [show (submitTask now r s).workerTaskMap = s.workerTaskMap from rfl, this]
    refine exists_congr (fun r' ↦ ?_)
    grind
  · have := h.held k w hw i r'
    rw [hheap, Function.update_apply]
    grind
  · rw [Function.update_apply] at hk
    have := h.connected r' k
    split at hk
    · cases hk
    · exact this hk
  · rw [hheap, hheap] at he
    rw [Function.update_apply] at h₁ h₂
    have := h.distinct r₁ r₂
    have := hlt r₁
    have := hlt r₂
    grind
  · rw [hheap]
    rw [Function.update_apply] at hr'
    have := hlt r'
    show 0 < _ ∧ _ < s.nextTaskid + 1
    grind
  · rw [Function.update_apply] at hr'
    have := h.made r'
    show r' < s.allocated
    grind
  · by_cases he : r' = r
    · subst he
      simpa [submitTask, resetTask] using h.unlabeled r'
    · simpa [submitTask, he] using h.unlabeled r'

theorem consistent_forget_list (h : Consistent s p) (hr : p r ≠ none) (hw : workerOf (p r) = none)
    (ready complete : List Ref) (trace : List Event) (tasks : ℤ → Option Ref) (goHeap : Ref → GoTask)
    (hready : ready.Nodup ∧ ∀ r', r' ∈ ready ↔ r' ≠ r ∧ r' ∈ s.readyList)
    (hcomplete : complete.Nodup ∧ ∀ r', r' ∈ complete ↔ r' ≠ r ∧ r' ∈ s.completeList) :
    Consistent { s with
      readyList := ready, completeList := complete, trace := trace, tasks := tasks, goHeap := goHeap }
      (Function.update p r none) := by
  refine h.relocate hr (fun r' ↦ ?_) hready.1 (fun r' ↦ ?_) hcomplete.1 (fun i ↦ ?_) (fun i ↦ ?_)
    (fun i ↦ ?_) (fun j w hw' ↦ ⟨w, hw', fun i ↦ ?_⟩) (fun _ ↦ id) (by rintro j ⟨⟩) rfl
    (fun _ ↦ ⟨rfl, rfl⟩) rfl rfl
  · have := hready.2 r'
    simp only
    grind
  · have := hcomplete.2 r'
    simp only
    grind
  · have := h.running_at hr
    have : isRunning (p r) = false := isRunning_eq_false hw
    simp only
    grind
  · have := h.finished_at hr
    have : isFinished (p r) = false := isFinished_eq_false hw
    simp only
    grind
  · have := h.mapped_at hr
    have : workerOf none = none := rfl
    simp only
    grind
  · have := h.held_at hr hw'
    grind

theorem consistent_handOver (id : ℕ) (t : Task) (h : Consistent s p)
    (hr : s.completeList.head? = some r) :
    Consistent (handOver id r t (popComplete s)) (Function.update p r none) := by
  have hp : p r = some .complete := (h.complete r).mp (List.mem_of_mem_head? hr)
  obtain ⟨rest, hl⟩ : ∃ rest, s.completeList = r :: rest := List.head?_eq_some_iff.mp hr
  have hn := h.complete_nodup
  have hready := h.ready r
  rw [hl, List.nodup_cons] at hn
  refine consistent_forget_list h (by rw [hp]; exact Option.some_ne_none _) (by rw [hp]; rfl)
    s.readyList s.completeList.tail _ _ _ ⟨h.ready_nodup, fun r' ↦ ?_⟩ ?_
  · grind
  · rw [hl, List.tail_cons]
    exact ⟨hn.2, fun r' ↦ by grind⟩

theorem consistent_unready (h : Consistent s p) (hr : r ∈ s.readyList) :
    Consistent { s with readyList := s.readyList.erase r } (Function.update p r none) := by
  have hp := (h.ready r).mp hr
  have hn := h.ready_nodup
  have hcomplete := h.complete r
  refine consistent_forget_list h (by rw [hp]; exact Option.some_ne_none _) (by rw [hp]; rfl) _ _ _ _ _
    ⟨hn.erase r, fun r' ↦ hn.mem_erase_iff⟩ ⟨h.complete_nodup, fun r' ↦ ?_⟩
  grind

theorem consistent_uncomplete (h : Consistent s p) (hr : r ∈ s.completeList) :
    Consistent { s with completeList := s.completeList.erase r } (Function.update p r none) := by
  have hp := (h.complete r).mp hr
  have hn := h.complete_nodup
  have hready := h.ready r
  refine consistent_forget_list h (by rw [hp]; exact Option.some_ne_none _) (by rw [hp]; rfl) _ _ _ _ _
    ⟨h.ready_nodup, fun r' ↦ ?_⟩ ⟨hn.erase r, fun r' ↦ hn.mem_erase_iff⟩
  grind

theorem consistent_release (h : Consistent s p) (hr : Holds s k r) :
    Consistent (release k r s) (Function.update p r none) :=
  consistent_leave (f := releaseTask (s.heap r)) h hr rfl rfl rfl rfl rfl rfl rfl
    (currentTasks_releaseTask _) rfl (fun _ ↦ ⟨rfl, rfl⟩) rfl rfl

/-- What the lists held is gone, what the workers hold stays. -/
def held (p : Ref → Option Place) (r : Ref) : Option Place :=
  if workerOf (p r) = none then none else p r

theorem consistent_clearLists (h : Consistent s p) : Consistent (clearLists s) (held p) := by
  have hw : ∀ r, workerOf (held p r) = workerOf (p r) := by
    intro r
    unfold held
    split
    · rename_i hn
      rw [hn]
      rfl
    · rfl
  have hr : ∀ r, isRunning (held p r) = isRunning (p r) := by
    intro r
    unfold held
    split
    · rename_i hn
      rw [isRunning_eq_false hn]
      rfl
    · rfl
  have hf : ∀ r, isFinished (held p r) = isFinished (p r) := by
    intro r
    unfold held
    split
    · rename_i hn
      rw [isFinished_eq_false hn]
      rfl
    · rfl
  have hn : ∀ {r}, held p r ≠ none → p r ≠ none := by
    intro r hr hp
    rw [held, hp, ite_self] at hr
    exact hr rfl
  have hlist : ∀ r q, workerOf (some q) = none → held p r ≠ some q := by
    intro r q hq he
    have := hw r
    unfold held at he
    split at he
    · cases he
    · rename_i hne
      exact hne (by rw [he, hq])
  refine ⟨fun r ↦ ?_, List.nodup_nil, fun r ↦ ?_, List.nodup_nil, fun i r ↦ ?_, fun i r ↦ ?_,
    fun i k ↦ ?_, fun k w hw' i r ↦ ?_, fun r k hk ↦ h.connected r k (hw r ▸ hk), h.available,
    fun r r' hr hr' ↦ h.distinct r r' (hn hr) (hn hr'), fun r hr ↦ h.named r (hn hr),
    fun r hr ↦ h.made r (hn hr), h.unlabeled⟩
  · exact iff_of_false List.not_mem_nil (hlist r .ready rfl)
  · exact iff_of_false List.not_mem_nil (hlist r .complete rfl)
  · rw [hr]
    exact h.running i r
  · rw [hf]
    exact h.finished i r
  · simp only [hw]
    exact h.mapped i k
  · rw [hw]
    exact h.held k w hw' i r

theorem consistent_drop (h : Consistent s p) (hr : Holds s k r)
    (hq : ReflTransGen (Quiet k) (dropTask (s.heap r).taskid s) s') (t : Task) :
    Consistent (dropFromWorker k (s.heap r).taskid t s') (Function.update p r none) := by
  have ha := hushed_alike hq
  have hc : Consistent (dropFromWorker k (s.heap r).taskid t (dropTask (s.heap r).taskid s))
      (Function.update p r none) :=
    consistent_leave (f := expelTask (s.heap r).taskid t) h hr rfl rfl rfl rfl rfl rfl rfl
      (fun _ ↦ rfl) rfl (fun _ ↦ ⟨rfl, rfl⟩) rfl rfl
  have hcon : ∀ j, Connected (dropFromWorker k (s.heap r).taskid t (dropTask (s.heap r).taskid s)) j →
      Connected (dropFromWorker k (s.heap r).taskid t s') j := by
    rintro j ⟨w, hw⟩
    refine connected_setWorker (ha.connected j ?_)
    simp only [dropFromWorker, State.setWorker, Table.lookup_alter] at hw
    split at hw
    · obtain ⟨w', hw', -⟩ := Option.map_eq_some_iff.mp hw
      exact ⟨w', hw'⟩
    · exact ⟨w, hw⟩
  refine hc.congr (.of_eq ha.ready) ha.complete ha.running (fun i ↦ congrArg (·.lookup i) ha.finished)
    (fun i ↦ congrArg (·.lookup i) ha.mapped) (fun j w' hw' ↦ .inl ?_)
    (fun r' j hj ↦ hcon j (hc.connected r' j hj)) (fun i j hj ↦ ?_)
    (fun r ↦ ⟨ha.taskid r, ha.unlabeled r⟩) ha.next ha.made.ge
  · simp only [dropFromWorker, State.setWorker, Table.lookup_alter] at hw' ⊢
    split at hw'
    · rename_i he
      obtain ⟨w₁, hw₁, rfl⟩ := Option.map_eq_some_iff.mp hw'
      obtain ⟨w, hw, hd⟩ := ha.worker j w₁ hw₁
      refine ⟨expelTask (s.heap r).taskid t w, by rw [if_pos he, hw]; rfl, fun i ↦ ?_⟩
      exact congrArg (fun x ↦ (x.1.remove (s.heap r).taskid).lookup i) hd
    · rename_i he
      obtain ⟨w, hw, hd⟩ := ha.worker j w' hw'
      exact ⟨w, by rw [if_neg he, hw], fun i ↦ congrArg (fun x ↦ x.1.lookup i) hd⟩
  · rcases ha.available i j hj with hj | ⟨hj, hk⟩
    · exact ⟨(hc.available i j hj).1, hcon i (hc.available i j hj).2⟩
    · exact ⟨hj, connected_setWorker (ha.connected i hk)⟩

theorem Turn.consistent {σ : Scope} {d : Prop} (h : Turn σ d s s') (hc : Consistent s p) :
    ∃ p', Consistent s' p' := by
  cases h with
  | step h =>
    obtain ⟨p', hp', -⟩ := h.consistent hc
    exact ⟨p', hp'⟩
  | create command => exact ⟨p, consistent_create hc command⟩
  | submit now r hr hi hl hn hc' =>
    obtain ⟨q, hq, hn⟩ := hn
    exact ⟨_, consistent_submit hq hn hr hi now⟩
  | handOver r hr => exact ⟨_, consistent_handOver _ _ hc hr⟩
  | release k r hr => exact ⟨_, consistent_release hc hr⟩
  | unready r hr => exact ⟨_, consistent_unready hc hr⟩
  | uncomplete r hr => exact ⟨_, consistent_uncomplete hc hr⟩
  | clearLists => exact ⟨_, consistent_clearLists hc⟩
  | drop u k r hd hr hq => exact ⟨_, consistent_drop hc hr hq _⟩
  | gaveUp => exact ⟨p, consistent_same hc⟩
  | withdraw id => exact ⟨p, consistent_same hc⟩
  | kill k hk => exact ⟨p, consistent_same hc⟩
  | withdrawAll => exact ⟨p, consistent_same hc⟩

/-- What every turn keeps is kept by a run of turns. -/
theorem turns_keep {σ : Scope} {d : Prop} {I : State → Prop}
    (hI : ∀ s s' p, Turn σ d s s' → Consistent s p → I s → I s')
    (h : ReflTransGen (Turn σ d) s s') (hs : Placed s) (h₀ : I s) : Placed s' ∧ I s' := by
  induction h with
  | refl => exact ⟨hs, h₀⟩
  | tail _ ht ih =>
    obtain ⟨⟨p, hp⟩, hi⟩ := ih
    exact ⟨ht.consistent hp, hI _ _ p ht hp hi⟩

section Turn

variable {σ : Scope} {d : Prop} (h : Turn σ d s s')

include h

theorem turn_trace : ∃ es, s'.trace = s.trace ++ es := by
  have hnil : ∃ es, s.trace = s.trace ++ es := ⟨[], (List.append_nil _).symm⟩
  cases h with
  | step h => exact Run.trace (.single h)
  | submit => exact ⟨[_], rfl⟩
  | handOver => exact ⟨[_], rfl⟩
  | gaveUp => exact ⟨[_], rfl⟩
  | withdraw => exact ⟨[_], rfl⟩
  | kill => exact ⟨[_], rfl⟩
  | withdrawAll => exact ⟨[_], rfl⟩
  | drop u k r hd hr hq =>
    obtain ⟨es, he⟩ := Run.trace (run_of_hushed (σ := .still) hq)
    exact ⟨es, he⟩
  | _ => exact hnil

theorem turn_env : s'.env = s.env := by
  cases h with
  | step h => exact step_env h
  | drop u k r hd hr hq =>
    show u.env = s.env
    exact Run.env (s := dropTask (s.heap r).taskid s) (run_of_hushed (σ := .still) hq)
  | _ => rfl

theorem turn_finished (hr : ¬ σ.receiving) (hs : s.finishedTasks.size = 0) :
    s'.finishedTasks.size = 0 := by
  have hrem : ∀ i, (s.finishedTasks.remove i).size = 0 := by
    intro i
    rw [Table.size_eq_zero_iff] at hs ⊢
    intro j
    rw [Table.lookup_remove, hs, ite_self]
  cases h with
  | step h => exact Run.finished (.single h) hr hs
  | release k r => exact hrem _
  | drop u k r hd hr' hq =>
    show u.finishedTasks.size = 0
    rw [(hushed_alike hq).finished]
    exact hrem _
  | _ => exact hs

end Turn

end Cyque.Turns
