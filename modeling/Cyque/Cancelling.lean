import Cyque.Slots
import Cyque.Removal

namespace Cyque.Cancelling

open Library.Execution Library.Lookup Library.Scanning Queue Link Files Workers Transfer Dispatch Wait
open Api Run Footprint Placement History Steps Conduct Collect Polling Turns Calls Agreement
open Slots Removal Relation

variable {s s' : State} {p : Ref → Option Place} {k : Key} {r : Ref} {env : Environment} {id : ℕ}
variable {σ : Scope} {d : Prop}

/-- The identifier was given to a submission that is not in the queue any more. -/
def Gone (id : ℕ) (s : State) : Prop :=
  id < s.nextTaskid ∧ ∃ p, Consistent s p ∧ ∀ r, p r ≠ none → (s.heap r).taskid ≠ id

/-- Nothing happens to the submission with the identifier. -/
def Spares (id : ℕ) : Event → Prop
  | .returned _ i => i ≠ id
  | .result _ _ line => ∀ l, parseResult line = some l → l.taskid ≠ id
  | _ => True

theorem gone_leave (h : Gone id s) (hc : Consistent s p)
    (hc' : Consistent s' (Function.update p r none)) (hheap : ∀ r, (s'.heap r).taskid = (s.heap r).taskid)
    (hn : s'.nextTaskid = s.nextTaskid) : Gone id s' := by
  obtain ⟨hlt, q, hq, hne⟩ := h
  refine ⟨hn ▸ hlt, _, hc', fun r' hr' ↦ ?_⟩
  rw [hheap]
  refine hne r' ?_
  rw [hq.unique hc]
  rw [Function.update_apply] at hr'
  split at hr'
  · exact absurd rfl hr'
  · exact hr'

theorem turn_gone (ht : Turn σ d s s') (h : Gone id s) : Gone id s' := by
  obtain ⟨hlt, p, hp, hne⟩ := h
  cases ht with
  | step hs =>
    obtain ⟨p', hp', hsame⟩ := hs.consistent hp
    refine ⟨by rw [step_nextTaskid hs]; exact hlt, p', hp', fun r hr ↦ ?_⟩
    rw [step_taskid hs]
    exact hne r (fun hn ↦ hr ((hsame r).mpr hn))
  | create command =>
    refine ⟨hlt, p, consistent_create hp command, fun r hr ↦ ?_⟩
    have := hne r hr
    simpa [create, Function.update_of_ne (hp.made r hr).ne] using this
  | submit now r hr hi hl hn hc =>
    obtain ⟨q, hq, hqr⟩ := hn
    refine ⟨Nat.lt_succ_of_lt hlt, _, consistent_submit hq hqr hr hi now, fun r' hr' ↦ ?_⟩
    by_cases he : r' = r
    · subst he
      simp only [submitTask, resetTask, Function.update_self]
      exact hlt.ne'
    · rw [Function.update_of_ne he] at hr'
      simp only [submitTask, Function.update_of_ne he]
      exact hne r' (by rw [hp.unique hq]; exact hr')
  | handOver r hr =>
    exact gone_leave ⟨hlt, p, hp, hne⟩ hp (consistent_handOver _ _ hp hr) (fun _ ↦ rfl) rfl
  | release k r hr => exact gone_leave ⟨hlt, p, hp, hne⟩ hp (consistent_release hp hr) (fun _ ↦ rfl) rfl
  | unready r hr => exact gone_leave ⟨hlt, p, hp, hne⟩ hp (consistent_unready hp hr) (fun _ ↦ rfl) rfl
  | uncomplete r hr =>
    exact gone_leave ⟨hlt, p, hp, hne⟩ hp (consistent_uncomplete hp hr) (fun _ ↦ rfl) rfl
  | clearLists =>
    refine ⟨hlt, _, consistent_clearLists hp, fun r hr ↦ hne r (fun hn ↦ hr ?_)⟩
    rw [held, hn, ite_self]
  | drop u k r hd hr hq =>
    have ha := hushed_alike hq
    exact gone_leave ⟨hlt, p, hp, hne⟩ hp (consistent_drop hp hr hq _) (fun r' ↦ ha.taskid r') ha.next
  | gaveUp | withdraw | kill | withdrawAll => exact ⟨hlt, p, consistent_same hp, hne⟩

def Passes (id : ℕ) (s s' : State) : Prop := ∃ es, s'.trace = s.trace ++ es ∧ ∀ e ∈ es, Spares id e

theorem passes_same (h : s'.trace = s.trace) : Passes id s s' :=
  ⟨[], by rw [h, List.append_nil], fun _ h ↦ absurd h List.not_mem_nil⟩

theorem passes_one {e : Event} (h : s'.trace = s.trace ++ [e]) (he : Spares id e) : Passes id s s' :=
  ⟨[e], h, fun _ hm ↦ List.mem_singleton.mp hm ▸ he⟩

theorem Passes.trans {s'' : State} (h : Passes id s s') (h' : Passes id s' s'') : Passes id s s'' := by
  obtain ⟨es, hes, hs⟩ := h
  obtain ⟨fs, hfs, hs'⟩ := h'
  refine ⟨es ++ fs, by rw [hfs, hes, List.append_assoc], fun e he ↦ ?_⟩
  rcases List.mem_append.mp he with he | he
  · exact hs e he
  · exact hs' e he

theorem spares_muted {e : Event} (h : Muted e) : Spares id e := by
  cases e with
  | returned r i => exact h.elim
  | result k r line => exact h.elim
  | _ => trivial

theorem hushed_passes {c : Key} (h : ReflTransGen (Quiet c) s s') : Passes id s s' := by
  obtain ⟨es, hes, hm⟩ := hushed_trace h
  exact ⟨es, hes, fun e he ↦ spares_muted (hm e he)⟩

theorem step_passes (hs : Step σ s s') (h : Gone id s) : Passes id s s' := by
  obtain ⟨-, p, hp, hne⟩ := h
  cases hs with
  | quiet hq => exact hushed_passes (.single hq)
  | finish now k line l r hrec hl hi hr hd hv =>
    refine passes_one (e := .result k r line) rfl (fun l' hl' ↦ ?_)
    rw [hl] at hl'
    cases hl'
    rw [hi]
    exact hne r (ne_none_of_workerOf (hr.workerOf hp))
  | walkAvailable | clearFiles | clearTasks | rotate => exact passes_same rfl
  | _ => exact passes_one rfl trivial

theorem turn_passes (ht : Turn σ d s s') (h : Gone id s) : Passes id s s' := by
  cases ht with
  | step hs => exact step_passes hs h
  | handOver r hr =>
    obtain ⟨-, p, hp, hne⟩ := h
    have hpr : p r = some .complete := (hp.complete r).mp (List.mem_of_mem_head? hr)
    exact passes_one (e := .returned r (s.heap r).taskid) rfl
      (hne r (by rw [hpr]; exact Option.some_ne_none _))
  | drop u k r hd hr hq =>
    obtain ⟨es, hes, hm⟩ := hushed_passes (s := dropTask (s.heap r).taskid s) hq
    exact ⟨es, hes, hm⟩
  | submit | gaveUp | withdraw | kill | withdrawAll => exact passes_one rfl trivial
  | _ => exact passes_same rfl

theorem turns_gone (ht : ReflTransGen (Turn σ d) s s') (h : Gone id s) : Gone id s' ∧ Passes id s s' := by
  induction ht with
  | refl => exact ⟨h, passes_same rfl⟩
  | tail _ ht ih => exact ⟨turn_gone ht ih.1, ih.2.trans (turn_passes ht ih.1)⟩

theorem Gone.lookup (h : Gone id s) {w : Worker} (hw : s.workerTable.lookup k = some w) :
    w.currentTasks.lookup id = none := by
  obtain ⟨-, p, hp, hne⟩ := h
  rw [Option.eq_none_iff_forall_ne_some]
  intro r hr
  obtain ⟨hi, hk⟩ := (hp.held k w hw id r).mp hr
  exact hne r (ne_none_of_workerOf hk) hi

/-- A result for the identifier is read off the link of its worker, and
nothing else comes of it. -/
def Ignored (id : ℕ) (s : State) : Prop :=
  ∀ k w line l n, s.workerTable.lookup k = some w → parseResult line = some l → l.taskid = id →
    processResult k line n s = .done success
      (({ s with calls := s.calls + 1 } : State).setWorker k (fun w ↦ { w with
        incoming := w.incoming.drop (min l.outputLength.toNat (s.env.answers s.calls).arrived) }))

theorem Gone.ignored (h : Gone id s) : Ignored id s := by
  intro k w line l n hw hl hi
  have hnone : w.currentTasks.lookup l.taskid = none := by rw [hi, h.lookup hw]
  simp only [processResult, hl, bind_apply, worker_apply hw, hnone, linkSoak_apply hw, pure_apply]

/-- Every task of a worker is charged a slot. -/
def Charged (w : Worker) : Prop := (w.currentTasks.size : ℤ) ≤ w.unlabeledAllocated

theorem charged_acceptTask {w : Worker} {t : Task} (h : Charged w) (hu : t.unlabeled)
    (hn : w.currentTasks.lookup t.taskid = none) : Charged (acceptTask t r w) := by
  have he : acceptTask t r w = { w with
      currentTasks := w.currentTasks.insert t.taskid r
      unlabeledAllocated := w.unlabeledAllocated + 1 } := by
    simp only [acceptTask, allocate, hu, if_true]
  have hs := Table.size_insert _ _ r hn
  unfold Charged at *
  rw [he]
  simp only [hs]
  omega

/-- The count of slots is never cut off at zero. -/
theorem unlabeled_releaseTask {w : Worker} {t : Task} (h : Charged w) (hu : t.unlabeled)
    (hr : w.currentTasks.lookup t.taskid = some r) :
    (releaseTask t w).unlabeledAllocated = w.unlabeledAllocated - 1 := by
  have hs := Table.size_remove _ hr
  have he : (releaseTask t w).unlabeledAllocated = max (w.unlabeledAllocated - 1) 0 := by
    simp only [releaseTask, deallocate, hu, if_true, clamp]
  unfold Charged at h
  omega

theorem sustained_charged : Sustained Charged where
  duties hd h := by
    simp only [duties, Prod.mk.injEq] at hd
    unfold Charged at *
    rw [hd.1, hd.2.1]
    exact h
  accept := charged_acceptTask
  release {w t r} h hu hr := by
    have hs := Table.size_remove _ hr
    have hc := unlabeled_releaseTask h hu hr
    unfold Charged at *
    rw [currentTasks_releaseTask]
    omega
  clear h hn := by
    have hz := (Table.size_eq_zero_iff _).mpr hn
    unfold Charged at *
    rw [hz] at h
    exact h
  new _ _ _ := le_refl _

theorem charged_expelTask {w : Worker} {t : Task} (h : Charged w)
    (hr : w.currentTasks.lookup t.taskid = some r) : Charged (expelTask t.taskid t w) := by
  have hs := Table.size_remove _ hr
  unfold Charged at *
  simp only [expelTask]
  omega

theorem turns_charged (ht : ReflTransGen (Turn σ d) s s') (hp : Placed s) (h : Each Charged s) :
    Each Charged s' :=
  (turns_keep (I := Each Charged)
    (fun _ _ _ ↦ turn_each sustained_charged (fun _ {_ _ _} ↦ charged_expelTask)) ht hp h).2

/-- The task has left the queue and given back its slot, and all others are
where they were. -/
structure Cancelled (id : ℕ) (r : Ref) (s s' : State) : Prop where
  tasks : s'.tasks = Function.update s.tasks id none
  absent : occurrences s' r = 0 ∧ ∀ k w, s'.workerTable.lookup k = some w → r ∉ w.currentTasks.values
  ready : s'.readyList = s.readyList.erase r
  complete : s'.completeList = s.completeList.erase r
  running : ∀ i, s'.runningTasks.lookup i = if i = id then none else s.runningTasks.lookup i
  finished : ∀ i, s'.finishedTasks.lookup i = if i = id then none else s.finishedTasks.lookup i
  mapped : ∀ i, s'.workerTaskMap.lookup i = if i = id then none else s.workerTaskMap.lookup i
  connected : ∀ k, Connected s' k ↔ Connected s k
  holder : ∀ k w, s.workerTable.lookup k = some w → w.currentTasks.lookup id = some r →
    ∃ w', s'.workerTable.lookup k = some w' ∧ w'.currentTasks = w.currentTasks.remove id ∧
      w'.unlabeledAllocated = w.unlabeledAllocated - 1
  others : ∀ k w, s.workerTable.lookup k = some w → w.currentTasks.lookup id ≠ some r →
    ∃ w', s'.workerTable.lookup k = some w' ∧ duties w' = duties w

theorem lookup_absent {t : Table ℕ Ref} (h : t.lookup id = none) (i : ℕ) :
    t.lookup i = if i = id then none else t.lookup i := by
  split
  · rename_i hi
    rw [hi, h]
  · rfl

theorem absent_of_tasks (h : Orderly s p) (hn : s.tasks (s.heap r).taskid = none) :
    occurrences s r = 0 ∧ ∀ k w, s.workerTable.lookup k = some w → r ∉ w.currentTasks.values := by
  have hr : p r = none := by
    by_contra hr
    rw [(h.listed _ r).mpr ⟨hr, rfl⟩] at hn
    cases hn
  refine ⟨by rw [occurrences_eq h.consistent, if_pos hr], fun k w hw hm ↦ ?_⟩
  obtain ⟨i, hi⟩ := (Table.mem_values_iff _ r).mp hm
  have hk := ((h.consistent.held k w hw i r).mp hi).2
  rw [hr] at hk
  cases hk

theorem gone_of_tasks (h : Orderly s p) (hn : s.tasks id = none) (hlt : id < s.nextTaskid) : Gone id s := by
  refine ⟨hlt, p, h.consistent, fun r hr hi ↦ ?_⟩
  have hl := (h.listed _ r).mpr ⟨hr, rfl⟩
  rw [hi, hn] at hl
  cases hl

theorem alike_duties (h : Alike s s') {w : Worker} (hw : s.workerTable.lookup k = some w) :
    ∃ w', s'.workerTable.lookup k = some w' ∧ duties w' = duties w := by
  obtain ⟨w', hw'⟩ := h.connected k ⟨w, hw⟩
  obtain ⟨w₀, hw₀, hd⟩ := h.worker k w' hw'
  rw [hw] at hw₀
  cases hw₀
  exact ⟨w', hw', hd⟩

section Cancelled

variable (hc : Consistent s p) (ht : s'.tasks = Function.update s.tasks (s.heap r).taskid none)
variable (hn : occurrences s' r = 0 ∧
  ∀ k w, s'.workerTable.lookup k = some w → r ∉ w.currentTasks.values)

include hc ht hn

theorem cancelled_listed (hr : p r ≠ none) (hk : workerOf (p r) = none)
    (hready : s'.readyList = s.readyList.erase r) (hcomplete : s'.completeList = s.completeList.erase r)
    (hrunning : s'.runningTasks = s.runningTasks)
    (hfinished : s'.finishedTasks = s.finishedTasks) (hmapped : s'.workerTaskMap = s.workerTaskMap)
    (hworkers : s'.workerTable = s.workerTable) : Cancelled (s.heap r).taskid r s s' where
  tasks := ht
  absent := hn
  ready := hready
  complete := hcomplete
  running i := by
    rw [hrunning]
    refine lookup_absent ?_ i
    rw [hc.running_at hr, isRunning_eq_false hk]
    rfl
  finished i := by
    rw [hfinished]
    refine lookup_absent ?_ i
    rw [hc.finished_at hr, isFinished_eq_false hk]
    rfl
  mapped i := by
    rw [hmapped]
    refine lookup_absent ?_ i
    rw [hc.mapped_at hr, hk]
  connected k := by rw [Connected, Connected, hworkers]
  holder k w hw hh := by
    rw [hc.held_at hr hw, hk] at hh
    cases hh
  others k w hw _ := ⟨w, hworkers ▸ hw, rfl⟩

theorem cancelled_held {u : State} (hh : Each Charged s) (ha : Alike s u) (hk : workerOf (p r) = some k)
    (hready : s'.readyList = u.readyList) (hcomplete : s'.completeList = u.completeList)
    (hrunning : s'.runningTasks = u.runningTasks.remove (s.heap r).taskid)
    (hfinished : s'.finishedTasks = u.finishedTasks.remove (s.heap r).taskid)
    (hmapped : s'.workerTaskMap = u.workerTaskMap.remove (s.heap r).taskid)
    (hworkers : ∀ j, s'.workerTable.lookup j = (u.workerTable.alter k (releaseTask (u.heap r))).lookup j) :
    Cancelled (s.heap r).taskid r s s' where
  tasks := ht
  absent := hn
  ready := by
    rw [hready, ha.ready, List.erase_of_not_mem]
    intro hm
    rw [(hc.ready r).mp hm] at hk
    cases hk
  complete := by
    rw [hcomplete, ha.complete, List.erase_of_not_mem]
    intro hm
    rw [(hc.complete r).mp hm] at hk
    cases hk
  running i := by rw [hrunning, Table.lookup_remove, ha.running]
  finished i := by rw [hfinished, Table.lookup_remove, ha.finished]
  mapped i := by rw [hmapped, Table.lookup_remove, ha.mapped]
  connected j := by
    rw [Connected, hworkers, Table.lookup_alter]
    constructor
    · rintro ⟨w', hw'⟩
      split at hw'
      · obtain ⟨w₁, hw₁, -⟩ := Option.map_eq_some_iff.mp hw'
        obtain ⟨w, hw, -⟩ := ha.worker j w₁ hw₁
        exact ⟨w, hw⟩
      · obtain ⟨w, hw, -⟩ := ha.worker j w' hw'
        exact ⟨w, hw⟩
    · intro hj
      obtain ⟨w₁, hw₁⟩ := ha.connected j hj
      rw [hw₁]
      split
      · exact ⟨_, rfl⟩
      · exact ⟨_, rfl⟩
  holder j w hw hi := by
    have hj : j = k := by
      have hwk := ((hc.held j w hw _ r).mp hi).2
      rw [hk] at hwk
      exact (Option.some.inj hwk).symm
    subst hj
    obtain ⟨w₁, hw₁, hd⟩ := alike_duties ha hw
    have hch : Charged w₁ := sustained_charged.duties hd (hh j w hw)
    simp only [duties, Prod.mk.injEq] at hd
    refine ⟨releaseTask (u.heap r) w₁, ?_, ?_, ?_⟩
    · rw [hworkers, Table.lookup_alter, if_pos rfl, hw₁]
      rfl
    · rw [currentTasks_releaseTask, ha.taskid, hd.1]
    · rw [unlabeled_releaseTask (r := r) hch, hd.2.1]
      · rw [ha.unlabeled]
        exact hc.unlabeled r
      · rw [ha.taskid, hd.1, hi]
  others j w hw hi := by
    have hj : j ≠ k := by
      rintro rfl
      exact hi ((hc.held j w hw _ r).mpr ⟨rfl, hk⟩)
    obtain ⟨w₁, hw₁, hd⟩ := alike_duties ha hw
    refine ⟨w₁, ?_, hd⟩
    rw [hworkers, Table.lookup_alter, if_neg hj, hw₁]

end Cancelled

theorem cancelled_of_cancels {c : ℤ} (h : Cancels c s s') (hp : Orderly s p) (hs : Sound s')
    (hch : Each Charged s) (hr : s.tasks c = some r) : Cancelled (s.heap r).taskid r s s' := by
  obtain ⟨⟨q, hq⟩, -⟩ := hs
  obtain ⟨hpr, rfl⟩ := (hp.listed c r).mp hr
  have hsame : ∀ r', p r' ≠ none → ((s.heap r').taskid : ℤ) = (s.heap r).taskid → r' = r := fun r' hr' hi ↦
    hp.consistent.distinct r' r hr' hpr (Int.ofNat_inj.mp hi)
  have hcons := hp.consistent
  have hnone : ∀ {t : State}, s'.tasks = Function.update t.tasks (s.heap r).taskid none →
      (s'.heap r).taskid = (s.heap r).taskid → s'.tasks (s'.heap r).taskid = none := by
    intro t ht hi
    rw [hi, ht, Function.update_self]
  cases h with
  | held k r' u hi hk hu =>
    have ha := hushed_alike hu
    cases hsame r' (ne_none_of_workerOf (hk.workerOf hcons)) hi
    have ht : (withdraw (s.heap r).taskid (exhaust (release k r u))).tasks =
        Function.update s.tasks (s.heap r).taskid none := by
      show Function.update u.tasks _ none = _
      rw [ha.tasks]
    refine cancelled_held hcons ht (absent_of_tasks hq (hnone ht (ha.taskid r))) hch ha
      (hk.workerOf hcons) rfl rfl ?_ ?_ ?_ (fun _ ↦ rfl)
    · exact congrArg u.runningTasks.remove (ha.taskid r)
    · exact congrArg u.finishedTasks.remove (ha.taskid r)
    · exact congrArg u.workerTaskMap.remove (ha.taskid r)
  | ready r' hi hm =>
    have hpl := (hcons.ready r').mp hm
    cases hsame r' (by rw [hpl]; exact Option.some_ne_none _) hi
    refine cancelled_listed hcons rfl (absent_of_tasks hq (hnone rfl rfl)) hpr (by rw [hpl]; rfl) rfl ?_
      rfl rfl rfl rfl
    refine (List.erase_of_not_mem (fun hm' ↦ ?_)).symm
    rw [(hcons.complete r).mp hm'] at hpl
    cases hpl
  | complete r' hi hm =>
    have hpl := (hcons.complete r').mp hm
    cases hsame r' (by rw [hpl]; exact Option.some_ne_none _) hi
    refine cancelled_listed hcons rfl (absent_of_tasks hq (hnone rfl rfl)) hpr (by rw [hpl]; rfl) ?_ rfl
      rfl rfl rfl rfl
    refine (List.erase_of_not_mem (fun hm' ↦ ?_)).symm
    rw [(hcons.ready r).mp hm'] at hpl
    cases hpl
  | nothing hn =>
    rw [hn] at hr
    cases hr

theorem cancels_nextTaskid {c : ℤ} (h : Cancels c s s') : s'.nextTaskid = s.nextTaskid := by
  cases h with
  | held k r u hi hk hu => exact (hushed_alike hu).next
  | _ => rfl

theorem prompt_sendWorkerMsg (m : Msg) : Prompt (sendWorkerMsg k m) :=
  .bind prompt_worker (fun _ ↦ .bind prompt_ask (fun _ ↦ .bind (.modify _) (fun _ ↦ .pure _)))

theorem prompt_deleteWorkerFiles (exceptFlags : ℕ) (files : List File) :
    Prompt (deleteWorkerFiles k exceptFlags files) :=
  .forEach files (fun _ ↦ .when (.bind (.bind .get (fun _ ↦ .pure _)) (fun _ ↦
    .bind (prompt_sendWorkerMsg _) (fun _ ↦ .modify _))))

theorem prompt_cancelRunningTask (r : Ref) : Prompt (cancelRunningTask r) := by
  refine .bind .get (fun s ↦ ?_)
  cases hk : s.workerTaskMap.lookup (s.heap r).taskid with
  | none =>
    simp only [hk]
    exact .pure ()
  | some k =>
    simp only [hk]
    refine .bind (prompt_sendWorkerMsg _) (fun _ ↦ .bind (prompt_deleteWorkerFiles _ _) (fun _ ↦
      .bind (prompt_deleteWorkerFiles _ _) (fun _ ↦ .bind (.modify _) (fun _ n s ↦ ?_))))
    rw [logWorkerStats_apply]
    rintro ⟨⟩

theorem prompt_cancelTask (c : ℤ) : Prompt (cancelTask c) := by
  refine .bind (.bind .get (fun s ↦ .when ?_)) (fun _ ↦ .modify _)
  cases findRunningTaskById s (wrap c).toNat with
  | some r => exact prompt_cancelRunningTask r
  | none =>
    cases findTask s (wrap c) s.readyList with
    | some r => exact .modify _
    | none =>
      cases findTask s (wrap c) s.completeList with
      | some r => exact .modify _
      | none => exact .pure ()

/-- What a Go program may do next with the queue. -/
inductive Follows (s : State) : State → Prop
  | refl : Follows s s
  | call {t u : State} {c : Call} {n : ℕ} (h : Follows s t) (ha : Allowed t c)
      (hp : perform c n t = .done () u) : Follows s u

theorem Follows.turns {t : State} (h : Follows s t) (hs : Sound s) :
    Sound t ∧ ReflTransGen (Turn .waiting True) s t := by
  induction h with
  | refl => exact ⟨hs, .refl⟩
  | @call t u c n _ ha hp ih =>
    obtain ⟨ht, hturns⟩ := ih
    obtain ⟨hu, hturns'⟩ := (keeps_perform (σ := .waiting) (d := True) c (fun _ ↦ rfl)).elim
      ⟨ht, ha, fun _ _ _ _ ↦ trivial⟩ hp
    exact ⟨hu, hturns.trans hturns'⟩

/-- What `Wait` returns is in the queue until then. -/
theorem wait_ne_gone {n : ℕ} (hs : Sound s) (h : Gone id s) (hw : wait n s = .done (some r) s') :
    (s'.heap r).taskid ≠ id := by
  obtain ⟨t, hrun, -, -, hw⟩ := spec_wait.elim hs hw
  obtain ⟨-, p, hp, hne⟩ := (turns_gone (turns_of_run (d := True) hrun) h).1
  cases hw with
  | task r hr =>
    refine hne r ?_
    rw [(hp.complete r).mp (List.mem_of_mem_head? hr)]
    exact Option.some_ne_none _

/-- The submission never comes back, and a result that names it has no effect. -/
structure Final (id : ℕ) (s t : State) : Prop where
  passes : Passes id s t
  waits : ∀ n r u, wait n t = .done (some r) u → (u.heap r).taskid ≠ id
  ignored : ∀ u, ReflTransGen (Turn .waiting True) t u → Ignored id u

theorem Gone.final {t : State} (h : Gone id s) (hs : Sound s) (ht : Follows s t) : Final id s t := by
  obtain ⟨hsound, hturns⟩ := ht.turns hs
  obtain ⟨hgone, hpasses⟩ := turns_gone hturns h
  exact ⟨hpasses, fun n r u hw ↦ wait_ne_gone hsound hgone hw,
    fun u hu ↦ (turns_gone hu hgone).1.ignored⟩

theorem cancelTask_cancels (h : Reachable (fun _ _ ↦ True) env s) {c : ℤ} (hr : s.tasks c = some r)
    (n : ℕ) : c = (s.heap r).taskid ∧ ∃ s', cancelTask c n s = .done () s' ∧
      Cancelled (s.heap r).taskid r s s' ∧ ∀ t, Follows s' t → Final (s.heap r).taskid s' t := by
  have hs := reachable_sound h
  obtain ⟨⟨p, hp⟩, hset⟩ := hs
  obtain ⟨hpr, hi⟩ := (hp.listed c r).mp hr
  have hturns := reachable_turns (d := True) h (fun _ _ _ _ _ ↦ trivial)
  have hnext : s.nextTaskid < 2 ^ 31 := turns_nextTaskid hturns (by decide : (1 : ℕ) < 2 ^ 31)
  have hnamed := hp.consistent.named r hpr
  have hwrap : wrap c = c := wrap_eq (by omega) (by omega)
  have hch : Each Charged s :=
    turns_charged hturns (sound_newQueue env).steadfast.1 (by rintro k w ⟨⟩)
  obtain ⟨_, s', hdone, hcan⟩ := (spec_cancelTask c).returns (prompt_cancelTask c) ⟨⟨⟨p, hp⟩, hset⟩, hwrap⟩ n
  have hs' := hcan.sound ⟨⟨p, hp⟩, hset⟩
  have hcancelled := cancelled_of_cancels hcan hp hs' hch hr
  have htasks : s'.tasks (s.heap r).taskid = none := by
    rw [hcancelled.tasks, Function.update_self]
  obtain ⟨⟨q, hq⟩, -⟩ := hs'
  have hgone : Gone (s.heap r).taskid s' :=
    gone_of_tasks hq htasks (by rw [cancels_nextTaskid hcan]; exact hnamed.2)
  exact ⟨hi.symm, s', hdone, hcancelled, fun t ht ↦ hgone.final (hcan.sound ⟨⟨p, hp⟩, hset⟩) ht⟩

/-- The second of two tasks is cancelled at its worker, after the first was
returned. -/
theorem cancelTask_cancels_twoSlots :
    ∃ s w s' w', Reachable (fun _ _ ↦ True) twoSlots s ∧ s.tasks 2 = some 1 ∧
      s.workerTable.lookup 1 = some w ∧ w.currentTasks.lookup 2 = some 1 ∧ w.unlabeledAllocated = 1 ∧
      cancelTask 2 0 s = .done () s' ∧ s'.workerTable.lookup 1 = some w' ∧ w'.unlabeledAllocated = 0 ∧
      ∀ t, Follows s' t → Final 2 s' t := by
  obtain ⟨_, s, hp, ht⟩ := exists_of_returns (f := perform .wait) (n := 20) (s := twoTasks twoSlots)
    (t := fun _ s ↦ decide (s.tasks 2 = some 1 ∧ (s.heap 1).taskid = 2) &&
      (s.workerTable.lookup 1).any (fun (w : Worker) ↦
        decide (w.currentTasks.lookup 2 = some 1 ∧ w.unlabeledAllocated = 1)))
    (by decide +kernel)
  obtain ⟨hs, hany⟩ := (Bool.and_eq_true _ _).mp ht
  obtain ⟨htask, hi⟩ := of_decide_eq_true hs
  obtain ⟨w, hw, hall⟩ := (Option.any_eq_true _ _).mp hany
  obtain ⟨hl, hu⟩ := of_decide_eq_true hall
  have hr : Reachable (fun _ _ ↦ True) twoSlots s :=
    .call (c := .wait) (reachable_twoTasks _ (fun _ _ _ ↦ trivial)) trivial trivial hp
  obtain ⟨-, s', hdone, hcan, hfinal⟩ := cancelTask_cancels hr htask 0
  rw [hi] at hcan hfinal
  obtain ⟨w', hw', -, hu'⟩ := hcan.holder 1 w hw hl
  exact ⟨s, w, s', w', hr, htask, hw, hl, hu, hdone, hw', by rw [hu', hu]; rfl, hfinal⟩

end Cyque.Cancelling
