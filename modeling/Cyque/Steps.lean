import Cyque.Placement
import Cyque.History
import Cyque.Wait

namespace Cyque.Steps

open Library.Execution Library.Lookup Library.Scanning Queue Link Workers Messages Transfer Dispatch
open Wait Footprint Placement History Relation

def Holds (s : State) (k : Key) (r : Ref) : Prop :=
  ∃ w, s.workerTable.lookup k = some w ∧ w.currentTasks.lookup (s.heap r).taskid = some r

def Idle (s : State) (k : Key) : Prop :=
  ∃ w, s.workerTable.lookup k = some w ∧ ∀ i, w.currentTasks.lookup i = none

def clearTasks (w : Worker) : Worker := { w with currentTasks := .empty id, finishedTasks := 0 }

def clearFiles (hashString : Text → ℕ) (w : Worker) : Worker :=
  { w with currentFiles := .empty hashString }

/-- What a piece of code may do besides: take results, commit tasks to workers,
and give workers up. -/
structure Scope where
  receiving : Prop
  committing : Prop
  leaving : Key → Prop

abbrev Scope.still : Scope := ⟨False, False, fun _ ↦ False⟩

abbrev Scope.losing (k : Key) : Scope := ⟨False, False, fun j ↦ j = k⟩

abbrev Scope.serving (k : Key) : Scope := ⟨True, False, fun j ↦ j = k⟩

abbrev Scope.fetching : Scope := ⟨False, False, fun _ ↦ True⟩

abbrev Scope.polling : Scope := ⟨True, False, fun _ ↦ True⟩

abbrev Scope.waiting : Scope := ⟨True, True, fun _ ↦ True⟩

def Reads (now : ℕ) (s : State) : Prop := s.trace.getLast? = some (.clock now)

/-- The time that the loss of its worker adds to a task. -/
def Elapsed (s : State) (r : Ref) (elapsed : ℕ) : Prop :=
  if (s.heap r).timeCommitted ≤ (s.heap r).timeExecuteCmdStart then
    ∃ now, Reads now s ∧ elapsed = stamp (now - (s.heap r).timeExecuteCmdStart)
  else elapsed = 0

/-- What happens to the queue inside `Wait`. -/
inductive Step (σ : Scope) : State → State → Prop
  | quiet {s s' : State} {k : Key} (h : Quiet k s s') : Step σ s s'
  | walkAvailable (s : State) (t : Table Key Key)
      (h : t.entries = s.workersWithAvailableResults.entries) :
      Step σ s { s with workersWithAvailableResults := t }
  | commit (s : State) (now : ℕ) (k : Key) (r : Ref) (hcom : σ.committing)
      (hr : s.readyList.head? = some r) (hk : Connected s k) (hn : Reads now s) :
      Step σ s (commit now k r (popReady s))
  | supply (s : State) (k : Key) (r : Ref) (result : ℤ) (hf : Fresh s k r) :
      Step σ s (s.log (.supplied k r result))
  | dispatch (s : State) (now : ℕ) (k : Key) (r : Ref) (w : Worker)
      (hw : s.workerTable.lookup k = some w) (hr : Holds s k r) (hs : Supplied s k r) (hn : Reads now s) :
      Step σ s (dispatch now k r w s)
  | charge (s : State) (received now executionTime : ℕ) (k : Key) (r : Ref) (hr : Holds s k r)
      (hd : Dispatched s k r) (hn : Reads now s) : Step σ s (charge received now executionTime k r s)
  | finish (s : State) (now : ℕ) (k : Key) (line : Text) (l : ResultLine) (r : Ref)
      (hrec : σ.receiving) (hl : parseResult line = some l) (hi : l.taskid = (s.heap r).taskid)
      (hr : Holds s k r) (hd : Dispatched s k r) (hv : Heard k line s.trace) :
      Step σ s (finish now k line l r s)
  | fetch (s : State) (k : Key) (r : Ref) (hr : Holds s k r) : Step σ s (fetch k r s)
  | answer (s : State) (k : Key) (r : Ref) (f : File) (name : Text) (entries : List Entry) (result : ℤ)
      (hr : Holds s k r) (h : result = workerFailure ∨ OutputMissing (s.heap r) ∨
        (∀ e ∈ entries, Stored e) ∨ Overtaken entries) :
      Step σ s (s.log (.replied k r f name entries result))
  | fail (s : State) (k : Key) (r : Ref) (hr : Holds s k r) (hf : (s.heap r).result ≠ 0)
      (hg : Answered s k r) : Step σ s (failTask k r s)
  | complete (s : State) (now : ℕ) (k : Key) (r : Ref) (hr : Holds s k r)
      (hf : s.finishedTasks.lookup (s.heap r).taskid = some r) (hg : Answered s k r) (hn : Reads now s) :
      Step σ s (complete now k r s)
  | requeue (s : State) (elapsed : ℕ) (k : Key) (r : Ref) (hr : Holds s k r)
      (he : Elapsed s r elapsed) : Step σ s (requeue elapsed k r s)
  | clearFiles (s : State) (k : Key) (hashString : Text → ℕ) :
      Step σ s (s.setWorker k (clearFiles hashString))
  | clearTasks (s : State) (k : Key) (hk : Idle s k) :
      Step σ s (s.setWorker k clearTasks)
  | disconnect (s : State) (k : Key) (hlea : σ.leaving k) (hk : Idle s k) :
      Step σ s (disconnect k s)
  | connect (s : State) (now : ℕ) (p : Peer) (hp : ¬ Connected s p.link) :
      Step σ s (connect now p s)
  | rotate (s : State) : Step σ s (rotateReady s)
  | collect (s : State) (k : Key) (hk : Connected s k) (n : ℤ) :
      Step σ s (s.log (.sent k (.sendResults n)))
  | forget (s : State) (k : Key) : Step σ s (forgetAvailableResults k s)

variable {s s' : State} {p : Ref → Option Place} {k : Key} {r : Ref}

theorem currentTasks_acceptTask (t : Task) (r : Ref) (w : Worker) :
    (acceptTask t r w).currentTasks = w.currentTasks.insert t.taskid r := by
  unfold acceptTask allocate
  split <;> rfl

theorem currentTasks_releaseTask (t : Task) (w : Worker) :
    (releaseTask t w).currentTasks = w.currentTasks.remove t.taskid := by
  unfold releaseTask deallocate clamp
  split <;> rfl

theorem update_alike {t : Task} (hi : t.taskid = (s.heap r).taskid)
    (hu : t.unlabeled = (s.heap r).unlabeled) (r' : Ref) :
    (Function.update s.heap r t r').taskid = (s.heap r').taskid ∧
      (Function.update s.heap r t r').unlabeled = (s.heap r').unlabeled := by
  by_cases he : r' = r
  · subst he
    simp [hi, hu]
  · simp [he]

section Quiet

variable {c : Key} (h : Quiet c s s')

include h

theorem quiet_env : s'.env = s.env := by cases h <;> rfl

theorem quiet_readyList : s'.readyList = s.readyList := by cases h <;> rfl

theorem quiet_completeList : s'.completeList = s.completeList := by cases h <;> rfl

theorem quiet_finishedTasks : s'.finishedTasks = s.finishedTasks := by cases h <;> rfl

theorem quiet_workerTaskMap : s'.workerTaskMap = s.workerTaskMap := by cases h <;> rfl

theorem quiet_tasks : s'.tasks = s.tasks := by cases h <;> rfl

theorem quiet_nextTaskid : s'.nextTaskid = s.nextTaskid := by cases h <;> rfl

theorem quiet_allocated : s'.allocated = s.allocated := by cases h <;> rfl

theorem quiet_running (i : ℕ) : s'.runningTasks.lookup i = s.runningTasks.lookup i := by
  cases h with
  | walkRunning t ht => exact congrArg (List.lookup i) ht
  | _ => rfl

theorem quiet_report (r : Ref) : report (s'.heap r) = report (s.heap r) := by
  cases h with
  | task r' f hf hf' =>
    by_cases he : r = r'
    · subst he
      simpa [State.setTask] using hf
    · simp [State.setTask, he]
  | mark r' bit =>
    by_cases he : r = r'
    · subst he
      simp [State.setTask, report, stamps, mark]
    · simp [State.setTask, he]
  | _ => rfl

theorem quiet_taskid (r : Ref) : (s'.heap r).taskid = (s.heap r).taskid :=
  congrArg Prod.fst (quiet_report h r)

theorem quiet_worker {w' : Worker} (hw : s'.workerTable.lookup k = some w') :
    ∃ w, s.workerTable.lookup k = some w ∧ duties w' = duties w := by
  have key : ∀ (u : State) j (f : Worker → Worker), (∀ w, duties (f w) = duties w) →
      u.workerTable = s.workerTable → (u.setWorker j f).workerTable.lookup k = some w' →
      ∃ w, s.workerTable.lookup k = some w ∧ duties w' = duties w := by
    intro u j f hf hu hl
    simp only [State.setWorker, Table.lookup_alter, hu] at hl
    split at hl
    · obtain ⟨w, hw', rfl⟩ := Option.map_eq_some_iff.mp hl
      exact ⟨w, hw', hf w⟩
    · exact ⟨w', hl, rfl⟩
  cases h with
  | walk t ht => exact ⟨w', hw ▸ congrArg (List.lookup k) ht.symm, rfl⟩
  | worker f hf => exact key s c f hf rfl hw
  | forget name => exact key s c _ (by exact fun _ ↦ rfl) rfl hw
  | unlink name => exact key _ c _ (by exact fun _ ↦ rfl) rfl hw
  | remember name info => exact key s c _ (by exact fun _ ↦ rfl) rfl hw
  | _ => exact ⟨w', hw, rfl⟩

theorem quiet_available {j : Key} (hj : s'.workersWithAvailableResults.lookup k = some j) :
    s.workersWithAvailableResults.lookup k = some j ∨ j = k ∧ Connected s k := by
  cases h with
  | note hk =>
    simp only [noteAvailableResults, Table.lookup_insertNew] at hj
    split at hj
    · rename_i he
      subst he
      cases hl : s.workersWithAvailableResults.lookup k with
      | none =>
        rw [hl] at hj
        cases hj
        exact .inr ⟨rfl, hk⟩
      | some j' =>
        rw [hl] at hj
        exact .inl hj
    · exact .inl hj
  | _ => exact .inl hj

end Quiet

/-- Two states that differ only in what no task and no worker stands for. -/
structure Alike (s s' : State) : Prop where
  ready : s'.readyList = s.readyList
  complete : s'.completeList = s.completeList
  running : ∀ i, s'.runningTasks.lookup i = s.runningTasks.lookup i
  finished : s'.finishedTasks = s.finishedTasks
  mapped : s'.workerTaskMap = s.workerTaskMap
  tasks : s'.tasks = s.tasks
  next : s'.nextTaskid = s.nextTaskid
  made : s'.allocated = s.allocated
  report : ∀ r, report (s'.heap r) = report (s.heap r)
  worker : ∀ k w', s'.workerTable.lookup k = some w' →
    ∃ w, s.workerTable.lookup k = some w ∧ duties w' = duties w
  connected : ∀ k, Connected s k → Connected s' k
  available : ∀ k j, s'.workersWithAvailableResults.lookup k = some j →
    s.workersWithAvailableResults.lookup k = some j ∨ j = k ∧ Connected s k

theorem Alike.refl (s : State) : Alike s s :=
  ⟨rfl, rfl, fun _ ↦ rfl, rfl, rfl, rfl, rfl, rfl, fun _ ↦ rfl, fun _ w hw ↦ ⟨w, hw, rfl⟩, fun _ ↦ id,
    fun _ _ ↦ .inl⟩

theorem Alike.trans {s'' : State} (h : Alike s s') (h' : Alike s' s'') : Alike s s'' where
  ready := h'.ready.trans h.ready
  complete := h'.complete.trans h.complete
  running i := (h'.running i).trans (h.running i)
  finished := h'.finished.trans h.finished
  mapped := h'.mapped.trans h.mapped
  tasks := h'.tasks.trans h.tasks
  next := h'.next.trans h.next
  made := h'.made.trans h.made
  report r := (h'.report r).trans (h.report r)
  worker k w'' hw'' := by
    obtain ⟨w', hw', hd'⟩ := h'.worker k w'' hw''
    obtain ⟨w, hw, hd⟩ := h.worker k w' hw'
    exact ⟨w, hw, hd'.trans hd⟩
  connected k hk := h'.connected k (h.connected k hk)
  available k j hj := by
    rcases h'.available k j hj with hj | ⟨hj, w', hw'⟩
    · exact h.available k j hj
    · obtain ⟨w, hw, -⟩ := h.worker k w' hw'
      exact .inr ⟨hj, w, hw⟩

theorem Alike.taskid (h : Alike s s') (r : Ref) : (s'.heap r).taskid = (s.heap r).taskid :=
  congrArg Prod.fst (h.report r)

theorem Alike.unlabeled (h : Alike s s') (r : Ref) :
    (s'.heap r).unlabeled = (s.heap r).unlabeled :=
  congrArg (fun x ↦ x.2.1) (h.report r)

theorem Alike.consistent (h : Alike s s') (hc : Consistent s p) : Consistent s' p := by
  refine hc.congr (.of_eq h.ready) h.complete h.running (fun i ↦ by rw [h.finished])
    (fun i ↦ by rw [h.mapped]) (fun k w' hw' ↦ .inl ?_) (fun r k hk ↦ h.connected k (hc.connected r k hk))
    (fun k j hj ↦ ?_) (fun r ↦ ⟨h.taskid r, h.unlabeled r⟩) h.next h.made.ge
  · obtain ⟨w, hw, hd⟩ := h.worker k w' hw'
    exact ⟨w, hw, fun i ↦ congrArg (fun x ↦ x.1.lookup i) hd⟩
  · rcases h.available k j hj with hj | ⟨hj, hk⟩
    · exact ⟨(hc.available k j hj).1, h.connected k (hc.available k j hj).2⟩
    · exact ⟨hj, h.connected k hk⟩

theorem quiet_alike {c : Key} (h : Quiet c s s') : Alike s s' :=
  ⟨quiet_readyList h, quiet_completeList h, quiet_running h, quiet_finishedTasks h,
    quiet_workerTaskMap h, quiet_tasks h, quiet_nextTaskid h, quiet_allocated h, quiet_report h,
    fun _ _ hw ↦ quiet_worker h hw, fun _ ↦ h.connected, fun _ _ hj ↦ quiet_available h hj⟩

theorem hushed_alike {c : Key} (h : ReflTransGen (Quiet c) s s') : Alike s s' := by
  induction h with
  | refl => exact .refl _
  | tail _ hq ih => exact ih.trans (quiet_alike hq)

theorem muted_event {e : Event} (h : Muted e) : Internal e ∧ ¬ Commits e ∧ ∀ k, e ≠ .removed k := by
  cases e <;> first | exact h.elim | exact ⟨trivial, id, by rintro k ⟨⟩⟩

theorem hushed_heard {c : Key} {line : Text} (h : ReflTransGen (Quiet c) s s')
    (hv : Heard k line s.trace) : Heard k line s'.trace := by
  obtain ⟨es, he, hm⟩ := hushed_trace h
  obtain ⟨before, after, hv, ha⟩ := hv
  refine ⟨before, after ++ es, by rw [he, hv, List.append_assoc]; rfl, fun e he ↦ ?_⟩
  rcases List.mem_append.mp he with he | he
  · exact ha e he
  · obtain ⟨hi, hc, hn⟩ := muted_event (hm e he)
    exact ⟨hi, hc, hn k⟩

theorem hushed_attempted {c : Key} {P : Attempt → Prop} (h : ReflTransGen (Quiet c) s s')
    (ha : Attempted k r P s) (hP : ∀ (a : Attempt) heard, P a → P { a with heard := heard }) :
    Attempted k r P s' := by
  induction h with
  | refl => exact ha
  | tail _ hq ih =>
    rcases quiet_trace hq with ht | ⟨e, ht, hm⟩
    · rwa [Attempted, ht]
    · refine ih.append ht (muted_event hm).1 (muted_event hm).2.1 (fun a _ hp ↦ ?_)
      obtain ⟨heard, hl⟩ := learn_muted (r := r) hm a
      rw [hl]
      exact hP a heard hp

theorem consistent_quiet {c : Key} (h : Quiet c s s') (hc : Consistent s p) : Consistent s' p :=
  (quiet_alike h).consistent hc

theorem connected_alter {f : Worker → Worker} (hs : s'.workerTable = s.workerTable.alter k f)
    (j : Key) (hj : Connected s j) : Connected s' j := by
  obtain ⟨w, hw⟩ := hj
  rw [Connected, hs, Table.lookup_alter, hw]
  split
  · exact ⟨_, rfl⟩
  · exact ⟨_, rfl⟩

theorem Holds.workerOf (h : Consistent s p) (hr : Holds s k r) : workerOf (p r) = some k := by
  obtain ⟨w, hw, hi⟩ := hr
  exact ((h.held k w hw _ r).mp hi).2

theorem Holds.connected (hr : Holds s k r) : Connected s k := hr.imp (fun _ h ↦ h.1)

theorem held_alter {f : Worker → Worker} {q : Option Place} (h : Consistent s p) (hr : p r ≠ none)
    (hs : s'.workerTable = s.workerTable.alter k f)
    (hf : ∀ w, s.workerTable.lookup k = some w → ∀ i, (f w).currentTasks.lookup i =
      if i = (s.heap r).taskid then (if workerOf q = some k then some r else none)
      else w.currentTasks.lookup i)
    (ho : ∀ j, j ≠ k → (workerOf q = some j ↔ workerOf (p r) = some j)) (j : Key) (w' : Worker)
    (hw' : s'.workerTable.lookup j = some w') : ∃ w, s.workerTable.lookup j = some w ∧
      ∀ i, w'.currentTasks.lookup i =
        if i = (s.heap r).taskid then (if workerOf q = some j then some r else none)
        else w.currentTasks.lookup i := by
  rw [hs, Table.lookup_alter] at hw'
  split at hw'
  · rename_i he
    subst he
    obtain ⟨w, hw, rfl⟩ := Option.map_eq_some_iff.mp hw'
    exact ⟨w, hw, hf w hw⟩
  · rename_i he
    refine ⟨w', hw', fun i ↦ ?_⟩
    split
    · rename_i hi
      rw [hi, h.held_at hr hw']
      simp only [ho j he]
    · rfl

theorem consistent_same (h : Consistent s p) {trace : List Event} {tasks : ℤ → Option Ref} :
    Consistent { s with trace := trace, tasks := tasks } p :=
  h.congr (.refl _) rfl (fun _ ↦ rfl) (fun _ ↦ rfl) (fun _ ↦ rfl)
    (fun _ w hw ↦ .inl ⟨w, hw, fun _ ↦ rfl⟩) h.connected h.available (fun _ ↦ ⟨rfl, rfl⟩) rfl le_rfl

theorem consistent_task (h : Consistent s p) {f : Task → Task} {e : Event}
    (hi : (f (s.heap r)).taskid = (s.heap r).taskid)
    (hu : (f (s.heap r)).unlabeled = (s.heap r).unlabeled) : Consistent ((s.setTask r f).log e) p :=
  h.congr (.refl _) rfl (fun _ ↦ rfl) (fun _ ↦ rfl) (fun _ ↦ rfl)
    (fun _ w hw ↦ .inl ⟨w, hw, fun _ ↦ rfl⟩) h.connected h.available (update_alike hi hu) rfl le_rfl

theorem consistent_commit (h : Consistent s p) (hr : s.readyList.head? = some r)
    (hk : Connected s k) (now : ℕ) :
    Consistent (commit now k r (popReady s)) (Function.update p r (some (.running k))) := by
  have hp : p r = some .ready := (h.ready r).mp (List.mem_of_mem_head? hr)
  obtain ⟨rest, hl⟩ : ∃ rest, s.readyList = r :: rest := List.head?_eq_some_iff.mp hr
  have hn := h.ready_nodup
  rw [hl, List.nodup_cons] at hn
  have hr : p r ≠ none := by rw [hp]; exact Option.some_ne_none _
  have hf := h.finished_at hr
  have hw : (commit now k r (popReady s)).workerTable =
    s.workerTable.alter k (acceptTask (s.heap r) r) := rfl
  refine h.relocate hr (fun r' ↦ ?_) ?_ (fun r' ↦ ?_) h.complete_nodup (fun i ↦ ?_) (fun i ↦ ?_)
    (fun i ↦ ?_) (held_alter h hr hw (fun w _ i ↦ ?_) (fun j hj ↦ ?_)) (connected_alter hw)
    (fun j hj ↦ ?_) rfl (update_alike rfl rfl) rfl rfl
  · simp only [commit, popReady, hl, List.tail_cons]
    grind
  · simpa [commit, popReady, hl] using hn.2
  · have := h.complete r'
    simp only [commit, popReady]
    grind
  · simp [commit, popReady, isRunning]
  · simp only [commit, popReady, isFinished]
    grind
  · simp [commit, popReady, workerOf]
  · simp [currentTasks_acceptTask, workerOf]
  · simp [workerOf, hp, Ne.symm hj]
  · cases hj
    exact hk

/-- A task leaves its worker, for one of the two lists or for good. -/
theorem consistent_leave {f : Worker → Worker} {q : Option Place} (h : Consistent s p)
    (hr : Holds s k r) (hq : workerOf q = none)
    (hready : s'.readyList = (if q = some .ready then [r] else []) ++ s.readyList)
    (hcomplete : s'.completeList = (if q = some .complete then [r] else []) ++ s.completeList)
    (hrunning : s'.runningTasks = s.runningTasks.remove (s.heap r).taskid)
    (hfinished : s'.finishedTasks = s.finishedTasks.remove (s.heap r).taskid)
    (hmapped : s'.workerTaskMap = s.workerTaskMap.remove (s.heap r).taskid)
    (hw : s'.workerTable = s.workerTable.alter k f)
    (hf : ∀ w, (f w).currentTasks = w.currentTasks.remove (s.heap r).taskid)
    (havailable : s'.workersWithAvailableResults = s.workersWithAvailableResults)
    (hheap : ∀ r, (s'.heap r).taskid = (s.heap r).taskid ∧ (s'.heap r).unlabeled = (s.heap r).unlabeled)
    (hnext : s'.nextTaskid = s.nextTaskid) (hmade : s'.allocated = s.allocated) :
    Consistent s' (Function.update p r q) := by
  have hk := hr.workerOf h
  have hr : p r ≠ none := ne_none_of_workerOf hk
  have hn : p r ≠ some .ready ∧ p r ≠ some .complete := by
    constructor <;> intro he <;> rw [he] at hk <;> cases hk
  have hqr : isRunning q = false := isRunning_eq_false hq
  have hqf : isFinished q = false := isFinished_eq_false hq
  have hready_r := h.ready r
  have hcomplete_r := h.complete r
  refine h.relocate hr (fun r' ↦ ?_) ?_ (fun r' ↦ ?_) ?_ (fun i ↦ ?_) (fun i ↦ ?_)
    (fun i ↦ ?_) (held_alter h hr hw (fun w _ i ↦ ?_) (fun j hj ↦ ?_)) (connected_alter hw)
    (fun j hj ↦ ?_) havailable hheap hnext hmade
  · rw [hready]
    grind
  · rw [hready]
    have := h.ready_nodup
    grind
  · rw [hcomplete]
    grind
  · rw [hcomplete]
    have := h.complete_nodup
    grind
  · rw [hrunning, Table.lookup_remove, hqr]
    rfl
  · rw [hfinished, Table.lookup_remove, hqf]
    rfl
  · rw [hmapped, Table.lookup_remove, hq]
  · rw [hf, Table.lookup_remove, hq]
    rfl
  · rw [hq, hk]
    simp [Ne.symm hj]
  · rw [hq] at hj
    cases hj

theorem consistent_giveBack (h : Consistent s p) (hr : Holds s k r) :
    Consistent (giveBack k r s) (Function.update p r (some .complete)) :=
  consistent_leave (f := releaseTask (s.heap r)) h hr rfl rfl rfl rfl rfl rfl rfl
    (currentTasks_releaseTask _) rfl (fun _ ↦ ⟨rfl, rfl⟩) rfl rfl

theorem consistent_fail (h : Consistent s p) (hr : Holds s k r) :
    Consistent (failTask k r s) (Function.update p r (some .complete)) :=
  consistent_same (consistent_giveBack h hr)

theorem consistent_requeue (h : Consistent s p) (hr : Holds s k r) (elapsed : ℕ) :
    Consistent (requeue elapsed k r s) (Function.update p r (some .ready)) := by
  have hid : ∀ r', ((requeue elapsed k r s).heap r').taskid = (s.heap r').taskid ∧
      ((requeue elapsed k r s).heap r').unlabeled = (s.heap r').unlabeled :=
    update_alike rfl rfl
  have hi := (hid r).1
  refine consistent_leave (f := releaseTask ((requeue elapsed k r s).heap r)) h hr rfl rfl rfl
    ?_ ?_ ?_ rfl (fun w ↦ ?_) rfl hid rfl rfl
  · rw [← hi]; rfl
  · rw [← hi]; rfl
  · rw [← hi]; rfl
  · rw [← hi]
    exact currentTasks_releaseTask _ w

theorem consistent_complete (h : Consistent s p) (hr : Holds s k r) (now : ℕ) :
    Consistent (complete now k r s) (Function.update p r (some .complete)) := by
  have hw : (complete now k r s).workerTable = s.workerTable.alter k
      (creditWorker ((complete now k r s).heap r).cmdExecutionTime ∘ releaseTask (s.heap r)) :=
    Table.alter_alter _ _ _ _
  exact consistent_leave h hr rfl rfl rfl rfl rfl rfl hw (currentTasks_releaseTask _) rfl
    (update_alike rfl rfl) rfl rfl

theorem consistent_finish (h : Consistent s p) (hr : Holds s k r) (now : ℕ) (line : Text)
    {l : ResultLine} (hi : l.taskid = (s.heap r).taskid) :
    Consistent (finish now k line l r s) (Function.update p r (some (.finished k))) := by
  have hk := hr.workerOf h
  have hc := hr.connected
  have hr : p r ≠ none := ne_none_of_workerOf hk
  have hm := h.mapped_at hr
  have hready := h.ready r
  have hcomplete := h.complete r
  have hw : (finish now k line l r s).workerTable = s.workerTable.alter k
    (fun w ↦ { w with finishedTasks := w.finishedTasks + 1 }) := rfl
  refine h.relocate hr (fun r' ↦ ?_) h.ready_nodup (fun r' ↦ ?_) h.complete_nodup (fun i ↦ ?_)
    (fun i ↦ ?_) (fun i ↦ ?_) (held_alter h hr hw (fun w hw i ↦ ?_) (fun j hj ↦ ?_))
    (connected_alter hw) (fun j hj ↦ ?_) rfl (update_alike rfl rfl) rfl rfl
  · simp only [finish, State.setTask]
    grind
  · simp only [finish, State.setTask]
    grind
  · simp [finish, State.setTask, isRunning, hi]
  · simp [finish, State.setTask, isFinished, hi]
  · simp only [finish, State.setTask]
    grind
  · have := h.held_at hr hw
    grind
  · rw [hk]
    rfl
  · cases hj
    exact hc

theorem consistent_setWorker {f : Worker → Worker} (h : Consistent s p)
    (hf : ∀ w, s.workerTable.lookup k = some w → ∀ i,
      (f w).currentTasks.lookup i = w.currentTasks.lookup i) : Consistent (s.setWorker k f) p := by
  refine h.congr (.refl _) rfl (fun _ ↦ rfl) (fun _ ↦ rfl) (fun _ ↦ rfl) (fun j w' hw' ↦ .inl ?_)
    (fun r j hj ↦ connected_setWorker (h.connected r j hj))
    (fun j i hi ↦ ⟨(h.available j i hi).1, connected_setWorker (h.available j i hi).2⟩)
    (fun _ ↦ ⟨rfl, rfl⟩) rfl le_rfl
  simp only [State.setWorker, Table.lookup_alter] at hw'
  split at hw'
  · rename_i he
    subst he
    obtain ⟨w, hw, rfl⟩ := Option.map_eq_some_iff.mp hw'
    exact ⟨w, hw, hf w hw⟩
  · exact ⟨w', hw', fun _ ↦ rfl⟩

theorem consistent_clearTasks (h : Consistent s p) (hk : Idle s k) :
    Consistent (s.setWorker k clearTasks) p := by
  obtain ⟨w, hw, hn⟩ := hk
  refine consistent_setWorker h (fun w' hw' i ↦ ?_)
  rw [hw] at hw'
  cases hw'
  rw [hn i]
  rfl

theorem consistent_disconnect (h : Consistent s p) (hk : Idle s k) :
    Consistent (disconnect k s) p := by
  obtain ⟨w, hw, hn⟩ := hk
  have hc : ∀ j, j ≠ k → Connected s j → Connected (disconnect k s) j := by
    rintro j hj ⟨w, hw⟩
    exact ⟨w, by simp [disconnect, hj, hw]⟩
  refine h.congr (.refl _) rfl (fun _ ↦ rfl) (fun _ ↦ rfl) (fun _ ↦ rfl) (fun j w' hw' ↦ .inl ?_)
    (fun r j hj ↦ hc j ?_ (h.connected r j hj)) (fun j i hi ↦ ?_) (fun _ ↦ ⟨rfl, rfl⟩) rfl le_rfl
  · simp only [disconnect, Table.lookup_remove] at hw'
    split at hw'
    · cases hw'
    · exact ⟨w', hw', fun _ ↦ rfl⟩
  · rintro rfl
    have := (h.held j w hw (s.heap r).taskid r).mpr ⟨rfl, hj⟩
    rw [hn] at this
    cases this
  · simp only [disconnect, Table.lookup_remove] at hi
    split at hi
    · cases hi
    · rename_i hj
      exact ⟨(h.available j i hi).1, hc j hj (h.available j i hi).2⟩

theorem consistent_connect (h : Consistent s p) (now : ℕ) {q : Peer} (hq : ¬ Connected s q.link) :
    Consistent (connect now q s) p := by
  have hn : s.workerTable.lookup q.link = none := by
    rw [Option.eq_none_iff_forall_ne_some]
    exact fun w hw ↦ hq ⟨w, hw⟩
  have hc : ∀ j, Connected s j → Connected (connect now q s) j := by
    rintro j ⟨w, hw⟩
    refine ⟨w, ?_⟩
    simp only [connect, Table.lookup_insertNew]
    rw [if_neg (by rintro rfl; exact hq ⟨w, hw⟩), hw]
  refine h.congr (.refl _) rfl (fun _ ↦ rfl) (fun _ ↦ rfl) (fun _ ↦ rfl) (fun j w' hw' ↦ ?_)
    (fun r j hj ↦ hc j (h.connected r j hj))
    (fun j i hi ↦ ⟨(h.available j i hi).1, hc j (h.available j i hi).2⟩) (fun _ ↦ ⟨rfl, rfl⟩) rfl le_rfl
  simp only [connect, Table.lookup_insertNew, hn] at hw'
  split at hw'
  · rename_i he
    subst he
    cases hw'
    exact .inr ⟨hq, fun _ ↦ rfl⟩
  · exact .inl ⟨w', hw', fun _ ↦ rfl⟩

theorem consistent_rotate (h : Consistent s p) : Consistent (rotateReady s) p := by
  refine h.congr ?_ rfl (fun _ ↦ rfl) (fun _ ↦ rfl) (fun _ ↦ rfl) (fun j w hw ↦ .inl ⟨w, hw, fun _ ↦ rfl⟩)
    h.connected h.available (fun _ ↦ ⟨rfl, rfl⟩) rfl le_rfl
  show (s.readyList.tail ++ s.readyList.take 1).Perm s.readyList
  cases s.readyList with
  | nil => exact .refl _
  | cons r rs => exact List.perm_append_singleton r rs

theorem consistent_forget (h : Consistent s p) : Consistent (forgetAvailableResults k s) p := by
  refine h.congr (.refl _) rfl (fun _ ↦ rfl) (fun _ ↦ rfl) (fun _ ↦ rfl)
    (fun j w hw ↦ .inl ⟨w, hw, fun _ ↦ rfl⟩) h.connected (fun j i hi ↦ ?_) (fun _ ↦ ⟨rfl, rfl⟩) rfl
    le_rfl
  simp only [forgetAvailableResults, Table.lookup_remove] at hi
  split at hi
  · cases hi
  · exact h.available j i hi

theorem consistent_walkAvailable (h : Consistent s p) {t : Table Key Key}
    (ht : t.entries = s.workersWithAvailableResults.entries) :
    Consistent { s with workersWithAvailableResults := t } p :=
  h.congr (.refl _) rfl (fun _ ↦ rfl) (fun _ ↦ rfl) (fun _ ↦ rfl)
    (fun _ w hw ↦ .inl ⟨w, hw, fun _ ↦ rfl⟩) h.connected
    (fun k j hj ↦ h.available k j (hj ▸ congrArg (List.lookup k) ht.symm))
    (fun _ ↦ ⟨rfl, rfl⟩) rfl le_rfl

/-- The same tasks are outstanding. -/
def SameTasks (p p' : Ref → Option Place) : Prop := ∀ r, p' r = none ↔ p r = none

theorem sameTasks_update {q : Place} (hr : p r ≠ none) : SameTasks p (Function.update p r (some q)) := by
  intro r'
  by_cases he : r' = r
  · subst he
    simp [hr]
  · simp [he]

theorem Step.consistent {σ : Scope} (h : Step σ s s') (hc : Consistent s p) :
    ∃ p', Consistent s' p' ∧ SameTasks p p' := by
  have hold : ∀ {k r}, Holds s k r → p r ≠ none := fun hr ↦ ne_none_of_workerOf (hr.workerOf hc)
  cases h with
  | quiet h => exact ⟨p, consistent_quiet h hc, fun _ ↦ .rfl⟩
  | walkAvailable t ht => exact ⟨p, consistent_walkAvailable hc ht, fun _ ↦ .rfl⟩
  | commit now k r hcom hr hk hn =>
    refine ⟨_, consistent_commit hc hr hk now, sameTasks_update ?_⟩
    rw [(hc.ready r).mp (List.mem_of_mem_head? hr)]
    exact Option.some_ne_none _
  | supply k r result hf => exact ⟨p, consistent_same hc, fun _ ↦ .rfl⟩
  | fetch k r hr => exact ⟨p, consistent_same hc, fun _ ↦ .rfl⟩
  | answer => exact ⟨p, consistent_same hc, fun _ ↦ .rfl⟩
  | dispatch now k r w hw hr hs hn => exact ⟨p, consistent_task hc (by rfl) (by rfl), fun _ ↦ .rfl⟩
  | charge received now time k r hr hd hn =>
    exact ⟨p, consistent_task hc (by rfl) (by rfl), fun _ ↦ .rfl⟩
  | finish now k line l r hrec hl hi hr hd hv =>
    exact ⟨_, consistent_finish hc hr now line hi, sameTasks_update (hold hr)⟩
  | fail k r hr hf hg => exact ⟨_, consistent_fail hc hr, sameTasks_update (hold hr)⟩
  | complete now k r hr hf hg hn => exact ⟨_, consistent_complete hc hr now, sameTasks_update (hold hr)⟩
  | requeue elapsed k r hr he => exact ⟨_, consistent_requeue hc hr elapsed, sameTasks_update (hold hr)⟩
  | clearFiles k hash => exact ⟨p, consistent_setWorker hc (fun _ _ _ ↦ rfl), fun _ ↦ .rfl⟩
  | clearTasks k hk => exact ⟨p, consistent_clearTasks hc hk, fun _ ↦ .rfl⟩
  | disconnect k hlea hk => exact ⟨p, consistent_disconnect hc hk, fun _ ↦ .rfl⟩
  | connect now q hq => exact ⟨p, consistent_connect hc now hq, fun _ ↦ .rfl⟩
  | rotate => exact ⟨p, consistent_rotate hc, fun _ ↦ .rfl⟩
  | collect k hk n => exact ⟨p, consistent_same hc, fun _ ↦ .rfl⟩
  | forget k => exact ⟨p, consistent_forget hc, fun _ ↦ .rfl⟩

theorem Step.mono {σ τ : Scope} (h : Step σ s s') (hr : σ.receiving → τ.receiving)
    (hc : σ.committing → τ.committing) (hl : ∀ k, σ.leaving k → τ.leaving k) : Step τ s s' := by
  cases h with
  | quiet h => exact .quiet h
  | walkAvailable t ht => exact .walkAvailable s t ht
  | commit now k r hcom hr hk hn => exact .commit s now k r (hc hcom) hr hk hn
  | supply k r result hf => exact .supply s k r result hf
  | dispatch now k r w hw hr hs hn => exact .dispatch s now k r w hw hr hs hn
  | charge received now time k r hr hd hn => exact .charge s received now time k r hr hd hn
  | finish now k line l r hrec hl hi hr' hd hv =>
    exact .finish s now k line l r (hr hrec) hl hi hr' hd hv
  | fetch k r hr => exact .fetch s k r hr
  | answer k r f name entries result hr h => exact .answer s k r f name entries result hr h
  | fail k r hr hf hg => exact .fail s k r hr hf hg
  | complete now k r hr hf hg hn => exact .complete s now k r hr hf hg hn
  | requeue elapsed k r hr he => exact .requeue s elapsed k r hr he
  | clearFiles k hash => exact .clearFiles s k hash
  | clearTasks k hk => exact .clearTasks s k hk
  | disconnect k hlea hk => exact .disconnect s k (hl k hlea) hk
  | connect now q hq => exact .connect s now q hq
  | rotate => exact .rotate s
  | collect k hk n => exact .collect s k hk n
  | forget k => exact .forget s k

section Step

variable {σ : Scope} (h : Step σ s s')

include h

theorem step_env : s'.env = s.env := by
  cases h with
  | quiet h => exact quiet_env h
  | _ => rfl

theorem step_tasks : s'.tasks = s.tasks := by
  cases h with
  | quiet h => exact quiet_tasks h
  | _ => rfl

theorem step_nextTaskid : s'.nextTaskid = s.nextTaskid := by
  cases h with
  | quiet h => exact quiet_nextTaskid h
  | _ => rfl

theorem step_allocated : s'.allocated = s.allocated := by
  cases h with
  | quiet h => exact quiet_allocated h
  | _ => rfl

theorem step_taskid (r : Ref) : (s'.heap r).taskid = (s.heap r).taskid := by
  cases h with
  | quiet h => exact quiet_taskid h r
  | commit => exact (update_alike (by rfl) (by rfl) r).1
  | dispatch => exact (update_alike (by rfl) (by rfl) r).1
  | charge => exact (update_alike (by rfl) (by rfl) r).1
  | finish => exact (update_alike (by rfl) (by rfl) r).1
  | complete => exact (update_alike (by rfl) (by rfl) r).1
  | requeue => exact (update_alike (by rfl) (by rfl) r).1
  | _ => rfl

theorem step_connected {k : Key} (hk : Connected s k) (hl : ¬ σ.leaving k) : Connected s' k := by
  cases h with
  | quiet h => exact h.connected hk
  | commit now j r => exact connected_alter (k := j) (f := acceptTask (s.heap r) r) rfl k hk
  | fail j r => exact connected_alter (k := j) (f := releaseTask (s.heap r)) rfl k hk
  | complete now j r =>
    exact connected_setWorker (connected_alter (s := s) (k := j) (f := releaseTask (s.heap r)) rfl k hk)
  | requeue elapsed j r => exact connected_alter (k := j) (f := releaseTask _) rfl k hk
  | finish now j => exact connected_setWorker (s := _) (j := j) hk
  | clearFiles j hash => exact connected_setWorker hk
  | clearTasks j hj => exact connected_setWorker hk
  | disconnect j hj =>
    obtain ⟨w, hw⟩ := hk
    refine ⟨w, ?_⟩
    simp only [disconnect, Table.lookup_remove]
    rw [if_neg (by rintro rfl; exact hl hj), hw]
  | connect now q hq =>
    obtain ⟨w, hw⟩ := hk
    refine ⟨w, ?_⟩
    simp only [connect, Table.lookup_insertNew]
    rw [if_neg (by rintro rfl; exact hq ⟨w, hw⟩), hw]
  | _ => exact hk

/-- The history grows by one event at most, and by none that changes what is
outstanding. -/
theorem step_trace : s'.trace = s.trace ∨ ∃ e, s'.trace = s.trace ++ [e] ∧ Internal e ∧
    (Commits e → σ.committing) := by
  cases h with
  | quiet h =>
    rcases quiet_trace h with ht | ⟨e, ht, hm⟩
    · exact .inl ht
    · exact .inr ⟨e, ht, (muted_event hm).1, fun hc ↦ absurd hc (muted_event hm).2.1⟩
  | commit now k r hcom => exact .inr ⟨_, rfl, trivial, fun _ ↦ hcom⟩
  | supply => exact .inr ⟨_, rfl, trivial, False.elim⟩
  | dispatch => exact .inr ⟨_, rfl, trivial, False.elim⟩
  | charge => exact .inr ⟨_, rfl, trivial, False.elim⟩
  | finish => exact .inr ⟨_, rfl, trivial, False.elim⟩
  | fail => exact .inr ⟨_, rfl, trivial, False.elim⟩
  | complete => exact .inr ⟨_, rfl, trivial, False.elim⟩
  | requeue => exact .inr ⟨_, rfl, trivial, False.elim⟩
  | fetch => exact .inr ⟨_, rfl, trivial, False.elim⟩
  | answer => exact .inr ⟨_, rfl, trivial, False.elim⟩
  | disconnect => exact .inr ⟨_, rfl, trivial, False.elim⟩
  | connect => exact .inr ⟨_, rfl, trivial, False.elim⟩
  | collect => exact .inr ⟨_, rfl, trivial, False.elim⟩
  | forget => exact .inr ⟨_, rfl, trivial, False.elim⟩
  | _ => exact .inl rfl

theorem step_outstanding : outstanding s'.trace = outstanding s.trace := by
  rcases step_trace h with he | ⟨e, he, hi, -⟩
  · rw [he]
  · rw [he, outstanding_append hi]

theorem step_dispatched (hc : ¬ σ.committing) (hd : Dispatched s k r) : Dispatched s' k r := by
  rcases step_trace h with he | ⟨e, he, hi, hn⟩
  · rwa [Dispatched, Attempted, he]
  · exact hd.append he hi (fun h ↦ hc (hn h)) (fun _ _ ↦ learn_place)

theorem step_finished (hr : ¬ σ.receiving) {i : ℕ} (hi : s'.finishedTasks.lookup i = some r) :
    s.finishedTasks.lookup i = some r := by
  have hrem : ∀ j, (s.finishedTasks.remove j).lookup i = some r → s.finishedTasks.lookup i = some r := by
    intro j hj
    rw [Table.lookup_remove] at hj
    split at hj
    · cases hj
    · exact hj
  cases h with
  | quiet h => rwa [quiet_finishedTasks h] at hi
  | finish now k line l r' hrec => exact absurd hrec hr
  | fail k r' => exact hrem _ hi
  | complete now k r' => exact hrem _ hi
  | requeue elapsed k r' => exact hrem _ hi
  | _ => exact hi

theorem step_holds (hc : ¬ σ.committing) (hr : Holds s' k r) : Holds s k r := by
  have hi := step_taskid h r
  obtain ⟨w', hw', ht⟩ := hr
  rw [hi] at ht
  have key : ∀ j f, s'.workerTable = s.workerTable.alter j f →
      (∀ w i r, (f w).currentTasks.lookup i = some r → w.currentTasks.lookup i = some r) →
      ∃ w, s.workerTable.lookup k = some w ∧ w.currentTasks.lookup (s.heap r).taskid = some r := by
    intro j f hs hf
    rw [hs, Table.lookup_alter] at hw'
    split at hw'
    · obtain ⟨w, hw, rfl⟩ := Option.map_eq_some_iff.mp hw'
      exact ⟨w, hw, hf w _ _ ht⟩
    · exact ⟨w', hw', ht⟩
  have hrel : ∀ (t : Task) (w : Worker) i r, (releaseTask t w).currentTasks.lookup i = some r →
      w.currentTasks.lookup i = some r := by
    intro t w i r hl
    rw [currentTasks_releaseTask, Table.lookup_remove] at hl
    split at hl
    · cases hl
    · exact hl
  cases h with
  | quiet h =>
    obtain ⟨w, hw, hd⟩ := quiet_worker h hw'
    exact ⟨w, hw, (congrArg (fun x ↦ x.1.lookup (s.heap r).taskid) hd).symm.trans ht⟩
  | commit now j r hcom => exact absurd hcom hc
  | finish now j =>
    exact key j (fun w ↦ { w with finishedTasks := w.finishedTasks + 1 }) rfl (fun _ _ _ h ↦ h)
  | fail j r => exact key j _ rfl (hrel _)
  | complete now j r => exact key j _ (Table.alter_alter _ _ _ _) (hrel _)
  | requeue elapsed j r => exact key j _ rfl (hrel _)
  | clearFiles j hash => exact key j _ rfl (by exact fun _ _ _ h ↦ h)
  | clearTasks j hk => exact key j _ rfl (by rintro _ _ _ ⟨⟩)
  | disconnect j hlea hk =>
    simp only [disconnect, Table.lookup_remove] at hw'
    split at hw'
    · cases hw'
    · exact ⟨w', hw', ht⟩
  | connect now q hq =>
    simp only [connect, Table.lookup_insertNew] at hw'
    split at hw'
    · rename_i he
      subst he
      cases hl : s.workerTable.lookup q.link with
      | none =>
        rw [hl] at hw'
        cases hw'
        cases ht
      | some w => exact absurd ⟨w, hl⟩ hq
    · exact ⟨w', hw', ht⟩
  | _ => exact ⟨w', hw', ht⟩

end Step

end Cyque.Steps
