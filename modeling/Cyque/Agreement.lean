import Cyque.Calls

namespace Cyque.Agreement

open Library.Execution Library.Lookup Library.Scanning Queue Link Workers Dispatch Wait Api Run
open Footprint Placement History Steps Conduct Collect Polling Turns Calls Relation

variable {s : State} {p : Ref → Option Place} {k : Key} {r : Ref} {env : Environment}

/-- How often a task occurs in the four containers of the master. -/
def occurrences (s : State) (r : Ref) : ℕ :=
  s.readyList.count r + s.runningTasks.values.count r + s.finishedTasks.values.count r +
    s.completeList.count r

def Listed (s : State) (r : Ref) : Prop := ∃ id, s.tasks id = some r

theorem listed_iff (h : Orderly s p) : Listed s r ↔ p r ≠ none := by
  constructor
  · rintro ⟨id, hid⟩
    exact ((h.listed id r).mp hid).1
  · exact fun hr ↦ ⟨_, (h.listed _ r).mpr ⟨hr, rfl⟩⟩

theorem mem_running_iff (h : Consistent s p) : r ∈ s.runningTasks.values ↔ isRunning (p r) := by
  rw [Table.mem_values_iff]
  constructor
  · rintro ⟨i, hi⟩
    exact ((h.running i r).mp hi).2
  · exact fun hr ↦ ⟨_, (h.running _ r).mpr ⟨rfl, hr⟩⟩

theorem mem_finished_iff (h : Consistent s p) : r ∈ s.finishedTasks.values ↔ isFinished (p r) := by
  rw [Table.mem_values_iff]
  constructor
  · rintro ⟨i, hi⟩
    exact ((h.finished i r).mp hi).2
  · exact fun hr ↦ ⟨_, (h.finished _ r).mpr ⟨rfl, hr⟩⟩

theorem occurrences_eq (h : Consistent s p) :
    occurrences s r = if p r = none then 0 else 1 := by
  have hr := s.runningTasks.values_nodup (fun r ↦ (s.heap r).taskid)
    (fun i r hi ↦ ((h.running i r).mp hi).1)
  have hf := s.finishedTasks.values_nodup (fun r ↦ (s.heap r).taskid)
    (fun i r hi ↦ ((h.finished i r).mp hi).1)
  rw [occurrences, h.ready_nodup.count, hr.count, hf.count, h.complete_nodup.count]
  simp only [h.ready, mem_running_iff h, mem_finished_iff h, h.complete]
  cases p r with
  | none => rfl
  | some q => cases q <;> rfl

/-- The worker `k` has the task, and no other worker has it. -/
def HeldBy (s : State) (k : Key) (id : ℕ) (r : Ref) : Prop :=
  s.workerTaskMap.lookup id = some k ∧
    (∃ w, s.workerTable.lookup k = some w ∧ w.currentTasks.lookup id = some r) ∧
    ∀ j w, j ≠ k → s.workerTable.lookup j = some w → r ∉ w.currentTasks.values

theorem heldBy_iff (h : Consistent s p) (hr : p r ≠ none) :
    HeldBy s k (s.heap r).taskid r ↔ workerOf (p r) = some k := by
  constructor
  · rintro ⟨hm, -⟩
    rwa [h.mapped_at hr] at hm
  · intro hk
    obtain ⟨w, hw⟩ := h.connected r k hk
    refine ⟨by rw [h.mapped_at hr, hk], ⟨w, hw, by rw [h.held_at hr hw, if_pos hk]⟩, ?_⟩
    intro j w' hj hw' hm
    obtain ⟨i, hi⟩ := (Table.mem_values_iff _ r).mp hm
    have := ((h.held j w' hw' i r).mp hi).2
    rw [hk] at this
    exact hj (Option.some.inj this).symm

theorem workerOf_isSome (q : Option Place) :
    (∃ k, workerOf q = some k) ↔ isRunning q ∨ isFinished q := by
  cases q with
  | none => simp [workerOf, isRunning, isFinished]
  | some q => cases q <;> simp [workerOf, isRunning, isFinished]

theorem queue_agrees (h : Reachable (fun _ _ ↦ True) env s) :
    s.tasks = outstanding s.trace ∧
      (∀ id r, s.tasks id = some r → ((s.heap r).taskid : ℤ) = id) ∧
      (∀ r, (Listed s r → occurrences s r = 1) ∧ (¬ Listed s r → occurrences s r = 0)) ∧
      (∀ r, Listed s r → ((r ∈ s.runningTasks.values ∨ r ∈ s.finishedTasks.values) ↔
        ∃ k, HeldBy s k (s.heap r).taskid r)) ∧
      (∀ k w i r, s.workerTable.lookup k = some w → w.currentTasks.lookup i = some r →
        Listed s r ∧ HeldBy s k i r) := by
  obtain ⟨⟨p, hp⟩, -⟩ := reachable_sound h
  have hc := hp.consistent
  refine ⟨hp.recorded, fun id r hr ↦ ((hp.listed id r).mp hr).2, fun r ↦ ⟨fun hr ↦ ?_, fun hr ↦ ?_⟩,
    fun r hr ↦ ?_, fun k w i r hw hi ↦ ?_⟩
  · rw [occurrences_eq hc, if_neg ((listed_iff hp).mp hr)]
  · rw [listed_iff hp, not_not] at hr
    rw [occurrences_eq hc, if_pos hr]
  · have hpr := (listed_iff hp).mp hr
    simp only [heldBy_iff hc hpr, mem_running_iff hc, mem_finished_iff hc, workerOf_isSome]
  · obtain ⟨rfl, hk⟩ := (hc.held k w hw i r).mp hi
    have hpr := ne_none_of_workerOf hk
    exact ⟨(listed_iff hp).mpr hpr, (heldBy_iff hc hpr).mpr hk⟩

def silence : Environment where
  hashString := List.length
  md5String := id
  answers := fun _ ↦
    { now := 0
      arrived := 0
      closed := false
      wrote := 0
      opened := false
      moved := 0
      leftover := []
      stat := none
      names := []
      peer := none
      listening := false
      ready := fun _ ↦ false }

/-- The queue after `NewTask` and `Submit`. -/
def oneTask (env : Environment) (command : Text) : State :=
  submitTask (env.answers 0).now 0 (create command (newQueue env)).tick

theorem reachable_oneTask (env : Environment) (command : Text) :
    Reachable (fun _ _ ↦ True) env (oneTask env command) := by
  have h₁ : Reachable (fun _ _ ↦ True) env (create command (newQueue env)) :=
    .call (n := 0) (c := .newTask command) .start trivial trivial rfl
  exact .call (n := 0) (c := .submit 0) h₁ ⟨Nat.one_pos, by rintro i ⟨⟩,
    (by decide : 1 < 2 ^ 31 - 1)⟩ trivial rfl

def lines (ls : List String) : Text := ls.flatMap (fun l ↦ l.toList ++ ['\n'])

/-- Surroundings with a single worker, which sends `incoming` and never closes
its link. -/
def alone (incoming : Text) : Environment where
  hashString := List.length
  md5String := id
  answers := fun _ ↦
    { now := 1
      arrived := 10000
      closed := false
      wrote := 1
      opened := true
      moved := 0
      leftover := []
      stat := none
      names := []
      peer := some ⟨1, "10.0.0.1:1024".toList, incoming⟩
      listening := true
      ready := fun _ ↦ true }

/-- A worker that runs its task to the exit status 7. -/
def finishing : Environment := alone (lines ["workqueue 3 host linux x86 4",
  "resource workers 0 0 1 0 0", "available_results", "result 7 0 0 1", "end"])

def twoTasks (env : Environment) : State :=
  let s := create [] (create [] (newQueue env))
  let s := submitTask (env.answers 0).now 0 s.tick
  submitTask (env.answers 1).now 1 s.tick

theorem reachable_twoTasks {ok : State → Call → Prop} (env : Environment)
    (h : ∀ s c, c ≠ .cancelAllTasks → ok s c) : Reachable ok env (twoTasks env) := by
  have h₁ : Reachable ok env (create [] (newQueue env)) :=
    .call (n := 0) (c := .newTask []) .start trivial (h _ _ (by rintro ⟨⟩)) rfl
  have h₂ : Reachable ok env (create [] (create [] (newQueue env))) :=
    .call (n := 0) (c := .newTask []) h₁ trivial (h _ _ (by rintro ⟨⟩)) rfl
  have h₃ := Reachable.call (n := 0) (c := .submit 0) h₂ ⟨Nat.two_pos, by rintro i ⟨⟩,
    (by decide : 1 < 2 ^ 31 - 1)⟩ (h _ _ (by rintro ⟨⟩)) rfl
  refine .call (n := 0) (c := .submit 1) h₃ ⟨Nat.one_lt_two, fun i hi ↦ ?_,
    (by decide : 2 < 2 ^ 31 - 1)⟩ (h _ _ (by rintro ⟨⟩)) rfl
  simp only [submitTask, Function.update_apply] at hi
  split at hi <;> cases hi

/-- A worker that closes its link when it has two tasks, comes back for both, and
finishes the first. -/
def returning : Environment :=
  let incoming := lines ["workqueue 3 host linux x86 4", "resource workers 0 0 2 0 0"]
  let answers := (alone (incoming ++ lines ["available_results", "result 0 0 0 1", "end"])).answers
  { alone incoming with
    answers := fun i ↦
      { answers i with
        closed := true
        peer := if i < 20 then ((alone incoming).answers i).peer else (answers i).peer } }

theorem queue_agrees_returning :
    ∃ s, Reachable (fun _ _ ↦ True) returning s ∧ .removed 1 ∈ s.trace ∧
      .result 1 0 "result 0 0 0 1".toList ∈ s.trace ∧ s.tasks = outstanding s.trace ∧
      occurrences s 0 = 0 ∧ occurrences s 1 = 1 ∧ HeldBy s 1 2 1 := by
  obtain ⟨_, s, hp, ht⟩ := exists_of_returns (f := perform .wait) (n := 40) (s := twoTasks returning)
    (t := fun _ s ↦ decide (Event.removed 1 ∈ s.trace ∧ Event.result 1 0 "result 0 0 0 1".toList ∈ s.trace ∧
      (s.heap 0).taskid = 1 ∧ s.tasks 1 = none ∧ s.tasks 2 = some 1) &&
        (s.workerTable.lookup 1).any (fun w : Worker ↦ decide (w.currentTasks.lookup 2 = some 1)))
    (by decide +kernel)
  have hr : Reachable (fun _ _ ↦ True) returning s :=
    .call (c := .wait) (reachable_twoTasks _ (fun _ _ _ ↦ trivial)) trivial trivial hp
  obtain ⟨hs, hw⟩ := Bool.and_eq_true_iff.mp ht
  obtain ⟨hlost, hresult, hid, hfirst, hsecond⟩ := of_decide_eq_true hs
  obtain ⟨w, hw, hheld⟩ := (Option.any_eq_true _ _).mp hw
  obtain ⟨htasks, hnumber, honce, -, hworker⟩ := queue_agrees hr
  refine ⟨s, hr, hlost, hresult, htasks, (honce 0).2 ?_, (honce 1).1 ⟨2, hsecond⟩,
    (hworker 1 w 2 1 hw (of_decide_eq_true hheld)).2⟩
  rintro ⟨id, hl⟩
  have hone := hnumber id 0 hl
  rw [hid, Nat.cast_one] at hone
  subst hone
  rw [hfirst] at hl
  cases hl

/-- `Empty` answers what its name and the documentation of `work_queue_empty`
promise. -/
def EmptyExact (s : State) : Prop := empty s = true ↔ ∀ id, s.tasks id = none

theorem sizes_eq_zero_iff (h : Consistent s p) :
    s.readyList.length + s.runningTasks.size + s.finishedTasks.size + s.completeList.length = 0 ↔
      ∀ r, p r = none := by
  constructor
  · intro hz r
    by_contra hr
    have hone : occurrences s r = 1 := by rw [occurrences_eq h, if_neg hr]
    have hrun : s.runningTasks.values.length = s.runningTasks.size := List.length_map _
    have hfin : s.finishedTasks.values.length = s.finishedTasks.size := List.length_map _
    have h₁ := List.count_le_length (a := r) (l := s.readyList)
    have h₂ := List.count_le_length (a := r) (l := s.runningTasks.values)
    have h₃ := List.count_le_length (a := r) (l := s.finishedTasks.values)
    have h₄ := List.count_le_length (a := r) (l := s.completeList)
    unfold occurrences at hone
    omega
  · intro hn
    have hready : s.readyList = [] := List.eq_nil_iff_forall_not_mem.mpr
      (fun r hr ↦ by simpa [hn r] using (h.ready r).mp hr)
    have hcomplete : s.completeList = [] := List.eq_nil_iff_forall_not_mem.mpr
      (fun r hr ↦ by simpa [hn r] using (h.complete r).mp hr)
    have hrun : s.runningTasks.size = 0 := (Table.size_eq_zero_iff _).mpr (fun i ↦
      Option.eq_none_iff_forall_ne_some.mpr (fun r hr ↦ by
        simpa [hn r, isRunning] using (h.running i r).mp hr))
    have hfin : s.finishedTasks.size = 0 := (Table.size_eq_zero_iff _).mpr (fun i ↦
      Option.eq_none_iff_forall_ne_some.mpr (fun r hr ↦ by
        simpa [hn r, isFinished] using (h.finished i r).mp hr))
    rw [hready, hcomplete, hrun, hfin]
    rfl

theorem tasks_eq_none_iff (h : Orderly s p) : (∀ id, s.tasks id = none) ↔ ∀ r, p r = none := by
  constructor
  · intro ht r
    by_contra hr
    have := (h.listed _ r).mpr ⟨hr, rfl⟩
    rw [ht] at this
    cases this
  · intro hn id
    rw [Option.eq_none_iff_forall_ne_some]
    exact fun r hr ↦ ((h.listed id r).mp hr).1 (hn r)

/-- The comparison with zero turns the answer around. -/
theorem not_emptyExact (h : Reachable (fun _ _ ↦ True) env s) :
    ¬ EmptyExact s ∧ ¬ (empty s = true ↔ ∀ id, outstanding s.trace id = none) := by
  obtain ⟨⟨p, hp⟩, -⟩ := reachable_sound h
  have key : ¬ (empty s = true ↔ ∀ id, s.tasks id = none) := by
    rw [tasks_eq_none_iff hp, ← sizes_eq_zero_iff hp.consistent, empty, workQueueEmpty]
    split
    · rename_i hz
      exact fun h ↦ absurd (h.mpr hz) (by decide)
    · rename_i hz
      exact fun h ↦ hz (h.mp rfl)
  exact ⟨key, hp.recorded ▸ key⟩

theorem not_emptyExact_oneTask : ¬ EmptyExact (oneTask silence []) :=
  (not_emptyExact (reachable_oneTask silence [])).1

theorem newQueue_not_empty :
    Reachable (fun _ _ ↦ True) silence (newQueue silence) ∧
      (∀ id, (newQueue silence).tasks id = none) ∧ empty (newQueue silence) = false ∧
      ¬ EmptyExact (newQueue silence) := by
  refine ⟨.start, fun _ ↦ rfl, rfl, fun h ↦ ?_⟩
  have := h.mpr (fun _ ↦ rfl)
  cases this

end Cyque.Agreement
