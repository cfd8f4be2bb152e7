import Cyque.Run
import Cyque.Turns

namespace Cyque.Calls

open Library.Execution Library.Lookup Library.Scanning Queue Link Files Workers Messages Transfer
open Dispatch Wait Api Run Footprint Exchange Placement History Steps Conduct Collect Polling Turns
open Relation

/-- The containers, the map of the Go side and the history agree. -/
structure Orderly (s : State) (p : Ref → Option Place) : Prop where
  consistent : Consistent s p
  listed : ∀ i r, s.tasks i = some r ↔ p r ≠ none ∧ ((s.heap r).taskid : ℤ) = i
  recorded : s.tasks = outstanding s.trace
  next : 0 < s.nextTaskid

def Sound (s : State) : Prop := (∃ p, Orderly s p) ∧ Settled s

variable {s s' : State} {p p' : Ref → Option Place} {k : Key} {r : Ref} {σ : Scope}

theorem Sound.steadfast (h : Sound s) : Steadfast s := by
  obtain ⟨⟨p, hp⟩, hs⟩ := h
  exact ⟨⟨p, hp.consistent⟩, hs⟩

theorem orderly_run (h : Run σ s s') (hs : ∃ p, Orderly s p) : ∃ p, Orderly s' p := by
  induction h with
  | refl => exact hs
  | tail _ hstep ih =>
    obtain ⟨p, hp⟩ := ih
    obtain ⟨p', hp', hsame⟩ := hstep.consistent hp.consistent
    refine ⟨p', hp', fun i r ↦ ?_, ?_, ?_⟩
    · rw [step_tasks hstep, step_taskid hstep, hp.listed, ne_eq, ne_eq, hsame r]
    · rw [step_tasks hstep, step_outstanding hstep, hp.recorded]
    · rw [step_nextTaskid hstep]
      exact hp.next

theorem sound_still (h : Run .still s s') (hs : Sound s) : Sound s' :=
  ⟨orderly_run h hs.1, h.settled id hs.2⟩

theorem turns_of_run {d : Prop} (h : Run σ s s') : ReflTransGen (Turn σ d) s s' :=
  ReflTransGen.mono (fun _ _ hs ↦ .step hs) _ _ h

theorem turns_of_still {d : Prop} (h : Run .still s s') :
    ReflTransGen (Turn σ d) s s' :=
  turns_of_run (h.mono False.elim False.elim (fun _ ↦ False.elim))

theorem holds_iff (h : Consistent s p) : Holds s k r ↔ workerOf (p r) = some k := by
  refine ⟨fun hr ↦ hr.workerOf h, fun hk ↦ ?_⟩
  obtain ⟨w, hw⟩ := h.connected r k hk
  exact ⟨w, hw, (h.held k w hw _ r).mpr ⟨rfl, hk⟩⟩

theorem settled_of (h : Consistent s p) (h' : Consistent s' p') (hs : Settled s)
    (hp : ∀ r k, workerOf (p' r) = some k →
      workerOf (p r) = some k ∧ attempt r s'.trace = attempt r s.trace) : Settled s' := by
  intro k r hr
  obtain ⟨hk, ha⟩ := hp r k (hr.workerOf h')
  rw [Dispatched, Attempted, ha]
  exact hs k r ((holds_iff h).mpr hk)

/-- A call keeps the queue sound, and is made of turns. -/
def Keeps {α : Type} (σ : Scope) (d : Prop) (P : State → Prop) (f : M α) : Prop :=
  Spec (fun s ↦ Sound s ∧ P s) f (fun s _ s' ↦ Sound s' ∧ ReflTransGen (Turn σ d) s s')

variable {d : Prop}

theorem keeps_newTask (command : Text) : Keeps σ d (fun _ ↦ True) (newTask command) := by
  refine Spec.of_done ?_
  rintro n s ⟨⟨⟨p, hp⟩, hs⟩, -⟩
  refine ⟨_, create command s, rfl, ⟨⟨p, ?_⟩, ?_⟩, .single (.create s command)⟩
  · have hc := consistent_create hp.consistent command
    refine ⟨hc, fun i r ↦ ?_, hp.recorded, hp.next⟩
    show s.tasks i = some r ↔ _
    rw [hp.listed]
    refine and_congr_right (fun hr ↦ ?_)
    simp [create, Function.update_of_ne (hp.consistent.made r hr).ne]
  · exact settled_of hp.consistent (consistent_create hp.consistent command) hs
      (fun r k hk ↦ ⟨hk, rfl⟩)

theorem report_specifyFile {t t' : Task} {localName remoteName : Text} {type : Direction} {flags : ℤ}
    (h : workQueueTaskSpecifyFile t localName remoteName type flags = some t') :
    report t' = report t ∧ t'.result = t.result := by
  unfold workQueueTaskSpecifyFile at h
  split at h
  · cases h
  · split at h
    · cases h
    · cases type <;> cases h <;> exact ⟨rfl, rfl⟩

theorem keeps_addfile (r : Ref) (localName remoteName : Text) (wantCache : Bool) (type : Direction) :
    Keeps σ d (fun _ ↦ True) (addfile r localName remoteName wantCache type) := by
  rintro n s ⟨hs, -⟩
  simp only [addfile, bind_apply, get_apply]
  cases h : workQueueTaskSpecifyFile (s.heap r) (cString localName) (cString remoteName) type
      (if wantCache then 1 else 0) with
  | none => exact ⟨hs, .refl⟩
  | some t =>
    have hstep : Step .still s (s.setTask r (fun _ ↦ t)) :=
      .quiet (k := 0) (.task s r _ (report_specifyFile h).1 (report_specifyFile h).2)
    exact ⟨sound_still (.single hstep) hs, turns_of_still (.single hstep)⟩

theorem outstanding_submitted (trace : List Event) (r : Ref) (id : ℕ) :
    outstanding (trace ++ [.submitted r id]) = Function.update (outstanding trace) id (some r) := by
  rw [outstanding, List.foldl_append]
  rfl

theorem keeps_submit (r : Ref) :
    Keeps σ d (fun s ↦ r < s.allocated ∧ (∀ i, s.tasks i ≠ some r) ∧
      s.nextTaskid < 2 ^ 31 - 1) (submit r) := by
  refine Spec.of_done ?_
  rintro n s₀ ⟨hs₀, ha, hr, hl⟩
  let s : State := s₀.tick
  have hcall : Run .still s₀ s := .single (.quiet (k := 0) (.tick s₀))
  obtain ⟨⟨p, hp⟩, hs⟩ := sound_still hcall hs₀
  let now := (s₀.env.answers s₀.calls).now
  have hpr : p r = none := by
    by_contra hn
    exact hr _ ((hp.listed _ r).mpr ⟨hn, rfl⟩)
  have hc := consistent_submit hp.consistent hpr ha hp.next now
  refine ⟨_, submitTask now r s, rfl, ⟨⟨_, hc, fun i r' ↦ ?_, ?_, Nat.succ_pos _⟩, ?_⟩,
    (turns_of_still hcall).tail (.submit s now r ha hp.next hl ⟨p, hp.consistent, hpr⟩
      (reads_tick s₀))⟩
  · have hl := hp.listed i r'
    have hlt := hp.consistent.named r'
    have hid : ((submitTask now r s).heap r').taskid =
        if r' = r then s.nextTaskid else (s.heap r').taskid := by
      by_cases he : r' = r
      · subst he
        simp [submitTask, resetTask]
      · simp [submitTask, he]
    show Function.update s.tasks s.nextTaskid (some r) i = some r' ↔ _
    rw [hid, Function.update_apply, Function.update_apply]
    by_cases he : r' = r
    · subst he
      grind
    · grind
  · show Function.update s.tasks s.nextTaskid (some r) = _
    rw [hp.recorded]
    exact (outstanding_submitted s.trace r s.nextTaskid).symm
  · refine settled_of hp.consistent hc hs (fun r' k hk ↦ ?_)
    rw [Function.update_apply] at hk
    split at hk
    · cases hk
    · rename_i he
      refine ⟨hk, ?_⟩
      show attempt r' (s.trace ++ [_]) = _
      rw [attempt_append]
      simp [record, Ne.symm he]

/-- How `Wait` ends after a run that led to the state `t`. -/
inductive Waits (t : State) : Option Ref → State → Prop
  | task (r : Ref) (h : t.completeList.head? = some r) :
      Waits t (some r) (handOver (t.heap r).taskid r (t.heap r) (popComplete t))
  | none (hc : t.completeList = []) (hr : t.runningTasks.size = 0) (hl : t.readyList = []) :
      Waits t none (t.log .gaveUp)

theorem spec_wait :
    Spec Sound wait (fun s a s' ↦ ∃ t, Run .waiting s t ∧ Sound t ∧ (Drained s → Drained t) ∧
      Waits t a s') := by
  refine Spec.bind (spec_workQueueWait.pre (fun s hs ↦ hs.steadfast)) (fun s₀ a hs₀ ↦ Spec.of_done ?_)
  rintro n s ⟨t, hrun, hst, hd, hend⟩
  have ht : Sound t := ⟨orderly_run hrun hs₀.1, hst.2⟩
  cases hend with
  | none hc hr hl => exact ⟨_, _, rfl, _, hrun, ht, hd, .none hc hr hl⟩
  | task r hr =>
    obtain ⟨p, hp⟩ := ht.1
    have hpr : p r = some .complete := (hp.consistent.complete r).mp (List.mem_of_mem_head? hr)
    have hl : t.tasks (t.heap r).taskid = some r :=
      (hp.listed _ r).mpr ⟨by rw [hpr]; exact Option.some_ne_none _, rfl⟩
    refine ⟨some r, _, ?_, t, hrun, ht, hd, .task r hr⟩
    simp only [bind_apply, get_apply, popComplete, hl, deref_some, pure_apply, modify_apply]

/-- What leaves the queue leaves the map of the Go side with it. -/
theorem orderly_leave {id : ℤ} (h : Orderly s p) (hr : p r ≠ none) (hi : ((s.heap r).taskid : ℤ) = id)
    (hc : Consistent s' (Function.update p r none)) (ht : s'.tasks = Function.update s.tasks id none)
    (ho : outstanding s'.trace = Function.update (outstanding s.trace) id none)
    (hheap : ∀ r, (s'.heap r).taskid = (s.heap r).taskid) (hn : s'.nextTaskid = s.nextTaskid) :
    Orderly s' (Function.update p r none) := by
  refine ⟨hc, fun i r' ↦ ?_, by rw [ht, ho, h.recorded], hn ▸ h.next⟩
  have hl := h.listed i r'
  have hd := h.consistent.distinct r r' hr
  rw [ht, hheap, Function.update_apply, Function.update_apply]
  by_cases he : r' = r
  · subst he
    grind
  · grind

theorem sound_handOver (h : Sound s) (hr : s.completeList.head? = some r) :
    Sound (handOver (s.heap r).taskid r (s.heap r) (popComplete s)) := by
  obtain ⟨⟨p, hp⟩, hs⟩ := h
  have hpr : p r = some .complete := (hp.consistent.complete r).mp (List.mem_of_mem_head? hr)
  have hn : p r ≠ none := by rw [hpr]; exact Option.some_ne_none _
  have hc := consistent_handOver (s.heap r).taskid (s.heap r) hp.consistent hr
  refine ⟨⟨_, orderly_leave hp hn rfl hc rfl ?_ (fun _ ↦ rfl) rfl⟩, ?_⟩
  · show outstanding (s.trace ++ [_]) = _
    rw [outstanding, List.foldl_append]
    rfl
  · refine settled_of hp.consistent hc hs (fun r' k hk ↦ ⟨?_, ?_⟩)
    · rw [Function.update_apply] at hk
      split at hk
      · cases hk
      · exact hk
    · show attempt r' (s.trace ++ [_]) = _
      rw [attempt_append]
      cases ha : attempt r' s.trace <;> rfl

theorem sound_gaveUp (h : Sound s) : Sound (s.log .gaveUp) := by
  obtain ⟨⟨p, hp⟩, hs⟩ := h
  have hc : Consistent (s.log .gaveUp) p := consistent_same hp.consistent
  refine ⟨⟨p, hc, hp.listed, ?_, hp.next⟩, settled_of hp.consistent hc hs (fun r k hk ↦ ⟨hk, ?_⟩)⟩
  · rw [show (s.log .gaveUp).tasks = s.tasks from rfl, hp.recorded]
    show _ = outstanding (s.trace ++ [_])
    rw [outstanding, outstanding, List.foldl_append]
    rfl
  · show attempt r (s.trace ++ [_]) = _
    rw [attempt_append]
    cases ha : attempt r s.trace <;> rfl

theorem keeps_wait : Keeps .waiting d (fun _ ↦ True) wait := by
  refine spec_wait.conseq (fun s hs ↦ hs.1) ?_
  rintro s a s' - ⟨t, hrun, ht, -, hw⟩
  cases hw with
  | task r hr => exact ⟨sound_handOver ht hr, (turns_of_run hrun).tail (.handOver t r hr)⟩
  | none => exact ⟨sound_gaveUp ht, (turns_of_run hrun).tail (.gaveUp t)⟩

theorem keeps_killWorkers : Keeps σ d (fun _ ↦ True) killWorkers := by
  rintro n s ⟨hs, -⟩
  have hstep : Step .still s { s with workerTable := s.workerTable.firstKey } :=
    .quiet (k := 0) (.walk s _ rfl)
  have h : Sound { s with workerTable := s.workerTable.firstKey } ∧
      ReflTransGen (Turn σ d) s { s with workerTable := s.workerTable.firstKey } :=
    ⟨sound_still (.single hstep) hs, turns_of_still (.single hstep)⟩
  cases n with
  | zero => trivial
  | succ n => exact h

/-- What `CancelTask` does, by where the task is. -/
inductive Cancels (id : ℤ) (s : State) : State → Prop
  | held (k : Key) (r : Ref) (u : State) (hi : ((s.heap r).taskid : ℤ) = id) (hr : Holds s k r)
      (hq : ReflTransGen (Quiet k) s u) : Cancels id s (withdraw id (exhaust (release k r u)))
  | ready (r : Ref) (hi : ((s.heap r).taskid : ℤ) = id) (hr : r ∈ s.readyList) :
      Cancels id s (withdraw id { s with readyList := s.readyList.erase r })
  | complete (r : Ref) (hi : ((s.heap r).taskid : ℤ) = id) (hr : r ∈ s.completeList) :
      Cancels id s (withdraw id { s with completeList := s.completeList.erase r })
  | nothing (hn : s.tasks id = none) : Cancels id s (withdraw id s)

theorem findRunningTaskById_eq_some (h : Consistent s p) {i : ℕ}
    (hf : findRunningTaskById s i = some r) :
    (s.heap r).taskid = i ∧ ∃ k, workerOf (p r) = some k := by
  rcases Option.or_eq_some_iff.mp hf with hl | ⟨-, hl⟩
  · have hr := (h.running i r).mp hl
    refine ⟨hr.1, ?_⟩
    cases hq : p r with
    | none => rw [hq] at hr; cases hr.2
    | some q => cases q <;> rw [hq] at hr <;> first | exact ⟨_, rfl⟩ | cases hr.2
  · have hr := (h.finished i r).mp hl
    refine ⟨hr.1, ?_⟩
    cases hq : p r with
    | none => rw [hq] at hr; cases hr.2
    | some q => cases q <;> rw [hq] at hr <;> first | exact ⟨_, rfl⟩ | cases hr.2

theorem findRunningTaskById_eq_none (h : Consistent s p) {i : ℕ}
    (hf : findRunningTaskById s i = none) (hi : (s.heap r).taskid = i) : workerOf (p r) = none := by
  obtain ⟨hr, hfin⟩ := Option.or_eq_none_iff.mp hf
  by_contra hn
  have h₁ : ¬ isRunning (p r) := fun hq ↦ by
    rw [(h.running i r).mpr ⟨hi, hq⟩] at hr
    cases hr
  have h₂ : ¬ isFinished (p r) := fun hq ↦ by
    rw [(h.finished i r).mpr ⟨hi, hq⟩] at hfin
    cases hfin
  cases hq : p r with
  | none => rw [hq] at hn; exact hn rfl
  | some q => cases q <;> simp_all [isRunning, isFinished, workerOf]

theorem findTask_eq_some {id : ℤ} {rs : List Ref} (h : findTask s id rs = some r) :
    r ∈ rs ∧ ((s.heap r).taskid : ℤ) = id :=
  ⟨List.mem_of_find?_eq_some h, by simpa using List.find?_some h⟩

theorem findTask_eq_none {id : ℤ} {rs : List Ref} (h : findTask s id rs = none)
    (hi : ((s.heap r).taskid : ℤ) = id) : r ∉ rs := by
  intro hr
  have := List.find?_eq_none.mp h r hr
  simp [hi] at this

theorem spec_hushed {α : Type} {f : M α} (hf : Silent k f) (hk : Connected s k) :
    Spec (ReflTransGen (Quiet k) s) f (fun _ _ t ↦ ReflTransGen (Quiet k) s t) :=
  hf.conseq (fun _ ht ↦ (steady k).keeps hk ht) (fun _ _ _ ht h ↦ ht.trans h)

theorem spec_cancelRunningTask (h : Consistent s p) (hk : workerOf (p r) = some k) :
    Spec (fun t ↦ t = s) (cancelRunningTask r)
      (fun _ _ s' ↦ ∃ u, ReflTransGen (Quiet k) s u ∧ s' = exhaust (release k r u)) := by
  have hc := h.connected r k hk
  have hm : s.workerTaskMap.lookup (s.heap r).taskid = some k := by
    rw [h.mapped_at (ne_none_of_workerOf hk), hk]
  refine Spec.run (fun _ ↦ rfl) ?_
  simp only [hm]
  refine Spec.pre (P := ReflTransGen (Quiet k) s) ?_ (by rintro _ rfl; exact .refl)
  refine Spec.bind (spec_hushed (silent_sendWorkerMsg (by simp [Plain])) hc) (fun _ _ _ ↦
    Spec.bind (spec_hushed (silent_deleteWorkerFiles _ _) hc) (fun _ _ _ ↦
    Spec.bind (spec_hushed (silent_deleteWorkerFiles _ _) hc) (fun _ _ _ ↦ Spec.of_done ?_)))
  exact fun n u hu ↦ ⟨(), _, rfl, u, hu, rfl⟩

theorem spec_cancelTask (id : ℤ) :
    Spec (fun s ↦ Sound s ∧ wrap id = id) (cancelTask id) (fun s _ s' ↦ Cancels id s s') := by
  refine Spec.at ?_
  rintro s ⟨⟨⟨p, hp⟩, -⟩, hw⟩
  have hdone : ∀ {f : M Unit}, Spec (fun t ↦ t = s) f (fun _ _ u ↦ Cancels id s (withdraw id u)) →
      Spec (fun t ↦ t = s) (do
        f
        modify (withdraw id)) (fun s _ s' ↦ Cancels id s s') := by
    refine fun hf ↦ Spec.bind hf ?_
    rintro _ _ rfl
    exact Spec.modify _ (fun _ h ↦ h)
  have hnone : (∀ r, p r ≠ none → ((s.heap r).taskid : ℤ) ≠ id) → s.tasks id = none := by
    intro h
    rw [Option.eq_none_iff_forall_ne_some]
    intro r hr
    have := (hp.listed id r).mp hr
    exact h r this.1 this.2
  rw [cancelTask, hw]
  refine hdone ?_
  refine Spec.run (fun _ ↦ rfl) ?_
  refine Spec.ite (fun h0 ↦ ?_) (fun h0 ↦ Spec.pure _ ?_)
  · have hid : ((id.toNat : ℕ) : ℤ) = id := Int.toNat_of_nonneg h0.le
    cases hf : findRunningTaskById s id.toNat with
    | some r =>
      obtain ⟨hi, k, hk⟩ := findRunningTaskById_eq_some hp.consistent hf
      refine (spec_cancelRunningTask hp.consistent hk).post ?_
      rintro _ _ _ _ ⟨u, hu, rfl⟩
      exact .held k r u (by rw [hi, hid]) ((holds_iff hp.consistent).mpr hk) hu
    | none =>
      have hheld : ∀ r, ((s.heap r).taskid : ℤ) = id → workerOf (p r) = none := fun r hr ↦
        findRunningTaskById_eq_none hp.consistent hf (by omega)
      cases hr : findTask s id s.readyList with
      | some r =>
        refine Spec.modify _ ?_
        rintro _ rfl
        exact .ready r (findTask_eq_some hr).2 (findTask_eq_some hr).1
      | none =>
        cases hc : findTask s id s.completeList with
        | some r =>
          refine Spec.modify _ ?_
          rintro _ rfl
          exact .complete r (findTask_eq_some hc).2 (findTask_eq_some hc).1
        | none =>
          refine Spec.pure _ ?_
          rintro _ rfl
          refine .nothing (hnone (fun r hpr hi ↦ ?_))
          have h₁ := findTask_eq_none hr hi
          have h₂ := findTask_eq_none hc hi
          rw [hp.consistent.ready] at h₁
          rw [hp.consistent.complete] at h₂
          have h₃ := hheld r hi
          cases hq : p r with
          | none => exact hpr hq
          | some q => cases q <;> simp_all [workerOf]
  · rintro _ rfl
    refine .nothing (hnone (fun r hpr hi ↦ ?_))
    have := (hp.consistent.named r hpr).1
    omega

theorem outstanding_cancelled (trace : List Event) (id : ℤ) :
    outstanding (trace ++ [.cancelled id]) = Function.update (outstanding trace) id none := by
  rw [outstanding, List.foldl_append]
  rfl

theorem attempt_external {trace : List Event} {e : Event} (hi : ∀ r' i, e ≠ .submitted r' i)
    (hn : ¬ Internal e) : attempt r (trace ++ [e]) = attempt r trace := by
  rw [attempt_append]
  cases ha : attempt r trace <;> cases e <;> first | rfl | exact absurd trivial hn | exact absurd rfl (hi _ _)

theorem sound_withdraw {id : ℤ} {u : State} (h : Orderly s p) (hs : Settled s) (hr : p r ≠ none)
    (hi : ((s.heap r).taskid : ℤ) = id) (hc : Consistent u (Function.update p r none))
    (ht : u.tasks = s.tasks) (he : u.trace = s.trace) (hheap : ∀ r, (u.heap r).taskid = (s.heap r).taskid)
    (hn : u.nextTaskid = s.nextTaskid) : Sound (withdraw id u) := by
  have hc' : Consistent (withdraw id u) (Function.update p r none) := consistent_same hc
  refine ⟨⟨_, orderly_leave h hr hi hc' ?_ ?_ hheap hn⟩, settled_of h.consistent hc' hs ?_⟩
  · rw [withdraw, ht]
  · rw [withdraw, he, outstanding_cancelled]
  · intro r' k hk
    rw [Function.update_apply] at hk
    split at hk
    · cases hk
    · refine ⟨hk, ?_⟩
      rw [withdraw, he]
      exact attempt_external (by rintro _ _ ⟨⟩) (by exact fun h ↦ h)

theorem Cancels.sound {id : ℤ} (h : Cancels id s s') (hs : Sound s) : Sound s' := by
  obtain ⟨⟨p, hp⟩, hset⟩ := hs
  cases h with
  | held k r u hi hr hq =>
    obtain ⟨⟨q, hq'⟩, hset'⟩ := sound_still (run_of_hushed hq) ⟨⟨p, hp⟩, hset⟩
    have hr' := hushed_holds hq hr
    have hpr := ne_none_of_workerOf (hr'.workerOf hq'.consistent)
    have hc := consistent_quiet (c := k) (.walk _ (release k r u).workerTable.exhaust rfl)
      (consistent_release hq'.consistent hr')
    exact sound_withdraw hq' hset' hpr (by rw [(hushed_alike hq).taskid, hi]) hc rfl rfl
      (fun _ ↦ rfl) rfl
  | ready r hi hr =>
    have hpr : p r ≠ none := by
      rw [(hp.consistent.ready r).mp hr]
      exact Option.some_ne_none _
    exact sound_withdraw hp hset hpr hi (consistent_unready hp.consistent hr) rfl rfl (fun _ ↦ rfl) rfl
  | complete r hi hr =>
    have hpr : p r ≠ none := by
      rw [(hp.consistent.complete r).mp hr]
      exact Option.some_ne_none _
    exact sound_withdraw hp hset hpr hi (consistent_uncomplete hp.consistent hr) rfl rfl (fun _ ↦ rfl) rfl
  | nothing hn =>
    have hc : Consistent (withdraw id s) p := consistent_same hp.consistent
    have hsame : Function.update s.tasks id none = s.tasks := by
      rw [← hn, Function.update_eq_self]
    refine ⟨⟨p, hc, fun i r ↦ ?_, ?_, hp.next⟩, settled_of hp.consistent hc hset (fun r k hk ↦ ⟨hk, ?_⟩)⟩
    · rw [withdraw, hsame]
      exact hp.listed i r
    · rw [withdraw, outstanding_cancelled, hp.recorded]
    · exact attempt_external (by rintro _ _ ⟨⟩) (by exact fun h ↦ h)

theorem Cancels.turns {id : ℤ} (h : Cancels id s s') : ReflTransGen (Turn σ d) s s' := by
  cases h with
  | held k r u hi hr hq =>
    exact (((turns_of_still (run_of_hushed hq)).tail
      (.release u k r (hushed_holds hq hr))).tail (.step (.quiet (k := k)
      (.walk _ (release k r u).workerTable.exhaust rfl)))).tail (.withdraw _ id)
  | ready r hi hr => exact (ReflTransGen.single (.unready s r hr)).tail (.withdraw _ id)
  | complete r hi hr => exact (ReflTransGen.single (.uncomplete s r hr)).tail (.withdraw _ id)
  | nothing hn => exact .single (.withdraw s id)

/-- The lists are empty, and only the workers `ks` still hold tasks. -/
structure Clearing (d : Prop) (ks : List Key) (s : State) (p : Ref → Option Place) : Prop where
  consistent : Consistent s p
  held : ∀ r, p r ≠ none → d ∧ ∃ k ∈ ks, workerOf (p r) = some k
  connected : ∀ k ∈ ks, Connected s k
  next : 0 < s.nextTaskid

/-- Of the first of these workers the entries `es` are left. -/
structure Emptying (d : Prop) (k : Key) (ks : List Key) (es : List (ℕ × Ref)) (s : State)
    (p : Ref → Option Place) : Prop where
  clearing : Clearing d (k :: ks) s p
  distinct : (es.map Prod.fst).Nodup
  held : ∀ e ∈ es, (s.heap e.2).taskid = e.1 ∧ workerOf (p e.2) = some k
  rest : ∀ r, workerOf (p r) = some k → k ∈ ks ∨ ∃ i, (i, r) ∈ es

theorem emptying_drop {ks : List Key} {i : ℕ} {es : List (ℕ × Ref)}
    (h : Emptying d k ks ((i, r) :: es) s p)
    (hq : ReflTransGen (Quiet k) (dropTask i s) s') :
    Turn σ d s (dropFromWorker k i (s.heap r) s') ∧
      Emptying d k ks es (dropFromWorker k i (s.heap r) s') (Function.update p r none) := by
  have hi : (s.heap r).taskid = i := (h.held (i, r) (List.mem_cons_self ..)).1
  have hk : workerOf (p r) = some k := (h.held (i, r) (List.mem_cons_self ..)).2
  subst hi
  have hr := (holds_iff h.clearing.consistent).mpr hk
  have ha := hushed_alike hq
  have hd := (h.clearing.held r (ne_none_of_workerOf hk)).1
  have hn := h.distinct
  rw [List.map_cons, List.nodup_cons] at hn
  refine ⟨.drop s s' k r hd hr hq, ⟨consistent_drop h.clearing.consistent hr hq _, fun r' hr' ↦ ?_,
    fun j hj ↦ connected_setWorker (ha.connected j (h.clearing.connected j hj)), ?_⟩, hn.2,
    fun e he ↦ ?_, fun r' hr' ↦ ?_⟩
  · rw [Function.update_apply] at hr' ⊢
    split at hr'
    · exact absurd rfl hr'
    · rename_i hne
      rw [if_neg hne]
      exact h.clearing.held r' hr'
  · exact ha.next.symm ▸ h.clearing.next
  · obtain ⟨hi, hk'⟩ := h.held e (List.mem_cons_of_mem _ he)
    refine ⟨(ha.taskid e.2).trans hi, ?_⟩
    rw [Function.update_of_ne, hk']
    rintro rfl
    exact hn.1 (List.mem_map.mpr ⟨e, he, hi.symm⟩)
  · rw [Function.update_apply] at hr'
    split at hr'
    · cases hr'
    · rename_i hne
      rcases h.rest r' hr' with hm | ⟨i, hi⟩
      · exact .inl hm
      · rcases List.mem_cons.mp hi with he | hi
        · exact absurd (congrArg Prod.snd he) hne
        · exact .inr ⟨i, hi⟩

theorem spec_cancelHeldTasks (ks : List Key) (es : List (ℕ × Ref)) :
    Spec (fun s ↦ ∃ p, Emptying d k ks es s p) (forEach (cancelHeldTask k) es)
      (fun s _ s' ↦ ReflTransGen (Turn σ d) s s' ∧ ∃ p, Emptying d k ks [] s' p) := by
  induction es with
  | nil => exact Spec.pure _ (fun s hs ↦ ⟨.refl, hs⟩)
  | cons e es ih =>
    obtain ⟨i, r⟩ := e
    refine Spec.bind (Q := fun s _ s' ↦ Turn σ d s s' ∧ ∃ p, Emptying d k ks es s' p)
      (Spec.at ?_) (fun s₀ _ _ ↦ ih.conseq (fun s hs ↦ hs.2) (fun s _ s' hs h ↦ ⟨h.1.head hs.1, h.2⟩))
    rintro s ⟨p, hp⟩
    have hk : Connected (dropTask i s) k := hp.clearing.connected k (List.mem_cons_self ..)
    refine Spec.run (fun _ ↦ rfl) (Spec.run (fun _ ↦ rfl) ?_)
    refine Spec.pre (P := ReflTransGen (Quiet k) (dropTask i s)) ?_ (by rintro _ rfl; exact .refl)
    refine Spec.bind (spec_hushed (silent_deleteWorkerFiles _ _) hk) (fun _ _ _ ↦
      Spec.bind (spec_hushed (silent_deleteWorkerFiles _ _) hk) (fun _ _ _ ↦ Spec.modify _ ?_))
    intro u hu
    obtain ⟨ht, he⟩ := emptying_drop hp hu
    exact ⟨ht, _, he⟩

theorem spec_cancelWorker {ks : List Key} (hk : k ∉ ks) :
    Spec (fun s ↦ ∃ p, Clearing d (k :: ks) s p) (cancelWorker k)
      (fun s _ s' ↦ ReflTransGen (Turn σ d) s s' ∧ ∃ p, Clearing d ks s' p) := by
  refine Spec.at ?_
  rintro s ⟨p, hp⟩
  obtain ⟨w, hw⟩ := hp.connected k (List.mem_cons_self ..)
  let s₁ : State := ({ s with calls := s.calls + 1 } : State).log (.sent k (.kill (-1)))
  have hturn : ReflTransGen (Turn σ d) s s₁ :=
    (ReflTransGen.single (.step (.quiet (k := k) (.call s)))).tail (.kill _ k ⟨w, hw⟩)
  have hc : Consistent s₁ p := consistent_same (consistent_quiet (c := k) (.call s) hp.consistent)
  refine Spec.run (sendWorkerMsg_apply hw _) (Spec.run (worker_apply (s := s₁) hw) ?_)
  refine (spec_cancelHeldTasks (σ := σ) (d := d) ks w.currentTasks.entries).conseq ?_ ?_
  · rintro _ rfl
    refine ⟨p, ⟨hc, hp.held, hp.connected, hp.next⟩, w.currentTasks.nodup, fun e he ↦ ?_, fun r hr ↦
      .inr ⟨(s.heap r).taskid, ?_⟩⟩
    · exact (hc.held k w hw e.1 e.2).mp ((Table.mem_entries_iff _ _ _).mp he)
    · exact (Table.mem_entries_iff _ _ _).mpr ((hc.held k w hw _ r).mpr ⟨rfl, hr⟩)
  · rintro _ _ s' rfl ⟨ht, q, hq⟩
    refine ⟨hturn.trans ht, q, hq.clearing.consistent, fun r hr ↦ ?_, fun j hj ↦
      hq.clearing.connected j (List.mem_cons_of_mem k hj), hq.clearing.next⟩
    obtain ⟨hd, j, hj, hr⟩ := hq.clearing.held r hr
    refine ⟨hd, j, (List.mem_cons.mp hj).resolve_left ?_, hr⟩
    rintro rfl
    rcases hq.rest r hr with hm | ⟨i, hi⟩
    · exact hk hm
    · exact List.not_mem_nil hi

theorem spec_cancelWorkers (ks : List Key) (hn : ks.Nodup) :
    Spec (fun s ↦ ∃ p, Clearing d ks s p) (forEach cancelWorker ks)
      (fun s _ s' ↦ ReflTransGen (Turn σ d) s s' ∧ ∃ p, Clearing d [] s' p) := by
  induction ks with
  | nil => exact Spec.pure _ (fun s hs ↦ ⟨.refl, hs⟩)
  | cons k ks ih =>
    rw [List.nodup_cons] at hn
    exact Spec.bind (spec_cancelWorker (σ := σ) hn.1) (fun _ _ _ ↦ (ih hn.2).conseq (fun s hs ↦ hs.2)
      (fun s _ s' hs h ↦ ⟨hs.1.trans h.1, h.2⟩))

theorem forgotten (ks : List Key) (h : Consistent s p) :
    Run .still s (ks.foldl (fun s k ↦ forgetAvailableResults k s) s) ∧
      Consistent (ks.foldl (fun s k ↦ forgetAvailableResults k s) s) p := by
  induction ks generalizing s with
  | nil => exact ⟨.refl, h⟩
  | cons k ks ih =>
    obtain ⟨hr, hc⟩ := ih (consistent_forget (k := k) h)
    exact ⟨.head (.forget s k) hr, hc⟩

theorem clearing_all (h : Consistent s (held p)) (hd : ∀ k r, workerOf (p r) = some k → d)
    (hn : 0 < s.nextTaskid) : Clearing d s.workerTable.keys s (held p) := by
  refine ⟨h, fun r hr ↦ ?_, fun k hk ↦ Table.exists_lookup_of_mem_keys hk, hn⟩
  cases hk : workerOf (p r) with
  | none => rw [held, if_pos hk] at hr; exact absurd rfl hr
  | some k =>
    have hh : held p r = p r := if_neg (by rw [hk]; exact Option.some_ne_none _)
    refine ⟨hd k r hk, k, ?_, by rw [hh, hk]⟩
    obtain ⟨w, hw⟩ := h.connected r k (by rw [hh, hk])
    exact Table.lookup_eq_some_keys hw

theorem sound_withdrawAll (h : Clearing d [] s p) : Sound (withdrawAll s) := by
  have hnone : ∀ r, p r = none := by
    intro r
    by_contra hr
    obtain ⟨-, k, hk, -⟩ := h.held r hr
    exact List.not_mem_nil hk
  have hc : Consistent (withdrawAll s) p := consistent_same h.consistent
  refine ⟨⟨p, hc, fun i r ↦ iff_of_false (by rintro ⟨⟩) (fun hr ↦ hr.1 (hnone r)), ?_, h.next⟩,
    fun k r hr ↦ ?_⟩
  · show _ = outstanding (s.trace ++ [_])
    rw [outstanding, List.foldl_append]
    rfl
  · have hk := hr.workerOf hc
    rw [hnone r] at hk
    cases hk

theorem keeps_cancelAllTasks :
    Keeps σ d (fun s ↦ ∀ k r, Holds s k r → d) cancelAllTasks := by
  refine Spec.at ?_
  rintro s ⟨⟨⟨p, hp⟩, hs⟩, hd⟩
  obtain ⟨hrun, hc⟩ := forgotten (clearLists s).workersWithAvailableResults.keys
    (consistent_clearLists hp.consistent)
  have hnext : 0 < (forgetAllAvailable (clearLists s)).nextTaskid := hrun.nextTaskid ▸ hp.next
  have hcl := clearing_all (d := d) hc
    (fun k r hk ↦ hd k r ((holds_iff hp.consistent).mpr hk)) hnext
  have hcancel : Spec (fun t ↦ t = s) workQueueCancelAllTasks
      (fun s _ s' ↦ ReflTransGen (Turn σ d) s s' ∧ ∃ p, Clearing d [] s' p) := by
    refine Spec.run (fun _ ↦ rfl) (Spec.run (fun _ ↦ rfl) (Spec.run (fun _ ↦ rfl) ?_))
    refine (spec_cancelWorkers (σ := σ) (d := d) _ (Table.nodup _)).conseq ?_ ?_
    · rintro _ rfl
      exact ⟨held p, hcl⟩
    · rintro _ _ s' rfl ⟨ht, hq⟩
      exact ⟨(ReflTransGen.head (.clearLists s) (turns_of_still hrun)).trans ht, hq⟩
  refine Spec.bind hcancel (fun _ _ _ ↦ Spec.modify _ ?_)
  rintro t ⟨ht, q, hq⟩
  exact ⟨sound_withdrawAll hq, ht.tail (.withdrawAll t)⟩

theorem keeps_cancelTask (id : ℤ) : Keeps σ d (fun _ ↦ wrap id = id) (cancelTask id) :=
  (spec_cancelTask id).post (fun _ _ _ hs h ↦ ⟨h.sound hs.1, h.turns⟩)

theorem keeps_perform (c : Call) (hw : c = .wait → σ = .waiting) :
    Keeps σ d (fun s ↦ Allowed s c ∧ ∀ k r, c = .cancelAllTasks → Holds s k r → d)
      (perform c) := by
  have hvoid : ∀ {α : Type} {f : M α} {P P' : State → Prop}, Keeps σ d P f → (∀ s, P' s → P s) →
      Keeps σ d P' (do let _ ← f) := fun hf hP ↦
    Spec.bind (hf.pre (fun s hs ↦ ⟨hs.1, hP s hs.2⟩)) (fun _ _ _ ↦ Spec.pure _ (fun _ h ↦ h))
  cases c with
  | newTask command => exact hvoid (keeps_newTask command) (fun _ _ ↦ trivial)
  | addfile r l m b t => exact hvoid (keeps_addfile r l m b t) (fun _ _ ↦ trivial)
  | submit r => exact hvoid (keeps_submit r) (fun _ h ↦ h.1)
  | wait =>
    cases hw rfl
    exact hvoid keeps_wait (fun _ _ ↦ trivial)
  | cancelTask id => exact (keeps_cancelTask id).pre (fun _ h ↦ ⟨h.1, h.2.1⟩)
  | cancelAllTasks => exact keeps_cancelAllTasks.pre (fun _ h ↦ ⟨h.1, fun k r ↦ h.2.2 k r rfl⟩)
  | killWorkers => exact hvoid keeps_killWorkers (fun _ _ ↦ trivial)

theorem sound_newQueue (env : Environment) : Sound (newQueue env) := by
  have hc : Consistent (newQueue env) (fun _ ↦ none) := by
    refine ⟨fun r ↦ ?_, List.nodup_nil, fun r ↦ ?_, List.nodup_nil, fun i r ↦ ?_, fun i r ↦ ?_,
      fun i k ↦ ?_, ?_, ?_, ?_, fun r r' h ↦ absurd rfl h, fun r h ↦ absurd rfl h,
      fun r h ↦ absurd rfl h, fun _ ↦ rfl⟩
    · exact iff_of_false List.not_mem_nil (by rintro ⟨⟩)
    · exact iff_of_false List.not_mem_nil (by rintro ⟨⟩)
    · exact iff_of_false (by rintro ⟨⟩) (by rintro ⟨-, ⟨⟩⟩)
    · exact iff_of_false (by rintro ⟨⟩) (by rintro ⟨-, ⟨⟩⟩)
    · exact iff_of_false (by rintro ⟨⟩) (by rintro ⟨r, -, ⟨⟩⟩)
    · rintro k w ⟨⟩
    · rintro r k ⟨⟩
    · rintro k j ⟨⟩
  refine ⟨⟨_, hc, fun i r ↦ iff_of_false (by rintro ⟨⟩) (fun h ↦ h.1 rfl), rfl, Nat.one_pos⟩, ?_⟩
  rintro k r ⟨w, ⟨⟩, -⟩

section Reachable

variable {ok : State → Call → Prop} {env : Environment}

theorem reachable_sound (h : Reachable ok env s) : Sound s := by
  induction h with
  | start => exact sound_newQueue env
  | @call s s' c n h ha _ hp ih =>
    exact ((keeps_perform (d := True) c (fun _ ↦ rfl)).elim ⟨ih, ha, fun _ _ _ _ ↦ trivial⟩ hp).1

/-- A reachable state is reached by turns, which drop a task only where the
calls allow for it. -/
theorem reachable_turns (h : Reachable ok env s)
    (hd : ∀ s k r, ok s .cancelAllTasks → Holds s k r → d) :
    ReflTransGen (Turn .waiting d) (newQueue env) s := by
  induction h with
  | start => exact .refl
  | @call s s' c n h ha hok hp ih =>
    refine ih.trans ((keeps_perform (d := d) c (fun _ ↦ rfl)).elim
      ⟨reachable_sound h, ha, ?_⟩ hp).2
    rintro k r rfl hr
    exact hd s k r hok hr

end Reachable

end Cyque.Calls
