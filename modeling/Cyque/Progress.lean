import Cyque.Removal
import Cyque.Results

namespace Cyque.Progress

open Library.Execution Library.Lookup Library.Scanning Queue Link Workers Transfer Dispatch Wait Api Run
open Footprint Exchange Placement History Steps Conduct Collect Polling Calls Agreement Removal Results
open Relation

variable {σ : Scope} {s s' : State} {p : Ref → Option Place} {k : Key} {r : Ref} {n : ℕ}
variable {env : Environment}

/-- The same workers are connected, and the same tasks wait. -/
def Calm (s s' : State) : Prop :=
  s'.workerTable.keys = s.workerTable.keys ∧ s'.readyList = s.readyList

theorem quiet_calm {c : Key} (h : Quiet c s s') : Calm s s' := by
  refine ⟨?_, quiet_readyList h⟩
  cases h with
  | walk t ht => exact congrArg (List.map Prod.fst) ht
  | worker f => exact Table.keys_alter _ _ _
  | forget name => exact Table.keys_alter _ _ _
  | unlink name => exact Table.keys_alter _ _ _
  | remember name info => exact Table.keys_alter _ _ _
  | _ => rfl

theorem Calm.trans {s'' : State} (h : Calm s s') (h' : Calm s' s'') : Calm s s'' :=
  ⟨h'.1.trans h.1, h'.2.trans h.2⟩

theorem steadyCalm (k : Key) : Steady (Connected · k) Calm where
  refl _ := ⟨rfl, rfl⟩
  trans := Calm.trans
  keeps {s t} hk h := by
    rw [connected_iff] at hk ⊢
    rwa [h.1]

theorem calm_of_silent {α : Type} {f : M α} (hf : Silent k f) : Moves (Connected · k) Calm f := by
  refine hf.post (fun s _ s' _ h ↦ ?_)
  induction h with
  | refl => exact ⟨rfl, rfl⟩
  | tail _ hq ih => exact ih.trans (quiet_calm hq)

theorem calm_sendWorkerMsg (m : Msg) : Moves (Connected · k) Calm (sendWorkerMsg k m) :=
  .bind (steadyCalm k) (calm_of_silent .worker) (fun _ ↦ .bind (steadyCalm k) (calm_of_silent .ask)
    (fun _ ↦ .bind (steadyCalm k) (.modify _ (fun _ _ ↦ ⟨rfl, rfl⟩)) (fun _ ↦ .pure (steadyCalm k) _)))

theorem calm_startOneTask (r : Ref) : Moves (Connected · k) Calm (startOneTask k r) := by
  have hT := steadyCalm k
  refine .bind hT (calm_of_silent .timestampGet) (fun start ↦ .bind hT (calm_of_silent
    (.setTask (fun _ ↦ rfl) (fun _ ↦ rfl))) (fun _ ↦ .bind hT (calm_of_silent
    yields_sendInputFiles.silent) (fun result ↦ .bind hT (.modify _ (fun _ _ ↦ ⟨rfl, rfl⟩)) (fun _ ↦
    .ite (.pure hT _) ?_))))
  refine .bind hT (calm_of_silent .timestampGet) (fun finish ↦ .bind hT (calm_of_silent
    (.setTask (fun _ ↦ rfl) (fun _ ↦ rfl))) (fun _ ↦ .bind hT (calm_of_silent .timestampGet)
    (fun now ↦ .bind hT (calm_of_silent .worker) (fun w ↦ .bind hT (.modify _ (fun _ _ ↦ ⟨rfl, rfl⟩))
    (fun _ ↦ .bind hT (.get hT) (fun s ↦ .bind hT ?_ (fun _ ↦ .bind hT (calm_sendWorkerMsg _)
    (fun _ ↦ .pure hT _))))))))
  exact .forEach hT _ (fun m _ ↦ .bind hT (calm_sendWorkerMsg m) (fun _ ↦ .pure hT _))

theorem calm_handleAppFailure (r : Ref) : Moves (Connected · k) Calm (handleAppFailure k r) := by
  have hT := steadyCalm k
  refine .bind hT (calm_of_silent .worker) (fun _ ↦ .bind hT (.modify _ (fun s _ ↦ ?_)) (fun _ ↦
    .bind hT (calm_of_silent silent_logWorkerStats) (fun _ ↦ .bind hT (calm_of_silent (.task r)) (fun _ ↦
    .when hT (fun _ ↦ calm_of_silent silent_deleteTaskOutputFiles)))))
  exact ⟨Table.keys_alter _ _ _, rfl⟩

theorem size_eq_length_keys (s : State) : s.workerTable.size = s.workerTable.keys.length :=
  (List.length_map _).symm

/-- The first task is off the ready list, or a worker is lost. -/
theorem spec_startTaskOnWorker :
    Spec (fun s ↦ Connected s k ∧ s.readyList ≠ []) (startTaskOnWorker k) (fun s _ s' ↦
      s'.workerTable.size = s.workerTable.size ∧ s'.readyList.length < s.readyList.length ∨
        s'.workerTable.size < s.workerTable.size) := by
  refine Spec.at ?_
  rintro s ⟨⟨w, hw⟩, hne⟩
  refine Spec.run (fun _ ↦ rfl) ?_
  cases hready : s.readyList with
  | nil => exact absurd hready hne
  | cons r rest =>
    let t := exhaust (commit (s.env.answers s.calls).now k r (popReady s.tick))
    have ht : t.workerTable.keys = s.workerTable.keys := Table.keys_alter _ _ _
    have hr : t.readyList = rest := congrArg List.tail hready
    have htk : Connected t k := by
      rw [connected_iff, ht]
      exact Table.lookup_eq_some_keys hw
    refine Spec.run (fun _ ↦ rfl) (Spec.run (commitTaskToWorker_apply (s := popReady s) hw) ?_)
    refine Spec.bind ((calm_startOneTask r).pre ?_) ?_
    · rintro _ rfl
      exact htk
    rintro _ result rfl
    have hcalm : ∀ u, Calm t u → u.workerTable.size = s.workerTable.size ∧
        u.readyList.length < (r :: rest).length := by
      intro u hu
      rw [size_eq_length_keys, size_eq_length_keys, hu.1, hu.2, ht, hr]
      exact ⟨rfl, Nat.lt_succ_self _⟩
    refine Spec.ite (fun _ ↦ Spec.ite (fun _ ↦ ?_) (fun _ ↦ ?_)) (fun _ ↦ ?_)
    · exact (calm_handleAppFailure r).conseq (fun u hu ↦ (steadyCalm k).keeps htk hu)
        (fun u _ u' hu h ↦ .inl (hcalm u' (hu.trans h)))
    · refine Spec.of_done (fun n u hu ↦ ?_)
      have huk : Connected u k := (steadyCalm k).keeps htk hu
      obtain ⟨u', -, hrem, -, -, -, hc⟩ := removeWorker_apply huk n
      refine ⟨(), u', hrem, .inr ?_⟩
      rw [← (hcalm u hu).1]
      have hnone : ∀ {v : State} {j}, v.workerTable.lookup j = none ↔ ¬ Connected v j := by
        intro v j
        rw [Connected, Option.eq_none_iff_forall_ne_some, not_exists]
      refine Table.size_lt_of_lookup _ _ (fun j hj ↦ ?_) (k := k) ?_ ?_
      · rw [hnone] at hj ⊢
        exact fun h ↦ hj ((hc j).mp h).2
      · rw [hnone]
        exact fun h ↦ ((hc k).mp h).1 rfl
      · rw [ne_eq, hnone, not_not]
        exact huk
    · exact Spec.pure _ (fun u hu ↦ .inl (hcalm u hu))

/-- A bound on the tasks that can still be started: with every worker that is
lost, all tasks may come back. -/
def load (s : State) : ℕ := s.workerTable.size * (s.allocated + 1) + s.readyList.length

theorem length_readyList_le (h : Consistent s p) : s.readyList.length ≤ s.allocated := by
  have hsub : s.readyList ⊆ List.range s.allocated := by
    intro r hr
    rw [List.mem_range]
    refine h.made r ?_
    rw [(h.ready r).mp hr]
    exact Option.some_ne_none _
  have hle := (List.subperm_of_subset h.ready_nodup hsub).length_le
  rwa [List.length_range] at hle

theorem load_lt (hs : Placed s') (ha : s'.allocated = s.allocated)
    (h : s'.workerTable.size = s.workerTable.size ∧ s'.readyList.length < s.readyList.length ∨
      s'.workerTable.size < s.workerTable.size) : load s' < load s := by
  rw [load, load, ha]
  rcases h with ⟨hw, hr⟩ | hw
  · rw [hw]
    omega
  · obtain ⟨p, hp⟩ := hs
    have hle := length_readyList_le hp
    rw [ha] at hle
    calc s'.workerTable.size * (s.allocated + 1) + s'.readyList.length
        < s'.workerTable.size * (s.allocated + 1) + (s.allocated + 1) := by omega
      _ = (s'.workerTable.size + 1) * (s.allocated + 1) := by rw [Nat.succ_mul]
      _ ≤ s.workerTable.size * (s.allocated + 1) := Nat.mul_le_mul_right _ hw
      _ ≤ s.workerTable.size * (s.allocated + 1) + s.readyList.length := Nat.le_add_right _ _

/-- Tasks are started and given up, and no result is taken. -/
abbrev starting : Scope := ⟨False, True, fun _ ↦ True⟩

theorem spec_startRound (started : ℕ) :
    Spec Steadfast (startRound started) (fun s x s' ↦ Steadfast s' ∧
      ∀ b, x = .inl b → load s' < load s) := by
  have hplaced := leads_startRound (σ := starting) (fun _ ↦ trivial) trivial started
  have hless : Spec Steadfast (startRound started) (fun s x s' ↦ ∀ b, x = .inl b →
      s'.workerTable.size = s.workerTable.size ∧ s'.readyList.length < s.readyList.length ∨
        s'.workerTable.size < s.workerTable.size) := by
    refine Spec.at (fun s hs ↦ Spec.run (fun _ ↦ rfl) ?_)
    cases hready : s.readyList with
    | nil => exact Spec.pure _ (by rintro _ rfl b ⟨⟩)
    | cons r rest =>
      cases hf : findBestWorker s.workerTable.entries (s.heap r) with
      | some k =>
        simp only [hf]
        refine Spec.bind (spec_startTaskOnWorker.pre ?_) ?_
        · rintro _ rfl
          exact ⟨connected_of_findBestWorker hf, by rw [hready]; exact List.cons_ne_nil _ _⟩
        · rintro _ _ rfl
          exact Spec.pure _ (fun u hu _ _ ↦ by rwa [hready] at hu)
      | none =>
        simp only [hf]
        refine Spec.of_done (fun n u hu ↦ ?_)
        by_cases ha : 0 < u.workerTable.values.countP isAvailable
        · refine ⟨.inr started, rotateReady (exhaust u), ?_, by rintro b ⟨⟩⟩
          simp [availableWorkers, Library.Execution.when, ha]
        · refine ⟨.inr started, exhaust u, ?_, by rintro b ⟨⟩⟩
          simp [availableWorkers, Library.Execution.when, ha]
  refine (hplaced.and hless).post (fun s x s' hs h ↦ ⟨h.1.2, fun b hb ↦ ?_⟩)
  exact load_lt h.1.2.1 h.1.1.allocated (h.2 b hb)

/-- The task is outstanding, and its result was not taken. -/
def AtRest (s : State) (r : Ref) : Prop :=
  r ∈ s.readyList ∨ r ∈ s.runningTasks.values ∨ r ∈ s.completeList

theorem atRest_iff (h : Consistent s p) :
    AtRest s r ↔ p r ≠ none ∧ s.finishedTasks.lookup (s.heap r).taskid ≠ some r := by
  rw [AtRest, h.ready, mem_running_iff h, h.complete, ne_eq, ne_eq, h.finished]
  cases p r with
  | none => simp [isRunning]
  | some q => cases q <;> simp [isRunning, isFinished]

theorem step_atRest (h : Step σ s s') (hr : ¬ σ.receiving) (hs : Placed s) (ha : AtRest s r) :
    AtRest s' r := by
  obtain ⟨p, hp⟩ := hs
  obtain ⟨p', hp', hsame⟩ := h.consistent hp
  rw [atRest_iff hp] at ha
  rw [atRest_iff hp', step_taskid h]
  exact ⟨fun hn ↦ ha.1 ((hsame r).mp hn), fun hf ↦ ha.2 (step_finished h hr hf)⟩

theorem step_committed {i : ℕ} (h : Step σ s s') (he : s'.trace = s.trace ++ [.committed k r i]) :
    r ∈ s'.runningTasks.values := by
  have hne : ∀ {e : Event}, e ≠ .committed k r i → s.trace ++ [e] ≠ s.trace ++ [.committed k r i] :=
    fun hn h ↦ hn (List.cons.inj (List.append_cancel_left h)).1
  have hnil : s.trace ≠ s.trace ++ [.committed k r i] := by simp
  cases h with
  | commit now j r' hcom hr hk hn =>
    obtain ⟨rfl, rfl, -⟩ := Event.committed.inj (List.cons.inj (List.append_cancel_left he)).1
    rw [Table.mem_values_iff]
    exact ⟨(s.heap r').taskid, by simp [commit, popReady]⟩
  | quiet hq =>
    rcases quiet_trace hq with ht | ⟨e, ht, hm⟩
    · exact absurd (ht.symm.trans he) hnil
    · refine absurd (ht.symm.trans he) (hne ?_)
      rintro rfl
      exact hm
  | walkAvailable => exact absurd he hnil
  | clearFiles => exact absurd he hnil
  | clearTasks => exact absurd he hnil
  | rotate => exact absurd he hnil
  | _ => exact absurd he (hne (by rintro ⟨⟩))

theorem run_atRest (h : Run σ s s') (hr : ¬ σ.receiving) (hs : Placed s) (ha : AtRest s r) :
    AtRest s' r := by
  induction h with
  | refl => exact ha
  | tail hrun hstep ih => exact step_atRest hstep hr (Run.placed hrun hs) ih

theorem run_committed {i : ℕ} {es : List Event} (h : Run σ s s') (hr : ¬ σ.receiving) (hs : Placed s)
    (he : s'.trace = s.trace ++ es) (hm : .committed k r i ∈ es) : AtRest s' r := by
  induction h generalizing es with
  | refl =>
    rw [List.self_eq_append_right.mp he] at hm
    exact absurd hm List.not_mem_nil
  | @tail u u' hrun hstep ih =>
    obtain ⟨ds, hd⟩ := Run.trace hrun
    have hlast : .committed k r i ∈ ds → AtRest u' r := fun h ↦
      step_atRest hstep hr (Run.placed hrun hs) (ih hd h)
    rcases step_trace hstep with ht | ⟨e, ht, -⟩
    · rw [ht, hd] at he
      rw [← List.append_cancel_left he] at hm
      exact hlast hm
    · have hes : es = ds ++ [e] := by
        rw [ht, hd, List.append_assoc] at he
        exact (List.append_cancel_left he).symm
      rw [hes] at hm
      rcases List.mem_append.mp hm with hm | hm
      · exact hlast hm
      · rw [← List.mem_singleton.mp hm] at ht
        exact .inr (.inl (step_committed hstep ht))

theorem spec_receiveRound (received : ℕ) :
    Spec Steadfast (receiveRound received) (fun s x s' ↦ Steadfast s' ∧
      ∀ b, x = .inl b → s'.finishedTasks.size < s.finishedTasks.size) := by
  refine Spec.at (fun s hs ↦ Spec.post (leads_receiveRound hs received) ?_)
  rintro t x s' rfl ⟨hrun, hs', hx⟩
  refine ⟨hs', ?_⟩
  rintro b rfl
  obtain ⟨i, r, hr, hn⟩ := hx
  have hfew : ∀ j r', s'.finishedTasks.lookup j = some r' → t.finishedTasks.lookup j = some r' :=
    fun j r' hj ↦ hrun.lookup_finished id hj
  have hgone : s'.finishedTasks.lookup i ≠ some r := by
    intro hi
    obtain ⟨k, -, hf, -⟩ := exists_fetching hs' hi
    exact hn k hf.holds
  refine Table.size_lt_of_lookup _ _ (fun j hj ↦ ?_) (k := i) ?_ ?_
  · rw [Option.eq_none_iff_forall_ne_some] at hj ⊢
    exact fun r' hr' ↦ hj r' (hfew j r' hr')
  · rw [Option.eq_none_iff_forall_ne_some]
    intro r' hr'
    have he := hfew i r' hr'
    rw [hr] at he
    cases he
    exact hgone hr'
  · rw [hr]
    exact Option.some_ne_none r

/-- The look at the links, and at what is known of the workers. -/
def look : M ℕ := do
  waitLoopPollLinks
  let known ← knownWorkers
  let s ← get
  log (.polled known s.finishedTasks.size)
  pure known

/-- The states that a queue is in when one of the parts of an iteration of the
wait loop starts. -/
inductive Within (env : Environment) : State → Prop
  | call {s : State} (h : Reachable (fun _ _ ↦ True) env s) : Within env s
  | tested {s s' : State} {n : ℕ} (h : Within env s)
      (hf : removeUnresponsiveWorkers n s = .done () s') : Within env s'
  | looked {s s' : State} {n known : ℕ} (h : Within env s) (hf : look n s = .done known s') :
      Within env s'
  | started {s s' : State} {n count : ℕ} (h : Within env s) (hf : startTasks n s = .done count s') :
      Within env s'
  | received {s s' : State} {n count : ℕ} (h : Within env s)
      (hf : receiveTasks n s = .done count s') : Within env s'

theorem leads_look : Leads .polling Steadfast look (fun _ s ↦ Steadfast s) := by
  refine .bind leads_waitLoopPollLinks (fun _ ↦ Spec.of_done (fun n s hs ↦ ⟨_, _, rfl, ?_⟩))
  have hrun : Run .polling s ((exhaust s).log (.polled (s.workerTable.values.countP isKnown)
      s.finishedTasks.size)) :=
    (ReflTransGen.single (.quiet (k := 0) (.walk s _ rfl))).tail
      (.quiet (k := 0) (.observe _ _ trivial))
  exact ⟨hrun, Run.steadfast hrun id hs⟩

theorem Within.steadfast (h : Within env s) : Steadfast s := by
  induction h with
  | call h => exact (reachable_sound h).steadfast
  | tested _ hf ih => exact (leads_removeUnresponsiveWorkers.elim ih hf).2
  | looked _ hf ih => exact (leads_look.elim ih hf).2
  | started _ hf ih =>
    exact ((leads_startTasks (σ := starting) (fun _ ↦ trivial) trivial).elim ih hf).2
  | received _ hf ih => exact (leads_receiveTasks.elim ih hf).2.1

/-- An iteration of the wait loop goes through such states. -/
theorem Within.iteration (h : Within env s) (hf : waitIteration n s = .done (.inl ()) s') :
    Within env s' := by
  obtain ⟨_, t, ht, hf⟩ := bind_eq_done hf
  obtain ⟨_, _, hg, hf⟩ := bind_eq_done hf
  cases hg
  have htested : Within env t := h.tested ht
  cases hc : t.completeList with
  | cons r rest =>
    rw [hc] at hf
    cases hf
  | nil =>
    simp only [hc] at hf
    split at hf
    · cases hf
    · have hlook : (do
          let known ← look
          when (0 < known) waitLoopTransferTasks
          pure (.inl ()) : M (Unit ⊕ Option Ref)) n t = .done (.inl ()) s' := by
        rw [← hf]
        simp only [look, bind_apply]
        cases waitLoopPollLinks n t <;> rfl
      obtain ⟨known, u, hu, hf⟩ := bind_eq_done hlook
      have hlooked : Within env u := htested.looked hu
      obtain ⟨_, v, hv, hf⟩ := bind_eq_done hf
      cases hf
      by_cases hk : 0 < known
      · rw [Library.Execution.when, if_pos hk] at hv
        obtain ⟨_, u₁, hu₁, hv⟩ := bind_eq_done hv
        obtain ⟨_, u₂, hu₂, hv⟩ := bind_eq_done hv
        cases hv
        exact (hlooked.started hu₁).received hu₂
      · rw [Library.Execution.when, if_neg hk] at hv
        cases hv
        exact hlooked

theorem startTasks_returns (h : Steadfast s)
    (hd : ∀ started t, Rounds startRound n 0 s started t → startRound started n t ≠ .spent)
    (hn : load s < n) : ∃ started s', startTasks n s = .done started s' := by
  refine loopFor_returns (fun b t ↦ Rounds startRound n 0 s b t ∧ Steadfast t) load
    (fun b t ht ↦ ?_) n ⟨.start, h⟩ hn
  cases hr : startRound b n t with
  | fault => exact absurd hr ((spec_startRound b).ne_fault ht.2)
  | spent => exact absurd hr (hd b t ht.1)
  | done x t' =>
    have hx := (spec_startRound b).elim ht.2 hr
    refine ⟨x, t', hr, ?_⟩
    rintro b' rfl
    exact ⟨⟨ht.1.next hr, hx.1⟩, hx.2 b' rfl⟩

theorem receiveTasks_returns (h : Steadfast s)
    (hd : ∀ received t, Rounds receiveRound n 0 s received t → receiveRound received n t ≠ .spent)
    (hn : s.finishedTasks.size < n) : ∃ received s', receiveTasks n s = .done received s' := by
  refine loopFor_returns (fun b t ↦ Rounds receiveRound n 0 s b t ∧ Steadfast t)
    (fun t ↦ t.finishedTasks.size) (fun b t ht ↦ ?_) n ⟨.start, h⟩ hn
  cases hr : receiveRound b n t with
  | fault => exact absurd hr ((spec_receiveRound b).ne_fault ht.2)
  | spent => exact absurd hr (hd b t ht.1)
  | done x t' =>
    have hx := (spec_receiveRound b).elim ht.2 hr
    refine ⟨x, t', hr, ?_⟩
    rintro b' rfl
    exact ⟨⟨ht.1.next hr, hx.1⟩, hx.2 b' rfl⟩

/-- The transfers of an iteration of the wait loop end, if every dispatch and
every fetch does. The tasks that were started, or could be, wait or run or are
complete, and no result is left. -/
theorem transfers_end (h : Within env s) :
    (∀ n, (∀ started t, Rounds startRound n 0 s started t → startRound started n t ≠ .spent) →
        load s < n → ∃ started s', startTasks n s = .done started s') ∧
      (∀ n started s', startTasks n s = .done started s' → ∃ es, s'.trace = s.trace ++ es ∧
        ∀ r, (r ∈ s.readyList ∨ ∃ k i, .committed k r i ∈ es) → AtRest s' r) ∧
      (∀ n, (∀ received t, Rounds receiveRound n 0 s received t → receiveRound received n t ≠ .spent) →
        s.finishedTasks.size < n → ∃ received s', receiveTasks n s = .done received s') ∧
      ∀ n received s', receiveTasks n s = .done received s' → s'.finishedTasks.size = 0 := by
  have hs := h.steadfast
  refine ⟨fun n hd hn ↦ startTasks_returns hs hd hn, fun n started s' hf ↦ ?_,
    fun n hd hn ↦ receiveTasks_returns hs hd hn, fun n received s' hf ↦ ?_⟩
  · have hrun := ((leads_startTasks (σ := starting) (fun _ ↦ trivial) trivial).elim hs hf).1
    obtain ⟨es, he⟩ := hrun.trace
    refine ⟨es, he, fun r hr ↦ ?_⟩
    rcases hr with hr | ⟨k, i, hm⟩
    · exact run_atRest hrun id hs.1 (.inl hr)
    · exact run_committed hrun id hs.1 he hm
  · rw [Table.size, ← List.length_map (f := Prod.fst), ← Table.keys, (leads_receiveTasks.elim hs hf).2.2]
    rfl

/-- The last iterations before a task is returned: it is started, and its
output is fetched. -/
theorem transfers_end_finishing :
    (∃ s started s', Within finishing s ∧ s.readyList = [0] ∧ startTasks 20 s = .done started s' ∧
      AtRest s' 0) ∧
    ∃ s received s', Within finishing s ∧ s.finishedTasks.size = 1 ∧
      receiveTasks 20 s = .done received s' ∧ s'.finishedTasks.size = 0 := by
  obtain ⟨_, s₁, h₁, ht⟩ := exists_of_returns (f := look) (n := 20)
    (s := oneTask finishing "true".toList) (t := fun _ s ↦ returns look (fun _ s ↦ returns look
      (fun _ s ↦ decide (s.readyList = [0] ∧ load s < 20) &&
        returns (startRound 0) (fun x s ↦ decide (x = .inl 1) &&
          returns (startRound 1) (fun x _ ↦ decide (x = .inr 1)) 20 s) 20 s &&
        returns startTasks (fun _ s ↦ returns look (fun _ s ↦ decide (s.finishedTasks.size = 1) &&
          returns (receiveRound 0) (fun x s ↦ decide (x = .inl 1) &&
            returns (receiveRound 1) (fun x _ ↦ decide (x = .inr 1)) 20 s) 20 s) 20 s) 20 s)
      20 s) 20 s) (by decide +kernel)
  obtain ⟨_, s₂, h₂, ht⟩ := exists_of_returns ht
  obtain ⟨_, s₃, h₃, ht⟩ := exists_of_returns ht
  rw [Bool.and_eq_true, Bool.and_eq_true] at ht
  obtain ⟨⟨hs, hstart⟩, ht⟩ := ht
  obtain ⟨hready, hload⟩ := of_decide_eq_true hs
  have hw₃ : Within finishing s₃ :=
    (((Within.call (reachable_oneTask finishing "true".toList)).looked h₁).looked h₂).looked h₃
  constructor
  · obtain ⟨x, u, hx, hu⟩ := exists_of_returns hstart
    rw [Bool.and_eq_true] at hu
    obtain rfl := of_decide_eq_true hu.1
    obtain ⟨y, v, hy, hv⟩ := exists_of_returns hu.2
    obtain rfl := of_decide_eq_true hv
    obtain ⟨started, s', hf⟩ := (transfers_end hw₃).1 20 (fun _ _ hr ↦ hr.ne_spent hx hy) hload
    obtain ⟨es, -, hrest⟩ := (transfers_end hw₃).2.1 20 started s' hf
    exact ⟨s₃, started, s', hw₃, hready, hf, hrest 0 (.inl (by rw [hready]; exact List.mem_singleton_self 0))⟩
  · obtain ⟨_, s₄, h₄, ht⟩ := exists_of_returns ht
    obtain ⟨_, s₅, h₅, ht⟩ := exists_of_returns ht
    rw [Bool.and_eq_true] at ht
    have hsize := of_decide_eq_true ht.1
    have hw₅ : Within finishing s₅ := (hw₃.started h₄).looked h₅
    obtain ⟨x, u, hx, hu⟩ := exists_of_returns ht.2
    rw [Bool.and_eq_true] at hu
    obtain rfl := of_decide_eq_true hu.1
    obtain ⟨y, v, hy, hv⟩ := exists_of_returns hu.2
    obtain rfl := of_decide_eq_true hv
    obtain ⟨received, s', hf⟩ := (transfers_end hw₅).2.2.1 20 (fun _ _ hr ↦ hr.ne_spent hx hy)
      (by rw [hsize]; decide)
    exact ⟨s₅, received, s', hw₅, hsize, hf, (transfers_end hw₅).2.2.2 20 received s' hf⟩

end Cyque.Progress
