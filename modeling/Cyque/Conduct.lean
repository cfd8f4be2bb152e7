import Cyque.Steps

namespace Cyque.Conduct

open Library.Execution Library.Lookup Library.Scanning Queue Link Workers Messages Transfer Dispatch
open Wait Footprint Exchange Placement History Steps Relation

def Placed (s : State) : Prop := ∃ p, Consistent s p

abbrev Run (σ : Scope) := ReflTransGen (Step σ)

/-- No task is with a worker that was not told about it completely. -/
def Settled (s : State) : Prop := ∀ k r, Holds s k r → Dispatched s k r

variable {σ : Scope} {s s' : State} {p : Ref → Option Place} {j k : Key} {r : Ref}

theorem Run.placed (h : Run σ s s') (hs : Placed s) : Placed s' := by
  induction h with
  | refl => exact hs
  | tail _ hstep ih =>
    obtain ⟨p, hp⟩ := ih
    obtain ⟨p', hp', -⟩ := hstep.consistent hp
    exact ⟨p', hp'⟩

theorem Run.mono {τ : Scope} (h : Run σ s s') (hr : σ.receiving → τ.receiving)
    (hc : σ.committing → τ.committing) (hl : ∀ k, σ.leaving k → τ.leaving k) : Run τ s s' :=
  ReflTransGen.mono (fun _ _ hs ↦ hs.mono hr hc hl) _ _ h

theorem run_of_hushed (h : ReflTransGen (Quiet k) s s') : Run σ s s' :=
  ReflTransGen.mono (fun _ _ hq ↦ .quiet hq) _ _ h

theorem Run.connected (h : Run σ s s') (hk : Connected s k) (hl : ¬ σ.leaving k) :
    Connected s' k := by
  induction h with
  | refl => exact hk
  | tail _ hstep ih => exact step_connected hstep ih hl

theorem Run.dispatched (h : Run σ s s') (hc : ¬ σ.committing) (hr : Dispatched s k r) :
    Dispatched s' k r := by
  induction h with
  | refl => exact hr
  | tail _ hstep ih => exact step_dispatched hstep hc ih

theorem Run.holds (h : Run σ s s') (hc : ¬ σ.committing) (hr : Holds s' k r) : Holds s k r := by
  induction h with
  | refl => exact hr
  | tail _ hstep ih => exact ih (step_holds hstep hc hr)

theorem Run.settled (h : Run σ s s') (hc : ¬ σ.committing) (hs : Settled s) : Settled s' :=
  fun k r hr ↦ h.dispatched hc (hs k r (h.holds hc hr))

theorem Run.trace (h : Run σ s s') : ∃ es, s'.trace = s.trace ++ es := by
  induction h with
  | refl => exact ⟨[], (List.append_nil _).symm⟩
  | tail _ hstep ih =>
    obtain ⟨es, hes⟩ := ih
    rcases step_trace hstep with he | ⟨e, he, -⟩
    · exact ⟨es, he.trans hes⟩
    · exact ⟨es ++ [e], by rw [he, hes, List.append_assoc]⟩

theorem Run.env (h : Run σ s s') : s'.env = s.env := by
  induction h with
  | refl => rfl
  | tail _ hstep ih => exact (step_env hstep).trans ih

theorem Run.nextTaskid (h : Run σ s s') : s'.nextTaskid = s.nextTaskid := by
  induction h with
  | refl => rfl
  | tail _ hstep ih => exact (step_nextTaskid hstep).trans ih

theorem Run.allocated (h : Run σ s s') : s'.allocated = s.allocated := by
  induction h with
  | refl => rfl
  | tail _ hstep ih => exact (step_allocated hstep).trans ih

theorem Run.lookup_finished (h : Run σ s s') (hr : ¬ σ.receiving) {i : ℕ}
    (hi : s'.finishedTasks.lookup i = some r) : s.finishedTasks.lookup i = some r := by
  induction h with
  | refl => exact hi
  | tail _ hstep ih => exact ih (step_finished hstep hr hi)

theorem Run.finished (h : Run σ s s') (hr : ¬ σ.receiving) (hs : s.finishedTasks.size = 0) :
    s'.finishedTasks.size = 0 := by
  rw [Table.size_eq_zero_iff] at hs ⊢
  intro i
  rw [Option.eq_none_iff_forall_ne_some]
  intro r hi
  have := h.lookup_finished hr hi
  rw [hs] at this
  cases this

theorem quiet_holds {c : Key} (h : Quiet c s s') (hr : Holds s k r) : Holds s' k r := by
  obtain ⟨w, hw, ht⟩ := hr
  obtain ⟨w', hw'⟩ := h.connected ⟨w, hw⟩
  obtain ⟨w₀, hw₀, hd⟩ := quiet_worker h hw'
  rw [hw] at hw₀
  cases hw₀
  refine ⟨w', hw', ?_⟩
  rw [quiet_taskid h]
  exact (congrArg (fun x ↦ x.1.lookup (s.heap r).taskid) hd).trans ht

theorem hushed_holds {c : Key} (h : ReflTransGen (Quiet c) s s') (hr : Holds s k r) :
    Holds s' k r := by
  induction h with
  | refl => exact hr
  | tail _ hq ih => exact quiet_holds hq ih

/-- Code that leads from a state with `P`, by steps of the scope, to one with
`A`. -/
def Leads {α : Type} (σ : Scope) (P : State → Prop) (f : M α) (A : α → State → Prop) : Prop :=
  Spec P f (fun s a s' ↦ Run σ s s' ∧ A a s')

namespace Leads

variable {α β : Type} {P P' : State → Prop} {f : M α} {g : α → M β}
variable {A A' : α → State → Prop} {B : β → State → Prop}

theorem conseq (h : Leads σ P f A) (hP : ∀ s, P' s → P s) (hA : ∀ a s, A a s → A' a s) :
    Leads σ P' f A' :=
  Spec.conseq h hP (fun _ a s' _ h ↦ ⟨h.1, hA a s' h.2⟩)

theorem pre (h : Leads σ P f A) (hP : ∀ s, P' s → P s) : Leads σ P' f A :=
  h.conseq hP (fun _ _ h ↦ h)

theorem post (h : Leads σ P f A) (hA : ∀ a s, A a s → A' a s) : Leads σ P f A' :=
  h.conseq (fun _ h ↦ h) hA

theorem mono {τ : Scope} (h : Leads σ P f A) (hr : σ.receiving → τ.receiving)
    (hc : σ.committing → τ.committing) (hl : ∀ k, σ.leaving k → τ.leaving k) : Leads τ P f A :=
  Spec.post h (fun _ _ _ _ h ↦ ⟨h.1.mono hr hc hl, h.2⟩)

theorem pure {a : α} (h : ∀ s, P s → A a s) : Leads σ P (pure a) A :=
  Spec.pure a (fun s hs ↦ ⟨.refl, h s hs⟩)

theorem bind (hf : Leads σ P f A) (hg : ∀ a, Leads σ (A a) (g a) B) : Leads σ P (f >>= g) B :=
  Spec.bind hf (fun _ a _ ↦ Spec.conseq (hg a) (fun _ hs ↦ hs.2)
    (fun _ _ _ hs h ↦ ⟨hs.1.trans h.1, h.2⟩))

theorem «at» (h : ∀ s₀, P s₀ → Leads σ (fun s ↦ s = s₀) f A) : Leads σ P f A := Spec.at h

theorem run {s t : State} {a : α} (hf : ∀ n, f n s = .done a t) (hr : Run σ s t)
    (hg : Leads σ (fun u ↦ u = t) (g a) B) : Leads σ (fun u ↦ u = s) (f >>= g) B := by
  refine Spec.run hf (Spec.conseq hg (fun _ h ↦ h) ?_)
  rintro _ b s' rfl h
  exact ⟨hr.trans h.1, h.2⟩

theorem ite {c : Prop} [Decidable c] {f' : M α} (ht : c → Leads σ P f A)
    (he : ¬ c → Leads σ P f' A) : Leads σ P (if c then f else f') A := Spec.ite ht he

theorem when {c : Prop} [Decidable c] {f : M Unit} {A : Unit → State → Prop}
    (hf : c → Leads σ P f A) (he : ¬ c → ∀ s, P s → A () s) : Leads σ P (when c f) A :=
  ite hf (fun h ↦ pure (he h))

/-- What the code requires besides `P` is a property that the run keeps. -/
theorem keep {I : State → Prop} (h : Leads σ P f A) (hI : ∀ s s', Run σ s s' → I s → I s') :
    Leads σ (fun s ↦ P s ∧ I s) f (fun a s ↦ A a s ∧ I s) :=
  Spec.conseq h (fun _ hs ↦ hs.1) (fun s _ s' hs h ↦ ⟨h.1, h.2, hI s s' h.1 hs.2⟩)

theorem modify {F : State → State} {A : Unit → State → Prop}
    (h : ∀ s, P s → Step σ s (F s) ∧ A () (F s)) : Leads σ P (modify F) A :=
  Spec.modify F (fun s hs ↦ ⟨.single (h s hs).1, (h s hs).2⟩)

theorem get : Leads σ P (get : M State) (fun a s ↦ a = s ∧ P s) :=
  Spec.get (fun _ hs ↦ ⟨.refl, rfl, hs⟩)

theorem loop {body : β → M (β ⊕ α)} (I : β → State → Prop) (b : β) (h₀ : ∀ s, P s → I b s)
    (hb : ∀ b, Leads σ (I b) (body b) (fun x s ↦
      match x with | .inl b' => I b' s | .inr a => A a s)) : Leads σ P (loop body b) A := by
  refine Spec.loop (fun s b s' ↦ Run σ s s' ∧ I b s') b (fun s hs ↦ ⟨.refl, h₀ s hs⟩)
    (fun s₀ b hs₀ ↦ Spec.conseq (hb b) (fun _ h ↦ h.2) (fun s x s' hs h ↦ ?_))
  cases x with
  | inl b' => exact ⟨hs.1.trans h.1, h.2⟩
  | inr a => exact ⟨hs.1.trans h.1, h.2⟩

theorem read {A : ℕ → State → Prop} (h : Leads σ P timestampGet A) :
    Leads σ P timestampGet (fun now s ↦ A now s ∧ Reads now s) :=
  fun n s hs ↦ ⟨(h n s hs).1, (h n s hs).2, List.getLast?_concat⟩

end Leads

@[simp] theorem logWorkerStats_apply (n : ℕ) (s : State) :
    logWorkerStats n s = .done () (exhaust s) := rfl

theorem worker_apply {w : Worker} (hw : s.workerTable.lookup k = some w) (n : ℕ) :
    worker k n s = .done w s := by
  simp only [worker, bind_apply, get_apply, hw, deref_some, pure_apply]

theorem linkSoak_apply (hw : s.workerTable.lookup k = some w) (length : ℤ) (n : ℕ) :
    linkSoak k length n s = .done () (({ s with calls := s.calls + 1 } : State).setWorker k (fun w ↦
      { w with incoming := w.incoming.drop (min length.toNat (s.env.answers s.calls).arrived) })) := by
  simp only [linkSoak, bind_apply, worker_apply hw]
  rfl

/-- The tasks `rs` are the ones that the worker holds. -/
def Charge (s : State) (k : Key) (rs : List Ref) : Prop :=
  ∃ w, s.workerTable.lookup k = some w ∧ rs.Nodup ∧
    ∀ r, r ∈ rs ↔ ∃ i, w.currentTasks.lookup i = some r

theorem holds_of_charge (h : Consistent s p) {rs : List Ref} (hc : Charge s k rs) (hr : r ∈ rs) :
    Holds s k r := by
  obtain ⟨w, hw, -, hm⟩ := hc
  obtain ⟨i, hi⟩ := (hm r).mp hr
  have := (h.held k w hw i r).mp hi
  exact ⟨w, hw, by rw [this.1, hi]⟩

theorem charge_requeue (h : Consistent s p) {rs : List Ref} (hc : Charge s k (r :: rs)) (e : ℕ) :
    Charge (requeue e k r s) k rs := by
  obtain ⟨w, hw, hn, hm⟩ := hc
  have hid : ((requeue e k r s).heap r).taskid = (s.heap r).taskid := by
    simp [requeue, reap, State.setTask]
  refine ⟨releaseTask ((requeue e k r s).heap r) w, ?_, (List.nodup_cons.mp hn).2, fun r' ↦ ?_⟩
  · show (s.workerTable.alter k (releaseTask ((requeue e k r s).heap r))).lookup k = _
    rw [Table.lookup_alter, if_pos rfl, hw]
    rfl
  · have hm' := hm r'
    have hn' := (List.nodup_cons.mp hn).1
    simp only [currentTasks_releaseTask, hid, Table.lookup_remove]
    constructor
    · intro hr'
      obtain ⟨i, hi⟩ := hm'.mp (List.mem_cons_of_mem r hr')
      have hi' := (h.held k w hw i r').mp hi
      refine ⟨i, ?_⟩
      rw [if_neg, hi]
      intro he
      obtain ⟨j, hj⟩ := (hm r).mp (List.mem_cons_self ..)
      have hj' := (h.held k w hw j r).mp hj
      have := h.distinct r r' (ne_none_of_workerOf hj'.2) (ne_none_of_workerOf hi'.2)
        (by rw [hi'.1, he])
      exact hn' (this ▸ hr')
    · rintro ⟨i, hi⟩
      split at hi
      · cases hi
      · rename_i he
        have hr' := hm'.mpr ⟨i, hi⟩
        rcases List.mem_cons.mp hr' with rfl | hr'
        · exact absurd ((h.held k w hw i r').mp hi).1.symm he
        · exact hr'

theorem reads_tick (s : State) : Reads (s.env.answers s.calls).now s.tick := List.getLast?_concat

theorem requeueTask_apply (k : Key) (r : Ref) (n : ℕ) (s : State) :
    ∃ e s₁, (s₁ = s ∨ s₁ = s.tick) ∧ Elapsed s₁ r e ∧
      requeueTask k r n s = .done () (exhaust (requeue e k r s₁)) := by
  by_cases h : (s.heap r).timeCommitted ≤ (s.heap r).timeExecuteCmdStart
  · refine ⟨stamp ((s.env.answers s.calls).now - (s.heap r).timeExecuteCmdStart), _, .inr rfl, ?_, ?_⟩
    · have h' : (s.tick.heap r).timeCommitted ≤ (s.tick.heap r).timeExecuteCmdStart := h
      rw [Elapsed, if_pos h']
      exact ⟨_, reads_tick s, rfl⟩
    · simp only [requeueTask, task, elapsedTime, bind_apply, get_apply, pure_apply, if_pos h]
      rfl
  · refine ⟨0, _, .inl rfl, ?_, ?_⟩
    · rw [Elapsed, if_neg h]
    · simp only [requeueTask, task, elapsedTime, bind_apply, get_apply, pure_apply, if_neg h]
      rfl

def Ran (σ : Scope) (s s' : State) : Prop :=
  Run σ s s' ∧ s'.workersWithAvailableResults = s.workersWithAvailableResults

theorem Ran.refl (s : State) : Ran σ s s := ⟨.refl, rfl⟩

theorem Ran.trans {s'' : State} (h : Ran σ s s') (h' : Ran σ s' s'') : Ran σ s s'' :=
  ⟨h.1.trans h'.1, h'.2.trans h.2⟩

theorem Ran.step (h : Step σ s s')
    (ha : s'.workersWithAvailableResults = s.workersWithAvailableResults) : Ran σ s s' :=
  ⟨.single h, ha⟩

theorem spec_requeueTask {rs : List Ref} :
    Spec (fun s ↦ Placed s ∧ Charge s k (r :: rs)) (requeueTask k r)
      (fun s _ s' ↦ Ran σ s s' ∧ Charge s' k rs) := by
  refine Spec.of_done ?_
  rintro n s ⟨⟨p, hp⟩, hc⟩
  have hr := holds_of_charge hp hc (List.mem_cons_self ..)
  obtain ⟨e, s₁, hs₁, he, hf⟩ := requeueTask_apply k r n s
  refine ⟨(), _, hf, ?_⟩
  rcases hs₁ with rfl | rfl
  · refine ⟨⟨?_, rfl⟩, charge_requeue hp hc e⟩
    exact (ReflTransGen.single (.requeue _ e k r hr he)).tail (.quiet (k := k) (.walk _ _ rfl))
  · refine ⟨⟨?_, rfl⟩, charge_requeue (s := s.tick) (consistent_quiet (c := k) (.tick s) hp) hc e⟩
    exact ((ReflTransGen.single (.quiet (k := k) (.tick s))).tail (.requeue _ e k r hr he)).tail
      (.quiet (k := k) (.walk _ _ rfl))

theorem spec_requeueTasks (rs : List Ref) :
    Spec (fun s ↦ Placed s ∧ Charge s k rs) (forEach (requeueTask k) rs)
      (fun s _ s' ↦ Ran σ s s' ∧ Charge s' k []) := by
  induction rs with
  | nil => exact Spec.pure _ (fun s hs ↦ ⟨.refl s, hs.2⟩)
  | cons r rs ih =>
    refine Spec.bind (spec_requeueTask (σ := σ)) (fun s₀ _ hs₀ ↦ ?_)
    exact ih.conseq (fun s hs ↦ ⟨hs.1.1.placed hs₀.1, hs.2⟩)
      (fun s _ s' hs hs' ↦ ⟨hs.1.trans hs'.1, hs'.2⟩)

theorem charge_values (h : Consistent s p) {w : Worker} (hw : s.workerTable.lookup k = some w) :
    Charge s k w.currentTasks.values := by
  refine ⟨w, hw, ?_, w.currentTasks.mem_values_iff⟩
  exact w.currentTasks.values_nodup (fun r ↦ (s.heap r).taskid)
    (fun i r hi ↦ ((h.held k w hw i r).mp hi).1)

theorem idle_of_charge (h : Charge s k []) : Idle s k := by
  obtain ⟨w, hw, -, hc⟩ := h
  refine ⟨w, hw, fun i ↦ ?_⟩
  rw [Option.eq_none_iff_forall_ne_some]
  exact fun r hr ↦ List.not_mem_nil ((hc r).mpr ⟨i, hr⟩)

theorem idle_clearTasks (h : Idle s k) : Idle (s.setWorker k clearTasks) k := by
  obtain ⟨w, hw, -⟩ := h
  refine ⟨clearTasks w, ?_, fun _ ↦ rfl⟩
  simp only [State.setWorker, Table.lookup_alter, hw, if_pos, Option.map_some]

theorem spec_cleanupWorker :
    Spec (fun s ↦ Placed s ∧ Connected s k) (cleanupWorker k)
      (fun s _ s' ↦ Ran σ s s' ∧ Idle s' k) := by
  refine Spec.at ?_
  rintro s ⟨hs, w, hw⟩
  have hf : Step σ s (s.setWorker k (clearFiles s.env.hashString)) := .clearFiles s k _
  obtain ⟨p, hp⟩ := Run.placed (.single hf) hs
  have hw' : (s.setWorker k (clearFiles s.env.hashString)).workerTable.lookup k =
      some (clearFiles s.env.hashString w) := by
    simp only [State.setWorker, Table.lookup_alter, hw, if_pos, Option.map_some]
  have hc := charge_values hp hw'
  refine Spec.run (worker_apply hw) (Spec.run (fun _ ↦ rfl) (Spec.run (fun _ ↦ rfl) ?_))
  refine Spec.bind ((spec_requeueTasks (σ := σ) (k := k) w.currentTasks.values).pre ?_) ?_
  · rintro _ rfl
    exact ⟨⟨p, hp⟩, hc⟩
  · rintro _ _ rfl
    refine Spec.modify _ (fun s₁ h₁ ↦ ?_)
    have hi := idle_of_charge h₁.2
    exact ⟨((Ran.step hf rfl).trans h₁.1).trans (.step (.clearTasks s₁ k hi) rfl),
      idle_clearTasks hi⟩

theorem not_connected_disconnect : ¬ Connected (disconnect k s) k := by
  rintro ⟨w, hw⟩
  simp [disconnect] at hw

theorem spec_removeWorker (hl : σ.leaving k) :
    Spec (fun s ↦ Placed s ∧ Connected s k) (removeWorker k) (fun s _ s' ↦ Run σ s s' ∧
      s'.workersWithAvailableResults = s.workersWithAvailableResults.remove k ∧
      s'.workerTable.cursor = none ∧ ¬ Connected s' k) := by
  refine Spec.bind (spec_cleanupWorker (σ := σ)) (fun s₀ _ _ ↦ Spec.of_done ?_)
  rintro n s ⟨hr, hi⟩
  refine ⟨(), exhaust (disconnect k s), rfl, ?_, ?_, rfl, not_connected_disconnect⟩
  · exact (hr.1.tail (.disconnect s k hl hi)).tail (.quiet (k := k) (.walk _ _ rfl))
  · show s.workersWithAvailableResults.remove k = _
    rw [hr.2]

theorem not_holds_fail (hs : Consistent s p) (hr : Holds s k r) :
    ¬ Holds (failTask k r s) j r := by
  intro hr'
  have := hr'.workerOf (consistent_fail hs hr)
  rw [Function.update_self] at this
  cases this

theorem leads_handleAppFailure :
    Leads σ (fun s ↦ Placed s ∧ Holds s k r ∧ (s.heap r).result ≠ 0 ∧ Answered s k r)
      (handleAppFailure k r) (fun _ s ↦ ∀ j, ¬ Holds s j r) := by
  refine Spec.at ?_
  rintro s ⟨⟨p, hp⟩, hr, hf, hg⟩
  obtain ⟨w, hw⟩ := hr.connected
  have hstep : Step σ s (failTask k r s) := .fail s k r hr hf hg
  have hk : Connected (failTask k r s) k :=
    connected_alter (f := releaseTask (s.heap r)) rfl k ⟨w, hw⟩
  refine Spec.run (worker_apply hw) (Spec.run (fun _ ↦ rfl) (Spec.run (fun _ ↦ rfl)
    (Spec.run (fun _ ↦ rfl) ?_)))
  refine (Silent.when silent_deleteTaskOutputFiles).conseq ?_ ?_
  · rintro _ rfl
    exact hk
  · rintro _ _ s' rfl hq
    have hrun : Run .still (failTask k r s) s' :=
      (ReflTransGen.single (.quiet (k := k) (.walk _ _ rfl))).trans (run_of_hushed hq)
    refine ⟨.head hstep (hrun.mono False.elim False.elim (fun _ ↦ False.elim)), fun j hj ↦ ?_⟩
    exact not_holds_fail hp hr (hrun.holds id hj)

theorem leads_handleFailure (hl : σ.leaving k) (failType : ℤ) :
    Leads σ (fun s ↦ Placed s ∧ Holds s k r ∧
        (failType < 0 → (s.heap r).result ≠ 0 ∧ Answered s k r))
      (handleFailure k (some r) failType) (fun _ s ↦ ∀ j, ¬ Holds s j r) := by
  refine Leads.ite (fun h ↦ ?_) (fun h ↦ ?_)
  · exact (leads_handleAppFailure (σ := σ)).pre (fun s hs ↦ ⟨hs.1, hs.2.1, hs.2.2 h⟩)
  · refine (spec_removeWorker (σ := .losing k) (k := k) rfl).conseq
      (fun s hs ↦ ⟨hs.1, hs.2.1.connected⟩) ?_
    rintro s _ s' ⟨⟨p, hp⟩, hr, -⟩ ⟨hrun, -, -, hn⟩
    refine ⟨hrun.mono False.elim False.elim (by rintro _ rfl; exact hl), fun j hj ↦ ?_⟩
    have hk := (hrun.holds (by exact id) hj).workerOf hp
    rw [hr.workerOf hp] at hk
    cases hk
    exact hn hj.connected

theorem spec_worker : Spec (Connected · k) (worker k)
    (fun s w s' ↦ s' = s ∧ s.workerTable.lookup k = some w) := by
  refine Spec.of_done ?_
  rintro n s ⟨w, hw⟩
  exact ⟨w, s, worker_apply hw n, rfl, hw⟩

/-- The worker holds the task for its current attempt, and it is so. -/
def Busy (s : State) (k : Key) (r : Ref) (P : Attempt → Prop) : Prop :=
  Holds s k r ∧ Attempted k r P s

/-- What does not depend on the lines of the worker. -/
def Deaf (P : Attempt → Prop) : Prop := ∀ (a : Attempt) heard, P a → P { a with heard := heard }

def Blank (a : Attempt) : Prop := a.place = none ∧ a.asked = [] ∧ a.answers = []

def Unasked (a : Attempt) : Prop := a.asked = [] ∧ a.answers = []

theorem hushed_busy {P : Attempt → Prop} {c : Key} (hP : Deaf P)
    (h : ReflTransGen (Quiet c) s s') (hb : Busy s k r P) : Busy s' k r P :=
  ⟨hushed_holds h hb.1, hushed_attempted h hb.2 hP⟩

theorem leads_busy {α : Type} {f : M α} {P : Attempt → Prop} (hP : Deaf P) (hf : Silent k f) :
    Leads σ (Busy · k r P) f (fun _ s ↦ Busy s k r P) :=
  Spec.conseq hf (fun _ hs ↦ hs.1.connected)
    (fun _ _ _ hs h ↦ ⟨run_of_hushed h, hushed_busy hP h hs⟩)

def Ready (a : Attempt) : Prop := Blank a ∧ a.supplied = some success

theorem busy_supply {result : ℤ} (hb : Busy s k r Blank) :
    Busy (s.log (.supplied k r result)) k r (fun a ↦ Blank a ∧ a.supplied = some result) := by
  refine ⟨hb.1, hb.2.append (e := .supplied k r result) rfl trivial id (fun a hk ha ↦ ?_)⟩
  simp only [Attempt.learn, hk, and_self, if_true]
  exact ⟨ha, trivial⟩

theorem busy_dispatch (w : Worker) (now : ℕ) (hb : Busy s k r Ready) :
    Busy (dispatch now k r w s) k r (fun a ↦ Unasked a ∧ a.place ≠ none) := by
  refine ⟨?_, hb.2.append (e := .dispatched k r w.addrport w.hostname) rfl trivial id (fun a hk ha ↦ ?_)⟩
  · obtain ⟨w', hw', ht⟩ := hb.1
    refine ⟨w', hw', ?_⟩
    rw [← ht]
    exact congrArg w'.currentTasks.lookup (update_alike (by rfl) (by rfl) r).1
  · simp only [Attempt.learn, hk, and_self, if_true]
    exact ⟨ha.1.2, Option.some_ne_none _⟩

theorem leads_described (now : ℕ) (w : Worker) :
    Leads .still (fun s ↦ Busy s k r Ready ∧ s.workerTable.lookup k = some w ∧ Reads now s)
      (do
        modify (dispatch now k r w)
        let s ← get
        forEach (fun m ↦ do let _ ← sendWorkerMsg k m) (taskMessages s.env.md5String (s.heap r))
        let sent ← sendWorkerMsg k .end
        pure (if -1 < sent then success else workerFailure))
      (fun a s ↦ Busy s k r (fun a ↦ Unasked a ∧ a.place ≠ none) ∧ 0 ≤ a) := by
  refine Spec.at ?_
  rintro s ⟨hb, hw, hn⟩
  have hstep : Step .still s (dispatch now k r w s) :=
    .dispatch s now k r w hw hb.1 (hb.2.mono (fun a ha ↦ ⟨ha.1.1, ha.2⟩)) hn
  refine Spec.run (fun _ ↦ rfl) (Spec.run (fun _ ↦ rfl) ?_)
  have hmsg : ∀ m ∈ taskMessages s.env.md5String ((dispatch now k r w s).heap r), Plain m := by
    intro m hm
    simp only [taskMessages, List.mem_append, List.mem_map, List.mem_cons, List.not_mem_nil,
      or_false] at hm
    rcases hm with ((rfl | rfl | rfl | rfl | rfl | rfl) | ⟨f, -, rfl⟩) | ⟨f, -, rfl⟩
    all_goals try trivial
    unfold fileMessage
    split <;> trivial
  have hy : Yields k (do
      forEach (fun m ↦ do let _ ← sendWorkerMsg k m)
        (taskMessages s.env.md5String ((dispatch now k r w s).heap r))
      let sent ← sendWorkerMsg k .end
      pure (if -1 < sent then success else workerFailure)) (fun a _ ↦ 0 ≤ a) := by
    refine .skip (.forEach _ (fun m hm ↦ .bind (silent_sendWorkerMsg (hmsg m hm)) (fun _ ↦ .pure _)))
      (fun _ ↦ .skip (silent_sendWorkerMsg (by trivial)) (fun _ ↦ .pure (fun _ ↦ ?_)))
    split <;> decide
  have hb' := busy_dispatch w now hb
  refine hy.conseq ?_ ?_
  · rintro _ rfl
    exact hb'.1.connected
  · rintro _ a s' rfl ⟨hq, ha⟩
    exact ⟨.head hstep (run_of_hushed hq), hushed_busy (fun _ _ h ↦ h) hq hb', ha⟩

theorem leads_startOneTask :
    Leads .still (Busy · k r Blank) (startOneTask k r) (fun a s ↦ Busy s k r Unasked ∧
      (a = success → Dispatched s k r) ∧ (a < 0 → (s.heap r).result ≠ 0)) := by
  have hblank : Deaf Blank := fun _ _ h ↦ h
  have hready : Deaf Ready := fun _ _ h ↦ h
  refine .bind (leads_busy hblank .timestampGet) (fun start ↦ .bind (leads_busy hblank
    (.setTask (fun _ ↦ rfl) (fun _ ↦ rfl))) (fun _ ↦ ?_))
  have hin : Leads .still (Busy · k r Blank) (sendInputFiles k r)
      (fun a s ↦ Busy s k r Blank ∧ (a < 0 → (s.heap r).result ≠ 0)) :=
    yields_sendInputFiles.conseq (fun _ hs ↦ hs.1.connected)
      (fun _ _ _ hs h ↦ ⟨run_of_hushed h.1, hushed_busy hblank h.1 hs, h.2⟩)
  refine .bind hin (fun result ↦ .bind (A := fun _ s ↦
    Busy s k r (fun a ↦ Blank a ∧ a.supplied = some result) ∧ (result < 0 → (s.heap r).result ≠ 0))
    (.modify (fun s hs ↦ ⟨.supply s k r result hs.1.2, busy_supply hs.1, hs.2⟩)) (fun _ ↦
    .ite (fun hr ↦ .pure (fun s hs ↦ ?_)) (fun hr ↦ ?_)))
  · exact ⟨⟨hs.1.1, hs.1.2.mono (fun a ha ↦ ha.1.2)⟩, fun h ↦ absurd h hr, hs.2⟩
  · rw [not_not.mp hr]
    refine Leads.pre (P := (Busy · k r Ready)) ?_ (fun _ hs ↦ hs.1)
    refine .bind (leads_busy hready .timestampGet) (fun finish ↦ .bind (leads_busy hready
      (.setTask (fun _ ↦ rfl) (fun _ ↦ rfl))) (fun _ ↦ .bind (leads_busy hready .timestampGet).read
      (fun now ↦ .bind (A := fun w s ↦ Busy s k r Ready ∧ s.workerTable.lookup k = some w ∧ Reads now s)
      ?_ (fun w ↦ ?_))))
    · refine Spec.conseq spec_worker (fun _ hs ↦ hs.1.1.connected) ?_
      rintro s w _ hs ⟨rfl, hw⟩
      exact ⟨.refl, hs.1, hw, hs.2⟩
    · refine (leads_described now w).post (fun a s hs ↦
        ⟨⟨hs.1.1, hs.1.2.mono (fun a ha ↦ ha.1)⟩, fun _ ↦ hs.1.2.mono (fun a ha ↦ ha.2), fun ha ↦ ?_⟩)
      exact absurd ha hs.2.not_gt

/-- All but one of the tasks that are with a worker were dispatched. -/
def SettledBut (s : State) (r : Ref) : Prop := ∀ j r', Holds s j r' → r' = r ∨ Dispatched s j r'

theorem Run.settledBut (h : Run σ s s') (hc : ¬ σ.committing) (hs : SettledBut s r) :
    SettledBut s' r :=
  fun j r' hr' ↦ (hs j r' (h.holds hc hr')).imp id (h.dispatched hc)

theorem busy_commit {now : ℕ} (hk : Connected s k) : Busy (commit now k r s) k r Blank := by
  obtain ⟨w, hw⟩ := hk
  refine ⟨⟨acceptTask (s.heap r) r w, ?_, ?_⟩,
    ⟨k, (s.heap r).taskid, none, none, false, [], none, [], []⟩, ?_, rfl, rfl, rfl, rfl⟩
  · simp [commit, hw]
  · simp [commit, currentTasks_acceptTask]
  · show attempt r (s.trace ++ [_]) = _
    rw [attempt_append]
    simp [record]

theorem settledBut_commit {now : ℕ} (hs : Settled s) : SettledBut (commit now k r s) r := by
  intro j r' hr'
  by_cases he : r' = r
  · exact .inl he
  · right
    have hh : Holds s j r' := by
      obtain ⟨w', hw', ht⟩ := hr'
      have hi : (commit now k r s).heap r' = s.heap r' := Function.update_of_ne he _ _
      rw [hi] at ht
      simp only [commit, Table.lookup_alter] at hw'
      split at hw'
      · obtain ⟨w, hw, rfl⟩ := Option.map_eq_some_iff.mp hw'
        rw [currentTasks_acceptTask, Table.lookup_insert] at ht
        split at ht
        · exact absurd (Option.some.inj ht).symm he
        · exact ⟨w, hw, ht⟩
      · exact ⟨w', hw', ht⟩
    obtain ⟨a, ha, hp⟩ := hs j r' hh
    refine ⟨a, ?_, hp⟩
    show attempt r' (s.trace ++ [_]) = _
    rw [attempt_append, ha]
    simp [record, Ne.symm he]

theorem SettledBut.settled (h : SettledBut s r) (hr : ∀ j, Holds s j r → Dispatched s j r) :
    Settled s := by
  intro j r' hr'
  rcases h j r' hr' with rfl | hd
  · exact hr j hr'
  · exact hd

/-- The start of a task that was just committed, and what follows where it
fails. -/
theorem leads_started (hl : σ.leaving k) :
    Leads σ (fun s ↦ Busy s k r Blank ∧ Placed s ∧ SettledBut s r)
      (do
        let result ← startOneTask k r
        when (result ≠ success) (handleFailure k (some r) result))
      (fun _ s ↦ Placed s ∧ Settled s) := by
  suffices h : Leads (.losing k) (fun s ↦ Busy s k r Blank ∧ Placed s ∧ SettledBut s r)
      (do
        let result ← startOneTask k r
        when (result ≠ success) (handleFailure k (some r) result))
      (fun _ s ↦ Placed s ∧ Settled s) from
    h.mono False.elim False.elim (by rintro _ rfl; exact hl)
  have hkeep : ∀ s s', Run (.losing k) s s' → Placed s ∧ SettledBut s r →
      Placed s' ∧ SettledBut s' r := fun s s' h hs ↦ ⟨h.placed hs.1, h.settledBut id hs.2⟩
  refine .bind ((leads_startOneTask.mono (τ := .losing k) id id (fun _ ↦ False.elim)).keep hkeep) (fun result ↦
    .when (fun hr ↦ ?_) (fun hr s hs ↦ ?_))
  · refine ((leads_handleFailure rfl result).keep hkeep).conseq (fun s hs ↦ ?_) (fun _ s hs ↦ ?_)
    · refine ⟨⟨hs.2.1, hs.1.1.1, fun h ↦ ⟨hs.1.2.2 h, hs.1.1.2.mono (fun a ha ↦ ?_)⟩⟩, hs.2⟩
      rw [ha.1, ha.2]
      exact ⟨rfl, fun _ h ↦ absurd h List.not_mem_nil⟩
    · exact ⟨hs.2.1, hs.2.2.settled (fun j hj ↦ absurd hj (hs.1 j))⟩
  · obtain ⟨p, hp⟩ := hs.2.1
    refine ⟨⟨p, hp⟩, hs.2.2.settled (fun j hj ↦ ?_)⟩
    have hk := hj.workerOf hp
    rw [hs.1.1.1.workerOf hp] at hk
    cases hk
    exact hs.1.2.1 (not_not.mp hr)

theorem commitTaskToWorker_apply {w : Worker} (hw : s.workerTable.lookup k = some w) (n : ℕ) :
    commitTaskToWorker k r n s =
      .done () (exhaust (commit (s.env.answers s.calls).now k r s.tick)) := by
  simp only [commitTaskToWorker, bind_apply, worker_apply hw]
  rfl

theorem leads_startTaskOnWorker (hl : σ.leaving k) (hc : σ.committing) :
    Leads σ (fun s ↦ Placed s ∧ Settled s ∧ Connected s k) (startTaskOnWorker k)
      (fun _ s ↦ Placed s ∧ Settled s) := by
  refine Spec.at ?_
  rintro s ⟨hp, hs, w, hw⟩
  refine Spec.run (fun _ ↦ rfl) ?_
  cases hready : s.readyList with
  | nil => exact Spec.pure _ (by rintro _ rfl; exact ⟨.refl, hp, hs⟩)
  | cons r rest =>
    let t := exhaust (commit (s.env.answers s.calls).now k r (popReady s.tick))
    have htick : Run .still s s.tick := .single (.quiet (k := k) (.tick s))
    have hrun : Run σ s t :=
      ((ReflTransGen.single (.quiet (k := k) (.tick s))).tail
        (.commit s.tick _ k r hc (congrArg List.head? hready) ⟨w, hw⟩ (reads_tick s))).tail
        (.quiet (k := k) (.walk _ _ rfl))
    have hb : Busy t k r Blank := busy_commit (s := popReady s.tick) ⟨w, hw⟩
    have hs' : SettledBut t r := settledBut_commit (s := popReady s.tick) (htick.settled id hs)
    refine Spec.run (fun _ ↦ rfl) (Spec.run (commitTaskToWorker_apply (s := popReady s) hw) ?_)
    refine Spec.conseq (leads_started (r := r) hl) ?_ ?_
    · rintro _ rfl
      exact ⟨hb, hrun.placed hp, hs'⟩
    · rintro _ _ s' rfl ⟨hr, ha⟩
      exact ⟨hrun.trans hr, ha⟩

theorem connected_of_findBestWorker {t : Task} (h : findBestWorker s.workerTable.entries t = some k) :
    Connected s k := by
  have hmem : ∀ e ∈ s.workerTable.entries, Connected s e.1 := by
    rintro ⟨j, w⟩ he
    exact ⟨w, (s.workerTable.mem_entries_iff j w).mp he⟩
  have hfold : ∀ (es : List (Key × Worker)) (b : Option (Key × ℕ)),
      (∀ e ∈ es, Connected s e.1) → (∀ x, b = some x → Connected s x.1) →
      ∀ x, es.foldl (fasterWorker t) b = some x → Connected s x.1 := by
    intro es
    induction es with
    | nil => exact fun b _ hb ↦ hb
    | cons e es ih =>
      intro b he hb
      refine ih _ (fun e' h' ↦ he e' (List.mem_cons_of_mem e h')) (fun x hx ↦ ?_)
      have hk := he e (List.mem_cons_self ..)
      unfold fasterWorker at hx
      split at hx
      · split at hx
        · cases hx
          exact hk
        · split at hx
          · cases hx
            exact hk
          · exact hb x hx
      · exact hb x hx
  unfold findBestWorker findWorkerByTime at h
  split at h
  · rename_i b hb
    cases h
    exact hfold _ none hmem (by rintro x ⟨⟩) b hb
  · obtain ⟨e, he, rfl⟩ := Option.map_eq_some_iff.mp h
    exact hmem e (List.mem_of_find?_eq_some he)

def startRound (started : ℕ) : M (ℕ ⊕ ℕ) := do
  let s ← get
  match s.readyList with
  | [] => pure (.inr started)
  | r :: _ =>
    match findBestWorker s.workerTable.entries (s.heap r) with
    | some k =>
      startTaskOnWorker k
      pure (.inl (started + 1))
    | none =>
      let available ← availableWorkers
      when (0 < available) (modify rotateReady)
      pure (.inr started)

theorem startTasks_eq : startTasks = loop startRound 0 := rfl

theorem leads_startRound (hl : ∀ k, σ.leaving k) (hc : σ.committing) (started : ℕ) :
    Leads σ (fun s ↦ Placed s ∧ Settled s) (startRound started) (fun _ s ↦ Placed s ∧ Settled s) := by
  refine .bind .get ?_
  intro s
  cases s.readyList with
  | nil => exact .pure (fun _ hs ↦ hs.2)
  | cons r rest =>
    cases hf : findBestWorker s.workerTable.entries (s.heap r) with
    | some k =>
      simp only [hf]
      refine .bind ((leads_startTaskOnWorker (hl k) hc).pre ?_) (fun _ ↦ .pure (fun _ hs ↦ hs))
      rintro _ ⟨rfl, hs⟩
      exact ⟨hs.1, hs.2, connected_of_findBestWorker hf⟩
    | none =>
      simp only [hf]
      have hkeep : ∀ s s', Run .still s s' → Placed s ∧ Settled s → Placed s' ∧ Settled s' :=
        fun s s' h hs ↦ ⟨h.placed hs.1, h.settled id hs.2⟩
      have hex : Leads .still (fun _ ↦ True) availableWorkers (fun _ _ ↦ True) :=
        Spec.of_done (fun n s _ ↦ ⟨_, exhaust s, rfl, .single (.quiet (k := 0) (.walk s _ rfl)), trivial⟩)
      have hrot : Leads .still (fun _ ↦ True) (modify rotateReady) (fun _ _ ↦ True) :=
        .modify (fun s _ ↦ ⟨.rotate s, trivial⟩)
      refine Leads.mono (σ := .still) ?_ False.elim False.elim (fun _ ↦ False.elim)
      refine .bind ((hex.keep hkeep).pre (fun _ hs ↦ ⟨trivial, hs.2⟩)) (fun available ↦
        .bind (A := fun _ s ↦ Placed s ∧ Settled s) (.when (fun _ ↦ ?_) (fun _ _ hs ↦ hs.2))
        (fun _ ↦ .pure (fun _ hs ↦ hs)))
      exact (hrot.keep hkeep).post (fun _ _ hs ↦ hs.2)

theorem leads_startTasks (hl : ∀ k, σ.leaving k) (hc : σ.committing) :
    Leads σ (fun s ↦ Placed s ∧ Settled s) startTasks (fun _ s ↦ Placed s ∧ Settled s) := by
  rw [startTasks_eq]
  refine .loop (fun _ s ↦ Placed s ∧ Settled s) 0 (fun _ hs ↦ hs) (fun started ↦ ?_)
  exact (leads_startRound hl hc started).post (fun x s hs ↦ by cases x <;> exact hs)

end Cyque.Conduct
