import Cyque.Conduct

namespace Cyque.Collect

open Library.Execution Library.Lookup Library.Scanning Queue Link Workers Messages Transfer Dispatch
open Wait Footprint Exchange Placement History Steps Conduct Relation

variable {σ : Scope} {s s' : State} {p : Ref → Option Place} {j k : Key} {r : Ref}

/-- A traversal of the workers with results is past `k`. -/
def Passed (s : State) (k : Key) : Prop :=
  ∃ rest, s.workersWithAvailableResults.Traversal rest ∧ k ∉ rest

def Noted (s : State) (k : Key) : Prop := k ∈ s.workersWithAvailableResults.keys

/-- The master collects the results of the worker `k`. -/
structure Serving (s : State) (k : Key) : Prop where
  placed : Placed s
  settled : Settled s
  connected : Connected s k
  passed : Passed s k
  noted : Noted s k

theorem quiet_passed (h : Quiet k s s') (hp : Passed s k) (hn : Noted s k) :
    Passed s' k ∧ Noted s' k := by
  cases h with
  | note hk =>
    obtain ⟨rest, ht, hr⟩ := hp
    refine ⟨?_, ?_⟩
    · rcases ht.insertNew hn k with ht | ht
      · exact ⟨rest, ht, hr⟩
      · exact ⟨[], ht, List.not_mem_nil⟩
    · show k ∈ (s.workersWithAvailableResults.insertNew k k).keys
      rw [Table.insertNew, dif_pos ((Table.mem_keys_grow _ k).mpr hn)]
      exact (Table.mem_keys_grow _ k).mpr hn
  | _ => exact ⟨hp, hn⟩

theorem hushed_serving (h : ReflTransGen (Quiet k) s s') (hs : Serving s k) : Serving s' k := by
  induction h with
  | refl => exact hs
  | tail _ hq ih =>
    have hrun := run_of_hushed (σ := .still) (ReflTransGen.single hq)
    obtain ⟨hp, hn⟩ := quiet_passed hq ih.passed ih.noted
    exact ⟨hrun.placed ih.placed, hrun.settled id ih.settled, hq.connected ih.connected, hp, hn⟩

theorem leads_serving {α : Type} {f : M α} (hf : Silent k f) :
    Leads σ (Serving · k) f (fun _ s ↦ Serving s k) :=
  Spec.conseq hf (fun _ hs ↦ hs.connected)
    (fun _ _ _ hs h ↦ ⟨run_of_hushed h, hushed_serving h hs⟩)

theorem leads_line {f : M ℤ} {line : Text} (hf : Silent k f) :
    Leads σ (fun s ↦ Serving s k ∧ Heard k line s.trace) (do let x ← f; pure (x, line))
      (fun a s ↦ Serving s k ∧ (a.1 < 0 ∨ Heard k a.2 s.trace)) :=
  .bind (A := fun _ s ↦ Serving s k ∧ Heard k line s.trace)
    (Spec.conseq hf (fun _ hs ↦ hs.1.connected)
      (fun _ _ _ hs h ↦ ⟨run_of_hushed h, hushed_serving h hs.1, hushed_heard h hs.2⟩))
    (fun _ ↦ .pure (fun _ hs ↦ ⟨hs.1, .inr hs.2⟩))

theorem leads_recvWorkerMsg :
    Leads σ (Serving · k) (recvWorkerMsg k)
      (fun a s ↦ Serving s k ∧ (a.1 < 0 ∨ Heard k a.2 s.trace)) := by
  refine .bind (leads_serving (silent_linkReadline _)) (fun m ↦ ?_)
  cases m with
  | none => exact .pure (fun _ hs ↦ ⟨hs, .inl (by decide)⟩)
  | some line =>
    have hpure : ∀ x : ℤ, Leads σ (fun s ↦ Serving s k ∧ Heard k line s.trace) (pure (x, line))
        (fun a s ↦ Serving s k ∧ (a.1 < 0 ∨ Heard k a.2 s.trace)) :=
      fun x ↦ .pure (fun _ hs ↦ ⟨hs.1, .inr hs.2⟩)
    refine .bind (leads_serving .timestampGet) (fun now ↦ .bind (leads_serving
      (.setWorker (fun _ ↦ rfl) (fun _ ↦ rfl))) (fun _ ↦ .bind
      (A := fun _ s ↦ Serving s k ∧ Heard k line s.trace) (.modify (fun s hs ↦ ?_)) (fun _ ↦ ?_)))
    · have hq : Quiet k s (s.log (.received k line)) := .observe s _ trivial
      exact ⟨.quiet hq, hushed_serving (.single hq) hs, s.trace, [], rfl,
        fun _ h ↦ absurd h List.not_mem_nil⟩
    · refine .ite (fun _ ↦ hpure _) (fun _ ↦ .ite (fun _ ↦ leads_line (silent_processWorkqueue _))
        (fun _ ↦ .ite (fun _ ↦ leads_line (silent_processQueueStatus _)) (fun _ ↦ .ite (fun _ ↦ ?_)
        (fun _ ↦ .ite (fun _ ↦ leads_line (silent_processResource _)) (fun _ ↦ .ite (fun _ ↦ hpure _)
        (fun _ ↦ .ite (fun _ ↦ hpure _) (fun _ ↦ .ite (fun _ ↦ leads_line silent_processName)
        (fun _ ↦ hpure _))))))))
      refine .bind (A := fun _ s ↦ Serving s k ∧ Heard k line s.trace) (.modify (fun s hs ↦ ?_))
        (fun _ ↦ hpure _)
      have hq : Quiet k s (noteAvailableResults k s) := .note s hs.1.connected
      exact ⟨.quiet hq, hushed_serving (.single hq) hs.1, hushed_heard (.single hq) hs.2⟩

theorem leads_recvWorkerMsgRetry :
    Leads σ (Serving · k) (recvWorkerMsgRetry k)
      (fun a s ↦ Serving s k ∧ (a.1 < 0 ∨ Heard k a.2 s.trace)) :=
  .loop (fun _ s ↦ Serving s k) () (fun _ hs ↦ hs) (fun _ ↦ .bind leads_recvWorkerMsg (fun _ ↦
    .ite (fun _ ↦ .pure (fun _ hs ↦ hs.1)) (fun _ ↦ .pure (fun _ hs ↦ hs))))

/-- The worker `k` gives the result of the task `r` with a line. -/
structure Awaiting (s : State) (k : Key) (r : Ref) (id : ℕ) (line : Text) : Prop where
  serving : Serving s k
  holds : Holds s k r
  id_eq : id = (s.heap r).taskid
  heard : Heard k line s.trace

theorem leads_awaiting {α : Type} {f : M α} {id : ℕ} {line : Text} (hf : Silent k f) :
    Leads σ (Awaiting · k r id line) f (fun _ s ↦ Awaiting s k r id line) :=
  Spec.conseq hf (fun _ hs ↦ hs.serving.connected) (fun _ _ _ hs h ↦ ⟨run_of_hushed h,
    hushed_serving h hs.serving, hushed_holds h hs.holds, by rw [(hushed_alike h).taskid, hs.id_eq],
    hushed_heard h hs.heard⟩)

theorem heard_append {line : Text} {e : Event} (h : Heard k line s.trace) (hi : Internal e)
    (hc : ¬ Commits e) (hn : e ≠ .removed k) : Heard k line (s.trace ++ [e]) := by
  obtain ⟨before, after, ht, ha⟩ := h
  refine ⟨before, after ++ [e], by rw [ht, List.append_assoc, List.cons_append], fun e' he ↦ ?_⟩
  rcases List.mem_append.mp he with he | he
  · exact ha e' he
  · rw [List.mem_singleton.mp he]
    exact ⟨hi, hc, hn⟩

theorem step_charge {received now time i : ℕ} {line : Text} (hs : Awaiting s k r i line)
    (hn : Reads now s) : Step (.serving k) s (charge received now time k r s) ∧
      Awaiting (charge received now time k r s) k r i line := by
  have hstep : Step (.serving k) s (charge received now time k r s) :=
    .charge s received now time k r hs.holds (hs.serving.settled k r hs.holds) hn
  have hrun : Run (.serving k) s _ := .single hstep
  have hid := step_taskid hstep r
  obtain ⟨w, hw, ht⟩ := hs.holds
  refine ⟨hstep, ⟨hrun.placed hs.serving.placed, hrun.settled id hs.serving.settled,
    hs.serving.connected, hs.serving.passed, hs.serving.noted⟩, ⟨w, hw, by rw [hid, ht]⟩,
    by rw [hid, hs.id_eq], heard_append hs.heard trivial id (by rintro ⟨⟩)⟩

theorem step_finish {now : ℕ} {line : Text} {l : ResultLine} (hl : parseResult line = some l)
    (hs : Awaiting s k r l.taskid line) :
    Step (.serving k) s (finish now k line l r s) ∧ Serving (finish now k line l r s) k := by
  have hstep : Step (.serving k) s (finish now k line l r s) :=
    .finish s now k line l r trivial hl hs.id_eq hs.holds (hs.serving.settled k r hs.holds) hs.heard
  have hrun : Run (.serving k) s _ := .single hstep
  refine ⟨hstep, hrun.placed hs.serving.placed, hrun.settled id hs.serving.settled, ?_,
    hs.serving.passed, hs.serving.noted⟩
  exact connected_alter (f := fun w ↦ { w with finishedTasks := w.finishedTasks + 1 }) rfl k
    hs.serving.connected

theorem leads_processResult (line : Text) :
    Leads (.serving k) (fun s ↦ Serving s k ∧ Heard k line s.trace) (processResult k line)
      (fun a s ↦ Serving s k ∧ 0 ≤ a) := by
  unfold processResult
  cases hl : parseResult line with
  | none => exact .pure (fun _ hs ↦ ⟨hs.1, by decide⟩)
  | some l =>
    refine .bind (A := fun w s ↦ (Serving s k ∧ Heard k line s.trace) ∧
      s.workerTable.lookup k = some w) ?_ (fun w ↦ ?_)
    · refine Spec.conseq spec_worker (fun _ hs ↦ hs.1.connected) ?_
      rintro s w _ hs ⟨rfl, hw⟩
      exact ⟨.refl, hs, hw⟩
    · cases hc : w.currentTasks.lookup l.taskid with
      | none =>
        refine .bind ((leads_serving (silent_linkSoak _)).pre (fun _ hs ↦ hs.1.1)) (fun _ ↦ ?_)
        exact .pure (fun _ hs ↦ ⟨hs, by decide⟩)
      | some r =>
        refine Leads.pre (P := (Awaiting · k r l.taskid line)) ?_ ?_
        · refine .bind (leads_awaiting .timestampGet) (fun received ↦
            .bind (leads_awaiting .timestampGet).read (fun now ↦ .bind
              (.modify (fun s hs ↦ step_charge hs.1 hs.2)) (fun _ ↦ .bind (leads_awaiting
              (silent_receiveStdout _)) (fun ok ↦ .ite (fun _ ↦ ?_) (fun _ ↦ ?_)))))
          · refine .bind (leads_awaiting .timestampGet) (fun now ↦ .bind
              (.modify (A := fun _ s ↦ Serving s k) (fun s hs ↦ step_finish hl hs)) (fun _ ↦ ?_))
            exact .pure (fun _ hs ↦ ⟨hs, by decide⟩)
          · exact .pure (fun _ hs ↦ ⟨hs.serving, by decide⟩)
        · rintro s ⟨⟨hs, hv⟩, hw⟩
          obtain ⟨p, hp⟩ := hs.placed
          have hr := (hp.held k w hw _ r).mp hc
          exact ⟨hs, ⟨w, hw, by rw [hr.1, hc]⟩, hr.1.symm, hv⟩

theorem leads_readResult (count : ℕ) :
    Leads (.serving k) (Serving · k) (readResult k count) (fun x s ↦
      match x with | .inl _ => Serving s k | .inr a => Serving s k ∧ 0 ≤ a.1) := by
  refine .bind leads_recvWorkerMsgRetry (fun m ↦ .ite (fun _ ↦ ?_) (fun hm ↦ .ite (fun _ ↦ .bind
    ((leads_processResult m.2).pre (fun s hs ↦ ⟨hs.1, hs.2.resolve_left hm⟩)) (fun result ↦
    .ite (fun _ ↦ ?_) (fun _ ↦ ?_))) (fun _ ↦ .ite (fun _ ↦ ?_) (fun _ ↦ ?_))))
  · exact .pure (fun _ hs ↦ ⟨hs.1, Int.le_refl 0⟩)
  · exact .pure (fun _ hs ↦ hs)
  · exact .pure (fun _ hs ↦ hs.1)
  · exact .pure (fun _ hs ↦ ⟨hs.1, Int.one_nonneg⟩)
  · exact .pure (fun _ hs ↦ ⟨hs.1, Int.le_refl 0⟩)

theorem leads_sendResults (n : ℤ) :
    Leads (.serving k) (Serving · k) (sendWorkerMsg k (.sendResults n))
      (fun _ s ↦ Serving s k) := by
  refine .bind (leads_serving .worker) (fun _ ↦ .bind (leads_serving .ask) (fun _ ↦
    .bind (.modify (A := fun _ s ↦ Serving s k) (fun s hs ↦ ?_)) (fun _ ↦ .pure (fun _ hs ↦ hs))))
  have hstep : Step (.serving k) s (s.log (.sent k (.sendResults n))) := .collect s k hs.connected n
  have hrun : Run (.serving k) s _ := .single hstep
  exact ⟨hstep, hrun.placed hs.placed, hrun.settled id hs.settled, hs.connected, hs.passed, hs.noted⟩

theorem passed_remove (h : Passed s k)
    (hs : s'.workersWithAvailableResults = s.workersWithAvailableResults.remove k) : Passed s' k := by
  obtain ⟨rest, ht, hr⟩ := h
  exact ⟨rest, hs ▸ ht.remove hr, hr⟩

theorem leads_processAvailableResults (maxCount : ℤ) :
    Leads (.serving k) (Serving · k) (processAvailableResults k maxCount)
      (fun _ s ↦ Placed s ∧ Settled s ∧ Passed s k) := by
  refine .bind (leads_sendResults maxCount) (fun _ ↦ .bind (A := fun a s ↦ Serving s k ∧ 0 ≤ a.1)
    (.loop (fun _ s ↦ Serving s k) 0 (fun _ hs ↦ hs) (fun count ↦
      (leads_readResult count).post (fun x s h ↦ by cases x <;> exact h))) (fun a ↦ ?_))
  refine .when (fun hf ↦ ?_) (fun _ s hs ↦ ⟨hs.1.placed, hs.1.settled, hs.1.passed⟩)
  have hrem : Leads (.serving k) (Serving · k) (removeWorker k)
      (fun _ s ↦ Placed s ∧ Settled s ∧ Passed s k) :=
    Spec.conseq (spec_removeWorker (σ := .serving k) (k := k) rfl)
      (fun u hu ↦ ⟨hu.placed, hu.connected⟩) (fun u _ u' hu h ↦
        ⟨h.1, h.1.placed hu.placed, h.1.settled id hu.settled, passed_remove hu.passed h.2.1⟩)
  intro n s hs
  have hn : ¬ (if 0 < maxCount ∧ maxCount < a.2 then workerFailure else a.1) < 0 := by
    split
    · decide
    · exact hs.2.not_gt
  simp only [handleFailure, if_neg hn]
  exact hrem n s hs.1

/-- The tasks are where they belong, and the workers know of theirs. -/
def Steadfast (s : State) : Prop := Placed s ∧ Settled s

theorem Run.steadfast (h : Run σ s s') (hc : ¬ σ.committing) (hs : Steadfast s) : Steadfast s' :=
  ⟨h.placed hs.1, h.settled hc hs.2⟩

def Walking (s : State) : Prop := ∃ rest, s.workersWithAvailableResults.Traversal rest

theorem serving_next {rest : List Key} (hs : Steadfast s)
    (ht : s.workersWithAvailableResults.Traversal (k :: rest)) :
    s.workersWithAvailableResults.nextKey = some (some (k, k),
        { s.workersWithAvailableResults with cursor := rest.head? }) ∧
      Serving { s with workersWithAvailableResults :=
        { s.workersWithAvailableResults with cursor := rest.head? } } k := by
  obtain ⟨p, hp⟩ := hs.1
  obtain ⟨j, hj, hn, ht'⟩ := ht.nextKey_cons
  obtain ⟨rfl, hk⟩ := hp.available k j hj
  have hnd : j ∉ rest := by
    obtain ⟨seen, hseen, -⟩ := ht
    have h := s.workersWithAvailableResults.nodup
    rw [← Table.keys, hseen] at h
    exact (List.nodup_cons.mp h.of_append_right).1
  have hs' := Run.steadfast (σ := .polling) (.single (.walkAvailable s
    { s.workersWithAvailableResults with cursor := rest.head? } rfl)) id hs
  exact ⟨hn, hs'.1, hs'.2, hk, ⟨rest, ht', hnd⟩, Table.lookup_eq_some_keys hj⟩

theorem leads_collectAvailableResults :
    Leads .polling Steadfast collectAvailableResults (fun _ s ↦ Steadfast s) := by
  refine .bind (A := fun _ s ↦ Steadfast s ∧ Walking s) (.modify (fun s hs ↦ ?_)) (fun _ ↦
    .loop (fun _ s ↦ Steadfast s ∧ Walking s) () (fun _ hs ↦ hs) (fun _ ↦ .at ?_))
  · have hstep : Step .polling s _ := .walkAvailable s s.workersWithAvailableResults.firstKey rfl
    exact ⟨hstep, Run.steadfast (.single hstep) id hs, _, Table.traversal_firstKey _⟩
  rintro s ⟨hs, rest, ht⟩
  refine .run (fun _ ↦ rfl) .refl ?_
  cases rest with
  | nil =>
    refine .run (a := (none, s.workersWithAvailableResults)) (fun n ↦ ?_) .refl
      (.run (fun _ ↦ rfl) .refl (.pure ?_))
    · rw [ht.nextKey_nil]
      rfl
    · rintro _ rfl
      exact hs
  | cons k rest =>
    obtain ⟨hn, hk⟩ := serving_next hs ht
    refine .run (fun n ↦ by rw [hn]; rfl) .refl (.run (fun _ ↦ rfl)
      (.single (.walkAvailable s _ rfl)) ?_)
    refine .bind (((leads_processAvailableResults (-1)).mono (τ := .polling) id id
      (fun _ _ ↦ trivial)).pre (by rintro _ rfl; exact hk)) (fun _ ↦ .bind
      (A := fun _ s ↦ Steadfast s ∧ Walking s) (.modify (fun s' hs' ↦ ?_)) (fun _ ↦ .pure (fun _ h ↦ h)))
    obtain ⟨hp, hst, rest', ht', hr'⟩ := hs'
    have hstep : Step .polling s' _ := .forget s' k
    exact ⟨hstep, Run.steadfast (.single hstep) id ⟨hp, hst⟩, rest', ht'.remove hr'⟩

/-- The master fetches the output of the finished task `r`. -/
structure Fetching (s : State) (k : Key) (r : Ref) : Prop where
  steadfast : Steadfast s
  holds : Holds s k r
  finished : s.finishedTasks.lookup (s.heap r).taskid = some r

theorem hushed_fetching {c : Key} (h : ReflTransGen (Quiet c) s s') (hs : Fetching s k r) :
    Fetching s' k r := by
  induction h with
  | refl => exact hs
  | tail _ hq ih =>
    have hrun : Run .still _ _ := run_of_hushed (ReflTransGen.single hq)
    refine ⟨Run.steadfast hrun id ih.steadfast, quiet_holds hq ih.holds, ?_⟩
    rw [quiet_finishedTasks hq, quiet_taskid hq, ih.finished]

theorem leads_fetching {α : Type} {f : M α} (hf : Silent k f) :
    Leads σ (Fetching · k r) f (fun _ s ↦ Fetching s k r) :=
  Spec.conseq hf (fun _ hs ↦ hs.holds.connected)
    (fun _ _ _ hs h ↦ ⟨run_of_hushed h, hushed_fetching h hs⟩)

theorem answering_fetching (h : ReflTransGen (Answering k r) s s') (hs : Fetching s k r) :
    Run σ s s' ∧ Fetching s' k r := by
  induction h with
  | refl => exact ⟨.refl, hs⟩
  | @tail u u' _ ha ih =>
    cases ha with
    | quiet hq => exact ⟨ih.1.tail (.quiet hq), hushed_fetching (.single hq) ih.2⟩
    | replied f name entries result h =>
      have hstep : ∀ τ, Step τ u (u.log (.replied k r f name entries result)) :=
        fun τ ↦ .answer u k r f name entries result ih.2.holds h
      exact ⟨ih.1.tail (hstep σ), Run.steadfast (.single (hstep .still)) id ih.2.steadfast, ih.2.holds,
        ih.2.finished⟩

theorem answering_answers {fs : List File} (h : ReflTransGen (Answering k r) s s')
    (ha : Attempted k r (fun a ↦ a.asked = fs ∧ a.answers = []) s) :
    ∃ es, s'.trace = s.trace ++ es ∧
      Attempted k r (fun a ↦ a.asked = fs ∧ a.answers = replies k r es) s' := by
  induction h with
  | refl => exact ⟨[], (List.append_nil _).symm, ha⟩
  | tail _ hx ih =>
    obtain ⟨es, he, ih⟩ := ih
    cases hx with
    | quiet hq =>
      obtain ⟨ds, hd, hm⟩ := hushed_trace (.single hq)
      refine ⟨es ++ ds, by rw [hd, he, List.append_assoc], ?_⟩
      rw [replies, List.filterMap_append, ← replies, ← replies, replies_muted hm, List.append_nil]
      exact hushed_attempted (.single hq) ih (fun _ _ h ↦ h)
    | replied f name entries result h =>
      refine ⟨es ++ [.replied k r f name entries result], ?_, ?_⟩
      · rw [← List.append_assoc, ← he]
        rfl
      · refine ih.append (e := .replied k r f name entries result) rfl trivial id (fun a hk hp ↦ ?_)
        simp [Attempt.learn, hk, hp, replies, List.filterMap_append]

def Asking (s : State) (k : Key) (r : Ref) : Prop :=
  Fetching s k r ∧ Attempted k r (fun a ↦ a.asked = (s.heap r).outputFiles ∧ a.answers = []) s

theorem step_fetch (hs : Fetching s k r) : Step .fetching s (fetch k r s) ∧ Asking (fetch k r s) k r := by
  have hstep : Step .fetching s (fetch k r s) := .fetch s k r hs.holds
  refine ⟨hstep, ⟨Run.steadfast (.single hstep) id hs.steadfast, hs.holds, hs.finished⟩, ?_⟩
  refine (hs.steadfast.2 k r hs.holds).append (e := .fetching k r (s.heap r).outputFiles) rfl trivial
    id (fun a hk _ ↦ ?_)
  simp only [Attempt.learn, hk, and_self, if_true]
  exact ⟨rfl, trivial⟩

theorem leads_getOutputFiles :
    Leads .fetching (Asking · k r) (getOutputFiles k r) (fun a s ↦ Fetching s k r ∧
      (a ≠ workerFailure → Answered s k r) ∧ (a < 0 → OutputMissing (s.heap r))) := by
  refine spec_getOutputFiles.conseq (fun _ hs ↦ hs.1.holds.connected) (fun s a s' hs h ↦ ?_)
  obtain ⟨hrun, hfetching⟩ := answering_fetching (σ := .fetching) h.answering hs.1
  refine ⟨hrun, hfetching, fun ha ↦ ?_, h.missing⟩
  obtain ⟨es, he, hf⟩ := h.trace
  obtain ⟨ds, hd, hat⟩ := answering_answers h.answering hs.2
  rw [he] at hd
  rw [← List.append_cancel_left hd] at hat
  refine hat.mono (fun x hx ↦ ?_)
  rw [hx.1, hx.2]
  exact hf ha

theorem not_holds_complete {now : ℕ} (hs : Consistent s p) (hr : Holds s k r) :
    ¬ Holds (complete now k r s) j r := by
  intro hr'
  have := hr'.workerOf (consistent_complete hs hr now)
  rw [Function.update_self] at this
  cases this

/-- Whatever comes of it, the task is no longer with a worker. -/
theorem leads_fetchOutputFromWorker {i : ℕ} :
    Leads .fetching (fun s ↦ Fetching s k r ∧ (s.heap r).taskid = i) (fetchOutputFromWorker k i)
      (fun _ s ↦ Steadfast s ∧ ∀ j, ¬ Holds s j r) := by
  have hkeep : ∀ s s', Run .fetching s s' → Steadfast s → Steadfast s' :=
    fun s s' h hs ↦ Run.steadfast h id hs
  refine .at ?_
  rintro s ⟨hs, hid⟩
  obtain ⟨w, hw, ht⟩ := hs.holds
  rw [hid] at ht
  refine .run (worker_apply hw) .refl ?_
  simp only [ht]
  refine Leads.pre (P := (Fetching · k r)) ?_ (by rintro _ rfl; exact hs)
  refine .bind (leads_fetching .timestampGet) (fun start ↦ .bind (leads_fetching
    (.setTask (fun _ ↦ rfl) (fun _ ↦ rfl))) (fun _ ↦ .bind (.modify (fun s hs ↦ step_fetch hs))
    (fun _ ↦ .bind leads_getOutputFiles (fun result ↦ .ite (fun hr ↦ ?_) (fun hr ↦ ?_)))))
  · refine ((leads_handleFailure trivial result).keep hkeep).conseq (fun s hs ↦ ?_) (fun _ _ h ↦ ⟨h.2, h.1⟩)
    refine ⟨⟨hs.1.steadfast.1, hs.1.holds, fun h ↦ ⟨fun h0 ↦ ?_, hs.2.1 (h.ne)⟩⟩, hs.1.steadfast⟩
    have hm := hs.2.2 h
    rw [OutputMissing, h0] at hm
    cases hm
  · have hdeaf : Deaf (fun a ↦ a.answers.map Prod.fst = a.asked ∧
        ∀ x ∈ a.answers, x.2.2 ≠ workerFailure) := fun _ _ h ↦ h
    have hfetched : ∀ {α : Type} {f : M α}, Silent k f →
        Leads .fetching (fun s ↦ Fetching s k r ∧ Answered s k r) f
          (fun _ s ↦ Fetching s k r ∧ Answered s k r) := fun hf ↦
      Spec.conseq hf (fun _ hs ↦ hs.1.holds.connected) (fun _ _ _ hs h ↦
        ⟨run_of_hushed h, hushed_fetching h hs.1, hushed_attempted h hs.2 hdeaf⟩)
    refine Leads.pre (P := fun s ↦ Fetching s k r ∧ Answered s k r) ?_
      (fun _ hs ↦ ⟨hs.1, hs.2.1 (fun h ↦ hr h.le)⟩)
    refine .bind (hfetched .timestampGet) (fun now ↦ .bind (hfetched
      (.setTask (fun _ ↦ rfl) (fun _ ↦ rfl))) (fun _ ↦ .bind (hfetched
      silent_deleteUncacheableFiles) (fun _ ↦ .bind (hfetched .timestampGet).read (fun now ↦
      .bind (A := fun _ s ↦ Steadfast s ∧ ∀ j, ¬ Holds s j r) (.modify (fun s hs ↦ ?_))
      (fun _ ↦ ?_)))))
    · have hstep : Step .fetching s (complete now k r s) :=
        .complete s now k r hs.1.1.holds hs.1.1.finished hs.1.2 hs.2
      obtain ⟨p, hp⟩ := hs.1.1.steadfast.1
      exact ⟨hstep, hkeep _ _ (.single hstep) hs.1.1.steadfast, fun j ↦
        not_holds_complete hp hs.1.1.holds⟩
    · refine Spec.of_done (fun n s hs ↦ ⟨(), exhaust s, rfl, ?_⟩)
      have hstep : Step .fetching s (exhaust s) := .quiet (k := k) (.walk s _ rfl)
      exact ⟨.single hstep, hkeep _ _ (.single hstep) hs.1, hs.2⟩

def receiveRound (received : ℕ) : M (ℕ ⊕ ℕ) := do
  let s ← get
  match s.finishedTasks.keys with
  | [] => pure (.inr received)
  | id :: _ =>
    let k ← deref (s.workerTaskMap.lookup id)
    fetchOutputFromWorker k id
    pure (.inl (received + 1))

theorem receiveTasks_eq : receiveTasks = loop receiveRound 0 := rfl

theorem exists_fetching {i : ℕ} (hs : Steadfast s) (hr : s.finishedTasks.lookup i = some r) :
    ∃ k, s.workerTaskMap.lookup i = some k ∧ Fetching s k r ∧ (s.heap r).taskid = i := by
  obtain ⟨p, hp⟩ := hs.1
  have hf := (hp.finished i r).mp hr
  have hpr := ne_none_of_isFinished hf.2
  obtain ⟨k, hpk⟩ := exists_of_isFinished hf.2
  have hk : workerOf (p r) = some k := by rw [hpk]; rfl
  obtain ⟨w, hw⟩ := hp.connected r k hk
  refine ⟨k, by rw [← hf.1, hp.mapped_at hpr, hk], ⟨hs, ⟨w, hw, ?_⟩, by rw [hf.1, hr]⟩, hf.1⟩
  rw [hp.held_at hpr hw, if_pos hk]

/-- A round ends the loop where no finished task is left, and takes one of them
from its worker where there is one. -/
theorem leads_receiveRound (hs : Steadfast s) (received : ℕ) :
    Leads .fetching (fun t ↦ t = s) (receiveRound received) (fun x s' ↦ Steadfast s' ∧
      match x with
      | .inl _ => ∃ i r, s.finishedTasks.lookup i = some r ∧ ∀ j, ¬ Holds s' j r
      | .inr _ => s'.finishedTasks.keys = []) := by
  refine .run (fun _ ↦ rfl) .refl ?_
  cases hk : s.finishedTasks.keys with
  | nil => exact .pure (by rintro _ rfl; exact ⟨hs, hk⟩)
  | cons i rest =>
    have hi : i ∈ s.finishedTasks.keys := by rw [hk]; exact List.mem_cons_self ..
    obtain ⟨r, hr⟩ := Table.exists_lookup_of_mem_keys hi
    obtain ⟨k, hm, hf⟩ := exists_fetching hs hr
    refine .run (a := k) (fun n ↦ by rw [hm]; rfl) .refl (.bind ((leads_fetchOutputFromWorker
      (r := r)).pre ?_) (fun _ ↦ .pure (fun _ h ↦ ⟨h.1, i, r, hr, h.2⟩)))
    rintro _ rfl
    exact hf

theorem leads_receiveTasks :
    Leads .fetching Steadfast receiveTasks (fun _ s ↦ Steadfast s ∧ s.finishedTasks.keys = []) := by
  rw [receiveTasks_eq]
  refine .loop (fun _ s ↦ Steadfast s) 0 (fun _ hs ↦ hs) (fun received ↦ .at (fun s hs ↦ ?_))
  refine (leads_receiveRound hs received).post (fun x s hx ↦ ?_)
  cases x with
  | inl _ => exact hx.1
  | inr _ => exact hx

end Cyque.Collect
