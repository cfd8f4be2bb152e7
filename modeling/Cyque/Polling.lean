import Cyque.Collect

namespace Cyque.Polling

open Library.Execution Library.Lookup Library.Scanning Queue Link Workers Messages Transfer Dispatch
open Wait Footprint Exchange Placement History Steps Conduct Collect Relation

variable {σ : Scope} {s s' : State} {p : Ref → Option Place} {j k : Key} {r : Ref}

/-- A traversal of the workers can go on. -/
def Walkable (s : State) : Prop := ∃ rest, s.workerTable.Traversal rest

theorem walkable_of_cursor (h : s.workerTable.cursor = none) : Walkable s :=
  ⟨[], s.workerTable.keys, (List.append_nil _).symm, h⟩

theorem leads_handleWorkerFailure (hl : σ.leaving k) (hc : ¬ σ.committing) :
    Leads σ (fun s ↦ Steadfast s ∧ Connected s k) (handleWorkerFailure k)
      (fun _ s ↦ Steadfast s ∧ Walkable s) :=
  Spec.conseq (spec_removeWorker hl) (fun _ hs ↦ ⟨hs.1.1, hs.2⟩) (fun _ _ _ hs h ↦
    ⟨h.1, Run.steadfast h.1 hc hs.1, walkable_of_cursor h.2.2.1⟩)

theorem sendWorkerMsg_apply {w : Worker} (hw : s.workerTable.lookup k = some w) (m : Msg) (n : ℕ) :
    sendWorkerMsg k m n s = .done (if fits m then (s.env.answers s.calls).wrote else -1)
      (({ s with calls := s.calls + 1 } : State).log (.sent k m)) := by
  simp only [sendWorkerMsg, bind_apply, worker_apply hw]
  rfl

theorem leads_checkKeepalive (now : ℕ) :
    Leads .fetching (fun s ↦ Steadfast s ∧ Connected s k ∧ Walkable s) (checkKeepalive now k)
      (fun _ s ↦ Steadfast s ∧ Walkable s) := by
  refine .at ?_
  rintro u ⟨hu, ⟨w, hw⟩, ht⟩
  let s : State := u.log (.tested k)
  have htest : Run .fetching u s := .single (.quiet (k := k) (.observe u _ trivial))
  have hs := Run.steadfast htest id hu
  have hfail : Leads .fetching (fun t ↦ t = s) (handleWorkerFailure k)
      (fun _ s ↦ Steadfast s ∧ Walkable s) :=
    (leads_handleWorkerFailure trivial id).pre (by rintro _ rfl; exact ⟨hs, w, hw⟩)
  refine .run (worker_apply hw) .refl (.run (t := s) (fun _ ↦ rfl) htest (.ite
    (fun _ ↦ .when (fun _ ↦ ?_) ?_) (fun _ ↦ .run (fun _ ↦ rfl) .refl (.when (fun _ ↦ hfail) ?_))))
  · have hrun : Run .fetching s (({ s with calls := s.calls + 1 } : State).log (.sent k .check)) :=
      (ReflTransGen.single (.quiet (k := k) (.call s))).tail
        (.quiet (k := k) (.tell _ .check ⟨w, hw⟩ trivial))
    have hs' := Run.steadfast hrun id hs
    refine .run (sendWorkerMsg_apply (s := s) hw .check) hrun (.ite (fun _ ↦ ?_) (fun _ ↦ ?_))
    · exact (leads_handleWorkerFailure trivial id).pre (by rintro _ rfl; exact ⟨hs', w, hw⟩)
    · refine .modify ?_
      rintro _ rfl
      have hstep : Step .fetching _ _ := .quiet (k := k) (.worker
        (({ s with calls := s.calls + 1 } : State).log (.sent k .check))
        (fun w ↦ { w with keepaliveCheckSentTime := now }) (fun _ ↦ rfl) (fun _ ↦ rfl))
      obtain ⟨rest, ht⟩ := ht
      exact ⟨hstep, Run.steadfast (.single hstep) id hs', rest, ht.alter k _⟩
  · rintro - _ rfl
    exact ⟨hs, ht⟩
  · rintro - _ rfl
    exact ⟨hs, ht⟩

theorem leads_eachWorker {body : Key → M Unit}
    (hb : ∀ k, Leads .fetching (fun s ↦ Steadfast s ∧ Connected s k ∧ Walkable s) (body k)
      (fun _ s ↦ Steadfast s ∧ Walkable s)) :
    Leads .fetching Steadfast (eachWorker body) (fun _ s ↦ Steadfast s) := by
  refine .bind (A := fun _ s ↦ Steadfast s ∧ Walkable s) (.modify (fun s hs ↦ ?_)) (fun _ ↦
    .loop (fun _ s ↦ Steadfast s ∧ Walkable s) () (fun _ hs ↦ hs) (fun _ ↦ .at ?_))
  · have hstep : Step .fetching s _ := .quiet (k := 0) (.walk s s.workerTable.firstKey rfl)
    exact ⟨hstep, Run.steadfast (.single hstep) id hs, _, Table.traversal_firstKey _⟩
  rintro s ⟨hs, rest, ht⟩
  refine .run (fun _ ↦ rfl) .refl ?_
  cases rest with
  | nil =>
    refine .run (a := (none, s.workerTable)) (fun n ↦ by rw [ht.nextKey_nil]; rfl) .refl
      (.run (fun _ ↦ rfl) .refl (.pure ?_))
    rintro _ rfl
    exact hs
  | cons k rest =>
    obtain ⟨w, hw, hn, ht'⟩ := ht.nextKey_cons
    have hrun : Run .fetching s { s with workerTable :=
        { s.workerTable with cursor := rest.head? } } := .single (.quiet (k := k) (.walk s _ rfl))
    refine .run (fun n ↦ by rw [hn]; rfl) .refl (.run (fun _ ↦ rfl) hrun (.bind ((hb k).pre ?_)
      (fun _ ↦ .pure (fun _ h ↦ h))))
    rintro _ rfl
    exact ⟨Run.steadfast hrun id hs, ⟨w, hw⟩, rest, ht'⟩

theorem leads_removeUnresponsiveWorkers :
    Leads .fetching Steadfast removeUnresponsiveWorkers (fun _ s ↦ Steadfast s) := by
  refine .bind (A := fun _ s ↦ Steadfast s) (Spec.of_done (fun n s hs ↦ ⟨_, _, rfl, ?_⟩))
    (fun now ↦ leads_eachWorker (fun k ↦ leads_checkKeepalive now))
  have hrun : Run .fetching s s.tick := .single (.quiet (k := 0) (.tick s))
  exact ⟨hrun, Run.steadfast hrun id hs⟩

theorem leads_addWorker : Leads .still Steadfast addWorker (fun _ s ↦ Steadfast s) := by
  refine .at (fun s hs ↦ .run (fun _ ↦ rfl) .refl ?_)
  let s₁ : State := { s with calls := s.calls + 1 }
  have hrun : Run .still s s₁ := .single (.quiet (k := 0) (.call s))
  have hs₁ := Run.steadfast hrun id hs
  refine .run (t := s₁) (fun _ ↦ rfl) hrun ?_
  cases (s.env.answers s.calls).peer with
  | none => exact .pure (by rintro _ rfl; exact hs₁)
  | some q =>
    refine .ite (fun _ ↦ .pure (by rintro _ rfl; exact hs₁)) (fun hq ↦ ?_)
    let s₂ : State := s₁.tick
    have hrun₂ : Run .still s₁ s₂ := .single (.quiet (k := 0) (.tick s₁))
    refine .run (t := s₂) (fun _ ↦ rfl) hrun₂ (.bind (A := fun _ s ↦ Steadfast s) (.modify ?_) (fun _ ↦ ?_))
    · rintro _ rfl
      have hstep : Step .still s₂ (connect (s₁.env.answers s₁.calls).now q s₂) := by
        refine .connect s₂ _ q ?_
        rintro ⟨w, hw⟩
        exact hq (Option.isSome_iff_exists.mpr ⟨w, hw⟩)
      exact ⟨hstep, Run.steadfast (hrun₂.tail hstep) id hs₁⟩
    · refine Spec.of_done (fun n s hs ↦ ⟨(), exhaust s, rfl, ?_⟩)
      have hstep : Step .still s (exhaust s) := .quiet (k := 0) (.walk s _ rfl)
      exact ⟨.single hstep, Run.steadfast (.single hstep) id hs⟩

theorem leads_handleWorker :
    Leads (.losing k) (fun s ↦ Steadfast s ∧ Connected s k) (handleWorker k)
      (fun _ s ↦ Steadfast s) := by
  have hrecv : Leads (.losing k) (fun s ↦ Steadfast s ∧ Connected s k) (recvWorkerMsg k)
      (fun _ s ↦ Steadfast s ∧ Connected s k) :=
    Spec.conseq silent_recvWorkerMsg (fun _ hs ↦ hs.2) (fun _ _ _ hs h ↦ ⟨run_of_hushed h,
      Run.steadfast (run_of_hushed (σ := .still) h) id hs.1, (steady k).keeps hs.2 h⟩)
  refine .bind hrecv (fun m ↦ .when (fun _ ↦ ?_) (fun _ _ hs ↦ hs.1))
  exact (leads_handleWorkerFailure rfl id).post (fun _ _ hs ↦ hs.1)

/-- The workers of the list answer in turn, and only the one that is heard may
leave. -/
theorem leads_handleWorkers (ready : Key → Bool) (ks : List Key) (hn : ks.Nodup) :
    Leads .fetching (fun s ↦ Steadfast s ∧ ∀ k ∈ ks, Connected s k)
      (forEach (fun k ↦ when (ready k) (handleWorker k)) ks) (fun _ s ↦ Steadfast s) := by
  induction ks with
  | nil => exact .pure (fun _ hs ↦ hs.1)
  | cons k ks ih =>
    rw [List.nodup_cons] at hn
    refine .bind (A := fun _ s ↦ Steadfast s ∧ ∀ j ∈ ks, Connected s j) ?_ (fun _ ↦ ih hn.2)
    have hkeep : ∀ s s', Run (.losing k) s s' → (∀ j ∈ ks, Connected s j) → ∀ j ∈ ks, Connected s' j :=
      fun s s' h hs j hj ↦ h.connected (hs j hj) (fun he ↦ hn.1 (he ▸ hj))
    refine Leads.mono (σ := .losing k) (.when (fun _ ↦ ?_) (fun _ s hs ↦ ?_)) id id (fun _ _ ↦ trivial)
    · exact (leads_handleWorker.keep hkeep).pre (fun s hs ↦ ⟨⟨hs.1, hs.2 k (List.mem_cons_self ..)⟩,
        fun j hj ↦ hs.2 j (List.mem_cons_of_mem k hj)⟩)
    · exact ⟨hs.1, fun j hj ↦ hs.2 j (List.mem_cons_of_mem k hj)⟩

theorem leads_waitLoopPollLinks :
    Leads .polling Steadfast waitLoopPollLinks (fun _ s ↦ Steadfast s) := by
  refine .at (fun s hs ↦ .run (fun _ ↦ rfl) .refl ?_)
  have hall : ∀ k ∈ s.workerTable.keys, Connected s k :=
    fun k hk ↦ Table.exists_lookup_of_mem_keys hk
  let I : State → Prop := fun t ↦ Steadfast t ∧ ∀ k ∈ s.workerTable.keys, Connected t k
  have hstill : ∀ {t t'}, Run .still t t' → I t → I t' := fun h ht ↦
    ⟨Run.steadfast h id ht.1, fun k hk ↦ h.connected (ht.2 k hk) id⟩
  have hstep : ∀ {t t' c}, Quiet c t t' → I t → Run .polling t t' ∧ I t' := fun h ht ↦
    ⟨.single (.quiet h), hstill (.single (.quiet h)) ht⟩
  refine .bind (A := fun _ t ↦ I t) (Spec.modify _ ?_) (fun _ ↦
    .bind (A := fun _ t ↦ I t) (fun n t ht ↦ hstep (c := 0) (.call t) ht) (fun poll ↦
    .bind (A := fun _ t ↦ I t) (fun n t ht ↦ hstep (c := 0) (.tick t) ht) (fun now ↦
    .bind (A := fun _ t ↦ I t) (Spec.modify _ (fun t ht ↦ hstep (c := 0) (.poll t now) ht)) (fun _ ↦
    .bind (A := fun _ t ↦ I t) (.when (fun _ ↦ ?_) (fun _ _ h ↦ h)) (fun _ ↦
    .bind (A := fun _ t ↦ Steadfast t) ?_ (fun _ ↦ .bind .get (fun t ↦
      .when (fun _ ↦ ?_) (fun _ _ h ↦ h.2))))))))
  · rintro _ rfl
    exact hstep (c := 0) (.walk _ _ rfl) ⟨hs, hall⟩
  · refine Spec.conseq leads_addWorker (fun _ ht ↦ ht.1) (fun t _ t' ht h ↦ ?_)
    exact ⟨h.1.mono False.elim False.elim (fun _ ↦ False.elim), hstill h.1 ht⟩
  · exact (leads_handleWorkers _ _ s.workerTable.nodup).mono False.elim id (fun _ ↦ id)
  · exact leads_collectAvailableResults.pre (fun _ h ↦ h.2)

/-- At every look at the workers, either one of them is known or no result
waits to be fetched. -/
def Heeded (trace : List Event) : Prop :=
  ∀ known waiting, .polled known waiting ∈ trace → waiting = 0 ∨ 0 < known

def Drained (s : State) : Prop := Heeded s.trace → s.finishedTasks.size = 0

theorem Run.drained (h : Run σ s s') (hr : ¬ σ.receiving) (hs : Drained s) : Drained s' := by
  intro hh
  obtain ⟨es, he⟩ := h.trace
  exact h.finished hr (hs (fun known waiting hm ↦
    hh known waiting (he ▸ List.mem_append_left es hm)))

theorem leads_waitLoopTransferTasks :
    Leads .waiting Steadfast waitLoopTransferTasks
      (fun _ s ↦ Steadfast s ∧ s.finishedTasks.size = 0) := by
  refine .bind (leads_startTasks (fun _ ↦ trivial) trivial) (fun _ ↦ .bind (leads_receiveTasks.mono
    False.elim False.elim (fun _ ↦ id)) (fun _ ↦ .pure (fun s hs ↦ ⟨hs.1, ?_⟩)))
  rw [Table.size, ← List.length_map (f := Prod.fst), ← Table.keys, hs.2]
  rfl

theorem leads_polled :
    Leads .waiting Steadfast
      (do
        waitLoopPollLinks
        let known ← knownWorkers
        let s ← get
        log (.polled known s.finishedTasks.size)
        when (0 < known) waitLoopTransferTasks
        pure (.inl ()) : M (Unit ⊕ Option Ref))
      (fun x s ↦ x = .inl () ∧ Steadfast s ∧ Drained s) := by
  refine .bind (leads_waitLoopPollLinks.mono id False.elim (fun _ ↦ id)) (fun _ ↦ .at (fun s hs ↦ ?_))
  have hex : Run .still s (exhaust s) := .single (.quiet (k := 0) (.walk s _ rfl))
  refine .run (fun _ ↦ rfl) (hex.mono False.elim False.elim (fun _ ↦ False.elim)) (.run (fun _ ↦ rfl)
    .refl ?_)
  let e : Event := .polled (s.workerTable.values.countP isKnown) s.finishedTasks.size
  have hlog : Run .still (exhaust s) ((exhaust s).log e) := .single (.quiet (k := 0)
    (.observe _ e trivial))
  have hs' := Run.steadfast (hex.trans hlog) id hs
  refine .run (fun _ ↦ rfl) (hlog.mono False.elim False.elim (fun _ ↦ False.elim))
    (.bind (A := fun _ s ↦ Steadfast s ∧ Drained s) (.when (fun hk ↦ ?_) (fun hk ↦ ?_))
      (fun _ ↦ .pure (fun _ h ↦ ⟨rfl, h⟩)))
  · refine leads_waitLoopTransferTasks.conseq ?_ (fun _ _ h ↦ ⟨h.1, fun _ ↦ h.2⟩)
    rintro _ rfl
    exact hs'
  · rintro _ rfl
    refine ⟨hs', fun hh ↦ ?_⟩
    exact (hh _ _ (List.mem_append_right _ (List.mem_singleton_self e))).resolve_right hk

/-- How an iteration of the wait loop, or the whole loop, ends after a run that
led to the state `t`. -/
inductive Ends (t : State) : Option Ref → State → Prop
  | task (r : Ref) (h : t.completeList.head? = some r) : Ends t (some r) (popComplete t)
  | none (hc : t.completeList = []) (hr : t.runningTasks.size = 0) (hl : t.readyList = []) :
      Ends t none t

theorem spec_waitIteration :
    Spec Steadfast waitIteration (fun s x s' ↦ ∃ t, Run .waiting s t ∧ Steadfast t ∧
      (Drained s → Drained t) ∧
        match x with | .inl _ => s' = t | .inr a => Ends t a s') := by
  refine Spec.bind leads_removeUnresponsiveWorkers (fun s₀ _ _ ↦ Spec.at ?_)
  rintro t ⟨hrun, hs⟩
  have hw : Run .waiting s₀ t := hrun.mono False.elim False.elim (fun _ ↦ id)
  have hd : Drained s₀ → Drained t := Run.drained hrun id
  refine Spec.run (fun _ ↦ rfl) ?_
  cases hc : t.completeList with
  | cons r rest =>
    refine Spec.run (fun _ ↦ rfl) (Spec.pure _ ?_)
    rintro _ rfl
    exact ⟨t, hw, hs, hd, .task r (by rw [hc]; rfl)⟩
  | nil =>
    refine Spec.ite (fun hn ↦ Spec.pure _ ?_) (fun _ ↦ ?_)
    · rintro _ rfl
      exact ⟨_, hw, hs, hd, .none hc hn.1 hn.2⟩
    · refine Spec.conseq leads_polled (by rintro _ rfl; exact hs) ?_
      rintro _ x s' rfl ⟨hr, rfl, hs', hd'⟩
      exact ⟨s', hw.trans hr, hs', fun _ ↦ hd', rfl⟩

theorem spec_workQueueWait :
    Spec Steadfast workQueueWait (fun s a s' ↦ ∃ t, Run .waiting s t ∧ Steadfast t ∧
      (Drained s → Drained t) ∧ Ends t a s') := by
  refine Spec.loop (fun s _ s' ↦ Run .waiting s s' ∧ Steadfast s' ∧ (Drained s → Drained s')) ()
    (fun s hs ↦ ⟨.refl, hs, id⟩) (fun s₀ _ _ ↦ spec_waitIteration.conseq (fun s hs ↦ hs.2.1) ?_)
  rintro s x s' ⟨hr, -, hd⟩ ⟨t, hr', hs', hd', hx⟩
  cases x with
  | inl _ =>
    subst hx
    exact ⟨hr.trans hr', hs', fun h ↦ hd' (hd h)⟩
  | inr a => exact ⟨t, hr.trans hr', hs', fun h ↦ hd' (hd h), hx⟩

end Cyque.Polling
