import Cyque.Agreement

namespace Cyque.Removal

open Library.Execution Library.Lookup Library.Scanning Queue Link Workers Dispatch Wait Api Run
open Footprint Steps Conduct Polling Agreement

variable {s s' : State} {k : Key} {n : ℕ}

/-- The same workers are connected, and the keepalive test is applied to none
of them. -/
def Untested (s s' : State) : Prop :=
  (∀ j, Connected s' j ↔ Connected s j) ∧
    ∃ ds, s'.trace = s.trace ++ ds ∧ ∀ j, .tested j ∉ ds

theorem untested_of_keys (ds : List Event) (hk : s'.workerTable.keys = s.workerTable.keys)
    (ht : s'.trace = s.trace ++ ds) (hd : ∀ j, .tested j ∉ ds) : Untested s s' := by
  refine ⟨fun j ↦ ?_, ds, ht, hd⟩
  have hmem : ∀ u : State, Connected u j ↔ j ∈ u.workerTable.keys := fun u ↦
    ⟨fun ⟨_, hw⟩ ↦ Table.lookup_eq_some_keys hw, Table.exists_lookup_of_mem_keys⟩
  rw [hmem, hmem, hk]

theorem Untested.refl (s : State) : Untested s s :=
  untested_of_keys _ rfl (List.append_nil _).symm (fun _ ↦ List.not_mem_nil)

theorem Untested.trans {s'' : State} (h : Untested s s') (h' : Untested s' s'') :
    Untested s s'' := by
  obtain ⟨hc, ds, hd, hm⟩ := h
  obtain ⟨hc', es, he, hm'⟩ := h'
  refine ⟨fun j ↦ (hc' j).trans (hc j), ds ++ es, by rw [he, hd, List.append_assoc], fun j hj ↦ ?_⟩
  exact (List.mem_append.mp hj).elim (hm j) (hm' j)

theorem steadyUntested : Steady (fun _ ↦ True) Untested where
  refl := Untested.refl
  trans := Untested.trans
  keeps _ _ := trivial

theorem untested_tick (s : State) : Untested s s.tick :=
  untested_of_keys [.clock (s.env.answers s.calls).now] rfl rfl (fun j hj ↦ by
    cases List.mem_singleton.mp hj)

theorem untested_setWorker (s : State) (k : Key) (f : Worker → Worker) :
    Untested s (s.setWorker k f) :=
  untested_of_keys _ (Table.keys_alter _ _ _) (List.append_nil _).symm (fun _ ↦ List.not_mem_nil)

theorem untested_requeueTask (r : Ref) : Moves (fun _ ↦ True) Untested (requeueTask k r) := by
  refine Spec.of_done (fun n s _ ↦ ?_)
  obtain ⟨e, s₁, hs₁, -, hf⟩ := requeueTask_apply k r n s
  have hrequeue : Untested s₁ (exhaust (requeue e k r s₁)) :=
    untested_of_keys [.requeued k r] (Table.keys_alter _ _ _) rfl (fun j hj ↦ by
      cases List.mem_singleton.mp hj)
  have hfirst : Untested s s₁ := by
    rcases hs₁ with rfl | rfl
    · exact .refl _
    · exact untested_tick s
  exact ⟨(), _, hf, hfirst.trans hrequeue⟩

theorem untested_cleanupWorker :
    Spec (Connected · k) (cleanupWorker k) (fun s _ s' ↦ Untested s s') := by
  refine Spec.at ?_
  rintro s ⟨w, hw⟩
  have hrest : Moves (fun _ ↦ True) Untested (do
      setWorker k (fun w ↦ { w with currentFiles := .empty s.env.hashString })
      forEach (requeueTask k) w.currentTasks.values
      setWorker k (fun w ↦ { w with currentTasks := .empty id, finishedTasks := 0 })) :=
    .bind steadyUntested (.modify _ (fun u _ ↦ untested_setWorker u k _)) (fun _ ↦
      .bind steadyUntested (.forEach steadyUntested _ (fun r _ ↦ untested_requeueTask r)) (fun _ ↦
        .modify _ (fun u _ ↦ untested_setWorker u k _)))
  refine Spec.run (worker_apply hw) (Spec.run (fun _ ↦ rfl) (hrest.conseq (fun _ _ ↦ trivial) ?_))
  rintro _ _ s' rfl h
  exact h

theorem prompt_ask : Prompt ask := .bind .get (fun _ ↦ .bind (.modify _) (fun _ ↦ .pure _))

theorem prompt_worker : Prompt (worker k) := .bind .get (fun _ ↦ .deref _)

theorem prompt_requeueTask (r : Ref) : Prompt (requeueTask k r) := by
  intro n s
  obtain ⟨e, s₁, -, -, hf⟩ := requeueTask_apply k r n s
  rw [hf]
  rintro ⟨⟩

theorem prompt_cleanupWorker : Prompt (cleanupWorker k) :=
  .bind prompt_worker (fun _ ↦ .bind .get (fun _ ↦ .bind (.modify _) (fun _ ↦
    .bind (.forEach _ prompt_requeueTask) (fun _ ↦ .modify _))))

/-- A worker that is connected is removed, whatever it holds, and the cursor of
the table is at the end. -/
theorem removeWorker_apply (hk : Connected s k) (n : ℕ) :
    ∃ s' ds, removeWorker k n s = .done () s' ∧ s'.trace = s.trace ++ ds ++ [.removed k] ∧
      (∀ j, .tested j ∉ ds) ∧ s'.workerTable.cursor = none ∧
      ∀ j, Connected s' j ↔ j ≠ k ∧ Connected s j := by
  obtain ⟨_, u, hu, hc, ds, hd, hm⟩ := untested_cleanupWorker.returns prompt_cleanupWorker hk n
  refine ⟨exhaust (disconnect k u), ds, ?_, congrArg (· ++ _) hd, hm, rfl, fun j ↦ ?_⟩
  · simp only [removeWorker, bind_apply, hu, modify_apply, logWorkerStats_apply]
  · rw [← hc j]
    simp only [Connected, exhaust, disconnect, Table.lookup_exhaust, Table.lookup_remove]
    by_cases hj : j = k
    · simp [hj]
    · simp [hj]

/-- One round of a traversal of the workers. -/
def visit (body : Key → M Unit) (_ : Unit) : M (Unit ⊕ Unit) := do
  let s ← get
  let next ← deref s.workerTable.nextKey
  modify (fun s ↦ { s with workerTable := next.2 })
  match next.1 with
  | none => pure (.inr ())
  | some e =>
    body e.1
    pure (.inl ())

theorem eachWorker_apply (body : Key → M Unit) (n : ℕ) (s : State) : eachWorker body n s =
    loopFor (visit body) n () n { s with workerTable := s.workerTable.firstKey } := rfl

theorem visit_nil {body : Key → M Unit} (h : s.workerTable.Traversal []) (n : ℕ) :
    visit body () n s = .done (.inr ()) s := by
  simp only [visit, bind_apply, get_apply, h.nextKey_nil, deref_some, pure_apply, modify_apply]

theorem traversal_of_cursor (h : s.workerTable.cursor = none) : s.workerTable.Traversal [] :=
  ⟨s.workerTable.keys, (List.append_nil _).symm, h⟩

/-- The state in which the body of a traversal gets its worker. -/
def advance (rest : List Key) (s : State) : State :=
  { s with workerTable := { s.workerTable with cursor := rest.head? } }

theorem visit_cons {body : Key → M Unit} {rest : List Key} (h : s.workerTable.Traversal (k :: rest))
    (hb : body k n (advance rest s) = .done () s') : visit body () n s = .done (.inl ()) s' := by
  obtain ⟨w, -, hn, -⟩ := h.nextKey_cons
  simp only [visit, bind_apply, get_apply, hn, deref_some, pure_apply, modify_apply]
  simp only [advance] at hb
  rw [hb]

def Released (s s' : State) (k : Key) : Prop :=
  ¬ Connected s' k ∧ ∃ es, s'.trace = s.trace ++ es ∧ .sent k .release ∈ es ∧ .removed k ∈ es

theorem releaseWorker_apply (hk : Connected s k) (n : ℕ) :
    ∃ s', releaseWorker k n s = .done () s' ∧ s'.workerTable.cursor = none ∧ Released s s' k ∧
      ∀ j, j ≠ k → Connected s j → Connected s' j := by
  obtain ⟨w, hw⟩ := hk
  have hsend := sendWorkerMsg_apply hw .release n
  let u : State := ({ s with calls := s.calls + 1 } : State).log (.sent k .release)
  obtain ⟨s', ds, hs', ht, -, hcur, hc⟩ := removeWorker_apply (s := u) (k := k) ⟨w, hw⟩ n
  refine ⟨s', ?_, hcur, ⟨fun h ↦ ((hc k).mp h).1 rfl, .sent k .release :: ds ++ [.removed k], ?_, ?_, ?_⟩,
    fun j hj h ↦ (hc j).mpr ⟨hj, h⟩⟩
  · simp only [releaseWorker, bind_apply, hsend]
    exact hs'
  · rw [ht]
    simp [u, State.log]
  · exact List.mem_cons_self ..
  · simp

/-- The removal of the first worker ends the traversal. -/
theorem freequeue_apply (n : ℕ) (s : State) :
    ∃ s', freequeue (n + 2) s = .done () s' ∧
      (s.workerTable.keys = [] ∨ ∃ k rest, s.workerTable.keys = k :: rest ∧ Released s s' k ∧
        ∀ j ∈ rest, Connected s' j) := by
  have ht := Table.traversal_firstKey s.workerTable
  rw [freequeue, workQueueDelete, eachWorker_apply]
  cases hk : s.workerTable.keys with
  | nil =>
    rw [hk] at ht
    exact ⟨_, loopFor_inr (visit_nil (s := { s with workerTable := s.workerTable.firstKey }) ht _),
      .inl rfl⟩
  | cons k rest =>
    rw [hk] at ht
    let u : State := { s with workerTable := s.workerTable.firstKey }
    obtain ⟨w, hw, -, -⟩ := ht.nextKey_cons
    obtain ⟨s', hs', hcur, hrel, hrest⟩ :=
      releaseWorker_apply (s := advance rest u) (k := k) ⟨w, hw⟩ (n + 2)
    refine ⟨s', ?_, .inr ⟨k, rest, rfl, hrel, fun j hj ↦ hrest j ?_ ?_⟩⟩
    · rw [loopFor_inl (visit_cons (s := u) ht hs')]
      exact loopFor_inr (visit_nil (traversal_of_cursor hcur) _)
    · rintro rfl
      have hnd := s.workerTable.nodup
      rw [← Table.keys, hk] at hnd
      exact (List.nodup_cons.mp hnd).1 hj
    · exact Table.exists_lookup_of_mem_keys (t := s.workerTable) (by rw [hk]; exact .tail _ hj)

theorem connected_iff (s : State) (k : Key) : Connected s k ↔ k ∈ s.workerTable.keys :=
  ⟨fun ⟨_, hw⟩ ↦ Table.lookup_eq_some_keys hw, Table.exists_lookup_of_mem_keys⟩

theorem freequeue_releases_iff (n : ℕ) (s : State) :
    ∃ s', freequeue (n + 2) s = .done () s' ∧
      ((∀ k, Connected s k → Released s s' k) ↔ s.workerTable.size ≤ 1) := by
  obtain ⟨s', hs', h⟩ := freequeue_apply n s
  have hsize : s.workerTable.size = s.workerTable.keys.length := (List.length_map _).symm
  refine ⟨s', hs', ?_⟩
  rw [hsize]
  rcases h with h | ⟨k, rest, h, hrel, hrest⟩
  · refine iff_of_true (fun k hk ↦ ?_) (by rw [h]; exact Nat.zero_le _)
    rw [connected_iff, h] at hk
    exact absurd hk List.not_mem_nil
  · cases rest with
    | nil =>
      refine iff_of_true (fun j hj ↦ ?_) (by rw [h]; exact le_rfl)
      rw [connected_iff, h, List.mem_singleton] at hj
      rwa [hj]
    | cons j rest =>
      refine iff_of_false (fun hall ↦ ?_) (by rw [h]; simp)
      have hj : Connected s j := (connected_iff s j).mpr (by rw [h]; simp)
      exact (hall j hj).1 (hrest j (List.mem_cons_self ..))

def asks (now : ℕ) (w : Worker) : Bool :=
  decide (w.keepaliveCheckSentTime ≤ w.lastMsgRecvTime ∧
    keepaliveInterval ≤ lastRecvElapsedTime now w)

/-- Whether the worker fails the test and is removed. The next call to the
operating system is the one with the number `c`. -/
def expires (now : ℕ) (s : State) (c : ℕ) (w : Worker) : Bool :=
  decide (asks now w ∧ (s.env.answers c).wrote < 0 ∨
    w.lastMsgRecvTime < w.keepaliveCheckSentTime ∧ w.keepaliveCheckSentTime < s.linkPollEnd ∧
      keepaliveTimeout ≤ wrap ((s.linkPollEnd - w.keepaliveCheckSentTime) / 1000000 : ℕ))

/-- No worker but the last one fails the test. -/
def OnlyLastExpires (now : ℕ) (s : State) : ℕ → List (Key × Worker) → Prop
  | _, [] => True
  | c, e :: es => (es = [] ∨ expires now s c e.2 = false) ∧
      OnlyLastExpires now s (if asks now e.2 then c + 1 else c) es

/-- What the test of a worker leaves behind where the worker passes. -/
structure Passes (now : ℕ) (k : Key) (w : Worker) (s s' : State) : Prop where
  env : s'.env = s.env
  poll : s'.linkPollEnd = s.linkPollEnd
  calls : s'.calls = if asks now w then s.calls + 1 else s.calls
  table : ∃ f, s'.workerTable = s.workerTable.alter k f
  trace : ∃ ds, s'.trace = s.trace ++ .tested k :: ds ∧ ∀ j, .tested j ∉ ds

theorem table_alter_id (t : Table Key Worker) (k : Key) : t = t.alter k id := by
  simp only [Table.alter, id, ite_self, Prod.mk.eta, List.map_id']

theorem checkKeepalive_passes {now : ℕ} {w : Worker} (hw : s.workerTable.lookup k = some w)
    (h : expires now s s.calls w = false) (n : ℕ) :
    ∃ s', checkKeepalive now k n s = .done () s' ∧ Passes now k w s s' := by
  let u : State := s.log (.tested k)
  have hu : u.workerTable.lookup k = some w := hw
  rw [expires, decide_eq_false_iff_not, not_or] at h
  simp only [checkKeepalive, bind_apply, worker_apply hw, log, modify_apply]
  by_cases hsent : w.keepaliveCheckSentTime ≤ w.lastMsgRecvTime
  · by_cases hint : keepaliveInterval ≤ lastRecvElapsedTime now w
    · have ha : asks now w = true := decide_eq_true ⟨hsent, hint⟩
      have hwrote : ¬ (u.env.answers u.calls).wrote < 0 := fun hlt ↦ h.1 ⟨ha, hlt⟩
      have hsend := sendWorkerMsg_apply hu .check n
      refine ⟨(({ u with calls := u.calls + 1 } : State).log (.sent k .check)).setWorker k
        (fun w ↦ { w with keepaliveCheckSentTime := now }), ?_, ?_⟩
      · simp only [if_pos hsent, when, if_pos hint, bind_apply]
        rw [show s.log (.tested k) = u from rfl, hsend]
        simp only [show fits .check = true from rfl, if_true, if_neg hwrote]
        rfl
      · refine ⟨rfl, rfl, ?_, ⟨fun w ↦ { w with keepaliveCheckSentTime := now }, rfl⟩, [.sent k .check],
          ?_, ?_⟩
        · simp [ha, u, State.log, State.setWorker]
        · simp [u, State.log, State.setWorker]
        · simp
    · have ha : asks now w = false := decide_eq_false (fun hc ↦ hint hc.2)
      refine ⟨u, ?_, rfl, rfl, ?_, ⟨id, table_alter_id _ _⟩, [], rfl, fun _ ↦ List.not_mem_nil⟩
      · simp only [if_pos hsent, when, if_neg hint, pure_apply]
        rfl
      · simp [ha, u, State.log]
  · have ha : asks now w = false := decide_eq_false (fun hc ↦ hsent hc.1)
    refine ⟨u, ?_, rfl, rfl, ?_, ⟨id, table_alter_id _ _⟩, [], rfl, fun _ ↦ List.not_mem_nil⟩
    · have hlate := fun hc ↦ h.2 ⟨not_le.mp hsent, hc⟩
      simp only [if_neg hsent, bind_apply, get_apply, when]
      rw [if_neg]
      · rfl
      · exact hlate
    · simp [ha, u, State.log]

theorem checkKeepalive_expires {now : ℕ} {w : Worker} (hw : s.workerTable.lookup k = some w)
    (h : expires now s s.calls w = true) (n : ℕ) :
    ∃ s', checkKeepalive now k n s = .done () s' ∧ s'.workerTable.cursor = none ∧
      ∃ ds, s'.trace = s.trace ++ .tested k :: ds ∧ ∀ j, .tested j ∉ ds := by
  let u : State := s.log (.tested k)
  have hu : u.workerTable.lookup k = some w := hw
  have hquiet : ∀ {ds : List Event} {k : Key}, (∀ j, .tested j ∉ ds) →
      ∀ j, .tested j ∉ ds ++ [.removed k] := by
    intro ds k hd j hm
    rcases List.mem_append.mp hm with hm | hm
    · exact hd j hm
    · cases List.mem_singleton.mp hm
  simp only [checkKeepalive, bind_apply, worker_apply hw, log, modify_apply]
  rcases of_decide_eq_true h with ⟨ha, hwrote⟩ | ⟨hsent, hlate⟩
  · obtain ⟨hsent, hint⟩ := of_decide_eq_true ha
    have hsend := sendWorkerMsg_apply hu .check n
    let v : State := ({ u with calls := u.calls + 1 } : State).log (.sent k .check)
    obtain ⟨s', ds, hs', ht, hd, hcur, -⟩ := removeWorker_apply (s := v) (k := k) ⟨w, hw⟩ n
    refine ⟨s', ?_, hcur, .sent k .check :: (ds ++ [.removed k]), ?_, fun j hm ↦ ?_⟩
    · simp only [if_pos hsent, when, if_pos hint, bind_apply]
      rw [show s.log (.tested k) = u from rfl, hsend]
      simp only [show fits .check = true from rfl, if_true]
      rw [if_pos (show (u.env.answers u.calls).wrote < 0 from hwrote)]
      exact hs'
    · rw [ht]
      simp [v, u, State.log]
    · rcases List.mem_cons.mp hm with hm | hm
      · cases hm
      · exact hquiet hd j hm
  · obtain ⟨s', ds, hs', ht, hd, hcur, -⟩ := removeWorker_apply (s := u) (k := k) ⟨w, hw⟩ n
    refine ⟨s', ?_, hcur, ds ++ [.removed k], ?_, hquiet hd⟩
    · simp only [if_neg (not_le.mpr hsent), bind_apply, get_apply, when]
      rw [if_pos]
      · exact hs'
      · exact hlate
    · rw [ht]
      simp [u, State.log]

/-- The workers of a traversal are tested up to the first that fails. -/
theorem survey (now : ℕ) (s₀ : State) (es : List (Key × Worker)) :
    ∀ (m : ℕ) (s : State), s.env = s₀.env → s.linkPollEnd = s₀.linkPollEnd →
      s.workerTable.Traversal (es.map Prod.fst) →
      (∀ e ∈ es, s.workerTable.lookup e.1 = some e.2) → (es.map Prod.fst).Nodup → es.length < m →
      ∃ s' ds, loopFor (visit (checkKeepalive now)) m () n s = .done () s' ∧
        s'.trace = s.trace ++ ds ∧
        ((∀ e ∈ es, .tested e.1 ∈ ds) ↔ OnlyLastExpires now s₀ s.calls es) := by
  induction es with
  | nil =>
    intro m s _ _ ht _ _ hm
    obtain ⟨m, rfl⟩ := Nat.exists_eq_succ_of_ne_zero hm.ne'
    refine ⟨s, [], loopFor_inr (visit_nil ht _), (List.append_nil _).symm, ?_⟩
    exact iff_of_true (fun e he ↦ absurd he List.not_mem_nil) trivial
  | cons e es ih =>
    intro m s henv hpoll ht hl hnd hm
    obtain ⟨m, rfl⟩ := Nat.exists_eq_succ_of_ne_zero (Nat.ne_of_gt (Nat.zero_lt_of_lt hm))
    obtain ⟨hne, hnd⟩ := List.nodup_cons.mp hnd
    let u := advance (es.map Prod.fst) s
    have hu : u.workerTable.lookup e.1 = some e.2 := hl e (List.mem_cons_self ..)
    have hexp : expires now u u.calls e.2 = expires now s₀ s.calls e.2 := by
      simp only [expires, u, advance, henv, hpoll]
    obtain ⟨-, -, -, ht'⟩ := ht.nextKey_cons
    rw [OnlyLastExpires]
    cases hx : expires now s₀ s.calls e.2 with
    | false =>
      obtain ⟨s₁, hs₁, hp⟩ := checkKeepalive_passes hu (hexp.trans hx) n
      obtain ⟨f, hf⟩ := hp.table
      obtain ⟨ds₁, hd₁, hn₁⟩ := hp.trace
      have hl' : ∀ e' ∈ es, s₁.workerTable.lookup e'.1 = some e'.2 := by
        intro e' he'
        rw [hf, Table.lookup_alter, if_neg]
        · exact hl e' (List.mem_cons_of_mem _ he')
        · intro he
          exact hne (he ▸ List.mem_map_of_mem he')
      obtain ⟨s', ds, hs', hd, hiff⟩ := ih m s₁ (hp.env.trans henv) (hp.poll.trans hpoll)
        (by rw [hf]; exact Table.Traversal.alter ht' _ _) hl' hnd (Nat.lt_of_succ_lt_succ hm)
      refine ⟨s', .tested e.1 :: ds₁ ++ ds, ?_, ?_, ?_⟩
      · rw [loopFor_inl (visit_cons ht hs₁), hs']
      · rw [hd, hd₁, List.append_assoc]
        rfl
      · rw [show (if asks now e.2 then s.calls + 1 else s.calls) = s₁.calls from hp.calls.symm, ← hiff]
        simp only [List.forall_mem_cons, or_true, true_and]
        constructor
        · rintro ⟨-, hall⟩ e' he'
          rcases List.mem_append.mp (hall e' he') with hm | hm
          · rcases List.mem_cons.mp hm with hm | hm
            · rw [← Event.tested.inj hm] at hne
              exact absurd (List.mem_map_of_mem he') hne
            · exact absurd hm (hn₁ _)
          · exact hm
        · intro hall
          exact ⟨by simp, fun e' he' ↦ List.mem_append_right _ (hall e' he')⟩
    | true =>
      obtain ⟨s₁, hs₁, hcur, ds, hd, hn⟩ := checkKeepalive_expires hu (hexp.trans hx) n
      obtain ⟨m, rfl⟩ := Nat.exists_eq_succ_of_ne_zero
        (Nat.ne_of_gt (Nat.zero_lt_of_lt (Nat.lt_of_succ_lt_succ hm)))
      refine ⟨s₁, .tested e.1 :: ds, ?_, hd, ?_⟩
      · rw [loopFor_inl (visit_cons ht hs₁)]
        exact loopFor_inr (visit_nil (traversal_of_cursor hcur) _)
      · cases es with
        | nil =>
          refine iff_of_true (fun e' he' ↦ ?_) ⟨.inl rfl, trivial⟩
          rw [List.mem_singleton.mp he']
          exact List.mem_cons_self ..
        | cons e' es =>
          refine iff_of_false (fun hall ↦ ?_) ?_
          · rcases List.mem_cons.mp (hall e' (by simp)) with hm | hm
            · rw [← Event.tested.inj hm] at hne
              exact hne (by simp)
            · exact hn _ hm
          · rintro ⟨h | h, -⟩
            · cases h
            · cases h

def Tested (s s' : State) (k : Key) : Prop := ∃ es, s'.trace = s.trace ++ es ∧ .tested k ∈ es

theorem tested_iff {ds : List Event} (h : s'.trace = s.trace ++ ds) : Tested s s' k ↔ .tested k ∈ ds := by
  constructor
  · rintro ⟨es, he, hm⟩
    rw [h] at he
    rwa [List.append_cancel_left he]
  · exact fun hm ↦ ⟨ds, h, hm⟩

theorem removeUnresponsiveWorkers_tests_iff (n : ℕ) (s : State) :
    ∃ s', removeUnresponsiveWorkers (s.workerTable.size + n + 1) s = .done () s' ∧
      ((∀ k, Connected s k → Tested s s' k) ↔
        OnlyLastExpires (s.env.answers s.calls).now s (s.calls + 1) s.workerTable.entries) := by
  let u : State := { s.tick with workerTable := s.workerTable.firstKey }
  obtain ⟨s', ds, hs', hd, hiff⟩ := survey (n := s.workerTable.size + n + 1)
    (s.env.answers s.calls).now s s.workerTable.entries (s.workerTable.size + n + 1) u rfl rfl (Table.traversal_firstKey _)
    (fun e he ↦ (s.workerTable.mem_entries_iff e.1 e.2).mp he) s.workerTable.nodup
    (Nat.lt_succ_of_le (Nat.le_add_right _ _))
  refine ⟨s', hs', ?_⟩
  have ht : s'.trace = s.trace ++ (.clock (s.env.answers s.calls).now :: ds) := by
    rw [hd]
    simp [u, State.tick, State.log]
  have htest : ∀ k, .tested k ∈ (.clock (s.env.answers s.calls).now :: ds) ↔ Event.tested k ∈ ds := by
    intro k
    simp
  rw [← show u.calls = s.calls + 1 from rfl, ← hiff]
  constructor
  · rintro hall ⟨k, w⟩ he
    have hk : Connected s k := ⟨w, (s.workerTable.mem_entries_iff k w).mp he⟩
    exact (htest k).mp ((tested_iff ht).mp (hall k hk))
  · rintro hall k ⟨w, hw⟩
    have he := hall (k, w) ((s.workerTable.mem_entries_iff k w).mpr hw)
    exact (tested_iff ht).mpr ((htest k).mpr he)

/-- The removal of a worker ends every traversal of the table. So all workers
are released exactly when there is one at most, and all are tested exactly when
none but the last fails the test. -/
theorem workers_visited_iff (n : ℕ) (s : State) :
    (∃ s', freequeue (n + 2) s = .done () s' ∧
      ((∀ k, Connected s k → Released s s' k) ↔ s.workerTable.size ≤ 1)) ∧
    ∃ s', removeUnresponsiveWorkers (s.workerTable.size + n + 1) s = .done () s' ∧
      ((∀ k, Connected s k → Tested s s' k) ↔
        OnlyLastExpires (s.env.answers s.calls).now s (s.calls + 1) s.workerTable.entries) :=
  ⟨freequeue_releases_iff n s, removeUnresponsiveWorkers_tests_iff n s⟩

/-- Every connection is a new worker, the first of which does the work. Then
all of them fall silent and their links break. -/
def crowd : Environment :=
  let env := alone (lines ["workqueue 3 host linux x86 4", "resource workers 0 0 1 0 0",
    "available_results", "result 0 0 0 1", "end"])
  { env with
    answers := fun c ↦
      { env.answers c with
        now := if c < 57 then 1 else 400000000
        wrote := if c < 57 then 1 else -1
        peer := (env.answers c).peer.map (fun p ↦ { p with link := c }) } }

theorem reachable_wait {env : Environment} {command : Text} {a : Option Ref}
    (h : wait n (oneTask env command) = .done a s) : Reachable (fun _ _ ↦ True) env s := by
  refine .call (c := .wait) (n := n) (reachable_oneTask env command) trivial trivial ?_
  rw [perform, bind_apply, h]
  rfl

theorem workers_passed_over :
    ∃ s, Reachable (fun _ _ ↦ True) crowd s ∧ Connected s 4 ∧
      (∃ s', freequeue 20 s = .done () s' ∧ ¬ Released s s' 4) ∧
      ∃ s', removeUnresponsiveWorkers 20 s = .done () s' ∧ ¬ Tested s s' 4 := by
  obtain ⟨a, s, hw, ht⟩ := exists_of_returns (f := wait) (n := 20) (s := oneTask crowd [])
    (t := fun _ s ↦ (s.workerTable.lookup 4).isSome &&
      returns freequeue (fun _ s' ↦ (s'.workerTable.lookup 4).isSome) 20 s &&
      returns removeUnresponsiveWorkers
        (fun _ s' ↦ decide (.tested 4 ∉ s'.trace.drop s.trace.length)) 20 s) (by decide +kernel)
  rw [Bool.and_eq_true, Bool.and_eq_true] at ht
  obtain ⟨⟨hk, hf⟩, hu⟩ := ht
  obtain ⟨_, s₁, hf, hk₁⟩ := exists_of_returns hf
  obtain ⟨_, s₂, hu, hn⟩ := exists_of_returns hu
  refine ⟨s, reachable_wait hw, Option.isSome_iff_exists.mp hk, ⟨s₁, hf, fun h ↦ ?_⟩, s₂, hu, ?_⟩
  · exact h.1 (Option.isSome_iff_exists.mp hk₁)
  · rintro ⟨es, he, hm⟩
    rw [he, List.drop_left] at hn
    exact of_decide_eq_true hn hm

/-- All idle workers are shut down, and nothing else happens. -/
structure ShutsDown (s : State) (removed : ℕ) (s' : State) : Prop where
  idle : ∀ k w, s.workerTable.lookup k = some w → w.currentTasks.size = 0 →
    s'.workerTable.lookup k = none ∧ ∃ es, s'.trace = s.trace ++ es ∧ .sent k .exit ∈ es
  busy : ∀ k w, s.workerTable.lookup k = some w → w.currentTasks.size ≠ 0 →
    ∃ w', s'.workerTable.lookup k = some w' ∧ duties w' = duties w
  containers : s'.readyList = s.readyList ∧ s'.runningTasks = s.runningTasks ∧
    s'.finishedTasks = s.finishedTasks ∧ s'.completeList = s.completeList
  tasks : s'.tasks = s.tasks
  count : removed + s'.workerTable.size = s.workerTable.size

/-- Zero stands for no worker in the loop, not for all of them as documented. -/
theorem killWorkers_shutsDown_iff (n : ℕ) (s : State) :
    ∃ removed s', killWorkers (n + 1) s = .done removed s' ∧ (ShutsDown s removed s' ↔
      ∀ k w, s.workerTable.lookup k = some w → w.currentTasks.size ≠ 0) := by
  refine ⟨0, { s with workerTable := s.workerTable.firstKey }, rfl, fun h k w hw hz ↦ ?_, fun h ↦ ?_⟩
  · have hn := (h.idle k w hw hz).1
    rw [Table.lookup_firstKey, hw] at hn
    cases hn
  · exact ⟨fun k w hw hz ↦ absurd hz (h k w hw), fun k w hw _ ↦ ⟨w, hw, rfl⟩, ⟨rfl, rfl, rfl, rfl⟩, rfl,
      Nat.zero_add _⟩

theorem killWorkers_spares_idle :
    ∃ s w s', Reachable (fun _ _ ↦ True) crowd s ∧ s.workerTable.lookup 4 = some w ∧
      w.currentTasks.size = 0 ∧ killWorkers 20 s = .done 0 s' ∧ Connected s' 4 ∧
      ¬ ShutsDown s 0 s' := by
  obtain ⟨a, s, hr, ht⟩ := exists_of_returns (f := wait) (n := 20) (s := oneTask crowd [])
    (t := fun _ s ↦ (s.workerTable.lookup 4).any (fun w ↦ w.currentTasks.size = 0)) (by decide +kernel)
  obtain ⟨w, hw, hz⟩ := (Option.any_eq_true _ _).mp ht
  have hz := of_decide_eq_true hz
  refine ⟨s, w, { s with workerTable := s.workerTable.firstKey }, reachable_wait hr, hw, hz, rfl, ⟨w, hw⟩,
    fun h ↦ ?_⟩
  have hn := (h.idle 4 w hw hz).1
  rw [Table.lookup_firstKey, hw] at hn
  cases hn

end Cyque.Removal
