import Cyque.Provenance
import Cyque.Agreement

namespace Cyque.Results

open Library.Execution Library.Lookup Library.Scanning Queue Link Files Workers Messages Transfer
open Dispatch Wait Api Run Footprint Placement History Steps Conduct Collect Polling Turns Calls
open Agreement Provenance Relation

variable {s s' : State} {p : Ref → Option Place} {k : Key} {r : Ref} {σ : Scope} {d : Prop}
variable {e : Event} {trace : List Event} {env : Environment} {ok : State → Call → Prop}

def Latest (r : Ref) (id : ℕ) (trace : List Event) : Prop :=
  ∃ before after, trace = before ++ .submitted r id :: after ∧ ∀ i, .submitted r i ∉ after

theorem Latest.append {id : ℕ} {es : List Event} (h : Latest r id trace)
    (he : ∀ i, .submitted r i ∉ es) : Latest r id (trace ++ es) := by
  obtain ⟨before, after, rfl, ha⟩ := h
  refine ⟨before, after ++ es, by simp, fun i hi ↦ ?_⟩
  rcases List.mem_append.mp hi with hi | hi
  · exact ha i hi
  · exact he i hi

/-- Every task that was ever submitted has the identifier of its last submission. -/
def Numbered (s : State) : Prop :=
  ∀ r i, .submitted r i ∈ s.trace → r < s.allocated ∧ Latest r (s.heap r).taskid s.trace

def Submits : Event → Prop
  | .submitted _ _ => True
  | _ => False

theorem numbered_same {es : List Event} (h : Numbered s) (hs : s'.trace = s.trace ++ es)
    (he : ∀ e ∈ es, ¬ Submits e) (ht : ∀ r < s.allocated, (s'.heap r).taskid = (s.heap r).taskid)
    (ha : s.allocated ≤ s'.allocated) : Numbered s' := by
  have hn : ∀ r i, .submitted r i ∉ es := fun r i hi ↦ he _ hi trivial
  intro r i hi
  rw [hs] at hi
  obtain ⟨hr, hl⟩ := h r i ((List.mem_append.mp hi).resolve_right (hn r i))
  refine ⟨hr.trans_le ha, ?_⟩
  rw [ht r hr, hs]
  exact hl.append (hn r)

theorem turn_numbered (h : Turn σ d s s') (hs : Numbered s) : Numbered s' := by
  have hnil : s.trace = s.trace ++ [] := (List.append_nil _).symm
  have hnone : ∀ e ∈ ([] : List Event), ¬ Submits e := fun _ h ↦ absurd h List.not_mem_nil
  have hone : ∀ {e : Event}, ¬ Submits e → ∀ e' ∈ [e], ¬ Submits e' := by
    rintro e he e' hm
    rwa [List.mem_singleton.mp hm]
  cases h with
  | step h =>
    have ht := fun r (_ : r < s.allocated) ↦ step_taskid h r
    have ha := (step_allocated h).ge
    rcases step_trace h with he | ⟨e, he, hi, -⟩
    · exact numbered_same hs (he.trans hnil) hnone ht ha
    · refine numbered_same hs he (hone ?_) ht ha
      cases e <;> first | exact id | exact hi.elim
  | create command =>
    refine numbered_same hs hnil hnone (fun r hr ↦ ?_) (Nat.le_succ _)
    simp only [create, Function.update_of_ne hr.ne]
  | submit now r hr =>
    intro r' i hi
    by_cases he : r' = r
    · subst he
      refine ⟨hr, s.trace, [], ?_, fun _ ↦ List.not_mem_nil⟩
      simp [submitTask, resetTask]
    · rcases List.mem_append.mp hi with hi | hi
      · obtain ⟨hr', hl⟩ := hs r' i hi
        refine ⟨hr', ?_⟩
        have hh : (submitTask now r s).heap r' = s.heap r' := Function.update_of_ne he _ _
        rw [hh]
        exact hl.append (fun i hi ↦ by cases List.mem_singleton.mp hi; exact he rfl)
      · cases List.mem_singleton.mp hi
        exact absurd rfl he
  | drop u k r hd hr hq =>
    obtain ⟨es, he, hm⟩ := hushed_trace hq
    have ha := hushed_alike hq
    refine numbered_same hs he (fun e he ↦ ?_) (fun r _ ↦ ha.taskid r) ha.made.ge
    have := hm e he
    cases e <;> first | exact id | exact this.elim
  | handOver | gaveUp | withdraw | kill | withdrawAll =>
    exact numbered_same hs rfl (hone id) (fun _ _ ↦ rfl) le_rfl
  | _ => exact numbered_same hs hnil hnone (fun _ _ ↦ rfl) le_rfl

theorem mem_of_outstanding {i : ℤ} (h : outstanding trace i = some r) :
    ∃ n : ℕ, .submitted r n ∈ trace := by
  induction trace using List.reverseRecOn with
  | nil => cases h
  | append_singleton es e ih =>
    by_cases hs : outstanding es i = some r
    · obtain ⟨n, hn⟩ := ih hs
      exact ⟨n, List.mem_append_left _ hn⟩
    · rw [outstanding, List.foldl_append, ← outstanding] at h
      cases e with
      | submitted r' n =>
        simp only [List.foldl_cons, List.foldl_nil, Function.update_apply] at h
        split at h
        · exact ⟨n, by simp [Option.some.inj h]⟩
        · exact absurd h hs
      | returned r' n =>
        simp only [List.foldl_cons, List.foldl_nil, Function.update_apply] at h
        split at h
        · cases h
        · exact absurd h hs
      | cancelled n =>
        simp only [List.foldl_cons, List.foldl_nil, Function.update_apply] at h
        split at h
        · cases h
        · exact absurd h hs
      | cancelledAll => cases h
      | _ => exact absurd h hs

theorem line_append (he : ∀ k line, e ≠ .result k r line) {a' : Attempt} {line : Text}
    (ha' : attempt r (trace ++ [e]) = some a') (hl : a'.line = some line) :
    ∃ a, attempt r trace = some a ∧ a.worker = a'.worker ∧ a.id = a'.id ∧ a.line = some line := by
  rw [attempt_append] at ha'
  have key : ∀ a : Attempt, (a.learn r e).worker = a.worker ∧ (a.learn r e).id = a.id ∧
      (a.learn r e).line = a.line := by
    intro a
    cases e with
    | result k r' line =>
      have hr : ¬ (r' = r ∧ k = a.worker) := by
        rintro ⟨rfl, -⟩
        exact he k line rfl
      simp only [Attempt.learn, if_neg hr, and_self]
    | _ =>
      simp only [Attempt.learn]
      first
      | exact ⟨trivial, trivial, trivial⟩
      | (split <;> exact ⟨rfl, rfl, rfl⟩)
  have hmap : record r (attempt r trace) e = (attempt r trace).map (·.learn r e) →
      ∃ a, attempt r trace = some a ∧ a.worker = a'.worker ∧ a.id = a'.id ∧ a.line = some line := by
    intro hm
    rw [hm] at ha'
    obtain ⟨a, ha, rfl⟩ := Option.map_eq_some_iff.mp ha'
    obtain ⟨h₁, h₂, h₃⟩ := key a
    exact ⟨a, ha, h₁.symm, h₂.symm, h₃ ▸ hl⟩
  cases e with
  | submitted r' i =>
    simp only [record] at ha'
    split at ha'
    · cases ha'
    · exact ⟨a', ha', rfl, rfl, hl⟩
  | committed k r' i =>
    simp only [record] at ha'
    split at ha'
    · cases ha'
      cases hl
    · exact ⟨a', ha', rfl, rfl, hl⟩
  | _ => exact hmap rfl

/-- The state in which the result that an attempt has was processed: the worker
held the task then. -/
def Processed (env : Environment) (s : State) (r : Ref) (a : Attempt) (line : Text) : Prop :=
  ∃ u now l, ReflTransGen (Turn .waiting True) (newQueue env) u ∧ Holds u a.worker r ∧
    (u.heap r).taskid = a.id ∧ parseResult line = some l ∧
    ReflTransGen (Turn .waiting True) (finish now a.worker line l r u) s

def IsResult : Event → Prop
  | .result _ _ _ => True
  | _ => False

theorem turn_results (h : Turn σ d s s') :
    (∃ now k line l r, parseResult line = some l ∧ Holds s k r ∧ s' = finish now k line l r s) ∨
      ∃ es, s'.trace = s.trace ++ es ∧ ∀ e ∈ es, ¬ IsResult e := by
  have hnil : ∃ es, s.trace = s.trace ++ es ∧ ∀ e ∈ es, ¬ IsResult e :=
    ⟨[], (List.append_nil _).symm, fun _ h ↦ absurd h List.not_mem_nil⟩
  have hmuted : ∀ {es : List Event}, (∀ e ∈ es, Muted e) → ∀ e ∈ es, ¬ IsResult e := by
    intro es h e he
    have := h e he
    cases e <;> first | exact id | exact this.elim
  cases h with
  | step h =>
    cases h with
    | quiet h =>
      obtain ⟨es, he, hm⟩ := hushed_trace (.single h)
      exact .inr ⟨es, he, hmuted hm⟩
    | finish now k line l r hrec hl hi hr => exact .inl ⟨now, k, line, l, r, hl, hr, rfl⟩
    | commit | supply | dispatch | charge | fetch | answer | fail | complete | requeue | disconnect | connect
    | collect | forget =>
      exact .inr ⟨[_], rfl, fun _ h ↦ by cases List.mem_singleton.mp h; exact id⟩
    | _ => exact .inr hnil
  | drop u k r hd hr hq =>
    obtain ⟨es, he, hm⟩ := hushed_trace hq
    exact .inr ⟨es, he, hmuted hm⟩
  | submit | handOver | gaveUp | withdraw | kill | withdrawAll =>
    exact .inr ⟨[_], rfl, fun _ h ↦ by cases List.mem_singleton.mp h; exact id⟩
  | _ => exact .inr hnil

theorem line_append_all {es : List Event} (he : ∀ e ∈ es, ¬ IsResult e) {a' : Attempt} {line : Text}
    (ha' : attempt r (trace ++ es) = some a') (hl : a'.line = some line) :
    ∃ a, attempt r trace = some a ∧ a.worker = a'.worker ∧ a.id = a'.id ∧ a.line = some line := by
  induction es using List.reverseRecOn generalizing a' with
  | nil => exact ⟨a', by rwa [List.append_nil] at ha', rfl, rfl, hl⟩
  | append_singleton es e ih =>
    rw [← List.append_assoc] at ha'
    have hn : ∀ k line, e ≠ .result k r line := by
      rintro k line rfl
      exact he (.result k r line) (by simp) trivial
    obtain ⟨b, hb, hw, hi, hlb⟩ := line_append hn ha' hl
    obtain ⟨a, ha, hw', hi', hla⟩ := ih (fun e hm ↦ he e (List.mem_append_left _ hm)) hb hlb
    exact ⟨a, ha, hw'.trans hw, hi'.trans hi, hla⟩

theorem turns_processed (h : ReflTransGen (Turn .waiting True) (newQueue env) s) {a : Attempt}
    {line : Text} (ha : attempt r s.trace = some a) (hl : a.line = some line) :
    Processed env s r a line := by
  induction h generalizing a with
  | refl => cases ha
  | @tail u u' hrun ht ih =>
    have hold : ∀ b, attempt r u.trace = some b → b.worker = a.worker → b.id = a.id →
        b.line = some line → Processed env u' r a line := by
      intro b hb hw hi hlb
      obtain ⟨v, now, l, hv, hr, hid, hp, hs⟩ := ih hb hlb
      rw [hw] at hr hs
      exact ⟨v, now, l, hv, hr, hid.trans hi, hp, hs.tail ht⟩
    rcases turn_results ht with ⟨now, k, line', l, r', hp, hr, rfl⟩ | ⟨es, he, hn⟩
    · by_cases hx : r' = r
      · subst hx
        obtain ⟨b, hb, hco, -⟩ := (turns_traced hrun r').held k hr
        have hb' : attempt r' (u.trace ++ [.result k r' line']) = some { b with line := some line' } := by
          rw [attempt_append_internal (e := .result k r' line') trivial id, hb]
          simp [Attempt.learn, hco.worker]
        rw [show (finish now k line' l r' u).trace = u.trace ++ [.result k r' line'] from rfl, hb'] at ha
        cases ha
        cases hl
        refine ⟨u, now, l, hrun, ?_, hco.id.symm, hp, ?_⟩ <;> rw [hco.worker]
        exact hr
      · obtain ⟨b, hb, hw, hi, hlb⟩ := line_append (e := .result k r' line')
          (by rintro _ _ ⟨⟩; exact hx rfl) ha hl
        exact hold b hb hw hi hlb
    · rw [he] at ha
      obtain ⟨b, hb, hw, hi, hlb⟩ := line_append_all hn ha hl
      exact hold b hb hw hi hlb

/-- How a task is returned: it waited for it, in a state that the queue went
through. -/
structure Handed (env : Environment) (s' : State) (r : Ref) (t : State) : Prop where
  turns : ReflTransGen (Turn .waiting True) (newQueue env) t
  sound : Sound t
  complete : r ∈ t.completeList
  trace : s'.trace = t.trace ++ [.returned r (t.heap r).taskid]
  go : s'.goHeap r = update (t.heap r) (t.goHeap r)
  heap : s'.heap = t.heap
  turns' : ReflTransGen (Turn .waiting True) t s'

theorem handed_of_wait (h : Reachable ok env s) {n : ℕ} (hw : wait n s = .done (some r) s') :
    ∃ t, Handed env s' r t := by
  obtain ⟨t, hrun, ht, -, hend⟩ := spec_wait.elim (reachable_sound h) hw
  have hturns : ReflTransGen (Turn .waiting True) (newQueue env) s :=
    reachable_turns h (fun _ _ _ _ _ ↦ trivial)
  cases hend with
  | task _ hr =>
    refine ⟨t, hturns.trans (turns_of_run hrun), ht, List.mem_of_mem_head? hr, rfl, ?_, rfl,
      .single (.handOver t r hr)⟩
    simp [handOver, popComplete]

theorem Handed.latest {t : State} (h : Handed env s' r t) :
    0 < (t.heap r).taskid ∧ Latest r (t.heap r).taskid s'.trace := by
  have hnum : Numbered t := (turns_keep (I := Numbered) (fun _ _ _ ht _ ↦ turn_numbered ht) h.turns
    (sound_newQueue env).steadfast.1 (by rintro _ _ ⟨⟩)).2
  obtain ⟨⟨p, hord⟩, -⟩ := h.sound
  have hpr : p r ≠ none := by
    rw [(hord.consistent.complete r).mp h.complete]
    exact Option.some_ne_none _
  have hlist := (hord.listed _ r).mpr ⟨hpr, rfl⟩
  rw [hord.recorded] at hlist
  obtain ⟨i, hi⟩ := mem_of_outstanding hlist
  refine ⟨(hord.consistent.named r hpr).1, ?_⟩
  rw [h.trace]
  exact (hnum r i hi).2.append (fun i hi ↦ by cases List.mem_singleton.mp hi)

theorem attempt_returned {a : Attempt} {i : ℕ} (ha : attempt r trace = some a) :
    attempt r (trace ++ [.returned r i]) = some a := by
  rw [attempt_append, ha]
  rfl

/-- A task that is returned without an error has the result of its last attempt,
as the code reads it. -/
theorem wait_returns_result (h : Reachable ok env s) {n : ℕ} (hw : wait n s = .done (some r) s')
    (hz : (s'.goHeap r).result = 0) :
    ∃ a host hostname line l, attempt r s'.trace = some a ∧ Latest r a.id s'.trace ∧
      a.supplied = some success ∧ a.place = some (host, hostname) ∧
      (s'.goHeap r).host = cString host ∧ (s'.goHeap r).hostname = cString hostname ∧
      a.line = some line ∧ line ∈ a.heard ∧ parseResult line = some l ∧ l.taskid = a.id ∧
      (s'.goHeap r).returnStatus = l.status ∧ Processed env s' r a line := by
  obtain ⟨t, ht⟩ := handed_of_wait h hw
  obtain ⟨a, ha, hcl⟩ := (turns_traced ht.turns r).complete ht.complete
  have hz' : (t.heap r).result = 0 := by
    rw [ht.go] at hz
    exact Int.natCast_eq_zero.mp hz
  obtain ⟨hp, line, l, hl, hm, hparse, hid, hstatus⟩ := hcl.delivered hz'
  obtain ⟨⟨host, hostname⟩, hx⟩ := Option.ne_none_iff_exists'.mp hp
  obtain ⟨hh, hn, hs⟩ := hcl.place _ hx
  have ha' : attempt r s'.trace = some a := by
    rw [ht.trace]
    exact attempt_returned ha
  have hlatest : Latest r a.id s'.trace := by
    rw [hcl.id]
    exact ht.latest.2
  obtain ⟨u, now, l', hu⟩ := turns_processed (ht.turns.trans ht.turns') ha' hl
  refine ⟨a, host, hostname, line, l, ha', hlatest, hs, hx, ?_, ?_, hl, hm, hparse, hid, ?_,
    u, now, l', hu⟩
  · rw [ht.go]
    simp only [update, goString, hh, Option.getD_some]
  · rw [ht.go]
    simp only [update, goString, hn, Option.getD_some]
  · rw [ht.go]
    exact hstatus

/-- The status ends in its row of the items, and no field goes past the last of
them. -/
def Fits (f : ResultFields) : Prop :=
  f.status.length < workQueueProtocolFieldMax ∧ f.outputLength.length < 2 * workQueueProtocolFieldMax ∧
    f.executionTime.length < workQueueProtocolFieldMax

instance : DecidablePred Fits := fun _ ↦ inferInstanceAs (Decidable (_ ∧ _ ∧ _))

theorem mem_learn_heard {a : Attempt} {line : Text} (h : line ∈ (a.learn r e).heard) :
    line ∈ a.heard ∨ e = .received a.worker line := by
  cases e with
  | received k l =>
    simp only [Attempt.learn] at h
    split at h
    · rename_i hk
      rcases List.mem_append.mp h with h | h
      · exact .inl h
      · rw [hk.1, List.mem_singleton.mp h]
        exact .inr rfl
    · exact .inl h
  | _ =>
    simp only [Attempt.learn] at h
    first
    | exact .inl h
    | (split at h <;> exact .inl h)

theorem mem_received {a : Attempt} {line : Text} (ha : attempt r trace = some a) (hm : line ∈ a.heard) :
    .received a.worker line ∈ trace := by
  induction trace using List.reverseRecOn generalizing a with
  | nil => cases ha
  | append_singleton es e ih =>
    have hmap : (attempt r es).map (·.learn r e) = some a → .received a.worker line ∈ es ++ [e] := by
      intro hmap
      obtain ⟨b, hb, rfl⟩ := Option.map_eq_some_iff.mp hmap
      rw [learn_worker]
      rcases mem_learn_heard hm with hm | rfl
      · exact List.mem_append_left _ (ih hb hm)
      · exact List.mem_append_right _ (List.mem_singleton_self _)
    rw [attempt_append] at ha
    cases e with
    | submitted r' i =>
      simp only [record] at ha
      split at ha
      · cases ha
      · exact List.mem_append_left _ (ih ha hm)
    | committed k r' i =>
      simp only [record] at ha
      split at ha
      · cases ha
        cases hm
      · exact List.mem_append_left _ (ih ha hm)
    | _ => exact hmap ha

/-- A task that is returned without an error was run by its worker, which sent
the status that it has, when the results that workers sent fit the items. -/
theorem wait_returns_executed (h : Reachable ok env s) {n : ℕ} (hw : wait n s = .done (some r) s')
    (hz : (s'.goHeap r).result = 0)
    (hf : ∀ k line f, .received k line ∈ s'.trace → scanResult line = some f → Fits f) :
    ∃ a host hostname line f, attempt r s'.trace = some a ∧ Latest r a.id s'.trace ∧
      a.supplied = some success ∧ a.place = some (host, hostname) ∧
      (s'.goHeap r).host = cString host ∧ (s'.goHeap r).hostname = cString hostname ∧
      a.line = some line ∧ line ∈ a.heard ∧ scanResult line = some f ∧ stamp f.taskid = a.id ∧
      (s'.goHeap r).returnStatus = atoi f.status ∧ Processed env s' r a line := by
  obtain ⟨a, host, hostname, line, l, ha, hlatest, hs, hp, hh, hn, hl, hm, hparse, hid, hstatus, hproc⟩ :=
    wait_returns_result h hw hz
  obtain ⟨f, hscan, rfl⟩ := Option.map_eq_some_iff.mp hparse
  have hfits := hf _ line f (mem_received ha hm) hscan
  refine ⟨a, host, hostname, line, f, ha, hlatest, hs, hp, hh, hn, hl, hm, hscan, hid, ?_, hproc⟩
  rw [hstatus, ResultFields.parse, spill, if_pos hfits.1]

def fitting : Event → Bool
  | .received _ line => (scanResult line).all (fun f ↦ Fits f)
  | _ => true

theorem fits_of_fitting (h : trace.all fitting = true) {line : Text} {f : ResultFields}
    (hm : .received k line ∈ trace) (hl : scanResult line = some f) : Fits f := by
  have hf := List.all_eq_true.mp h _ hm
  rw [fitting, hl] at hf
  exact of_decide_eq_true hf

theorem wait_returns_executed_finishing :
    ∃ s' a, wait 20 (oneTask finishing "true".toList) = .done (some 0) s' ∧
      (s'.goHeap 0).result = 0 ∧ (s'.goHeap 0).returnStatus = 7 ∧ attempt 0 s'.trace = some a ∧
      a.supplied = some success := by
  obtain ⟨x, s', hw, ht⟩ := exists_of_returns (f := wait) (n := 20)
    (s := oneTask finishing "true".toList) (t := fun x s' ↦ decide (x = some 0 ∧
      (s'.goHeap 0).result = 0 ∧ (s'.goHeap 0).returnStatus = 7) && s'.trace.all fitting) (by decide +kernel)
  obtain ⟨hx, hf⟩ := Bool.and_eq_true_iff.mp ht
  obtain ⟨rfl, hz, h₇⟩ := of_decide_eq_true hx
  obtain ⟨a, -, -, -, -, ha, -, hs, -⟩ := wait_returns_executed (reachable_oneTask finishing "true".toList) hw hz
    (fun _ _ _ hm hl ↦ fits_of_fitting hf hm hl)
  exact ⟨s', a, hw, hz, h₇, ha, hs⟩

/-- The status fills its row of the items, and the length behind it is read as a
part of it. -/
def widened : Environment := alone (lines ["workqueue 3 host linux x86 4",
  "resource workers 0 0 1 0 0", "available_results"] ++ "result ".toList ++ List.replicate 256 '0' ++
    " 5 0 1\nabcdeend\n".toList)

theorem wait_misreads_status :
    Reachable (fun _ _ ↦ True) widened (oneTask widened "true".toList) ∧
      ∃ s' a line f, wait 20 (oneTask widened "true".toList) = .done (some 0) s' ∧
        (s'.goHeap 0).result = 0 ∧ attempt 0 s'.trace = some a ∧ a.line = some line ∧
        scanResult line = some f ∧ stamp f.taskid = a.id ∧ atoi f.status = 0 ∧
        (s'.goHeap 0).returnStatus = 5 := by
  refine ⟨reachable_oneTask _ _, ?_⟩
  obtain ⟨x, s', hw, ht⟩ := exists_of_returns (f := wait) (n := 20)
    (s := oneTask widened "true".toList) (t := fun x s' ↦ decide (x = some 0 ∧
      (s'.goHeap 0).result = 0 ∧ (s'.goHeap 0).returnStatus = 5) && (attempt 0 s'.trace).any (fun a ↦
        a.line.any (fun line ↦ (scanResult line).any (fun f ↦ stamp f.taskid = a.id ∧ atoi f.status = 0))))
    (by decide +kernel)
  obtain ⟨hx, ha⟩ := Bool.and_eq_true_iff.mp ht
  obtain ⟨rfl, hz, h₅⟩ := of_decide_eq_true hx
  obtain ⟨a, ha, hl⟩ := (Option.any_eq_true _ _).mp ha
  obtain ⟨line, hl, hf⟩ := (Option.any_eq_true _ _).mp hl
  obtain ⟨f, hf, hs⟩ := (Option.any_eq_true _ _).mp hf
  obtain ⟨hid, h₀⟩ := of_decide_eq_true hs
  exact ⟨s', a, line, f, hw, hz, ha, hl, hf, hid, h₀, h₅⟩

/-- Whether the answers about the output of a task are stored where they
belong, all of them. -/
def AllStored (a : Attempt) : Prop := ∀ x ∈ a.answers, ∀ e ∈ x.2.1, Stored e

/-- Without the mark on the task its output is stored, unless the result of an
entry took the place of a failure before it. -/
theorem wait_returns_stored_iff (h : Reachable ok env s) {n : ℕ} (hw : wait n s = .done (some r) s')
    (hb : (s'.goHeap r).result.toNat.testBit 1 = false) :
    ∃ a, attempt r s'.trace = some a ∧ a.answers.map Prod.fst = a.asked ∧
      (AllStored a ↔ ∀ x ∈ a.answers, ¬ Overtaken x.2.1) := by
  obtain ⟨t, ht⟩ := handed_of_wait h hw
  obtain ⟨a, ha, hcl⟩ := (turns_traced ht.turns r).complete ht.complete
  have hm : ¬ OutputMissing (t.heap r) := by
    rw [ht.go] at hb
    rw [OutputMissing]
    exact ne_true_of_eq_false hb
  refine ⟨a, by rw [ht.trace]; exact attempt_returned ha, hcl.asked, fun hs x hx ho ↦ ?_,
    fun hn x hx ↦ (hcl.answers hm x hx).resolve_right (hn x hx)⟩
  obtain ⟨xs, e, ys, he, hne, -⟩ := ho
  exact hne (hs x hx e (by simp [he]))

/-- The queue after a task was made, given a file and submitted. -/
def oneFile (env : Environment) (t : Task) : State :=
  submitTask (env.answers 0).now 0 ((create [] (newQueue env)).setTask 0 (fun _ ↦ t)).tick

theorem reachable_oneFile {t : Task} (name : Text) (cached : Bool) (type : Direction)
    (h : workQueueTaskSpecifyFile (workQueueTaskCreate []) (cString name) (cString name) type
      (if cached then 1 else 0) = some t) : Reachable (fun _ _ ↦ True) env (oneFile env t) := by
  have h₁ : Reachable (fun _ _ ↦ True) env (create [] (newQueue env)) :=
    .call (n := 0) (c := .newTask []) .start trivial trivial rfl
  have hadd : perform (.addfile 0 name name cached type) 0 (create [] (newQueue env)) =
      .done () ((create [] (newQueue env)).setTask 0 (fun _ ↦ t)) := by
    have hheap : (create [] (newQueue env)).heap 0 = workQueueTaskCreate [] := rfl
    simp only [perform, addfile, bind_apply, get_apply, hheap, h]
    rfl
  have h₂ := Reachable.call (c := .addfile 0 name name cached type) h₁ Nat.one_pos trivial hadd
  exact .call (n := 0) (c := .submit 0) h₂ ⟨Nat.one_pos, by rintro i ⟨⟩,
    (by decide : 1 < 2 ^ 31 - 1)⟩ trivial rfl

def withOutput : Task :=
  { workQueueTaskCreate [] with outputFiles := [⟨.file, 0, 0, 0, "o".toList, "o".toList⟩] }

/-- A worker whose output is a directory with two files. The call with the given
number does not succeed to open anything. -/
def unpacking (failing : ℕ) : Environment :=
  let name := "file-d95679752134a2d9eb61dbd7b91c4bcc-o".toList
  let incoming := lines ["workqueue 3 host linux x86 4", "resource workers 0 0 1 0 0",
      "available_results", "result 0 0 0 1", "end"] ++ "dir ".toList ++ name ++ " 0\n".toList ++
    "file ".toList ++ name ++ "/a 1\nA".toList ++ "file ".toList ++ name ++ "/b 1\nBend\n".toList
  { alone incoming with
    md5String := fun _ ↦ "d95679752134a2d9eb61dbd7b91c4bcc".toList
    answers := fun i ↦ { (alone incoming).answers i with opened := i ≠ failing } }

theorem wait_returns_stored_iff_unpacking :
    ∃ s' a, wait 20 (oneFile (unpacking 0) withOutput) = .done (some 0) s' ∧
      (s'.goHeap 0).result.toNat.testBit 1 = false ∧ attempt 0 s'.trace = some a ∧
      (AllStored a ↔ ∀ x ∈ a.answers, ¬ Overtaken x.2.1) := by
  obtain ⟨x, s', hw, ht⟩ := exists_of_returns (f := wait) (n := 20)
    (s := oneFile (unpacking 0) withOutput) (t := fun x s' ↦ decide (x = some 0 ∧
      (s'.goHeap 0).result.toNat.testBit 1 = false)) (by decide +kernel)
  obtain ⟨rfl, hb⟩ := of_decide_eq_true ht
  obtain ⟨a, ha, -, hi⟩ := wait_returns_stored_iff (reachable_oneFile "o".toList false .output rfl) hw hb
  exact ⟨s', a, hw, hb, ha, hi⟩

/-- The first file of the directory cannot be opened, and the second one can. -/
theorem wait_loses_output :
    Reachable (fun _ _ ↦ True) (unpacking 54) (oneFile (unpacking 54) withOutput) ∧
      ∃ s' a, wait 20 (oneFile (unpacking 54) withOutput) = .done (some 0) s' ∧
        (s'.goHeap 0).result = 0 ∧ attempt 0 s'.trace = some a ∧ ¬ AllStored a := by
  refine ⟨reachable_oneFile "o".toList false .output rfl, ?_⟩
  obtain ⟨x, s', hw, ht⟩ := exists_of_returns (f := wait) (n := 20)
    (s := oneFile (unpacking 54) withOutput) (t := fun x s' ↦ decide (x = some 0 ∧
      (s'.goHeap 0).result = 0) && (attempt 0 s'.trace).any (fun a ↦ a.answers.any (fun x ↦
        x.2.1.any (fun e ↦ match e with | .file _ _ _ opened _ => !opened | _ => false))))
    (by decide +kernel)
  obtain ⟨hx, ha⟩ := Bool.and_eq_true_iff.mp ht
  obtain ⟨rfl, hz⟩ := of_decide_eq_true hx
  obtain ⟨a, ha, hn⟩ := (Option.any_eq_true _ _).mp ha
  refine ⟨s', a, hw, hz, ha, fun hs ↦ ?_⟩
  obtain ⟨y, hy, he⟩ := List.any_eq_true.mp hn
  obtain ⟨e, hm, he⟩ := List.any_eq_true.mp he
  have hst := hs y hy e hm
  cases e with
  | file path l length opened stored =>
    rw [hst.1] at he
    cases he
  | dir | missing => cases he

theorem quiet_goHeap {c : Key} (h : Quiet c s s') : s'.goHeap = s.goHeap := by cases h <;> rfl

theorem hushed_goHeap {c : Key} (h : ReflTransGen (Quiet c) s s') : s'.goHeap = s.goHeap := by
  induction h with
  | refl => rfl
  | tail _ hq ih => exact (quiet_goHeap hq).trans ih

theorem step_goHeap (h : Step σ s s') : s'.goHeap = s.goHeap := by
  cases h with
  | quiet h => exact quiet_goHeap h
  | _ => rfl

def Unassigned (s : State) : Prop := ∀ r, (s.goHeap r).id = 0

theorem turn_unassigned (h : Turn σ d s s') (hs : Unassigned s) : Unassigned s' := by
  have hupdate : ∀ r (g : GoTask), g.id = 0 → ∀ r', (Function.update s.goHeap r g r').id = 0 := by
    intro r g hg r'
    rw [Function.update_apply]
    split
    · exact hg
    · exact hs r'
  cases h with
  | step h =>
    intro r
    rw [step_goHeap h]
    exact hs r
  | create command => exact hupdate s.allocated newGoTask rfl
  | handOver r hr => exact hupdate r (update (s.heap r) (s.goHeap r)) (hs r)
  | drop u k r hd hr hq =>
    intro r'
    show (u.goHeap r').id = 0
    rw [hushed_goHeap hq]
    exact hs r'
  | _ => exact hs

theorem zero_not_mem_goString (o : Option Text) : '\x00' ∉ goString o := by
  intro hm
  simpa using List.all_eq_true.mp List.all_takeWhile _ hm

/-- A returned task never has the identifier of its submission, and its standard
output ends before the first zero byte. -/
theorem wait_returns_unidentified (h : Reachable ok env s) {n : ℕ}
    (hw : wait n s = .done (some r) s') :
    ∃ id, Latest r id s'.trace ∧ (s'.goHeap r).id ≠ id ∧ '\x00' ∉ (s'.goHeap r).stdout := by
  obtain ⟨t, ht⟩ := handed_of_wait h hw
  have hun : Unassigned s' := (turns_keep (I := Unassigned) (fun _ _ _ ht _ ↦ turn_unassigned ht)
    (ht.turns.trans ht.turns') (sound_newQueue env).steadfast.1 (fun _ ↦ rfl)).2
  refine ⟨(t.heap r).taskid, ht.latest.2, ?_, ?_⟩
  · rw [hun r]
    exact_mod_cast ht.latest.1.ne
  · rw [ht.go]
    exact zero_not_mem_goString _

def zeroByte : Environment := alone (lines ["workqueue 3 host linux x86 4",
  "resource workers 0 0 1 0 0", "available_results", "result 0 3 0 1"] ++
    ['a', '\x00', 'b'] ++ lines ["end"])

theorem wait_returns_unidentified_zeroByte :
    ∃ s' id, wait 20 (oneTask zeroByte []) = .done (some 0) s' ∧ Latest 0 id s'.trace ∧
      (s'.goHeap 0).id ≠ id := by
  obtain ⟨x, s', hw, ht⟩ := exists_of_returns (f := wait) (n := 20) (s := oneTask zeroByte [])
    (t := fun x _ ↦ decide (x = some 0)) (by decide +kernel)
  cases of_decide_eq_true ht
  obtain ⟨id, hl, hn, -⟩ := wait_returns_unidentified (reachable_oneTask zeroByte []) hw
  exact ⟨s', id, hw, hl, hn⟩

/-- Neither the identifier nor the whole output of the task is returned. -/
theorem wait_drops_identity :
    Reachable (fun _ _ ↦ True) zeroByte (oneTask zeroByte []) ∧
      ∃ s', wait 20 (oneTask zeroByte []) = .done (some 0) s' ∧ Latest 0 1 s'.trace ∧
        (s'.goHeap 0).id = 0 ∧ (s'.goHeap 0).result = 0 ∧
        (s'.heap 0).output = some ['a', '\x00', 'b'] ∧ (s'.goHeap 0).stdout = ['a'] := by
  refine ⟨reachable_oneTask _ _, ?_⟩
  obtain ⟨x, s', hw, ht⟩ := exists_of_returns (f := wait) (n := 20) (s := oneTask zeroByte [])
    (t := fun x s' ↦ decide (x = some 0 ∧ (s'.goHeap 0).id = 0 ∧ (s'.goHeap 0).result = 0 ∧
      (s'.heap 0).output = some ['a', '\x00', 'b'] ∧ (s'.goHeap 0).stdout = ['a'] ∧
      s'.trace = s'.trace.take 1 ++ .submitted 0 1 :: s'.trace.drop 2) &&
      (s'.trace.drop 2).all (fun e ↦ match e with | .submitted _ _ => false | _ => true))
    (by decide +kernel)
  obtain ⟨hx, hn⟩ := Bool.and_eq_true_iff.mp ht
  obtain ⟨rfl, hid, hz, ho, hs, htrace⟩ := of_decide_eq_true hx
  refine ⟨s', hw, ⟨_, _, htrace, fun i hi ↦ ?_⟩, hid, hz, ho, hs⟩
  cases List.all_eq_true.mp hn _ hi

end Cyque.Results
