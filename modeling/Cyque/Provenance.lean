import Cyque.Calls

namespace Cyque.Provenance

open Library.Execution Library.Lookup Library.Scanning Queue Link Files Workers Messages Transfer
open Dispatch Wait Api Run Footprint Placement History Steps Conduct Collect Polling Turns Calls
open Relation

variable {s s' : State} {p : Ref → Option Place} {k : Key} {r : Ref} {σ : Scope} {d : Prop}
variable {e : Event} {trace : List Event}

/-- Events that are about the task `r`. -/
def Concerns (r : Ref) : Event → Prop
  | .submitted r' _ => r' = r
  | .committed _ r' _ => r' = r
  | .supplied _ r' _ => r' = r
  | .dispatched _ r' _ _ => r' = r
  | .result _ r' _ => r' = r
  | .fetching _ r' _ => r' = r
  | .replied _ r' _ _ _ _ => r' = r
  | _ => False

/-- More was heard since, and the connection may be gone. -/
def Extends (a a' : Attempt) : Prop :=
  ∃ lost more, a' = { a with lost := lost, heard := a.heard ++ more }

theorem Extends.refl (a : Attempt) : Extends a a := ⟨a.lost, [], by rw [List.append_nil]⟩

theorem learn_lost {a : Attempt} (h : e ≠ .removed a.worker) : (a.learn r e).lost = a.lost := by
  cases e with
  | removed k => simp only [Attempt.learn, if_neg (fun hk : k = a.worker ↦ h (by rw [hk]))]
  | _ => simp only [Attempt.learn] <;> first | rfl | (split <;> rfl)

theorem learn_heard {a : Attempt} {line : Text} (h : line ∈ a.heard) : line ∈ (a.learn r e).heard := by
  cases e <;> simp only [Attempt.learn] <;> first | exact h | (split <;> simp [h])

theorem learn_other (h : ¬ Concerns r e) (a : Attempt) : Extends a (a.learn r e) := by
  cases e with
  | received k line =>
    simp only [Attempt.learn]
    split
    · exact ⟨a.lost, [line], rfl⟩
    · exact .refl a
  | removed k =>
    simp only [Attempt.learn]
    split
    · exact ⟨true, [], by rw [List.append_nil]⟩
    · exact .refl a
  | _ =>
    simp only [Attempt.learn]
    first
    | exact .refl a
    | (rw [if_neg (fun hk ↦ h hk.1)]; exact .refl a)

theorem attempt_other (h : ¬ Concerns r e) {a : Attempt} (ha : attempt r trace = some a) :
    ∃ a', attempt r (trace ++ [e]) = some a' ∧ Extends a a' ∧
      (e ≠ .removed a.worker → a'.lost = a.lost) := by
  have key : attempt r (trace ++ [e]) = some (a.learn r e) := by
    rw [attempt_append, ha]
    cases e with
    | submitted r' i => simp only [record, if_neg (show r' ≠ r from h), Attempt.learn]
    | committed k r' i => simp only [record, if_neg (show r' ≠ r from h), Attempt.learn]
    | _ => rfl
  exact ⟨_, key, learn_other h a, learn_lost⟩

/-- The attempt that a worker is at. -/
structure Course (k : Key) (t : Task) (a : Attempt) : Prop where
  worker : a.worker = k
  id : a.id = t.taskid
  kept : a.lost = false
  place : ∀ x, a.place = some x →
    t.host = some x.1 ∧ t.hostname = some x.2 ∧ a.supplied = some success
  answers : ∀ x ∈ a.answers, x.2.2 = workerFailure ∨ OutputMissing t ∨
    (∀ e ∈ x.2.1, Stored e) ∨ Overtaken x.2.1

/-- The worker gave the result that the task has. -/
structure Delivered (t : Task) (a : Attempt) : Prop where
  placed : a.place ≠ none
  line : ∃ line l, a.line = some line ∧ line ∈ a.heard ∧ parseResult line = some l ∧
    l.taskid = a.id ∧ t.returnStatus = l.status

/-- The attempt after which a task is returned. -/
structure Closing (t : Task) (a : Attempt) : Prop where
  id : a.id = t.taskid
  delivered : t.result = 0 → Delivered t a
  place : ∀ x, a.place = some x →
    t.host = some x.1 ∧ t.hostname = some x.2 ∧ a.supplied = some success
  asked : a.answers.map Prod.fst = a.asked
  answers : ¬ OutputMissing t → ∀ x ∈ a.answers, (∀ e ∈ x.2.1, Stored e) ∨ Overtaken x.2.1

structure Traced (s : State) (r : Ref) : Prop where
  held : ∀ k, Holds s k r → ∃ a, attempt r s.trace = some a ∧ Course k (s.heap r) a ∧
    (s.finishedTasks.lookup (s.heap r).taskid = some r → Delivered (s.heap r) a)
  complete : r ∈ s.completeList → ∃ a, attempt r s.trace = some a ∧ Closing (s.heap r) a

/-- What is known of a task carries over to a later state of it. -/
structure Later (t t' : Task) : Prop where
  fields : t'.taskid = t.taskid ∧ t'.returnStatus = t.returnStatus ∧ t'.host = t.host ∧
    t'.hostname = t.hostname
  result : t'.result = 0 → t.result = 0
  missing : OutputMissing t → OutputMissing t'

theorem Later.refl (t : Task) : Later t t := ⟨⟨rfl, rfl, rfl, rfl⟩, id, id⟩

section Later

variable {t t' : Task} {a a' : Attempt} (h : Later t t') (he : Extends a a')

include h he

theorem Later.course (hl : a'.lost = a.lost) (hc : Course k t a) : Course k t' a' := by
  obtain ⟨lost, more, rfl⟩ := he
  obtain ⟨hi, -, hh, hn⟩ := h.fields
  refine ⟨hc.worker, by rw [hi]; exact hc.id, hl.trans hc.kept, fun x hx ↦ ?_, fun x hx ↦ ?_⟩
  · rw [hh, hn]
    exact hc.place x hx
  · exact (hc.answers x hx).imp_right (Or.imp_left h.missing)

theorem Later.delivered (hd : Delivered t a) : Delivered t' a' := by
  obtain ⟨lost, more, rfl⟩ := he
  obtain ⟨hp, line, l, hl, hm, hr⟩ := hd
  refine ⟨hp, line, l, hl, List.mem_append_left _ hm, ?_⟩
  rw [h.fields.2.1]
  exact hr

theorem Later.closing (hc : Closing t a) : Closing t' a' := by
  have hd := fun hz ↦ h.delivered he (hc.delivered (h.result hz))
  obtain ⟨lost, more, rfl⟩ := he
  obtain ⟨hi, -, hh, hn⟩ := h.fields
  refine ⟨by rw [hi]; exact hc.id, hd, fun x hx ↦ ?_, hc.asked, fun hm ↦ ?_⟩
  · rw [hh, hn]
    exact hc.place x hx
  · exact hc.answers (fun h' ↦ hm (h.missing h'))

end Later

theorem traced_elsewhere (h : Consistent s p) (hw : workerOf (p r) = none)
    (hc : p r ≠ some .complete) : Traced s r := by
  refine ⟨fun k hk ↦ ?_, fun hr ↦ absurd ((h.complete r).mp hr) hc⟩
  rw [hk.workerOf h] at hw
  cases hw

theorem traced_other (hT : Traced s r) (hh : ∀ k, Holds s' k r → Holds s k r)
    (hf : ∀ i, s'.finishedTasks.lookup i = some r → s.finishedTasks.lookup i = some r)
    (hc : r ∈ s'.completeList → r ∈ s.completeList) (ht : Later (s.heap r) (s'.heap r))
    (he : s'.trace = s.trace ∨ ∃ e, s'.trace = s.trace ++ [e] ∧ ¬ Concerns r e ∧
      ∀ k, Holds s' k r → e ≠ .removed k) : Traced s' r := by
  have key : ∀ a, attempt r s.trace = some a → ∃ a', attempt r s'.trace = some a' ∧ Extends a a' ∧
      ∀ k, Holds s' k r → a.worker = k → a'.lost = a.lost := by
    intro a ha
    rcases he with he | ⟨e, he, hn, hl⟩
    · exact ⟨a, by rw [he, ha], .refl a, fun _ _ _ ↦ rfl⟩
    · obtain ⟨a', ha', hx, hk⟩ := attempt_other hn ha
      exact ⟨a', by rw [he, ha'], hx, fun k hk' hw ↦ hk (hw ▸ hl k hk')⟩
  refine ⟨fun k hk ↦ ?_, fun hr ↦ ?_⟩
  · obtain ⟨a, ha, hco, hd⟩ := hT.held k (hh k hk)
    obtain ⟨a', ha', hx, hl⟩ := key a ha
    refine ⟨a', ha', ht.course hx (hl k hk hco.worker) hco, fun hf' ↦ ht.delivered hx (hd ?_)⟩
    rw [← ht.fields.1]
    exact hf _ hf'
  · obtain ⟨a, ha, hcl⟩ := hT.complete (hc hr)
    obtain ⟨a', ha', hx, -⟩ := key a ha
    exact ⟨a', ha', ht.closing hx hcl⟩

/-- A line that was heard since the worker got its last task belongs to each of
its attempts. -/
theorem mem_heard {line : Text} (h : Heard k line trace) {a : Attempt}
    (ha : attempt r trace = some a) (hk : a.worker = k) (hl : a.lost = false) : line ∈ a.heard := by
  obtain ⟨before, after, rfl, hafter⟩ := h
  induction after using List.reverseRecOn generalizing a with
  | nil =>
    rw [attempt_append_internal (e := .received k line) trivial id] at ha
    obtain ⟨b, -, rfl⟩ := Option.map_eq_some_iff.mp ha
    rw [learn_worker] at hk
    have hb : b.lost = false := by
      rw [← hl]
      simp only [Attempt.learn]
      split <;> rfl
    simp [Attempt.learn, hk, hb]
  | append_singleton es e ih =>
    obtain ⟨hi, hc, hn⟩ := hafter e (by simp)
    rw [← List.cons_append, ← List.append_assoc, attempt_append_internal hi hc] at ha
    obtain ⟨b, hb, rfl⟩ := Option.map_eq_some_iff.mp ha
    rw [learn_worker] at hk
    have hlost : b.lost = false := by rw [← hl, learn_lost (by rw [hk]; exact hn)]
    exact learn_heard (ih hk hlost (fun e he ↦ hafter e (List.mem_append_left _ he)) hb)

theorem quiet_result {c : Key} (h : Quiet c s s') (hz : (s'.heap r).result = 0) :
    (s.heap r).result = 0 := by
  cases h with
  | task r' f hf hf' =>
    by_cases he : r = r'
    · subst he
      simpa [State.setTask, hf'] using hz
    · simpa [State.setTask, he] using hz
  | mark r' bit =>
    by_cases he : r = r'
    · subst he
      simp only [State.setTask, Function.update_self, mark] at hz
      exact (Nat.or_eq_zero_iff.mp hz).1
    · simpa [State.setTask, he] using hz
  | _ => exact hz

theorem quiet_later {c : Key} (h : Quiet c s s') (r : Ref) :
    Later (s.heap r) (s'.heap r) := by
  have hr := quiet_report h r
  simp only [report, Prod.mk.injEq] at hr
  exact ⟨⟨hr.1, hr.2.2.1, hr.2.2.2.1, hr.2.2.2.2.1⟩, quiet_result h, Exchange.quiet_outputMissing h⟩

theorem traced_quiet {c : Key} (h : Quiet c s s') (hT : Traced s r) : Traced s' r := by
  refine traced_other hT (fun k ↦ step_holds (σ := .still) (.quiet h) id)
    (by rw [quiet_finishedTasks h]; exact fun _ ↦ id) (by rw [quiet_completeList h]; exact id)
    (quiet_later h r) ?_
  rcases quiet_trace h with he | ⟨e, he, hm⟩
  · exact .inl he
  · refine .inr ⟨e, he, ?_, fun k _ ↦ (muted_event hm).2.2 k⟩
    cases e <;> first | exact id | exact hm.elim

theorem not_complete (hc : Consistent s p) (hr : Holds s k r) : r ∉ s.completeList := by
  intro hm
  have hk := hr.workerOf hc
  rw [(hc.complete r).mp hm] at hk
  cases hk

theorem holds_unique {j : Key} (hc : Consistent s p) (hr : Holds s k r) (hj : Holds s j r) : j = k := by
  have hk := hr.workerOf hc
  rw [hj.workerOf hc] at hk
  exact Option.some.inj hk

theorem traced_own (hc : Consistent s p) (hr : Holds s k r) (hT : Traced s r)
    (hh : ∀ j, Holds s' j r → Holds s j r) (hl : s'.completeList = s.completeList)
    (he : s'.trace = s.trace ++ [e]) (hi : Internal e) (hn : ¬ Commits e)
    (hcourse : ∀ a, attempt r s.trace = some a → Course k (s.heap r) a →
      Course k (s'.heap r) (a.learn r e))
    (hdelivered : ∀ a, attempt r s.trace = some a → Course k (s.heap r) a →
      (s.finishedTasks.lookup (s.heap r).taskid = some r → Delivered (s.heap r) a) →
      s'.finishedTasks.lookup (s'.heap r).taskid = some r → Delivered (s'.heap r) (a.learn r e)) :
    Traced s' r := by
  refine ⟨fun j hj ↦ ?_, fun hm ↦ absurd (hl ▸ hm) (not_complete hc hr)⟩
  rw [holds_unique hc hr (hh j hj)]
  obtain ⟨a, ha, hco, hd⟩ := hT.held k hr
  refine ⟨a.learn r e, ?_, hcourse a ha hco, hdelivered a ha hco hd⟩
  rw [he, attempt_append_internal hi hn, ha]
  rfl

theorem traced_dispatch {now : ℕ} {w : Worker} (hc : Consistent s p) (hr : Holds s k r)
    (hs : Supplied s k r) (hT : Traced s r) : Traced (dispatch now k r w s) r := by
  obtain ⟨b, hb, -, hp, hsup⟩ := hs
  refine traced_own (e := .dispatched k r w.addrport w.hostname) hc hr hT ?_ rfl rfl trivial id ?_ ?_
  · rintro j ⟨w', hw', ht⟩
    refine ⟨w', hw', ?_⟩
    rw [← ht]
    exact congrArg w'.currentTasks.lookup (update_alike (by rfl) (by rfl) r).1.symm
  · intro a ha hco
    rw [hb] at ha
    cases ha
    have hl : b.learn r (.dispatched k r w.addrport w.hostname) =
        { b with place := some (w.addrport, w.hostname) } := by simp [Attempt.learn, hco.worker]
    rw [hl]
    refine ⟨hco.worker, ?_, hco.kept, ?_, ?_⟩
    · simpa [dispatch, State.log, State.setTask] using hco.id
    · rintro x hx
      cases hx
      simp [dispatch, State.log, State.setTask, hsup]
    · simpa [dispatch, State.log, State.setTask, OutputMissing] using hco.answers
  · intro a ha _ hd hf
    rw [hb] at ha
    cases ha
    refine absurd hp (hd ?_).placed
    rw [← hf]
    exact congrArg s.finishedTasks.lookup (update_alike (by rfl) (by rfl) r).1.symm

theorem traced_finish {now : ℕ} {line : Text} {l : ResultLine} (hc : Consistent s p)
    (hl : parseResult line = some l) (hi : l.taskid = (s.heap r).taskid) (hr : Holds s k r)
    (hd : Dispatched s k r) (hv : Heard k line s.trace) (hh : ∀ j, Holds (finish now k line l r s) j r →
      Holds s j r) (hT : Traced s r) : Traced (finish now k line l r s) r := by
  have hlearn : ∀ a, Course k (s.heap r) a →
      a.learn r (.result k r line) = { a with line := some line } := by
    intro a hco
    simp [Attempt.learn, hco.worker]
  refine traced_own (e := .result k r line) hc hr hT hh rfl rfl trivial id (fun a ha hco ↦ ?_)
    (fun a ha hco _ _ ↦ ?_)
  · rw [hlearn a hco]
    refine ⟨hco.worker, ?_, hco.kept, ?_, ?_⟩
    · simpa [finish, State.setTask] using hco.id
    · simpa [finish, State.setTask] using hco.place
    · simpa [finish, State.setTask, OutputMissing] using hco.answers
  · obtain ⟨b, hb, -, hp⟩ := hd
    rw [hlearn a hco]
    have hp : a.place ≠ none := by
      rw [ha] at hb
      cases hb
      exact hp
    have hm : line ∈ a.heard := mem_heard hv ha hco.worker hco.kept
    refine ⟨hp, line, l, rfl, hm, hl, ?_, ?_⟩
    · rw [hi]
      exact hco.id.symm
    · simp [finish, State.setTask]

theorem traced_supply {result : ℤ} (hf : Fresh s k r) (hT : Traced s r) :
    Traced (s.log (.supplied k r result)) r := by
  obtain ⟨b, hb, hk, hp, hq⟩ := hf
  have hb' : attempt r (s.trace ++ [.supplied k r result]) =
      some { b with supplied := some result } := by
    rw [attempt_append_internal (e := .supplied k r result) trivial id, hb]
    simp [Attempt.learn, hk]
  refine ⟨fun j hj ↦ ⟨_, hb', ?_, fun hf ↦ ?_⟩, fun hm ↦ ⟨_, hb', ?_⟩⟩
  · obtain ⟨a, ha, hco, -⟩ := hT.held j hj
    rw [hb] at ha
    cases ha
    exact ⟨hco.worker, hco.id, hco.kept, fun x hx ↦ absurd (hp.symm.trans hx) (by rintro ⟨⟩),
      hco.answers⟩
  · obtain ⟨a, ha, -, hd⟩ := hT.held j hj
    rw [hb] at ha
    cases ha
    exact absurd hp (hd hf).placed
  · obtain ⟨a, ha, hcl⟩ := hT.complete hm
    rw [hb] at ha
    cases ha
    exact ⟨hcl.id, fun hz ↦ absurd hp (hcl.delivered hz).placed,
      fun x hx ↦ absurd (hp.symm.trans hx) (by rintro ⟨⟩), hcl.asked, hcl.answers⟩

theorem traced_fetch (hc : Consistent s p) (hr : Holds s k r) (hT : Traced s r) :
    Traced (fetch k r s) r := by
  have hlearn : ∀ a, Course k (s.heap r) a → a.learn r (.fetching k r (s.heap r).outputFiles) =
      { a with asked := (s.heap r).outputFiles, answers := [] } := by
    intro a hco
    simp [Attempt.learn, hco.worker]
  refine traced_own (e := .fetching k r (s.heap r).outputFiles) hc hr hT (fun _ h ↦ h) rfl rfl
    trivial id (fun a _ hco ↦ ?_) (fun a _ hco hd hf ↦ ?_)
  · rw [hlearn a hco]
    exact ⟨hco.worker, hco.id, hco.kept, hco.place, fun x hx ↦ absurd hx List.not_mem_nil⟩
  · rw [hlearn a hco]
    exact ⟨(hd hf).placed, (hd hf).line⟩

theorem traced_answer {f : File} {name : Text} {entries : List Entry} {result : ℤ}
    (hc : Consistent s p) (hr : Holds s k r)
    (h : result = workerFailure ∨ OutputMissing (s.heap r) ∨ (∀ e ∈ entries, Stored e) ∨
      Overtaken entries) (hT : Traced s r) : Traced (s.log (.replied k r f name entries result)) r := by
  have hlearn : ∀ a, Course k (s.heap r) a → a.learn r (.replied k r f name entries result) =
      { a with answers := a.answers ++ [(f, entries, result)] } := by
    intro a hco
    simp [Attempt.learn, hco.worker]
  refine traced_own (e := .replied k r f name entries result) hc hr hT (fun _ h ↦ h) rfl rfl
    trivial id (fun a _ hco ↦ ?_) (fun a _ hco hd hf ↦ ?_)
  · rw [hlearn a hco]
    refine ⟨hco.worker, hco.id, hco.kept, hco.place, fun x hx ↦ ?_⟩
    rcases List.mem_append.mp hx with hx | hx
    · exact hco.answers x hx
    · rw [List.mem_singleton.mp hx]
      exact h
  · rw [hlearn a hco]
    exact ⟨(hd hf).placed, (hd hf).line⟩

theorem closing_of_course {t : Task} {a : Attempt} (h : Course k t a)
    (hd : t.result = 0 → Delivered t a)
    (hg : a.answers.map Prod.fst = a.asked ∧ ∀ x ∈ a.answers, x.2.2 ≠ workerFailure) :
    Closing t a := by
  refine ⟨h.id, hd, h.place, hg.1, fun hm x hx ↦ ?_⟩
  exact ((h.answers x hx).resolve_left (hg.2 x hx)).resolve_left hm

theorem traced_commit {now : ℕ} (hc : Consistent s p) (hr : s.readyList.head? = some r)
    (hk : Connected s k) (hT : ∀ r, Traced s r) (r₀ : Ref) :
    Traced (commit now k r (popReady s)) r₀ := by
  have hcon := consistent_commit hc hr hk now
  by_cases he : r₀ = r
  · subst he
    refine ⟨fun j hj ↦ ?_, fun hm ↦ ?_⟩
    · have hkj := hj.workerOf hcon
      rw [Function.update_self] at hkj
      cases hkj
      refine ⟨⟨k, (s.heap r₀).taskid, none, none, false, [], none, [], []⟩, ?_, ⟨rfl, ?_, rfl, ?_, ?_⟩,
        fun hf ↦ ?_⟩
      · show attempt r₀ (s.trace ++ [_]) = _
        rw [attempt_append]
        simp [record, popReady]
      · simp [commit, popReady]
      · rintro x ⟨⟩
      · rintro x ⟨⟩
      · have hff := ((hcon.finished _ r₀).mp hf).2
        rw [Function.update_self] at hff
        cases hff
    · have hmm := (hcon.complete r₀).mp hm
      rw [Function.update_self] at hmm
      cases hmm
  · refine traced_other (hT r₀) (fun j hj ↦ ?_) (fun _ h ↦ h) id ?_
      (.inr ⟨.committed k r (s.heap r).taskid, rfl, fun h ↦ he h.symm, by rintro _ _ ⟨⟩⟩)
    · have hkj := hj.workerOf hcon
      rw [Function.update_of_ne he] at hkj
      exact (holds_iff hc).mpr hkj
    · rw [show (commit now k r (popReady s)).heap r₀ = s.heap r₀ from Function.update_of_ne he _ _]
      exact .refl _

theorem traced_giveBack {s' : State} (hr : Holds s k r)
    (hcon : Consistent s' (Function.update p r (some .complete))) (htrace : s'.trace = s.trace ++ [e])
    (he : ¬ Concerns r e) (ht : Later (s.heap r) (s'.heap r)) (hg : Answered s k r)
    (hd : (s.heap r).result = 0 → s.finishedTasks.lookup (s.heap r).taskid = some r)
    (hT : Traced s r) : Traced s' r := by
  refine ⟨fun j hj ↦ ?_, fun _ ↦ ?_⟩
  · have hkj := hj.workerOf hcon
    rw [Function.update_self] at hkj
    cases hkj
  · obtain ⟨a, ha, hco, hdel⟩ := hT.held k hr
    obtain ⟨b, hb, -, hg⟩ := hg
    rw [ha] at hb
    cases hb
    obtain ⟨a', ha', hx, -⟩ := attempt_other he ha
    exact ⟨a', by rw [htrace, ha'],
      ht.closing hx (closing_of_course hco (fun hz ↦ hdel (hd hz)) hg)⟩

theorem traced_step (h : Step σ s s') (hc : Consistent s p) (hT : ∀ r, Traced s r) (r₀ : Ref) :
    Traced s' r₀ := by
  have hrem : ∀ i j, (s.finishedTasks.remove j).lookup i = some r₀ →
      s.finishedTasks.lookup i = some r₀ := by
    intro i j hi
    rw [Table.lookup_remove] at hi
    split at hi
    · cases hi
    · exact hi
  have hlater : ∀ {r t}, r₀ ≠ r → Later (s.heap r₀) (Function.update s.heap r t r₀) := by
    intro r t hne
    rw [Function.update_of_ne hne]
    exact .refl _
  cases h with
  | quiet h => exact traced_quiet h (hT r₀)
  | walkAvailable t ht => exact traced_other (hT r₀) (fun _ h ↦ h) (fun _ h ↦ h) id (.refl _) (.inl rfl)
  | commit now k r hcom hr hk => exact traced_commit hc hr hk hT r₀
  | supply k r result hf =>
    by_cases he : r₀ = r
    · subst he
      exact traced_supply hf (hT r₀)
    · exact traced_other (hT r₀) (fun _ h ↦ h) (fun _ h ↦ h) id (.refl _)
        (.inr ⟨_, rfl, fun h ↦ he h.symm, by rintro _ _ ⟨⟩⟩)
  | dispatch now k r w hw hr hs hn =>
    by_cases he : r₀ = r
    · subst he
      exact traced_dispatch hc hr hs (hT r₀)
    · exact traced_other (hT r₀) (fun j ↦ step_holds (σ := .polling) (.dispatch s now k r w hw hr hs hn) id)
        (fun _ h ↦ h) id (hlater he) (.inr ⟨_, rfl, fun h ↦ he h.symm, by rintro _ _ ⟨⟩⟩)
  | finish now k line l r hrec hl hi hr hd hv =>
    have hh : ∀ j, Holds (finish now k line l r s) j r₀ → Holds s j r₀ := fun j ↦
      step_holds (σ := .polling) (.finish s now k line l r trivial hl hi hr hd hv) id
    by_cases he : r₀ = r
    · subst he
      exact traced_finish hc hl hi hr hd hv hh (hT r₀)
    · refine traced_other (hT r₀) hh (fun i hi ↦ ?_) id (hlater he)
        (.inr ⟨_, rfl, fun h ↦ he h.symm, by rintro _ _ ⟨⟩⟩)
      simp only [finish, State.setTask, Table.lookup_insert] at hi
      split at hi
      · exact absurd (Option.some.inj hi).symm he
      · exact hi
  | fetch k r hr =>
    by_cases he : r₀ = r
    · subst he
      exact traced_fetch hc hr (hT r₀)
    · exact traced_other (hT r₀) (fun _ h ↦ h) (fun _ h ↦ h) id (.refl _)
        (.inr ⟨_, rfl, fun h ↦ he h.symm, by rintro _ _ ⟨⟩⟩)
  | answer k r f name entries result hr h =>
    by_cases he : r₀ = r
    · subst he
      exact traced_answer hc hr h (hT r₀)
    · exact traced_other (hT r₀) (fun _ h ↦ h) (fun _ h ↦ h) id (.refl _)
        (.inr ⟨_, rfl, fun h ↦ he h.symm, by rintro _ _ ⟨⟩⟩)
  | charge received now time k r hr hd hn =>
    refine traced_other (hT r₀)
      (fun j ↦ step_holds (σ := .polling) (.charge s received now time k r hr hd hn) id)
      (fun _ h ↦ h) id ?_ (.inr ⟨_, rfl, id, by rintro _ _ ⟨⟩⟩)
    by_cases he : r₀ = r
    · subst he
      simp only [charge, State.log, State.setTask, Function.update_self]
      exact ⟨⟨rfl, rfl, rfl, rfl⟩, id, id⟩
    · exact hlater he
  | fail k r hr hf hg =>
    by_cases he : r₀ = r
    · subst he
      exact traced_giveBack (e := .failed k r₀) hr (consistent_fail hc hr) rfl id (.refl _) hg
        (fun hz ↦ absurd hz hf) (hT r₀)
    · refine traced_other (hT r₀) (fun j ↦ step_holds (σ := .polling) (.fail s k r hr hf hg) id)
        (fun i ↦ hrem i _) (fun hm ↦ ?_) (.refl _) (.inr ⟨_, rfl, id, by rintro _ _ ⟨⟩⟩)
      exact (List.mem_cons.mp hm).resolve_left he
  | complete now k r hr hf hg hn =>
    by_cases he : r₀ = r
    · subst he
      refine traced_giveBack (e := .completed k r₀) hr (consistent_complete hc hr now) rfl id ?_ hg
        (fun _ ↦ hf) (hT r₀)
      simp only [complete, giveBack, reap, State.setTask, State.setWorker, State.log,
        Function.update_self]
      exact ⟨⟨rfl, rfl, rfl, rfl⟩, id, id⟩
    · refine traced_other (hT r₀)
        (fun j ↦ step_holds (σ := .polling) (.complete s now k r hr hf hg hn) id)
        (fun i ↦ hrem i _) (fun hm ↦ ?_) (hlater he) (.inr ⟨_, rfl, id, by rintro _ _ ⟨⟩⟩)
      exact (List.mem_cons.mp hm).resolve_left he
  | requeue elapsed k r hr hel =>
    by_cases he : r₀ = r
    · subst he
      refine traced_elsewhere (consistent_requeue hc hr elapsed) ?_ ?_
      · rw [Function.update_self]
        rfl
      · rw [Function.update_self]
        rintro ⟨⟩
    · refine traced_other (hT r₀) (fun j ↦ step_holds (σ := .polling) (.requeue s elapsed k r hr hel) id)
        (fun i ↦ hrem i _) id (hlater he) (.inr ⟨_, rfl, id, by rintro _ _ ⟨⟩⟩)
  | clearFiles k hash =>
    exact traced_other (hT r₀) (fun j ↦ step_holds (σ := .polling) (.clearFiles s k hash) id)
      (fun _ h ↦ h) id (.refl _) (.inl rfl)
  | clearTasks k hk =>
    exact traced_other (hT r₀) (fun j ↦ step_holds (σ := .polling) (.clearTasks s k hk) id)
      (fun _ h ↦ h) id (.refl _) (.inl rfl)
  | disconnect k hlea hk =>
    refine traced_other (hT r₀) (fun j ↦ step_holds (σ := .polling) (.disconnect s k trivial hk) id)
      (fun _ h ↦ h) id (.refl _) (.inr ⟨_, rfl, id, fun j hj he ↦ ?_⟩)
    cases he
    exact not_connected_disconnect hj.connected
  | connect now q hq =>
    exact traced_other (hT r₀) (fun j ↦ step_holds (σ := .polling) (.connect s now q hq) id)
      (fun _ h ↦ h) id (.refl _) (.inr ⟨_, rfl, id, by rintro _ _ ⟨⟩⟩)
  | rotate => exact traced_other (hT r₀) (fun _ h ↦ h) (fun _ h ↦ h) id (.refl _) (.inl rfl)
  | collect k hk n =>
    exact traced_other (hT r₀) (fun _ h ↦ h) (fun _ h ↦ h) id (.refl _)
      (.inr ⟨_, rfl, id, by rintro _ _ ⟨⟩⟩)
  | forget k =>
    exact traced_other (hT r₀) (fun _ h ↦ h) (fun _ h ↦ h) id (.refl _)
      (.inr ⟨_, rfl, id, by rintro _ _ ⟨⟩⟩)

theorem traced_drop {t : Task} (hc : Consistent s p) (hr : Holds s k r)
    (hq : ReflTransGen (Quiet k) (dropTask (s.heap r).taskid s) s') (hT : ∀ r, Traced s r) (r₀ : Ref) :
    Traced (dropFromWorker k (s.heap r).taskid t s') r₀ := by
  by_cases he : r₀ = r
  · subst he
    refine traced_elsewhere (consistent_drop hc hr hq t) ?_ ?_ <;> rw [Function.update_self]
    · rfl
    · rintro ⟨⟩
  · have hdrop : Traced (dropTask (s.heap r).taskid s) r₀ := by
      refine traced_other (hT r₀) (fun _ h ↦ h) (fun i hi ↦ ?_) id (.refl _) (.inl rfl)
      simp only [dropTask, Table.lookup_remove] at hi
      split at hi
      · cases hi
      · exact hi
    have hquiet : Traced s' r₀ := by
      clear hT
      induction hq with
      | refl => exact hdrop
      | tail _ hq ih => exact traced_quiet hq ih
    refine traced_other hquiet (fun j hj ↦ ?_) (fun _ h ↦ h) id (.refl _) (.inl rfl)
    obtain ⟨w', hw', ht⟩ := hj
    simp only [dropFromWorker, State.setWorker, Table.lookup_alter] at hw'
    split at hw'
    · obtain ⟨w, hw, rfl⟩ := Option.map_eq_some_iff.mp hw'
      refine ⟨w, hw, ?_⟩
      simp only [dropFromWorker, State.setWorker, expelTask, Table.lookup_remove] at ht
      split at ht
      · cases ht
      · exact ht
    · exact ⟨w', hw', ht⟩

theorem traced_turn (h : Turn σ d s s') (hc : Consistent s p) (hT : ∀ r, Traced s r) (r₀ : Ref) :
    Traced s' r₀ := by
  cases h with
  | step h => exact traced_step h hc hT r₀
  | create command =>
    by_cases he : r₀ = s.allocated
    · have hn : p r₀ = none := by
        by_contra hn
        exact absurd he (hc.made r₀ hn).ne
      refine traced_elsewhere (consistent_create hc command) ?_ ?_ <;> rw [hn]
      · rfl
      · rintro ⟨⟩
    · have hheap : (create command s).heap r₀ = s.heap r₀ := Function.update_of_ne he _ _
      refine traced_other (hT r₀) ?_ (fun _ h ↦ h) id (by rw [hheap]; exact .refl _) (.inl rfl)
      rintro j ⟨w, hw, ht⟩
      exact ⟨w, hw, by rw [← hheap, ht]⟩
  | submit now r hr hi hl hn =>
    obtain ⟨q, hq, hn⟩ := hn
    by_cases he : r₀ = r
    · subst he
      refine traced_elsewhere (consistent_submit hq hn hr hi now) ?_ ?_ <;> rw [Function.update_self]
      · rfl
      · rintro ⟨⟩
    · have hheap : (submitTask now r s).heap r₀ = s.heap r₀ := Function.update_of_ne he _ _
      refine traced_other (hT r₀) ?_ (fun _ h ↦ h) id (by rw [hheap]; exact .refl _)
        (.inr ⟨_, rfl, fun h ↦ he h.symm, by rintro _ _ ⟨⟩⟩)
      rintro j ⟨w, hw, ht⟩
      exact ⟨w, hw, by rw [← hheap, ht]⟩
  | handOver r hr =>
    refine traced_other (hT r₀) (fun _ h ↦ h) (fun _ h ↦ h) List.mem_of_mem_tail (.refl _)
      (.inr ⟨_, rfl, id, by rintro _ _ ⟨⟩⟩)
  | release k r hr =>
    have hcon := consistent_release hc hr
    by_cases he : r₀ = r
    · subst he
      refine traced_elsewhere hcon ?_ ?_ <;> rw [Function.update_self]
      · rfl
      · rintro ⟨⟩
    · refine traced_other (hT r₀) (fun j hj ↦ ?_) (fun i hi ↦ ?_) id (.refl _) (.inl rfl)
      · have hkj := hj.workerOf hcon
        rw [Function.update_of_ne he] at hkj
        exact (holds_iff hc).mpr hkj
      · simp only [release, Table.lookup_remove] at hi
        split at hi
        · cases hi
        · exact hi
  | uncomplete r hr =>
    exact traced_other (hT r₀) (fun _ h ↦ h) (fun _ h ↦ h) List.mem_of_mem_erase (.refl _) (.inl rfl)
  | clearLists =>
    exact traced_other (hT r₀) (fun _ h ↦ h) (fun _ h ↦ h) (fun h ↦ absurd h List.not_mem_nil)
      (.refl _) (.inl rfl)
  | drop u k r hd hr hq => exact traced_drop hc hr hq hT r₀
  | unready r hr => exact traced_other (hT r₀) (fun _ h ↦ h) (fun _ h ↦ h) id (.refl _) (.inl rfl)
  | gaveUp =>
    exact traced_other (hT r₀) (fun _ h ↦ h) (fun _ h ↦ h) id (.refl _)
      (.inr ⟨_, rfl, id, by rintro _ _ ⟨⟩⟩)
  | withdraw id' =>
    exact traced_other (hT r₀) (fun _ h ↦ h) (fun _ h ↦ h) id (.refl _)
      (.inr ⟨_, rfl, id, by rintro _ _ ⟨⟩⟩)
  | kill k hk =>
    exact traced_other (hT r₀) (fun _ h ↦ h) (fun _ h ↦ h) id (.refl _)
      (.inr ⟨_, rfl, id, by rintro _ _ ⟨⟩⟩)
  | withdrawAll =>
    exact traced_other (hT r₀) (fun _ h ↦ h) (fun _ h ↦ h) id (.refl _)
      (.inr ⟨_, rfl, id, by rintro _ _ ⟨⟩⟩)

theorem turns_traced {env : Environment} (h : ReflTransGen (Turn σ d) (newQueue env) s) (r : Ref) :
    Traced s r := by
  refine (turns_keep (I := fun s ↦ ∀ r, Traced s r) (fun _ _ _ ht hc hT ↦ traced_turn ht hc hT) h
    (sound_newQueue env).steadfast.1 (fun r ↦ ⟨?_, ?_⟩)).2 r
  · rintro k ⟨w, ⟨⟩, -⟩
  · exact fun hm ↦ absurd hm List.not_mem_nil

end Cyque.Provenance
