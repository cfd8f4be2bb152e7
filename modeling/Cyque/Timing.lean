import Cyque.Caching

namespace Cyque.Timing

open Library.Execution Library.Lookup Library.Scanning Queue Link Files Workers Messages Transfer
open Dispatch Wait Api Run Footprint Placement History Steps Conduct Collect Polling Turns Calls
open Agreement Provenance Results Caching Relation

variable {s s' : State} {p : Ref → Option Place} {k : Key} {r : Ref} {σ : Scope} {d : Prop}
variable {e : Event} {trace : List Event} {env : Environment} {ok : State → Call → Prop}

/-- What the history says about the times of a task. `submitted`, `committed`
and `finished` are the readings of the clock at these events, of the last
submission. `spent` is the time of the attempts, each from its dispatch to the
result or to the loss of the worker; an attempt is `running` in between.
`doubled` tells that the code charged time outside of a running attempt. -/
structure Ledger where
  now : ℕ
  submitted : ℕ
  committed : Option ℕ
  finished : Option ℕ
  failed : Bool
  started : ℕ
  running : Bool
  spent : ℕ
  doubled : Bool
deriving DecidableEq

namespace Ledger

def blank : Ledger := ⟨0, 0, none, none, false, 0, false, 0, false⟩

def close (l : Ledger) : Ledger :=
  { l with spent := l.spent + (l.now - l.started), running := false }

/-- An attempt is given up. Its time is charged by the code if it was
committed before the last dispatch of the task. -/
def abandon (l : Ledger) : Ledger :=
  if l.running then l.close
  else { l with doubled := l.doubled || l.committed.any (fun b ↦ b ≤ l.started) }

def enter (r : Ref) (l : Ledger) : Event → Ledger
  | .clock now => { l with now := now }
  | .submitted r' _ =>
    if r' = r then
      { l with submitted := l.now, committed := none, finished := none, failed := false,
               running := false }
    else l
  | .committed _ r' _ =>
    if r' = r then { l with committed := some l.now, finished := none, running := false } else l
  | .dispatched _ r' _ _ => if r' = r then { l with started := l.now, running := true } else l
  | .charged _ r' =>
    if r' = r then (if l.running then l.close else { l with doubled := true }) else l
  | .requeued _ r' => if r' = r then l.abandon else l
  | .failed _ r' => if r' = r then { l with failed := true } else l
  | .completed _ r' => if r' = r then { l with finished := some l.now } else l
  | _ => l

end Ledger

def ledger (r : Ref) (trace : List Event) : Ledger := trace.foldl (Ledger.enter r) .blank

theorem ledger_append : ledger r (trace ++ [e]) = (ledger r trace).enter r e := by
  rw [ledger, List.foldl_append]
  rfl

def Dates (r : Ref) : Event → Prop
  | .submitted r' _ => r' = r
  | .committed _ r' _ => r' = r
  | .dispatched _ r' _ _ => r' = r
  | .charged _ r' => r' = r
  | .requeued _ r' => r' = r
  | .failed _ r' => r' = r
  | .completed _ r' => r' = r
  | _ => False

def Ticks : Event → Prop
  | .clock _ => True
  | _ => False

theorem enter_other (hd : ¬ Dates r e) (ht : ¬ Ticks e) (l : Ledger) : l.enter r e = l := by
  cases e with
  | clock => exact absurd trivial ht
  | submitted | committed | dispatched | charged | requeued | failed | completed => exact if_neg hd
  | _ => rfl

/-- Nothing is dated later than it happened. -/
structure Ordered (l : Ledger) : Prop where
  submitted : l.submitted ≤ l.now
  started : l.started ≤ l.now
  committed : ∀ b, l.committed = some b → l.submitted ≤ b ∧ b ≤ l.now
  finished : ∀ b c, l.committed = some b → l.finished = some c → b ≤ c ∧ c ≤ l.now

theorem Ordered.tick {l : Ledger} (h : Ordered l) {now : ℕ} (hn : l.now ≤ now) :
    Ordered { l with now := now } where
  submitted := h.submitted.trans hn
  started := h.started.trans hn
  committed b hb := ⟨(h.committed b hb).1, (h.committed b hb).2.trans hn⟩
  finished b c hb hc := ⟨(h.finished b c hb hc).1, (h.finished b c hb hc).2.trans hn⟩

theorem Ordered.close {l : Ledger} (h : Ordered l) : Ordered l.close :=
  ⟨h.submitted, h.started, h.committed, h.finished⟩

theorem Ordered.enter {l : Ledger} (h : Ordered l) (he : ¬ Ticks e) : Ordered (l.enter r e) := by
  by_cases hd : Dates r e
  · cases e with
    | submitted r' i =>
      rw [Ledger.enter, if_pos (show r' = r from hd)]
      exact ⟨le_rfl, h.started, by rintro b ⟨⟩, by rintro b c ⟨⟩⟩
    | committed k r' i =>
      rw [Ledger.enter, if_pos (show r' = r from hd)]
      refine ⟨h.submitted, h.started, ?_, by rintro b c - ⟨⟩⟩
      rintro b ⟨⟩
      exact ⟨h.submitted, le_rfl⟩
    | dispatched k r' host hostname =>
      rw [Ledger.enter, if_pos (show r' = r from hd)]
      exact ⟨h.submitted, le_rfl, h.committed, h.finished⟩
    | charged k r' =>
      rw [Ledger.enter, if_pos (show r' = r from hd)]
      split
      · exact h.close
      · exact ⟨h.submitted, h.started, h.committed, h.finished⟩
    | requeued k r' =>
      rw [Ledger.enter, if_pos (show r' = r from hd), Ledger.abandon]
      split
      · exact h.close
      · exact ⟨h.submitted, h.started, h.committed, h.finished⟩
    | failed k r' =>
      rw [Ledger.enter, if_pos (show r' = r from hd)]
      exact ⟨h.submitted, h.started, h.committed, h.finished⟩
    | completed k r' =>
      rw [Ledger.enter, if_pos (show r' = r from hd)]
      refine ⟨h.submitted, h.started, h.committed, ?_⟩
      rintro b c hb ⟨⟩
      exact ⟨(h.committed b hb).2, le_rfl⟩
    | _ => exact hd.elim
  · rwa [enter_other hd he]

/-- The stamps of a task are the times of the history, and its total is no more
than the time spent. -/
structure Agrees (t : Task) (l : Ledger) : Prop where
  submitted : t.timeTaskSubmit = l.submitted
  started : t.timeExecuteCmdStart = l.started
  committed : ∀ b, l.committed = some b → t.timeCommitted = b
  finished : ∀ c, l.finished = some c → t.timeTaskFinish = c
  total : l.doubled = false → t.totalCmdExecutionTime ≤ l.spent

theorem Agrees.congr {t t' : Task} {l : Ledger} (h : Agrees t l) (ht : stamps t' = stamps t) :
    Agrees t' l := by
  simp only [stamps, Prod.mk.injEq] at ht
  obtain ⟨h₁, h₂, h₃, h₄, h₅⟩ := ht
  exact ⟨h₁.trans h.submitted, h₃.trans h.started, fun b hb ↦ h₂.trans (h.committed b hb),
    fun c hc ↦ h₄.trans (h.finished c hc), fun hd ↦ h₅.trans_le (h.total hd)⟩

/-- The history and the stamps of a task that is in the place `q`. The next
reading of the clock is not earlier than the last. -/
structure Dated (s : State) (q : Option Place) (r : Ref) : Prop where
  clock : (ledger r s.trace).now ≤ (s.env.answers s.calls).now
  ordered : Ordered (ledger r s.trace)
  agrees : Agrees (s.heap r) (ledger r s.trace)
  held : workerOf q ≠ none → (ledger r s.trace).committed ≠ none
  opened : q ≠ none → q ≠ some .complete →
    (ledger r s.trace).failed = false ∧ (ledger r s.trace).finished = none
  complete : q = some .complete → (ledger r s.trace).committed ≠ none ∧
    ((ledger r s.trace).failed = false ↔ (ledger r s.trace).finished ≠ none)
  fresh : s.allocated ≤ r → stamps (s.heap r) = (0, 0, 0, 0, 0)

/-- The clock of the environment never goes back. -/
def Steadily (env : Environment) : Prop := Monotone (fun c ↦ (env.answers c).now)

theorem dated_other {q : Option Place} (hD : Dated s q r) (hm : Steadily s.env)
    (henv : s'.env = s.env) (hcalls : s.calls ≤ s'.calls)
    (ht : stamps (s'.heap r) = stamps (s.heap r)) (ha : s.allocated ≤ s'.allocated)
    (he : s'.trace = s.trace ∨ ∃ e, s'.trace = s.trace ++ [e] ∧ ¬ Dates r e ∧ ¬ Ticks e) :
    Dated s' q r := by
  have hl : ledger r s'.trace = ledger r s.trace := by
    rcases he with he | ⟨e, he, hd, hn⟩
    · rw [he]
    · rw [he, ledger_append, enter_other hd hn]
  refine ⟨?_, ?_, ?_, ?_, ?_, ?_, fun hle ↦ ?_⟩
  · rw [hl, henv]
    exact hD.clock.trans (hm hcalls)
  · exact hl ▸ hD.ordered
  · rw [hl]
    exact hD.agrees.congr ht
  · exact hl ▸ hD.held
  · exact hl ▸ hD.opened
  · exact hl ▸ hD.complete
  · rw [ht]
    exact hD.fresh (ha.trans hle)

theorem Dated.leave {q : Option Place} (hD : Dated s q r) : Dated s none r :=
  ⟨hD.clock, hD.ordered, hD.agrees, fun h ↦ absurd rfl h, fun h ↦ absurd rfl h, by rintro ⟨⟩, hD.fresh⟩

theorem dated_tick {q : Option Place} (hD : Dated s q r) (hm : Steadily s.env) :
    Dated s.tick q r := by
  have hl : ledger r s.tick.trace =
      { ledger r s.trace with now := (s.env.answers s.calls).now } := ledger_append
  refine ⟨?_, ?_, ?_, ?_, ?_, ?_, hD.fresh⟩ <;> rw [hl]
  · exact hm (Nat.le_succ _)
  · exact hD.ordered.tick hD.clock
  · exact ⟨hD.agrees.submitted, hD.agrees.started, hD.agrees.committed, hD.agrees.finished,
      hD.agrees.total⟩
  · exact hD.held
  · exact hD.opened
  · exact hD.complete

theorem now_enter {l : Ledger} (hn : ¬ Ticks e) : (l.enter r e).now = l.now := by
  cases e with
  | clock => exact absurd trivial hn
  | charged | requeued =>
    simp only [Ledger.enter, Ledger.abandon]
    split
    · split <;> rfl
    · rfl
  | submitted | committed | dispatched | failed | completed =>
    simp only [Ledger.enter]
    split <;> rfl
  | _ => rfl

/-- A step that dates something about the task and takes it to the place `q'`. -/
theorem dated_enter {q q' : Option Place} (hD : Dated s q r) (henv : s'.env = s.env)
    (hcalls : s'.calls = s.calls) (he : s'.trace = s.trace ++ [e]) (hn : ¬ Ticks e)
    (ha : r < s'.allocated) (hagrees : Agrees (s'.heap r) ((ledger r s.trace).enter r e))
    (hheld : workerOf q' ≠ none → ((ledger r s.trace).enter r e).committed ≠ none)
    (hopened : q' ≠ none → q' ≠ some .complete →
      ((ledger r s.trace).enter r e).failed = false ∧ ((ledger r s.trace).enter r e).finished = none)
    (hcomplete : q' = some .complete → ((ledger r s.trace).enter r e).committed ≠ none ∧
      (((ledger r s.trace).enter r e).failed = false ↔
        ((ledger r s.trace).enter r e).finished ≠ none)) : Dated s' q' r := by
  have hl : ledger r s'.trace = (ledger r s.trace).enter r e := by rw [he, ledger_append]
  refine ⟨?_, ?_, ?_, ?_, ?_, ?_, fun hle ↦ absurd ha (not_lt.mpr hle)⟩ <;> rw [hl]
  · rw [now_enter hn, henv, hcalls]
    exact hD.clock
  · exact hD.ordered.enter hn
  · exact hagrees
  · exact hheld
  · exact hopened
  · exact hcomplete

theorem now_of_reads {now : ℕ} (h : Reads now s) : (ledger r s.trace).now = now := by
  obtain ⟨es, he⟩ := List.getLast?_eq_some_iff.mp h
  rw [he, ledger_append]
  rfl

theorem dated_submit {now : ℕ} (hD : Dated s none r) (hr : r < s.allocated) (hn : Reads now s) :
    Dated (submitTask now r s) (some .ready) r := by
  have hl : (ledger r s.trace).enter r (.submitted r s.nextTaskid) =
      { ledger r s.trace with
        submitted := (ledger r s.trace).now, committed := none, finished := none, failed := false,
        running := false } := if_pos rfl
  refine dated_enter (e := .submitted r s.nextTaskid) hD rfl rfl rfl id hr ?_ (fun h ↦ absurd rfl h)
    (fun _ _ ↦ ?_) (by rintro ⟨⟩) <;> rw [hl]
  · refine ⟨?_, ?_, by rintro b ⟨⟩, by rintro c ⟨⟩, fun hd ↦ ?_⟩
    · simp [submitTask, resetTask, now_of_reads hn]
    · simpa [submitTask, resetTask] using hD.agrees.started
    · simpa [submitTask, resetTask] using hD.agrees.total hd
  · exact ⟨rfl, rfl⟩

theorem dated_commit {now : ℕ} (hD : Dated s (some .ready) r) (hr : r < s.allocated)
    (hn : Reads now s) : Dated (commit now k r (popReady s)) (some (.running k)) r := by
  have hl : (ledger r s.trace).enter r (.committed k r (s.heap r).taskid) =
      { ledger r s.trace with
        committed := some (ledger r s.trace).now, finished := none, running := false } := if_pos rfl
  refine dated_enter (e := .committed k r (s.heap r).taskid) hD rfl rfl rfl id hr ?_ (fun _ ↦ ?_)
    (fun _ _ ↦ ?_) (by rintro ⟨⟩) <;> rw [hl]
  · refine ⟨?_, ?_, ?_, by rintro c ⟨⟩, fun hd ↦ ?_⟩
    · simpa [commit, popReady] using hD.agrees.submitted
    · simpa [commit, popReady] using hD.agrees.started
    · rintro b ⟨⟩
      simp [commit, popReady, now_of_reads hn]
    · simpa [commit, popReady] using hD.agrees.total hd
  · exact Option.some_ne_none _
  · exact ⟨(hD.opened (by rintro ⟨⟩) (by rintro ⟨⟩)).1, rfl⟩

theorem Dated.at_worker {q : Option Place} (hD : Dated s q r) (hk : workerOf q = some k) :
    (ledger r s.trace).committed ≠ none ∧ (ledger r s.trace).failed = false ∧
      (ledger r s.trace).finished = none := by
  refine ⟨hD.held (by rw [hk]; exact Option.some_ne_none _), hD.opened ?_ ?_⟩
  · rintro rfl
    cases hk
  · rintro rfl
    cases hk

theorem dated_dispatch {now : ℕ} {q : Option Place} {w : Worker} (hD : Dated s q r)
    (hk : workerOf q = some k) (hr : r < s.allocated) (hn : Reads now s) :
    Dated (dispatch now k r w s) q r := by
  have hl : (ledger r s.trace).enter r (.dispatched k r w.addrport w.hostname) =
      { ledger r s.trace with started := (ledger r s.trace).now, running := true } := if_pos rfl
  obtain ⟨hcom, hopen⟩ := hD.at_worker hk
  refine dated_enter (e := .dispatched k r w.addrport w.hostname) hD rfl rfl rfl id hr ?_ (fun _ ↦ ?_)
    (fun _ _ ↦ ?_) (fun hq ↦ ?_) <;> rw [hl]
  · refine ⟨?_, ?_, fun b hb ↦ ?_, fun c hc ↦ ?_, fun hd ↦ ?_⟩
    · simpa [dispatch, State.log, State.setTask] using hD.agrees.submitted
    · simp [dispatch, State.log, State.setTask, now_of_reads hn]
    · simpa [dispatch, State.log, State.setTask] using hD.agrees.committed b hb
    · simpa [dispatch, State.log, State.setTask] using hD.agrees.finished c hc
    · simpa [dispatch, State.log, State.setTask] using hD.agrees.total hd
  · exact hcom
  · exact hopen
  · exact hD.complete hq

theorem stamp_sub_le {now start : ℕ} (h : start ≤ now) : stamp (now - start) ≤ now - start := by
  rw [stamp, ← Nat.cast_sub h]
  have := Nat.mod_le (now - start) (2 ^ 64)
  omega

theorem dated_charge (received now time : ℕ) {q : Option Place} (hD : Dated s q r)
    (hk : workerOf q = some k) (hr : r < s.allocated) (hn : Reads now s) :
    Dated (charge received now time k r s) q r := by
  have hl : (ledger r s.trace).enter r (.charged k r) =
      if (ledger r s.trace).running then (ledger r s.trace).close
      else { ledger r s.trace with doubled := true } := if_pos rfl
  have hsame : ((ledger r s.trace).enter r (.charged k r)).committed = (ledger r s.trace).committed ∧
      ((ledger r s.trace).enter r (.charged k r)).failed = (ledger r s.trace).failed ∧
      ((ledger r s.trace).enter r (.charged k r)).finished = (ledger r s.trace).finished := by
    rw [hl]
    split <;> exact ⟨rfl, rfl, rfl⟩
  obtain ⟨hcom, hfail, hfin⟩ := hsame
  obtain ⟨hcom', hopen⟩ := hD.at_worker hk
  refine dated_enter (e := .charged k r) hD rfl rfl rfl id hr ?_ (fun _ ↦ ?_) (fun _ _ ↦ ?_) (fun hq ↦ ?_)
  · rw [hl]
    have hagrees : ∀ l : Ledger, l.submitted = (ledger r s.trace).submitted →
        l.started = (ledger r s.trace).started → l.committed = (ledger r s.trace).committed →
        l.finished = (ledger r s.trace).finished →
        (l.doubled = false → ((charge received now time k r s).heap r).totalCmdExecutionTime ≤ l.spent) →
        Agrees ((charge received now time k r s).heap r) l := by
      intro l h₁ h₂ h₃ h₄ h₅
      refine ⟨?_, ?_, fun b hb ↦ ?_, fun c hc ↦ ?_, h₅⟩
      · simpa [charge, State.log, State.setTask, chargeExecution, h₁] using hD.agrees.submitted
      · simpa [charge, State.log, State.setTask, chargeExecution, h₂] using hD.agrees.started
      · simpa [charge, State.log, State.setTask, chargeExecution] using hD.agrees.committed b (h₃ ▸ hb)
      · simpa [charge, State.log, State.setTask, chargeExecution] using hD.agrees.finished c (h₄ ▸ hc)
    split
    · refine hagrees _ rfl rfl rfl rfl (fun hd ↦ ?_)
      have htotal := hD.agrees.total hd
      have hstart := hD.agrees.started
      have hnow := now_of_reads (r := r) hn
      have hle := hD.ordered.started
      have hbegun : (s.heap r).timeExecuteCmdStart ≤ now := by omega
      have hstamp := stamp_sub_le hbegun
      simp only [charge, State.log, State.setTask, Function.update_self, chargeExecution, Ledger.close]
      refine (Nat.mod_le _ _).trans ?_
      split <;> omega
    · exact hagrees _ rfl rfl rfl rfl (by rintro ⟨⟩)
  · rw [hcom]
    exact hcom'
  · rw [hfail, hfin]
    exact hopen
  · rw [hcom, hfail, hfin]
    exact hD.complete hq

theorem dated_fail {q : Option Place} (hD : Dated s q r) (hk : workerOf q = some k)
    (hr : r < s.allocated) : Dated (failTask k r s) (some .complete) r := by
  have hl : (ledger r s.trace).enter r (.failed k r) = { ledger r s.trace with failed := true } :=
    if_pos rfl
  obtain ⟨hcom, -, hfin⟩ := hD.at_worker hk
  refine dated_enter (e := .failed k r) hD rfl rfl rfl id hr ?_ (fun h ↦ absurd rfl h)
    (fun _ h ↦ absurd rfl h) (fun _ ↦ ?_) <;> rw [hl]
  · exact ⟨hD.agrees.submitted, hD.agrees.started, hD.agrees.committed, hD.agrees.finished,
      hD.agrees.total⟩
  · exact ⟨hcom, iff_of_false (by rintro ⟨⟩) (fun h ↦ h hfin)⟩

theorem dated_complete {now : ℕ} {q : Option Place} (hD : Dated s q r) (hk : workerOf q = some k)
    (hr : r < s.allocated) (hn : Reads now s) : Dated (complete now k r s) (some .complete) r := by
  have hl : (ledger r s.trace).enter r (.completed k r) =
      { ledger r s.trace with finished := some (ledger r s.trace).now } := if_pos rfl
  have hheap : (complete now k r s).heap r = { s.heap r with timeTaskFinish := now } := by
    simp [complete, giveBack, reap, State.setTask, State.setWorker, State.log]
  obtain ⟨hcom, hfail, -⟩ := hD.at_worker hk
  refine dated_enter (e := .completed k r) hD rfl rfl rfl id hr ?_ (fun h ↦ absurd rfl h)
    (fun _ h ↦ absurd rfl h) (fun _ ↦ ?_) <;> rw [hl]
  · rw [hheap]
    refine ⟨hD.agrees.submitted, hD.agrees.started, hD.agrees.committed, ?_, hD.agrees.total⟩
    rintro c ⟨⟩
    exact (now_of_reads hn).symm
  · exact ⟨hcom, iff_of_true hfail (Option.some_ne_none _)⟩

theorem dated_requeue {elapsed : ℕ} {q : Option Place} (hD : Dated s q r) (hk : workerOf q = some k)
    (hr : r < s.allocated) (he : Elapsed s r elapsed) :
    Dated (requeue elapsed k r s) (some .ready) r := by
  obtain ⟨hcom, hopen⟩ := hD.at_worker hk
  obtain ⟨b, hb⟩ := Option.ne_none_iff_exists'.mp hcom
  have hl : (ledger r s.trace).enter r (.requeued k r) = (ledger r s.trace).abandon := if_pos rfl
  have hsame : (ledger r s.trace).abandon.submitted = (ledger r s.trace).submitted ∧
      (ledger r s.trace).abandon.started = (ledger r s.trace).started ∧
      (ledger r s.trace).abandon.committed = (ledger r s.trace).committed ∧
      (ledger r s.trace).abandon.finished = (ledger r s.trace).finished ∧
      (ledger r s.trace).abandon.failed = (ledger r s.trace).failed := by
    rw [Ledger.abandon]
    split <;> exact ⟨rfl, rfl, rfl, rfl, rfl⟩
  obtain ⟨h₁, h₂, h₃, h₄, h₅⟩ := hsame
  have hcommitted := hD.agrees.committed b hb
  have hstart := hD.agrees.started
  have hle := hD.ordered.started
  refine dated_enter (e := .requeued k r) hD rfl rfl rfl id hr ?_ (fun h ↦ absurd rfl h)
    (fun _ _ ↦ ?_) (by rintro ⟨⟩) <;> rw [hl]
  · refine ⟨?_, ?_, fun b hb ↦ ?_, fun c hc ↦ ?_, fun hd ↦ ?_⟩
    · simpa [requeue, reap, State.setTask, h₁] using hD.agrees.submitted
    · simpa [requeue, reap, State.setTask, h₂] using hD.agrees.started
    · simpa [requeue, reap, State.setTask] using hD.agrees.committed b (h₃ ▸ hb)
    · simpa [requeue, reap, State.setTask] using hD.agrees.finished c (h₄ ▸ hc)
    · have htotal : ((requeue elapsed k r s).heap r).totalCmdExecutionTime ≤
          (s.heap r).totalCmdExecutionTime + elapsed := by
        simp only [requeue, reap, State.setTask, Function.update_self]
        exact Nat.mod_le _ _
      refine htotal.trans ?_
      unfold Ledger.abandon at hd ⊢
      unfold Elapsed at he
      split at hd
      · rename_i hrun
        have ht := hD.agrees.total hd
        rw [if_pos hrun]
        simp only [Ledger.close]
        split at he
        · obtain ⟨now, hn, rfl⟩ := he
          have hnow := now_of_reads (r := r) hn
          have hbegun : (s.heap r).timeExecuteCmdStart ≤ now := by omega
          have hstamp := stamp_sub_le hbegun
          omega
        · omega
      · rename_i hrun
        rw [if_neg hrun]
        simp only [hb, Bool.or_eq_false_iff, Option.any_some, decide_eq_false_iff_not] at hd
        have ht := hD.agrees.total hd.1
        rw [if_neg (by omega)] at he
        simp only
        omega
  · rw [h₅, h₄]
    exact hopen

theorem dated_update {q : Option Place} (hown : Dated s' q r)
    (hother : ∀ r₀, r₀ ≠ r → Dated s' (p r₀) r₀) (r₀ : Ref) :
    Dated s' (Function.update p r q r₀) r₀ := by
  by_cases he : r₀ = r
  · subst he
    rwa [Function.update_self]
  · rw [Function.update_of_ne he]
    exact hother r₀ he

theorem quiet_calls {c : Key} (h : Quiet c s s') : s.calls ≤ s'.calls := by
  cases h with
  | call => exact Nat.le_succ _
  | tick => exact Nat.le_succ _
  | _ => exact le_rfl

theorem muted_dates (h : Muted e) : ¬ Dates r e := by
  cases e <;> first | exact id | exact h.elim

theorem dated_quiet {c : Key} {q : Option Place} (h : Quiet c s s') (hm : Steadily s.env)
    (hD : Dated s q r) : Dated s' q r := by
  have hstamps : stamps (s'.heap r) = stamps (s.heap r) :=
    congrArg (fun x ↦ x.2.2.2.2.2) (quiet_report h r)
  have hother := dated_other hD hm (quiet_env h) (quiet_calls h) hstamps (quiet_allocated h).ge
  cases h with
  | tick => exact dated_tick hD hm
  | tell m => exact hother (.inr ⟨_, rfl, id, id⟩)
  | observe e he =>
    refine hother (.inr ⟨e, rfl, muted_dates (muted_of_observed he), ?_⟩)
    cases e <;> first | exact id | exact he.elim
  | note => exact hother (.inr ⟨_, rfl, id, id⟩)
  | unlink => exact hother (.inr ⟨_, rfl, id, id⟩)
  | _ => exact hother (.inl rfl)

/-- Every task of the queue is dated by its place. -/
def Datable (s : State) : Prop := ∃ p, Consistent s p ∧ ∀ r, Dated s (p r) r

theorem datable_step (h : Step σ s s') (hm : Steadily s.env) (hs : Datable s) : Datable s' := by
  obtain ⟨p, hc, hD⟩ := hs
  have hmade : ∀ {k r}, Holds s k r → r < s.allocated := fun hr ↦
    hc.made _ (ne_none_of_workerOf (hr.workerOf hc))
  have hsame : ∀ {u : State}, u.env = s.env → u.calls = s.calls → u.heap = s.heap →
      u.allocated = s.allocated →
      (u.trace = s.trace ∨ ∃ e, u.trace = s.trace ++ [e] ∧ (∀ r, ¬ Dates r e) ∧ ¬ Ticks e) →
      ∀ r, Dated u (p r) r := by
    intro u henv hcalls hheap ha ht r
    refine dated_other (hD r) hm henv hcalls.ge (by rw [hheap]) ha.ge ?_
    exact ht.imp_right (fun ⟨e, he, hd, hn⟩ ↦ ⟨e, he, hd r, hn⟩)
  have hother : ∀ {u : State} {e : Event} {r : Ref} {t : Task}, u.env = s.env → u.calls = s.calls →
      u.heap = Function.update s.heap r t → u.allocated = s.allocated → u.trace = s.trace ++ [e] →
      (∀ r₀, r₀ ≠ r → ¬ Dates r₀ e) → ¬ Ticks e → ∀ r₀, r₀ ≠ r → Dated u (p r₀) r₀ := by
    intro u e r t henv hcalls hheap ha ht hd hn r₀ he
    refine dated_other (hD r₀) hm henv hcalls.ge ?_ ha.ge (.inr ⟨e, ht, hd r₀ he, hn⟩)
    rw [hheap, Function.update_of_ne he]
  cases h with
  | quiet h => exact ⟨p, consistent_quiet h hc, fun r ↦ dated_quiet h hm (hD r)⟩
  | walkAvailable t ht =>
    exact ⟨p, consistent_walkAvailable hc ht, hsame rfl rfl rfl rfl (.inl rfl)⟩
  | commit now k r hcom hr hk hn =>
    have hpr := (hc.ready r).mp (List.mem_of_mem_head? hr)
    have hra := hc.made r (by rw [hpr]; exact Option.some_ne_none _)
    refine ⟨_, consistent_commit hc hr hk now, dated_update
      (dated_commit (hpr ▸ hD r) hra hn) (hother rfl rfl rfl rfl rfl ?_ id)⟩
    exact fun r₀ he h ↦ he h.symm
  | dispatch now k r w hw hr hs hn =>
    have hown := dated_dispatch (w := w) (hD r) (hr.workerOf hc) (hmade hr) hn
    refine ⟨p, consistent_task hc (by rfl) (by rfl), fun r₀ ↦ ?_⟩
    by_cases he : r₀ = r
    · exact he ▸ hown
    · exact hother (u := dispatch now k r w s) (e := .dispatched k r w.addrport w.hostname) rfl rfl rfl
        rfl rfl (fun r₀ he h ↦ he h.symm) id r₀ he
  | charge received now time k r hr hd hn =>
    have hown := dated_charge received now time (hD r) (hr.workerOf hc) (hmade hr) hn
    refine ⟨p, consistent_task hc (by rfl) (by rfl), fun r₀ ↦ ?_⟩
    by_cases he : r₀ = r
    · exact he ▸ hown
    · exact hother (u := charge received now time k r s) (e := .charged k r) rfl rfl rfl rfl rfl
        (fun r₀ he h ↦ he h.symm) id r₀ he
  | finish now k line l r hrec hl hi hr hd hv =>
    refine ⟨_, consistent_finish hc hr now line hi, dated_update ?_
      (hother rfl rfl rfl rfl rfl (fun _ _ ↦ id) id)⟩
    have hstamps : stamps ((finish now k line l r s).heap r) = stamps (s.heap r) := by
      simp [finish, State.setTask, stamps]
    have hstay : Dated (finish now k line l r s) (p r) r :=
      dated_other (hD r) hm rfl le_rfl hstamps le_rfl (.inr ⟨_, rfl, id, id⟩)
    obtain ⟨hcom, hopen⟩ := hstay.at_worker (hr.workerOf hc)
    exact ⟨hstay.clock, hstay.ordered, hstay.agrees, fun _ ↦ hcom, fun _ _ ↦ hopen, by rintro ⟨⟩,
      hstay.fresh⟩
  | fail k r hr hf hg =>
    refine ⟨_, consistent_fail hc hr, dated_update (dated_fail (hD r) (hr.workerOf hc) (hmade hr)) ?_⟩
    refine hother (t := s.heap r) rfl rfl ?_ rfl rfl (fun r₀ he h ↦ he h.symm) id
    exact (Function.update_eq_self r s.heap).symm
  | complete now k r hr hf hg hn =>
    exact ⟨_, consistent_complete hc hr now, dated_update
      (dated_complete (hD r) (hr.workerOf hc) (hmade hr) hn)
      (hother rfl rfl rfl rfl rfl (fun r₀ he h ↦ he h.symm) id)⟩
  | requeue elapsed k r hr he =>
    exact ⟨_, consistent_requeue hc hr elapsed, dated_update
      (dated_requeue (hD r) (hr.workerOf hc) (hmade hr) he)
      (hother rfl rfl rfl rfl rfl (fun r₀ he h ↦ he h.symm) id)⟩
  | clearFiles k hash =>
    exact ⟨p, consistent_setWorker hc (fun _ _ _ ↦ rfl), hsame rfl rfl rfl rfl (.inl rfl)⟩
  | clearTasks k hk => exact ⟨p, consistent_clearTasks hc hk, hsame rfl rfl rfl rfl (.inl rfl)⟩
  | disconnect k hlea hk =>
    exact ⟨p, consistent_disconnect hc hk, hsame rfl rfl rfl rfl (.inr ⟨_, rfl, fun _ ↦ id, id⟩)⟩
  | connect now q hq =>
    exact ⟨p, consistent_connect hc now hq, hsame rfl rfl rfl rfl (.inr ⟨_, rfl, fun _ ↦ id, id⟩)⟩
  | rotate => exact ⟨p, consistent_rotate hc, hsame rfl rfl rfl rfl (.inl rfl)⟩
  | forget k => exact ⟨p, consistent_forget hc, hsame rfl rfl rfl rfl (.inr ⟨_, rfl, fun _ ↦ id, id⟩)⟩
  | supply | fetch | answer | collect =>
    exact ⟨p, consistent_same hc, hsame rfl rfl rfl rfl (.inr ⟨_, rfl, fun _ ↦ id, id⟩)⟩

theorem hushed_dated {c : Key} {q : Option Place} (h : ReflTransGen (Quiet c) s s')
    (hm : Steadily s.env) (hD : Dated s q r) : s'.env = s.env ∧ Dated s' q r := by
  induction h with
  | refl => exact ⟨rfl, hD⟩
  | tail _ hq ih => exact ⟨(quiet_env hq).trans ih.1, dated_quiet hq (ih.1 ▸ hm) ih.2⟩

theorem datable_turn (h : Turn σ d s s') (hm : Steadily s.env) (hs : Datable s) : Datable s' := by
  obtain ⟨p, hc, hD⟩ := hs
  have hsame : ∀ {u : State}, u.env = s.env → u.calls = s.calls → u.heap = s.heap →
      u.allocated = s.allocated →
      (u.trace = s.trace ∨ ∃ e, u.trace = s.trace ++ [e] ∧ (∀ r, ¬ Dates r e) ∧ ¬ Ticks e) →
      ∀ r, Dated u (p r) r := by
    intro u henv hcalls hheap ha ht r
    refine dated_other (hD r) hm henv hcalls.ge (by rw [hheap]) ha.ge ?_
    exact ht.imp_right (fun ⟨e, he, hd, hn⟩ ↦ ⟨e, he, hd r, hn⟩)
  cases h with
  | step h => exact datable_step h hm ⟨p, hc, hD⟩
  | create command =>
    refine ⟨p, consistent_create hc command, fun r ↦ ?_⟩
    refine dated_other (hD r) hm rfl le_rfl ?_ (Nat.le_succ _) (.inl rfl)
    by_cases he : r = s.allocated
    · rw [(hD r).fresh he.ge, he]
      simp [create, workQueueTaskCreate, stamps]
    · simp [create, he]
  | submit now r hr hi hl hn hread =>
    obtain ⟨q, hq, hnone⟩ := hn
    refine ⟨_, consistent_submit hq hnone hr hi now, dated_update
      (dated_submit (hD r).leave hr hread) (fun r₀ he ↦ ?_)⟩
    rw [hq.unique hc r₀]
    refine dated_other (hD r₀) hm rfl le_rfl ?_ le_rfl (.inr ⟨_, rfl, fun h ↦ he h.symm, id⟩)
    rw [show (submitTask now r s).heap r₀ = s.heap r₀ from Function.update_of_ne he _ _]
  | handOver r hr =>
    refine ⟨_, consistent_handOver _ _ hc hr, ?_⟩
    have hall := hsame (u := handOver (s.heap r).taskid r (s.heap r) (popComplete s)) rfl rfl rfl rfl
      (.inr ⟨_, rfl, fun _ ↦ id, id⟩)
    exact dated_update (hall r).leave (fun r₀ _ ↦ hall r₀)
  | release k r hr =>
    have hall := hsame (u := release k r s) rfl rfl rfl rfl (.inl rfl)
    exact ⟨_, consistent_release hc hr, dated_update (hall r).leave (fun r₀ _ ↦ hall r₀)⟩
  | unready r hr =>
    have hall := hsame (u := { s with readyList := s.readyList.erase r }) rfl rfl rfl rfl (.inl rfl)
    exact ⟨_, consistent_unready hc hr, dated_update (hall r).leave (fun r₀ _ ↦ hall r₀)⟩
  | uncomplete r hr =>
    have hall := hsame (u := { s with completeList := s.completeList.erase r }) rfl rfl rfl rfl (.inl rfl)
    exact ⟨_, consistent_uncomplete hc hr, dated_update (hall r).leave (fun r₀ _ ↦ hall r₀)⟩
  | clearLists =>
    refine ⟨_, consistent_clearLists hc, fun r ↦ ?_⟩
    have hall := hsame (u := clearLists s) rfl rfl rfl rfl (.inl rfl) r
    unfold held
    split
    · exact hall.leave
    · exact hall
  | drop u k r hd hr hq =>
    have hall : ∀ r₀, Dated (dropFromWorker k (s.heap r).taskid (s.heap r) u) (p r₀) r₀ := by
      intro r₀
      have hdrop := hsame (u := dropTask (s.heap r).taskid s) rfl rfl rfl rfl (.inl rfl) r₀
      obtain ⟨henv, hu⟩ := hushed_dated hq hm hdrop
      exact dated_other hu (henv ▸ hm) rfl le_rfl rfl le_rfl (.inl rfl)
    exact ⟨_, consistent_drop hc hr hq _, dated_update (hall r).leave (fun r₀ _ ↦ hall r₀)⟩
  | gaveUp | withdraw | kill | withdrawAll =>
    exact ⟨p, consistent_same hc, hsame rfl rfl rfl rfl (.inr ⟨_, rfl, fun _ ↦ id, id⟩)⟩

theorem datable_newQueue (env : Environment) : Datable (newQueue env) := by
  obtain ⟨⟨p, hp⟩, -⟩ := sound_newQueue env
  refine ⟨p, hp.consistent, fun r ↦ ?_⟩
  rw [(sizes_eq_zero_iff hp.consistent).mp rfl r]
  refine ⟨Nat.zero_le _, ⟨le_rfl, le_rfl, by rintro b ⟨⟩, by rintro b c ⟨⟩⟩,
    ⟨rfl, rfl, by rintro b ⟨⟩, by rintro c ⟨⟩, fun _ ↦ le_rfl⟩, fun h ↦ absurd rfl h,
    fun h ↦ absurd rfl h, by rintro ⟨⟩, fun _ ↦ rfl⟩

theorem datable_turns (h : ReflTransGen (Turn σ d) (newQueue env) s) (hm : Steadily env) :
    s.env = env ∧ Datable s := by
  induction h with
  | refl => exact ⟨rfl, datable_newQueue env⟩
  | tail _ ht ih => exact ⟨(turn_env ht).trans ih.1, datable_turn ht (ih.1 ▸ hm) ih.2⟩

theorem handed_dated {t : State} (h : Handed env s' r t) (hm : Steadily env) :
    t.env = env ∧ Dated t (some .complete) r ∧ ledger r s'.trace = ledger r t.trace := by
  obtain ⟨henv, p, hc, hD⟩ := datable_turns h.turns hm
  refine ⟨henv, (hc.complete r).mp h.complete ▸ hD r, ?_⟩
  rw [h.trace, ledger_append]
  rfl

def nanos (t : GoTime) : ℤ := t.sec * 1000000000 + t.nsec

/-- The first time is not after the second one, as `time.Time` compares them. -/
def UpTo (t u : GoTime) : Prop := t.sec < u.sec ∨ t.sec = u.sec ∧ t.nsec ≤ u.nsec

theorem convTime_eq {a : ℕ} (h : a < 2 ^ 63) :
    convTime a = ⟨a / 1000000, a % 1000000 * 1000⟩ := by
  have hint : int64 a = a := by
    unfold int64
    omega
  have ha : (0 : ℤ) ≤ a := Int.natCast_nonneg a
  simp only [convTime, timeUnix, hint, Int.tdiv_eq_ediv_of_nonneg ha, Int.tmod_eq_emod_of_nonneg ha,
    GoTime.mk.injEq]
  omega

theorem nanos_convTime {a : ℕ} (h : a < 2 ^ 63) : nanos (convTime a) = 1000 * a := by
  rw [convTime_eq h]
  simp only [nanos]
  omega

theorem upTo_convTime {a b : ℕ} (h : b < 2 ^ 63) (hab : a ≤ b) : UpTo (convTime a) (convTime b) := by
  rw [convTime_eq h, convTime_eq (hab.trans_lt h)]
  simp only [UpTo]
  omega

/-- The times that a task is returned with are the readings of the clock at the
events of its last submission, and they are in order. -/
structure Timely (l : Ledger) (g : GoTask) : Prop where
  submitted : nanos g.submitted = 1000 * l.submitted
  committed : ∃ b, l.committed = some b ∧ nanos g.committed = 1000 * b
  finished : ∃ c, l.finished = some c ∧ nanos g.finished = 1000 * c
  ordered : UpTo g.submitted g.committed ∧ UpTo g.committed g.finished

/-- A task that is given up as failed gets no new time of completion. -/
theorem wait_returns_timely_iff (h : Reachable ok env s) (hm : Steadily env)
    (hb : ∀ c, (env.answers c).now < 2 ^ 63) {n : ℕ} (hw : wait n s = .done (some r) s') :
    Timely (ledger r s'.trace) (s'.goHeap r) ↔ (ledger r s'.trace).failed = false := by
  obtain ⟨t, ht⟩ := handed_of_wait h hw
  obtain ⟨henv, hD, hl⟩ := handed_dated ht hm
  rw [hl, ht.go]
  obtain ⟨hcom, hiff⟩ := hD.complete rfl
  constructor
  · intro hT
    obtain ⟨c, hc, -⟩ := hT.finished
    rw [hiff, hc]
    exact Option.some_ne_none c
  · intro hf
    obtain ⟨b, hb'⟩ := Option.ne_none_iff_exists'.mp hcom
    obtain ⟨c, hc⟩ := Option.ne_none_iff_exists'.mp (hiff.mp hf)
    obtain ⟨hsb, hbn⟩ := hD.ordered.committed b hb'
    obtain ⟨hbc, hcn⟩ := hD.ordered.finished b c hb' hc
    have hnow : (ledger r t.trace).now < 2 ^ 63 := hD.clock.trans_lt (henv ▸ hb _)
    simp only [update, hD.agrees.submitted, hD.agrees.committed b hb', hD.agrees.finished c hc]
    have hlt : b < 2 ^ 63 ∧ c < 2 ^ 63 := ⟨hbn.trans_lt hnow, hcn.trans_lt hnow⟩
    exact ⟨nanos_convTime (hsb.trans_lt hlt.1), ⟨b, hb', nanos_convTime hlt.1⟩,
      ⟨c, hc, nanos_convTime hlt.2⟩, upTo_convTime hlt.1 hsb, upTo_convTime hlt.2 hbc⟩

/-- A worker that takes five microseconds for its task, while the clock goes on
from call to call. -/
def lasting : Environment :=
  let env := alone (lines ["workqueue 3 host linux x86 4", "resource workers 0 0 1 0 0",
    "available_results", "result 7 0 5 1", "end"])
  { env with answers := fun c ↦ { env.answers c with now := min (c + 1) 1000 } }

theorem steadily_lasting : Steadily lasting := by
  intro c c' h
  show min (c + 1) 1000 ≤ min (c' + 1) 1000
  omega

theorem wait_returns_timely_lasting :
    ∃ s', wait 20 (oneTask lasting []) = .done (some 0) s' ∧ (s'.goHeap 0).submitted = ⟨0, 1000⟩ ∧
      (s'.goHeap 0).committed = ⟨0, 19000⟩ ∧ (s'.goHeap 0).finished = ⟨0, 47000⟩ ∧
      Timely (ledger 0 s'.trace) (s'.goHeap 0) := by
  obtain ⟨x, s', hw, ht⟩ := exists_of_returns (f := wait) (n := 20) (s := oneTask lasting [])
    (t := fun x s' ↦ decide (x = some 0 ∧ (ledger 0 s'.trace).failed = false ∧
      (s'.goHeap 0).submitted = ⟨0, 1000⟩ ∧ (s'.goHeap 0).committed = ⟨0, 19000⟩ ∧
      (s'.goHeap 0).finished = ⟨0, 47000⟩)) (by decide +kernel)
  obtain ⟨rfl, hf, hs, hc, hd⟩ := of_decide_eq_true ht
  refine ⟨s', hw, hs, hc, hd, (wait_returns_timely_iff (reachable_oneTask lasting [])
    steadily_lasting (fun c ↦ ?_) hw).mpr hf⟩
  show min (c + 1) 1000 < 2 ^ 63
  omega

/-- The input cannot be opened. -/
theorem wait_returns_untimely :
    Reachable (fun _ _ ↦ True) (supplying false) (oneFile (supplying false) withInput) ∧
      Steadily (supplying false) ∧
      ∃ s', wait 20 (oneFile (supplying false) withInput) = .done (some 0) s' ∧
        (s'.goHeap 0).finished = ⟨0, 0⟩ ∧ (s'.goHeap 0).submitted = ⟨0, 1000⟩ ∧
        ¬ UpTo (s'.goHeap 0).committed (s'.goHeap 0).finished ∧
        ¬ Timely (ledger 0 s'.trace) (s'.goHeap 0) := by
  refine ⟨reachable_withInput, monotone_const, ?_⟩
  obtain ⟨x, s', hw, ht⟩ := exists_of_returns (f := wait) (n := 20)
    (s := oneFile (supplying false) withInput) (t := fun x s' ↦ decide (x = some 0 ∧
      (s'.goHeap 0).finished = ⟨0, 0⟩ ∧ (s'.goHeap 0).submitted = ⟨0, 1000⟩ ∧
      (s'.goHeap 0).committed = ⟨0, 1000⟩)) (by decide +kernel)
  obtain ⟨rfl, hf, hs, hc⟩ := of_decide_eq_true ht
  have hn : ¬ UpTo (s'.goHeap 0).committed (s'.goHeap 0).finished := by
    rw [hf, hc]
    rintro (h | h)
    · exact absurd h (by decide)
    · exact absurd h.2 (by decide)
  exact ⟨s', hw, hf, hs, hn, fun h ↦ hn h.ordered.2⟩

theorem duration_le (t : ℕ) : int64 (int64 t * 1000) ≤ 1000 * t := by
  unfold int64
  omega

theorem duration_eq {t : ℕ} (h : 1000 * t < 2 ^ 63) : int64 (int64 t * 1000) = 1000 * t := by
  unfold int64
  omega

/-- As long as no time is charged outside of a running attempt, a task is not
charged with more than its attempts took, and the conversion is exact. -/
theorem wait_charges_once (h : Reachable ok env s) (hm : Steadily env) {n : ℕ}
    (hw : wait n s = .done (some r) s') (hd : (ledger r s'.trace).doubled = false) :
    (s'.goHeap r).totalExecTime ≤ 1000 * (ledger r s'.trace).spent ∧
      (1000 * (ledger r s'.trace).spent < 2 ^ 63 →
        (s'.goHeap r).totalExecTime = 1000 * (s'.heap r).totalCmdExecutionTime) := by
  obtain ⟨t, ht⟩ := handed_of_wait h hw
  obtain ⟨-, hD, hl⟩ := handed_dated ht hm
  rw [hl] at hd ⊢
  have htotal := hD.agrees.total hd
  rw [ht.go, ht.heap]
  constructor
  · have hle := duration_le (t.heap r).totalCmdExecutionTime
    simp only [update]
    omega
  · intro hlt
    exact duration_eq (by omega)

theorem wait_charges_once_lasting :
    ∃ s', wait 20 (oneTask lasting []) = .done (some 0) s' ∧ (ledger 0 s'.trace).spent = 18 ∧
      (s'.goHeap 0).totalExecTime = 5000 ∧
      (s'.goHeap 0).totalExecTime ≤ 1000 * (ledger 0 s'.trace).spent := by
  obtain ⟨x, s', hw, ht⟩ := exists_of_returns (f := wait) (n := 20) (s := oneTask lasting [])
    (t := fun x s' ↦ decide (x = some 0 ∧ (ledger 0 s'.trace).doubled = false ∧
      (ledger 0 s'.trace).spent = 18 ∧ (s'.goHeap 0).totalExecTime = 5000)) (by decide +kernel)
  obtain ⟨rfl, hd, hs, ht⟩ := of_decide_eq_true ht
  exact ⟨s', hw, hs, ht, (wait_charges_once (reachable_oneTask lasting []) steadily_lasting hw hd).1⟩

/-- A worker that repeats its result. The clock goes on while the task is
executed. -/
def repeating : Environment :=
  let env := alone (lines ["workqueue 3 host linux x86 4", "resource workers 0 0 1 0 0",
    "available_results", "result 0 0 5000 1", "result 0 0 5000 1", "end"])
  { env with answers := fun c ↦ { env.answers c with now := if c < 30 then 1 else 1001 } }

theorem steadily_repeating : Steadily repeating := by
  intro c c' h
  show (if c < 30 then 1 else 1001) ≤ if c' < 30 then 1 else 1001
  split <;> split <;> omega

/-- The single attempt took 1000 microseconds until its result, and no more
until the end. -/
theorem wait_charges_twice :
    Reachable (fun _ _ ↦ True) repeating (oneTask repeating []) ∧ Steadily repeating ∧
      ∃ s', wait 20 (oneTask repeating []) = .done (some 0) s' ∧
        (ledger 0 s'.trace).started = 1 ∧ (ledger 0 s'.trace).now = 1001 ∧
        (ledger 0 s'.trace).spent = 1000 ∧ (s'.goHeap 0).nSubmissions = 1 ∧
        (s'.goHeap 0).totalExecTime = 2000000 := by
  refine ⟨reachable_oneTask _ _, steadily_repeating, ?_⟩
  obtain ⟨x, s', hw, ht⟩ := exists_of_returns (f := wait) (n := 20) (s := oneTask repeating [])
    (t := fun x s' ↦ decide (x = some 0 ∧ (ledger 0 s'.trace).started = 1 ∧
      (ledger 0 s'.trace).now = 1001 ∧ (ledger 0 s'.trace).spent = 1000 ∧
      (s'.goHeap 0).nSubmissions = 1 ∧ (s'.goHeap 0).totalExecTime = 2000000)) (by decide +kernel)
  obtain ⟨rfl, h⟩ := of_decide_eq_true ht
  exact ⟨s', hw, h⟩

end Cyque.Timing
