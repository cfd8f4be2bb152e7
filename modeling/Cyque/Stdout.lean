import Cyque.Library.Memory
import Cyque.Slots
import Cyque.Removal
import Mathlib.Data.List.TakeWhile

namespace Cyque.Stdout

open Library.Execution Library.Lookup Library.Scanning Library.Memory Queue Link Workers Transfer
open Dispatch Wait Api Run Footprint Conduct Agreement Slots Removal

variable {k : Key} {r : Ref} {w : Worker} {s : State} {outputLength : ℤ}

/-- The array `items` with the words that `sscanf` stores in its rows, each with
a zero behind it. -/
def items (f : ResultFields) : Buffer Char :=
  (((⟨3 * workQueueProtocolFieldMax, []⟩ : Buffer Char).copy 0 (f.status ++ ['\x00'])).copy
    workQueueProtocolFieldMax (f.outputLength ++ ['\x00'])).copy
    (2 * workQueueProtocolFieldMax : ℕ) (f.executionTime ++ ['\x00'])

theorem inside_items (f : ResultFields) : (items f).Inside ↔
    f.status.length < 3 * workQueueProtocolFieldMax ∧ f.outputLength.length < 2 * workQueueProtocolFieldMax ∧
      f.executionTime.length < workQueueProtocolFieldMax := by
  have hempty := Buffer.inside_nil (α := Char) (3 * workQueueProtocolFieldMax)
  simp only [items, Buffer.inside_copy, Buffer.size_copy, hempty, List.append_eq_nil_iff, List.length_append,
    List.length_singleton, reduceCtorEq, and_false, false_or, true_and]
  omega

theorem hasAt_spill {b : Buffer Char} {i : ℤ} {field next : Text}
    (hrow : b.HasAt i ((field ++ ['\x00']).take workQueueProtocolFieldMax))
    (hnext : b.HasAt (i + workQueueProtocolFieldMax) (next ++ ['\x00'])) :
    b.HasAt i (spill field next ++ ['\x00']) := by
  unfold spill
  split
  · rename_i hlt
    rwa [List.take_of_length_le (by rw [List.length_append]; exact hlt)] at hrow
  · rename_i hge
    rw [List.take_append_of_le_length (by omega)] at hrow
    rw [List.append_assoc]
    refine hrow.append ?_
    rwa [List.length_take, Nat.min_eq_left (by omega)]

/-- The strings that are read from the rows are those that are in the array. -/
theorem items_hasAt (f : ResultFields) :
    (items f).HasAt 0 (spill f.status (spill f.outputLength f.executionTime) ++ ['\x00']) ∧
    (items f).HasAt workQueueProtocolFieldMax (spill f.outputLength f.executionTime ++ ['\x00']) ∧
    (items f).HasAt (2 * workQueueProtocolFieldMax : ℕ) (f.executionTime ++ ['\x00']) := by
  have hrow : ∀ {n : ℕ} (cs : Text), ((cs ++ ['\x00']).take n).length ≤ n := fun _ ↦ List.length_take_le _ _
  have hlast : (items f).HasAt (2 * workQueueProtocolFieldMax : ℕ) (f.executionTime ++ ['\x00']) :=
    Buffer.hasAt_copy _
  have hmiddle : (items f).HasAt workQueueProtocolFieldMax
      (spill f.outputLength f.executionTime ++ ['\x00']) := by
    refine hasAt_spill (((Buffer.hasAt_copy _).take _).copy ?_ _) hlast
    have := hrow (n := workQueueProtocolFieldMax) f.outputLength
    omega
  refine ⟨hasAt_spill ((((Buffer.hasAt_copy _).take _).copy ?_ _).copy ?_ _) ?_, hmiddle, hlast⟩
  · have := hrow (n := workQueueProtocolFieldMax) f.status
    omega
  · have := hrow (n := workQueueProtocolFieldMax) f.status
    omega
  · rwa [zero_add]

/-- `receiveStdout` together with the buffer that takes the output. There is
none when the allocation fails. -/
def storeStdout (k : Key) (r : Ref) (outputLength : ℤ) : M (Bool × Option (Buffer Char)) := do
  let retrieved := min outputLength maxTaskStdoutStorage
  when (maxTaskStdoutStorage < outputLength) (setTask r (mark stdoutMissing))
  match malloc Char (retrieved + 1) with
  | none =>
    linkSoak k outputLength
    setTask r (fun t ↦ { t with output := none })
    setTask r (mark stdoutMissing)
    pure (true, none)
  | some output =>
    if 0 < retrieved then
      let got ← linkRead k retrieved.toNat
      let output := output.copy 0 got.2
      if got.1 ≠ retrieved then
        setTask r (fun t ↦ { t with output := some got.2 })
        pure (false, some (output.put got.1 '\x00'))
      else if retrieved < outputLength then
        linkSoak k (outputLength - retrieved)
        let notice := truncateMsg (outputLength - retrieved)
        setTask r (fun t ↦
          { t with output := some (got.2.take (maxTaskStdoutStorage - notice.length) ++ notice) })
        pure (true, some ((output.copy (maxTaskStdoutStorage - notice.length) notice).put got.1 '\x00'))
      else
        setTask r (fun t ↦ { t with output := some got.2 })
        pure (true, some (output.put got.1 '\x00'))
    else
      setTask r (fun t ↦ { t with output := some [] })
      pure (true, some (output.put 0 '\x00'))

/-- `processResult` together with the buffer of the task's output. -/
def storeResult (k : Key) (line : Text) : M (ℤ × Option (Buffer Char)) := do
  match parseResult line with
  | none => pure (workerFailure, none)
  | some l =>
    let w ← worker k
    match w.currentTasks.lookup l.taskid with
    | none =>
      linkSoak k l.outputLength
      pure (success, none)
    | some r =>
      let received ← timestampGet
      let now ← timestampGet
      modify (charge received now l.executionTime k r)
      let p ← storeStdout k r l.outputLength
      if p.1 then
        let now ← timestampGet
        modify (finish now k line l r)
        pure (success, p.2)
      else pure (workerFailure, p.2)

theorem extends_storeStdout (outputLength : ℤ) :
    Extends (storeStdout k r outputLength) (receiveStdout k r outputLength) := by
  refine .bind (fun _ ↦ ?_)
  by_cases hsize : min outputLength maxTaskStdoutStorage + 1 < 0
  · rw [malloc, if_pos hsize, if_pos hsize]
    exact .bind (fun _ ↦ .bind (fun _ ↦ .bind (fun _ ↦ .pure _ _)))
  · rw [malloc, if_neg hsize, if_neg hsize]
    refine .ite (.bind (fun got ↦ .ite (.bind (fun _ ↦ .pure _ _)) (.ite ?_ ?_))) ?_
    · exact .bind (fun _ ↦ .bind (fun _ ↦ .pure _ _))
    · exact .bind (fun _ ↦ .pure _ _)
    · exact .bind (fun _ ↦ .pure _ _)

theorem extends_storeResult (line : Text) : Extends (storeResult k line) (processResult k line) := by
  unfold storeResult processResult
  cases parseResult line with
  | none => exact .pure _ _
  | some l =>
    refine .bind (fun w ↦ ?_)
    cases w.currentTasks.lookup l.taskid with
    | none => exact .bind (fun _ ↦ .pure _ _)
    | some r =>
      refine .bind (fun received ↦ .bind (fun now ↦ .bind (fun _ ↦ ?_)))
      refine .seq (extends_storeStdout _) (fun p ↦ .ite ?_ (.pure _ _))
      exact .bind (fun now ↦ .bind (fun _ ↦ .pure _ _))

/-- The bytes of the output arrive in part at least, or the link is closed.
Otherwise `link_read` returns `-1`. -/
def Answered (w : Worker) (a : Answer) : Prop := w.incoming ≠ [] ∧ 0 < a.arrived ∨ a.closed = true

/-- What is known of the buffer when the output has been received. -/
structure Stored (s : State) (w : Worker) (r : Ref) (outputLength : ℤ)
    (p : Bool × Option (Buffer Char)) (s' : State) : Prop where
  size : ∀ b, p.2 = some b → (b.size : ℤ) = min outputLength maxTaskStdoutStorage + 1
  inside : (∀ b, p.2 = some b → b.Inside) ↔
    outputLength ≠ -1 ∧ (0 < outputLength → Answered w (s.env.answers s.calls))
  text : p.1 = true → ∀ b, p.2 = some b → ∃ output, (s'.heap r).output = some output ∧
    b.HasAt 0 (output ++ ['\x00'])

theorem length_showInt_le {i : ℤ} (h₀ : 0 ≤ i) (h : i < 10 ^ 19) : (showInt i).length ≤ 19 := by
  obtain ⟨m, rfl⟩ := Int.eq_ofNat_of_zero_le h₀
  show (Nat.toDigits 10 m).length ≤ 19
  rw [Nat.length_toDigits_le_iff (by decide) (by decide)]
  exact_mod_cast h

theorem maxTaskStdoutStorage_eq : maxTaskStdoutStorage = 1073741824 := by norm_num

theorem length_truncateMsg_le {dropped : ℤ} (h₀ : 0 ≤ dropped) (h : dropped < 10 ^ 19) :
    (truncateMsg dropped).length ≤ 400 := by
  have hfive : ∀ a b c d e : Text, a.length ≤ 100 → b.length ≤ 19 → c.length ≤ 100 → d.length ≤ 19 →
      e.length ≤ 100 → (a ++ b ++ c ++ d ++ e).length ≤ 400 := by
    intro a b c d e
    simp only [List.length_append]
    omega
  refine hfive _ _ _ _ _ (by decide) ?_ (by decide) (length_showInt_le h₀ h) (by decide)
  exact length_showInt_le (Int.natCast_nonneg _) (by norm_num)

theorem atoll_lt (t : Text) : atoll t < 2 ^ 63 := by
  unfold atoll
  split
  · unfold saturate
    omega
  · decide

theorem outputLength_lt {line : Text} {l : ResultLine} (h : parseResult line = some l) :
    l.outputLength < 2 ^ 63 := by
  obtain ⟨f, -, rfl⟩ := Option.map_eq_some_iff.mp h
  exact atoll_lt _

def arriving (w : Worker) (a : Answer) (count : ℕ) : Text := w.incoming.take (min count a.arrived)

def received (w : Worker) (a : Answer) (count : ℕ) : ℤ × Text :=
  if arriving w a count = [] then (if a.closed then 0 else -1, [])
  else ((arriving w a count).length, arriving w a count)

theorem linkRead_apply (hw : s.workerTable.lookup k = some w) {count : ℕ} (hc : 0 < count) (n : ℕ) :
    linkRead k count n s = .done (received w (s.env.answers s.calls) count)
      (({ s with calls := s.calls + 1 } : State).setWorker k (fun v ↦ { v with
        incoming := v.incoming.drop (arriving w (s.env.answers s.calls) count).length })) := by
  have hzero : ¬ count = 0 := by omega
  simp only [linkRead, bind_apply, worker_apply hw, received, hzero, false_or]
  show (ite _ _ _ : M (ℤ × Text)) n _ = _
  rw [← arriving]
  split
  · rfl
  · rfl

theorem received_cases (w : Worker) (a : Answer) {count : ℕ} (hc : 0 < count) :
    Answered w a ∧ (received w a count).1 = (received w a count).2.length ∧
        (received w a count).2.length ≤ count ∨
      ¬ Answered w a ∧ received w a count = (-1, []) := by
  by_cases hb : arriving w a count = []
  · have he : received w a count = (if a.closed then 0 else -1, []) := if_pos hb
    rw [he]
    cases hcl : a.closed with
    | true => exact .inl ⟨.inr hcl, rfl, Nat.zero_le _⟩
    | false =>
      refine .inr ⟨?_, rfl⟩
      rintro (⟨hi, ha⟩ | h)
      · rcases List.take_eq_nil_iff.mp hb with hb | hb
        · omega
        · exact hi hb
      · rw [hcl] at h
        cases h
  · have he : received w a count = (((arriving w a count).length : ℤ), arriving w a count) := if_neg hb
    rw [he]
    rw [arriving, List.take_eq_nil_iff, not_or] at hb
    refine .inl ⟨.inl ⟨hb.2, by omega⟩, rfl, ?_⟩
    exact (List.length_take_le _ _).trans (Nat.min_le_left _ _)

theorem lookup_setWorker (hw : s.workerTable.lookup k = some w) (f : Worker → Worker) (calls : ℕ) :
    (({ s with calls := calls } : State).setWorker k f).workerTable.lookup k = some (f w) := by
  rw [State.setWorker, Table.lookup_alter, if_pos rfl, hw]
  rfl

theorem when_setTask_apply (c : Prop) [Decidable c] (f : Task → Task) (n : ℕ) (s : State) :
    when c (setTask r f) n s = .done () (if c then s.setTask r f else s) := by
  unfold when
  split
  · rfl
  · rfl

theorem inside_put_copy {size : ℤ} {text : Text} (h : text.length < size) :
    (((⟨size.toNat, []⟩ : Buffer Char).copy 0 text).put text.length '\x00').Inside := by
  rw [Buffer.inside_put, Buffer.inside_copy, Buffer.size_copy]
  refine ⟨⟨Buffer.inside_nil _, .inr ⟨le_rfl, ?_⟩⟩, Int.natCast_nonneg _, ?_⟩
  · show (0 : ℤ) + text.length ≤ size.toNat
    omega
  · show (text.length : ℤ) < size.toNat
    omega

theorem inside_put_copy_copy {size : ℤ} {text notice : Text} (h : text.length < size)
    (hn : notice.length ≤ text.length) :
    ((((⟨size.toNat, []⟩ : Buffer Char).copy 0 text).copy (text.length - notice.length) notice).put
      text.length '\x00').Inside := by
  simp only [Buffer.inside_put, Buffer.inside_copy, Buffer.size_copy]
  refine ⟨⟨⟨Buffer.inside_nil _, .inr ⟨le_rfl, ?_⟩⟩, .inr ⟨by omega, ?_⟩⟩, Int.natCast_nonneg _, ?_⟩
  · show (0 : ℤ) + text.length ≤ size.toNat
    omega
  · show (text.length : ℤ) - notice.length + notice.length ≤ size.toNat
    omega
  · show (text.length : ℤ) < size.toNat
    omega

theorem Stored.of_inside {s' : State} {ok : Bool} {b : Buffer Char} (hne : outputLength ≠ -1)
    (ha : 0 < outputLength → Answered w (s.env.answers s.calls))
    (hsize : (b.size : ℤ) = min outputLength maxTaskStdoutStorage + 1) (hin : b.Inside)
    (htext : ok = true → ∃ output, (s'.heap r).output = some output ∧
      b.HasAt 0 (output ++ ['\x00'])) : Stored s w r outputLength (ok, some b) s' := by
  refine ⟨?_, iff_of_true ?_ ⟨hne, ha⟩, ?_⟩
  · rintro _ ⟨⟩
    exact hsize
  · rintro _ ⟨⟩
    exact hin
  · rintro h _ ⟨⟩
    exact htext h

theorem spec_storeStdout (hw : s.workerTable.lookup k = some w) (hl : outputLength < 2 ^ 63) :
    Spec (fun t ↦ t = s) (storeStdout k r outputLength)
      (fun s p s' ↦ Stored s w r outputLength p s') := by
  have hmax := maxTaskStdoutStorage_eq
  let s₁ : State := if maxTaskStdoutStorage < outputLength then s.setTask r (mark stdoutMissing) else s
  have hw₁ : s₁.workerTable.lookup k = some w := by
    dsimp only [s₁]
    split
    · exact hw
    · exact hw
  have hanswer : s₁.env.answers s₁.calls = s.env.answers s.calls := by
    dsimp only [s₁]
    split
    · rfl
    · rfl
  have hfirst : ∀ n, when (maxTaskStdoutStorage < outputLength) (setTask r (mark stdoutMissing)) n s =
      .done () s₁ := fun n ↦ when_setTask_apply _ _ n s
  refine Spec.run hfirst ?_
  by_cases hsize : min outputLength maxTaskStdoutStorage + 1 < 0
  · rw [malloc, if_pos hsize]
    refine Spec.run (linkSoak_apply hw₁ _) (Spec.run (fun _ ↦ rfl) (Spec.run (fun _ ↦ rfl) ?_))
    refine Spec.pure _ (fun _ _ ↦ ⟨?_, iff_of_true ?_ ⟨by omega, by omega⟩, ?_⟩)
    · rintro b ⟨⟩
    · rintro b ⟨⟩
    · rintro _ b ⟨⟩
  have hfresh : ∀ text : Text, ((((⟨(min outputLength maxTaskStdoutStorage + 1).toNat, []⟩ :
      Buffer Char).copy 0 text).size : ℕ) : ℤ) = min outputLength maxTaskStdoutStorage + 1 := by
    intro text
    rw [Buffer.size_copy]
    show (((min outputLength maxTaskStdoutStorage + 1).toNat : ℕ) : ℤ) = _
    omega
  rw [malloc, if_neg hsize]
  by_cases hpos : 0 < min outputLength maxTaskStdoutStorage
  · have hcount : 0 < (min outputLength maxTaskStdoutStorage).toNat := by omega
    refine Spec.ite (fun _ ↦ ?_) (fun h ↦ absurd hpos h)
    refine Spec.run (linkRead_apply hw₁ hcount) ?_
    rw [hanswer]
    obtain ⟨ha, hgot, hle⟩ | ⟨ha, hgot⟩ := received_cases w (s.env.answers s.calls) hcount
    · generalize received w (s.env.answers s.calls) (min outputLength maxTaskStdoutStorage).toNat = got
        at hgot hle
      refine Spec.ite (fun hshort ↦ ?_) (fun hall ↦ Spec.ite (fun hlong ↦ ?_) (fun hfit ↦ ?_))
      · refine Spec.run (fun _ ↦ rfl) (Spec.pure _ (fun _ _ ↦ ?_))
        rw [hgot]
        refine .of_inside (by omega) (fun _ ↦ ha) ?_ (inside_put_copy (by omega)) (by rintro ⟨⟩)
        exact hfresh _
      · have hfull : (maxTaskStdoutStorage : ℤ) = got.2.length := by omega
        have hdropped : outputLength - min outputLength maxTaskStdoutStorage < 10 ^ 19 := by omega
        have hnotice := length_truncateMsg_le (by omega) hdropped
        generalize truncateMsg (outputLength - min outputLength maxTaskStdoutStorage) = notice
          at hnotice ⊢
        refine Spec.run (linkSoak_apply (lookup_setWorker hw₁ _ _) _)
          (Spec.run (fun _ ↦ rfl) (Spec.pure _ (fun _ ht ↦ ?_)))
        rw [hgot, hfull]
        have hlen : notice.length ≤ got.2.length := by omega
        refine .of_inside (by omega) (fun _ ↦ ha) ?_ (inside_put_copy_copy (by omega) hlen) (fun _ ↦ ?_)
        · show (((Buffer.copy _ _ _).size : ℕ) : ℤ) = _
          rw [Buffer.size_copy, Buffer.size_copy]
          show (((min outputLength (got.2.length : ℤ) + 1).toNat : ℕ) : ℤ) = _
          omega
        · subst ht
          have hmax' : maxTaskStdoutStorage = got.2.length := by omega
          refine ⟨got.2.take (maxTaskStdoutStorage - notice.length) ++ notice, by simp [State.setTask], ?_⟩
          rw [hmax']
          exact Buffer.hasAt_put_copy_copy _ _ hlen
      · refine Spec.run (fun _ ↦ rfl) (Spec.pure _ (fun _ ht ↦ ?_))
        rw [hgot]
        refine .of_inside (by omega) (fun _ ↦ ha) (hfresh _) (inside_put_copy (by omega)) (fun _ ↦ ?_)
        subst ht
        exact ⟨got.2, by simp [State.setTask], Buffer.hasAt_put_copy _⟩
    · rw [hgot]
      refine Spec.ite (fun _ ↦ ?_) (fun h ↦ absurd (by omega) h)
      refine Spec.run (fun _ ↦ rfl) (Spec.pure _ (fun _ _ ↦ ⟨?_, iff_of_false ?_ ?_, ?_⟩))
      · rintro b ⟨⟩
        show (((min outputLength maxTaskStdoutStorage + 1).toNat : ℕ) : ℤ) = _
        omega
      · intro h
        have := Buffer.inside_put.mp (h _ rfl)
        omega
      · exact fun h ↦ ha (h.2 (by omega))
      · rintro ⟨⟩
  · refine Spec.ite (fun h ↦ absurd h hpos) (fun _ ↦ ?_)
    refine Spec.run (fun _ ↦ rfl) (Spec.pure _ (fun _ ht ↦ ⟨?_, ?_, ?_⟩))
    · rintro b ⟨⟩
      show (((min outputLength maxTaskStdoutStorage + 1).toNat : ℕ) : ℤ) = _
      omega
    · constructor
      · intro h
        have hin := (Buffer.inside_put.mp (h _ rfl)).2.2
        have := hfresh []
        change (0 : ℤ) < ((min outputLength maxTaskStdoutStorage + 1).toNat : ℕ) at hin
        omega
      · rintro ⟨hne, -⟩ b ⟨⟩
        have hempty : (([] : Text).length : ℤ) < min outputLength maxTaskStdoutStorage + 1 := by
          show (0 : ℤ) < _
          omega
        exact inside_put_copy hempty
    · rintro _ b ⟨⟩
      subst ht
      refine ⟨[], by simp [State.setTask], ?_⟩
      exact Buffer.hasAt_put_copy (b := ⟨_, []⟩) []

theorem prompt_linkSoak (length : ℤ) : Prompt (linkSoak k length) :=
  .bind prompt_worker (fun _ ↦ .bind prompt_ask (fun _ ↦ .modify _))

theorem prompt_linkRead (count : ℕ) : Prompt (linkRead k count) :=
  .bind prompt_worker (fun _ ↦ .bind prompt_ask (fun _ ↦ .bind (.modify _) (fun _ ↦
    .ite (.pure _) (.pure _))))

theorem prompt_storeStdout : Prompt (storeStdout k r outputLength) := by
  refine .bind (.when (.modify _)) (fun _ ↦ ?_)
  cases malloc Char (min outputLength maxTaskStdoutStorage + 1) with
  | none =>
    exact .bind (prompt_linkSoak _) (fun _ ↦ .bind (.modify _) (fun _ ↦ .bind (.modify _) (fun _ ↦ .pure _)))
  | some output =>
    refine .ite (.bind (prompt_linkRead _) (fun got ↦ ?_)) (.bind (.modify _) (fun _ ↦ .pure _))
    refine .ite (.bind (.modify _) (fun _ ↦ .pure _)) (.ite ?_ (.bind (.modify _) (fun _ ↦ .pure _)))
    exact .bind (prompt_linkSoak _) (fun _ ↦ .bind (.modify _) (fun _ ↦ .pure _))

theorem goString_some_iff (t : Text) : goString (some t) = t ↔ '\x00' ∉ t := by
  rw [goString, Option.getD_some, cString, List.takeWhile_eq_self_iff]
  constructor
  · intro h hm
    simpa using h _ hm
  · intro h x hx
    exact decide_eq_true (fun h0 ↦ h (h0 ▸ hx))

theorem received_whole {a : Answer} {count : ℕ} (hc : 0 < count) (h : (received w a count).1 = count) :
    (received w a count).2 = w.incoming.take count ∧ (arriving w a count).length = count ∧
      (w.incoming.take count).length = count := by
  by_cases hb : arriving w a count = []
  · rw [received, if_pos hb] at h
    dsimp only at h
    split at h <;> omega
  · rw [received, if_neg hb] at h ⊢
    have hlen : (arriving w a count).length = count := Int.natCast_inj.mp h
    have hmin : min count a.arrived = count := by
      have := (List.length_take_le (min count a.arrived) w.incoming)
      rw [← arriving, hlen] at this
      omega
    have htake : arriving w a count = w.incoming.take count := by rw [arriving, hmin]
    exact ⟨htake, hlen, htake ▸ hlen⟩

/-- Of the length that was announced, the output is stored as it comes from the
link, and the task is returned with it exactly if it has no zero byte. -/
theorem receiveStdout_returns_iff {length n : ℕ} {s' : State} (g : GoTask)
    (hw : s.workerTable.lookup k = some w) (hl : length ≤ maxTaskStdoutStorage)
    (h : receiveStdout k r length n s = .done true s') :
    (w.incoming.take length).length = length ∧ (s'.heap r).output = some (w.incoming.take length) ∧
      (∃ w', s'.workerTable.lookup k = some w' ∧ w'.incoming = w.incoming.drop length) ∧
      ((update (s'.heap r) g).stdout = w.incoming.take length ↔ '\x00' ∉ w.incoming.take length) := by
  suffices hs : (w.incoming.take length).length = length ∧
      (s'.heap r).output = some (w.incoming.take length) ∧
      ∃ w', s'.workerTable.lookup k = some w' ∧ w'.incoming = w.incoming.drop length by
    refine ⟨hs.1, hs.2.1, hs.2.2, ?_⟩
    rw [update, hs.2.1]
    exact goString_some_iff _
  have hmin : min (length : ℤ) maxTaskStdoutStorage = length := min_eq_left (by exact_mod_cast hl)
  have hle : ¬ ((maxTaskStdoutStorage : ℤ) < length) := by exact_mod_cast Nat.not_lt.mpr hl
  unfold receiveStdout at h
  simp only [hmin] at h
  obtain ⟨_, s₁, h₁, h⟩ := bind_eq_done h
  rw [when, if_neg hle] at h₁
  cases h₁
  rw [if_neg (by omega)] at h
  by_cases h₀ : 0 < length
  · rw [if_pos (by exact_mod_cast h₀), Int.toNat_natCast, bind_apply, linkRead_apply hw h₀] at h
    dsimp only at h
    by_cases hg : (received w (s.env.answers s.calls) length).1 = length
    · rw [if_neg (not_not.mpr hg), if_neg (lt_irrefl _)] at h
      obtain ⟨htext, hdrop, hlen⟩ := received_whole h₀ hg
      rw [htext, hdrop] at h
      cases h
      exact ⟨hlen, by simp [State.setTask], _, lookup_setWorker hw _ _, rfl⟩
    · rw [if_pos hg] at h
      cases h
  · rw [if_neg (by exact_mod_cast h₀)] at h
    cases h
    obtain rfl := Nat.eq_zero_of_not_pos h₀
    exact ⟨rfl, by simp [State.setTask], w, hw, rfl⟩

/-- The words of a line are written inside the array of items if and only if they
end there, and the output inside the buffer that is allocated for it if and only
if the length, as it is read from the items, is not `-1`, and something of an
output arrives or the link is closed. -/
theorem stdout_inside_iff {line : Text} {f : ResultFields} (hw : s.workerTable.lookup k = some w)
    (hl : scanResult line = some f) (hr : w.currentTasks.lookup f.parse.taskid = some r) (n : ℕ) :
    ∃ result buffer s', storeResult k line n s = .done (result, buffer) s' ∧
      processResult k line n s = .done result s' ∧
      (∀ b, buffer = some b → (b.size : ℤ) = min f.parse.outputLength maxTaskStdoutStorage + 1) ∧
      ((items f).Inside ↔ f.status.length < 3 * workQueueProtocolFieldMax ∧
        f.outputLength.length < 2 * workQueueProtocolFieldMax ∧
        f.executionTime.length < workQueueProtocolFieldMax) ∧
      ((∀ b, buffer = some b → b.Inside) ↔ f.parse.outputLength ≠ -1 ∧
        (0 < f.parse.outputLength → Answered w (s.env.answers (s.calls + 2)))) := by
  have hparse : parseResult line = some f.parse := by
    rw [parseResult, hl]
    rfl
  have htick : ∀ t : State, timestampGet n t = .done (t.env.answers t.calls).now t.tick := fun _ ↦ rfl
  have hspec := spec_storeStdout (k := k) (r := r)
    (s := charge (s.env.answers s.calls).now (s.tick.env.answers s.tick.calls).now f.parse.executionTime k r
      s.tick.tick) hw (outputLength_lt hparse)
  obtain ⟨⟨ok, buffer⟩, s₂, hrun, hstored⟩ := hspec.returns prompt_storeStdout rfl n
  have hcode : storeResult k line n s =
      (if ok then do
        let now ← timestampGet
        modify (finish now k line f.parse r)
        pure (success, buffer)
      else pure (workerFailure, buffer) : M (ℤ × Option (Buffer Char))) n s₂ := by
    simp only [storeResult, hparse, bind_apply, worker_apply hw, hr, htick, modify_apply]
    rw [hrun]
  have hdone : ∃ result s', storeResult k line n s = .done (result, buffer) s' := by
    rw [hcode]
    cases ok with
    | true => exact ⟨_, _, rfl⟩
    | false => exact ⟨_, _, rfl⟩
  obtain ⟨result, s', hd⟩ := hdone
  exact ⟨result, buffer, s', hd, (extends_storeResult line).of_done hd, hstored.size, inside_items f,
    hstored.inside⟩

def outputAhead : Environment := alone (lines ["workqueue 3 host linux x86 4",
  "resource workers 0 0 2 0 0", "available_results", "result 0 0 0 1", "end"] ++ "abc".toList)

theorem stdout_inside_outputAhead :
    ∃ s result b s', Reachable (fun _ _ ↦ True) outputAhead s ∧
      storeResult 1 "result 0 3 0 2".toList 20 s = .done (result, some b) s' ∧
      (s'.heap 1).output = some "abc".toList ∧ (items ⟨"0".toList, "3".toList, "0".toList, 2⟩).Inside ∧
      b.writes ≠ [] ∧ b.Inside := by
  let line := "result 0 3 0 2".toList
  let fields : ResultFields := ⟨"0".toList, "3".toList, "0".toList, 2⟩
  obtain ⟨_, s, hp, ht⟩ := exists_of_returns (f := perform .wait) (n := 20) (s := twoTasks outputAhead)
    (t := fun _ s ↦ ((s.workerTable.lookup 1).any (fun w : Worker ↦
      decide (w.currentTasks.lookup 2 = some 1 ∧ w.incoming ≠ [] ∧ 0 < (s.env.answers (s.calls + 2)).arrived))) &&
        returns (storeResult 1 line) (fun p s' ↦ p.2.any (fun b ↦ b.writes ≠ []) &&
          decide ((s'.heap 1).output = some "abc".toList)) 20 s) (by decide +kernel)
  obtain ⟨hw, ht⟩ := Bool.and_eq_true_iff.mp ht
  obtain ⟨w, hw, hheld⟩ := (Option.any_eq_true _ _).mp hw
  obtain ⟨hr, hi, ha⟩ := of_decide_eq_true hheld
  obtain ⟨p, s', hs, ht⟩ := exists_of_returns ht
  obtain ⟨hb, ho⟩ := Bool.and_eq_true_iff.mp ht
  obtain ⟨b, hb, hne⟩ := (Option.any_eq_true _ _).mp hb
  have hline : scanResult line = some fields := by decide +kernel
  obtain ⟨result, buffer, s'', hd, -, -, hitems, hin⟩ := stdout_inside_iff hw hline hr 20
  rw [hs] at hd
  cases hd
  have hinside := hin.mpr ⟨by decide +kernel, fun _ ↦ .inl ⟨hi, ha⟩⟩
  refine ⟨s, result, b, s', ?_, ?_, of_decide_eq_true ho, hitems.mpr (by decide), of_decide_eq_true hne,
    hinside b hb⟩
  · exact .call (c := .wait) (reachable_twoTasks _ (fun _ _ _ ↦ trivial)) trivial trivial hp
  · rw [hs, ← hb]

def negative : Environment := alone (lines ["workqueue 3 host linux x86 4",
  "resource workers 0 0 1 0 0", "available_results", "result 0 -1 0 1", "end"])

/-- The zero is written behind a buffer of no bytes, or in front of one whose
bytes do not arrive. `Wait` goes on with such a result. -/
theorem stdout_outside :
    (∃ s s' s'' b b', Reachable (fun _ _ ↦ True) twoSlots s ∧
      storeResult 1 "result 0 -1 0 2".toList 20 s = .done (success, some b) s' ∧
      b.size = 0 ∧ b.writes = [(0, '\x00')] ∧ ¬ b.Inside ∧
      storeResult 1 "result 0 5 0 2".toList 20 s = .done (workerFailure, some b') s'' ∧
      b'.size = 6 ∧ b'.writes = [(-1, '\x00')] ∧ ¬ b'.Inside) ∧
    Reachable (fun _ _ ↦ True) negative (oneTask negative []) ∧
      ∃ s', wait 20 (oneTask negative []) = .done (some 0) s' ∧
        .result 1 0 "result 0 -1 0 1".toList ∈ s'.trace := by
  refine ⟨?_, reachable_oneTask _ _, ?_⟩
  · let line := "result 0 -1 0 2".toList
    let line' := "result 0 5 0 2".toList
    let stored (result : ℤ) (b : Buffer Char) (p : ℤ × Option (Buffer Char)) (_ : State) : Bool :=
      decide (p = (result, some b))
    obtain ⟨_, s, hp, ht⟩ := exists_of_returns (f := perform .wait) (n := 20) (s := twoTasks twoSlots)
      (t := fun _ s ↦ returns (storeResult 1 line) (stored success ⟨0, [(0, '\x00')]⟩) 20 s &&
        returns (storeResult 1 line') (stored workerFailure ⟨6, [(-1, '\x00')]⟩) 20 s) (by decide +kernel)
    rw [Bool.and_eq_true] at ht
    obtain ⟨p, s', hs', hb⟩ := exists_of_returns ht.1
    obtain ⟨p', s'', hs'', hb'⟩ := exists_of_returns ht.2
    cases of_decide_eq_true hb
    cases of_decide_eq_true hb'
    refine ⟨s, s', s'', _, _, ?_, hs', rfl, rfl, ?_, hs'', rfl, rfl, ?_⟩
    · exact .call (c := .wait) (reachable_twoTasks _ (fun _ _ _ ↦ trivial)) trivial trivial hp
    · exact fun h ↦ absurd (h _ (List.mem_singleton_self _)).2 (by decide)
    · exact fun h ↦ absurd (h _ (List.mem_singleton_self _)).1 (by decide)
  · obtain ⟨a, s', hw, ht⟩ := exists_of_returns (f := wait) (n := 20) (s := oneTask negative [])
      (t := fun a s' ↦ decide (a = some 0 ∧ .result 1 0 "result 0 -1 0 1".toList ∈ s'.trace))
      (by decide +kernel)
    obtain ⟨rfl, hm⟩ := of_decide_eq_true ht
    exact ⟨s', hw, hm⟩

end Cyque.Stdout
