import Cyque.Footprint

namespace Cyque.Exchange

open Library.Execution Library.Lookup Library.Scanning Queue Link Files Workers Messages Transfer
open Dispatch Footprint Relation

variable {k : Key} {r : Ref}

theorem silent_sendWorkerMsg {m : Msg} (hm : Plain m) : Silent k (sendWorkerMsg k m) :=
  .bind .worker (fun _ ↦ .bind .ask (fun _ ↦
    .bind (.modify (fun s hs ↦ .tell s m hs hm)) (fun _ ↦ .pure _)))

theorem silent_linkReadline (length : ℕ) : Silent k (linkReadline k length) :=
  .bind .worker (fun _ ↦ .bind .ask (fun _ ↦
    .bind (.setWorker (fun _ ↦ rfl) (fun _ ↦ rfl)) (fun _ ↦ .pure _)))

theorem silent_linkRead (count : ℕ) : Silent k (linkRead k count) :=
  .bind .worker (fun _ ↦ .bind .ask (fun _ ↦
    .bind (.setWorker (fun _ ↦ rfl) (fun _ ↦ rfl)) (fun _ ↦ .ite (.pure _) (.pure _))))

theorem silent_linkSoak (length : ℤ) : Silent k (linkSoak k length) :=
  .bind .worker (fun _ ↦ .bind .ask (fun _ ↦ .setWorker (fun _ ↦ rfl) (fun _ ↦ rfl)))

theorem silent_linkStreamToFd (length : ℤ) : Silent k (linkStreamToFd k length) :=
  .bind .worker (fun _ ↦ .bind .ask (fun _ ↦
    .bind (.setWorker (fun _ ↦ rfl) (fun _ ↦ rfl)) (fun _ ↦ .pure _)))

theorem silent_knownWorkers : Silent k knownWorkers :=
  .bind .get (fun _ ↦ .bind .exhaust (fun _ ↦ .pure _))

theorem silent_availableWorkers : Silent k availableWorkers :=
  .bind .get (fun _ ↦ .bind .exhaust (fun _ ↦ .pure _))

theorem silent_logWorkerStats : Silent k logWorkerStats :=
  .bind silent_knownWorkers (fun _ ↦ .bind silent_availableWorkers (fun _ ↦ .pure _))

theorem silent_processWorkqueue (line : Text) : Silent k (processWorkqueue k line) := by
  unfold processWorkqueue
  split
  · exact .ite (.pure _) (.bind (.setWorker (fun _ ↦ rfl) (fun _ ↦ rfl)) (fun _ ↦
      .bind silent_logWorkerStats (fun _ ↦ .pure _)))
  · exact .pure _

theorem silent_processResource (line : Text) : Silent k (processResource k line) := by
  unfold processResource
  split
  · exact .ite (.bind (.setWorker (fun _ ↦ rfl) (fun _ ↦ rfl)) (fun _ ↦
      .bind silent_logWorkerStats (fun _ ↦ .pure _))) (.pure _)
  · exact .bind (.setWorker (fun _ ↦ rfl) (fun _ ↦ rfl)) (fun _ ↦ .pure _)
  · exact .pure _

theorem silent_processQueueStatus (line : Text) : Silent k (processQueueStatus k line) :=
  .bind (.setWorker (fun _ ↦ rfl) (fun _ ↦ rfl)) (fun _ ↦
    .bind (.when (.modify (fun s _ ↦ .walkRunning s s.runningTasks.exhaust rfl))) (fun _ ↦
      .bind .exhaust (fun _ ↦ .pure _)))

theorem silent_processName : Silent k (processName k) :=
  .bind (silent_sendWorkerMsg trivial) (fun _ ↦ .pure _)

theorem silent_recvWorkerMsg : Silent k (recvWorkerMsg k) := by
  refine .bind (silent_linkReadline _) (fun o ↦ ?_)
  cases o with
  | none => exact .pure _
  | some line =>
    refine .bind .timestampGet (fun now ↦ ?_)
    refine .bind (.setWorker (fun _ ↦ rfl) (fun _ ↦ rfl)) (fun _ ↦ ?_)
    refine .bind (.observe trivial) (fun _ ↦ ?_)
    refine .ite (.pure _) (.ite ?_ (.ite ?_ (.ite ?_ (.ite ?_ (.ite (.pure _) (.ite (.pure _)
      (.ite ?_ (.pure _))))))))
    · exact .bind (silent_processWorkqueue line) (fun _ ↦ .pure _)
    · exact .bind (silent_processQueueStatus line) (fun _ ↦ .pure _)
    · exact .bind (.modify (fun s hs ↦ .note s hs)) (fun _ ↦ .pure _)
    · exact .bind (silent_processResource line) (fun _ ↦ .pure _)
    · exact .bind silent_processName (fun _ ↦ .pure _)

theorem silent_recvWorkerMsgRetry : Silent k (recvWorkerMsgRetry k) :=
  .loop _ (fun _ ↦ .bind silent_recvWorkerMsg (fun _ ↦ .ite (.pure _) (.pure _)))

theorem writes_sendWorkerMsg {m : Msg} (hm : Plain m) :
    Writes k (sendWorkerMsg k m) (fun _ es ↦ es = [.sent k m]) :=
  .skip .worker (fun _ ↦ .skip .ask (fun _ ↦
    .map (.log (fun s hs ↦ .tell s m hs hm)) (fun _ _ h ↦ h)))

theorem writes_linkStreamFromFd (length : ℤ) :
    Writes k (linkStreamFromFd k length) (fun _ es ↦ es = []) :=
  .skip .worker (fun _ ↦ .skip .ask (fun _ ↦ .pure rfl))

/-- How sending ends, and what the history then holds: `W` if it was a
success. -/
def SendLog (k : Key) (flags : ℤ) (W : List Event → Prop) (sent : ℤ × ℤ) (es : List Event) : Prop :=
  (∀ e ∈ es, ∀ n, Kept k n e) ∧
    (sent.1 = success ∧ W es ∨ sent.1 = workerFailure ∨
      sent.1 = appFailure ∧ ∃ l n, Event.inaccessible k l n flags ∈ es)

theorem kept_of_observed {e : Event} (he : Observed e) (n : Text) : Kept k n e := by
  constructor <;> rintro rfl <;> exact he

theorem kept_of_plain {m : Msg} (hm : Plain m) (n : Text) : Kept k n (.sent k m) := by
  constructor
  · rintro ⟨⟩
  · intro h
    rw [Event.sent.injEq] at h
    rw [h.2] at hm
    exact hm

theorem writes_giveUp (localname remotename : Text) (flags : ℤ) (W : List Event → Prop) :
    Writes k (giveUp k localname remotename flags) (SendLog k flags W) := by
  refine .map (.observe (by trivial)) ?_
  rintro _ es rfl
  refine ⟨fun e he n ↦ ?_, .inr (.inr ⟨rfl, localname, remotename, List.mem_singleton_self _⟩)⟩
  rw [List.mem_singleton.mp he]
  exact kept_of_observed (by trivial) n

theorem writes_sendFile (localname remotename : Text) (offset length flags : ℤ) :
    Writes k (sendFile k localname remotename offset length flags)
      (SendLog k flags (Whole k localname length remotename)) := by
  refine .skip .ask (fun a ↦ ?_)
  cases a.stat with
  | none => exact writes_giveUp _ _ _ _
  | some info =>
    refine .skip .ask (fun _ ↦ .ite (fun _ ↦ .ite (fun _ ↦ .skip .ask (fun _ ↦ .ite (fun _ ↦ ?_)
      (fun _ ↦ writes_giveUp _ _ _ _))) (fun _ ↦ writes_giveUp _ _ _ _))
      (fun _ ↦ writes_giveUp _ _ _ _))
    have hl : length ≠ 0 → (if length = 0 then (info.size : ℤ) else length) = length := fun h ↦ if_neg h
    generalize (if length = 0 then (info.size : ℤ) else length) = len at hl ⊢
    refine .bind (writes_sendWorkerMsg trivial) (fun _ ↦ .skip (writes_linkStreamFromFd _)
      (fun actual ↦ .map (.observe (by trivial)) (U := fun (b : ℤ × ℤ) es ↦
        b.1 = (if b.2 = len then success else workerFailure) ∧
          es = [.streamed k localname remotename len b.2]) (fun _ _ h ↦ ⟨rfl, h⟩))) ?_
    rintro _ ⟨result, actual⟩ ds es rfl ⟨hr, rfl⟩
    refine ⟨fun e he n ↦ ?_, ?_⟩
    · rw [List.singleton_append, List.mem_pair] at he
      rcases he with rfl | rfl
      · exact kept_of_plain (by trivial) n
      · exact kept_of_observed (by trivial) n
    · dsimp only at hr ⊢
      split at hr
      · subst_vars
        exact .inl ⟨rfl, .file hl⟩
      · exact .inr (.inl hr)

theorem writes_sendEntry {descend : Text → Text → M (ℤ × ℤ)} {flags : ℤ}
    (hd : ∀ l m, Writes k (descend l m) (SendLog k flags (Whole k l 0 m))) (localpath remotepath : Text) :
    Writes k (sendEntry k descend localpath remotepath flags)
      (SendLog k flags (Whole k localpath 0 remotepath)) := by
  refine .skip .ask (fun a ↦ ?_)
  cases a.stat with
  | none => exact writes_giveUp _ _ _ _
  | some info => exact .ite (fun _ ↦ hd _ _) (fun _ ↦ writes_sendFile _ _ _ _ _)

theorem SendLog.append {flags : ℤ} {W W' W'' : List Event → Prop} {a b c : ℤ × ℤ}
    {ds es : List Event} (ha : SendLog k flags W a ds) (hs : a.1 = success)
    (hb : SendLog k flags W' b es) (hc : c.1 = b.1) (h : W ds → W' es → W'' (ds ++ es)) :
    SendLog k flags W'' c (ds ++ es) := by
  obtain ⟨hk, hw⟩ := ha
  obtain ⟨hk', hw'⟩ := hb
  refine ⟨fun e he ↦ (List.mem_append.mp he).elim (hk e) (hk' e), ?_⟩
  rw [hc]
  rcases hw with ⟨-, hw⟩ | hf | ⟨hf, -⟩
  · rcases hw' with ⟨hb, hw'⟩ | hb | ⟨hb, l, n, hm⟩
    · exact .inl ⟨hb, h hw hw'⟩
    · exact .inr (.inl hb)
    · exact .inr (.inr ⟨hb, l, n, List.mem_append_right ds hm⟩)
  · rw [hs] at hf
    cases hf
  · rw [hs] at hf
    cases hf

theorem writes_sendEntries {descend : Text → Text → M (ℤ × ℤ)} {flags : ℤ}
    (hd : ∀ l m, Writes k (descend l m) (SendLog k flags (Whole k l 0 m)))
    (dirname remotedirname : Text) (names : List Text) :
    Writes k (sendEntries k descend dirname remotedirname flags names)
      (SendLog k flags (WholeEntries k dirname remotedirname names)) := by
  induction names with
  | nil => exact .pure ⟨fun _ h ↦ absurd h List.not_mem_nil, .inl ⟨rfl, .nil⟩⟩
  | cons d ds ih =>
    refine .ite (fun hdot ↦ ?_) (fun _ ↦ ?_)
    · refine ⟨ih.silent, ih.trace.post ?_⟩
      rintro _ sent _ - ⟨es, he, hk, hw⟩
      exact ⟨es, he, hk, hw.imp_left (fun h ↦ ⟨h.1, .dot hdot h.2⟩)⟩
    · refine .bind (V := fun sent b es ↦ sent.1 = success ∧
        SendLog k flags (WholeEntries k dirname remotedirname ds) b es ∨
          sent.1 ≠ success ∧ b = sent ∧ es = []) (writes_sendEntry hd _ _) (fun sent ↦
        .ite (fun hs ↦ .pure (.inr ⟨hs, rfl, rfl⟩)) (fun hs ↦ .map ih (fun _ _ h ↦
          .inl ⟨not_not.mp hs, h⟩))) ?_
      rintro sent b es es' hsent (⟨hs, hb⟩ | ⟨hs, rfl, rfl⟩)
      · exact hsent.append hs hb rfl .cons
      · rw [List.append_nil]
        exact ⟨hsent.1, hsent.2.imp_left (fun h ↦ absurd h.1 hs)⟩

theorem writes_sendDirectory (flags piece : ℤ) (depth : ℕ) (dirname remotedirname : Text) :
    Writes k (sendDirectory k flags depth dirname remotedirname)
      (SendLog k flags (Whole k dirname piece remotedirname)) := by
  induction depth generalizing dirname remotedirname piece with
  | zero => exact ⟨fun _ _ _ ↦ trivial, fun _ _ _ ↦ trivial⟩
  | succ depth ih =>
    refine .skip .ask (fun a ↦ .ite (fun _ ↦ ?_) (fun _ ↦ writes_giveUp _ _ _ _))
    refine .bind (.observe (by trivial)) (fun _ ↦ writes_sendEntries (ih 0) _ _ _) ?_
    rintro _ sent _ es rfl hs
    refine SendLog.append (a := (success, 0)) (W := fun _ ↦ True) ⟨fun e he n ↦ ?_, .inl ⟨rfl, trivial⟩⟩
      rfl hs rfl (fun _ h ↦ .directory h)
    rw [List.mem_singleton.mp he]
    exact kept_of_observed (by trivial) n

theorem writes_transmit (f : File) (info : Stat) (localName name : Text) :
    Writes k (transmit k f info localName name)
      (SendLog k f.flags (Whole k localName f.pieceLength name)) := by
  refine .ite (fun _ ↦ ?_) (fun _ ↦ writes_sendFile _ _ _ _ _)
  have h := fun n ↦ writes_sendDirectory (k := k) f.flags f.pieceLength n localName name
  exact ⟨fun n s hs ↦ (h n).silent n s hs, fun n s hs ↦ (h n).trace n s hs⟩

theorem silent_cachedName (f : File) : Silent k (cachedName f) := .bind .get (fun _ ↦ .pure _)

theorem silent_forget (name : Text) : Silent k (forget k name) :=
  .modify (fun s _ ↦ .forget s name)

/-- What is remembered after a transfer was sent completely, or the history
says why it was not. -/
theorem SendLog.backed {flags piece : ℤ} {localName name : Text} {sent : ℤ × ℤ} {before es : List Event}
    (h : SendLog k flags (Whole k localName piece name) sent es) (hs : sent.1 ≠ 0) (hc : flagSet flags cache) :
    Backed k name (before ++ es) ∨ ∃ e ∈ before ++ es, Misread e := by
  obtain ⟨hk, ⟨-, hw⟩ | hf | ⟨-, l, n, hm⟩⟩ := h
  · refine .inl ⟨before, es, [], by rw [List.append_nil], fun e he ↦ ?_, .inl ⟨localName, piece, hw⟩⟩
    rw [List.append_nil] at he
    exact hk e he name
  · exact absurd hf hs
  · exact .inr ⟨_, List.mem_append_right before hm, hc⟩

theorem yields_sendFileOrDirectory (f : File) (localName : Text) :
    Yields k (sendFileOrDirectory k f localName) (fun a _ ↦ a.1 < 0 → a.1 = appFailure) := by
  refine .skip .ask (fun a ↦ ?_)
  cases a.stat with
  | none => exact .pure (fun _ _ ↦ rfl)
  | some info =>
    refine .skip (silent_cachedName f) (fun name ↦ .skip .worker (fun w ↦ .ite
      (fun _ ↦ .pure (fun _ ↦ by decide)) (fun _ ↦ .skip (silent_forget name) (fun _ ↦ ?_))))
    have ht := writes_transmit (k := k) f info localName name
    refine Spec.bind (Spec.and ht.silent ht.trace) (fun s₀ sent _ ↦ ?_)
    rintro n s ⟨hq, es, he, hl⟩
    have hv : sent.1 < 0 → sent.1 = appFailure := by
      rcases hl.2 with h | h | h
      · rw [h.1]; decide
      · rw [h]; decide
      · exact fun _ ↦ h.1
    by_cases hc : sent.1 ≠ 0 ∧ flagSet f.flags cache
    · simp only [when, if_pos hc, remember, setWorker, bind_apply, modify_apply, pure_apply]
      exact ⟨hq.tail (.remember s name info (he ▸ hl.backed hc.1 hc.2)), hv⟩
    · simp only [when, if_neg hc, bind_apply, pure_apply]
      exact ⟨hq, hv⟩

theorem yields_sendContent (f : File) (w : Worker) :
    Yields k (sendContent k f w) (fun a _ ↦ a.1 < 0 → a.1 = appFailure) := by
  unfold sendContent
  split
  · exact .pure (fun _ ↦ by decide)
  · exact yields_sendFileOrDirectory f _

theorem result_mark {bit : ℕ} (hb : bit ≠ 0) (t : Task) : (mark bit t).result ≠ 0 :=
  fun h ↦ hb (Nat.or_eq_zero_iff.mp h).2

theorem yields_mark {α : Type} {bit : ℕ} (hb : bit ≠ 0) (a : α) :
    Yields k (do setTask r (mark bit); pure a) (fun _ s ↦ (s.heap r).result ≠ 0) := by
  intro n s _
  refine ⟨.single (.mark s r bit), ?_⟩
  simpa only [State.setTask, Function.update_self] using result_mark hb _

theorem yields_sendInputFile (f : File) :
    Yields k (sendInputFile k r f) (fun a s ↦ a < 0 → (s.heap r).result ≠ 0) := by
  refine .skip .timestampGet (fun _ ↦ .skip .worker (fun w ↦ .bind (yields_sendContent f w)
    (fun sent hv ↦ .ite (fun hs ↦ ?_) (fun _ ↦ ?_))))
  · refine .skip .timestampGet (fun _ ↦ .skip (.setTask (fun _ ↦ rfl) (fun _ ↦ rfl)) (fun _ ↦
      .skip (.setWorker (fun _ ↦ rfl) (fun _ ↦ rfl)) (fun _ ↦ .pure ?_)))
    rw [hs]
    exact fun _ h ↦ absurd h (by decide)
  · by_cases hf : sent.1 = appFailure
    · simp only [when, if_pos hf]
      exact (yields_mark one_ne_zero _).post (fun _ _ _ _ h ↦ ⟨h.1, fun _ ↦ h.2⟩)
    · simp only [when, if_neg hf]
      exact .skip (.pure _) (fun _ ↦ .pure (fun _ ha ↦ absurd (hv ha) hf))

theorem silent_inputsExist (fs : List File) : Silent k (inputsExist fs) := by
  induction fs with
  | nil => exact .pure _
  | cons f fs ih => exact .ite (.bind .ask (fun _ ↦ .ite (.pure _) ih)) ih

theorem yields_sendEachInput (fs : List File) :
    Yields k (sendEachInput k r fs) (fun a s ↦ a < 0 → (s.heap r).result ≠ 0) := by
  induction fs with
  | nil => exact .pure (fun _ h ↦ absurd h (by decide))
  | cons f fs ih =>
    refine Spec.bind (yields_sendInputFile f) (fun s₀ a hs₀ ↦ Spec.ite (fun _ ↦ ?_) (fun _ ↦ ?_))
    · exact Spec.pure _ (fun s hs ↦ hs)
    · exact ih.conseq (fun s hs ↦ (steady k).keeps hs₀ hs.1)
        (fun s b s' hs hb ↦ ⟨hs.1.trans hb.1, hb.2⟩)

/-- A task whose input could not be sent does not have a result of zero. -/
theorem yields_sendInputFiles :
    Yields k (sendInputFiles k r) (fun a s ↦ a < 0 → (s.heap r).result ≠ 0) := by
  refine .skip (.task r) (fun t ↦ .skip (silent_inputsExist t.inputFiles) (fun _ ↦
    .ite (fun _ ↦ yields_sendEachInput _) (fun _ ↦ ?_)))
  exact (yields_mark one_ne_zero _).post (fun _ _ _ _ h ↦ ⟨h.1, fun _ ↦ h.2⟩)

theorem silent_getFile (path localName : Text) (length : ℤ) :
    Silent k (getFile k path localName length) :=
  .bind .ask (fun _ ↦ .bind .ask (fun _ ↦
    .ite (.bind (silent_linkStreamToFd length) (fun _ ↦ .pure _))
      (.bind (silent_linkSoak length) (fun _ ↦ .pure _))))

theorem silent_getEntry (f : File) (name : Text) (g : Retrieval) :
    Silent k (getEntry k r f name g) := by
  refine .bind silent_recvWorkerMsgRetry (fun m ↦ .ite (.pure _) ?_)
  cases parseReply m.2 with
  | dir path => exact .bind .ask (fun _ ↦ .ite (.pure _) (.pure _))
  | file path length =>
    exact .bind .ask (fun _ ↦ .bind (silent_getFile _ _ _) (fun _ ↦ .ite (.pure _) (.pure _)))
  | missing path => exact .bind (.mark r _) (fun _ ↦ .pure _)
  | «end» => exact .pure _
  | invalid => exact .pure _

theorem outputMissing_mark (t : Task) : OutputMissing (mark outputMissing t) := by
  rw [OutputMissing, mark, Nat.testBit_or, Bool.or_eq_true]
  exact .inr (by decide)

theorem quiet_outputMissing {s s' : State} (h : Quiet k s s') (hr : OutputMissing (s.heap r)) :
    OutputMissing (s'.heap r) := by
  cases h with
  | task r' f hf hf' =>
    by_cases he : r = r'
    · subst he
      simpa [State.setTask, OutputMissing, hf'] using hr
    · simpa [State.setTask, OutputMissing, he] using hr
  | mark r' bit =>
    by_cases he : r = r'
    · subst he
      simp only [OutputMissing, State.setTask, Function.update_self, mark, Nat.testBit_or]
      rw [hr]
      rfl
    · simpa [State.setTask, OutputMissing, he] using hr
  | _ => exact hr

theorem hushed_outputMissing {s s' : State} (h : ReflTransGen (Quiet k) s s')
    (hr : OutputMissing (s.heap r)) : OutputMissing (s'.heap r) := by
  induction h with
  | refl => exact hr
  | tail _ hq ih => exact quiet_outputMissing hq ih

/-- The result of an answer is that of its last entry, and a missing entry is
noted in the task. -/
structure Tracks (r : Ref) (g : Retrieval) (s : State) : Prop where
  status : g.result = statusOf g.entries
  missing : (∃ p, .missing p ∈ g.entries) → OutputMissing (s.heap r)

structure Ended (r : Ref) (g : Retrieval) (s : State) : Prop where
  status : g.result = workerFailure ∨ g.result = statusOf g.entries
  missing : (∃ p, .missing p ∈ g.entries) → OutputMissing (s.heap r)

theorem statusOf_append (entries : List Entry) (e : Entry) :
    statusOf (entries ++ [e]) = statusAfter (statusOf entries) e := by
  rw [statusOf, statusOf, List.foldl_append]
  rfl

theorem statusOf_cases (entries : List Entry) : statusOf entries = success ∨
    statusOf entries = workerFailure ∨ statusOf entries = appFailure := by
  induction entries using List.reverseRecOn with
  | nil => exact .inl rfl
  | append_singleton xs e ih =>
    rw [statusOf_append]
    cases e with
    | dir path l created => cases created <;> simp [statusAfter]
    | file path l length opened stored =>
      simp only [statusAfter]
      split
      · split
        · exact .inl rfl
        · exact .inr (.inl rfl)
      · exact .inr (.inr rfl)
    | missing p => exact ih

theorem missing_append {entries : List Entry} {e : Entry} (he : ∀ p, e ≠ .missing p) :
    (∃ p, .missing p ∈ entries ++ [e]) ↔ ∃ p, .missing p ∈ entries := by
  simp only [List.mem_append, List.mem_singleton, (he _).symm, or_false]

theorem Tracks.mono {g : Retrieval} {s s' : State} (h : Tracks r g s)
    (hq : ReflTransGen (Quiet k) s s') : Tracks r g s' :=
  ⟨h.status, fun hm ↦ hushed_outputMissing hq (h.missing hm)⟩

theorem spec_tracks {α : Type} {f : M α} (hf : Silent k f) (g : Retrieval) :
    Spec (fun s ↦ Connected s k ∧ Tracks r g s) f (fun _ _ s' ↦ Connected s' k ∧ Tracks r g s') :=
  hf.conseq (fun _ h ↦ h.1) (fun _ _ _ h hq ↦ ⟨(steady k).keeps h.1 hq, h.2.mono hq⟩)

theorem spec_getFile (path localName : Text) (length : ℤ) (g : Retrieval) :
    Spec (fun s ↦ Connected s k ∧ Tracks r g s) (getFile k path localName length)
      (fun _ got s' ↦ Tracks r g s' ∧ got.1 = statusAfter g.result got.2 ∧
        ∀ p, got.2 ≠ .missing p) := by
  refine Spec.bind (spec_tracks .ask g) (fun _ _ _ ↦ Spec.bind (spec_tracks .ask g) (fun _ _ _ ↦
    Spec.ite (fun _ ↦ ?_) (fun _ ↦ ?_)))
  · refine Spec.bind (spec_tracks (silent_linkStreamToFd length) g) (fun _ _ _ ↦ ?_)
    exact Spec.pure _ (fun s hs ↦ ⟨hs.2, rfl, by rintro p ⟨⟩⟩)
  · refine Spec.bind (spec_tracks (silent_linkSoak length) g) (fun _ _ _ ↦ ?_)
    exact Spec.pure _ (fun s hs ↦ ⟨hs.2, rfl, by rintro p ⟨⟩⟩)

theorem spec_getEntry (f : File) (name : Text) (g : Retrieval) :
    Spec (fun s ↦ Connected s k ∧ Tracks r g s) (getEntry k r f name g)
      (fun _ x s' ↦ match x with | .inl g' => Tracks r g' s' | .inr g' => Ended r g' s') := by
  refine Spec.bind (spec_tracks silent_recvWorkerMsgRetry g) (fun _ m _ ↦ Spec.ite (fun _ ↦ ?_)
    (fun _ ↦ ?_))
  · exact Spec.pure _ (fun s hs ↦ ⟨.inl rfl, hs.2.missing⟩)
  · cases parseReply m.2 with
    | dir path =>
      refine Spec.bind (spec_tracks .ask g) (fun _ a _ ↦ Spec.ite (fun ha ↦ ?_) (fun ha ↦ ?_))
      · refine Spec.pure _ (fun s hs ↦ ⟨?_, fun hm ↦ hs.2.missing ?_⟩)
        · simp [statusOf_append, statusAfter, ha]
        · exact (missing_append (by rintro p ⟨⟩)).mp hm
      · refine Spec.pure _ (fun s hs ↦ ⟨.inr ?_, fun hm ↦ hs.2.missing ?_⟩)
        · simp [statusOf_append, statusAfter, ha]
        · exact (missing_append (by rintro p ⟨⟩)).mp hm
    | file path length =>
      refine Spec.bind (spec_tracks .ask g) (fun _ a _ ↦ Spec.bind (spec_getFile _ _ _ g)
        (fun _ got _ ↦ ?_))
      have key : ∀ s : State, Tracks r g s ∧ got.1 = statusAfter g.result got.2 ∧
          (∀ p, got.2 ≠ .missing p) → got.1 = statusOf (g.entries ++ [got.2]) ∧
          ((∃ p, .missing p ∈ g.entries ++ [got.2]) → OutputMissing (s.heap r)) := by
        rintro s ⟨ht, hg, hn⟩
        rw [statusOf_append, ← ht.status, missing_append hn]
        exact ⟨hg, ht.missing⟩
      refine Spec.ite (fun _ ↦ ?_) (fun _ ↦ ?_)
      · exact Spec.pure _ (fun s hs ↦ ⟨.inr (key s hs).1, (key s hs).2⟩)
      · exact Spec.pure _ (fun s hs ↦ ⟨(key s hs).1, (key s hs).2⟩)
    | missing path =>
      rintro n s ⟨-, ht⟩
      refine ⟨?_, fun _ ↦ ?_⟩
      · rw [statusOf_append]
        exact ht.status
      · simpa [State.setTask] using outputMissing_mark (s.heap r)
    | «end» => exact Spec.pure _ (fun s hs ↦ ⟨.inr hs.2.status, hs.2.missing⟩)
    | invalid => exact Spec.pure _ (fun s hs ↦ ⟨.inl rfl, hs.2.missing⟩)

/-- An answer without a missing entry that ends well is stored, unless an entry
was overtaken. -/
theorem stored_of_statusOf {entries : List Entry} (hs : statusOf entries = success)
    (hm : ∀ p, .missing p ∉ entries) : (∀ e ∈ entries, Stored e) ∨ Overtaken entries := by
  rcases List.eq_nil_or_concat' entries with rfl | ⟨xs, e, rfl⟩
  · exact .inl (fun _ h ↦ absurd h List.not_mem_nil)
  · have he : Stored e := by
      rw [statusOf_append] at hs
      cases e with
      | dir path l created =>
        cases created
        · cases hs
        · rfl
      | file path l length opened stored =>
        cases opened
        · cases hs
        · simp only [statusAfter, if_true] at hs
          by_cases hl : stored = length
          · exact ⟨rfl, hl⟩
          · rw [if_neg hl] at hs
            cases hs
      | missing p => exact absurd (List.mem_append_right xs (List.mem_singleton_self _)) (hm p)
    by_cases hx : ∀ e' ∈ xs, Stored e'
    · refine .inl (fun e' he' ↦ ?_)
      rcases List.mem_append.mp he' with he' | he'
      · exact hx e' he'
      · rw [List.mem_singleton.mp he']
        exact he
    · push Not at hx
      obtain ⟨e', he', hst⟩ := hx
      obtain ⟨as, bs, rfl⟩ := List.append_of_mem he'
      refine .inr ⟨as, e', bs ++ [e], by simp, hst, ?_, e, by simp, he⟩
      rintro p rfl
      exact hm p (by simp)

theorem spec_getEntries (f : File) (name : Text) :
    Spec (Connected · k) (loop (getEntry k r f name) ⟨success, 0, []⟩)
      (fun s g s' ↦ ReflTransGen (Quiet k) s s' ∧ Ended r g s') := by
  refine Spec.loop (fun s g s' ↦ ReflTransGen (Quiet k) s s' ∧ Tracks r g s') _ (fun s _ ↦ ?_)
    (fun s₀ g hs₀ ↦ ?_)
  · exact ⟨.refl, rfl, by rintro ⟨p, hp⟩; cases hp⟩
  · refine (Spec.and ((silent_getEntry f name g).pre (fun s h ↦ h.1))
      (spec_getEntry (k := k) f name g)).conseq
      (fun s h ↦ ⟨(steady k).keeps hs₀ h.1, h.2⟩) (fun s x s' hs hx ↦ ?_)
    cases x with
    | inl g' => exact ⟨hs.1.trans hx.1, hx.2⟩
    | inr g' => exact ⟨hs.1.trans hx.1, hx.2⟩

/-- The master has read the answer to the request for `f`, and nothing is in
the history since but readings of the clock. -/
structure Concluded (k : Key) (r : Ref) (f : File) (name : Text) (a : ℤ) (s s' : State) : Prop where
  answering : ReflTransGen (Answering k r) s s'
  trace : ∃ es entries ds, s'.trace = s.trace ++ es ++ .replied k r f name entries a :: ds ∧
    (∀ e ∈ es, Muted e) ∧ (∀ e ∈ ds, ∃ now, e = .clock now) ∧ (a = workerFailure ∨ a = statusOf entries)
  missing : a < 0 → OutputMissing (s'.heap r)

theorem answering_of_hushed {s s' : State} (h : ReflTransGen (Quiet k) s s') :
    ReflTransGen (Answering k r) s s' := ReflTransGen.mono (fun _ _ hq ↦ .quiet hq) _ _ h

theorem Concluded.tail {f : File} {name : Text} {a : ℤ} {s s' s'' : State}
    (h : Concluded k r f name a s s') (hq : ReflTransGen (Quiet k) s' s'')
    (ht : s''.trace = s'.trace) : Concluded k r f name a s s'' where
  answering := h.answering.trans (answering_of_hushed hq)
  trace := ht ▸ h.trace
  missing ha := hushed_outputMissing hq (h.missing ha)

theorem Concluded.tick {f : File} {name : Text} {a : ℤ} {s s' : State}
    (h : Concluded k r f name a s s') : Concluded k r f name a s s'.tick where
  answering := h.answering.tail (.quiet (.tick s'))
  trace := by
    obtain ⟨es, entries, ds, he, hm, hd, hs⟩ := h.trace
    refine ⟨es, entries, ds ++ [.clock (s'.env.answers s'.calls).now], ?_, hm, fun e he ↦ ?_, hs⟩
    · show s'.trace ++ _ = _
      rw [he, List.append_assoc, List.cons_append]
    · rcases List.mem_append.mp he with he | he
      · exact hd e he
      · exact ⟨_, List.mem_singleton.mp he⟩
  missing := h.missing

theorem Concluded.head {f : File} {name : Text} {a : ℤ} {s s' s'' : State}
    (hq : ReflTransGen (Quiet k) s s') (h : Concluded k r f name a s' s'') :
    Concluded k r f name a s s'' where
  answering := (answering_of_hushed hq).trans h.answering
  trace := by
    obtain ⟨es, entries, cs, he, hm, hc, hs⟩ := h.trace
    obtain ⟨ds, hd, hm'⟩ := hushed_trace hq
    refine ⟨ds ++ es, entries, cs, by rw [he, hd]; simp, fun e he ↦ ?_, hc, hs⟩
    exact (List.mem_append.mp he).elim (hm' e) (hm e)
  missing := h.missing

/-- The whole answer to a `get` is in the history, closed by its result. -/
theorem spec_getFileOrDirectory (f : File) (name : Text) :
    Spec (Connected · k) (getFileOrDirectory k r f name) (fun s a s' ↦
      Concluded k r f name a.1 s s') := by
  refine Spec.bind (Q := fun s _ s' ↦ ReflTransGen (Quiet k) s s')
    (silent_sendWorkerMsg (by trivial)) (fun s₀ _ hs₀ ↦ ?_)
  refine Spec.bind ((spec_getEntries (r := r) f name).pre (fun s hs ↦ (steady k).keeps hs₀ hs))
    (fun s₁ g hs₁ ↦ ?_)
  refine Spec.bind (Q := fun s _ s' ↦ ReflTransGen (Quiet k) s₁ s' ∧ Ended r g s' ∧
    (g.result = appFailure → OutputMissing (s'.heap r))) (Spec.ite (fun hg ↦ ?_) (fun hg ↦ ?_))
    (fun _ _ _ ↦ ?_)
  · refine Spec.modify _ (fun s hs ↦ ?_)
    have hm : OutputMissing ((s.setTask r (mark outputMissing)).heap r) := by
      simpa [State.setTask] using outputMissing_mark (s.heap r)
    exact ⟨hs.1.tail (.mark s r _), ⟨hs.2.status, fun _ ↦ hm⟩, fun _ ↦ hm⟩
  · exact Spec.pure _ (fun s hs ↦ ⟨hs.1, hs.2, fun h ↦ absurd h hg⟩)
  · rintro n s ⟨hq, he, ha⟩
    have hn : g.result < 0 → g.result = appFailure := by
      rcases he.status with hg | hg
      · rw [hg]; decide
      · rcases statusOf_cases g.entries with hs | hs | hs <;> rw [hg, hs] <;> decide
    obtain ⟨es, hes, hm⟩ := hushed_trace (hs₁.trans hq)
    refine ⟨(answering_of_hushed (hs₁.trans hq)).tail (.replied s f name g.entries g.result ?_),
      ⟨es, g.entries, [], congrArg (· ++ _) hes, hm, fun _ h ↦ absurd h List.not_mem_nil, he.status⟩,
      fun h ↦ ha (hn h)⟩
    rcases he.status with hg | hg
    · exact .inl hg
    · by_cases hm : ∃ p, .missing p ∈ g.entries
      · exact .inr (.inl (he.missing hm))
      · rcases statusOf_cases g.entries with hs | hs | hs
        · exact .inr (.inr (stored_of_statusOf hs (not_exists.mp hm)))
        · exact .inl (hg.trans hs)
        · exact .inr (.inl (ha (hg.trans hs)))

/-- What is remembered after an answer was reported and stored, or the history
says why it was not. -/
theorem backed_replied {f : File} (name : Text) {result : ℤ} (before : List Event) {after : List Event}
    {entries : List Entry} (hs : result = workerFailure ∨ result = statusOf entries)
    (hr : result ≠ 0) (hc : flagSet f.flags cache) (ha : ∀ e ∈ after, ∃ now, e = .clock now) :
    Backed k name (before ++ .replied k r f name entries result :: after) ∨
      ∃ e ∈ before ++ .replied k r f name entries result :: after, Misread e := by
  by_cases h : Reported name entries ∧ statusOf entries = success
  · refine .inl ⟨before, [.replied k r f name entries result], after, by simp, fun e he ↦ ?_, .inr ?_⟩
    · rcases List.mem_cons.mp he with rfl | he
      · simp [Kept]
      · obtain ⟨now, rfl⟩ := ha e he
        simp [Kept]
    · rw [hs.resolve_left hr, h.2]
      exact ⟨r, f, entries, rfl, h.1⟩
  · exact .inr ⟨_, List.mem_append_right before (List.mem_cons_self ..), hc, hr, h⟩

theorem spec_getOutputFile (f : File) :
    Spec (Connected · k) (getOutputFile k r f) (fun s a s' ↦ ∃ name, Concluded k r f name a s s') := by
  refine Spec.bind (Q := fun s _ s' ↦ ReflTransGen (Quiet k) s s') (silent_cachedName f)
    (fun s₀ name hs₀ ↦ ?_)
  refine Spec.bind (Q := fun _ _ s' ↦ ReflTransGen (Quiet k) s₀ s')
    (fun n s h ↦ h.tail (.tick s)) (fun _ opened _ ↦ ?_)
  refine Spec.bind (Q := fun _ got s' ↦ Concluded k r f name got.1 s₀ s')
    ((spec_getFileOrDirectory (r := r) f name).conseq
      (fun s hs ↦ (steady k).keeps hs₀ hs) (fun s a s' hs h ↦ h.head hs)) (fun _ got _ ↦ ?_)
  refine Spec.bind (Q := fun _ _ s' ↦ Concluded k r f name got.1 s₀ s')
    (fun n s h ↦ h.tick) (fun _ closed _ ↦ ?_)
  refine Spec.bind (Q := fun _ _ s' ↦ Concluded k r f name got.1 s₀ s')
    (Spec.ite (fun _ n s h ↦ ?_) (fun _ ↦ Spec.pure _ (fun _ h ↦ h))) (fun _ _ _ ↦ ?_)
  · have hq : ReflTransGen (Quiet k) s ((s.setTask r (chargeReceived got.2
        (stamp (closed - opened)))).setWorker k (chargeWorker got.2 (stamp (closed - opened)))) :=
      (ReflTransGen.single (.task s r _ rfl rfl)).tail (.worker _ _ (fun _ ↦ rfl) (fun _ ↦ rfl))
    exact h.tail hq rfl
  · refine Spec.bind (Q := fun _ _ s' ↦ Concluded k r f name got.1 s₀ s')
      (Spec.ite (fun hc n s h ↦ ?_) (fun _ ↦ Spec.pure _ (fun _ h ↦ h)))
      (fun _ _ _ ↦ Spec.pure _ (fun _ h ↦ ⟨name, h⟩))
    obtain ⟨es, entries, ds, he, -, hd, hs⟩ := h.trace
    have hb := backed_replied (k := k) (r := r) name (s₀.trace ++ es) hs hc.1 hc.2
      hd
    rw [← he] at hb
    simp only [rememberOutput, ask, bind_apply, get_apply, modify_apply, pure_apply]
    cases (s.env.answers s.calls).stat with
    | none => exact h.tail (.single (.call s)) rfl
    | some info =>
      exact h.tail ((ReflTransGen.single (.call s)).tail (.remember _ name info hb)) rfl

/-- The answers about the output of a task. Unless the worker failed there is
one for each file, and one that could not be stored last is noted in the task. -/
structure Fetched (k : Key) (r : Ref) (fs : List File) (a : ℤ) (s s' : State) : Prop where
  answering : ReflTransGen (Answering k r) s s'
  trace : ∃ es, s'.trace = s.trace ++ es ∧ (a ≠ workerFailure →
    (replies k r es).map Prod.fst = fs ∧ ∀ x ∈ replies k r es, x.2.2 ≠ workerFailure)
  missing : a < 0 → OutputMissing (s'.heap r)

theorem Concluded.replies {f : File} {name : Text} {a : ℤ} {s s' : State}
    (h : Concluded k r f name a s s') :
    ∃ es entries, s'.trace = s.trace ++ es ∧ replies k r es = [(f, entries, a)] := by
  obtain ⟨es, entries, ds, he, hm, hd, -⟩ := h.trace
  have hd' : ∀ e ∈ ds, Muted e := by
    intro e he
    obtain ⟨now, rfl⟩ := hd e he
    trivial
  refine ⟨es ++ .replied k r f name entries a :: ds, entries, by rw [he, List.append_assoc], ?_⟩
  have happ : Footprint.replies k r (es ++ .replied k r f name entries a :: ds) =
      Footprint.replies k r es ++ (f, entries, a) :: Footprint.replies k r ds := by
    simp [Footprint.replies, List.filterMap_append]
  rw [happ, replies_muted hm, replies_muted hd']
  rfl

theorem Fetched.cons {f : File} {fs : List File} {name : Text} {a b : ℤ} {s s' s'' : State}
    (h : Concluded k r f name a s s') (ha : a ≠ workerFailure) (h' : Fetched k r fs b s' s'') :
    Fetched k r (f :: fs) b s s'' where
  answering := h.answering.trans h'.answering
  trace := by
    obtain ⟨es, entries, he, hr⟩ := h.replies
    obtain ⟨ds, hd, hf⟩ := h'.trace
    have happ : replies k r (es ++ ds) = (f, entries, a) :: replies k r ds := by
      rw [replies, List.filterMap_append, ← replies, ← replies, hr]
      rfl
    refine ⟨es ++ ds, by rw [hd, he, List.append_assoc], fun hb ↦ ?_⟩
    rw [happ]
    refine ⟨by rw [List.map_cons, (hf hb).1], fun x hx ↦ ?_⟩
    rcases List.mem_cons.mp hx with rfl | hx
    · exact ha
    · exact (hf hb).2 x hx
  missing := h'.missing

theorem spec_getEachOutput (fs : List File) : ∀ result : ℤ,
    Spec (fun s ↦ Connected s k ∧ (result < 0 → OutputMissing (s.heap r)))
      (getEachOutput k r result fs) (fun s a s' ↦ Fetched k r fs a s s') := by
  induction fs with
  | nil =>
    intro result
    exact Spec.pure _ (fun s hs ↦ ⟨.refl, ⟨[], (List.append_nil _).symm, fun _ ↦
      ⟨rfl, fun _ h ↦ absurd h List.not_mem_nil⟩⟩, hs.2⟩)
  | cons f fs ih =>
    intro _
    refine Spec.bind ((spec_getOutputFile f).pre (fun s hs ↦ hs.1)) (fun s₀ a hs₀ ↦
      Spec.ite (fun ha ↦ Spec.pure _ ?_) (fun ha ↦ ?_))
    · rintro s ⟨name, h⟩
      obtain ⟨es, entries, he, -⟩ := h.replies
      exact ⟨h.answering, ⟨es, he, fun hn ↦ absurd ha hn⟩, h.missing⟩
    · refine (ih a).conseq ?_ ?_
      · rintro s ⟨name, h⟩
        exact ⟨answering_connected h.answering hs₀.1, h.missing⟩
      · rintro s b s' ⟨name, h⟩ hb
        exact .cons h ha hb

theorem spec_getOutputFiles :
    Spec (Connected · k) (getOutputFiles k r)
      (fun s a s' ↦ Fetched k r (s.heap r).outputFiles a s s') := by
  refine Spec.at (fun s hs ↦ ?_)
  refine Spec.run (a := s.heap r) (fun _ ↦ rfl) ?_
  refine Spec.bind (Q := fun _ a s' ↦ Fetched k r (s.heap r).outputFiles a s s')
    ((spec_getEachOutput (r := r) (s.heap r).outputFiles success).conseq ?_ ?_) (fun s₀ a hs₀ ↦ ?_)
  · rintro _ rfl
    exact ⟨hs, fun h ↦ absurd h (by decide)⟩
  · rintro _ a s' rfl h
    exact h
  · refine Spec.bind (Q := fun _ _ s' ↦ Fetched k r (s.heap r).outputFiles a s s')
      ((silent_sendWorkerMsg (by simp [Plain])).conseq (fun s₁ h ↦ answering_connected h.answering hs)
        (fun s₁ _ s₂ h hq ↦ ?_)) (fun _ _ _ ↦ Spec.pure _ (fun s h ↦ ?_))
    · obtain ⟨es, he, hf⟩ := h.trace
      obtain ⟨ds, hd, hm⟩ := hushed_trace hq
      refine ⟨h.answering.trans (answering_of_hushed hq), ⟨es ++ ds, by rw [hd, he, List.append_assoc],
        ?_⟩, fun ha ↦ hushed_outputMissing hq (h.missing ha)⟩
      rw [replies, List.filterMap_append, ← replies, ← replies, replies_muted hm, List.append_nil]
      exact hf
    · subst hs₀
      exact h

theorem silent_unlink (name : Text) :
    Silent k (do let _ ← sendWorkerMsg k (.unlink name); forget k name) := by
  rintro n s ⟨w, hw⟩
  simp only [sendWorkerMsg, worker, ask, log, forget, setWorker, bind_apply, get_apply, hw, deref_some,
    pure_apply, modify_apply]
  exact (ReflTransGen.single (.call s)).tail (.unlink _ name ⟨w, hw⟩)

theorem silent_deleteWorkerFiles (exceptFlags : ℕ) (files : List File) :
    Silent k (deleteWorkerFiles k exceptFlags files) :=
  .forEach files (fun f _ ↦ .when (.bind (silent_cachedName f) (fun name ↦ silent_unlink name)))

theorem silent_deleteTaskOutputFiles : Silent k (deleteTaskOutputFiles k r) :=
  .bind (.task r) (fun _ ↦ silent_deleteWorkerFiles _ _)

theorem silent_deleteUncacheableFiles : Silent k (deleteUncacheableFiles k r) :=
  .bind (.task r) (fun _ ↦ .bind (silent_deleteWorkerFiles _ _) (fun _ ↦
    silent_deleteWorkerFiles _ _))

theorem silent_receiveStdout (outputLength : ℤ) : Silent k (receiveStdout k r outputLength) := by
  have hs : ∀ o : Option Text, Silent k (setTask r (fun t ↦ { t with output := o })) :=
    fun o ↦ .setTask (fun _ ↦ rfl) (fun _ ↦ rfl)
  refine .bind (.when (.mark r _)) (fun _ ↦ .ite ?_ (.ite (.bind (silent_linkRead _) (fun got ↦
    .ite ?_ (.ite ?_ ?_))) ?_))
  · exact .bind (silent_linkSoak _) (fun _ ↦ .bind (hs _) (fun _ ↦ .bind (.mark r _) (fun _ ↦ .pure _)))
  · exact .bind (hs _) (fun _ ↦ .pure _)
  · exact .bind (silent_linkSoak _) (fun _ ↦ .bind (hs _) (fun _ ↦ .pure _))
  · exact .bind (hs _) (fun _ ↦ .pure _)
  · exact .bind (hs _) (fun _ ↦ .pure _)

end Cyque.Exchange
