import Cyque.Dispatch
import Mathlib.Logic.Relation

namespace Cyque.Footprint

open Library.Execution Library.Lookup Library.Scanning Queue Link Files Workers Messages Transfer
open Dispatch Relation

def Connected (s : State) (k : Key) : Prop := ∃ w, s.workerTable.lookup k = some w

/-- What a worker holds and how much of it is taken. -/
def duties (w : Worker) : Table ℕ Ref × ℤ × ℤ × ℤ × ℤ × ℤ :=
  (w.currentTasks, w.unlabeledAllocated, w.coresAllocated, w.memoryAllocated, w.diskAllocated,
    w.gpusAllocated)

def stamps (t : Task) : ℕ × ℕ × ℕ × ℕ × ℕ :=
  (t.timeTaskSubmit, t.timeCommitted, t.timeExecuteCmdStart, t.timeTaskFinish,
    t.totalCmdExecutionTime)

/-- What a task is known and reported by, except for its result. -/
def report (t : Task) : ℕ × Bool × ℤ × Option Text × Option Text × ℕ × ℕ × ℕ × ℕ × ℕ :=
  (t.taskid, t.unlabeled, t.returnStatus, t.host, t.hostname, stamps t)

/-- Messages that no promise about the worker rests on. -/
def Plain : Msg → Prop
  | .unlink _ => False
  | .sendResults _ => False
  | .kill i => i ≠ -1
  | _ => True

/-- Events that only describe what the environment did. -/
def Observed : Event → Prop
  | .received _ _ => True
  | .listed _ _ _ => True
  | .streamed _ _ _ _ _ => True
  | .inaccessible _ _ _ _ => True
  | .polled _ _ => True
  | .tested _ => True
  | _ => False

/-- Events that say nothing about a task. -/
def Muted : Event → Prop
  | .sent _ _ => True
  | .noted _ => True
  | .clock _ => True
  | e => Observed e

def replies (k : Key) (r : Ref) (es : List Event) : List (File × List Entry × ℤ) :=
  es.filterMap (fun e ↦
    match e with
    | .replied k' r' f _ entries result => if r' = r ∧ k' = k then some (f, entries, result) else none
    | _ => none)

mutual

/-- A stretch of the history in which `localName` went to the worker completely,
as `name`: a directory, or `piece` bytes of a file, all that it has if `piece` is
zero. -/
inductive Whole (k : Key) : Text → ℤ → Text → List Event → Prop
  | file {localName name : Text} {piece length flags : ℤ} {mode : ℕ} (hl : piece ≠ 0 → length = piece) :
      Whole k localName piece name [.sent k (.put name length mode flags),
        .streamed k localName name length length]
  | directory {localName name : Text} {piece : ℤ} {names : List Text} {es : List Event}
      (h : WholeEntries k localName name names es) :
      Whole k localName piece name (.listed k name names :: es)

/-- The same for the entries of a directory, which are all there is below it. -/
inductive WholeEntries (k : Key) : Text → Text → List Text → List Event → Prop
  | nil {localDir dir : Text} : WholeEntries k localDir dir [] []
  | dot {localDir dir name : Text} {names : List Text} {es : List Event} (hd : isDot name)
      (h : WholeEntries k localDir dir names es) : WholeEntries k localDir dir (name :: names) es
  | cons {localDir dir name : Text} {names : List Text} {ds es : List Event}
      (hn : Whole k (below localDir name) 0 (below dir name) ds)
      (h : WholeEntries k localDir dir names es) :
      WholeEntries k localDir dir (name :: names) (ds ++ es)

end

/-- Nothing happened to the file `name` since the worker got it. -/
def Kept (k : Key) (name : Text) (e : Event) : Prop :=
  e ≠ .connected k ∧ e ≠ .sent k (.unlink name)

def Stored : Entry → Prop
  | .dir _ _ created => created
  | .file _ _ length opened stored => opened ∧ stored = length
  | .missing _ => False

def Reported (name : Text) (entries : List Entry) : Prop :=
  ∃ e ∈ entries, match e with
    | .dir path _ _ => path = name
    | .file path _ _ _ _ => path = name
    | .missing _ => False

/-- The result of an answer after each of its entries: a missing entry leaves
it as it is. -/
def statusAfter (result : ℤ) : Entry → ℤ
  | .dir _ _ created => if created then success else appFailure
  | .file _ _ length opened stored =>
    if opened then (if stored = length then success else workerFailure) else appFailure
  | .missing _ => result

def statusOf (entries : List Entry) : ℤ := entries.foldl statusAfter success

/-- On this connection the worker got the input `name` completely, or gave it
back as an output, and was not told to delete it since. -/
def Backed (k : Key) (name : Text) (trace : List Event) : Prop :=
  ∃ before got after, trace = before ++ got ++ after ∧
    (∀ e ∈ got ++ after, Kept k name e) ∧
    ((∃ localName piece, Whole k localName piece name got) ∨ ∃ r f entries, got = [.replied k r f name entries success] ∧
      Reported name entries)

/-- The master takes a transfer that failed for a success: a cached input that
cannot be read, or a cached output that is not reported, or whose last entry is
not stored. -/
def Misread : Event → Prop
  | .inaccessible _ _ _ flags => flagSet flags cache
  | .replied _ _ f name entries result =>
    flagSet f.flags cache ∧ result ≠ workerFailure ∧
      ¬ (Reported name entries ∧ statusOf entries = success)
  | _ => False

/-- An entry that could not be stored is followed by one that was, whose result
takes the place of its own. -/
def Overtaken (entries : List Entry) : Prop :=
  ∃ xs e ys, entries = xs ++ e :: ys ∧ ¬ Stored e ∧ (∀ p, e ≠ .missing p) ∧ ∃ e' ∈ ys, Stored e'

def OutputMissing (t : Task) : Prop := t.result.testBit 1

/-- One update that moves no task. All that the transfers of files and messages
between the master and the worker `k` do to the state is made of these. -/
inductive Quiet (k : Key) : State → State → Prop
  | call (s : State) : Quiet k s { s with calls := s.calls + 1 }
  | tick (s : State) : Quiet k s s.tick
  | poll (s : State) (now : ℕ) : Quiet k s { s with linkPollEnd := now }
  | walk (s : State) (t : Table Key Worker) (h : t.entries = s.workerTable.entries) :
      Quiet k s { s with workerTable := t }
  | walkRunning (s : State) (t : Table ℕ Ref) (h : t.entries = s.runningTasks.entries) :
      Quiet k s { s with runningTasks := t }
  | task (s : State) (r : Ref) (f : Task → Task) (h : report (f (s.heap r)) = report (s.heap r))
      (hr : (f (s.heap r)).result = (s.heap r).result) : Quiet k s (s.setTask r f)
  | mark (s : State) (r : Ref) (bit : ℕ) : Quiet k s (s.setTask r (mark bit))
  | worker (s : State) (f : Worker → Worker) (h : ∀ w, duties (f w) = duties w)
      (hf : ∀ w, (f w).currentFiles = w.currentFiles) : Quiet k s (s.setWorker k f)
  | tell (s : State) (m : Msg) (hk : Connected s k) (hm : Plain m) :
      Quiet k s (s.log (.sent k m))
  | observe (s : State) (e : Event) (he : Observed e) : Quiet k s (s.log e)
  | note (s : State) (hk : Connected s k) : Quiet k s (noteAvailableResults k s)
  | forget (s : State) (name : Text) :
      Quiet k s (s.setWorker k (fun w ↦ { w with currentFiles := w.currentFiles.remove name }))
  | unlink (s : State) (name : Text) (hk : Connected s k) :
      Quiet k s ((s.log (.sent k (.unlink name))).setWorker k
        (fun w ↦ { w with currentFiles := w.currentFiles.remove name }))
  | remember (s : State) (name : Text) (info : Stat)
      (h : Backed k name s.trace ∨ ∃ e ∈ s.trace, Misread e) :
      Quiet k s (s.setWorker k (fun w ↦
        { w with currentFiles := w.currentFiles.insertNew name info }))

/-- The same, where the worker answers about the output of the task `r`. -/
inductive Answering (k : Key) (r : Ref) : State → State → Prop
  | quiet {s s' : State} (h : Quiet k s s') : Answering k r s s'
  | replied (s : State) (f : File) (name : Text) (entries : List Entry) (result : ℤ)
      (h : result = workerFailure ∨ OutputMissing (s.heap r) ∨ (∀ e ∈ entries, Stored e) ∨
        Overtaken entries) : Answering k r s (s.log (.replied k r f name entries result))

theorem connected_setWorker {s : State} {j k : Key} {f : Worker → Worker} (h : Connected s k) :
    Connected (s.setWorker j f) k := by
  obtain ⟨w, hw⟩ := h
  simp only [Connected, State.setWorker, Table.lookup_alter, hw]
  split
  · exact ⟨_, rfl⟩
  · exact ⟨_, rfl⟩

theorem Quiet.connected {s s' : State} {j k : Key} (h : Quiet j s s') (hk : Connected s k) :
    Connected s' k := by
  cases h with
  | walk t ht =>
    obtain ⟨w, hw⟩ := hk
    exact ⟨w, by rw [← hw]; exact congrArg (List.lookup k) ht⟩
  | worker f => exact connected_setWorker hk
  | forget name => exact connected_setWorker hk
  | unlink name => exact connected_setWorker hk
  | remember name info => exact connected_setWorker hk
  | _ => exact hk

theorem steady (k : Key) : Steady (Connected · k) (ReflTransGen (Quiet k)) where
  refl _ := .refl
  trans h h' := h.trans h'
  keeps hk h := by
    induction h with
    | refl => exact hk
    | tail _ hq ih => exact hq.connected ih

theorem answering_connected {s s' : State} {k : Key} {r : Ref}
    (h : ReflTransGen (Answering k r) s s') (hk : Connected s k) : Connected s' k := by
  induction h with
  | refl => exact hk
  | tail _ ha ih =>
    cases ha with
    | quiet hq => exact hq.connected ih
    | replied => exact ih

theorem muted_of_observed {e : Event} (h : Observed e) : Muted e := by
  cases e <;> first | exact h | exact h.elim

theorem quiet_trace {s s' : State} {k : Key} (h : Quiet k s s') :
    s'.trace = s.trace ∨ ∃ e, s'.trace = s.trace ++ [e] ∧ Muted e := by
  cases h with
  | tell m => exact .inr ⟨_, rfl, trivial⟩
  | observe e he => exact .inr ⟨e, rfl, muted_of_observed he⟩
  | tick => exact .inr ⟨_, rfl, trivial⟩
  | note => exact .inr ⟨_, rfl, trivial⟩
  | unlink => exact .inr ⟨_, rfl, trivial⟩
  | _ => exact .inl rfl

theorem hushed_trace {s s' : State} {k : Key} (h : ReflTransGen (Quiet k) s s') :
    ∃ es, s'.trace = s.trace ++ es ∧ ∀ e ∈ es, Muted e := by
  induction h with
  | refl => exact ⟨[], (List.append_nil _).symm, fun _ h ↦ absurd h List.not_mem_nil⟩
  | tail _ hq ih =>
    obtain ⟨es, he, hm⟩ := ih
    rcases quiet_trace hq with ht | ⟨e, ht, hn⟩
    · exact ⟨es, ht.trans he, hm⟩
    · refine ⟨es ++ [e], by rw [ht, he, List.append_assoc], fun e' he' ↦ ?_⟩
      rcases List.mem_append.mp he' with he' | he'
      · exact hm e' he'
      · rw [List.mem_singleton.mp he']
        exact hn

theorem replies_muted {k : Key} {r : Ref} {es : List Event} (h : ∀ e ∈ es, Muted e) :
    replies k r es = [] := by
  refine List.filterMap_eq_nil_iff.mpr (fun e he ↦ ?_)
  have hm := h e he
  cases e <;> first | rfl | exact hm.elim

/-- Code that works with one connected worker and moves no task. -/
def Silent {α : Type} (k : Key) (f : M α) : Prop :=
  Moves (Connected · k) (ReflTransGen (Quiet k)) f

namespace Silent

variable {α β : Type} {k : Key}

theorem pure (a : α) : Silent k (pure a : M α) := Moves.pure (steady k) a

theorem bind {f : M α} {g : α → M β} (hf : Silent k f) (hg : ∀ a, Silent k (g a)) :
    Silent k (f >>= g) := Moves.bind (steady k) hf hg

theorem ite {c : Prop} [Decidable c] {f g : M α} (hf : Silent k f) (hg : Silent k g) :
    Silent k (if c then f else g) := Moves.ite hf hg

theorem when {c : Prop} [Decidable c] {f : M Unit} (hf : Silent k f) : Silent k (when c f) :=
  Moves.when (steady k) (fun _ ↦ hf)

theorem modify {f : State → State} (h : ∀ s, Connected s k → Quiet k s (f s)) :
    Silent k (modify f) := Moves.modify f (fun s hs ↦ .single (h s hs))

theorem get : Silent k (get : M State) := Moves.get (steady k)

theorem ask : Silent k Queue.ask :=
  bind get (fun _ ↦ bind (modify (fun s _ ↦ .call s)) (fun _ ↦ pure _))

theorem timestampGet : Silent k Queue.timestampGet := fun _ s _ ↦ .single (.tick s)

theorem task (r : Ref) : Silent k (Queue.task r) := bind get (fun _ ↦ pure _)

theorem worker : Silent k (Queue.worker k) := by
  refine Spec.bind (Spec.get (Q := fun s a s' ↦ a = s ∧ s' = s) (fun _ _ ↦ ⟨rfl, rfl⟩)) ?_
  rintro s₀ s hs
  refine Spec.deref ?_
  rintro s' ⟨rfl, rfl⟩
  obtain ⟨w, hw⟩ := hs
  exact ⟨w, hw, .refl⟩

theorem setTask {r : Ref} {f : Task → Task} (h : ∀ t, report (f t) = report t)
    (hr : ∀ t, (f t).result = t.result) : Silent k (Queue.setTask r f) :=
  modify (fun s _ ↦ .task s r f (h _) (hr _))

theorem mark (r : Ref) (bit : ℕ) : Silent k (Queue.setTask r (mark bit)) :=
  modify (fun s _ ↦ .mark s r bit)

theorem setWorker {f : Worker → Worker} (h : ∀ w, duties (f w) = duties w)
    (hf : ∀ w, (f w).currentFiles = w.currentFiles) : Silent k (Queue.setWorker k f) :=
  modify (fun s _ ↦ .worker s f h hf)

theorem observe {e : Event} (he : Observed e) : Silent k (log e) :=
  modify (fun s _ ↦ .observe s e he)

theorem exhaust : Silent k (Library.Execution.modify exhaust) :=
  modify (fun s _ ↦ .walk s s.workerTable.exhaust rfl)

theorem forEach {f : β → M Unit} (bs : List β) (h : ∀ b ∈ bs, Silent k (f b)) :
    Silent k (forEach f bs) := Moves.forEach (steady k) bs h

theorem loop {body : β → M (β ⊕ α)} (b : β) (h : ∀ b, Silent k (body b)) :
    Silent k (loop body b) := Moves.loop (steady k) b h

end Silent

/-- Silent code, with what holds of its value in the state where it ends. -/
def Yields {α : Type} (k : Key) (f : M α) (V : α → State → Prop) : Prop :=
  Spec (Connected · k) f (fun s a s' ↦ ReflTransGen (Quiet k) s s' ∧ V a s')

namespace Yields

variable {α β : Type} {k : Key} {f : M α} {g : α → M β}
variable {V : α → State → Prop} {U : β → State → Prop}

theorem silent (h : Yields k f V) : Silent k f := h.post (fun _ _ _ _ h ↦ h.1)

theorem pure {a : α} (h : ∀ s, V a s) : Yields k (pure a) V :=
  Spec.pure a (fun s _ ↦ ⟨.refl, h s⟩)

theorem skip (hf : Silent k f) (hg : ∀ a, Yields k (g a) U) : Yields k (f >>= g) U := by
  refine Spec.bind hf (fun s₀ a hs₀ ↦ ?_)
  exact (hg a).conseq (fun s hs ↦ (steady k).keeps hs₀ hs)
    (fun s b s' hs hb ↦ ⟨hs.trans hb.1, hb.2⟩)

theorem bind {v : α → Prop} (hf : Yields k f (fun a _ ↦ v a)) (hg : ∀ a, v a → Yields k (g a) U) :
    Yields k (f >>= g) U := by
  refine Spec.bind hf (fun s₀ a hs₀ ↦ Spec.at (fun s hs ↦ (hg a hs.2).conseq ?_ ?_))
  · rintro _ rfl
    exact (steady k).keeps hs₀ hs.1
  · rintro _ b s' rfl hb
    exact ⟨hs.1.trans hb.1, hb.2⟩

theorem ite {c : Prop} [Decidable c] {f' : M α} (ht : c → Yields k f V) (he : ¬ c → Yields k f' V) :
    Yields k (if c then f else f') V := Spec.ite ht he

end Yields

/-- Silent code, with what it appends to the history. -/
structure Writes {α : Type} (k : Key) (f : M α) (W : α → List Event → Prop) : Prop where
  silent : Silent k f
  trace : Spec (Connected · k) f (fun s a s' ↦ ∃ es, s'.trace = s.trace ++ es ∧ W a es)

namespace Writes

variable {α β : Type} {k : Key} {f : M α} {g : α → M β}
variable {W : α → List Event → Prop} {V : α → β → List Event → Prop} {U : β → List Event → Prop}

theorem pure {a : α} (h : W a []) : Writes k (pure a) W where
  silent := .pure a
  trace := Spec.pure a (fun _ _ ↦ ⟨[], by simp, h⟩)

theorem bind (hf : Writes k f W) (hg : ∀ a, Writes k (g a) (V a))
    (h : ∀ a b ds es, W a ds → V a b es → U b (ds ++ es)) : Writes k (f >>= g) U where
  silent := .bind hf.silent (fun a ↦ (hg a).silent)
  trace := by
    refine Spec.bind (Spec.and hf.silent hf.trace) (fun s₀ a hs₀ ↦ ?_)
    refine (hg a).trace.conseq (fun s hs ↦ (steady k).keeps hs₀ hs.1) (fun s b s' hs hb ↦ ?_)
    obtain ⟨-, ds, hds, hw⟩ := hs
    obtain ⟨es, hes, hv⟩ := hb
    exact ⟨ds ++ es, by rw [hes, hds, List.append_assoc], h a b ds es hw hv⟩

theorem skip (hf : Writes k f (fun _ es ↦ es = [])) (hg : ∀ a, Writes k (g a) U) :
    Writes k (f >>= g) U :=
  bind hf hg (fun _ _ ds es hd hu ↦ by rw [hd]; exact hu)

theorem map (hf : Writes k f W) {h : α → β} (hu : ∀ a es, W a es → U (h a) es) :
    Writes k (f >>= fun a ↦ Pure.pure (h a)) U :=
  bind (V := fun a b es ↦ b = h a ∧ es = []) hf (fun _ ↦ pure ⟨rfl, rfl⟩)
    (fun a b ds es hw hv ↦ by rw [hv.1, hv.2, List.append_nil]; exact hu a ds hw)

theorem ite {c : Prop} [Decidable c] {f' : M α} (ht : c → Writes k f W) (he : ¬ c → Writes k f' W) :
    Writes k (if c then f else f') W := by
  split
  · exact ht ‹_›
  · exact he ‹_›

theorem of_same (hs : Silent k f)
    (h : Spec (Connected · k) f (fun s _ s' ↦ s'.trace = s.trace)) :
    Writes k f (fun _ es ↦ es = []) where
  silent := hs
  trace := h.post (fun _ _ _ _ he ↦ ⟨[], by rw [he, List.append_nil], rfl⟩)

theorem ask : Writes k Queue.ask (fun _ es ↦ es = []) := of_same .ask (fun _ _ _ ↦ rfl)

theorem worker : Writes k (Queue.worker k) (fun _ es ↦ es = []) := by
  refine of_same .worker ?_
  rintro n s ⟨w, hw⟩
  simp only [Queue.worker, bind_apply, get_apply, hw, deref_some, pure_apply]

theorem log {e : Event} (h : ∀ s, Connected s k → Quiet k s (s.log e)) :
    Writes k (Queue.log e) (fun _ es ↦ es = [e]) where
  silent := .modify h
  trace := Spec.modify _ (fun _ _ ↦ ⟨[e], rfl, rfl⟩)

theorem observe {e : Event} (he : Observed e) : Writes k (Queue.log e) (fun _ es ↦ es = [e]) :=
  log (fun s _ ↦ .observe s e he)

end Writes

end Cyque.Footprint
