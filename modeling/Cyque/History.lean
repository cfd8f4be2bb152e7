import Cyque.Footprint

namespace Cyque.History

open Library.Scanning Queue Transfer Dispatch Footprint

/-- The current attempt at a task: the worker it was committed to, and what the
history has of it since. `lost` tells that the connection was closed, `heard` is
what was received until then, `line` is the last result, and `answers` are those
to the last round of requests for output. -/
structure Attempt where
  worker : Key
  id : ℕ
  supplied : Option ℤ
  place : Option (Text × Text)
  lost : Bool
  heard : List Text
  line : Option Text
  asked : List File
  answers : List (File × List Entry × ℤ)

def Attempt.learn (r : Ref) (a : Attempt) : Event → Attempt
  | .supplied k r' result =>
    if r' = r ∧ k = a.worker then { a with supplied := some result } else a
  | .dispatched k r' host hostname =>
    if r' = r ∧ k = a.worker then { a with place := some (host, hostname) } else a
  | .removed k => if k = a.worker then { a with lost := true } else a
  | .received k line => if k = a.worker ∧ !a.lost then { a with heard := a.heard ++ [line] } else a
  | .result k r' line => if r' = r ∧ k = a.worker then { a with line := some line } else a
  | .fetching k r' files =>
    if r' = r ∧ k = a.worker then { a with asked := files, answers := [] } else a
  | .replied k r' f _ entries result =>
    if r' = r ∧ k = a.worker then { a with answers := a.answers ++ [(f, entries, result)] } else a
  | _ => a

/-- A commitment starts an attempt, and a submission forgets the last one. -/
def record (r : Ref) (a : Option Attempt) (e : Event) : Option Attempt :=
  match e with
  | .submitted r' _ => if r' = r then none else a
  | .committed k r' id => if r' = r then some ⟨k, id, none, none, false, [], none, [], []⟩ else a
  | e => a.map (·.learn r e)

def attempt (r : Ref) (trace : List Event) : Option Attempt := trace.foldl (record r) none

/-- The identifiers that were submitted, and neither returned nor cancelled
since. -/
def outstanding (trace : List Event) : ℤ → Option Ref :=
  trace.foldl (fun m e ↦
    match e with
    | .submitted r id => Function.update m id (some r)
    | .returned _ id => Function.update m id none
    | .cancelled id => Function.update m id none
    | .cancelledAll => fun _ ↦ none
    | _ => m) (fun _ ↦ none)

/-- The current attempt at the task is with the worker `k`, and it is so. -/
def Attempted (k : Key) (r : Ref) (P : Attempt → Prop) (s : State) : Prop :=
  ∃ a, attempt r s.trace = some a ∧ a.worker = k ∧ P a

def Dispatched (s : State) (k : Key) (r : Ref) : Prop := Attempted k r (·.place ≠ none) s

def Fresh (s : State) (k : Key) (r : Ref) : Prop :=
  Attempted k r (fun a ↦ a.place = none ∧ a.asked = [] ∧ a.answers = []) s

def Supplied (s : State) (k : Key) (r : Ref) : Prop :=
  Attempted k r (fun a ↦ a.place = none ∧ a.supplied = some success) s

def Answered (s : State) (k : Key) (r : Ref) : Prop :=
  Attempted k r (fun a ↦ a.answers.map Prod.fst = a.asked ∧
    ∀ x ∈ a.answers, x.2.2 ≠ workerFailure) s

/-- Events about tasks that are outstanding anyway. -/
def Internal : Event → Prop
  | .submitted _ _ => False
  | .returned _ _ => False
  | .cancelled _ => False
  | .cancelledAll => False
  | .gaveUp => False
  | _ => True

def Commits : Event → Prop
  | .committed _ _ _ => True
  | _ => False

/-- The line came from the worker since it last got a task, on the present
connection. -/
def Heard (k : Key) (line : Text) (trace : List Event) : Prop :=
  ∃ before after, trace = before ++ .received k line :: after ∧
    ∀ e ∈ after, Internal e ∧ ¬ Commits e ∧ e ≠ .removed k

variable {r : Ref} {trace : List Event} {e : Event} {k : Key} {s s' : State} {P Q : Attempt → Prop}

theorem attempt_append : attempt r (trace ++ [e]) = record r (attempt r trace) e := by
  rw [attempt, List.foldl_append]
  rfl

theorem outstanding_append (h : Internal e) : outstanding (trace ++ [e]) = outstanding trace := by
  rw [outstanding, List.foldl_append]
  cases e <;> first | rfl | exact h.elim

theorem learn_place {a : Attempt} (h : a.place ≠ none) : (a.learn r e).place ≠ none := by
  cases e <;> simp only [Attempt.learn] <;> first | exact h | (split <;> simp [h])

theorem learn_worker (a : Attempt) : (a.learn r e).worker = a.worker := by
  cases e <;> simp only [Attempt.learn] <;> split <;> rfl

theorem learn_muted (h : Muted e) (a : Attempt) : ∃ heard, a.learn r e = { a with heard := heard } := by
  cases e with
  | received k line =>
    simp only [Attempt.learn]
    split
    · exact ⟨_, rfl⟩
    · exact ⟨a.heard, rfl⟩
  | _ => first | exact ⟨a.heard, rfl⟩ | exact h.elim

theorem attempt_append_internal (h : Internal e) (hc : ¬ Commits e) :
    attempt r (trace ++ [e]) = (attempt r trace).map (·.learn r e) := by
  rw [attempt_append]
  cases e <;> first | rfl | exact h.elim | exact absurd trivial hc

theorem Attempted.mono (h : Attempted k r P s) (hP : ∀ a, P a → Q a) : Attempted k r Q s := by
  obtain ⟨a, ha, hk, hp⟩ := h
  exact ⟨a, ha, hk, hP a hp⟩

theorem Attempted.append (h : Attempted k r P s) (hs : s'.trace = s.trace ++ [e]) (hi : Internal e)
    (hc : ¬ Commits e) (hP : ∀ a, a.worker = k → P a → Q (a.learn r e)) : Attempted k r Q s' := by
  obtain ⟨a, ha, hk, hp⟩ := h
  refine ⟨a.learn r e, ?_, by rw [learn_worker, hk], hP a hk hp⟩
  rw [hs, attempt_append_internal hi hc, ha]
  rfl

end Cyque.History
