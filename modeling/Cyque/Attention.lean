import Cyque.Calls
import Cyque.Reporting

namespace Cyque.Attention

open Library.Execution Library.Lookup Library.Scanning Queue Link Files Workers Messages Transfer
open Dispatch Wait Api Run Polling Turns Calls Reporting

/-- What happens on the link to a worker, and to its entry in the table of
workers with available results. -/
def about (k : Key) : Event → Bool
  | .sent j _ => j = k
  | .received j _ => j = k
  | .noted j => j = k
  | .forgot j => j = k
  | .connected j => j = k
  | .removed j => j = k
  | _ => false

def view (k : Key) (es : List Event) : List Event := es.filter (about k)

/-- Where the master is with a worker: it may have asked for its results, and
it may have read the end of the answer. -/
inductive Phase
  | off
  | idle
  | collecting
  | collected
deriving DecidableEq

def Available (line : Text) : Prop := stringPrefixIs line "available_results" = true

/-- The master reads or writes the link in this phase. -/
def Phase.Open (p : Phase) : Prop := p = .idle ∨ p = .collecting

/-- All messages but a request for results. An order to kill is about one task,
or about all. -/
def Ordinary : Msg → Prop
  | .sendResults _ => False
  | .kill i => -1 ≤ i
  | _ => True

/-- What the master does at a time: it works off a line that it takes off the
link, or does what goes before a message that it puts there. -/
inductive Action (k : Key) : Phase → List Event → Phase → Prop
  | hear {p : Phase} (hp : p.Open) (line : Text) (hl : ¬ Available line)
      (he : p = .collecting → line ≠ endLine) : Action k p [.received k line] p
  | note {p : Phase} (hp : p.Open) (line : Text) (hl : Available line) :
      Action k p [.received k line, .noted k] p
  | tell {p : Phase} (hp : p.Open) (m : Msg) (hm : Ordinary m) :
      Action k p [.sent k m] p
  | ask : Action k .idle [.sent k (.sendResults (-1))] .collecting
  | done : Action k .collecting [.received k endLine] .collected
  | forget : Action k .collected [.forgot k] .idle
  | cancelAll : Action k .idle [.forgot k, .sent k (.kill (-1))] .idle

/-- A history of such actions. Without a connection anything may happen. -/
inductive Watched (k : Key) : Phase → List Event → Phase → Prop
  | nil (p : Phase) : Watched k p [] p
  | act {p p' q : Phase} {c es : List Event} (h : Action k p c p') (hw : Watched k p' es q) :
      Watched k p (c ++ es) q
  | connect {p q : Phase} {es : List Event} (hw : Watched k .idle es q) :
      Watched k p (.connected k :: es) q
  | remove {p q : Phase} {es : List Event} (hw : Watched k .off es q) :
      Watched k p (.removed k :: es) q
  | off {q : Phase} {e : Event} {es : List Event} (he : e ≠ .connected k) (hw : Watched k .off es q) :
      Watched k .off (e :: es) q

variable {k j : Key} {p p' q : Phase} {es es' : List Event} {s s' : State} {α : Type} {f : M α}

theorem Watched.trans (h : Watched k p es p') (h' : Watched k p' es' q) : Watched k p (es ++ es') q := by
  induction h with
  | nil => exact h'
  | act ha _ ih =>
    rw [List.append_assoc]
    exact .act ha (ih h')
  | connect _ ih => exact .connect (ih h')
  | remove _ ih => exact .remove (ih h')
  | off he _ ih => exact .off he (ih h')

theorem Watched.one (h : Action k p es q) : Watched k p es q := by
  rw [← List.append_nil es]
  exact .act h (.nil q)

/-- Events that the master can take no notice of, but for the worker `j`
messages that do not ask for results. -/
def Minor (j : Key) : Event → Prop
  | .sent i m => i = j ∧ Ordinary m
  | .received _ _ => False
  | .noted _ => False
  | .forgot _ => False
  | .connected _ => False
  | .removed _ => False
  | _ => True

theorem watched_minor (hp : p = .off ∨ p.Open) (h : ∀ e ∈ es, Minor j e) : Watched k p (view k es) p := by
  induction es with
  | nil => exact .nil p
  | cons e es ih =>
    have ih := ih (fun e' he ↦ h e' (List.mem_cons_of_mem _ he))
    have hm := h e (List.mem_cons_self ..)
    unfold view at ih ⊢
    rw [List.filter_cons]
    split
    · rename_i ha
      cases e with
      | sent i m =>
        have hi : i = k := of_decide_eq_true ha
        subst hi
        rcases hp with rfl | hp
        · exact .off (by rintro ⟨⟩) ih
        · exact .act (.tell hp m hm.2) ih
      | received | noted | forgot | connected | removed => exact hm.elim
      | _ => cases ha
    · exact ih

/-- Only such events happen, and the table stays. -/
def Minds (j : Key) (s s' : State) : Prop :=
  s'.workersWithAvailableResults = s.workersWithAvailableResults ∧
    ∃ es, s'.trace = s.trace ++ es ∧ ∀ e ∈ es, Minor j e

theorem minds_same (ht : s'.trace = s.trace)
    (ha : s'.workersWithAvailableResults = s.workersWithAvailableResults) : Minds j s s' :=
  ⟨ha, [], by rw [ht, List.append_nil], fun _ h ↦ absurd h List.not_mem_nil⟩

theorem minds_event {e : Event} (ht : s'.trace = s.trace ++ [e])
    (ha : s'.workersWithAvailableResults = s.workersWithAvailableResults) (he : Minor j e) :
    Minds j s s' :=
  ⟨ha, [e], ht, fun _ h ↦ List.mem_singleton.mp h ▸ he⟩

theorem chained_minds : Chained (Minds j) where
  refl _ := minds_same rfl rfl
  trans h h' := by
    obtain ⟨ha, es, ht, hm⟩ := h
    obtain ⟨ha', es', ht', hm'⟩ := h'
    refine ⟨ha'.trans ha, es ++ es', by rw [ht', ht, List.append_assoc], fun e he ↦ ?_⟩
    rcases List.mem_append.mp he with he | he
    · exact hm e he
    · exact hm' e he

def Mild (j : Key) (f : M α) : Prop := Goes (Minds j) f

namespace Mild

variable {β : Type} {g : α → M β}

theorem pure (a : α) : Mild j (pure a : M α) := Goes.pure chained_minds a

theorem get : Mild j (get : M State) := Goes.get chained_minds

theorem deref (o : Option α) : Mild j (deref o : M α) := Goes.deref chained_minds o

theorem bind (hf : Mild j f) (hg : ∀ a, Mild j (g a)) : Mild j (f >>= g) := Goes.bind chained_minds hf hg

theorem ite {c : Prop} [Decidable c] {f' : M α} (ht : Mild j f) (he : Mild j f') :
    Mild j (if c then f else f') := Goes.ite ht he

theorem when {c : Prop} [Decidable c] {f : M Unit} (hf : Mild j f) : Mild j (when c f) :=
  Goes.when chained_minds hf

theorem forEach {h : β → M Unit} (bs : List β) (hb : ∀ b ∈ bs, Mild j (h b)) : Mild j (forEach h bs) :=
  Goes.forEach chained_minds bs hb

theorem modify {f : State → State} (ht : ∀ s, (f s).trace = s.trace)
    (ha : ∀ s, (f s).workersWithAvailableResults = s.workersWithAvailableResults) :
    Mild j (modify f) :=
  Goes.modify (fun s ↦ minds_same (ht s) (ha s))

theorem log {e : Event} (he : Minor j e) : Mild j (log e) :=
  Goes.modify (fun _ ↦ minds_event rfl rfl he)

theorem ask : Mild j ask := bind get (fun _ ↦ bind (modify (fun _ ↦ rfl) (fun _ ↦ rfl)) (fun _ ↦ pure _))

theorem timestampGet : Mild j timestampGet := bind ask (fun _ ↦ bind (log trivial) (fun _ ↦ pure _))

theorem task (r : Ref) : Mild j (task r) := bind get (fun _ ↦ pure _)

theorem worker (i : Key) : Mild j (worker i) := bind get (fun _ ↦ deref _)

theorem setTask (r : Ref) (f : Task → Task) : Mild j (setTask r f) := modify (fun _ ↦ rfl) (fun _ ↦ rfl)

theorem setWorker (i : Key) (f : Worker → Worker) : Mild j (setWorker i f) :=
  modify (fun _ ↦ rfl) (fun _ ↦ rfl)

theorem logWorkerStats : Mild j logWorkerStats := by
  rintro n s _ _ ⟨⟩
  exact minds_same rfl rfl

theorem sendWorkerMsg {m : Msg} (hm : Ordinary m) : Mild j (sendWorkerMsg j m) :=
  bind (worker j) (fun _ ↦ bind ask (fun _ ↦ bind (log ⟨rfl, hm⟩) (fun _ ↦ pure _)))

end Mild

section Transfers

variable (k) (r : Ref)

end Transfers

end Cyque.Attention
