import Cyque.Attention

namespace Cyque.Attendance

open Library.Execution Library.Lookup Library.Scanning Queue Link Files Workers Messages Transfer
open Dispatch Wait Api Run Polling Turns Calls Reporting Attention

variable {k j : Key} {p q : Phase} {es : List Event} {s s' : State} {α : Type} {f : M α}

/-- Where the master is between two parts of its work. -/
def AtRest (p : Phase) : Prop := p = .off ∨ p = .idle

/-- The entries of the table are the workers they are filed under. -/
def Matched (s : State) : Prop :=
  ∀ i j, s.workersWithAvailableResults.lookup i = some j → j = i

theorem matched_same (h : Matched s)
    (ha : s'.workersWithAvailableResults = s.workersWithAvailableResults) : Matched s' := by
  intro i v hv
  exact h i v (by rw [← ha]; exact hv)

/-- What happens is a history of actions, from rest to rest. -/
def Rests (k : Key) (s s' : State) : Prop :=
  Matched s → Matched s' ∧ ∃ es, s'.trace = s.trace ++ es ∧
    ∀ p, AtRest p → ∃ q, AtRest q ∧ Watched k p (view k es) q

theorem view_append (es es' : List Event) : view k (es ++ es') = view k es ++ view k es' :=
  List.filter_append ..

theorem chained_rests : Chained (Rests k) where
  refl s hs := ⟨hs, [], by rw [List.append_nil], fun p hp ↦ ⟨p, hp, .nil p⟩⟩
  trans h h' hs := by
    obtain ⟨hm, es, ht, hw⟩ := h hs
    obtain ⟨hm', es', ht', hw'⟩ := h' hm
    refine ⟨hm', es ++ es', by rw [ht', ht, List.append_assoc], fun p hp ↦ ?_⟩
    obtain ⟨q, hq, hwq⟩ := hw p hp
    obtain ⟨q', hq', hwq'⟩ := hw' q hq
    exact ⟨q', hq', by rw [view_append]; exact hwq.trans hwq'⟩

theorem AtRest.quiet (hp : AtRest p) : p = .off ∨ p.Open := hp.imp id .inl

theorem rests_minds (h : Minds j s s') : Rests k s s' := by
  intro hs
  obtain ⟨ha, es, ht, hm⟩ := h
  exact ⟨matched_same hs ha, es, ht, fun p hp ↦
    ⟨p, hp, watched_minor hp.quiet hm⟩⟩

/-- Code between whose start and end the master comes to rest. -/
def Attentive (k : Key) (f : M α) : Prop := Goes (Rests k) f

theorem attentive_mild (h : Mild j f) : Attentive k f := fun n s a s' hf ↦ rests_minds (h n s a s' hf)

namespace Attentive

variable {β : Type} {g : α → M β}

theorem pure (a : α) : Attentive k (pure a : M α) := Goes.pure chained_rests a

theorem get : Attentive k (get : M State) := Goes.get chained_rests

theorem bind (hf : Attentive k f) (hg : ∀ a, Attentive k (g a)) : Attentive k (f >>= g) :=
  Goes.bind chained_rests hf hg

theorem ite {c : Prop} [Decidable c] {f' : M α} (ht : Attentive k f) (he : Attentive k f') :
    Attentive k (if c then f else f') := Goes.ite ht he

theorem when {c : Prop} [Decidable c] {f : M Unit} (hf : Attentive k f) : Attentive k (when c f) :=
  Goes.when chained_rests hf

theorem forEach {h : β → M Unit} (bs : List β) (hb : ∀ b ∈ bs, Attentive k (h b)) :
    Attentive k (forEach h bs) := Goes.forEach chained_rests bs hb

theorem loop {body : β → M (β ⊕ α)} (b : β) (hb : ∀ b, Attentive k (body b)) :
    Attentive k (loop body b) := Goes.loop chained_rests b hb

theorem modify {f : State → State} (ht : ∀ s, (f s).trace = s.trace)
    (ha : ∀ s, (f s).workersWithAvailableResults = s.workersWithAvailableResults) :
    Attentive k (modify f) :=
  attentive_mild (j := k) (.modify ht ha)

end Attentive

section Messages

variable (j)

end Messages

/-- What happens with the worker `j`, seen from the worker `k`. -/
def Stage (k j : Key) (p q : Phase) (s s' : State) : Prop :=
  Matched s → Matched s' ∧ ∃ es, s'.trace = s.trace ++ es ∧ (j ≠ k → view k es = []) ∧
    (j = k → Watched k .off (view k es) .off ∧ Watched k p (view k es) q)

theorem Stage.trans {r : Phase} {t u : State} (h : Stage k j p q s t) (h' : Stage k j q r t u) :
    Stage k j p r s u := by
  intro hs
  obtain ⟨hm, es, ht, hn, hw⟩ := h hs
  obtain ⟨hm', es', ht', hn', hw'⟩ := h' hm
  refine ⟨hm', es ++ es', by rw [ht', ht, List.append_assoc], fun hj ↦ ?_, fun hj ↦ ?_⟩
  · rw [view_append, hn hj, hn' hj, List.append_nil]
  · rw [view_append]
    exact ⟨(hw hj).1.trans (hw' hj).1, (hw hj).2.trans (hw' hj).2⟩

/-- A line that is left to the reader of an answer ends the answer, or does not
change the phase. -/
def Answered (k j : Key) (s : State) (m : ℤ × Text) (s' : State) : Prop :=
  (m.2 = endLine → m.1 = 1 ∧ Stage k j .collecting .collected s s') ∧
    (m.2 ≠ endLine → Stage k j .collecting .collecting s s')

def Aside (k : Key) (s s' : State) : Prop :=
  Matched s → Matched s' ∧ ∃ es, s'.trace = s.trace ++ es ∧ view k es = []

section Histories

variable {ok : State → Call → Prop} {env : Environment}

end Histories

end Cyque.Attendance
