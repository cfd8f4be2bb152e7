import Mathlib.Data.Nat.Notation
import Mathlib.Order.Defs.Unbundled

namespace Cyque.Library.Execution

/-- How a piece of sequential code ends: it returns, it touches memory that is
not there, or one of its loops uses up the bound on its iterations. -/
inductive Outcome (σ α : Type)
  | done (a : α) (s : σ)
  | fault
  | spent

/-- Sequential code over a mutable state. The number bounds every single loop;
a run that is cut off says nothing about the code. -/
def Exec (σ α : Type) := ℕ → σ → Outcome σ α

variable {σ α β γ : Type}

instance : Monad (Exec σ) where
  pure a := fun _ s ↦ .done a s
  bind f g := fun n s ↦
    match f n s with
    | .done a s' => g a n s'
    | .fault => .fault
    | .spent => .spent

def get : Exec σ σ := fun _ s ↦ .done s s

def modify (f : σ → σ) : Exec σ Unit := fun _ s ↦ .done () (f s)

def fault : Exec σ α := fun _ _ ↦ .fault

def deref : Option α → Exec σ α
  | some a => pure a
  | none => fault

def loopFor (body : β → Exec σ (β ⊕ α)) : ℕ → β → Exec σ α
  | 0, _ => fun _ _ ↦ .spent
  | k + 1, b => do
    match ← body b with
    | .inl b' => loopFor body k b'
    | .inr a => pure a

/-- Repeat the body until it returns on the right. -/
def loop (body : β → Exec σ (β ⊕ α)) (b : β) : Exec σ α := fun n ↦ loopFor body n b n

/-- Recursion of a depth that is bounded like a loop. -/
def recurse (f : ℕ → Exec σ α) : Exec σ α := fun n ↦ f n n

def exceeded : Exec σ α := fun _ _ ↦ .spent

def when (c : Prop) [Decidable c] (f : Exec σ Unit) : Exec σ Unit := if c then f else pure ()

def forEach (f : β → Exec σ Unit) : List β → Exec σ Unit
  | [] => pure ()
  | b :: bs => do
    f b
    forEach f bs

@[simp] theorem bind_apply (f : Exec σ α) (g : α → Exec σ β) (n : ℕ) (s : σ) :
    (f >>= g) n s =
      match f n s with
      | .done a s' => g a n s'
      | .fault => .fault
      | .spent => .spent := rfl

@[simp] theorem pure_apply (a : α) (n : ℕ) (s : σ) : (pure a : Exec σ α) n s = .done a s := rfl

@[simp] theorem get_apply (n : ℕ) (s : σ) : get n s = .done s s := rfl

@[simp] theorem modify_apply (k : σ → σ) (n : ℕ) (s : σ) : modify k n s = .done () (k s) := rfl

@[simp] theorem deref_some (a : α) : (deref (some a) : Exec σ α) = pure a := rfl

theorem bind_eq_done {f : Exec σ α} {g : α → Exec σ β} {n : ℕ} {s s'' : σ} {b : β}
    (h : (f >>= g) n s = .done b s'') : ∃ a s', f n s = .done a s' ∧ g a n s' = .done b s'' := by
  rw [bind_apply] at h
  cases hf : f n s with
  | done a s' =>
    rw [hf] at h
    exact ⟨a, s', rfl, h⟩
  | fault => rw [hf] at h; cases h
  | spent => rw [hf] at h; cases h

theorem bind_done {f : Exec σ α} {g : α → Exec σ β} {n : ℕ} {s s' : σ} {a : α} (h : f n s = .done a s') :
    (f >>= g) n s = g a n s' := by
  rw [bind_apply, h]

theorem loopFor_inl {body : β → Exec σ (β ⊕ α)} {n k : ℕ} {b b' : β} {s s' : σ}
    (h : body b n s = .done (.inl b') s') :
    loopFor body (k + 1) b n s = loopFor body k b' n s' := by
  rw [loopFor, bind_apply, h]

theorem loopFor_inr {body : β → Exec σ (β ⊕ α)} {n k : ℕ} {b : β} {a : α} {s s' : σ}
    (h : body b n s = .done (.inr a) s') : loopFor body (k + 1) b n s = .done a s' := by
  rw [loopFor, bind_apply, h]
  rfl

/-- The states in which the iterations of a loop start. -/
inductive Rounds (body : β → Exec σ (β ⊕ α)) (n : ℕ) (b₀ : β) (s₀ : σ) : β → σ → Prop
  | start : Rounds body n b₀ s₀ b₀ s₀
  | next {b b' : β} {s s' : σ} (h : Rounds body n b₀ s₀ b s)
      (hb : body b n s = .done (.inl b') s') : Rounds body n b₀ s₀ b' s'

/-- A loop that is over in its second iteration is not cut off. -/
theorem Rounds.ne_spent {body : β → Exec σ (β ⊕ α)} {n : ℕ} {b₀ b₁ b : β} {s₀ s₁ s₂ s : σ} {a : α}
    (h₀ : body b₀ n s₀ = .done (.inl b₁) s₁) (h₁ : body b₁ n s₁ = .done (.inr a) s₂)
    (h : Rounds body n b₀ s₀ b s) : body b n s ≠ .spent := by
  have hb : b = b₀ ∧ s = s₀ ∨ b = b₁ ∧ s = s₁ := by
    induction h with
    | start => exact .inl ⟨rfl, rfl⟩
    | next _ hb ih =>
      rcases ih with ⟨rfl, rfl⟩ | ⟨rfl, rfl⟩
      · rw [h₀] at hb
        cases hb
        exact .inr ⟨rfl, rfl⟩
      · rw [h₁] at hb
        cases hb
  rcases hb with ⟨rfl, rfl⟩ | ⟨rfl, rfl⟩
  · rw [h₀]
    rintro ⟨⟩
  · rw [h₁]
    rintro ⟨⟩

/-- A loop returns whose iterations return and take a measure down. -/
theorem loopFor_returns {body : β → Exec σ (β ⊕ α)} {n : ℕ} (I : β → σ → Prop) (μ : σ → ℕ)
    (hb : ∀ b s, I b s → ∃ x s', body b n s = .done x s' ∧
      ∀ b', x = .inl b' → I b' s' ∧ μ s' < μ s) (k : ℕ) {b : β} {s : σ} (hs : I b s)
    (hk : μ s < k) : ∃ a s', loopFor body k b n s = .done a s' := by
  induction k generalizing b s with
  | zero => omega
  | succ k ih =>
    obtain ⟨x, s', hx, hn⟩ := hb b s hs
    cases x with
    | inl b' =>
      obtain ⟨hs', hlt⟩ := hn b' rfl
      rw [loopFor_inl hx]
      exact ih hs' (by omega)
    | inr a => exact ⟨a, s', loopFor_inr hx⟩

/-- Whether the code returns, and passes the test where it does. -/
def returns (f : Exec σ α) (t : α → σ → Bool) (n : ℕ) (s : σ) : Bool :=
  match f n s with
  | .done a s' => t a s'
  | _ => false

theorem exists_of_returns {f : Exec σ α} {t : α → σ → Bool} {n : ℕ} {s : σ}
    (h : returns f t n s = true) : ∃ a s', f n s = .done a s' ∧ t a s' = true := by
  unfold returns at h
  cases hf : f n s with
  | done a s' =>
    rw [hf] at h
    exact ⟨a, s', rfl, h⟩
  | fault => rw [hf] at h; cases h
  | spent => rw [hf] at h; cases h

/-- Started in a state with `P` the code does not fault, and where it returns
`a` the states before and after are related by `Q`. -/
def Spec (P : σ → Prop) (f : Exec σ α) (Q : σ → α → σ → Prop) : Prop :=
  ∀ n s, P s →
    match f n s with
    | .done a s' => Q s a s'
    | .fault => False
    | .spent => True

variable {P P' : σ → Prop} {Q Q' : σ → α → σ → Prop} {R : σ → β → σ → Prop}
variable {f : Exec σ α} {g : α → Exec σ β}

theorem Spec.elim (h : Spec P f Q) {n : ℕ} {s s' : σ} {a : α} (hs : P s)
    (hf : f n s = .done a s') : Q s a s' := by
  have h' := h n s hs
  rwa [hf] at h'

theorem Spec.ne_fault (h : Spec P f Q) {n : ℕ} {s : σ} (hs : P s) : f n s ≠ .fault := by
  intro hf
  have h' := h n s hs
  rwa [hf] at h'

theorem Spec.of_done (h : ∀ n s, P s → ∃ a s', f n s = .done a s' ∧ Q s a s') : Spec P f Q := by
  intro n s hs
  obtain ⟨a, s', hf, hq⟩ := h n s hs
  rw [hf]
  exact hq

theorem Spec.conseq (h : Spec P f Q) (hP : ∀ s, P' s → P s)
    (hQ : ∀ s a s', P' s → Q s a s' → Q' s a s') : Spec P' f Q' := by
  intro n s hs
  have h' := h n s (hP s hs)
  cases hf : f n s with
  | done a s' =>
    rw [hf] at h'
    exact hQ s a s' hs h'
  | fault => rw [hf] at h'; exact h'.elim
  | spent => trivial

theorem Spec.post (h : Spec P f Q) (hQ : ∀ s a s', P s → Q s a s' → Q' s a s') : Spec P f Q' :=
  h.conseq (fun _ hs ↦ hs) hQ

theorem Spec.pre (h : Spec P f Q) (hP : ∀ s, P' s → P s) : Spec P' f Q :=
  h.conseq hP (fun _ _ _ _ hq ↦ hq)

theorem Spec.and (h : Spec P f Q) (h' : Spec P f Q') :
    Spec P f (fun s a s' ↦ Q s a s' ∧ Q' s a s') := by
  intro n s hs
  have h₁ := h n s hs
  have h₂ := h' n s hs
  cases hf : f n s with
  | done a s' =>
    rw [hf] at h₁ h₂
    exact ⟨h₁, h₂⟩
  | fault => rw [hf] at h₁; exact h₁.elim
  | spent => trivial

/-- A specification may be proved at one start state at a time. -/
theorem Spec.at (h : ∀ s₀, P s₀ → Spec (fun s ↦ s = s₀) f Q) : Spec P f Q :=
  fun n s hs ↦ h s hs n s rfl

theorem Spec.bind (hf : Spec P f Q)
    (hg : ∀ s₀ a, P s₀ → Spec (Q s₀ a) (g a) (fun _ b s' ↦ R s₀ b s')) :
    Spec P (f >>= g) R := by
  intro n s hs
  have h := hf n s hs
  show match (match f n s with
    | .done a s' => g a n s'
    | .fault => .fault
    | .spent => .spent) with
    | .done a s' => R s a s'
    | .fault => False
    | .spent => True
  cases hr : f n s with
  | done a s' =>
    rw [hr] at h
    exact hg s a hs n s' h
  | fault => rw [hr] at h; exact h.elim
  | spent => trivial

theorem Spec.run {s s₁ : σ} {a : α} (hf : ∀ n, f n s = .done a s₁)
    (hg : Spec (fun t ↦ t = s₁) (g a) (fun _ b s' ↦ R s b s')) :
    Spec (fun t ↦ t = s) (f >>= g) R := by
  rintro n _ rfl
  have h := hg n s₁ rfl
  simpa only [bind_apply, hf n] using h

theorem Spec.pure (a : α) (h : ∀ s, P s → Q s a s) : Spec P (pure a : Exec σ α) Q :=
  fun _ s hs ↦ h s hs

theorem Spec.get {Q : σ → σ → σ → Prop} (h : ∀ s, P s → Q s s s) : Spec P get Q :=
  fun _ s hs ↦ h s hs

theorem Spec.modify {Q : σ → Unit → σ → Prop} (k : σ → σ) (h : ∀ s, P s → Q s () (k s)) :
    Spec P (modify k) Q :=
  fun _ s hs ↦ h s hs

theorem Spec.deref {o : Option α} (h : ∀ s, P s → ∃ a, o = some a ∧ Q s a s) :
    Spec P (deref o) Q := by
  intro n s hs
  obtain ⟨a, rfl, hq⟩ := h s hs
  exact hq

theorem Spec.ite {c : Prop} [Decidable c] {f' : Exec σ α} (ht : c → Spec P f Q)
    (he : ¬ c → Spec P f' Q) : Spec P (if c then f else f') Q := by
  split
  · exact ht ‹_›
  · exact he ‹_›

/-- The state after any number of iterations is related to the first one by
`I`; an iteration that stops establishes the postcondition. -/
theorem Spec.loop {body : β → Exec σ (β ⊕ α)} (I : σ → β → σ → Prop) (b : β)
    (h₀ : ∀ s, P s → I s b s)
    (hb : ∀ s₀ b, P s₀ → Spec (I s₀ b) (body b) (fun _ r s' ↦
      match r with | .inl b' => I s₀ b' s' | .inr a => Q s₀ a s')) :
    Spec P (loop body b) Q := by
  have hk : ∀ k b s₀, P s₀ → Spec (I s₀ b) (loopFor body k b) (fun _ a s' ↦ Q s₀ a s') := by
    intro k
    induction k with
    | zero => intro b s₀ _ n s _; trivial
    | succ k ih =>
      intro b s₀ hs₀
      refine Spec.bind (hb s₀ b hs₀) (fun s r _ ↦ ?_)
      cases r with
      | inl b' => exact ih b' s₀ hs₀
      | inr a => exact Spec.pure a (fun _ h ↦ h)
  intro n s hs
  exact hk n b s hs n s (h₀ s hs)

/-- A specification that does not look back at the first state. -/
def Triple (P : σ → Prop) (f : Exec σ α) (A : α → σ → Prop) : Prop := Spec P f (fun _ a s' ↦ A a s')

namespace Triple

variable {A A' : α → σ → Prop} {B : β → σ → Prop}

theorem conseq (h : Triple P f A) (hP : ∀ s, P' s → P s) (hA : ∀ a s, A a s → A' a s) :
    Triple P' f A' :=
  Spec.conseq h hP (fun _ a s' _ h ↦ hA a s' h)

theorem pre (h : Triple P f A) (hP : ∀ s, P' s → P s) : Triple P' f A := h.conseq hP (fun _ _ h ↦ h)

theorem post (h : Triple P f A) (hA : ∀ a s, A a s → A' a s) : Triple P f A' :=
  h.conseq (fun _ h ↦ h) hA

theorem pure {a : α} (h : ∀ s, P s → A a s) : Triple P (pure a) A := Spec.pure a h

theorem bind (hf : Triple P f A) (hg : ∀ a, Triple (A a) (g a) B) : Triple P (f >>= g) B :=
  Spec.bind hf (fun _ a _ ↦ hg a)

theorem modify {F : σ → σ} {A : Unit → σ → Prop} (h : ∀ s, P s → A () (F s)) :
    Triple P (modify F) A := Spec.modify F h

theorem ite {c : Prop} [Decidable c] {f' : Exec σ α} (ht : c → Triple P f A)
    (he : ¬ c → Triple P f' A) : Triple P (if c then f else f') A := Spec.ite ht he

theorem when {c : Prop} [Decidable c] {f : Exec σ Unit} {A : Unit → σ → Prop}
    (hf : c → Triple P f A) (he : ¬ c → ∀ s, P s → A () s) : Triple P (when c f) A :=
  ite hf (fun h ↦ pure (he h))

/-- What the state is known to satisfy may be taken apart first. -/
theorem of_forall (h : ∀ s, P s → Triple (fun t ↦ t = s) f A) : Triple P f A := Spec.at h

theorem loop {body : β → Exec σ (β ⊕ α)} (I : β → σ → Prop) (b : β) (h₀ : ∀ s, P s → I b s)
    (hb : ∀ b, Triple (I b) (body b) (fun x s ↦
      match x with | .inl b' => I b' s | .inr a => A a s)) : Triple P (loop body b) A := by
  refine Spec.loop (fun _ b s' ↦ I b s') b h₀ (fun s₀ b _ ↦ Spec.post (hb b) (fun s x s' _ h ↦ ?_))
  cases x with
  | inl b' => exact h
  | inr a => exact h

end Triple

theorem Spec.of_ne_spent (h : Spec P f Q) {n : ℕ} {s : σ} (hs : P s) (hn : f n s ≠ .spent) :
    ∃ a s', f n s = .done a s' ∧ Q s a s' := by
  have h' := h n s hs
  cases hr : f n s with
  | done a s' =>
    rw [hr] at h'
    exact ⟨a, s', rfl, h'⟩
  | fault => rw [hr] at h'; exact h'.elim
  | spent => exact absurd hr hn

theorem bind_ne_spent {n : ℕ} {s : σ} (hf : f n s ≠ .spent) (hg : ∀ a s', f n s = .done a s' → g a n s' ≠ .spent) :
    (f >>= g) n s ≠ .spent := by
  rw [bind_apply]
  cases hr : f n s with
  | done a s' => exact hg a s' hr
  | fault => rintro ⟨⟩
  | spent => exact absurd hr hf

theorem loopFor_ne_spent {body : β → Exec σ (β ⊕ α)} {n : ℕ} (I : β → σ → Prop) (μ : β → σ → ℕ)
    (hb : ∀ b s, I b s → body b n s ≠ .spent ∧
      ∀ b' s', body b n s = .done (.inl b') s' → I b' s' ∧ μ b' s' < μ b s)
    (k : ℕ) {b : β} {s : σ} (hs : I b s) (hk : μ b s < k) : loopFor body k b n s ≠ .spent := by
  induction k generalizing b s with
  | zero => omega
  | succ k ih =>
    obtain ⟨hne, hnext⟩ := hb b s hs
    refine bind_ne_spent hne (fun x s' hx ↦ ?_)
    cases x with
    | inl b' =>
      obtain ⟨hs', hlt⟩ := hnext b' s' hx
      exact ih hs' (by omega)
    | inr a => rintro ⟨⟩

/-- Code that is never cut off. -/
def Prompt (f : Exec σ α) : Prop := ∀ n s, f n s ≠ .spent

theorem Spec.returns (h : Spec P f Q) (hf : Prompt f) {s : σ} (hs : P s) (n : ℕ) :
    ∃ a s', f n s = .done a s' ∧ Q s a s' := by
  have h' := h n s hs
  cases hr : f n s with
  | done a s' =>
    rw [hr] at h'
    exact ⟨a, s', rfl, h'⟩
  | fault => rw [hr] at h'; exact h'.elim
  | spent => exact absurd hr (hf n s)

theorem Prompt.pure (a : α) : Prompt (pure a : Exec σ α) := by
  rintro n s ⟨⟩

theorem Prompt.get : Prompt (get : Exec σ σ) := by
  rintro n s ⟨⟩

theorem Prompt.modify (k : σ → σ) : Prompt (modify k) := by
  rintro n s ⟨⟩

theorem Prompt.deref (o : Option α) : Prompt (deref o : Exec σ α) := by
  cases o <;> rintro n s ⟨⟩

theorem Prompt.bind (hf : Prompt f) (hg : ∀ a, Prompt (g a)) : Prompt (f >>= g) := by
  intro n s
  rw [bind_apply]
  cases hr : f n s with
  | done a s' => exact hg a n s'
  | fault => rintro ⟨⟩
  | spent => exact absurd hr (hf n s)

theorem Prompt.ite {c : Prop} [Decidable c] {f' : Exec σ α} (ht : Prompt f) (he : Prompt f') :
    Prompt (if c then f else f') := by
  split
  · exact ht
  · exact he

theorem Prompt.when {c : Prop} [Decidable c] {f : Exec σ Unit} (hf : Prompt f) :
    Prompt (when c f) := Prompt.ite hf (.pure ())

theorem Prompt.forEach {h : β → Exec σ Unit} (bs : List β) (hb : ∀ b, Prompt (h b)) :
    Prompt (forEach h bs) := by
  induction bs with
  | nil => exact .pure ()
  | cons b bs ih => exact .bind (hb b) (fun _ ↦ ih)

/-- A reflexive and transitive relation between states, and a property that
it does not lose. -/
structure Steady (P : σ → Prop) (R : σ → σ → Prop) : Prop where
  refl : ∀ s, R s s
  trans : ∀ {s t u}, R s t → R t u → R s u
  keeps : ∀ {s t}, P s → R s t → P t

/-- Code that moves the state along `R` from states with `P`. -/
def Moves (P : σ → Prop) (R : σ → σ → Prop) (f : Exec σ α) : Prop :=
  Spec P f (fun s _ s' ↦ R s s')

variable {T : σ → σ → Prop}

theorem Moves.triple {f : Exec σ α} {J : σ → Prop} (h : Moves P T f) (hP : ∀ s, J s → P s)
    (hJ : ∀ s s', J s → T s s' → J s') : Triple J f (fun _ s ↦ J s) :=
  Spec.conseq h hP (fun s _ s' hs ht ↦ hJ s s' hs ht)

theorem Moves.pure (hT : Steady P T) (a : α) : Moves P T (pure a : Exec σ α) :=
  Spec.pure a (fun s _ ↦ hT.refl s)

theorem Moves.modify (k : σ → σ) (h : ∀ s, P s → T s (k s)) : Moves P T (modify k) :=
  Spec.modify k h

theorem Moves.ite {c : Prop} [Decidable c] {f' : Exec σ α} (ht : Moves P T f)
    (he : Moves P T f') : Moves P T (if c then f else f') :=
  Spec.ite (fun _ ↦ ht) (fun _ ↦ he)

theorem Moves.when (hT : Steady P T) {c : Prop} [Decidable c] {f : Exec σ Unit}
    (hf : c → Moves P T f) : Moves P T (when c f) :=
  Spec.ite hf (fun _ ↦ Moves.pure hT ())

theorem Moves.get (hT : Steady P T) : Moves P T (get : Exec σ σ) :=
  Spec.get (fun s _ ↦ hT.refl s)

theorem Moves.bind (hT : Steady P T) (hf : Moves P T f) (hg : ∀ a, Moves P T (g a)) :
    Moves P T (f >>= g) := by
  refine Spec.bind hf (fun s₀ a hs₀ ↦ ?_)
  exact (hg a).conseq (fun s h ↦ hT.keeps hs₀ h) (fun s b s' h hr ↦ hT.trans h hr)

theorem Moves.forEach (hT : Steady P T) {h : β → Exec σ Unit} (bs : List β)
    (hb : ∀ b ∈ bs, Moves P T (h b)) : Moves P T (forEach h bs) := by
  induction bs with
  | nil => exact .pure hT ()
  | cons b bs ih =>
    exact .bind hT (hb b (List.mem_cons_self ..))
      (fun _ ↦ ih (fun b' hb' ↦ hb b' (List.mem_cons_of_mem _ hb')))

theorem Moves.loop (hT : Steady P T) {body : β → Exec σ (β ⊕ α)} (b : β)
    (hb : ∀ b, Moves P T (body b)) : Moves P T (loop body b) := by
  refine Spec.loop (fun s _ s' ↦ T s s') b (fun s _ ↦ hT.refl s) (fun s₀ b hs₀ ↦ ?_)
  refine (hb b).conseq (fun s h ↦ hT.keeps hs₀ h) (fun s r s' h hr ↦ ?_)
  cases r <;> exact hT.trans h hr

/-- Whatever the code returns has the property. -/
def Yields (f : Exec σ α) (A : α → Prop) : Prop := ∀ n s a s', f n s = .done a s' → A a

namespace Yields

variable {A : α → Prop} {B : β → Prop}

theorem any (f : Exec σ α) : Yields f (fun _ ↦ True) := fun _ _ _ _ _ ↦ trivial

theorem pure {a : α} (h : A a) : Yields (pure a : Exec σ α) A := by
  rintro n s _ _ ⟨⟩
  exact h

theorem bind (hf : Yields f A) (hg : ∀ a, A a → Yields (g a) B) : Yields (f >>= g) B := by
  intro n s b s' h
  obtain ⟨a, s₁, h₁, h₂⟩ := bind_eq_done h
  exact hg a (hf n s a s₁ h₁) n s₁ b s' h₂

theorem ite {c : Prop} [Decidable c] {f' : Exec σ α} (ht : c → Yields f A) (he : ¬ c → Yields f' A) :
    Yields (if c then f else f') A := by
  split
  · exact ht ‹_›
  · exact he ‹_›

theorem loop {body : β → Exec σ (β ⊕ α)} {b : β} (hb : B b)
    (h : ∀ b, B b → Yields (body b) (fun x ↦ match x with | .inl b' => B b' | .inr a => A a)) :
    Yields (loop body b) A := by
  have hk : ∀ k b, B b → Yields (loopFor body k b) A := by
    intro k
    induction k with
    | zero =>
      rintro b _ n s a s' ⟨⟩
    | succ k ih =>
      intro b hb
      refine bind (h b hb) (fun x hx ↦ ?_)
      cases x with
      | inl b' => exact ih b' hx
      | inr a => exact pure hx
  exact fun n ↦ hk n b hb n

end Yields

/-- A relation between states that holds over any number of pieces of code. -/
structure Chained (T : σ → σ → Prop) : Prop where
  refl : ∀ s, T s s
  trans : ∀ {s t u}, T s t → T t u → T s u

/-- Whenever the code returns, the states before and after and the value are so
related. -/
def Ends (f : Exec σ α) (Q : σ → α → σ → Prop) : Prop := ∀ n s a s', f n s = .done a s' → Q s a s'

theorem Ends.loop {body : β → Exec σ (β ⊕ α)} {Q : σ → α → σ → Prop} (b : β)
    (hQ : ∀ {s t a u}, T s t → Q t a u → Q s a u)
    (hb : ∀ b, Ends (body b) (fun s x s' ↦ match x with | .inl _ => T s s' | .inr a => Q s a s')) :
    Ends (loop body b) Q := by
  have hk : ∀ k b, Ends (loopFor body k b) Q := by
    intro k
    induction k with
    | zero =>
      rintro b n s _ _ ⟨⟩
    | succ k ih =>
      intro b n s a s' h
      obtain ⟨x, s₁, h₁, h₂⟩ := bind_eq_done h
      have hx := hb b n s x s₁ h₁
      cases x with
      | inl b' => exact hQ hx (ih b' n s₁ a s' h₂)
      | inr a' =>
        cases h₂
        exact hx
  exact fun n ↦ hk n b n

/-- Code that moves the state along `T` whenever it returns. -/
def Goes (T : σ → σ → Prop) (f : Exec σ α) : Prop := Ends f (fun s _ s' ↦ T s s')

namespace Goes

variable (hT : Chained T)

theorem modify {k : σ → σ} (h : ∀ s, T s (k s)) : Goes T (modify k) := by
  rintro n s _ _ ⟨⟩
  exact h s

theorem exceeded : Goes T (exceeded : Exec σ α) := by
  rintro n s _ _ ⟨⟩

theorem ite {c : Prop} [Decidable c] {f' : Exec σ α} (ht : Goes T f) (he : Goes T f') :
    Goes T (if c then f else f') := by
  split
  · exact ht
  · exact he

theorem recurse {f : ℕ → Exec σ α} (h : ∀ k, Goes T (f k)) : Goes T (recurse f) :=
  fun n s a s' hf ↦ h n n s a s' hf

include hT

theorem pure (a : α) : Goes T (pure a : Exec σ α) := by
  rintro n s _ _ ⟨⟩
  exact hT.refl s

theorem get : Goes T (get : Exec σ σ) := by
  rintro n s _ _ ⟨⟩
  exact hT.refl s

theorem deref (o : Option α) : Goes T (deref o : Exec σ α) := by
  cases o with
  | none => rintro n s _ _ ⟨⟩
  | some a => exact pure hT a

theorem bind (hf : Goes T f) (hg : ∀ a, Goes T (g a)) : Goes T (f >>= g) := by
  intro n s b s' h
  obtain ⟨a, s₁, h₁, h₂⟩ := bind_eq_done h
  exact hT.trans (hf n s a s₁ h₁) (hg a n s₁ b s' h₂)

theorem when {c : Prop} [Decidable c] {f : Exec σ Unit} (hf : Goes T f) : Goes T (when c f) :=
  ite hf (pure hT ())

theorem forEach {h : β → Exec σ Unit} (bs : List β) (hb : ∀ b ∈ bs, Goes T (h b)) :
    Goes T (forEach h bs) := by
  induction bs with
  | nil => exact pure hT ()
  | cons b bs ih =>
    exact bind hT (hb b (List.mem_cons_self ..)) (fun _ ↦ ih (fun c hc ↦ hb c (List.mem_cons_of_mem _ hc)))

theorem loop {body : β → Exec σ (β ⊕ α)} (b : β) (hb : ∀ b, Goes T (body b)) :
    Goes T (loop body b) := by
  refine Ends.loop b hT.trans (fun b n s x s' h ↦ ?_)
  cases x with
  | inl b' => exact hb b n s _ s' h
  | inr a => exact hb b n s _ s' h

end Goes

/-- The code `g` does what `f` does, and returns something besides. -/
def Extends (g : Exec σ (α × β)) (f : Exec σ α) : Prop := (do let p ← g; pure p.1) = f

namespace Extends

variable {g : Exec σ (α × β)}

theorem pure (a : α) (b : β) : Extends (pure (a, b) : Exec σ (α × β)) (pure a) := rfl

theorem bind {h : Exec σ γ} {f : γ → Exec σ α} {g : γ → Exec σ (α × β)}
    (hg : ∀ c, Extends (g c) (f c)) : Extends (h >>= g) (h >>= f) := by
  funext n s
  have hc : ∀ c s', ((do let p ← g c; Pure.pure p.1) : Exec σ α) n s' = f c n s' :=
    fun c s' ↦ congrFun (congrFun (hg c) n) s'
  simp only [bind_apply] at hc ⊢
  cases h n s with
  | done c s' => exact hc c s'
  | fault => rfl
  | spent => rfl

theorem seq {δ : Type} (hg : Extends g f) {h : α → Exec σ γ} {h' : α × β → Exec σ (γ × δ)}
    (hh : ∀ p, Extends (h' p) (h p.1)) : Extends (g >>= h') (f >>= h) := by
  funext n s
  have hc : ∀ p s', ((do let q ← h' p; Pure.pure q.1) : Exec σ γ) n s' = h p.1 n s' :=
    fun p s' ↦ congrFun (congrFun (hh p) n) s'
  rw [← hg]
  simp only [bind_apply, pure_apply] at hc ⊢
  cases g n s with
  | done p s' => exact hc p s'
  | fault => rfl
  | spent => rfl

theorem ite {c : Prop} [Decidable c] {f' : Exec σ α} {g' : Exec σ (α × β)} (ht : Extends g f)
    (he : Extends g' f') : Extends (if c then g else g') (if c then f else f') := by
  split
  · exact ht
  · exact he

theorem of_done (h : Extends g f) {n : ℕ} {s s' : σ} {p : α × β} (hg : g n s = .done p s') :
    f n s = .done p.1 s' := by
  rw [← h, bind_apply, hg]
  rfl

end Extends

end Cyque.Library.Execution
