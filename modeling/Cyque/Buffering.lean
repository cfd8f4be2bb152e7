import Cyque.Streaming
import Cyque.Stdout

namespace Cyque.Buffering

open Library.Execution Library.Scanning
open Link (readline)

abbrev bufferSize : ℕ := 65536

/-- The part of `struct link` that `fill_buffer` and the readers share. -/
structure Buffer where
  buffer : Text
  bufferStart : ℕ
  bufferLength : ℕ
  inside : bufferStart + bufferLength ≤ buffer.length
  small : buffer.length ≤ bufferSize

namespace Buffer

def empty : Buffer := ⟨[], 0, 0, Nat.le_refl 0, Nat.zero_le _⟩

def fill (chunk : Text) (h : chunk.length ≤ bufferSize) : Buffer :=
  ⟨chunk, 0, chunk.length, (Nat.zero_add _).le, h⟩

def skip (b : Buffer) (count : ℕ) : Buffer where
  buffer := b.buffer
  bufferStart := b.bufferStart + min b.bufferLength count
  bufferLength := b.bufferLength - min b.bufferLength count
  inside := by
    have := b.inside
    omega
  small := b.small

def unread (b : Buffer) : Text := (b.buffer.drop b.bufferStart).take b.bufferLength

end Buffer

/-- What an attempt to read from a socket or write to it meets: room for some
bytes and one more, the end of the stream, an error that is over once
`link_sleep` was woken in time, or an error. -/
inductive Attempt
  | ready (n : ℕ)
  | closed
  | busy (woken : Bool)
  | failed
deriving DecidableEq

/-- One end of a connection: what the other end sends and is not read yet, what
was written, and what the next attempts will meet. -/
structure End where
  buffer : Buffer
  wire : Text
  sent : Text
  attempts : List Attempt

def End.pending (e : End) : Text := e.buffer.unread ++ e.wire

inductive Got
  | data (s : Text)
  | nothing
  | again (woken : Bool)
  | broken

/-- `read` of at most so many bytes. Without another attempt the caller still
waits. -/
def read (count : ℕ) : Exec End Got := fun _ e ↦
  match e.attempts with
  | [] => .spent
  | .ready n :: as =>
    let chunk := e.wire.take (min count (n + 1))
    .done (if chunk = [] then .nothing else .data chunk)
      { e with wire := e.wire.drop chunk.length, attempts := as }
  | .closed :: as => .done .nothing { e with attempts := as }
  | .busy woken :: as => .done (.again woken) { e with attempts := as }
  | .failed :: as => .done .broken { e with attempts := as }

def write (data : Text) : Exec End Got := fun _ e ↦
  match e.attempts with
  | [] => .spent
  | .ready n :: as =>
    let chunk := data.take (n + 1)
    .done (if chunk = [] then .nothing else .data chunk) { e with sent := e.sent ++ chunk, attempts := as }
  | .closed :: as => .done .nothing { e with attempts := as }
  | .busy woken :: as => .done (.again woken) { e with attempts := as }
  | .failed :: as => .done .broken { e with attempts := as }

def fillStep (_ : Unit) : Exec End (Unit ⊕ ℤ) := do
  match ← read bufferSize with
  | .data chunk =>
    if h : chunk.length ≤ bufferSize then do
      modify (fun e ↦ { e with buffer := .fill chunk h })
      pure (.inr chunk.length)
    else fault
  | .nothing => do
    modify (fun e ↦ { e with buffer := .empty })
    pure (.inr 0)
  | .again woken => pure (if woken then .inl () else .inr (-1))
  | .broken => pure (.inr (-1))

def fillBuffer : Exec End ℤ := do
  let e ← get
  if 0 < e.buffer.bufferLength then
    pure e.buffer.bufferLength
  else
    loop fillStep ()

/-- The data so far, and how many bytes are wanted still. -/
def pullStep : Text × ℕ → Exec End (Text × ℕ ⊕ Text × ℤ)
  | (data, 0) => pure (.inr (data, 0))
  | (data, count) => do
    match ← read count with
    | .data chunk => pure (.inl (data ++ chunk, count - chunk.length))
    | .nothing => pure (.inr (data, 0))
    | .again woken => pure (if woken then .inl (data, count) else .inr (data, -1))
    | .broken => pure (.inr (data, -1))

/-- Only a small read goes through the buffer. -/
def fillFor (count : ℕ) : Exec End ℤ := if count < bufferSize then fillBuffer else pure 1

/-- The number of bytes, or why there are none, and the bytes. -/
def linkRead (count : ℕ) : Exec End (ℤ × Text) := do
  if count = 0 then
    pure (0, [])
  else do
    let chunk ← fillFor count
    if chunk ≤ 0 then
      pure (chunk, [])
    else
      let e ← get
      let data := e.buffer.unread.take count
      modify (fun e ↦ { e with buffer := e.buffer.skip count })
      let (data, chunk) ← loop pullStep (data, count - data.length)
      pure (if data = [] then (chunk, []) else (data.length, data))

def charStep : Text × ℕ → Exec End (Text × ℕ ⊕ Text × ℕ ⊕ Text)
  | (line, length) => do
    let e ← get
    if 0 < length ∧ 0 < e.buffer.bufferLength then do
      let c ← deref e.buffer.buffer[e.buffer.bufferStart]?
      modify (fun e ↦ { e with buffer := e.buffer.skip 1 })
      if c = '\n' then
        pure (.inr (.inr line))
      else if c = '\r' then
        pure (.inl (line, length))
      else
        pure (.inl (line ++ [c], length - 1))
    else
      pure (.inr (.inl (line, length)))

def lineStep (x : Text × ℕ) : Exec End (Text × ℕ ⊕ Option Text) := do
  match ← loop charStep x with
  | .inr line => pure (.inr (some line))
  | .inl (line, length) =>
    if length = 0 then
      pure (.inr none)
    else do
      let chunk ← fillBuffer
      pure (if chunk ≤ 0 then .inr none else .inl (line, length))

def linkReadline (length : ℕ) : Exec End (Option Text) := loop lineStep ([], length)

def soakStep : ℕ × ℕ → Exec End (ℕ × ℕ ⊕ ℕ)
  | (total, 0) => pure (.inr total)
  | (total, length) => do
    let (actual, data) ← linkRead (min bufferSize length)
    pure (if actual ≤ 0 then .inr total else .inl (total + data.length, length - data.length))

def linkSoak (length : ℕ) : Exec End ℕ := loop soakStep (0, length)

/-- `full_write` into a file system with so much space: the bytes so far, how
many are wanted still, and what is left of the space. -/
def storeStep : Text × ℕ × ℕ → Exec End (Text × ℕ × ℕ ⊕ ℤ × Text)
  | (stored, 0, _) => pure (.inr (stored.length, stored))
  | (stored, length, space) => do
    let (actual, data) ← linkRead (min bufferSize length)
    pure (if actual ≤ 0 then .inr (stored.length, stored)
      else if space < data.length then .inr (-1, stored ++ data.take space)
      else .inl (stored ++ data, length - data.length, space - data.length))

/-- The number of bytes that were stored, and what is in the file. -/
def linkStreamToFd (space length : ℕ) : Exec End (ℤ × Text) := loop storeStep ([], length, space)

/-- The bytes that went out so far, and those that are left. -/
def writeStep : Text × Text → Exec End (Text × Text ⊕ Text × ℤ)
  | (done, []) => pure (.inr (done, 0))
  | (done, data) => do
    match ← write data with
    | .data chunk => pure (.inl (done ++ chunk, data.drop chunk.length))
    | .nothing => pure (.inr (done, 0))
    | .again woken => pure (if woken then .inl (done, data) else .inr (done, -1))
    | .broken => pure (.inr (done, -1))

def linkWrite (data : Text) : Exec End ℤ := do
  let (done, chunk) ← loop writeStep ([], data)
  pure (if done = [] then chunk else done.length)

def putStep : ℤ × Text → Exec End (ℤ × Text ⊕ ℤ)
  | (total, []) => pure (.inr total)
  | (total, data) => do
    let written ← linkWrite data
    pure (if 0 < written then .inl (total + written, data.drop written.toNat)
      else .inr (if written < 0 then written else total))

def linkPutlstring (data : Text) : Exec End ℤ := loop putStep (0, data)

namespace Buffer

variable {b : Buffer}

@[simp] theorem length_unread : b.unread.length = b.bufferLength := by
  have := b.inside
  simp only [unread, List.length_take, List.length_drop]
  omega

@[simp] theorem unread_empty : empty.unread = [] := rfl

@[simp] theorem unread_fill {chunk : Text} (h : chunk.length ≤ bufferSize) : (fill chunk h).unread = chunk :=
  List.take_length

theorem unread_skip (count : ℕ) : (b.skip count).unread = b.unread.drop count := by
  simp only [unread, skip, List.drop_take, List.drop_drop]
  have := b.inside
  by_cases hc : b.bufferLength ≤ count
  · rw [min_eq_left hc, Nat.sub_self, List.take_zero, Nat.sub_eq_zero_of_le hc, List.take_zero]
  · rw [min_eq_right (by omega)]

theorem unread_cons (h : 0 < b.bufferLength) :
    ∃ c rest, b.buffer[b.bufferStart]? = some c ∧ b.unread = c :: rest ∧ (b.skip 1).unread = rest := by
  have hlt : b.bufferStart < b.buffer.length := by
    have := b.inside
    omega
  have hu : b.unread = b.buffer[b.bufferStart] :: (b.buffer.drop (b.bufferStart + 1)).take (b.bufferLength - 1) := by
    obtain ⟨m, hm⟩ : ∃ m, b.bufferLength = m + 1 := ⟨b.bufferLength - 1, by omega⟩
    rw [unread, List.drop_eq_getElem_cons hlt, hm]
    rfl
  refine ⟨_, _, List.getElem?_eq_getElem hlt, hu, ?_⟩
  rw [unread_skip, hu]
  rfl

end Buffer

def Attempt.Sound : Attempt → Prop
  | .ready _ | .busy true => True
  | _ => False

instance : DecidablePred Attempt.Sound
  | .ready _ | .busy true => .isTrue trivial
  | .closed | .busy false | .failed => .isFalse id

def End.Sound (e : End) : Prop := ∀ a ∈ e.attempts, a.Sound

instance (e : End) : Decidable e.Sound := inferInstanceAs (Decidable (∀ a ∈ e.attempts, a.Sound))

def Attempt.isReady : Attempt → Bool
  | .ready _ => true
  | _ => false

/-- No attempt fails, and there are enough of them for all bytes. -/
def End.Flowing (e : End) : Prop := e.Sound ∧ e.wire.length ≤ e.attempts.countP Attempt.isReady

instance (e : End) : Decidable e.Flowing := inferInstanceAs (Decidable (_ ∧ _))

/-- Between the two states these bytes were taken from what is pending. -/
structure Takes (e e' : End) (bytes : Text) : Prop where
  pending : e.pending = bytes ++ e'.pending
  sent : e'.sent = e.sent
  attempts : e'.attempts <:+ e.attempts
  flowing : e.Flowing → e'.Flowing

namespace Takes

variable {e e₁ e' : End} {as bs : Text}

theorem refl (e : End) : Takes e e [] := ⟨rfl, rfl, List.suffix_rfl, id⟩

theorem trans (h : Takes e e₁ as) (h' : Takes e₁ e' bs) : Takes e e' (as ++ bs) := by
  refine ⟨?_, h'.sent.trans h.sent, h'.attempts.trans h.attempts, fun hf ↦ h'.flowing (h.flowing hf)⟩
  rw [h.pending, h'.pending, List.append_assoc]

theorem sound (h : Takes e e' as) (hs : e.Sound) : e'.Sound := fun a ha ↦ hs a (h.attempts.mem ha)

end Takes

theorem take_drop_length (s : Text) (k : ℕ) : s.take k ++ s.drop (s.take k).length = s := by
  have hd : s.drop (min k s.length) = s.drop k := List.drop_eq_drop_iff.mpr (by omega)
  rw [List.length_take, hd, List.take_append_drop]

def Brings (count : ℕ) (e e' : End) : Got → Prop
  | .data chunk => chunk ≠ [] ∧ chunk.length ≤ count ∧ e.wire = chunk ++ e'.wire
  | .nothing => e'.wire = e.wire ∧ (0 < count → e.Sound → e.wire = [])
  | .again woken => e'.wire = e.wire ∧ (e.Sound → woken = true)
  | .broken => e'.wire = e.wire ∧ ¬ e.Sound

structure Tried (e e' : End) : Prop where
  buffer : e'.buffer = e.buffer
  sent : e'.sent = e.sent
  attempts : ∃ a, e.attempts = a :: e'.attempts
  flowing : e.Flowing → e'.Flowing

theorem Tried.lt {e e' : End} (h : Tried e e') : e'.attempts.length < e.attempts.length := by
  obtain ⟨a, ha⟩ := h.attempts
  rw [ha, List.length_cons]
  omega

theorem Tried.takes {e e' : End} (h : Tried e e') {b : Buffer} {bytes : Text}
    (hp : e.pending = bytes ++ (b.unread ++ e'.wire)) : Takes e { e' with buffer := b } bytes := by
  obtain ⟨a, ha⟩ := h.attempts
  exact ⟨hp, h.sent, ha ▸ List.suffix_cons a _, h.flowing⟩

theorem Tried.idle {e e' : End} (h : Tried e e') (hw : e'.wire = e.wire) : Takes e e' [] := by
  refine h.takes (b := e'.buffer) ?_
  rw [End.pending, h.buffer, hw]
  rfl

theorem read_spec {count : ℕ} (hc : 0 < count) :
    Spec (fun _ ↦ True) (read count) (fun e g e' ↦ Tried e e' ∧ Brings count e e' g) := by
  intro n e _
  unfold read
  obtain ⟨b, wire, sent, attempts⟩ := e
  obtain _ | ⟨a, as⟩ := attempts
  · trivial
  have hsound : End.Sound ⟨b, wire, sent, a :: as⟩ → a.Sound := fun h ↦ h a List.mem_cons_self
  have hrest : End.Sound ⟨b, wire, sent, a :: as⟩ → ∀ x ∈ as, x.Sound := fun h x hx ↦ h x (List.mem_cons_of_mem _ hx)
  cases a with
  | ready m =>
    have hnil : wire.take (min count (m + 1)) = [] ↔ wire = [] := by
      rw [List.take_eq_nil_iff]
      exact or_iff_right (by omega)
    refine ⟨⟨rfl, rfl, ⟨_, rfl⟩, fun hf ↦ ⟨hrest hf.1, ?_⟩⟩, ?_⟩
    · have hle : wire.length ≤ as.countP Attempt.isReady + 1 := by
        have := hf.2
        rwa [List.countP_cons_of_pos rfl] at this
      dsimp only
      rw [List.length_drop]
      by_cases hw : wire = []
      · simp [hw]
      · have := List.length_pos_of_ne_nil (mt hnil.mp hw)
        omega
    · dsimp only
      by_cases hw : wire.take (min count (m + 1)) = []
      · rw [if_pos hw, hw]
        exact ⟨rfl, fun _ _ ↦ hnil.mp hw⟩
      · rw [if_neg hw]
        refine ⟨hw, ?_, (take_drop_length wire _).symm⟩
        rw [List.length_take]
        omega
  | closed => exact ⟨⟨rfl, rfl, ⟨_, rfl⟩, fun hf ↦ (hsound hf.1).elim⟩, rfl, fun _ h ↦ (hsound h).elim⟩
  | busy woken =>
    refine ⟨⟨rfl, rfl, ⟨_, rfl⟩, fun hf ↦ ⟨hrest hf.1, hf.2⟩⟩, rfl, fun h ↦ ?_⟩
    cases woken with
    | true => rfl
    | false => exact (hsound h).elim
  | failed => exact ⟨⟨rfl, rfl, ⟨_, rfl⟩, fun hf ↦ (hsound hf.1).elim⟩, rfl, hsound⟩

theorem unread_nil {b : Buffer} (h : b.bufferLength = 0) : b.unread = [] :=
  List.eq_nil_of_length_eq_zero (Buffer.length_unread.trans h)

def NoBytes (code : ℤ) : Prop := code = 0 ∨ code = -1

def Fills (e e' : End) : Unit ⊕ ℤ → Prop
  | .inl () => e'.buffer.bufferLength = 0
  | .inr chunk => (0 < chunk → 0 < e'.buffer.bufferLength) ∧
    (chunk ≤ 0 → NoBytes chunk ∧ e'.buffer.bufferLength = 0 ∧ (e.Sound → e'.pending = []))

theorem fillStep_spec : Spec (fun e ↦ e.buffer.bufferLength = 0) (fillStep ()) (fun e r e' ↦
    Takes e e' [] ∧ e'.attempts.length < e.attempts.length ∧ Fills e e' r) := by
  unfold fillStep
  refine Spec.bind ((read_spec (by decide)).pre (fun _ _ ↦ trivial)) (fun e g hb ↦ Spec.at (fun e₁ h₁ ↦ ?_))
  obtain ⟨htried, hg⟩ := h₁
  have hb₁ : e₁.buffer.bufferLength = 0 := by rw [htried.buffer, hb]
  cases g with
  | data chunk =>
    obtain ⟨hne, hlen, hwire⟩ := hg
    dsimp only
    rw [dif_pos hlen]
    rintro n e₁ rfl
    have hpos := List.length_pos_of_ne_nil hne
    refine ⟨htried.takes ?_, htried.lt, fun _ ↦ hpos, fun h ↦ ?_⟩
    · rw [End.pending, unread_nil hb, hwire, Buffer.unread_fill]
    · omega
  | nothing =>
    rintro n e₁ rfl
    refine ⟨htried.takes ?_, htried.lt, fun h ↦ ?_, fun _ ↦ ⟨.inl rfl, rfl, fun hs ↦ ?_⟩⟩
    · rw [End.pending, unread_nil hb, hg.1]
      rfl
    · exact absurd h (by decide)
    · show [] ++ e₁.wire = []
      rw [hg.1, hg.2 (by decide) hs]
      rfl
  | again woken =>
    rintro n e₁ rfl
    refine ⟨htried.idle hg.1, htried.lt, ?_⟩
    cases woken with
    | true => exact hb₁
    | false => exact ⟨fun h ↦ absurd h (by decide), fun _ ↦ ⟨.inr rfl, hb₁, fun hs ↦ absurd (hg.2 hs) (by decide)⟩⟩
  | broken =>
    rintro n e₁ rfl
    exact ⟨htried.idle hg.1, htried.lt, fun h ↦ absurd h (by decide), fun _ ↦ ⟨.inr rfl, hb₁, fun hs ↦ absurd hs hg.2⟩⟩

/-- After `fill_buffer` there is something in the buffer, or nothing comes. -/
structure Filled (e : End) (chunk : ℤ) (e' : End) : Prop where
  takes : Takes e e' []
  some : 0 < chunk → 0 < e'.buffer.bufferLength
  none : chunk ≤ 0 → NoBytes chunk ∧ e'.buffer.bufferLength = 0 ∧ (e.Sound → e'.pending = [])
  used : e.buffer.bufferLength = 0 → e'.attempts.length < e.attempts.length

theorem fillBuffer_spec : Spec (fun _ ↦ True) fillBuffer Filled := by
  refine Spec.at (fun e _ ↦ ?_)
  unfold fillBuffer
  refine Spec.run (s := e) (fun _ ↦ rfl) (Spec.ite (fun hb ↦ ?_) (fun hb ↦ ?_))
  · refine Spec.pure _ ?_
    rintro _ rfl
    refine ⟨Takes.refl _, fun _ ↦ hb, fun h ↦ ?_, fun h ↦ ?_⟩ <;> omega
  · refine Spec.loop (fun e₀ _ e₁ ↦ Takes e₀ e₁ [] ∧ e₁.buffer.bufferLength = 0 ∧
      e₁.attempts.length ≤ e₀.attempts.length) () ?_ (fun e₀ _ he₀ ↦ ?_)
    · rintro _ rfl
      exact ⟨Takes.refl _, by omega, Nat.le_refl _⟩
    · refine (fillStep_spec.pre (fun _ h ↦ h.2.1)).post (fun e₁ r e₂ h₁ h₂ ↦ ?_)
      subst he₀
      obtain ⟨ht, hlt, hr⟩ := h₂
      cases r with
      | inl u => exact ⟨h₁.1.trans ht, hr, by omega⟩
      | inr chunk => exact ⟨h₁.1.trans ht, hr.1,
        fun h ↦ ⟨(hr.2 h).1, (hr.2 h).2.1, fun hs ↦ (hr.2 h).2.2 (h₁.1.sound hs)⟩, fun _ ↦ by omega⟩

def Pulls (x : Text × ℕ) (e e' : End) : Text × ℕ ⊕ Text × ℤ → Prop
  | .inl y => e'.buffer = e.buffer ∧ e'.attempts.length < e.attempts.length ∧
    ∃ chunk, Takes e e' chunk ∧ y.1 = x.1 ++ chunk ∧ y.2 + chunk.length = x.2
  | .inr y => Takes e e' [] ∧ y.1 = x.1 ∧ (x.2 = 0 ∨ NoBytes y.2 ∧ (e.Sound → e'.pending = []))

theorem pullStep_spec (x : Text × ℕ) : Spec (fun e ↦ 0 < x.2 → e.buffer.bufferLength = 0) (pullStep x)
    (fun e r e' ↦ Pulls x e e' r) := by
  obtain ⟨data, count⟩ := x
  cases count with
  | zero => exact Spec.pure _ (fun e _ ↦ ⟨Takes.refl e, rfl, .inl rfl⟩)
  | succ count =>
    refine Spec.bind ((read_spec (Nat.succ_pos count)).pre (fun _ _ ↦ trivial)) (fun e g hb ↦ Spec.at (fun e₁ h₁ ↦ ?_))
    obtain ⟨htried, hg⟩ := h₁
    have hb := hb (Nat.succ_pos _)
    have hb₁ : e₁.buffer.bufferLength = 0 := by rw [htried.buffer, hb]
    cases g with
    | data chunk =>
      rintro n e₁ rfl
      obtain ⟨-, hlen, hwire⟩ := hg
      refine ⟨htried.buffer, htried.lt, chunk, htried.takes (b := e₁.buffer) ?_, rfl, Nat.sub_add_cancel hlen⟩
      rw [End.pending, unread_nil hb, unread_nil hb₁, hwire]
      rfl
    | nothing =>
      rintro n e₁ rfl
      refine ⟨htried.idle hg.1, rfl, .inr ⟨.inl rfl, fun hs ↦ ?_⟩⟩
      rw [End.pending, unread_nil hb₁, hg.1, hg.2 (Nat.succ_pos _) hs]
      rfl
    | again woken =>
      rintro n e₁ rfl
      have ht := htried.idle hg.1
      cases woken with
      | true => exact ⟨htried.buffer, htried.lt, [], ht, (List.append_nil _).symm, rfl⟩
      | false => exact ⟨ht, rfl, .inr ⟨.inr rfl, fun hs ↦ absurd (hg.2 hs) (by decide)⟩⟩
    | broken =>
      rintro n e₁ rfl
      exact ⟨htried.idle hg.1, rfl, .inr ⟨.inr rfl, fun hs ↦ absurd hs hg.2⟩⟩

structure Reads (count : ℕ) (e : End) (x : ℤ × Text) (e' : End) : Prop where
  takes : Takes e e' x.2
  length : x.2.length ≤ count
  code : x.2 ≠ [] → x.1 = x.2.length
  none : x.2 = [] → NoBytes x.1 ∧ (count = 0 → x.1 = 0)
  whole : e.Sound → x.2.length = count ∨ e'.pending = []

theorem pull_spec (data : Text) (count : ℕ) : Spec (fun e ↦ 0 < count → e.buffer.bufferLength = 0)
    (loop pullStep (data, count)) (fun e y e' ↦ ∃ bytes, Takes e e' bytes ∧ y.1 = data ++ bytes ∧
      bytes.length ≤ count ∧ (bytes.length = count ∨ NoBytes y.2 ∧ (e.Sound → e'.pending = []))) := by
  refine Spec.loop (fun e₀ x e ↦ (0 < x.2 → e.buffer.bufferLength = 0) ∧
    ∃ bytes, Takes e₀ e bytes ∧ x.1 = data ++ bytes ∧ x.2 + bytes.length = count) _ ?_ (fun e₀ x _ ↦ ?_)
  · exact fun e he ↦ ⟨he, [], Takes.refl e, (List.append_nil _).symm, rfl⟩
  · refine ((pullStep_spec x).pre (fun _ h ↦ h.1)).post (fun e₁ r e₂ h₁ h₂ ↦ ?_)
    obtain ⟨hb, bytes, ht, hx, hc⟩ := h₁
    cases r with
    | inl y =>
      obtain ⟨hbuf, -, chunk, ht₂, hy, hcy⟩ := h₂
      refine ⟨fun hpos ↦ ?_, bytes ++ chunk, ht.trans ht₂, ?_, ?_⟩
      · rw [hbuf]
        exact hb (by omega)
      · rw [hy, hx, List.append_assoc]
      · rw [List.length_append]
        omega
    | inr y =>
      obtain ⟨ht₂, hy, hstop⟩ := h₂
      refine ⟨bytes, by simpa using ht.trans ht₂, hy.trans hx, by omega, ?_⟩
      rcases hstop with h0 | ⟨hcode, hpend⟩
      · exact .inl (by omega)
      · exact .inr ⟨hcode, fun hs ↦ hpend (ht.sound hs)⟩

theorem takes_skip (e : End) (count : ℕ) :
    Takes e { e with buffer := e.buffer.skip count } (e.buffer.unread.take count) := by
  refine ⟨?_, rfl, List.suffix_rfl, id⟩
  rw [End.pending, End.pending, Buffer.unread_skip, ← List.append_assoc, List.take_append_drop]

theorem fillFor_spec (count : ℕ) : Spec (fun _ ↦ True) (fillFor count) (fun e chunk e' ↦
    Takes e e' [] ∧ (chunk ≤ 0 → NoBytes chunk ∧ (e.Sound → e'.pending = []))) := by
  refine Spec.ite (fun _ ↦ fillBuffer_spec.post (fun e chunk e' _ h ↦ ?_)) (fun _ ↦ Spec.pure _ (fun e _ ↦ ?_))
  · exact ⟨h.takes, fun hle ↦ ⟨(h.none hle).1, (h.none hle).2.2⟩⟩
  · exact ⟨Takes.refl e, fun h ↦ absurd h (by decide)⟩

theorem linkRead_spec (count : ℕ) : Spec (fun _ ↦ True) (linkRead count) (Reads count) := by
  unfold linkRead
  refine Spec.ite (fun hc ↦ ?_) (fun hc ↦ ?_)
  · subst hc
    exact Spec.pure _ (fun e _ ↦ ⟨Takes.refl e, Nat.le_refl 0, fun h ↦ absurd rfl h,
      fun _ ↦ ⟨.inl rfl, fun _ ↦ rfl⟩, fun _ ↦ .inl rfl⟩)
  · refine Spec.bind (fillFor_spec count) (fun e₀ chunk _ ↦ Spec.ite (fun hle ↦ ?_) (fun _ ↦ ?_))
    · exact Spec.pure _ (fun e h ↦ ⟨h.1, Nat.zero_le _, fun h ↦ absurd rfl h,
        fun _ ↦ ⟨(h.2 hle).1, fun h0 ↦ absurd h0 hc⟩, fun hs ↦ .inr ((h.2 hle).2 hs)⟩)
    refine Spec.at (fun e h ↦ Spec.run (s := e) (fun _ ↦ rfl) (Spec.run (s := e) (fun _ ↦ rfl) ?_))
    have hskip := h.1.trans (takes_skip e count)
    rw [List.nil_append] at hskip
    have hlen : (e.buffer.unread.take count).length = min count e.buffer.bufferLength := by
      rw [List.length_take, Buffer.length_unread]
    refine Spec.bind ((pull_spec _ _).pre ?_) (fun e₁ y he₁ ↦ Spec.pure _ (fun e₂ h₂ ↦ ?_))
    · rintro _ rfl hpos
      show e.buffer.bufferLength - min e.buffer.bufferLength count = 0
      omega
    · subst he₁
      obtain ⟨bytes, ht, hy, hle, hstop⟩ := h₂
      have htake := hskip.trans ht
      rw [← hy] at htake
      have hylen : y.1.length = min count e.buffer.bufferLength + bytes.length := by rw [hy, List.length_append, hlen]
      have hwhole : e₀.Sound → y.1.length = count ∨ e₂.pending = [] := by
        intro hs
        rcases hstop with hb | ⟨-, hp⟩
        · exact .inl (by omega)
        · exact .inr (hp (hskip.sound hs))
      by_cases hne : y.1 = []
      · rw [if_pos hne]
        rw [hne] at htake hwhole hylen
        refine ⟨htake, Nat.zero_le _, fun h ↦ absurd rfl h, fun _ ↦ ?_, hwhole⟩
        rcases hstop with hb | ⟨hcode, -⟩
        · rw [List.length_nil] at hylen
          omega
        · exact ⟨hcode, fun h0 ↦ absurd h0 hc⟩
      · have hcount : y.1.length ≤ count := by omega
        rw [if_neg hne]
        exact ⟨htake, hcount, fun _ ↦ rfl, fun h ↦ absurd h hne, hwhole⟩

/-- `readline` where the bytes at hand decide how it ends. -/
def settled : ℕ → Text → Option (Option Text × Text)
  | 0, s => some (none, s)
  | _ + 1, [] => none
  | n + 1, c :: s =>
    if c = '\n' then some (some [], s)
    else if c = '\r' then settled (n + 1) s
    else (settled n s).map (fun p ↦ (p.1.map (c :: ·), p.2))

theorem readline_eq_getD (length : ℕ) (s : Text) : readline length s = (settled length s).getD (none, []) := by
  induction s generalizing length with
  | nil => cases length <;> simp [settled, readline]
  | cons c s ih =>
    cases length with
    | zero => simp [settled, readline]
    | succ length =>
      rw [settled, readline]
      split
      · rfl
      · split
        · exact ih _
        · rw [ih]
          cases settled length s <;> rfl

/-- The characters so far, and the text that the rest of a line gives. -/
def continued (x : Text × ℕ) (rest : Text) : Option (Option Text × Text) :=
  (settled x.2 rest).map (fun p ↦ (p.1.map (x.1 ++ ·), p.2))

def Chars (x : Text × ℕ) (e e' : End) : Text × ℕ ⊕ Text × ℕ ⊕ Text → Prop
  | .inl y => e'.buffer.bufferLength < e.buffer.bufferLength ∧
    ∃ bytes, Takes e e' bytes ∧ ∀ rest, continued x (bytes ++ rest) = continued y rest
  | .inr (.inl y) => e' = e ∧ y = x ∧ (x.2 = 0 ∨ e.buffer.bufferLength = 0)
  | .inr (.inr line) => ∃ bytes, Takes e e' bytes ∧ ∀ rest, continued x (bytes ++ rest) = some (some line, rest)

theorem charStep_spec (x : Text × ℕ) : Spec (fun _ ↦ True) (charStep x) (fun e r e' ↦
    e'.attempts = e.attempts ∧ Chars x e e' r) := by
  obtain ⟨line, length⟩ := x
  refine Spec.at (fun e _ ↦ Spec.run (s := e) (fun _ ↦ rfl) (Spec.ite (fun h ↦ ?_) (fun h ↦ ?_)))
  · obtain ⟨c, left, hc, hu, hs⟩ := Buffer.unread_cons h.2
    obtain ⟨length, rfl⟩ : ∃ m, length = m + 1 := ⟨length - 1, by omega⟩
    have htakes : Takes e { e with buffer := e.buffer.skip 1 } [c] := by
      refine ⟨?_, rfl, List.suffix_rfl, id⟩
      rw [End.pending, End.pending, hu, hs]
      rfl
    have hlt : (e.buffer.skip 1).bufferLength < e.buffer.bufferLength := by
      show e.buffer.bufferLength - min e.buffer.bufferLength 1 < e.buffer.bufferLength
      omega
    rw [hc]
    refine Spec.run (s := e) (fun _ ↦ rfl) (Spec.run (s := e) (fun _ ↦ rfl) ?_)
    refine Spec.ite (fun hn ↦ ?_) (fun hn ↦ Spec.ite (fun hr ↦ ?_) (fun hr ↦ ?_))
    · refine Spec.pure _ ?_
      rintro _ rfl
      refine ⟨rfl, [c], htakes, fun rest ↦ ?_⟩
      simp [continued, settled, hn]
    · refine Spec.pure _ ?_
      rintro _ rfl
      refine ⟨rfl, hlt, [c], htakes, fun rest ↦ ?_⟩
      simp [continued, settled, hr]
    · refine Spec.pure _ ?_
      rintro _ rfl
      refine ⟨rfl, hlt, [c], htakes, fun rest ↦ ?_⟩
      simp [continued, settled, hn, hr, Function.comp_def]
  · refine Spec.pure _ ?_
    rintro _ rfl
    exact ⟨rfl, rfl, rfl, by omega⟩

/-- The state of a line after some bytes of it. -/
def Goes (x : Text × ℕ) (e e' : End) (y : Text × ℕ) : Prop :=
  ∃ bytes, Takes e e' bytes ∧ ∀ rest, continued x (bytes ++ rest) = continued y rest

/-- The end of a line, which does not depend on what comes after it. -/
def Settles (x : Text × ℕ) (e e' : End) (o : Option Text) : Prop :=
  ∃ bytes, Takes e e' bytes ∧ ∀ rest, continued x (bytes ++ rest) = some (o, rest)

theorem Goes.refl (x : Text × ℕ) (e : End) : Goes x e e x := ⟨[], Takes.refl e, fun _ ↦ rfl⟩

theorem Goes.trans {x y z : Text × ℕ} {e e₁ e' : End} (h : Goes x e e₁ y) (h' : Goes y e₁ e' z) : Goes x e e' z := by
  obtain ⟨as, ha, hx⟩ := h
  obtain ⟨bs, hb, hy⟩ := h'
  refine ⟨as ++ bs, ha.trans hb, fun rest ↦ ?_⟩
  rw [List.append_assoc, hx, hy]

theorem Goes.settles {x y : Text × ℕ} {e e₁ e' : End} {o : Option Text} (h : Goes x e e₁ y) (h' : Settles y e₁ e' o) :
    Settles x e e' o := by
  obtain ⟨as, ha, hx⟩ := h
  obtain ⟨bs, hb, hy⟩ := h'
  refine ⟨as ++ bs, ha.trans hb, fun rest ↦ ?_⟩
  rw [List.append_assoc, hx, hy]

theorem goes_of_takes {x : Text × ℕ} {e e' : End} (h : Takes e e' []) : Goes x e e' x := ⟨[], h, fun _ ↦ rfl⟩

def Scans (x : Text × ℕ) (e e' : End) : Text × ℕ ⊕ Text → Prop
  | .inl y => Goes x e e' y ∧ (y.2 = 0 ∨ e'.buffer.bufferLength = 0)
  | .inr line => Settles x e e' (some line)

theorem charLoop_spec (x : Text × ℕ) : Spec (fun _ ↦ True) (loop charStep x) (fun e r e' ↦
    e'.attempts = e.attempts ∧ Scans x e e' r) := by
  refine Spec.loop (fun e₀ y e ↦ e.attempts = e₀.attempts ∧ Goes x e₀ e y) _ (fun e _ ↦ ⟨rfl, Goes.refl x e⟩)
    (fun e₀ y _ ↦ ((charStep_spec y).pre (fun _ _ ↦ trivial)).post (fun e₁ r e₂ h₁ h₂ ↦ ?_))
  obtain ⟨ha, hx⟩ := h₁
  obtain ⟨ha₂, hr⟩ := h₂
  rcases r with z | z | line
  · exact ⟨ha₂.trans ha, hx.trans hr.2⟩
  · obtain ⟨rfl, rfl, hstop⟩ := hr
    exact ⟨ha, hx, hstop⟩
  · exact ⟨ha₂.trans ha, hx.settles hr⟩

/-- How a line ends: with the end of the line or of the buffer for it, or
because nothing comes any more. -/
def Stops (x : Text × ℕ) (e e' : End) (o : Option Text) : Prop :=
  Settles x e e' o ∨ o = none ∧ ∃ y, Goes x e e' y ∧ e'.buffer.bufferLength = 0 ∧ (e.Sound → e'.pending = [])

def Advances (x : Text × ℕ) (e e' : End) : Text × ℕ ⊕ Option Text → Prop
  | .inl y => Goes x e e' y ∧ e'.attempts.length < e.attempts.length
  | .inr o => Stops x e e' o

theorem lineStep_spec (x : Text × ℕ) : Spec (fun _ ↦ True) (lineStep x) (fun e r e' ↦ Advances x e e' r) := by
  refine Spec.bind (charLoop_spec x) (fun e r _ ↦ Spec.at (fun e₁ h₁ ↦ ?_))
  obtain ⟨ha, hr⟩ := h₁
  rcases r with y | line
  · obtain ⟨hgo, hy⟩ := hr
    refine Spec.ite (fun h0 ↦ ?_) (fun h0 ↦ ?_)
    · refine Spec.pure _ ?_
      rintro _ rfl
      refine .inl (hgo.settles ⟨[], Takes.refl _, fun rest ↦ ?_⟩)
      simp [continued, h0, settled]
    · refine Spec.bind (fillBuffer_spec.pre (fun _ _ ↦ trivial)) (fun e₂ chunk he₂ ↦ Spec.pure _ (fun e₃ h₃ ↦ ?_))
      subst he₂
      have hgo₃ := hgo.trans (goes_of_takes (x := y) h₃.takes)
      by_cases hc : chunk ≤ 0
      · rw [if_pos hc]
        refine .inr ⟨rfl, y, hgo₃, (h₃.none hc).2.1, fun hs ↦ (h₃.none hc).2.2 ?_⟩
        obtain ⟨bytes, ht, -⟩ := hgo
        exact ht.sound hs
      · rw [if_neg hc]
        have hlt := h₃.used (hy.resolve_left h0)
        rw [ha] at hlt
        exact ⟨hgo₃, hlt⟩
  · refine Spec.pure _ ?_
    rintro _ rfl
    exact .inl hr

theorem linkReadline_spec (length : ℕ) : Spec (fun _ ↦ True) (linkReadline length) (fun e o e' ↦
    Stops ([], length) e e' o) := by
  refine Spec.loop (fun e₀ y e ↦ Goes ([], length) e₀ e y) _ (fun e _ ↦ Goes.refl _ e)
    (fun e₀ y _ ↦ ((lineStep_spec y).pre (fun _ _ ↦ trivial)).post (fun e₁ r e₂ h₁ h₂ ↦ ?_))
  rcases r with z | o
  · exact h₁.trans h₂.1
  · rcases h₂ with h₂ | ⟨rfl, z, hz, hb, hp⟩
    · exact .inl (h₁.settles h₂)
    · refine .inr ⟨rfl, z, h₁.trans hz, hb, fun hs ↦ hp ?_⟩
      obtain ⟨bytes, ht, -⟩ := h₁
      exact ht.sound hs

def Soaks (length : ℕ) (e e' : End) (left : ℕ) (bytes : Text) : Prop := Takes e e' bytes ∧ left + bytes.length = length

theorem linkRead_loop {length left : ℕ} {e e₁ e₂ : End} {bytes : Text} {x : ℤ × Text}
    (h : Soaks length e e₁ left bytes) (hx : Reads (min bufferSize left) e₁ x e₂) :
    Soaks length e e₂ (left - x.2.length) (bytes ++ x.2) ∧ x.2.length ≤ left ∧ (x.1 ≤ 0 ↔ x.2 = []) := by
  have hle := hx.length
  refine ⟨⟨h.1.trans hx.takes, ?_⟩, by omega, fun hc ↦ ?_, fun hn ↦ ?_⟩
  · have := h.2
    rw [List.length_append]
    omega
  · by_contra hne
    have := hx.code hne
    have := List.length_pos_of_ne_nil hne
    omega
  · rcases (hx.none hn).1 with h0 | h1 <;> omega

theorem linkSoak_spec (length : ℕ) : Spec (fun _ ↦ True) (linkSoak length) (fun e total e' ↦
    ∃ left bytes, Soaks length e e' left bytes ∧ total = bytes.length ∧ (e.Sound → left = 0 ∨ e'.pending = [])) := by
  refine Spec.loop (fun e₀ y e ↦ ∃ bytes, Soaks length e₀ e y.2 bytes ∧ y.1 = bytes.length) _
    (fun e _ ↦ ⟨[], ⟨Takes.refl e, rfl⟩, rfl⟩) (fun e₀ y _ ↦ ?_)
  obtain ⟨total, left⟩ := y
  cases left with
  | zero =>
    refine Spec.pure _ ?_
    rintro e ⟨bytes, hs, ht⟩
    exact ⟨0, bytes, hs, ht, fun _ ↦ .inl rfl⟩
  | succ left =>
    refine Spec.bind ((linkRead_spec _).pre (fun _ _ ↦ trivial)) (fun e₁ x h₁ ↦ Spec.pure _ (fun e₂ h₂ ↦ ?_))
    obtain ⟨bytes, hs, ht⟩ := h₁
    obtain ⟨hs₂, -, hc⟩ := linkRead_loop hs h₂
    by_cases h0 : x.1 ≤ 0
    · have hnil := hc.mp h0
      rw [if_pos h0]
      rw [hnil] at hs₂
      refine ⟨_, bytes, by simpa using hs₂, ht, fun hsound ↦ .inr ?_⟩
      refine (h₂.whole (hs.1.sound hsound)).resolve_left ?_
      rw [hnil]
      show 0 ≠ min 65536 (left + 1)
      omega
    · rw [if_neg h0]
      refine ⟨_, hs₂, ?_⟩
      rw [List.length_append, ← ht]

def Stores (space : ℕ) (bytes : Text) (x : ℤ × Text) : Prop :=
  x = ((bytes.length : ℤ), bytes) ∨ space < bytes.length ∧ x = (-1, bytes.take space)

theorem linkStreamToFd_spec (space length : ℕ) : Spec (fun _ ↦ True) (linkStreamToFd space length) (fun e x e' ↦
    ∃ left bytes, Soaks length e e' left bytes ∧ Stores space bytes x ∧
      (e.Sound → length ≤ space → left = 0 ∨ e'.pending = [])) := by
  refine Spec.loop (fun e₀ y e ↦ Soaks length e₀ e y.2.1 y.1 ∧ y.2.2 + y.1.length = space) _
    (fun e _ ↦ ⟨⟨Takes.refl e, rfl⟩, rfl⟩) (fun e₀ y _ ↦ ?_)
  obtain ⟨stored, left, room⟩ := y
  cases left with
  | zero => exact Spec.pure _ (fun e h ↦ ⟨0, stored, h.1, .inl rfl, fun _ _ ↦ .inl rfl⟩)
  | succ left =>
    refine Spec.bind ((linkRead_spec _).pre (fun _ _ ↦ trivial)) (fun e₁ x h₁ ↦ Spec.pure _ (fun e₂ h₂ ↦ ?_))
    obtain ⟨hs, hroom⟩ := h₁
    obtain ⟨hs₂, -, hc⟩ := linkRead_loop hs h₂
    dsimp only at hroom hs₂
    by_cases h0 : x.1 ≤ 0
    · have hnil := hc.mp h0
      rw [if_pos h0]
      rw [hnil] at hs₂
      refine ⟨_, stored, by simpa using hs₂, .inl rfl, fun hsound _ ↦ .inr ?_⟩
      refine (h₂.whole (hs.1.sound hsound)).resolve_left ?_
      rw [hnil]
      show 0 ≠ min 65536 (left + 1)
      omega
    · rw [if_neg h0]
      by_cases hr : room < x.2.length
      · have hlong : space < (stored ++ x.2).length := by
          rw [List.length_append]
          omega
        rw [if_pos hr]
        refine ⟨_, _, hs₂, .inr ⟨hlong, ?_⟩, fun _ hle ↦ ?_⟩
        · rw [List.take_append, List.take_of_length_le (show stored.length ≤ space by omega),
            show space - stored.length = room by omega]
        · have := hs₂.2
          omega
      · rw [if_neg hr]
        refine ⟨hs₂, ?_⟩
        show room - x.2.length + (stored ++ x.2).length = space
        rw [List.length_append]
        omega

inductive Request
  | line (length : ℕ)
  | bytes (count : ℕ)
  | soak (length : ℕ)
  | store (space length : ℕ)

inductive Reply
  | line (o : Option Text)
  | bytes (code : ℤ) (data : Text)
  | soaked
  | stored (code : ℤ)
deriving DecidableEq

def serve : Request → Exec End Reply
  | .line length => do
    let o ← linkReadline length
    pure (.line (o.map Link.cString))
  | .bytes count => do
    let x ← linkRead count
    pure (.bytes x.1 x.2)
  | .soak length => do
    let _ ← linkSoak length
    pure .soaked
  | .store space length => do
    let x ← linkStreamToFd space length
    pure (.stored x.1)

def serveAll : List Request → Exec End (List Reply)
  | [] => pure []
  | r :: rs => do
    let y ← serve r
    let ys ← serveAll rs
    pure (y :: ys)

/-- What a request gets from the link of a worker, which has no buffer. -/
def ask (k : Queue.Key) : Request → Queue.M Reply
  | .line length => do
    let o ← Link.linkReadline k length
    pure (.line o)
  | .bytes count => do
    let x ← Link.linkRead k count
    pure (.bytes x.1 x.2)
  | .soak length => do
    Link.linkSoak k length
    pure .soaked
  | .store _ length => do
    let code ← Link.linkStreamToFd k length
    pure (.stored code)

def askAll (k : Queue.Key) : List Request → Queue.M (List Reply)
  | [] => pure []
  | r :: rs => do
    let y ← ask k r
    let ys ← askAll k rs
    pure (y :: ys)

/-- How much has arrived, whether that is all, and whether a file took it. -/
structure Arrival where
  arrived : ℕ
  closed : Bool
  moved : ℤ

def Arrival.Suits (x : Arrival) (a : Queue.Answer) : Prop :=
  a.arrived = x.arrived ∧ a.closed = x.closed ∧ a.moved = x.moved

section Refinement

variable {e e' : End} {length count n m : ℕ} {k : Queue.Key} {s : Queue.State} {w : Queue.Worker}

theorem continued_nil (rest : Text) : continued ([], length) rest = settled length rest := by
  simp [continued]

/-- The line is the one that a reader of the plain bytes finds among those that
have arrived. -/
theorem linkReadline_line {o : Option Text} (h : linkReadline length n e = .done o e') :
    ∃ arrived, (readline length (e.pending.take arrived)).1 = o ∧
      e'.pending = (readline length (e.pending.take arrived)).2 ++ e.pending.drop arrived := by
  have hread : ∃ bytes, Takes e e' bytes ∧ readline length bytes = (o, []) := by
    rcases (linkReadline_spec length).elim trivial h with ⟨bytes, ht, hr⟩ | ⟨rfl, y, ⟨bytes, ht, hr⟩, -, -⟩
    · have hread := hr []
      rw [List.append_nil, continued_nil] at hread
      exact ⟨bytes, ht, by rw [readline_eq_getD, hread, Option.getD_some]⟩
    · have hread := hr []
      rw [List.append_nil, continued_nil] at hread
      refine ⟨bytes, ht, ?_⟩
      rw [readline_eq_getD, hread, continued]
      cases y.2 <;> simp [settled]
  obtain ⟨bytes, ht, hread⟩ := hread
  refine ⟨bytes.length, ?_⟩
  rw [ht.pending, List.take_left, List.drop_left, hread]
  exact ⟨rfl, rfl⟩

/-- The state after a call that took bytes from the link of the worker. -/
def Follows (k : Queue.Key) (s s' : Queue.State) (text : Text) : Prop :=
  s'.env = s.env ∧ s'.calls = s.calls + 1 ∧ ∃ w, s'.workerTable.lookup k = some w ∧ w.incoming = text

theorem exists_follows {β : Type} {f : Queue.M β} {g : β → Queue.M Reply} {b : β} {F : Queue.Worker → Queue.Worker}
    {y : Reply} {text : Text} (hw : s.workerTable.lookup k = some w)
    (hf : f m s = .done b (({ s with calls := s.calls + 1 } : Queue.State).setWorker k F))
    (hg : g b = pure y) (hF : (F w).incoming = text) :
    ∃ s', (f >>= g) m s = .done y s' ∧ Follows k s s' text := by
  refine ⟨({ s with calls := s.calls + 1 } : Queue.State).setWorker k F, ?_, rfl, rfl, F w, ?_, hF⟩
  · rw [bind_done hf, hg]
    rfl
  · simp only [Queue.State.setWorker, Library.Lookup.Table.lookup_alter, if_pos, hw, Option.map_some]

theorem linkRead_zero (hw : s.workerTable.lookup k = some w) :
    Link.linkRead k 0 m s =
      .done (0, []) (({ s with calls := s.calls + 1 } : Queue.State).setWorker k
        (fun v ↦ { v with incoming := v.incoming.drop 0 })) := by
  simp only [Link.linkRead, bind_apply, Conduct.worker_apply hw]
  show (ite _ _ _ : Queue.M (ℤ × Text)) m _ = _
  rw [Nat.zero_min, List.take_zero, if_pos rfl, if_pos (.inl trivial)]
  rfl

theorem linkStreamToFd_apply (hw : s.workerTable.lookup k = some w) (length : ℤ) :
    Link.linkStreamToFd k length m s =
      .done (if w.incoming.take (min length.toNat (s.env.answers s.calls).arrived) ≠ [] ∧
            (s.env.answers s.calls).moved < 0
          then -1 else (w.incoming.take (min length.toNat (s.env.answers s.calls).arrived)).length)
        (({ s with calls := s.calls + 1 } : Queue.State).setWorker k (fun v ↦ { v with
          incoming := v.incoming.drop
            (w.incoming.take (min length.toNat (s.env.answers s.calls).arrived)).length })) := by
  simp only [Link.linkStreamToFd, bind_apply, Conduct.worker_apply hw]
  rfl

theorem take_bytes {bytes rest : Text} {count : ℕ} (h : bytes.length ≤ count) :
    (bytes ++ rest).take (min count bytes.length) = bytes := by
  rw [min_eq_right h, List.take_left]

/-- A request to the buffered link is one to the plain link, of which so much
has arrived. -/
theorem serve_refines {r : Request} {y : Reply} (h : serve r n e = .done y e') :
    ∃ x : Arrival, ∀ k s w m, s.workerTable.lookup k = some w → w.incoming = e.pending →
      x.Suits (s.env.answers s.calls) → ∃ s', ask k r m s = .done y s' ∧ Follows k s s' e'.pending := by
  cases r with
  | line length =>
    obtain ⟨o, e₁, ho, he⟩ := bind_eq_done h
    cases he
    obtain ⟨arrived, hline, hpend⟩ := linkReadline_line ho
    refine ⟨⟨arrived, false, 0⟩, fun k s w m hw hin hx ↦ ?_⟩
    refine exists_follows hw (Streaming.linkReadline_apply hw length) ?_ ?_
    · rw [hin, hx.1, hline]
    · dsimp only
      rw [hin, hx.1, hpend]
  | bytes count =>
    obtain ⟨⟨code, data⟩, e₁, hx, he⟩ := bind_eq_done h
    cases he
    have hr := (linkRead_spec count).elim trivial hx
    refine ⟨⟨data.length, decide (code = 0), 0⟩, fun k s w m hw hin hx ↦ ?_⟩
    by_cases hc : count = 0
    · subst hc
      have hnil : data = [] := List.eq_nil_of_length_eq_zero (Nat.le_zero.mp hr.length)
      subst hnil
      refine exists_follows hw (linkRead_zero hw) ?_ ?_
      · rw [show code = 0 from (hr.none rfl).2 rfl]
      · dsimp only
        rw [hin, hr.takes.pending]
        rfl
    · have harr : Stdout.arriving w (s.env.answers s.calls) count = data := by
        rw [Stdout.arriving, hin, hx.1, hr.takes.pending, take_bytes hr.length]
      refine exists_follows hw (Stdout.linkRead_apply hw (Nat.pos_of_ne_zero hc) m) ?_ ?_
      · rw [Stdout.received, harr, hx.2.1]
        by_cases hnil : data = []
        · subst hnil
          rcases (hr.none rfl).1 with h0 | h1
          · simp [show code = 0 from h0]
          · simp [show code = -1 from h1]
        · rw [if_neg hnil, show code = data.length from hr.code hnil]
      · dsimp only
        rw [harr, hin, hr.takes.pending, List.drop_left]
  | soak length =>
    obtain ⟨total, e₁, hx, he⟩ := bind_eq_done h
    cases he
    obtain ⟨left, bytes, hs, -⟩ := (linkSoak_spec length).elim trivial hx
    have hle : bytes.length ≤ length := by
      have := hs.2
      omega
    refine ⟨⟨bytes.length, false, 0⟩, fun k s w m hw hin hx ↦ ?_⟩
    refine exists_follows hw (Conduct.linkSoak_apply hw length m) rfl ?_
    dsimp only
    rw [hin, hx.1, hs.1.pending, Int.toNat_natCast, min_eq_right hle, List.drop_left]
  | store space length =>
    obtain ⟨⟨code, file⟩, e₁, hx, he⟩ := bind_eq_done h
    cases he
    obtain ⟨left, bytes, hs, hst, -⟩ := (linkStreamToFd_spec space length).elim trivial hx
    have hle : bytes.length ≤ length := by
      have := hs.2
      omega
    refine ⟨⟨bytes.length, false, if space < bytes.length ∧ code = -1 then -1 else 0⟩, fun k s w m hw hin hx ↦ ?_⟩
    have htake : w.incoming.take (min (length : ℤ).toNat (s.env.answers s.calls).arrived) = bytes := by
      rw [hin, hx.1, hs.1.pending, Int.toNat_natCast, take_bytes hle]
    refine exists_follows hw (linkStreamToFd_apply hw length) ?_ ?_
    · rw [htake, hx.2.2]
      rcases hst with hst | ⟨hlt, hst⟩
      · cases hst
        simp
      · cases hst
        have hne : bytes ≠ [] := by
          rintro rfl
          exact absurd hlt (Nat.not_lt_zero _)
        simp [hlt, hne]
    · dsimp only
      rw [htake, hin, hs.1.pending, List.drop_left]

/-- Whatever the two ends ask of a link in whatever order, and however its
bytes come in, the buffer does not show. -/
theorem link_refines {rs : List Request} {ys : List Reply} (h : serveAll rs n e = .done ys e') :
    ∃ xs : List Arrival, xs.length = rs.length ∧ ∀ k s w m, s.workerTable.lookup k = some w →
      w.incoming = e.pending → (∀ (i : ℕ) x, xs[i]? = some x → x.Suits (s.env.answers (s.calls + i))) →
      ∃ s' w', askAll k rs m s = .done ys s' ∧ s'.workerTable.lookup k = some w' ∧ w'.incoming = e'.pending := by
  induction rs generalizing e ys with
  | nil =>
    cases h
    exact ⟨[], rfl, fun k s w m hw hin _ ↦ ⟨s, w, rfl, hw, hin⟩⟩
  | cons r rs ih =>
    obtain ⟨y, e₁, hy, h⟩ := bind_eq_done h
    obtain ⟨zs, e₂, hzs, h⟩ := bind_eq_done h
    cases h
    obtain ⟨x, hx⟩ := serve_refines hy
    obtain ⟨xs, hlen, hxs⟩ := ih hzs
    refine ⟨x :: xs, congrArg (· + 1) hlen, fun k s w m hw hin hsuits ↦ ?_⟩
    obtain ⟨s₁, hs₁, henv, hcalls, w₁, hw₁, hin₁⟩ := hx k s w m hw hin (hsuits 0 x rfl)
    obtain ⟨s₂, w₂, hs₂, hw₂, hin₂⟩ := hxs k s₁ w₁ m hw₁ hin₁ (fun i z hz ↦ by
      rw [henv, hcalls, Nat.add_assoc, Nat.add_comm 1 i]
      exact hsuits (i + 1) z hz)
    refine ⟨s₂, w₂, ?_, hw₂, hin₂⟩
    rw [askAll, bind_done hs₁, bind_done hs₂]
    rfl

end Refinement

/-- A line and a file that come in three pieces, with a pause in between. -/
def threePieces : End where
  buffer := .empty
  wire := "put\nabcde".toList
  sent := []
  attempts := [.ready 1, .busy true, .ready 3, .ready 2, .ready 5]

theorem link_refines_threePieces : ∃ (e' : End) (xs : List Arrival),
    serveAll [.line 4096, .bytes 3, .soak 2] 20 threePieces =
      .done [.line (some "put".toList), .bytes 3 "abc".toList, .soaked] e' ∧ xs.length = 3 ∧
    ∀ k s w m, s.workerTable.lookup k = some w → w.incoming = threePieces.pending →
      (∀ (i : ℕ) x, xs[i]? = some x → x.Suits (s.env.answers (s.calls + i))) →
      ∃ s' w', askAll k [.line 4096, .bytes 3, .soak 2] m s =
        .done [.line (some "put".toList), .bytes 3 "abc".toList, .soaked] s' ∧
        s'.workerTable.lookup k = some w' ∧ w'.incoming = e'.pending := by
  have hrun : returns (serveAll [.line 4096, .bytes 3, .soak 2]) (fun ys _ ↦
      decide (ys = [.line (some "put".toList), .bytes 3 "abc".toList, .soaked])) 20 threePieces = true := by
    decide +kernel
  obtain ⟨ys, e', h, hys⟩ := exists_of_returns hrun
  rw [of_decide_eq_true hys] at h
  obtain ⟨xs, hlen, hxs⟩ := link_refines h
  exact ⟨e', xs, h, hlen, hxs⟩

end Cyque.Buffering
