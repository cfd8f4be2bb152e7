import Cyque.Buffering

namespace Cyque.Framing

open Library.Execution Library.Scanning Buffering
open Link (workQueueLineMax)

variable {e e' : End} {n count length : ℕ} {x : Text × ℕ} {rest : Text}

theorem Flowing.attempts_ne (hf : e.Flowing) (hw : e.wire ≠ []) : e.attempts ≠ [] := by
  intro ha
  have hle := hf.2
  have hpos := List.length_pos_of_ne_nil hw
  rw [ha, List.countP_nil] at hle
  omega

theorem read_ne_spent (ha : e.attempts ≠ []) : read count n e ≠ .spent := by
  unfold Buffering.read
  split
  · exact fun _ ↦ ha ‹_›
  all_goals rintro ⟨⟩

theorem fillBuffer_ne_spent (hf : e.Flowing) (hp : e.pending ≠ []) (hn : e.attempts.length < n) :
    fillBuffer n e ≠ .spent := by
  unfold fillBuffer
  rw [bind_done (get_apply n e)]
  split
  · rintro ⟨⟩
  · refine loopFor_ne_spent (fun _ e ↦ e.Flowing ∧ e.buffer.bufferLength = 0 ∧ e.pending ≠ [])
      (fun _ e ↦ e.attempts.length)
      (fun _ e h ↦ ⟨?_, fun _ e' he' ↦ ?_⟩) n ⟨hf, by omega, hp⟩ hn
    · have hw : e.wire ≠ [] := by
        have hp := h.2.2
        rwa [End.pending, unread_nil h.2.1, List.nil_append] at hp
      refine bind_ne_spent (read_ne_spent (Flowing.attempts_ne h.1 hw)) (fun g e₁ _ ↦ ?_)
      cases g with
      | data chunk =>
        dsimp only
        split <;> rintro ⟨⟩
      | nothing | again | broken => rintro ⟨⟩
    · obtain ⟨ht, hlt, hr⟩ := fillStep_spec.elim h.2.1 he'
      refine ⟨⟨ht.flowing h.1, hr, ?_⟩, hlt⟩
      have hpend := ht.pending
      rw [List.nil_append] at hpend
      rw [← hpend]
      exact h.2.2

theorem pull_ne_spent (hf : e.Flowing) (hb : 0 < x.2 → e.buffer.bufferLength = 0) (hc : x.2 ≤ e.pending.length)
    (hn : e.attempts.length < n) : loop pullStep x n e ≠ .spent := by
  refine loopFor_ne_spent (fun x e ↦ e.Flowing ∧ (0 < x.2 → e.buffer.bufferLength = 0) ∧ x.2 ≤ e.pending.length)
    (fun _ e ↦ e.attempts.length) (fun x e h ↦ ⟨?_, fun y e' he' ↦ ?_⟩) n ⟨hf, hb, hc⟩ hn
  · obtain ⟨data, count⟩ := x
    cases count with
    | zero => rintro ⟨⟩
    | succ count =>
      have hw : e.wire ≠ [] := by
        have hle := h.2.2
        rw [End.pending, unread_nil (h.2.1 (Nat.succ_pos _)), List.nil_append] at hle
        exact List.ne_nil_of_length_pos (Nat.lt_of_lt_of_le (Nat.succ_pos _) hle)
      refine bind_ne_spent (read_ne_spent (Flowing.attempts_ne h.1 hw)) (fun g e₁ _ ↦ ?_)
      cases g <;> rintro ⟨⟩
  · obtain ⟨hbuf, hlt, chunk, ht, -, hy⟩ := (pullStep_spec x).elim h.2.1 he'
    refine ⟨⟨ht.flowing h.1, fun hpos ↦ ?_, ?_⟩, hlt⟩
    · rw [hbuf]
      exact h.2.1 (by omega)
    · have hle := h.2.2
      rw [ht.pending, List.length_append] at hle
      omega

theorem linkRead_ne_spent (hf : e.Flowing) (hc : count ≤ e.pending.length) (hn : e.attempts.length < n) :
    linkRead count n e ≠ .spent := by
  unfold linkRead
  split
  · rintro ⟨⟩
  · have hp : e.pending ≠ [] := by
      rintro h
      rw [h, List.length_nil] at hc
      omega
    refine bind_ne_spent ?_ (fun chunk e₁ h₁ ↦ ?_)
    · unfold fillFor
      split
      · exact fillBuffer_ne_spent hf hp hn
      · rintro ⟨⟩
    have ht := ((fillFor_spec count).elim trivial h₁).1
    split
    · rintro ⟨⟩
    · have hskip := ht.trans (takes_skip e₁ count)
      rw [bind_done (get_apply n e₁), bind_done (modify_apply _ n e₁)]
      refine bind_ne_spent (pull_ne_spent (hskip.flowing hf) (fun hpos ↦ ?_) ?_ ?_) (fun y e₂ _ ↦ ?_)
      · dsimp only at hpos
        rw [List.length_take, Buffer.length_unread] at hpos
        show e₁.buffer.bufferLength - min e₁.buffer.bufferLength count = 0
        omega
      · rw [hskip.pending, List.length_append, List.nil_append] at hc
        dsimp only
        omega
      · exact Nat.lt_of_le_of_lt (hskip.attempts.length_le) hn
      · rintro ⟨⟩

/-- A bound on the iterations of every loop. -/
def Ample (n : ℕ) (e : End) : Prop := e.attempts.length + e.pending.length + bufferSize < n

instance (n : ℕ) (e : End) : Decidable (Ample n e) := inferInstanceAs (Decidable (_ < n))

theorem Ample.takes {bytes : Text} (h : Ample n e) (ht : Takes e e' bytes) : Ample n e' := by
  have hlen := ht.attempts.length_le
  unfold Ample at h ⊢
  rw [ht.pending, List.length_append] at h
  omega

theorem prompt_charStep (x : Text × ℕ) : Prompt (charStep x) := by
  refine Prompt.bind Prompt.get (fun e ↦ Prompt.ite ?_ (Prompt.pure _))
  refine Prompt.bind (Prompt.deref _) (fun c ↦ Prompt.bind (Prompt.modify _) (fun _ ↦ ?_))
  exact Prompt.ite (Prompt.pure _) (Prompt.ite (Prompt.pure _) (Prompt.pure _))

theorem charLoop_ne_spent (hn : bufferSize < n) : loop charStep x n e ≠ .spent := by
  refine loopFor_ne_spent (fun _ _ ↦ True) (fun _ e ↦ e.buffer.bufferLength)
    (fun x e _ ↦ ⟨?_, fun y e' he' ↦ ?_⟩) n trivial ?_
  · exact prompt_charStep x n e
  · exact ⟨trivial, ((charStep_spec x).elim trivial he').2.1⟩
  · have := e.buffer.inside
    have := e.buffer.small
    omega

theorem linkReadline_ne_spent (hf : e.Flowing) (hs : (settled length e.pending).isSome) (hn : Ample n e) :
    linkReadline length n e ≠ .spent := by
  refine loopFor_ne_spent (fun x e ↦ e.Flowing ∧ (continued x e.pending).isSome ∧ Ample n e)
    (fun _ e ↦ e.attempts.length)
    (fun x e h ↦ ⟨?_, fun y e' he' ↦ ?_⟩) n ⟨hf, by rwa [continued_nil], hn⟩ ?_
  · refine bind_ne_spent (charLoop_ne_spent ?_) (fun r e₁ h₁ ↦ ?_)
    · have := h.2.2
      unfold Ample at this
      omega
    · obtain ⟨-, hr⟩ := (charLoop_spec x).elim trivial h₁
      rcases r with y | line
      · obtain ⟨⟨bytes, ht, hgo⟩, -⟩ := hr
        have hsome := h.2.1
        rw [ht.pending, hgo] at hsome
        dsimp only
        split
        · rintro ⟨⟩
        · refine bind_ne_spent (fillBuffer_ne_spent (ht.flowing h.1) (fun hp ↦ ?_) ?_) (fun chunk e₂ _ ↦ ?_)
          · obtain ⟨m, hm⟩ : ∃ m, y.2 = m + 1 := ⟨y.2 - 1, by omega⟩
            rw [hp, continued, hm] at hsome
            exact absurd hsome (by simp [settled])
          · have := h.2.2.takes ht
            unfold Ample at this
            omega
          · rintro ⟨⟩
      · rintro ⟨⟩
  · obtain ⟨⟨bytes, ht, hgo⟩, hlt⟩ := (lineStep_spec x).elim trivial he'
    refine ⟨⟨ht.flowing h.1, ?_, h.2.2.takes ht⟩, hlt⟩
    rw [← hgo, ← ht.pending]
    exact h.2.1
  · unfold Ample at hn
    omega

theorem linkRead_round {left : ℕ} {y : ℤ × Text} (hf : e.Flowing) (hc : left + 1 ≤ e.pending.length) (hn : Ample n e)
    (h : linkRead (min bufferSize (left + 1)) n e = .done y e') (h0 : ¬ y.1 ≤ 0) :
    (e'.Flowing ∧ left + 1 - y.2.length ≤ e'.pending.length ∧ Ample n e') ∧ left + 1 - y.2.length < left + 1 := by
  have hr := (linkRead_spec _).elim trivial h
  have hne : y.2 ≠ [] := by
    intro hnil
    rcases (hr.none hnil).1 with h1 | h1 <;> omega
  have hpos := List.length_pos_of_ne_nil hne
  have hle := hr.length
  rw [hr.takes.pending, List.length_append] at hc
  exact ⟨⟨hr.takes.flowing hf, by omega, hn.takes hr.takes⟩, by omega⟩

theorem linkRead_chunk_ne_spent {left : ℕ} (hf : e.Flowing) (hc : left + 1 ≤ e.pending.length) (hn : Ample n e) :
    linkRead (min bufferSize (left + 1)) n e ≠ .spent := by
  unfold Ample at hn
  exact linkRead_ne_spent hf (by omega) (by omega)

theorem linkSoak_ne_spent (hf : e.Flowing) (hc : length ≤ e.pending.length) (hn : Ample n e) :
    linkSoak length n e ≠ .spent := by
  refine loopFor_ne_spent (fun y e ↦ e.Flowing ∧ y.2 ≤ e.pending.length ∧ Ample n e) (fun y _ ↦ y.2)
    (fun y e h ↦ ?_) n ⟨hf, hc, hn⟩ ?_
  · obtain ⟨total, left⟩ := y
    cases left with
    | zero => exact ⟨by rintro ⟨⟩, by rintro _ _ ⟨⟩⟩
    | succ left =>
      refine ⟨bind_ne_spent (linkRead_chunk_ne_spent h.1 h.2.1 h.2.2) (by rintro _ _ _ ⟨⟩), fun y' e' he' ↦ ?_⟩
      obtain ⟨⟨actual, data⟩, e₁, hx, he'⟩ := bind_eq_done he'
      dsimp only at he'
      by_cases h0 : actual ≤ 0
      · rw [if_pos h0] at he'
        cases he'
      · rw [if_neg h0] at he'
        cases he'
        exact linkRead_round h.1 h.2.1 h.2.2 hx h0
  · unfold Ample at hn
    dsimp only
    omega

theorem linkStreamToFd_ne_spent {space : ℕ} (hf : e.Flowing) (hc : length ≤ e.pending.length) (hn : Ample n e) :
    linkStreamToFd space length n e ≠ .spent := by
  refine loopFor_ne_spent (fun y e ↦ e.Flowing ∧ y.2.1 ≤ e.pending.length ∧ Ample n e) (fun y _ ↦ y.2.1)
    (fun y e h ↦ ?_) n ⟨hf, hc, hn⟩ ?_
  · obtain ⟨stored, left, room⟩ := y
    cases left with
    | zero => exact ⟨by rintro ⟨⟩, by rintro _ _ ⟨⟩⟩
    | succ left =>
      refine ⟨bind_ne_spent (linkRead_chunk_ne_spent h.1 h.2.1 h.2.2) (by rintro _ _ _ ⟨⟩), fun y' e' he' ↦ ?_⟩
      obtain ⟨⟨actual, data⟩, e₁, hx, he'⟩ := bind_eq_done he'
      dsimp only at he'
      by_cases h0 : actual ≤ 0
      · rw [if_pos h0] at he'
        cases he'
      · rw [if_neg h0] at he'
        by_cases hr : room < data.length
        · rw [if_pos hr] at he'
          cases he'
        · rw [if_neg hr] at he'
          cases he'
          exact linkRead_round h.1 h.2.1 h.2.2 hx h0
  · unfold Ample at hn
    dsimp only
    omega

/-- What a request gives on bytes that are all there, where these suffice. -/
def plain : Request → Text → Option (Reply × Text)
  | .line length, s => (settled length s).map (fun p ↦ (.line (p.1.map Link.cString), p.2))
  | .bytes count, s => if count ≤ s.length then some (.bytes count (s.take count), s.drop count) else none
  | .soak length, s => if length ≤ s.length then some (.soaked, s.drop length) else none
  | .store space length, s =>
    if length ≤ s.length ∧ length ≤ space then some (.stored length, s.drop length) else none

def plainAll : List Request → Text → Option (List Reply × Text)
  | [], s => some ([], s)
  | r :: rs, s => do
    let (y, s) ← plain r s
    let (ys, s) ← plainAll rs s
    pure (y :: ys, s)

theorem eq_take_of_takes {bytes : Text} (ht : Takes e e' bytes) (hle : bytes.length ≤ count)
    (hw : bytes.length = count ∨ e'.pending = []) (hc : count ≤ e.pending.length) :
    bytes = e.pending.take count ∧ e'.pending = e.pending.drop count ∧ bytes.length = count := by
  have hlen : bytes.length = count := by
    rcases hw with hw | hw
    · exact hw
    · rw [ht.pending, hw, List.append_nil] at hc
      omega
  subst hlen
  rw [ht.pending, List.take_left, List.drop_left]
  exact ⟨rfl, rfl, rfl⟩

theorem linkReadline_plain {o : Option Text} (hs : settled length e.pending = some (o, rest)) (hf : e.Flowing)
    (hn : Ample n e) :
    ∃ e', linkReadline length n e = .done o e' ∧ e'.pending = rest ∧ e'.Flowing ∧ Ample n e' := by
  obtain ⟨o', e', hr, hstop⟩ := (linkReadline_spec length).of_ne_spent trivial
    (linkReadline_ne_spent hf (by rw [hs]; rfl) hn)
  have hend : (∃ bytes, Takes e e' bytes) ∧ o' = o ∧ e'.pending = rest := by
    rcases hstop with ⟨bytes, ht, hset⟩ | ⟨rfl, z, ⟨bytes, ht, hgo⟩, -, hnil⟩
    · have heq := hset e'.pending
      rw [← ht.pending, continued_nil, hs] at heq
      cases heq
      exact ⟨⟨bytes, ht⟩, rfl, rfl⟩
    · have heq := hgo e'.pending
      have hnil := hnil hf.1
      rw [← ht.pending, continued_nil, hs, hnil, continued] at heq
      obtain ⟨line, m⟩ := z
      cases m with
      | zero =>
        cases heq
        exact ⟨⟨bytes, ht⟩, rfl, hnil⟩
      | succ m => cases heq
  obtain ⟨⟨bytes, ht⟩, rfl, hrest⟩ := hend
  exact ⟨e', hr, hrest, ht.flowing hf, hn.takes ht⟩

theorem linkRead_plain (hc : count ≤ e.pending.length) (hf : e.Flowing) (hn : Ample n e) :
    ∃ e', linkRead count n e = .done (count, e.pending.take count) e' ∧ e'.pending = e.pending.drop count ∧
      e'.Flowing ∧ Ample n e' := by
  have hlt : e.attempts.length < n := by
    unfold Ample at hn
    omega
  obtain ⟨⟨code, data⟩, e', hr, hx⟩ := (linkRead_spec count).of_ne_spent trivial (linkRead_ne_spent hf hc hlt)
  obtain ⟨hdata, hrest, hlen⟩ := eq_take_of_takes hx.takes hx.length (hx.whole hf.1) hc
  have hcode : code = count := by
    by_cases hnil : data = []
    · subst hnil
      rw [show code = 0 from (hx.none rfl).2 hlen.symm, ← hlen]
      rfl
    · rw [show code = data.length from hx.code hnil]
      exact congrArg Nat.cast hlen
  refine ⟨e', ?_, hrest, hx.takes.flowing hf, hn.takes hx.takes⟩
  dsimp only at hdata
  rw [hr, hcode, hdata]

theorem linkSoak_plain (hc : length ≤ e.pending.length) (hf : e.Flowing) (hn : Ample n e) :
    ∃ total e', linkSoak length n e = .done total e' ∧ e'.pending = e.pending.drop length ∧
      e'.Flowing ∧ Ample n e' := by
  obtain ⟨total, e', hr, left, bytes, hs, -, hw⟩ :=
    (linkSoak_spec length).of_ne_spent trivial (linkSoak_ne_spent hf hc hn)
  have hlen := hs.2
  have hw' : bytes.length = length ∨ e'.pending = [] := by
    rcases hw hf.1 with hw | hw
    · exact .inl (by omega)
    · exact .inr hw
  obtain ⟨-, hrest, -⟩ := eq_take_of_takes hs.1 (by omega) hw' hc
  exact ⟨total, e', hr, hrest, hs.1.flowing hf, hn.takes hs.1⟩

theorem linkStreamToFd_plain {space : ℕ} (hc : length ≤ e.pending.length) (hroom : length ≤ space) (hf : e.Flowing)
    (hn : Ample n e) :
    ∃ e', linkStreamToFd space length n e = .done (length, e.pending.take length) e' ∧
      e'.pending = e.pending.drop length ∧ e'.Flowing ∧ Ample n e' := by
  obtain ⟨⟨code, file⟩, e', hr, left, bytes, hs, hst, hw⟩ := (linkStreamToFd_spec space length).of_ne_spent trivial
    (linkStreamToFd_ne_spent hf hc hn)
  have hlen := hs.2
  have hw' : bytes.length = length ∨ e'.pending = [] := by
    rcases hw hf.1 hroom with hw | hw
    · exact .inl (by omega)
    · exact .inr hw
  obtain ⟨hbytes, hrest, hlength⟩ := eq_take_of_takes hs.1 (by omega) hw' hc
  refine ⟨e', ?_, hrest, hs.1.flowing hf, hn.takes hs.1⟩
  rcases hst with hst | ⟨hlt, -⟩
  · cases hst
    rw [hr, ← hbytes, hlength]
  · omega

theorem serve_plain {r : Request} {y : Reply} (hp : plain r e.pending = some (y, rest)) (hf : e.Flowing)
    (hn : Ample n e) :
    ∃ e', serve r n e = .done y e' ∧ e'.pending = rest ∧ e'.Flowing ∧ Ample n e' := by
  cases r with
  | line length =>
    obtain ⟨⟨o, s⟩, hs, he⟩ := Option.map_eq_some_iff.mp hp
    cases he
    obtain ⟨e', hr, hend⟩ := linkReadline_plain hs hf hn
    exact ⟨e', bind_done hr, hend⟩
  | bytes count =>
    obtain ⟨hc, he⟩ := Option.ite_none_right_eq_some.mp hp
    cases he
    obtain ⟨e', hr, hend⟩ := linkRead_plain hc hf hn
    exact ⟨e', bind_done hr, hend⟩
  | soak length =>
    obtain ⟨hc, he⟩ := Option.ite_none_right_eq_some.mp hp
    cases he
    obtain ⟨total, e', hr, hend⟩ := linkSoak_plain hc hf hn
    exact ⟨e', bind_done hr, hend⟩
  | store space length =>
    obtain ⟨hc, he⟩ := Option.ite_none_right_eq_some.mp hp
    cases he
    obtain ⟨e', hr, hend⟩ := linkStreamToFd_plain hc.1 hc.2 hf hn
    exact ⟨e', bind_done hr, hend⟩

/-- However the bytes come in, a session that they suffice for gets what is in
them. -/
theorem session_determined {rs : List Request} {ys : List Reply} (hp : plainAll rs e.pending = some (ys, rest))
    (hf : e.Flowing) (hn : Ample n e) : ∃ e', serveAll rs n e = .done ys e' ∧ e'.pending = rest := by
  induction rs generalizing e ys with
  | nil =>
    cases hp
    exact ⟨e, rfl, rfl⟩
  | cons r rs ih =>
    rw [plainAll] at hp
    cases hr : plain r e.pending with
    | none =>
      rw [hr] at hp
      cases hp
    | some p =>
      obtain ⟨y, s⟩ := p
      obtain ⟨e₁, he₁, rfl, hf₁, hn₁⟩ := serve_plain hr hf hn
      cases hrs : plainAll rs e₁.pending with
      | none => simp [hr, hrs] at hp
      | some q =>
        obtain ⟨zs, s₂⟩ := q
        simp [hr, hrs] at hp
        obtain ⟨rfl, rfl⟩ := hp
        obtain ⟨e₂, he₂, hrest⟩ := ih hrs hf₁ hn₁
        refine ⟨e₂, ?_, hrest⟩
        rw [serveAll, bind_done he₁, bind_done he₂]
        rfl

theorem session_determined_threePieces : ∃ e', serveAll [.line 4096, .bytes 3, .soak 2] 70000 { threePieces with
      attempts := .busy true :: List.replicate 9 (.ready 1) } =
      .done [.line (some "put".toList), .bytes 3 "abc".toList, .soaked] e' ∧ e'.pending = [] :=
  session_determined (by decide +kernel) (by decide +kernel) (by decide +kernel)

def Accepts (data : Text) (e e' : End) : Got → Prop
  | .data chunk => chunk ≠ [] ∧ e'.sent = e.sent ++ chunk ∧ chunk <+: data
  | _ => e'.sent = e.sent

theorem write_spec (data : Text) : Spec (fun _ ↦ True) (write data) (fun e g e' ↦ Accepts data e e' g) := by
  intro n e _
  unfold write
  obtain ⟨b, wire, sent, attempts⟩ := e
  obtain _ | ⟨a, as⟩ := attempts
  · trivial
  cases a with
  | ready m =>
    dsimp only
    by_cases hd : data.take (m + 1) = []
    · rw [if_pos hd, hd]
      exact List.append_nil _
    · rw [if_neg hd]
      exact ⟨hd, rfl, List.take_prefix _ _⟩
  | closed | busy | failed => exact rfl

structure Sends (data : Text) (e e' : End) (done left : Text) : Prop where
  split : data = done ++ left
  sent : e'.sent = e.sent ++ done

theorem Sends.trans {data done left done' left' : Text} {e₁ : End} (h : Sends data e e₁ done left)
    (h' : Sends left e₁ e' done' left') : Sends data e e' (done ++ done') left' := by
  constructor
  · rw [h.split, h'.split, List.append_assoc]
  · rw [h'.sent, h.sent, List.append_assoc]

theorem linkWrite_spec (data : Text) : Spec (fun _ ↦ True) (linkWrite data) (fun e r e' ↦
    ∃ done left, Sends data e e' done left ∧ (done ≠ [] → r = done.length) ∧ (done = [] → r ≤ 0)) := by
  have hloop : Spec (fun _ ↦ True) (loop writeStep ([], data)) (fun e x e' ↦
      ∃ left, Sends data e e' x.1 left ∧ x.2 ≤ 0) := by
    refine Spec.loop (fun e₀ x e ↦ Sends data e₀ e x.1 x.2) _ (fun e _ ↦ ⟨rfl, (List.append_nil _).symm⟩)
      (fun e₀ x _ ↦ ?_)
    obtain ⟨done, left⟩ := x
    cases left with
    | nil => exact Spec.pure _ (fun e h ↦ ⟨[], h, Int.le_refl 0⟩)
    | cons c left =>
      refine Spec.bind ((write_spec _).pre (fun _ _ ↦ trivial)) (fun e₁ g h₁ ↦ Spec.at (fun e₂ h₂ ↦ ?_))
      cases g with
      | data chunk =>
        rintro n e₂ rfl
        obtain ⟨-, hsent, more, hmore⟩ := h₂
        refine h₁.trans ⟨?_, hsent⟩
        dsimp only
        rw [← hmore, List.drop_left]
      | nothing | broken =>
        rintro n e₂ rfl
        exact ⟨c :: left, ⟨h₁.split, Eq.trans h₂ h₁.sent⟩, show (_ : ℤ) ≤ 0 by omega⟩
      | again woken =>
        rintro n e₂ rfl
        have hs : Sends data e₀ e₂ done (c :: left) := ⟨h₁.split, Eq.trans h₂ h₁.sent⟩
        cases woken with
        | true => exact hs
        | false => exact ⟨c :: left, hs, show (-1 : ℤ) ≤ 0 by decide⟩
  refine Spec.bind hloop (fun e₀ x _ ↦ Spec.pure _ (fun e h ↦ ?_))
  obtain ⟨left, hs, hcode⟩ := h
  refine ⟨x.1, left, hs, fun hne ↦ if_neg hne, fun hnil ↦ ?_⟩
  rw [if_pos hnil]
  exact hcode

/-- The result is the length of the data if and only if all of it went out. -/
theorem linkPutlstring_spec (data : Text) : Spec (fun _ ↦ True) (linkPutlstring data) (fun e r e' ↦
    ∃ done left, Sends data e e' done left ∧ (r = data.length ↔ left = [])) := by
  refine Spec.loop (fun e₀ x e ↦ ∃ done, Sends data e₀ e done x.2 ∧ x.1 = (done.length : ℤ)) _
    (fun e _ ↦ ⟨[], ⟨rfl, (List.append_nil _).symm⟩, rfl⟩) (fun e₀ x _ ↦ ?_)
  obtain ⟨total, rest⟩ := x
  cases rest with
  | nil =>
    refine Spec.pure _ ?_
    rintro e ⟨done, hs, ht⟩
    refine ⟨done, [], hs, iff_of_true ?_ rfl⟩
    rw [hs.split, List.append_nil]
    exact ht
  | cons c rest =>
    refine Spec.bind ((linkWrite_spec _).pre (fun _ _ ↦ trivial)) (fun e₁ written h₁ ↦ Spec.pure _ (fun e₂ h₂ ↦ ?_))
    obtain ⟨done, hs, ht⟩ := h₁
    obtain ⟨done', left, hs', hpos, hnone⟩ := h₂
    have hlen : data.length = done.length + (c :: rest).length := by rw [hs.split, List.length_append]
    by_cases hw : 0 < written
    · rw [if_pos hw]
      have hne : done' ≠ [] := fun h ↦ absurd (hnone h) (by omega)
      have hdrop : (c :: rest).drop written.toNat = left := by
        rw [hpos hne, Int.toNat_natCast, hs'.split, List.drop_left]
      refine ⟨done ++ done', ?_, ?_⟩
      · dsimp only
        rw [hdrop]
        exact hs.trans hs'
      · dsimp only at ht ⊢
        rw [ht, hpos hne, List.length_append, Nat.cast_add]
    · rw [if_neg hw]
      have hnil : done' = [] := by
        by_contra hne
        have := hpos hne
        have := List.length_pos_of_ne_nil hne
        omega
      have hleft : left = c :: rest := by rw [hs'.split, hnil, List.nil_append]
      refine ⟨done ++ done', left, hs.trans hs', iff_of_false ?_ ?_⟩
      · rw [List.length_cons] at hlen
        dsimp only at ht
        split <;> omega
      · rw [hleft]
        exact List.cons_ne_nil _ _

def sendAll : List Text → Exec End (List ℤ)
  | [] => pure []
  | data :: rest => do
    let r ← linkPutlstring data
    let rs ← sendAll rest
    pure (r :: rs)

def AllSent (texts : List Text) (rs : List ℤ) : Prop := rs = texts.map (fun t ↦ (t.length : ℤ))

theorem sendAll_sent {texts : List Text} {rs : List ℤ} (h : sendAll texts n e = .done rs e') (hr : AllSent texts rs) :
    e'.sent = e.sent ++ texts.flatten := by
  induction texts generalizing e rs with
  | nil =>
    cases h
    exact (List.append_nil _).symm
  | cons t texts ih =>
    obtain ⟨r, e₁, hr₁, h⟩ := bind_eq_done h
    obtain ⟨rs', e₂, hr₂, h⟩ := bind_eq_done h
    cases h
    rw [AllSent, List.map_cons, List.cons.injEq] at hr
    obtain ⟨done, left, hs, hiff⟩ := (linkPutlstring_spec t).elim trivial hr₁
    have hnil := hiff.mp hr.1
    rw [ih hr₂ hr.2, hs.sent, List.flatten_cons, hs.split, hnil, List.append_nil, List.append_assoc]

theorem settled_line {line : Text} (hl : Streaming.Clean line) (hn : line.length < length) :
    settled length (line ++ '\n' :: rest) = some (some line, rest) := by
  induction line generalizing length with
  | nil =>
    obtain ⟨m, rfl⟩ := Nat.exists_eq_succ_of_ne_zero (by omega : length ≠ 0)
    rfl
  | cons x line ih =>
    obtain ⟨m, rfl⟩ := Nat.exists_eq_succ_of_ne_zero (by omega : length ≠ 0)
    rw [List.length_cons] at hn
    have hx := hl x (List.mem_cons_self ..)
    have hih : settled m (line ++ '\n' :: rest) = _ := ih (fun y hy ↦ hl y (List.mem_cons_of_mem x hy)) (by omega)
    rw [List.cons_append, settled, if_neg hx.1, if_neg hx.2.1, hih]
    rfl

/-- A message, or the content of a file whose length a message gave. -/
inductive Frame
  | line (s : Text)
  | content (s : Text)

namespace Frame

def text : Frame → Text
  | line s => s ++ ['\n']
  | content s => s

def Fits : Frame → Prop
  | line s => Streaming.Clean s ∧ s.length < workQueueLineMax
  | content _ => True

def request : Frame → Request
  | line _ => .line workQueueLineMax
  | content s => .bytes s.length

def reply : Frame → Reply
  | line s => .line (some s)
  | content s => .bytes s.length s

end Frame

theorem plain_frame {f : Frame} (hf : f.Fits) : plain f.request (f.text ++ rest) = some (f.reply, rest) := by
  cases f with
  | line s =>
    have hzero : Link.cString s = s := List.takeWhile_eq_self_iff.mpr (fun x hx ↦ by simpa using (hf.1 x hx).2.2)
    have hs : settled workQueueLineMax (s ++ '\n' :: rest) = some (some s, rest) := settled_line hf.1 hf.2
    show plain (.line workQueueLineMax) (s ++ ['\n'] ++ rest) = some (.line (some s), rest)
    rw [List.append_assoc, plain]
    show Option.map _ (settled workQueueLineMax (s ++ '\n' :: rest)) = _
    rw [hs, Option.map_some, Option.map_some, hzero]
  | content s =>
    show plain (.bytes s.length) (s ++ rest) = some (.bytes s.length s, rest)
    rw [plain, if_pos (by rw [List.length_append]; omega), List.take_left, List.drop_left]

theorem serveAll_frames {fs : List Frame} (hfs : ∀ f ∈ fs, f.Fits)
    (hp : e.pending = (fs.map Frame.text).flatten ++ rest) (hf : e.Flowing) (hn : Ample n e) :
    ∃ e', serveAll (fs.map Frame.request) n e = .done (fs.map Frame.reply) e' ∧ e'.pending = rest := by
  induction fs generalizing e with
  | nil => exact ⟨e, rfl, hp⟩
  | cons f fs ih =>
    have hhead : plain f.request e.pending = some (f.reply, (fs.map Frame.text).flatten ++ rest) := by
      rw [hp, List.map_cons, List.flatten_cons, List.append_assoc]
      exact plain_frame (hfs f List.mem_cons_self)
    obtain ⟨e₁, he₁, hp₁, hf₁, hn₁⟩ := serve_plain hhead hf hn
    obtain ⟨e₂, he₂, hrest⟩ := ih (fun g hg ↦ hfs g (List.mem_cons_of_mem _ hg)) hp₁ hf₁ hn₁
    refine ⟨e₂, ?_, hrest⟩
    rw [List.map_cons, serveAll, bind_done he₁, bind_done he₂]
    rfl

/-- What one end put on the link, as the results of its calls say, the other end
gets frame by frame, however the bytes were cut on either side. -/
theorem frames_survive {fs : List Frame} {a a' b : End} {m : ℕ} {rs : List ℤ} (hfs : ∀ f ∈ fs, f.Fits)
    (h : sendAll (fs.map Frame.text) m a = .done rs a') (hr : AllSent (fs.map Frame.text) rs)
    (hp : a'.sent ++ rest = a.sent ++ b.pending) (hf : b.Flowing) (hn : Ample n b) :
    ∃ b', serveAll (fs.map Frame.request) n b = .done (fs.map Frame.reply) b' ∧ b'.pending = rest := by
  have hsent := sendAll_sent h hr
  rw [hsent, List.append_assoc] at hp
  exact serveAll_frames hfs (List.append_cancel_left hp).symm hf hn

def dispatching : End := ⟨.empty, [], [], [.ready 2, .busy true, .ready 9, .ready 3, .ready 0, .ready 7]⟩

def putFile : List Frame := [.line "put f 5 420".toList, .content "a\nb\x00c".toList]

def arriving : End where
  buffer := .fill "put".toList (by decide)
  wire := " f 5 420\na\nb\x00c".toList
  sent := []
  attempts := [.ready 4, .busy true, .ready 5] ++ List.replicate 14 (.ready 1)

theorem frames_survive_putFile : ∃ a' b', sendAll (putFile.map Frame.text) 10 dispatching = .done [12, 5] a' ∧
    serveAll (putFile.map Frame.request) 70000 arriving = .done (putFile.map Frame.reply) b' ∧ b'.pending = [] := by
  have hsend : returns (sendAll (putFile.map Frame.text)) (fun rs a ↦
      decide (rs = [12, 5] ∧ a.sent = arriving.pending)) 10 dispatching = true := by decide +kernel
  obtain ⟨rs, a', h, hrs⟩ := exists_of_returns hsend
  obtain ⟨rfl, hsent⟩ := of_decide_eq_true hrs
  have hfits : ∀ f ∈ putFile, f.Fits := by
    intro f hf
    rcases List.mem_cons.mp hf with rfl | hf
    · exact ⟨Streaming.clean_of_all (by decide), by decide⟩
    · obtain rfl := List.mem_singleton.mp hf
      trivial
  obtain ⟨b', hb, hrest⟩ := frames_survive (b := arriving) (n := 70000) hfits h rfl
    (by rw [hsent, List.append_nil]; rfl) (by decide +kernel) (by decide +kernel)
  exact ⟨a', b', h, hb, hrest⟩

end Cyque.Framing
