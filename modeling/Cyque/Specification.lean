import Cyque.Agreement
import Mathlib.Data.List.Pairwise
import Mathlib.Data.List.TakeWhile

namespace Cyque.Specification

open Library.Execution Library.Scanning Queue Link Files Api Run Agreement

structure Request where
  localName : Text
  remoteName : Text
  cache : Bool
  type : Direction

def addRequest (r : Ref) (c : Request) : M (Option ℕ) :=
  addfile r c.localName c.remoteName c.cache c.type

def describe (command : Text) (cs : List Request) : M Ref := do
  let r ← newTask command
  forEach (fun c ↦ do let _ ← addRequest r c) cs
  pure r

/-- The rules that the entries of a task keep. -/
structure WellSpecified (t : Task) : Prop where
  relative : ∀ f ∈ t.inputFiles ++ t.outputFiles, f.remoteName.head? ≠ some '/'
  inputs : ∀ f ∈ t.inputFiles, ∀ g ∈ t.inputFiles, f.remoteName = g.remoteName → f.payload = g.payload
  outputs : ∀ f ∈ t.outputFiles, ∀ g ∈ t.outputFiles,
    f.payload = g.payload → f.remoteName = g.remoteName
  apart : ∀ f ∈ t.inputFiles, ∀ g ∈ t.outputFiles, f.remoteName ≠ g.remoteName

namespace Request

def file (c : Request) : File :=
  workQueueFileCreate (cString c.remoteName) .file (if c.cache then 1 else 0) (cString c.localName)

/-- When `work_queue_task_specify_file` takes the entry. The outputs are not
looked at for an input. -/
def Admissible (t : Task) (c : Request) : Prop :=
  c.file.remoteName.head? ≠ some '/' ∧
    match c.type with
    | .input => ∀ f ∈ t.inputFiles, f.remoteName = c.file.remoteName → f.payload = c.file.payload
    | .output =>
      (∀ f ∈ t.outputFiles, f.payload = c.file.payload → f.remoteName = c.file.remoteName) ∧
        ∀ f ∈ t.inputFiles, f.remoteName ≠ c.file.remoteName

def append (t : Task) (c : Request) : Task :=
  match c.type with
  | .input => { t with inputFiles := t.inputFiles ++ [c.file] }
  | .output => { t with outputFiles := t.outputFiles ++ [c.file] }

def specify (t : Task) (c : Request) : Option Task :=
  workQueueTaskSpecifyFile t (cString c.localName) (cString c.remoteName) c.type
    (if c.cache then 1 else 0)

end Request

variable {t t' : Task} {c d : Request} {cs : List Request} {r : Ref} {s s' : State} {n : ℕ}

theorem nextMatch_fst (p : File → Bool) (fs : List File) : (nextMatch p fs).1 = fs.any p := by
  induction fs with
  | nil => rfl
  | cons f fs ih =>
    rw [nextMatch, List.any_cons]
    cases hf : p f
    · simpa using ih
    · rfl

theorem nextMatch_snd {p : File → Bool} {fs : List File} (h : (nextMatch p fs).1 = false) :
    (nextMatch p fs).2 = [] := by
  induction fs with
  | nil => rfl
  | cons f fs ih =>
    rw [nextMatch] at h ⊢
    split at h
    · cases h
    · rename_i hf
      rw [if_neg hf]
      exact ih h

theorem conflicts_input (t : Task) (localName remoteName : Text) :
    conflicts t localName remoteName .input = true ↔
      ∃ f ∈ t.inputFiles, f.remoteName = remoteName ∧ f.payload ≠ localName := by
  simp only [conflicts]
  cases h : (nextMatch (fun f ↦ f.remoteName = remoteName ∧ f.payload ≠ localName) t.inputFiles).1
  · rw [nextMatch_snd h]
    rw [nextMatch_fst, List.any_eq_false] at h
    simp only [nextMatch, Bool.or_false, Bool.false_eq_true, false_iff]
    rintro ⟨f, hf, hc⟩
    exact h f hf (decide_eq_true hc)
  · rw [nextMatch_fst, List.any_eq_true] at h
    obtain ⟨f, hf, hc⟩ := h
    exact iff_of_true (Bool.true_or _) ⟨f, hf, of_decide_eq_true hc⟩

theorem conflicts_output (t : Task) (localName remoteName : Text) :
    conflicts t localName remoteName .output = true ↔
      (∃ f ∈ t.outputFiles, f.payload = localName ∧ f.remoteName ≠ remoteName) ∨
        ∃ f ∈ t.inputFiles, f.remoteName = remoteName := by
  simp only [conflicts, nextMatch_fst, Bool.or_eq_true, List.any_eq_true, decide_eq_true_eq]

theorem specify_eq_some_iff : c.specify t = some t' ↔ c.Admissible t ∧ t' = c.append t := by
  unfold Request.specify workQueueTaskSpecifyFile Request.Admissible Request.append
  by_cases hs : (cString c.remoteName).head? = some '/'
  · rw [if_pos hs]
    exact iff_of_false (by rintro ⟨⟩) (fun h ↦ h.1.1 hs)
  rw [if_neg hs]
  have hs' : c.file.remoteName.head? ≠ some '/' := hs
  cases htype : c.type with
  | input =>
    have hc := conflicts_input t (cString c.localName) (cString c.remoteName)
    by_cases hb : conflicts t (cString c.localName) (cString c.remoteName) .input = true
    · rw [if_pos hb]
      obtain ⟨f, hf, hr, hp⟩ := hc.mp hb
      exact iff_of_false (by rintro ⟨⟩) (fun h ↦ hp (h.1.2 f hf hr))
    · rw [if_neg hb]
      have hn : ∀ f ∈ t.inputFiles, f.remoteName = c.file.remoteName → f.payload = c.file.payload :=
        fun f hf hr ↦ by_contra (fun hp ↦ hb (hc.mpr ⟨f, hf, hr, hp⟩))
      simp only [Option.some.injEq]
      exact ⟨fun h ↦ ⟨⟨hs', hn⟩, h.symm⟩, fun h ↦ h.2.symm⟩
  | output =>
    have hc := conflicts_output t (cString c.localName) (cString c.remoteName)
    by_cases hb : conflicts t (cString c.localName) (cString c.remoteName) .output = true
    · rw [if_pos hb]
      refine iff_of_false (by rintro ⟨⟩) (fun h ↦ ?_)
      rcases hc.mp hb with ⟨f, hf, hp, hr⟩ | ⟨f, hf, hr⟩
      · exact hr (h.1.2.1 f hf hp)
      · exact h.1.2.2 f hf hr
    · rw [if_neg hb]
      have hn : ∀ f ∈ t.outputFiles, f.payload = c.file.payload → f.remoteName = c.file.remoteName :=
        fun f hf hp ↦ by_contra (fun hr ↦ hb (hc.mpr (.inl ⟨f, hf, hp, hr⟩)))
      have hn' : ∀ f ∈ t.inputFiles, f.remoteName ≠ c.file.remoteName :=
        fun f hf hr ↦ hb (hc.mpr (.inr ⟨f, hf, hr⟩))
      simp only [Option.some.injEq]
      exact ⟨fun h ↦ ⟨⟨hs', hn, hn'⟩, h.symm⟩, fun h ↦ h.2.symm⟩

theorem specify_eq_none_iff : c.specify t = none ↔ ¬ c.Admissible t := by
  cases h : c.specify t with
  | none =>
    refine iff_of_true rfl (fun ha ↦ ?_)
    rw [specify_eq_some_iff.mpr ⟨ha, rfl⟩] at h
    cases h
  | some t' => exact iff_of_false (by rintro ⟨⟩) (fun hn ↦ hn (specify_eq_some_iff.mp h).1)

/-- The task after a call, taken or not. -/
def next (t : Task) (c : Request) : Task := (c.specify t).getD t

theorem addRequest_apply (r : Ref) (c : Request) (n : ℕ) (s : State) :
    addRequest r c n s = .done none (s.setTask r (fun t ↦ next t c)) := by
  unfold addRequest addfile next
  simp only [bind_apply, get_apply]
  cases h : c.specify (s.heap r) with
  | none =>
    have h' := h
    unfold Request.specify at h'
    simp only [h']
    simp [State.setTask, cgoError, h]
  | some t =>
    have h' := h
    unfold Request.specify at h'
    simp only [h']
    simp [State.setTask, setTask, h]

theorem setTask_setTask (s : State) (r : Ref) (f g : Task → Task) :
    (s.setTask r f).setTask r g = s.setTask r (g ∘ f) := by
  simp [State.setTask]

theorem addRequests_apply (r : Ref) (cs : List Request) (n : ℕ) (s : State) :
    forEach (fun c ↦ do let _ ← addRequest r c) cs n s =
      .done () (s.setTask r (fun t ↦ cs.foldl next t)) := by
  induction cs generalizing s with
  | nil => simp [forEach, State.setTask]
  | cons c cs ih =>
    simp only [forEach, bind_apply, addRequest_apply, pure_apply, ih, setTask_setTask]
    rfl

theorem describe_apply (command : Text) (cs : List Request) (n : ℕ) (s : State) :
    ∃ s', describe command cs n s = .done s.allocated s' ∧
      s'.heap s.allocated = cs.foldl next (workQueueTaskCreate (cString command)) := by
  obtain ⟨u, hu, ht⟩ : ∃ u, newTask command n s = .done s.allocated u ∧
      u.heap s.allocated = workQueueTaskCreate (cString command) :=
    ⟨_, rfl, Function.update_self ..⟩
  refine ⟨u.setTask s.allocated (fun t ↦ cs.foldl next t), ?_, ?_⟩
  · simp only [describe, bind_apply, hu, addRequests_apply, pure_apply]
  · simp [State.setTask, ht]

/-- No output that the task has already would share the remote name of a new
input. -/
def Clear (t : Task) (c : Request) : Prop :=
  c.type = .input → ∀ f ∈ t.outputFiles, f.remoteName ≠ c.file.remoteName

theorem next_of_admissible (h : c.Admissible t) : next t c = c.append t := by
  rw [next, specify_eq_some_iff.mpr ⟨h, rfl⟩]
  rfl

theorem next_of_not_admissible (h : ¬ c.Admissible t) : next t c = t := by
  rw [next, specify_eq_none_iff.mpr h]
  rfl

theorem wellSpecified_append (h : WellSpecified t) (ha : c.Admissible t) (hc : Clear t c) :
    WellSpecified (c.append t) := by
  obtain ⟨hs, hr⟩ := ha
  cases htype : c.type with
  | input =>
    rw [htype] at hr
    have happ : c.append t = { t with inputFiles := t.inputFiles ++ [c.file] } := by
      rw [Request.append, htype]
    rw [happ]
    refine ⟨fun f hf ↦ ?_, fun f hf g hg he ↦ ?_, h.outputs, fun f hf g hg ↦ ?_⟩
    · have := h.relative f
      simp only [List.mem_append, List.mem_singleton] at hf this
      grind
    · have := h.inputs f
      simp only [List.mem_append, List.mem_singleton] at hf hg
      grind
    · rcases List.mem_append.mp hf with hf | hf
      · exact h.apart f hf g hg
      · rw [List.mem_singleton.mp hf]
        exact (hc htype g hg).symm
  | output =>
    rw [htype] at hr
    have happ : c.append t = { t with outputFiles := t.outputFiles ++ [c.file] } := by
      rw [Request.append, htype]
    rw [happ]
    refine ⟨fun f hf ↦ ?_, h.inputs, fun f hf g hg he ↦ ?_, fun f hf g hg ↦ ?_⟩
    · have := h.relative f
      simp only [List.mem_append, List.mem_singleton] at hf this
      grind
    · have := h.outputs f
      simp only [List.mem_append, List.mem_singleton] at hf hg
      grind
    · rcases List.mem_append.mp hg with hg | hg
      · exact h.apart f hf g hg
      · rw [List.mem_singleton.mp hg]
        exact hr.2 f hf

/-- One call keeps the rules exactly when it is clear of the outputs. -/
theorem wellSpecified_next_iff (h : WellSpecified t) : WellSpecified (next t c) ↔ Clear t c := by
  constructor
  · rintro h' htype f hf he
    -- The input is taken, since no input can have the name of an output.
    have ha : c.Admissible t := by
      refine ⟨?_, ?_⟩
      · rw [← he]
        exact h.relative f (List.mem_append_right _ hf)
      · rw [htype]
        exact fun g hg hr ↦ absurd (hr.trans he.symm) (h.apart g hg f hf)
    rw [next_of_admissible ha, Request.append, htype] at h'
    exact h'.apart c.file (List.mem_append_right _ (List.mem_singleton_self _)) f hf he.symm
  · intro hc
    by_cases ha : c.Admissible t
    · rw [next_of_admissible ha]
      exact wellSpecified_append h ha hc
    · rwa [next_of_not_admissible ha]

/-- Every call is clear of the outputs that the calls before it have made. -/
def AllClear (t : Task) (cs : List Request) : Prop :=
  ∀ before c after, cs = before ++ c :: after → Clear (before.foldl next t) c

theorem wellSpecified_calls_iff (h : WellSpecified t) :
    (∀ ds, ds <+: cs → WellSpecified (ds.foldl next t)) ↔ AllClear t cs := by
  constructor
  · rintro hp before c after rfl
    have h₁ := hp before (List.prefix_append _ _)
    have h₂ := hp (before ++ [c]) ⟨after, by simp⟩
    rw [List.foldl_append] at h₂
    exact (wellSpecified_next_iff h₁).mp h₂
  · intro hc ds
    induction ds using List.reverseRecOn with
    | nil => exact fun _ ↦ h
    | append_singleton ds c ih =>
      rintro ⟨after, he⟩
      have hd := ih ⟨c :: after, by rw [← he]; simp⟩
      rw [List.foldl_append]
      exact (wellSpecified_next_iff hd).mpr (hc ds c after (by rw [← he]; simp))

def specifyAll (t : Task) (cs : List Request) : Option Task := cs.foldlM (fun t c ↦ c.specify t) t

/-- What an earlier call demands of a later one. -/
def Compatible (c d : Request) : Prop :=
  match c.type, d.type with
  | .input, .input => c.file.remoteName = d.file.remoteName → c.file.payload = d.file.payload
  | .output, .output => c.file.payload = d.file.payload → c.file.remoteName = d.file.remoteName
  | .input, .output => c.file.remoteName ≠ d.file.remoteName
  | .output, .input => True

theorem admissible_append : d.Admissible (c.append t) ↔ d.Admissible t ∧ Compatible c d := by
  unfold Request.Admissible Request.append Compatible
  cases hc : c.type <;> cases hd : d.type <;>
    simp only [List.mem_append, List.mem_singleton] <;> grind

theorem specifyAll_isSome_iff : (specifyAll t cs).isSome ↔
    (∀ c ∈ cs, c.Admissible t) ∧ cs.Pairwise Compatible := by
  induction cs generalizing t with
  | nil => simp [specifyAll]
  | cons c cs ih =>
    by_cases ha : c.Admissible t
    · have hs : specifyAll t (c :: cs) = specifyAll (c.append t) cs := by
        simp only [specifyAll, List.foldlM_cons, specify_eq_some_iff.mpr ⟨ha, rfl⟩]
        rfl
      rw [hs, ih, List.pairwise_cons]
      simp only [List.mem_cons, forall_eq_or_imp, admissible_append]
      exact ⟨fun h ↦ ⟨⟨ha, fun d hd ↦ (h.1 d hd).1⟩, fun d hd ↦ (h.1 d hd).2, h.2⟩,
        fun h ↦ ⟨fun d hd ↦ ⟨h.1.2 d hd, h.2.1 d hd⟩, h.2.2⟩⟩
    · have hs : specifyAll t (c :: cs) = none := by
        simp only [specifyAll, List.foldlM_cons, specify_eq_none_iff.mpr ha]
        rfl
      rw [hs]
      exact iff_of_false (by simp) (fun h ↦ ha (h.1 c (List.mem_cons_self ..)))

def Lawful (cs : List Request) : Prop :=
  (∀ c ∈ cs, c.file.remoteName.head? ≠ some '/') ∧
    ∀ c ∈ cs, ∀ d ∈ cs, c.type = d.type → Compatible c d

def Crossed (cs : List Request) : Prop :=
  ∃ c ∈ cs, ∃ d ∈ cs, c.type = .input ∧ d.type = .output ∧ c.file.remoteName = d.file.remoteName

theorem Lawful.congr {ds : List Request} (h : ∀ c, c ∈ ds ↔ c ∈ cs) : Lawful ds ↔ Lawful cs := by
  unfold Lawful
  simp only [h]

theorem Crossed.congr {ds : List Request} (h : ∀ c, c ∈ ds ↔ c ∈ cs) : Crossed ds ↔ Crossed cs := by
  unfold Crossed
  simp only [h]

theorem compatible_self (c : Request) : Compatible c c := by
  unfold Compatible
  cases c.type <;> exact fun _ ↦ rfl

theorem Compatible.symm (h : Compatible c d) (ht : c.type = d.type) : Compatible d c := by
  unfold Compatible at h ⊢
  rw [← ht] at h ⊢
  cases hc : c.type <;> rw [hc] at h <;> exact fun he ↦ (h he.symm).symm

abbrev blank (command : Text) : Task := workQueueTaskCreate (cString command)

theorem taken_iff (command : Text) : (specifyAll (blank command) cs).isSome ↔
    (∀ c ∈ cs, c.file.remoteName.head? ≠ some '/') ∧ cs.Pairwise Compatible := by
  have ha : ∀ c : Request, c.Admissible (blank command) ↔ c.file.remoteName.head? ≠ some '/' := by
    intro c
    unfold Request.Admissible
    cases c.type <;> simp [workQueueTaskCreate]
  simp only [specifyAll_isSome_iff, ha]

theorem lawful_of_taken {command : Text} (h : (specifyAll (blank command) cs).isSome) :
    Lawful cs := by
  obtain ⟨hr, hp⟩ := (taken_iff command).mp h
  refine ⟨hr, fun c hc d hd ↦ ?_⟩
  have hsame : cs.Pairwise (fun c d ↦ c.type = d.type → Compatible c d) := by
    refine List.Pairwise.imp ?_ hp
    exact fun h _ ↦ h
  have hsymm : Std.Symm (fun c d : Request ↦ c.type = d.type → Compatible c d) :=
    ⟨fun _ _ h ht ↦ (h ht.symm).symm ht.symm⟩
  exact hsame.forall_of_forall (fun c _ _ ↦ compatible_self c) hc hd

theorem taken_of_lawful (command : Text) (h : Lawful cs) (hc : ¬ Crossed cs) :
    (specifyAll (blank command) cs).isSome := by
  refine (taken_iff command).mpr ⟨h.1, List.pairwise_of_forall_mem_list (fun c hm d hd ↦ ?_)⟩
  by_cases ht : c.type = d.type
  · exact h.2 c hm d hd ht
  · unfold Compatible
    cases hct : c.type with
    | output =>
      cases hdt : d.type with
      | input => trivial
      | output => exact absurd (hct.trans hdt.symm) ht
    | input =>
      cases hdt : d.type with
      | input => exact absurd (hct.trans hdt.symm) ht
      | output => exact fun he ↦ hc ⟨c, hm, d, hd, hct, hdt, he⟩

/-- The calls for one direction, then those for the other. -/
def inOrder (first : Direction) (cs : List Request) : List Request :=
  cs.filter (·.type = first) ++ cs.filter (fun c ↦ !decide (c.type = first))

theorem inOrder_perm (first : Direction) (cs : List Request) : (inOrder first cs).Perm cs :=
  List.filter_append_perm _ cs

theorem lawful_pairwise (h : Lawful cs) (p : Request → Bool)
    (hp : ∀ c d, p c = true → p d = true → c.type = d.type) :
    (cs.filter p).Pairwise Compatible := by
  refine List.pairwise_of_forall_mem_list (fun c hc d hd ↦ ?_)
  rw [List.mem_filter] at hc hd
  exact h.2 c hc.1 d hd.1 (hp c d hc.2 hd.2)

theorem taken_outputs_first (command : Text) (h : Lawful cs) :
    (specifyAll (blank command) (inOrder .output cs)).isSome := by
  refine (taken_iff command).mpr ⟨fun c hc ↦ h.1 c ((inOrder_perm .output cs).mem_iff.mp hc), ?_⟩
  refine List.pairwise_append.mpr ⟨lawful_pairwise h _ ?_, lawful_pairwise h _ ?_, fun c hc d hd ↦ ?_⟩
  · intro c d hc hd
    rw [of_decide_eq_true hc, of_decide_eq_true hd]
  · intro c d hc hd
    cases hct : c.type <;> cases hdt : d.type <;> simp_all
  · have hct := (List.mem_filter.mp hc).2
    have hdt := (List.mem_filter.mp hd).2
    unfold Compatible
    cases hc' : c.type <;> cases hd' : d.type <;> simp_all

theorem not_taken_inputs_first (command : Text) (h : Crossed cs) :
    ¬ (specifyAll (blank command) (inOrder .input cs)).isSome := by
  intro hs
  obtain ⟨c, hc, d, hd, hct, hdt, he⟩ := h
  have hp := (List.pairwise_append.mp ((taken_iff command).mp hs).2).2.2
  have hcd := hp c (List.mem_filter.mpr ⟨hc, by simpa using hct⟩) d
    (List.mem_filter.mpr ⟨hd, by simp [hdt]⟩)
  unfold Compatible at hcd
  rw [hct, hdt] at hcd
  exact hcd he

theorem order_matters_iff (command : Text) (cs : List Request) :
    (∀ ds, ds.Perm cs → ((specifyAll (blank command) ds).isSome ↔
      (specifyAll (blank command) cs).isSome)) ↔ (Crossed cs → ¬ Lawful cs) := by
  constructor
  · intro h hc hl
    have hin := h _ (inOrder_perm .input cs)
    have hout := h _ (inOrder_perm .output cs)
    exact not_taken_inputs_first command hc (hin.mpr (hout.mp (taken_outputs_first command hl)))
  · intro h ds hp
    have hm : ∀ c, c ∈ ds ↔ c ∈ cs := fun c ↦ hp.mem_iff
    by_cases hl : Lawful cs
    · have hc : ¬ Crossed cs := fun hc ↦ h hc hl
      refine iff_of_true (taken_of_lawful command ((Lawful.congr hm).mpr hl) ?_)
        (taken_of_lawful command hl hc)
      exact fun hc' ↦ hc ((Crossed.congr hm).mp hc')
    · refine iff_of_false (fun hs ↦ hl ?_) (fun hs ↦ hl (lawful_of_taken hs))
      exact (Lawful.congr hm).mp (lawful_of_taken hs)

theorem wellSpecified_blank (command : Text) : WellSpecified (blank command) := by
  refine ⟨?_, ?_, ?_, ?_⟩ <;> intro f hf <;> exact absurd hf List.not_mem_nil

/-- After each call the entries keep the rules exactly when no input comes after
an output with its remote name, and the order of the calls matters exactly when
an input and an output share a remote name and no other rule is broken. -/
theorem specification_consistent_iff (command : Text) (cs : List Request) (n : ℕ) (s : State) :
    ((∀ ds, ds <+: cs → ∃ r s', describe command ds n s = .done r s' ∧ WellSpecified (s'.heap r)) ↔
        AllClear (blank command) cs) ∧
      ((∀ ds, ds.Perm cs → ((specifyAll (blank command) ds).isSome ↔
        (specifyAll (blank command) cs).isSome)) ↔ (Crossed cs → ¬ Lawful cs)) := by
  refine ⟨?_, order_matters_iff command cs⟩
  rw [← wellSpecified_calls_iff (wellSpecified_blank command)]
  refine forall_congr' (fun ds ↦ imp_congr_right (fun _ ↦ ?_))
  obtain ⟨s', hs', ht⟩ := describe_apply command ds n s
  rw [← ht]
  constructor
  · rintro ⟨r, u, hu, hw⟩
    rw [hs'] at hu
    cases hu
    exact hw
  · exact fun hw ↦ ⟨_, s', hs', hw⟩

def outputThenInput : List Request :=
  [⟨['a'], ['x'], false, .output⟩, ⟨['b'], ['x'], false, .input⟩]

theorem addInfile_shares_output :
    (∃ r s', describe [] outputThenInput 0 (newQueue silence) = .done r s' ∧
        ¬ WellSpecified (s'.heap r)) ∧
      (specifyAll (blank []) outputThenInput).isSome ∧
      ¬ (specifyAll (blank []) outputThenInput.reverse).isSome := by
  refine ⟨?_, by decide, by decide⟩
  obtain ⟨s', hs', ht⟩ := describe_apply [] outputThenInput 0 (newQueue silence)
  refine ⟨_, s', hs', fun h ↦ ?_⟩
  rw [ht] at h
  exact h.apart _ (List.mem_singleton_self _) _ (List.mem_singleton_self _) rfl

/-- The new entry, with the names as they are given in Go. -/
def Appended (r : Ref) (c : Request) (s s' : State) : Prop :=
  s' = s.setTask r (fun t ↦
    let f := workQueueFileCreate c.remoteName .file (if c.cache then 1 else 0) c.localName
    match c.type with
    | .input => { t with inputFiles := t.inputFiles ++ [f] }
    | .output => { t with outputFiles := t.outputFiles ++ [f] })

/-- The error tells whether the entry was made. -/
def Reports (r : Ref) (c : Request) (e : Option ℕ) (s s' : State) : Prop :=
  (e = none ↔ Appended r c s s') ∧ (e ≠ none ↔ s'.heap r = s.heap r)

theorem cString_eq_iff (x : Text) : cString x = x ↔ '\x00' ∉ x := by
  rw [cString, List.takeWhile_eq_self_iff]
  constructor
  · exact fun h hm ↦ by simpa using h _ hm
  · intro h a ha
    have hne : a ≠ '\x00' := by
      rintro rfl
      exact h ha
    simpa using hne

theorem append_ne (c : Request) (t : Task) : c.append t ≠ t := by
  intro h
  unfold Request.append at h
  cases htype : c.type with
  | input =>
    rw [htype] at h
    have := congrArg (fun t ↦ t.inputFiles.length) h
    simp at this
  | output =>
    rw [htype] at h
    have := congrArg (fun t ↦ t.outputFiles.length) h
    simp at this

theorem appended_iff : Appended r c s (s.setTask r (fun t ↦ c.append t)) ↔
    '\x00' ∉ c.localName ∧ '\x00' ∉ c.remoteName := by
  rw [← cString_eq_iff, ← cString_eq_iff]
  constructor
  · intro h
    have ht := congrArg (fun s ↦ (s.heap r).inputFiles ++ (s.heap r).outputFiles) h
    unfold Request.append at ht
    cases htype : c.type <;>
      simpa [State.setTask, htype, Request.file, workQueueFileCreate, and_comm] using ht
  · rintro ⟨hl, hr⟩
    unfold Appended Request.append Request.file
    rw [hl, hr]

/-- The call always returns nil, so that it reports what it did exactly where
the entry is made under the very names. -/
theorem addfile_reports_iff (r : Ref) (c : Request) (n : ℕ) (s : State) :
    ∃ e s', addfile r c.localName c.remoteName c.cache c.type n s = .done e s' ∧
      (Reports r c e s s' ↔
        c.Admissible (s.heap r) ∧ '\x00' ∉ c.localName ∧ '\x00' ∉ c.remoteName) := by
  refine ⟨none, _, addRequest_apply r c n s, ?_⟩
  by_cases ha : c.Admissible (s.heap r)
  · have hs : s.setTask r (fun t ↦ next t c) = s.setTask r (fun t ↦ c.append t) := by
      simp only [State.setTask, next_of_admissible ha]
    have hne : ((s.setTask r (fun t ↦ c.append t)).heap r) ≠ s.heap r := by
      simpa [State.setTask] using append_ne c (s.heap r)
    rw [hs, Reports, appended_iff]
    simp [hne, ha]
  · have hs : s.setTask r (fun t ↦ next t c) = s := by
      simp [State.setTask, next_of_not_admissible ha]
    rw [hs]
    refine iff_of_false (fun h ↦ h.2.mpr rfl rfl) (fun h ↦ ha h.1)

theorem addfile_hides_rejection :
    ∃ e s', addfile 0 ['a'] ['/', 'x'] false .input 0 (newQueue silence) = .done e s' ∧
      ¬ Reports 0 ⟨['a'], ['/', 'x'], false, .input⟩ e (newQueue silence) s' := by
  refine ⟨_, _, rfl, fun h ↦ ?_⟩
  exact h.2.mpr rfl rfl

end Cyque.Specification
