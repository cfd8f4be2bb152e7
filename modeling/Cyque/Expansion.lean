import Cyque.Files
import Mathlib.Data.List.Basic

namespace Cyque.Expansion

open Library.Scanning Files

variable {os arch p : Text}

def osName (os : Text) : Text := if "CYGWIN".toList <:+: os then "Cygwin".toList else os

/-- What the expansion of a name is meant to be: every `$ARCH` and every `$OS`
is replaced, and nothing else changes. -/
def substitute (os arch : Text) : Text → Text
  | [] => []
  | c :: p =>
    if "$ARCH".toList <+: c :: p then arch ++ substitute os arch (p.drop 4)
    else if "$OS".toList <+: c :: p then osName os ++ substitute os arch (p.drop 2)
    else c :: substitute os arch p
termination_by p => p.length

/-- Append to the string in a buffer of the given size. Nothing is left of a
buffer that is overrun. -/
def strcat (size : ℕ) (s t : Text) : Option Text :=
  if (s ++ t).length < size then some (s ++ t) else none

/-- `expandEnvnames` with an eye on the buffer that it allocates. -/
def expandWithin (os arch payload : Text) : Option Text :=
  if '$' ∈ payload then
    (tokens payload).foldlM (fun s token ↦ strcat (payload.length + 50) s (expandToken os arch token)) []
  else some payload

def segments (p : Text) : List Text := p.splitOnP (· = '$')

/-- No segment misleads the expansion: none of them is empty behind a dollar
sign, none starts with `OS` and has `ARCH` further on, and neither word occurs
in front of the first dollar sign. -/
def Expandable (p : Text) : Prop :=
  '$' ∈ p → ¬ "ARCH".toList <:+: (segments p).headD [] ∧ ¬ "OS".toList <:+: (segments p).headD [] ∧
    ∀ s ∈ (segments p).tail, s ≠ [] ∧ ("OS".toList <+: s → ¬ "ARCH".toList <:+: s)

instance : Decidable (Expandable p) := inferInstanceAs (Decidable (_ → _ ∧ _ ∧ _))

def Fits (os arch p : Text) : Prop := '$' ∈ p → (substitute os arch p).length < p.length + 50

/-- Two texts neither of which continues the other. -/
def Apart (s t : Text) : Prop := ¬ s <+: t ∧ ¬ t <+: s

instance {s t : Text} : Decidable (Apart s t) := inferInstanceAs (Decidable (_ ∧ _))

/-- A worker whose names cannot be taken for the variables themselves. -/
structure Ordinary (os arch : Text) : Prop where
  archApart : Apart arch "ARCH".toList
  osApart : Apart (osName os) "OS".toList
  long : 3 ≤ (osName os).length
  other : osName os ≠ "$OS".toList

def join (s : Text) (ss : List Text) : Text := s ++ ss.flatMap (fun t ↦ '$' :: t)

theorem exists_join (p : Text) :
    ∃ s ss, '$' ∉ s ∧ (∀ t ∈ ss, '$' ∉ t) ∧ p = join s ss := by
  induction p with
  | nil => exact ⟨[], [], by simp, by simp, rfl⟩
  | cons c p ih =>
    obtain ⟨s, ss, hs, hss, rfl⟩ := ih
    by_cases hc : c = '$'
    · subst hc
      exact ⟨[], s :: ss, by simp, by simpa using ⟨hs, hss⟩, by simp [join]⟩
    · exact ⟨c :: s, ss, by simpa using ⟨Ne.symm hc, hs⟩, hss, rfl⟩

theorem segments_join {s : Text} {ss : List Text} (hs : '$' ∉ s) (hss : ∀ t ∈ ss, '$' ∉ t) :
    segments (join s ss) = s :: ss := by
  have hfree : ∀ {t : Text}, '$' ∉ t → ∀ c ∈ t, decide (c = '$') = false := by
    intro t ht c hc
    exact decide_eq_false (fun he ↦ ht (he ▸ hc))
  unfold segments join
  induction ss generalizing s with
  | nil =>
    rw [List.flatMap_nil, List.append_nil]
    exact List.splitOnP_eq_singleton (hfree hs)
  | cons t ss ih =>
    rw [List.flatMap_cons, List.cons_append,
      List.splitOnP_append_cons_of_forall_mem (hfree hs) '$' (by decide)]
    rw [ih (hss t (List.mem_cons_self ..)) (fun u hu ↦ hss u (List.mem_cons_of_mem _ hu))]

def replacement (os arch s : Text) : Text :=
  if "ARCH".toList <+: s then arch ++ s.drop 4
  else if "OS".toList <+: s then osName os ++ s.drop 2
  else '$' :: s

/-- What becomes of a segment. `strtok` does not return an empty one. -/
def segment (os arch : Text) (behind : Bool) (s : Text) : Text :=
  if s = [] then [] else expandToken os arch (behind, s)

theorem prefix_append_iff {w s t : Text} (hw : '$' ∉ w) (ht : ∀ c, t.head? = some c → c = '$') :
    w <+: s ++ t ↔ w <+: s := by
  induction w generalizing s with
  | nil => simp
  | cons c w ih =>
    have hc : '$' ≠ c ∧ '$' ∉ w := by simpa using hw
    cases s with
    | nil =>
      refine iff_of_false (fun h ↦ ?_) (by simp)
      obtain ⟨u, rfl⟩ := h
      exact hc.1 (ht c rfl).symm
    | cons d s => rw [List.cons_append, List.cons_prefix_cons, List.cons_prefix_cons, ih hc.2]

theorem substitute_append {s : Text} (hs : '$' ∉ s) (t : Text) :
    substitute os arch (s ++ t) = s ++ substitute os arch t := by
  induction s with
  | nil => rfl
  | cons c s ih =>
    have hc : '$' ≠ c ∧ '$' ∉ s := by simpa using hs
    have hno : ∀ w : Text, ¬ '$' :: w <+: c :: (s ++ t) := by
      intro w h
      exact hc.1 (List.cons_prefix_cons.mp h).1
    have harch : ¬ "$ARCH".toList <+: c :: (s ++ t) := hno _
    have hos : ¬ "$OS".toList <+: c :: (s ++ t) := hno _
    rw [List.cons_append, substitute, if_neg harch, if_neg hos, ih hc.2]
    rfl

theorem substitute_dollar {s t : Text} (hs : '$' ∉ s) (ht : ∀ c, t.head? = some c → c = '$') :
    substitute os arch ('$' :: (s ++ t)) = replacement os arch s ++ substitute os arch t := by
  have hpre : ∀ w : Text, '$' ∉ w → ('$' :: w <+: '$' :: (s ++ t) ↔ w <+: s) := by
    intro w hw
    rw [List.cons_prefix_cons, prefix_append_iff hw ht]
    exact and_iff_right rfl
  have harch : "$ARCH".toList <+: '$' :: (s ++ t) ↔ "ARCH".toList <+: s := hpre _ (by decide)
  have hos : "$OS".toList <+: '$' :: (s ++ t) ↔ "OS".toList <+: s := hpre _ (by decide)
  have hdrop : ∀ n, n ≤ s.length → substitute os arch ((s ++ t).drop n) =
      s.drop n ++ substitute os arch t := by
    intro n hn
    rw [List.drop_append_of_le_length hn]
    exact substitute_append (fun h ↦ hs (List.mem_of_mem_drop h)) t
  rw [substitute, replacement]
  by_cases ha : "ARCH".toList <+: s
  · rw [if_pos (harch.mpr ha), if_pos ha, hdrop 4 ha.length_le, List.append_assoc]
  · rw [if_neg (fun h ↦ ha (harch.mp h)), if_neg ha]
    by_cases ho : "OS".toList <+: s
    · rw [if_pos (hos.mpr ho), if_pos ho, hdrop 2 ho.length_le, List.append_assoc]
    · rw [if_neg (fun h ↦ ho (hos.mp h)), if_neg ho, substitute_append hs]
      rfl

theorem substitute_join {s : Text} {ss : List Text} (hs : '$' ∉ s) (hss : ∀ t ∈ ss, '$' ∉ t) :
    substitute os arch (join s ss) = s ++ ss.flatMap (replacement os arch) := by
  rw [join, substitute_append hs]
  congr 1
  induction ss with
  | nil => simp [substitute]
  | cons t ss ih =>
    have hnext : ∀ c, (ss.flatMap (fun t ↦ '$' :: t)).head? = some c → c = '$' := by
      cases ss with
      | nil => simp
      | cons u ss => simp
    rw [List.flatMap_cons, List.flatMap_cons, List.cons_append,
      substitute_dollar (hss t (List.mem_cons_self ..)) hnext,
      ih (fun u hu ↦ hss u (List.mem_cons_of_mem _ hu))]

theorem substitute_eq (os arch p : Text) : substitute os arch p =
    (segments p).headD [] ++ (segments p).tail.flatMap (replacement os arch) := by
  obtain ⟨s, ss, hs, hss, rfl⟩ := exists_join p
  rw [segments_join hs hss, substitute_join hs hss]
  rfl

theorem flatMap_tokens (ts : List (Bool × Text)) :
    (ts.filter (fun t ↦ t.2 ≠ [])).flatMap (expandToken os arch) =
      ts.flatMap (fun t ↦ segment os arch t.1 t.2) := by
  induction ts with
  | nil => rfl
  | cons t ts ih =>
    by_cases ht : t.2 = []
    · rw [List.filter_cons_of_neg (by simpa using ht), List.flatMap_cons, segment, if_pos ht, ih]
      rfl
    · rw [List.filter_cons_of_pos (by simpa using ht), List.flatMap_cons, List.flatMap_cons, segment,
        if_neg ht, ih]

theorem mem_join {s : Text} {ss : List Text} (hs : '$' ∉ s) : '$' ∈ join s ss ↔ ss ≠ [] := by
  cases ss with
  | nil => simpa [join] using hs
  | cons t ss => simp [join]

theorem expandEnvnames_join {s : Text} {ss : List Text} (hs : '$' ∉ s) (hss : ∀ t ∈ ss, '$' ∉ t)
    (hne : ss ≠ []) : expandEnvnames os arch (join s ss) =
      segment os arch false s ++ ss.flatMap (segment os arch true) := by
  have hseg : (join s ss).splitOnP (· = '$') = s :: ss := segments_join hs hss
  have htok : tokens (join s ss) =
      ((false, s) :: ss.map (fun t ↦ (true, t))).filter (fun t ↦ t.2 ≠ []) := by
    simp only [tokens, hseg]
  rw [expandEnvnames, if_pos ((mem_join hs).mpr hne), htok, flatMap_tokens, List.flatMap_cons,
    List.flatMap_map]

def Sound (s : Text) : Prop := s ≠ [] ∧ ("OS".toList <+: s → ¬ "ARCH".toList <:+: s)

theorem not_arch_prefix {s : Text} (h : "OS".toList <+: s) : ¬ "ARCH".toList <+: s := by
  rintro ⟨t, rfl⟩
  exact absurd h (by simp)

theorem segment_behind {s : Text} (h : Sound s) : segment os arch true s = replacement os arch s := by
  rw [segment, if_neg h.1, expandToken, replacement]
  dsimp only
  by_cases ha : "ARCH".toList <:+: s
  · have hos : ¬ "OS".toList <+: s := fun ho ↦ h.2 ho ha
    rw [if_pos ha, if_neg hos]
  · have harch : ¬ "ARCH".toList <+: s := fun hp ↦ ha hp.isInfix
    rw [if_neg ha, if_neg harch]
    by_cases ho : "OS".toList <:+: s
    · rw [if_pos ho]
      rfl
    · have hos : ¬ "OS".toList <+: s := fun hp ↦ ho hp.isInfix
      rw [if_neg ho, if_neg hos]
      rfl

theorem segment_front {s : Text} (ha : ¬ "ARCH".toList <:+: s) (ho : ¬ "OS".toList <:+: s) :
    segment os arch false s = s := by
  rw [segment, expandToken]
  dsimp only
  rw [if_neg ha, if_neg ho]
  split
  · rename_i h
    exact h.symm
  · rfl

/-- A segment that misleads it comes out too short, or with the variable left
in its place. -/
theorem segment_misled (os arch : Text) {s : Text} (h : ¬ Sound s) :
    segment os arch true s = [] ∧ replacement os arch s = ['$'] ∨
      ∃ t, segment os arch true s = "$OS".toList ++ t ∧ replacement os arch s = osName os ++ t := by
  by_cases hs : s = []
  · subst hs
    exact .inl ⟨if_pos rfl, by simp [replacement]⟩
  · right
    have hbad : "OS".toList <+: s ∧ "ARCH".toList <:+: s := by
      simpa [Sound, hs] using h
    obtain ⟨hos, harch⟩ := hbad
    have hnot := not_arch_prefix hos
    refine ⟨s.drop 2, ?_, ?_⟩
    · obtain ⟨t, rfl⟩ := hos
      rw [segment, if_neg hs, expandToken]
      dsimp only
      rw [if_pos harch, if_neg hnot]
      rfl
    · rw [replacement, if_neg hnot, if_pos hos]

theorem apart_append {s t : Text} (h : Apart s t) (u v : Text) : s ++ u ≠ t ++ v := by
  intro he
  have hs : s <+: t ++ v := ⟨u, he⟩
  rcases List.prefix_or_prefix_of_prefix hs (List.prefix_append t v) with h' | h'
  · exact h.1 h'
  · exact h.2 h'

theorem dollar_append_ne {s : Text} (hs : s ≠ []) (hd : '$' ∉ s) (u v : Text) :
    '$' :: s ++ u ≠ s ++ v := by
  cases s with
  | nil => exact absurd rfl hs
  | cons c s =>
    intro h
    have hhead : '$' = c := (List.cons.inj h).1
    exact hd (hhead ▸ List.mem_cons_self ..)

theorem segment_front_ne {s : Text} (hw : Ordinary os arch) (hd : '$' ∉ s)
    (h : "ARCH".toList <:+: s ∨ "OS".toList <:+: s) (u v : Text) :
    segment os arch false s ++ u ≠ s ++ v := by
  have hs : s ≠ [] := by
    rintro rfl
    simp at h
  rw [segment, if_neg hs, expandToken]
  dsimp only
  by_cases ha : "ARCH".toList <:+: s
  · rw [if_pos ha]
    by_cases hp : "ARCH".toList <+: s
    · obtain ⟨t, rfl⟩ := hp
      rw [if_pos (List.prefix_append _ _)]
      intro he
      rw [List.append_assoc, List.append_assoc] at he
      exact apart_append hw.archApart _ _ he
    · rw [if_neg hp]
      exact dollar_append_ne hs hd u v
  · have ho : "OS".toList <:+: s := h.resolve_left ha
    rw [if_neg ha, if_pos ho]
    by_cases hp : "OS".toList <+: s
    · obtain ⟨t, rfl⟩ := hp
      rw [if_pos (List.prefix_append _ _)]
      intro he
      rw [List.append_assoc, List.append_assoc] at he
      exact apart_append hw.osApart _ _ he
    · rw [if_neg hp]
      exact dollar_append_ne hs hd u v

section Pieces

variable {α β : Type} {f g : α → List β}

theorem length_flatMap_le (l : List α) (h : ∀ a ∈ l, (f a).length ≤ (g a).length) :
    (l.flatMap f).length ≤ (l.flatMap g).length := by
  induction l with
  | nil => exact le_rfl
  | cons a l ih =>
    rw [List.flatMap_cons, List.flatMap_cons, List.length_append, List.length_append]
    exact Nat.add_le_add (h a (List.mem_cons_self ..)) (ih (fun b hb ↦ h b (List.mem_cons_of_mem _ hb)))

/-- Lists that are put together from pieces of which none is longer than its
counterpart are equal only when their pieces are. -/
theorem pieces_eq (l : List α) (hle : ∀ a ∈ l, (f a).length ≤ (g a).length)
    (h : l.flatMap f = l.flatMap g) : ∀ a ∈ l, f a = g a := by
  induction l with
  | nil => simp
  | cons a l ih =>
    have ha := hle a (List.mem_cons_self ..)
    have hl := length_flatMap_le l (fun b hb ↦ hle b (List.mem_cons_of_mem _ hb))
    have hlen := congrArg List.length h
    rw [List.flatMap_cons, List.flatMap_cons] at h
    rw [List.flatMap_cons, List.flatMap_cons, List.length_append, List.length_append] at hlen
    obtain ⟨h₁, h₂⟩ := List.append_inj h (by omega)
    intro b hb
    rcases List.mem_cons.mp hb with rfl | hb
    · exact h₁
    · exact ih (fun c hc ↦ hle c (List.mem_cons_of_mem _ hc)) h₂ b hb

end Pieces

theorem length_segment_le (hw : Ordinary os arch) (s : Text) :
    (segment os arch true s).length ≤ (replacement os arch s).length := by
  by_cases h : Sound s
  · rw [segment_behind h]
  · rcases segment_misled os arch h with ⟨h₁, -⟩ | ⟨t, h₁, h₂⟩
    · rw [h₁]
      exact Nat.zero_le _
    · have hlong := hw.long
      rw [h₁, h₂, List.length_append, List.length_append]
      exact Nat.add_le_add_right hlong _

theorem segment_ne (hw : Ordinary os arch) {s : Text} (h : ¬ Sound s) :
    segment os arch true s ≠ replacement os arch s := by
  rcases segment_misled os arch h with ⟨h₁, h₂⟩ | ⟨t, h₁, h₂⟩
  · rw [h₁, h₂]
    exact (List.cons_ne_nil _ _).symm
  · rw [h₁, h₂]
    intro he
    exact hw.other (List.append_cancel_right he).symm

theorem expandEnvnames_eq (h : Expandable p) : expandEnvnames os arch p = substitute os arch p := by
  obtain ⟨s, ss, hs, hss, rfl⟩ := exists_join p
  rw [substitute_join hs hss]
  by_cases hne : ss = []
  · subst hne
    rw [expandEnvnames, if_neg (fun h ↦ (mem_join hs).mp h rfl)]
    rfl
  · have hex := h ((mem_join hs).mpr hne)
    rw [segments_join hs hss] at hex
    obtain ⟨ha, ho, hsound⟩ := hex
    have hrest : ss.flatMap (segment os arch true) = ss.flatMap (replacement os arch) :=
      List.flatMap_congr (fun t ht ↦ segment_behind (hsound t ht))
    rw [expandEnvnames_join hs hss hne, segment_front (s := s) ha ho, hrest]

theorem expandable_of_eq (hw : Ordinary os arch)
    (h : expandEnvnames os arch p = substitute os arch p) : Expandable p := by
  obtain ⟨s, ss, hs, hss, rfl⟩ := exists_join p
  intro hm
  have hne := (mem_join hs).mp hm
  rw [substitute_join hs hss, expandEnvnames_join hs hss hne] at h
  rw [segments_join hs hss]
  have hfront : ¬ ("ARCH".toList <:+: s ∨ "OS".toList <:+: s) :=
    fun hbad ↦ segment_front_ne hw hs hbad _ _ h
  rw [not_or] at hfront
  rw [segment_front hfront.1 hfront.2] at h
  refine ⟨hfront.1, hfront.2, fun t ht ↦ ?_⟩
  have heq := pieces_eq ss (fun u _ ↦ length_segment_le hw u) (List.append_cancel_left h) t ht
  by_contra hbad
  exact segment_ne hw hbad heq

/-- The buffer is overrun if and only if the whole does not fit. -/
theorem foldlM_strcat {size : ℕ} {f : Bool × Text → Text} (ts : List (Bool × Text)) {s : Text}
    (hs : s.length < size) : ts.foldlM (fun s t ↦ strcat size s (f t)) s =
      if (s ++ ts.flatMap f).length < size then some (s ++ ts.flatMap f) else none := by
  induction ts generalizing s with
  | nil => simp [hs]
  | cons t ts ih =>
    rw [List.foldlM_cons, strcat, List.flatMap_cons]
    by_cases ht : (s ++ f t).length < size
    · rw [if_pos ht, ← List.append_assoc]
      exact ih ht
    · have hlong : ¬ (s ++ (f t ++ ts.flatMap f)).length < size := by
        simp only [List.length_append] at ht ⊢
        omega
      rw [if_neg ht, if_neg hlong]
      rfl

theorem expandWithin_eq (os arch p : Text) : expandWithin os arch p =
    if '$' ∈ p ∧ p.length + 50 ≤ (expandEnvnames os arch p).length then none
    else some (expandEnvnames os arch p) := by
  rw [expandWithin, expandEnvnames]
  by_cases hp : '$' ∈ p
  · rw [if_pos hp, if_pos hp, foldlM_strcat _ (by simp)]
    simp only [List.nil_append, hp, true_and]
    split
    · rw [if_neg (by omega)]
    · rw [if_pos (by omega)]
  · simp [hp]

/-- A name whose segments do not mislead the expansion is expanded as it should
be, when the buffer takes it. No other name is, with an ordinary worker. -/
theorem expansion_faithful_iff (os arch p : Text) :
    (Expandable p ∧ Fits os arch p → expandWithin os arch p = some (substitute os arch p)) ∧
      (Ordinary os arch →
        (expandWithin os arch p = some (substitute os arch p) ↔ Expandable p ∧ Fits os arch p)) := by
  have henough : Expandable p ∧ Fits os arch p → expandWithin os arch p = some (substitute os arch p) := by
    rintro ⟨h, hfits⟩
    rw [expandWithin_eq, expandEnvnames_eq h, if_neg]
    rintro ⟨hm, hlong⟩
    have := hfits hm
    omega
  refine ⟨henough, fun hw ↦ ⟨fun h ↦ ?_, henough⟩⟩
  rw [expandWithin_eq] at h
  split at h
  · cases h
  · rename_i hfits
    have heq := Option.some.inj h
    refine ⟨expandable_of_eq hw heq, fun hm ↦ ?_⟩
    rw [← heq]
    by_contra hlong
    exact hfits ⟨hm, by omega⟩

theorem ordinary_linux : Ordinary "linux".toList "x86_64".toList where
  archApart := by decide
  osApart := by decide
  long := by decide
  other := by decide

theorem expansion_faithful_linux :
    expandWithin "linux".toList "x86_64".toList "lib/$OS-$ARCH/$HOME".toList =
      some "lib/linux-x86_64/$HOME".toList := by
  have hsub : substitute "linux".toList "x86_64".toList "lib/$OS-$ARCH/$HOME".toList =
      "lib/linux-x86_64/$HOME".toList := by
    rw [substitute_eq]
    decide +kernel
  have hfits : Fits "linux".toList "x86_64".toList "lib/$OS-$ARCH/$HOME".toList := by
    intro _
    rw [hsub]
    decide +kernel
  have hexp := ((expansion_faithful_iff _ _ _).2 ordinary_linux).mpr ⟨by decide +kernel, hfits⟩
  exact hexp.trans (congrArg some hsub)

/-- A dollar sign at the end is lost, and alone it leaves nothing; a variable is
not seen in a segment that goes on with `ARCH`, and one is put in front of a
name that has `OS` in it; a long name does not fit. -/
theorem expansion_unfaithful :
    (expandWithin "linux".toList "x86".toList "$".toList = some [] ∧
      substitute "linux".toList "x86".toList "$".toList = "$".toList) ∧
    (expandWithin "linux".toList "x86".toList "cost$".toList = some "cost".toList ∧
      substitute "linux".toList "x86".toList "cost$".toList = "cost$".toList) ∧
    (expandWithin "linux".toList "x86".toList "$OS-ARCH".toList = some "$OS-ARCH".toList ∧
      substitute "linux".toList "x86".toList "$OS-ARCH".toList = "linux-ARCH".toList) ∧
    (expandWithin "linux".toList "x86".toList "SOS$x".toList = some "$SOS$x".toList ∧
      substitute "linux".toList "x86".toList "SOS$x".toList = "SOS$x".toList) ∧
    expandWithin (List.replicate 60 'x') "x86".toList "$OS".toList = none := by
  simp only [substitute_eq]
  decide +kernel

end Cyque.Expansion
