import Cyque.Inputs

namespace Cyque.Sandbox

open Library.Scanning Library.Volumes Library.Paths Queue Transfer Cache Inputs

variable (v : Process)

/-- `link` for a file that was found at a place. It is no failure that the
target exists, or that the directories for it cannot be made. -/
def linkFile (d : Disk) (place : List Text) (targetname : Text) : Bool × Disk :=
  match (if '/' ∈ targetname then createDir v d (dirname targetname) else (true, d)) with
  | (false, d) => (true, d)
  | (true, d) =>
    match resolve v d targetname with
    | .error _ => (false, d)
    | .ok target =>
      match d.entry target with
      | some _ => (true, d)
      | none =>
        match d.link place target with
        | some d => (true, d)
        | none => (false, d)

/-- The entries of a directory, whatever becomes of each. -/
def linkEntries (step : Disk → Text → Option (Bool × Disk)) : Disk → Bool → List Text → Option (Bool × Disk)
  | d, result, [] => some (result, d)
  | d, result, name :: names =>
    if isDot name then linkEntries step d result names
    else
      match step d name with
      | none => none
      | some (r, d) => linkEntries step d (result && r) names

def cacheName (localname : Text) : Text := skipDots localname

def workspaceName (workspace taskname : Text) : Text := workspace ++ '/' :: skipDots taskname

/-- Directories down to some depth; deeper ones are left to a larger one. -/
def linkFileInWorkspace (v : Process) (workspace : Text) (into : Bool) :
    ℕ → Disk → Text → Text → Option (Bool × Disk)
  | 0, _, _, _ => none
  | depth + 1, d, localname, taskname =>
    let sourcename := if into then cacheName localname else workspaceName workspace taskname
    let targetname := if into then workspaceName workspace taskname else cacheName localname
    match stat v d sourcename with
    | .error _ => some (false, d)
    | .ok (place, .directory) =>
      linkEntries (fun d name ↦
          linkFileInWorkspace v workspace into depth d (below localname name) (below taskname name))
        ((mkdir v d targetname).getD d) true (v.order (d.children place))
    | .ok (place, .file _) => some (linkFile v d place targetname)

/-- The inputs of a task, in the loop of `do_task`. -/
def linkInputs (v : Process) (depth : ℕ) (dirname : Text) : Disk → List File → Option (Bool × Disk)
  | d, [] => some (true, d)
  | d, f :: fs =>
    match f.type with
    | .directory =>
      match createDir v d (dirname ++ '/' :: f.remoteName) with
      | (false, d) => some (false, d)
      | (true, d) => linkInputs v depth dirname d fs
    | .file =>
      match linkFileInWorkspace v dirname true depth d f.payload f.remoteName with
      | none => none
      | some (false, d) => some (false, d)
      | some (true, d) => linkInputs v depth dirname d fs

/-- The outputs of a task that has exited, in the loop of `handle_tasks`. -/
def linkOutputs (v : Process) (depth : ℕ) (dirname : Text) : Disk → List File → Option Disk
  | d, [] => some d
  | d, f :: fs =>
    match linkFileInWorkspace v dirname false depth d f.payload f.remoteName with
    | none => none
    | some (_, d) => linkOutputs v depth dirname d fs

/-- The names that there were lead to the same as before, and no file has
changed. -/
structure Extends (d d' : Disk) : Prop where
  inodes : d'.inodes = d.inodes
  entry : ∀ p e, d.entry p = some e → d'.entry p = some e

namespace Extends

variable {d d₁ d' : Disk}

theorem refl (d : Disk) : Extends d d := ⟨rfl, fun _ _ h ↦ h⟩

theorem trans (h : Extends d d₁) (h' : Extends d₁ d') : Extends d d' :=
  ⟨h'.inodes.trans h.inodes, fun p e he ↦ h'.entry p e (h.entry p e he)⟩

theorem of_add {q : List Text} {e : Library.Volumes.Entry} (hq : d.entry q = none) (hi : d'.inodes = d.inodes)
    (he : ∀ p, d'.entry p = if p = q then some e else d.entry p) : Extends d d' := by
  refine ⟨hi, fun p x hp ↦ ?_⟩
  have hne : p ≠ q := by
    rintro rfl
    rw [hq] at hp
    cases hp
  rw [he, if_neg hne]
  exact hp

end Extends

section Extending

variable {v} {d d' : Disk}

theorem extends_volume_mkdir {q : List Text} (h : d.mkdir q = some d') : Extends d d' := by
  unfold Volume.mkdir at h
  split at h
  · rename_i hq
    cases h
    exact .of_add hq.2.2 rfl (fun p ↦ Volume.entry_add _ _)
  · cases h

theorem extends_link {p q : List Text} (h : d.link p q = some d') : Extends d d' := by
  unfold Volume.link at h
  split at h
  · split at h
    · rename_i hq
      cases h
      exact .of_add hq.2.2 rfl (fun p ↦ Volume.entry_add _ _)
    · cases h
  · cases h

theorem extends_mkdir {path : Text} (h : mkdir v d path = some d') : Extends d d' := by
  unfold mkdir at h
  split at h
  · cases h
  · exact extends_volume_mkdir h

theorem extends_makeWay {way : Text} (h : makeWay v d way = some d') : Extends d d' := by
  unfold makeWay at h
  split at h
  · cases h
    exact .refl d
  · cases h
  · exact extends_mkdir h
  · cases h

theorem extends_makeWays (d : Disk) (ways : List Text) : Extends d (makeWays v d ways).2 := by
  induction ways generalizing d with
  | nil => exact .refl d
  | cons way ways ih =>
    rw [makeWays]
    split
    · exact .refl d
    · rename_i hw
      exact (extends_makeWay hw).trans (ih _)

theorem extends_linkFile (d : Disk) (place : List Text) (targetname : Text) :
    Extends d (linkFile v d place targetname).2 := by
  have hdirs : ∀ {r d₁}, (if '/' ∈ targetname then createDir v d (dirname targetname) else (true, d)) = (r, d₁) →
      Extends d d₁ := by
    intro r d₁ h
    split at h
    · have := extends_makeWays (v := v) d (Confinement.waysFrom [] (dirname targetname))
      rw [createDir] at h
      rwa [h] at this
    · cases h
      exact .refl d
  unfold linkFile
  split
  · rename_i h
    exact hdirs h
  · rename_i h
    refine (hdirs h).trans ?_
    split
    · exact .refl _
    · split
      · exact .refl _
      · split
        · rename_i hl
          exact extends_link hl
        · exact .refl _

theorem extends_linkEntries {step : Disk → Text → Option (Bool × Disk)}
    (hs : ∀ d name r d', step d name = some (r, d') → Extends d d') {names : List Text} {result r : Bool}
    (h : linkEntries step d result names = some (r, d')) : Extends d d' := by
  induction names generalizing d result with
  | nil =>
    cases h
    exact .refl _
  | cons name names ih =>
    rw [linkEntries] at h
    split at h
    · exact ih h
    · split at h
      · cases h
      · rename_i hstep
        exact (hs _ _ _ _ hstep).trans (ih h)

theorem extends_linkFileInWorkspace {workspace : Text} {into : Bool} {depth : ℕ} {localname taskname : Text} {r : Bool}
    (h : linkFileInWorkspace v workspace into depth d localname taskname = some (r, d')) : Extends d d' := by
  induction depth generalizing d d' localname taskname r with
  | zero => cases h
  | succ depth ih =>
    rw [linkFileInWorkspace] at h
    split at h
    · cases h
      exact .refl _
    · have hdir : ∀ path, Extends d ((mkdir v d path).getD d) := by
        intro path
        cases hm : mkdir v d path with
        | none => exact .refl d
        | some d₁ => exact extends_mkdir hm
      exact (hdir _).trans (extends_linkEntries (fun _ _ _ _ hstep ↦ ih hstep) h)
    · have h := congrArg Prod.snd (Option.some.inj h)
      dsimp only at h
      rw [← h]
      exact extends_linkFile _ _ _

theorem extends_linkInputs {depth : ℕ} {dirname : Text} {fs : List File} {r : Bool}
    (h : linkInputs v depth dirname d fs = some (r, d')) : Extends d d' := by
  induction fs generalizing d with
  | nil =>
    cases h
    exact .refl _
  | cons f fs ih =>
    rw [linkInputs] at h
    split at h
    · have hdirs := extends_makeWays (v := v) d (Confinement.waysFrom [] (dirname ++ '/' :: f.remoteName))
      rw [createDir] at h
      split at h
      · rename_i hd
        cases h
        rwa [hd] at hdirs
      · rename_i hd
        rw [hd] at hdirs
        exact hdirs.trans (ih h)
    · split at h
      · cases h
      · rename_i hlink
        cases h
        exact extends_linkFileInWorkspace hlink
      · rename_i hlink
        exact (extends_linkFileInWorkspace hlink).trans (ih h)

theorem extends_linkOutputs {depth : ℕ} {dirname : Text} {fs : List File}
    (h : linkOutputs v depth dirname d fs = some d') : Extends d d' := by
  induction fs generalizing d with
  | nil =>
    cases h
    exact .refl _
  | cons f fs ih =>
    rw [linkOutputs] at h
    split at h
    · cases h
    · rename_i hlink
      exact (extends_linkFileInWorkspace hlink).trans (ih h)

/-- Whatever the files of a task are called, linking them takes no name from
another file and changes none. An output does not replace what the cache has
under its name. -/
theorem links_preserve (depth : ℕ) (dirname : Text) (fs : List File) (d : Disk) :
    (∀ r d', linkInputs v depth dirname d fs = some (r, d') → Extends d d') ∧
      ∀ d', linkOutputs v depth dirname d fs = some d' → Extends d d' :=
  ⟨fun _ _ h ↦ extends_linkInputs h, fun _ h ↦ extends_linkOutputs h⟩

end Extending

/-- A source that can be linked to a place that is free. -/
structure Linkable (v : Process) (d : Disk) (source target : List Text) (depth : ℕ) : Prop where
  workspace : d.entry v.workspace = some .directory
  found : (d.entry (v.workspace ++ source)).isSome
  free : d.Open (v.workspace ++ target)
  parent : d.entry (v.workspace ++ source) = some .directory →
    d.entry (v.workspace ++ target).dropLast = some .directory
  aside : Aside (v.workspace ++ source) (v.workspace ++ target)
  names : ∀ t, (d.entry (v.workspace ++ source ++ t)).isSome → ∀ c ∈ t, Name c
  shallow : ∀ t, (d.entry (v.workspace ++ source ++ t)).isSome → t.length < depth

section Linking

variable {v} {d : Disk} {source target : List Text} {depth : ℕ}

theorem exists_concat_of_lt {l : List Text} (h : 2 ≤ l.length) : ∃ dirs c, l = dirs ++ [c] ∧ dirs ≠ [] := by
  have hne : l ≠ [] := by
    rintro rfl
    exact absurd h (by decide)
  refine ⟨_, _, (List.dropLast_append_getLast hne).symm, fun hnil ↦ ?_⟩
  have := congrArg List.length hnil
  rw [List.length_dropLast, List.length_nil] at this
  omega

theorem slash_mem_lead {dirs : List Text} (h : dirs ≠ []) (c : Text) : '/' ∈ lead dirs ++ c := by
  obtain ⟨x, dirs, rfl⟩ := List.exists_cons_of_ne_nil h
  rw [lead_cons]
  simp

theorem linkFile_graft (h : Linkable v d source target depth) (hs : ∀ c ∈ target, Name c) (ht : 2 ≤ target.length)
    {i : ℕ} (hf : d.entry (v.workspace ++ source) = some (.file i)) :
    ∃ d', linkFile v d (v.workspace ++ source) (spell target) = (true, d') ∧ d'.inodes = d.inodes ∧
      ∀ p, d'.entry p = d.graft (v.workspace ++ source) (v.workspace ++ target) p := by
  obtain ⟨dirs, c, rfl, hne⟩ := exists_concat_of_lt ht
  have hdirs : ∀ x ∈ dirs, Name x := fun x hx ↦ hs x (List.mem_append_left _ hx)
  have hc : Name c := hs c (by simp)
  obtain ⟨d₁, hd₁, hi₁, he₁⟩ := exists_createDir v d hdirs hc hne h.workspace h.free
  have hparent : d₁.entry (v.workspace ++ dirs) = some .directory := by
    rw [he₁]
    exact if_pos List.prefix_rfl
  have hfree : d₁.entry (v.workspace ++ (dirs ++ [c])) = none := by
    rw [he₁, ← List.append_assoc, if_neg not_concat_prefix, List.append_assoc]
    exact h.free.1
  have hsource : d₁.entry (v.workspace ++ source) = some (.file i) := by
    have hnot : ¬ v.workspace ++ source <+: v.workspace ++ dirs := by
      intro hp
      refine h.aside.1 (hp.trans ?_)
      rw [← List.append_assoc]
      exact List.prefix_append _ _
    rw [he₁, if_neg hnot]
    exact hf
  have hdrop : d₁.entry (v.workspace ++ (dirs ++ [c])).dropLast = some .directory := by
    rw [← List.append_assoc, List.dropLast_concat]
    exact hparent
  obtain ⟨d', hd', hi, he⟩ := Volume.exists_link hsource hdrop hfree
  refine ⟨d', ?_, hi.trans hi₁, fun p ↦ ?_⟩
  · rw [linkFile, spell_concat, if_pos (slash_mem_lead hne c), hd₁]
    dsimp only
    rw [resolve_free v d₁ hdirs hc hparent]
    dsimp only
    rw [hfree]
    dsimp only
    rw [hd']
  · rw [he, Volume.graft_file hf h.free.1]
    by_cases hp : p = v.workspace ++ (dirs ++ [c])
    · rw [if_pos hp, if_pos hp]
    · rw [if_neg hp, if_neg hp, he₁]
      have hiff : p <+: v.workspace ++ dirs ↔ p <+: v.workspace ++ (dirs ++ [c]) := prefix_iff_concat hp
      simp only [hiff]

theorem Linkable.child (h : Linkable v d source target (depth + 1)) {d₁ : Disk} {done : List Text} {c : Text}
    (hg : d.Grafted d₁ (v.workspace ++ source) (v.workspace ++ target) done) (hc : c ∉ done)
    (hm : (d.entry (v.workspace ++ source ++ [c])).isSome) :
    Linkable v d₁ (source ++ [c]) (target ++ [c]) depth := by
  have hsource : ∀ t, d₁.entry (v.workspace ++ source ++ t) = d.entry (v.workspace ++ source ++ t) :=
    hg.entry_source h.aside.1 h.aside.2
  have hupper : ∀ p, p <+: v.workspace ++ target → d₁.entry p = some .directory := by
    intro p hp
    by_cases he : v.workspace ++ target <+: p
    · obtain rfl := hp.eq_of_length_le he.length_le
      rw [hg.entry, if_pos List.prefix_rfl, List.drop_length]
      rfl
    · rw [hg.entry, if_neg he, if_pos hp]
  constructor
  · exact hupper _ (List.prefix_append _ _)
  · rw [← List.append_assoc, hsource]
    exact hm
  · rw [← List.append_assoc]
    refine ⟨?_, fun p hp hpne ↦ .inr (hupper p ((List.prefix_concat_iff.mp hp).resolve_left hpne))⟩
    rw [hg.entry, if_pos (List.prefix_append _ _), List.drop_left, Volume.sown, if_neg hc]
  · intro _
    rw [← List.append_assoc, List.dropLast_concat]
    exact hupper _ List.prefix_rfl
  · rw [← List.append_assoc, ← List.append_assoc]
    exact h.aside.mono (List.prefix_append _ _) (List.prefix_append _ _)
  · intro t ht x hx
    rw [← List.append_assoc, List.append_assoc, hsource] at ht
    exact h.names _ ht x (List.mem_append_right _ hx)
  · intro t ht
    rw [← List.append_assoc, List.append_assoc, hsource] at ht
    have := h.shallow _ ht
    rw [List.length_append, List.length_singleton] at this
    omega

theorem exists_mkdir_grafted (h : Linkable v d source target depth) (hs : ∀ c ∈ target, Name c) (hne : target ≠ [])
    (hdir : d.entry (v.workspace ++ source) = some .directory) :
    ∃ d', mkdir v d (spell target) = some d' ∧
      d.Grafted d' (v.workspace ++ source) (v.workspace ++ target) [] := by
  obtain ⟨dirs, c, rfl⟩ : ∃ dirs c, target = dirs ++ [c] := ⟨_, _, (List.dropLast_append_getLast hne).symm⟩
  have hparent := h.parent hdir
  have hdirs : d.entry (v.workspace ++ dirs) = some .directory := by
    rwa [← List.append_assoc, List.dropLast_concat] at hparent
  obtain ⟨d', hd', hi, he⟩ := Volume.exists_mkdir hparent h.free.1
  refine ⟨d', ?_, hi, fun r ↦ ?_⟩
  · rw [mkdir, spell_concat, resolve_free v d (fun x hx ↦ hs x (List.mem_append_left _ hx)) (hs c (by simp)) hdirs]
    exact hd'
  · rw [he]
    by_cases hr : v.workspace ++ (dirs ++ [c]) <+: r
    · obtain ⟨t, rfl⟩ := hr
      rw [if_pos (List.prefix_append _ _), List.drop_left]
      cases t with
      | nil => rw [List.append_nil, if_pos rfl, Volume.sown]
      | cons x t =>
        rw [if_neg (by simp), Volume.entry_eq_none_below (List.prefix_append _ _) h.free.1, Volume.sown,
          if_neg List.not_mem_nil]
    · have hrne : r ≠ v.workspace ++ (dirs ++ [c]) := fun h ↦ hr (h ▸ List.prefix_rfl)
      rw [if_neg hr, if_neg hrne]
      by_cases hpre : r <+: v.workspace ++ (dirs ++ [c])
      · rw [if_pos hpre]
        have hpre := (prefix_iff_concat hrne).mpr hpre
        by_cases heq : r = v.workspace ++ dirs
        · rw [heq]
          exact hdirs
        · exact Volume.entry_of_prefix hpre heq (by rw [hdirs]; rfl)
      · rw [if_neg hpre]

theorem linkEntries_grafted {step : Disk → Text → Option (Bool × Disk)}
    (h : Linkable v d source target (depth + 1))
    (hstep : ∀ d₁ c, Name c → Linkable v d₁ (source ++ [c]) (target ++ [c]) depth →
      ∃ d', step d₁ c = some (true, d') ∧ d'.inodes = d₁.inodes ∧
        ∀ p, d'.entry p = d₁.graft (v.workspace ++ (source ++ [c])) (v.workspace ++ (target ++ [c])) p)
    {names done : List Text} {d₁ : Disk} (hnodup : names.Nodup) (hdone : ∀ c ∈ names, c ∉ done)
    (hnames : ∀ c ∈ names, (d.entry (v.workspace ++ source ++ [c])).isSome)
    (hg : d.Grafted d₁ (v.workspace ++ source) (v.workspace ++ target) done) :
    ∃ d' done', linkEntries step d₁ true names = some (true, d') ∧
      d.Grafted d' (v.workspace ++ source) (v.workspace ++ target) done' ∧ ∀ c, c ∈ names ∨ c ∈ done → c ∈ done' := by
  induction names generalizing d₁ done with
  | nil => exact ⟨d₁, done, rfl, hg, fun c hc ↦ hc.resolve_left List.not_mem_nil⟩
  | cons c names ih =>
    obtain ⟨hnot, hnodup⟩ := List.nodup_cons.mp hnodup
    have hm := hnames c List.mem_cons_self
    have hname : Name c := h.names [c] hm c (List.mem_singleton_self c)
    obtain ⟨d₂, hd₂, hi₂, he₂⟩ := hstep d₁ c hname (h.child hg (hdone c List.mem_cons_self) hm)
    simp only [← List.append_assoc] at he₂
    have hg₂ := hg.step h.aside.1 h.aside.2 hi₂ he₂
    have hdone₂ : ∀ x ∈ names, x ∉ c :: done := by
      intro x hx hmem
      rcases List.mem_cons.mp hmem with rfl | hmem
      · exact hnot hx
      · exact hdone x (List.mem_cons_of_mem _ hx) hmem
    obtain ⟨d', done', hrun, hg', hall⟩ := ih hnodup hdone₂ (fun x hx ↦ hnames x (List.mem_cons_of_mem _ hx)) hg₂
    refine ⟨d', done', ?_, hg', fun x hx ↦ hall x ?_⟩
    · have hdot : ¬ isDot c = true := fun hd ↦ (of_decide_eq_true hd).elim hname.dot hname.dots
      rw [linkEntries, if_neg hdot, hd₂]
      exact hrun
    · rcases hx with hx | hx
      · rcases List.mem_cons.mp hx with rfl | hx
        · exact .inr List.mem_cons_self
        · exact .inl hx
      · exact .inr (List.mem_cons_of_mem _ hx)

/-- Where a file is linked from, and where to. -/
def ends (into : Bool) (workspace : Text) (localname taskname : List Text) : List Text × List Text :=
  if into then (localname, workspace :: taskname) else (workspace :: taskname, localname)

theorem ends_concat (into : Bool) (workspace : Text) (localname taskname : List Text) (c : Text) :
    ends into workspace (localname ++ [c]) (taskname ++ [c]) =
      ((ends into workspace localname taskname).1 ++ [c], (ends into workspace localname taskname).2 ++ [c]) := by
  cases into <;> rfl

theorem cacheName_spell {names : List Text} (hne : names ≠ []) (hn : ∀ c ∈ names, Name c) :
    cacheName (spell names) = spell names := by
  obtain ⟨dirs, c, rfl⟩ : ∃ dirs c, names = dirs ++ [c] := ⟨_, _, (List.dropLast_append_getLast hne).symm⟩
  rw [cacheName, spell_concat]
  exact skipDots_lead (fun x hx ↦ hn x (List.mem_append_left _ hx)) (hn c (by simp))

theorem workspaceName_spell {workspace : Text} {names : List Text} (hne : names ≠ []) (hn : ∀ c ∈ names, Name c) :
    workspaceName workspace (spell names) = spell (workspace :: names) := by
  have h := cacheName_spell hne hn
  rw [cacheName] at h
  obtain ⟨dirs, c, rfl⟩ : ∃ dirs c, names = dirs ++ [c] := ⟨_, _, (List.dropLast_append_getLast hne).symm⟩
  have hcons : spell (workspace :: (dirs ++ [c])) = lead (workspace :: dirs) ++ c := by
    rw [← List.cons_append, spell_concat]
  rw [workspaceName, h, spell_concat, hcons, lead_cons, List.append_assoc]
  rfl

theorem stat_spell {names : List Text} {e : Library.Volumes.Entry} (hne : names ≠ []) (hn : ∀ c ∈ names, Name c)
    (h : d.entry (v.workspace ++ names) = some e) : stat v d (spell names) = .ok (v.workspace ++ names, e) := by
  obtain ⟨dirs, c, rfl⟩ : ∃ dirs c, names = dirs ++ [c] := ⟨_, _, (List.dropLast_append_getLast hne).symm⟩
  rw [spell_concat]
  exact stat_found v d (fun x hx ↦ hn x (List.mem_append_left _ hx)) (hn c (by simp)) h

structure Named (workspace : Text) (localname taskname : List Text) : Prop where
  workspace : Name workspace
  local_long : 2 ≤ localname.length
  task_ne_nil : taskname ≠ []
  local_names : ∀ c ∈ localname, Name c
  task_names : ∀ c ∈ taskname, Name c

namespace Named

variable {workspace c : Text} {localname taskname : List Text}

theorem concat (h : Named workspace localname taskname) (hc : Name c) :
    Named workspace (localname ++ [c]) (taskname ++ [c]) := by
  have hall : ∀ {l : List Text}, (∀ x ∈ l, Name x) → ∀ x ∈ l ++ [c], Name x := by
    intro l hl x hx
    rcases List.mem_append.mp hx with hx | hx
    · exact hl x hx
    · exact List.mem_singleton.mp hx ▸ hc
  refine ⟨h.workspace, ?_, by simp, hall h.local_names, hall h.task_names⟩
  have := h.local_long
  rw [List.length_append]
  omega

theorem local_ne_nil (h : Named workspace localname taskname) : localname ≠ [] := by
  rintro rfl
  exact absurd h.local_long (by decide)

theorem task_names_cons (h : Named workspace localname taskname) : ∀ c ∈ workspace :: taskname, Name c := by
  intro c hc
  rcases List.mem_cons.mp hc with rfl | hc
  · exact h.workspace
  · exact h.task_names c hc

theorem from_spell (h : Named workspace localname taskname) (into : Bool) :
    (ends into workspace localname taskname).1 ≠ [] ∧ (∀ c ∈ (ends into workspace localname taskname).1, Name c) ∧
      (if into then cacheName (spell localname) else workspaceName workspace (spell taskname)) =
        spell (ends into workspace localname taskname).1 := by
  cases into with
  | true => exact ⟨h.local_ne_nil, h.local_names, cacheName_spell h.local_ne_nil h.local_names⟩
  | false => exact ⟨List.cons_ne_nil _ _, h.task_names_cons, workspaceName_spell h.task_ne_nil h.task_names⟩

theorem to_spell (h : Named workspace localname taskname) (into : Bool) :
    2 ≤ (ends into workspace localname taskname).2.length ∧
      (∀ c ∈ (ends into workspace localname taskname).2, Name c) ∧
      (if into then workspaceName workspace (spell taskname) else cacheName (spell localname)) =
        spell (ends into workspace localname taskname).2 := by
  cases into with
  | true =>
    refine ⟨?_, h.task_names_cons, workspaceName_spell h.task_ne_nil h.task_names⟩
    have := List.length_pos_of_ne_nil h.task_ne_nil
    rw [ends, if_pos rfl, List.length_cons]
    omega
  | false => exact ⟨h.local_long, h.local_names, cacheName_spell h.local_ne_nil h.local_names⟩

end Named

/-- A file or a directory is linked as it is. -/
theorem linkFileInWorkspace_graft {workspace : Text} {into : Bool} {localname taskname : List Text}
    (hn : Named workspace localname taskname)
    (h : Linkable v d (ends into workspace localname taskname).1 (ends into workspace localname taskname).2 depth) :
    ∃ d', linkFileInWorkspace v workspace into depth d (spell localname) (spell taskname) = some (true, d') ∧
      d'.inodes = d.inodes ∧
      ∀ p, d'.entry p = d.graft (v.workspace ++ (ends into workspace localname taskname).1)
        (v.workspace ++ (ends into workspace localname taskname).2) p := by
  induction depth generalizing d localname taskname with
  | zero =>
    have := h.shallow [] (by rw [List.append_nil]; exact h.found)
    omega
  | succ depth ih =>
    obtain ⟨hsne, hsn, hsource⟩ := hn.from_spell into
    obtain ⟨htlen, htn, htarget⟩ := hn.to_spell into
    have htne : (ends into workspace localname taskname).2 ≠ [] := by
      intro hnil
      rw [hnil] at htlen
      exact absurd htlen (by decide)
    rw [linkFileInWorkspace, hsource, htarget]
    obtain ⟨e, he⟩ := Option.isSome_iff_exists.mp h.found
    rw [stat_spell hsne hsn he]
    cases e with
    | file i =>
      obtain ⟨d', hd', hend⟩ := linkFile_graft h htn htlen he
      exact ⟨d', congrArg some hd', hend⟩
    | directory =>
      obtain ⟨d₁, hd₁, hg₁⟩ := exists_mkdir_grafted h htn htne he
      have hmem : ∀ c ∈ v.order (d.children (v.workspace ++ (ends into workspace localname taskname).1)),
          (d.entry (v.workspace ++ (ends into workspace localname taskname).1 ++ [c])).isSome :=
        fun c hc ↦ Volume.mem_children.mp ((v.perm _).mem_iff.mp hc)
      have hstep : ∀ d₁ c, Name c → Linkable v d₁ ((ends into workspace localname taskname).1 ++ [c])
          ((ends into workspace localname taskname).2 ++ [c]) depth →
          ∃ d', linkFileInWorkspace v workspace into depth d₁ (below (spell localname) c) (below (spell taskname) c) =
            some (true, d') ∧ d'.inodes = d₁.inodes ∧
            ∀ p, d'.entry p = d₁.graft (v.workspace ++ ((ends into workspace localname taskname).1 ++ [c]))
              (v.workspace ++ ((ends into workspace localname taskname).2 ++ [c])) p := by
        intro d₁ c hc hlink
        have hends := ends_concat into workspace localname taskname c
        have hchild := ih (d := d₁) (hn.concat hc) (by rw [hends]; exact hlink)
        rw [hends] at hchild
        rw [below_spell hn.local_ne_nil, below_spell hn.task_ne_nil]
        exact hchild
      obtain ⟨d', done, hrun, hg, hall⟩ := linkEntries_grafted h hstep ((v.perm _).nodup_iff.mpr Volume.nodup_children)
        (fun _ _ ↦ List.not_mem_nil) hmem hg₁
      refine ⟨d', ?_, hg.inodes, hg.graft he (fun c hc ↦ hall c (.inl ?_))⟩
      · rw [hd₁]
        exact hrun
      · exact (v.perm _).mem_iff.mpr (Volume.mem_children.mpr hc)

theorem entry_graft_eq {d' : Disk} {S T p : List Text} (he : ∀ p, d'.entry p = d.graft S T p) (hp : Aside T p) :
    d'.entry p = d.entry p := by
  rw [he, Volume.graft_of_not_prefix hp.1 hp.2]

theorem entry_graft_above {d' : Disk} {S T U p : List Text} (he : ∀ p, d'.entry p = d.graft S T p) (hu : ¬ T <+: U)
    (hp : p <+: U) : d'.entry p = d.entry p ∨ d'.entry p = some .directory := by
  have hnot : ¬ T <+: p := fun h ↦ hu (h.trans hp)
  rw [he, Volume.graft, if_neg hnot]
  by_cases hpt : p <+: T
  · rw [if_pos hpt]
    exact .inr rfl
  · rw [if_neg hpt]
    exact .inl rfl

theorem Linkable.graft {S T : List Text} {d' : Disk} (h : Linkable v d source target depth)
    (he : ∀ p, d'.entry p = d.graft S T p) (hs : Aside T (v.workspace ++ source))
    (ht : Aside T (v.workspace ++ target)) : Linkable v d' source target depth := by
  have hsource : ∀ t, d'.entry (v.workspace ++ source ++ t) = d.entry (v.workspace ++ source ++ t) :=
    fun t ↦ entry_graft_eq he (hs.mono List.prefix_rfl (List.prefix_append _ t))
  have hfound := hsource []
  rw [List.append_nil] at hfound
  constructor
  · rcases entry_graft_above he ht.1 (List.prefix_append v.workspace target) with h' | h'
    · rw [h']
      exact h.workspace
    · exact h'
  · rw [hfound]
    exact h.found
  · refine ⟨?_, fun p hp hne ↦ ?_⟩
    · rw [entry_graft_eq he ht]
      exact h.free.1
    · rcases entry_graft_above he ht.1 hp with h' | h'
      · rw [h']
        exact h.free.2 p hp hne
      · exact .inr h'
  · intro hdir
    rw [hfound] at hdir
    rcases entry_graft_above he ht.1 (List.dropLast_prefix _) with h' | h'
    · rw [h']
      exact h.parent hdir
    · exact h'
  · exact h.aside
  · intro t
    rw [hsource]
    exact h.names t
  · intro t
    rw [hsource]
    exact h.shallow t

/-- Each target is a copy of its source, and all else is as it was. -/
structure Linked (v : Process) (d d' : Disk) (pairs : List (List Text × List Text)) : Prop where
  inodes : d'.inodes = d.inodes
  copies : ∀ x ∈ pairs, ∀ t, d'.entry (v.workspace ++ x.2 ++ t) = d.entry (v.workspace ++ x.1 ++ t)
  others : ∀ p, (∀ x ∈ pairs, Aside (v.workspace ++ x.2) p) → d'.entry p = d.entry p

theorem Linked.nil : Linked v d d [] := ⟨rfl, fun _ h ↦ absurd h List.not_mem_nil, fun _ _ ↦ rfl⟩

theorem Linked.cons {d₁ d' : Disk} {pairs : List (List Text × List Text)} (hi : d₁.inodes = d.inodes)
    (he : ∀ p, d₁.entry p = d.graft (v.workspace ++ source) (v.workspace ++ target) p) (h : Linked v d₁ d' pairs)
    (hs : ∀ x ∈ pairs, Aside (v.workspace ++ target) (v.workspace ++ x.1))
    (ht : ∀ x ∈ pairs, Aside (v.workspace ++ x.2) (v.workspace ++ target)) :
    Linked v d d' ((source, target) :: pairs) := by
  refine ⟨h.inodes.trans hi, fun x hx t ↦ ?_, fun p hp ↦ ?_⟩
  · rcases List.mem_cons.mp hx with rfl | hx
    · rw [h.others _ (fun y hy ↦ (ht y hy).mono List.prefix_rfl (List.prefix_append _ t)), he, Volume.graft,
        if_pos (List.prefix_append _ _), List.drop_left]
    · rw [h.copies x hx]
      exact entry_graft_eq he ((hs x hx).mono List.prefix_rfl (List.prefix_append _ t))
  · rw [h.others p (fun x hx ↦ hp x (List.mem_cons_of_mem _ hx))]
    exact entry_graft_eq he (hp _ List.mem_cons_self)

def pair (into : Bool) (dirname : Text) (f : File) : List Text × List Text :=
  ends into dirname (components f.payload) (components f.remoteName)

/-- A file that is linked between the cache and the directory of a task. -/
structure Suits (v : Process) (d : Disk) (into : Bool) (depth : ℕ) (dirname : Text) (f : File) : Prop where
  type : f.type = .file
  payload : spell (components f.payload) = f.payload
  remote : spell (components f.remoteName) = f.remoteName
  cached : (components f.payload).head? = some "cache".toList
  named : Named dirname (components f.payload) (components f.remoteName)
  linkable : Linkable v d (pair into dirname f).1 (pair into dirname f).2 depth

variable {into : Bool} {dirname : Text}

theorem Suits.link {f : File} (h : Suits v d into depth dirname f) :
    ∃ d', linkFileInWorkspace v dirname into depth d f.payload f.remoteName = some (true, d') ∧
      d'.inodes = d.inodes ∧
      ∀ p, d'.entry p =
        d.graft (v.workspace ++ (pair into dirname f).1) (v.workspace ++ (pair into dirname f).2) p := by
  have hlink := linkFileInWorkspace_graft h.named h.linkable
  rwa [h.payload, h.remote] at hlink

theorem aside_append {p q r : List Text} (h : Aside p q) : Aside (r ++ p) (r ++ q) := by
  unfold Aside
  rw [List.prefix_append_right_inj, List.prefix_append_right_inj]
  exact h

/-- A target is never on the way to a source. -/
theorem Suits.aside {d' : Disk} {f g : File} (hf : Suits v d into depth dirname f)
    (hg : Suits v d' into depth dirname g)
    (hd : dirname ≠ "cache".toList) : Aside (pair into dirname f).2 (pair into dirname g).1 := by
  have hheads : ∀ {l m : List Text}, l.head? = some "cache".toList →
      Aside l (dirname :: m) ∧ Aside (dirname :: m) l := by
    intro l m hl
    obtain ⟨t, rfl⟩ := List.head?_eq_some_iff.mp hl
    have hne : ∀ {x y}, ¬ "cache".toList :: x <+: dirname :: y := fun h ↦ hd (List.cons_prefix_cons.mp h).1.symm
    have hne' : ∀ {x y}, ¬ dirname :: x <+: "cache".toList :: y := fun h ↦ hd (List.cons_prefix_cons.mp h).1
    exact ⟨⟨hne, hne'⟩, hne', hne⟩
  cases into with
  | true => exact (hheads hg.cached).2
  | false => exact (hheads hf.cached).1

theorem Suits.graft {d' : Disk} {f g : File} (hf : Suits v d into depth dirname f) (hg : Suits v d into depth dirname g)
    (hd : dirname ≠ "cache".toList) (ha : Aside (pair into dirname f).2 (pair into dirname g).2)
    (he : ∀ p, d'.entry p =
      d.graft (v.workspace ++ (pair into dirname f).1) (v.workspace ++ (pair into dirname f).2) p) :
    Suits v d' into depth dirname g :=
  { hg with linkable := hg.linkable.graft he (aside_append (hf.aside hg hd)) (aside_append ha) }

theorem linked_cons {f : File} {fs : List File} {d₁ d' : Disk} (hfs : ∀ g ∈ f :: fs, Suits v d into depth dirname g)
    (hd : dirname ≠ "cache".toList)
    (ha : ∀ g ∈ fs, Aside (pair into dirname f).2 (pair into dirname g).2) (hi : d₁.inodes = d.inodes)
    (he : ∀ p, d₁.entry p = d.graft (v.workspace ++ (pair into dirname f).1) (v.workspace ++ (pair into dirname f).2) p)
    (h : Linked v d₁ d' (fs.map (pair into dirname))) : Linked v d d' ((f :: fs).map (pair into dirname)) := by
  have hf := hfs f List.mem_cons_self
  refine h.cons hi he (fun x hx ↦ ?_) (fun x hx ↦ ?_)
  · obtain ⟨g, hg, rfl⟩ := List.mem_map.mp hx
    exact aside_append (hf.aside (hfs g (List.mem_cons_of_mem _ hg)) hd)
  · obtain ⟨g, hg, rfl⟩ := List.mem_map.mp hx
    exact aside_append ⟨(ha g hg).2, (ha g hg).1⟩

/-- The directory of a task gets a copy of each input in the cache, and nothing
outside of it changes. -/
theorem inputs_linked {fs : List File} (hfs : ∀ f ∈ fs, Suits v d true depth dirname f)
    (hd : dirname ≠ "cache".toList)
    (ha : fs.Pairwise (fun f g ↦ Aside (pair true dirname f).2 (pair true dirname g).2)) :
    ∃ d', linkInputs v depth dirname d fs = some (true, d') ∧ Linked v d d' (fs.map (pair true dirname)) := by
  induction fs generalizing d with
  | nil => exact ⟨d, rfl, .nil⟩
  | cons f fs ih =>
    obtain ⟨ha, hrest⟩ := List.pairwise_cons.mp ha
    have hf := hfs f List.mem_cons_self
    obtain ⟨d₁, hd₁, hi₁, he₁⟩ := hf.link
    obtain ⟨d', hd', hlinked⟩ := ih (fun g hg ↦ hf.graft (hfs g (List.mem_cons_of_mem _ hg)) hd (ha g hg) he₁) hrest
    refine ⟨d', ?_, linked_cons hfs hd ha hi₁ he₁ hlinked⟩
    rw [linkInputs, hf.type]
    dsimp only
    rw [hd₁]
    exact hd'

end Linking

instance (p q : List Text) : Decidable (Aside p q) := inferInstanceAs (Decidable (_ ∧ _))

theorem linkable_of_entries {v : Process} {d : Disk} {source target : List Text} {depth : ℕ}
    (hw : d.entry v.workspace = some .directory) (hf : (d.entry (v.workspace ++ source)).isSome)
    (hfree : d.entry (v.workspace ++ target) = none)
    (hp : d.entry (v.workspace ++ target).dropLast = some .directory)
    (ha : Aside (v.workspace ++ source) (v.workspace ++ target))
    (he : ∀ x ∈ d.entries, v.workspace ++ source <+: x.1 →
      (∀ c ∈ x.1.drop (v.workspace ++ source).length, Name c) ∧
        (x.1.drop (v.workspace ++ source).length).length < depth) :
    Linkable v d source target depth := by
  have hbelow : ∀ t, (d.entry (v.workspace ++ source ++ t)).isSome → (∀ c ∈ t, Name c) ∧ t.length < depth := by
    intro t ht
    obtain ⟨x, hx, hk⟩ := Volume.entry_isSome_iff.mp ht
    have h := he x hx
    rw [hk, List.drop_left] at h
    exact h (List.prefix_append _ _)
  refine ⟨hw, hf, ⟨hfree, fun p hpre hne ↦ .inr ?_⟩, fun _ ↦ hp, ha, fun t ht ↦ (hbelow t ht).1,
    fun t ht ↦ (hbelow t ht).2⟩
  have hlast : v.workspace ++ target ≠ [] := Volume.ne_nil_of_entry_eq_none hfree
  rw [← List.dropLast_append_getLast hlast] at hpre hne
  have hpre := (List.prefix_concat_iff.mp hpre).resolve_left hne
  by_cases heq : p = (v.workspace ++ target).dropLast
  · rw [heq]
    exact hp
  · exact Volume.entry_of_prefix hpre heq (by rw [hp]; rfl)

def workshop : Disk :=
  let w := "w".toList
  let n := ["w".toList, "cache".toList, "n".toList]
  ((emptyCache.mkdir [w, "t.1".toList]).bind fun d ↦ (d.mkdir n).bind fun d ↦
    (d.create (n ++ ["f".toList]) ⟨"xxx".toList, 0o755⟩).bind fun d ↦ (d.mkdir (n ++ ["e".toList])).bind fun d ↦
      d.create [w, "t.1".toList, "out".toList] ⟨"y".toList, 0o644⟩).getD emptyCache

theorem inputs_linked_workshop :
    ∃ d', linkInputs spacious 3 "t.1".toList workshop [⟨.file, 1, 0, 0, "cache/n".toList, "in".toList⟩] =
        some (true, d') ∧
      d'.entry ["w".toList, "t.1".toList, "in".toList, "f".toList] = some (.file 0) ∧
      d'.entry ["w".toList, "t.1".toList, "in".toList, "e".toList] = some .directory := by
  have hfile : Suits spacious workshop true 3 "t.1".toList ⟨.file, 1, 0, 0, "cache/n".toList, "in".toList⟩ := by
    refine ⟨rfl, by decide, by decide, by decide, ?_, ?_⟩
    · exact ⟨by decide, by decide, by decide, by decide, by decide⟩
    · exact linkable_of_entries (by decide) (by decide) (by decide) (by decide) (by decide) (by decide)
  have hfiles : ∀ f ∈ [(⟨.file, 1, 0, 0, "cache/n".toList, "in".toList⟩ : File)],
      Suits spacious workshop true 3 "t.1".toList f :=
    fun f hf ↦ List.mem_singleton.mp hf ▸ hfile
  obtain ⟨d', hd', hlinked⟩ := inputs_linked hfiles (by decide) (List.pairwise_singleton _ _)
  have hcopies := hlinked.copies _ (List.mem_singleton_self _)
  exact ⟨d', hd', hcopies ["f".toList], hcopies ["e".toList]⟩

end Cyque.Sandbox
