import Cyque.Sandbox

namespace Cyque.Enclosure

open Library.Execution Library.Scanning Library.Paths Library.Volumes Buffering Cache
open Link (workQueueLineMax cString)

def Reached (root : List Text) (d : Disk) (i : ℕ) : Prop := ∃ p, root <+: p ∧ d.entry p = some (.file i)

/-- The names outside of the root lead where they led, and a file changes only
when it has a name below the root. -/
structure Within (root : List Text) (d d' : Disk) : Prop where
  next : d.next ≤ d'.next
  outside : ∀ p, ¬ root <+: p → d'.entry p = d.entry p
  reached : ∀ i, i < d.next → Reached root d' i → Reached root d i
  contents : ∀ i, i < d.next → ¬ Reached root d i → d'.inodes i = d.inodes i

variable {root : List Text} {d d₁ d' : Disk}

namespace Within

theorem refl (d : Disk) : Within root d d := ⟨Nat.le_refl _, fun _ _ ↦ rfl, fun _ _ h ↦ h, fun _ _ _ ↦ rfl⟩

theorem trans (h : Within root d d₁) (h' : Within root d₁ d') : Within root d d' := by
  refine ⟨h.next.trans h'.next, fun p hp ↦ ?_, fun i hi hr ↦ ?_, fun i hi hr ↦ ?_⟩
  · rw [h'.outside p hp, h.outside p hp]
  · exact h.reached i hi (h'.reached i (hi.trans_le h.next) hr)
  · have hr₁ : ¬ Reached root d₁ i := fun hr₁ ↦ hr (h.reached i hi hr₁)
    rw [h'.contents i (hi.trans_le h.next) hr₁, h.contents i hi hr]

theorem of_add {q : List Text} {e : Entry} {inodes : ℕ → Contents} {n : ℕ}
    (hd : q ≠ [] ∧ d.entry q.dropLast = some .directory ∧ d.entry q = none)
    (hn : d.next ≤ n ∧ ∀ i, e = .file i → i < n) (hq : root <+: q) (hnew : ∀ i, e = .file i → d.next ≤ i)
    (hi : ∀ i, i < d.next → inodes i = d.inodes i) : Within root d (d.add q e inodes n hd hn) := by
  refine ⟨hn.1, fun p hp ↦ ?_, fun i hlt hr ↦ ?_, fun i hlt _ ↦ hi i hlt⟩
  · have hne : p ≠ q := fun h ↦ hp (h ▸ hq)
    rw [Volume.entry_add, if_neg hne]
  · obtain ⟨p, hp, he⟩ := hr
    rw [Volume.entry_add] at he
    split at he
    · have := hnew i (Option.some.inj he)
      omega
    · exact ⟨p, hp, he⟩

theorem of_rewrite {i : ℕ} (h : Reached root d i) (c : Contents) : Within root d (d.rewrite i c) := by
  refine ⟨Nat.le_refl _, fun _ _ ↦ rfl, fun _ _ hr ↦ hr, fun j _ hr ↦ ?_⟩
  apply Function.update_of_ne
  intro hj
  exact hr (hj ▸ h)

/-- A reader outside sees what was there, unless it is a file of the root. -/
theorem see (h : Within root d d') {p : List Text} (hp : ¬ root <+: p)
    (hf : ∀ i, d.entry p = some (.file i) → ¬ Reached root d i) : d'.see p = d.see p := by
  rw [Volume.see, Volume.see, h.outside p hp]
  cases he : d.entry p with
  | none => rfl
  | some e =>
    cases e with
    | directory => rfl
    | file i =>
      have hi := h.contents i (d.known p i he) (hf i he)
      exact congrArg (fun c ↦ some (Seen.content c)) hi

end Within

theorem within_mkdir {q : List Text} (hq : root <+: q) (h : d.mkdir q = some d') : Within root d d' := by
  unfold Volume.mkdir at h
  split at h
  · cases h
    refine .of_add _ _ hq (fun i hi ↦ ?_) (fun _ _ ↦ rfl)
    cases hi
  · cases h

theorem within_create {q : List Text} {c : Contents} (hq : root <+: q) (h : d.create q c = some d') :
    Within root d d' ∧ Reached root d' d.next := by
  unfold Volume.create at h
  split at h
  · cases h
    refine ⟨.of_add _ _ hq (fun i hi ↦ ?_) (fun i hi ↦ ?_), q, hq, ?_⟩
    · cases hi
      exact Nat.le_refl _
    · exact Function.update_of_ne (Nat.ne_of_lt hi) ..
    · rw [Volume.entry_add, if_pos rfl]
  · cases h

variable {v : Process} {here place names : List Text} {path : Text}

/-- The place that a name leads to from a directory. -/
def turn (here : List Text) (name : Text) : List Text :=
  if name = ".".toList then here else if name = "..".toList then here.dropLast else here ++ [name]

theorem walk_directory {name : Text} (h : d.entry here = some .directory) :
    walk d here (name :: names) = walk d (turn here name) names := by
  rw [walk, h, turn]
  dsimp only
  split
  · rfl
  · split <;> rfl

theorem entry_of_walk {name : Text} (h : walk d here (name :: names) = .ok place) :
    d.entry here = some .directory := by
  rw [walk] at h
  split at h
  · cases h
  · cases h
  · assumption

/-- Names without the two dots do not lead up. -/
theorem prefix_walk (h : walk d here names = .ok place) (hn : "..".toList ∉ names) : here <+: place := by
  induction names generalizing here with
  | nil =>
    cases h
    exact List.prefix_rfl
  | cons name names ih =>
    rw [List.mem_cons, not_or] at hn
    rw [walk_directory (entry_of_walk h)] at h
    refine List.IsPrefix.trans ?_ (ih h hn.2)
    rw [turn]
    split
    · exact List.prefix_rfl
    · rw [if_neg (Ne.symm hn.1)]
      exact List.prefix_append _ _

def cacheRoot (v : Process) : List Text := v.workspace ++ ["cache".toList]

/-- A path that starts with a name and has no two dots. -/
structure Inward (first path : Text) : Prop where
  relative : ¬ Absolute path
  head : (components path).head? = some first
  dot : first ≠ ".".toList
  dots : "..".toList ∉ components path

variable {first : Text}

theorem walk_of_resolve (hp : Inward first path) (h : resolve v d path = .ok place) :
    ∃ names, components path = first :: names ∧ walk d v.workspace (first :: names) = .ok place := by
  obtain ⟨names, hnames⟩ := List.head?_eq_some_iff.mp hp.head
  refine ⟨names, hnames, ?_⟩
  rw [resolve] at h
  split at h
  · cases h
  · rw [if_neg hp.relative, hnames] at h
    split at h
    · cases h
    · rename_i there hwalk
      split at h
      · cases h
      · cases h
        exact hwalk

theorem prefix_resolve (hp : Inward first path) (h : resolve v d path = .ok place) :
    v.workspace ++ [first] <+: place := by
  obtain ⟨names, hnames, hwalk⟩ := walk_of_resolve hp h
  have hdots := hp.dots
  rw [hnames, List.mem_cons, not_or] at hdots
  have hfirst : turn v.workspace first = v.workspace ++ [first] := by
    rw [turn, if_neg hp.dot, if_neg (Ne.symm hdots.1)]
  rw [walk_directory (entry_of_walk hwalk), hfirst] at hwalk
  exact prefix_walk hwalk hdots.2

theorem within_makeWay (hp : Inward first path) (h : makeWay v d path = some d') :
    Within (v.workspace ++ [first]) d d' := by
  unfold makeWay at h
  split at h
  · cases h
    exact .refl d
  · cases h
  · unfold Cache.mkdir at h
    split at h
    · cases h
    · rename_i hr
      exact within_mkdir (prefix_resolve hp hr) h
  · cases h

theorem within_makeWays {ways : List Text} (hp : ∀ w ∈ ways, Inward first w) (d : Disk) :
    Within (v.workspace ++ [first]) d (makeWays v d ways).2 := by
  induction ways generalizing d with
  | nil => exact .refl d
  | cons way ways ih =>
    rw [makeWays]
    split
    · exact .refl d
    · rename_i hw
      have hrest := ih (fun w hw ↦ hp w (List.mem_cons_of_mem _ hw))
      exact (within_makeWay (hp way List.mem_cons_self) hw).trans (hrest _)

theorem within_openFile {mode mode' i : ℕ} (hp : Inward first path)
    (h : openFile v d path mode = some (i, mode', d')) :
    Within (v.workspace ++ [first]) d d' ∧ Reached (v.workspace ++ [first]) d' i := by
  unfold openFile at h
  split at h
  · cases h
  · rename_i place hr
    have hroot := prefix_resolve hp hr
    split at h
    · cases h
    · rename_i he
      cases h
      have hreached : Reached (v.workspace ++ [first]) d i := ⟨place, hroot, he⟩
      exact ⟨.of_rewrite hreached _, hreached⟩
    · obtain ⟨d₁, hd₁, hx⟩ := Option.map_eq_some_iff.mp h
      cases hx
      exact within_create hroot hd₁

theorem Inward.before {way : Text} (hp : Inward first path) (hne : way ≠ []) (h : Confinement.Before way path) :
    Inward first way := by
  obtain ⟨u, rfl⟩ := h
  have hrel : ¬ Absolute way := fun ha ↦ hp.relative ((absolute_append hne _).mpr ha)
  have hdots := hp.dots
  have hfirst := hp.head
  rw [components_slash] at hdots hfirst
  obtain ⟨x, b, rfl, hx, hxs, hb⟩ := exists_first_component hne hrel
  rw [components_join (.inr (.inr hb)), components_word hx hxs] at hfirst hdots
  refine ⟨hrel, ?_, hp.dot, ?_⟩
  · rw [components_join (.inr (.inr hb)), components_word hx hxs]
    exact hfirst
  · rw [components_join (.inr (.inr hb)), components_word hx hxs]
    exact fun hm ↦ hdots (List.mem_append_left _ hm)

theorem inward_ways (hp : Inward first path) : ∀ w ∈ Confinement.waysFrom [] path, Inward first w := by
  intro w hw
  rcases Confinement.eq_or_before_of_mem_waysFrom hw with rfl | hb
  · exact hp
  · exact hp.before (Confinement.exists_of_mem_waysFrom hw).1 hb

theorem before_dirname (hs : '/' ∈ path) : Confinement.Before (dirname path) path := by
  have hne : path.rdropWhile (fun x ↦ x ≠ '/') ≠ [] := by
    intro h
    simpa using List.rdropWhile_eq_nil_iff.mp h '/' hs
  have hlast : (path.rdropWhile (fun x ↦ x ≠ '/')).getLast hne = '/' := by
    simpa using List.rdropWhile_last_not _ path hne
  obtain ⟨u, hu⟩ := List.rdropWhile_prefix (fun x ↦ decide (x ≠ '/')) path
  refine ⟨u, ?_⟩
  have hcat := List.dropLast_append_getLast hne
  rw [hlast] at hcat
  calc path = path.rdropWhile (fun x ↦ decide (x ≠ '/')) ++ u := hu.symm
    _ = dirname path ++ ['/'] ++ u := by rw [dirname, hcat]
    _ = dirname path ++ '/' :: u := by simp

theorem Inward.parent (hp : Inward first path) (hs : '/' ∈ path) : Inward first (dirname path) := by
  have hb := before_dirname hs
  refine hp.before (fun hnil ↦ ?_) hb
  obtain ⟨u, hu⟩ := hb
  rw [hnil] at hu
  exact hp.relative (by rw [hu]; rfl)

theorem mem_components_skipDots {c : Text} (h : c ∈ components (skipDots path)) : c ∈ components path := by
  fun_induction skipDots path with
  | case1 path ih =>
    have hsplit : components ('.' :: '/' :: path) = components ".".toList ++ components path :=
      components_slash ".".toList path
    rw [hsplit]
    exact List.mem_append_right _ (ih h)
  | case2 path hno => exact h

theorem inward_slash {dirname name : Text} (hd : Name dirname) (h : "..".toList ∉ components name) :
    Inward dirname (dirname ++ '/' :: name) := by
  have hsplit : components (dirname ++ '/' :: name) = dirname :: components name := by
    rw [components_slash, components_word hd.ne_nil hd.slash]
    rfl
  refine ⟨not_absolute hd, by rw [hsplit, List.head?_cons], hd.dot, ?_⟩
  rw [hsplit, List.mem_cons, not_or]
  exact ⟨Ne.symm hd.dots, h⟩

theorem inward_workspaceName {dirname taskname : Text} (hd : Name dirname) (h : "..".toList ∉ components taskname) :
    Inward dirname (Sandbox.workspaceName dirname taskname) :=
  inward_slash hd (fun hm ↦ h (mem_components_skipDots hm))

variable {filename line : Text} {length : ℤ} {mode n count : ℕ} {e e' : End}

theorem within_doPut (hf : "..".toList ∉ components filename)
    (h : doPut v d filename length mode n e = .done (some d') e') : Within (cacheRoot v) d d' := by
  have hp : Inward "cache".toList ("cache/".toList ++ skipDots filename) := inward_workspaceName name_cache hf
  have hdir := hp.parent (List.mem_append_left _ (by decide))
  have hways := within_makeWays (v := v) (inward_ways hdir) d
  rw [doPut] at h
  dsimp only at h
  split at h
  · rcases hdir : createDir v d (dirname ("cache/".toList ++ skipDots filename)) with ⟨ok, d₁⟩
    rw [hdir] at h
    rw [← createDir, hdir] at hways
    cases ok with
    | false => cases h
    | true =>
      dsimp only at h
      cases hopen : openFile v d₁ ("cache/".toList ++ skipDots filename) mode with
      | none =>
        rw [hopen] at h
        cases h
      | some opened =>
        obtain ⟨i, mode', d₂⟩ := opened
        rw [hopen] at h
        obtain ⟨hw, hr⟩ := within_openFile hp hopen
        obtain ⟨⟨actual, content⟩, e₁, -, h⟩ := bind_eq_done h
        by_cases hall : actual = length
        · rw [if_pos hall] at h
          cases h
          exact (hways.trans hw).trans (.of_rewrite hr _)
        · rw [if_neg hall] at h
          cases h
  · cases h

/-- The files that a worker is sent, by the names in the lines it reads. -/
inductive Stored (v : Process) (n : ℕ) : Disk → End → List Text → Disk → End → Prop
  | nil (d : Disk) (e : End) : Stored v n d e [] d e
  | put {d d₁ d' : Disk} {e e₁ e₂ e' : End} {line filename : Text} {length : ℤ} {mode : ℕ} {names : List Text}
      (hline : linkReadline workQueueLineMax n e = .done (some line) e₁)
      (hscan : scanPut (cString line) = some (filename, length, mode))
      (hput : doPut v d filename length mode n e₁ = .done (some d₁) e₂) (hs : Stored v n d₁ e₂ names d' e') :
      Stored v n d e (filename :: names) d' e'

theorem within_stored (h : Stored v n d e names d' e') (hn : ∀ c ∈ names, "..".toList ∉ components c) :
    Within (cacheRoot v) d d' := by
  induction h with
  | nil d e => exact .refl d
  | put hline hscan hput hs ih =>
    have hrest := ih (fun c hc ↦ hn c (List.mem_cons_of_mem _ hc))
    exact (within_doPut (hn _ List.mem_cons_self) hput).trans hrest

theorem stored_handlePuts (h : handlePuts v count d n e = .done (some d') e') :
    ∃ names, names.length = count ∧ Stored v n d e names d' e' := by
  induction count generalizing d e with
  | zero =>
    cases h
    exact ⟨[], rfl, .nil _ _⟩
  | succ count ih =>
    obtain ⟨r, e₂, hput, h⟩ := bind_eq_done h
    cases r with
    | none => cases h
    | some d₁ =>
      obtain ⟨names, hlen, hs⟩ := ih h
      obtain ⟨r, e₁, hline, hput⟩ := bind_eq_done hput
      cases r with
      | none => cases hput
      | some line =>
        dsimp only at hput
        cases hscan : scanPut (cString line) with
        | none =>
          rw [hscan] at hput
          cases hput
        | some message =>
          obtain ⟨filename, length, mode⟩ := message
          rw [hscan] at hput
          dsimp only at hput
          split at hput
          · refine ⟨filename :: names, ?_, .put hline hscan hput hs⟩
            rw [List.length_cons, hlen]
          · cases hput

/-- Whatever files a master sends, under names without the two dots, nothing
changes outside of the cache, but for other names of files in it. -/
theorem puts_confined (h : handlePuts v count d n e = .done (some d') e') :
    ∃ names, Stored v n d e names d' e' ∧ names.length = count ∧
      ((∀ c ∈ names, "..".toList ∉ components c) → ∀ p, ¬ cacheRoot v <+: p → d'.entry p = d.entry p ∧
        ((∀ i, d.entry p = some (.file i) → ¬ Reached (cacheRoot v) d i) → d'.see p = d.see p)) := by
  obtain ⟨names, hlen, hs⟩ := stored_handlePuts h
  refine ⟨names, hs, hlen, fun hn p hp ↦ ?_⟩
  have hw := within_stored hs hn
  exact ⟨hw.outside p hp, fun hf ↦ hw.see hp hf⟩

def visitor : End := ⟨.empty, "put f 1 0644 1\nx".toList, [], List.replicate 16 (.ready 4)⟩

theorem stored_visitor {names : List Text} (h : Stored v 100 d visitor names d' e') (hlen : names.length = 1) :
    names = ["f".toList] := by
  cases h with
  | nil => cases hlen
  | put hline hscan hput hs =>
    obtain rfl := List.length_eq_zero_iff.mp (Nat.succ.inj hlen)
    have hread : returns (linkReadline workQueueLineMax) (fun l _ ↦ l = some "put f 1 0644 1".toList) 100 visitor =
        true := by
      decide +kernel
    obtain ⟨l, e₁, hl, htest⟩ := exists_of_returns hread
    obtain rfl := of_decide_eq_true htest
    rw [hline] at hl
    cases hl
    have hput : scanPut (cString "put f 1 0644 1".toList) = some ("f".toList, 1, 0o644) := by decide +kernel
    rw [hput] at hscan
    cases hscan
    rfl

theorem puts_confined_visitor :
    ∃ d' e', handlePuts Inputs.spacious 1 Inputs.emptyCache 100 visitor = .done (some d') e' ∧
      ∀ p, ¬ cacheRoot Inputs.spacious <+: p → d'.see p = Inputs.emptyCache.see p := by
  have hrun : returns (handlePuts Inputs.spacious 1 Inputs.emptyCache) (fun r _ ↦ r.isSome) 100 visitor = true := by
    decide +kernel
  obtain ⟨r, e', hr, hsome⟩ := exists_of_returns hrun
  obtain ⟨d', rfl⟩ := Option.isSome_iff_exists.mp hsome
  obtain ⟨names, hs, hlen, hconfined⟩ := puts_confined hr
  obtain rfl := stored_visitor hs hlen
  have hdots : ∀ c ∈ ["f".toList], "..".toList ∉ components c := by decide
  refine ⟨d', e', hr, fun p hp ↦ (hconfined hdots p hp).2 (fun i hi ↦ ?_)⟩
  exact absurd (Inputs.emptyCache.known p i hi) (Nat.not_lt_zero i)

section Linking

open Queue (File)
open Transfer (below isDot)
open Sandbox

/-- No name on the disk has a slash in it. -/
def Tidy (d : Disk) : Prop := ∀ p, (d.entry p).isSome → ∀ c ∈ p, '/' ∉ c

structure Adds (root : List Text) (d d' : Disk) : Prop where
  outside : ∀ p, ¬ root <+: p → d'.entry p = d.entry p
  tidy : Tidy d'

namespace Adds

theorem refl (h : Tidy d) : Adds root d d := ⟨fun _ _ ↦ rfl, h⟩

theorem trans (h : Adds root d d₁) (h' : Adds root d₁ d') : Adds root d d' :=
  ⟨fun p hp ↦ (h'.outside p hp).trans (h.outside p hp), h'.tidy⟩

theorem of_entry {q : List Text} {e : Entry} (h : Tidy d) (hq : root <+: q) (hs : ∀ c ∈ q, '/' ∉ c)
    (he : ∀ p, d'.entry p = if p = q then some e else d.entry p) : Adds root d d' := by
  refine ⟨fun p hp ↦ ?_, fun p hp ↦ ?_⟩
  · have hne : p ≠ q := fun h ↦ hp (h ▸ hq)
    rw [he, if_neg hne]
  · rw [he] at hp
    split at hp
    · rename_i heq
      rw [heq]
      exact hs
    · exact h p hp

end Adds

theorem slash_not_mem {c : Text} (h : c ∈ components path) : '/' ∉ c := by
  induction hn : path.length using Nat.strongRecOn generalizing path with
  | ind n ih =>
    by_cases hne : path = []
    · rw [hne, components_nil] at h
      cases h
    · by_cases ha : Absolute path
      · obtain ⟨b, rfl⟩ := exists_of_absolute ha
        have hb : components ('/' :: b) = components b := by
          simpa using components_slash [] b
        rw [hb] at h
        rw [List.length_cons] at hn
        exact ih b.length (by omega) h rfl
      · obtain ⟨w, b, rfl, hw, hws, hb⟩ := exists_first_component hne ha
        rw [components_join (.inr (.inr hb)), components_word hw hws] at h
        rcases List.mem_append.mp h with h | h
        · rwa [List.mem_singleton.mp h]
        · have := List.length_pos_of_ne_nil hw
          rw [List.length_append] at hn
          exact ih b.length (by omega) h rfl

theorem tidy_walk (hh : ∀ c ∈ here, '/' ∉ c) (hn : ∀ c ∈ names, '/' ∉ c) (h : walk d here names = .ok place) :
    ∀ c ∈ place, '/' ∉ c := by
  induction names generalizing here with
  | nil =>
    cases h
    exact hh
  | cons name names ih =>
    rw [walk_directory (entry_of_walk h)] at h
    refine ih (fun c hc ↦ ?_) (fun c hc ↦ hn c (List.mem_cons_of_mem _ hc)) h
    rw [turn] at hc
    split at hc
    · exact hh c hc
    · split at hc
      · exact hh c (List.mem_of_mem_dropLast hc)
      · rcases List.mem_append.mp hc with hc | hc
        · exact hh c hc
        · rw [List.mem_singleton.mp hc]
          exact hn name List.mem_cons_self

theorem tidy_resolve (ht : Tidy d) (hp : Inward first path) (h : resolve v d path = .ok place) :
    ∀ c ∈ place, '/' ∉ c := by
  obtain ⟨names, hnames, hwalk⟩ := walk_of_resolve hp h
  have hslash : ∀ c ∈ first :: names, '/' ∉ c := by
    intro c hc
    rw [← hnames] at hc
    exact slash_not_mem hc
  have hws : (d.entry v.workspace).isSome := Option.isSome_of_mem (entry_of_walk hwalk)
  exact tidy_walk (ht _ hws) hslash hwalk

theorem adds_mkdir (ht : Tidy d) (hp : Inward first path) (h : Cache.mkdir v d path = some d') :
    Adds (v.workspace ++ [first]) d d' := by
  unfold Cache.mkdir at h
  split at h
  · cases h
  · rename_i hr
    unfold Volume.mkdir at h
    split at h
    · cases h
      exact .of_entry ht (prefix_resolve hp hr) (tidy_resolve ht hp hr) (fun _ ↦ Volume.entry_add _ _)
    · cases h

theorem adds_makeWays {ways : List Text} (ht : Tidy d) (hp : ∀ w ∈ ways, Inward first w) :
    Adds (v.workspace ++ [first]) d (makeWays v d ways).2 := by
  induction ways generalizing d with
  | nil => exact .refl ht
  | cons way ways ih =>
    rw [makeWays]
    split
    · exact .refl ht
    · rename_i d₁ hway
      have hfirst : Adds (v.workspace ++ [first]) d d₁ := by
        unfold makeWay at hway
        split at hway
        · cases hway
          exact .refl ht
        · cases hway
        · exact adds_mkdir ht (hp way List.mem_cons_self) hway
        · cases hway
      exact hfirst.trans (ih hfirst.tidy (fun w hw ↦ hp w (List.mem_cons_of_mem _ hw)))

theorem adds_createDir {r : Bool} (ht : Tidy d) (hp : Inward first path) (h : createDir v d path = (r, d')) :
    Adds (v.workspace ++ [first]) d d' := by
  have hways := adds_makeWays (v := v) ht (inward_ways hp)
  rw [createDir] at h
  rwa [h] at hways

theorem adds_link {p q : List Text} (ht : Tidy d) (hq : root <+: q) (hs : ∀ c ∈ q, '/' ∉ c)
    (h : d.link p q = some d') : Adds root d d' := by
  unfold Volume.link at h
  split at h
  · split at h
    · rename_i hfree
      cases h
      exact .of_entry ht hq hs (fun p ↦ Volume.entry_add hfree _)
    · cases h
  · cases h

theorem adds_linkFile (ht : Tidy d) (hp : Inward first path) (source : List Text) :
    Adds (v.workspace ++ [first]) d (linkFile v d source path).2 := by
  have hdirs : ∀ {r d₁}, (if '/' ∈ path then createDir v d (dirname path) else (true, d)) = (r, d₁) →
      Adds (v.workspace ++ [first]) d d₁ := by
    intro r d₁ h
    split at h
    · rename_i hs
      exact adds_createDir ht (hp.parent hs) h
    · cases h
      exact .refl ht
  unfold linkFile
  split
  · rename_i h
    exact hdirs h
  · rename_i d₁ h
    have hd₁ := hdirs h
    refine hd₁.trans ?_
    split
    · exact .refl hd₁.tidy
    · rename_i target hr
      split
      · exact .refl hd₁.tidy
      · split
        · rename_i hl
          exact adds_link hd₁.tidy (prefix_resolve hp hr) (tidy_resolve hd₁.tidy hp hr) hl
        · exact .refl hd₁.tidy

theorem adds_linkEntries {step : Disk → Text → Option (Bool × Disk)} {entries : List Text} {result r : Bool}
    (hs : ∀ d, Tidy d → ∀ name ∈ entries, isDot name = false → ∀ r d', step d name = some (r, d') → Adds root d d')
    (ht : Tidy d) (h : linkEntries step d result entries = some (r, d')) : Adds root d d' := by
  induction entries generalizing d result with
  | nil =>
    cases h
    exact .refl ht
  | cons name entries ih =>
    have hrest : ∀ d, Tidy d → ∀ name ∈ entries, isDot name = false → ∀ r d', step d name = some (r, d') →
        Adds root d d' := fun d ht name hname ↦ hs d ht name (List.mem_cons_of_mem _ hname)
    rw [linkEntries] at h
    split at h
    · exact ih hrest ht h
    · rename_i hdot
      split at h
      · cases h
      · rename_i hstep
        have hfirst := hs d ht name List.mem_cons_self (Bool.eq_false_iff.mpr hdot) _ _ hstep
        exact hfirst.trans (ih hrest hfirst.tidy h)

/-- What is to hold of the two names of a file, so that one of them is made below
the root, also further down. -/
structure Leads (into : Bool) (dirname first : Text) (P : Text → Text → Prop) : Prop where
  inward : ∀ l t, P l t → Inward first (if into then workspaceName dirname t else cacheName l)
  down : ∀ l t name, P l t → '/' ∉ name → name ≠ "..".toList → P (below l name) (below t name)

theorem adds_linkFileInWorkspace {into : Bool} {dirname localname taskname : Text} {P : Text → Text → Prop}
    {depth : ℕ} {r : Bool} (hl : Leads into dirname first P) (hP : P localname taskname) (ht : Tidy d)
    (h : linkFileInWorkspace v dirname into depth d localname taskname = some (r, d')) :
    Adds (v.workspace ++ [first]) d d' := by
  induction depth generalizing d d' localname taskname r with
  | zero => cases h
  | succ depth ih =>
    have hp := hl.inward localname taskname hP
    rw [linkFileInWorkspace] at h
    split at h
    · cases h
      exact .refl ht
    · rename_i place hstat
      have hdir : Adds (v.workspace ++ [first]) d ((Cache.mkdir v d
          (if into then workspaceName dirname taskname else cacheName localname)).getD d) := by
        cases hm : Cache.mkdir v d (if into then workspaceName dirname taskname else cacheName localname) with
        | none => exact .refl ht
        | some d₁ => exact adds_mkdir ht hp hm
      refine hdir.trans (adds_linkEntries (fun d₂ ht₂ name hname hdot r d₃ hstep ↦ ?_) hdir.tidy h)
      have hchild : name ∈ d.children place := (v.perm _).mem_iff.mp hname
      have hslash : '/' ∉ name := ht _ (Volume.mem_children.mp hchild) name (by simp)
      have hdots : name ≠ "..".toList := by
        rintro rfl
        exact absurd hdot (by decide)
      exact ih (hl.down _ _ name hP hslash hdots) ht₂ hstep
    · have h := congrArg Prod.snd (Option.some.inj h)
      dsimp only at h
      rw [← h]
      exact adds_linkFile ht hp _

theorem dots_not_mem_below {l name : Text} (hl : "..".toList ∉ components l) (hs : '/' ∉ name)
    (hd : name ≠ "..".toList) : "..".toList ∉ components (below l name) := by
  rw [below, components_slash, List.mem_append, not_or]
  refine ⟨hl, ?_⟩
  by_cases hne : name = []
  · rw [hne, components_nil]
    exact List.not_mem_nil
  · rw [components_word hne hs, List.mem_singleton]
    exact Ne.symm hd

theorem leads_inputs {dirname : Text} (hd : Name dirname) :
    Leads true dirname dirname (fun _ t ↦ "..".toList ∉ components t) where
  inward _ _ ht := inward_workspaceName hd ht
  down _ _ _ ht hs hdots := dots_not_mem_below ht hs hdots

theorem leads_outputs (dirname first : Text) : Leads false dirname first (fun l _ ↦ Inward first l) where
  inward l _ hl := by
    have hskip : skipDots l = l := by
      rw [skipDots.eq_def]
      split
      · rename_i path
        have hhead := hl.head
        have hsplit : components ('.' :: '/' :: path) = components ".".toList ++ components path :=
          components_slash ".".toList path
        have hdot : components ".".toList = [".".toList] := by decide
        rw [hsplit, hdot] at hhead
        exact absurd (Option.some.inj hhead).symm hl.dot
      · rfl
    show Inward first (skipDots l)
    rwa [hskip]
  down l _ name hl hs hdots := by
    obtain ⟨names, hnames⟩ := List.head?_eq_some_iff.mp hl.head
    have hne : l ≠ [] := by
      rintro rfl
      cases hnames
    refine ⟨?_, ?_, hl.dot, dots_not_mem_below hl.dots hs hdots⟩
    · rw [below, absolute_append hne]
      exact hl.relative
    · rw [below, components_slash, hnames]
      rfl

theorem adds_linkInputs {dirname : Text} {depth : ℕ} {fs : List File} {r : Bool} (hd : Name dirname)
    (hfs : ∀ f ∈ fs, "..".toList ∉ components f.remoteName) (ht : Tidy d)
    (h : linkInputs v depth dirname d fs = some (r, d')) : Adds (v.workspace ++ [dirname]) d d' := by
  induction fs generalizing d with
  | nil =>
    cases h
    exact .refl ht
  | cons f fs ih =>
    have hf := hfs f List.mem_cons_self
    have hrest := fun {d} ↦ ih (d := d) (fun g hg ↦ hfs g (List.mem_cons_of_mem _ hg))
    rw [linkInputs] at h
    split at h
    · have hp := inward_slash hd hf
      split at h
      · rename_i hdirs
        cases h
        exact adds_createDir ht hp hdirs
      · rename_i hdirs
        have hfirst := adds_createDir ht hp hdirs
        exact hfirst.trans (hrest hfirst.tidy h)
    · split at h
      · cases h
      · rename_i hlink
        cases h
        exact adds_linkFileInWorkspace (leads_inputs hd) hf ht hlink
      · rename_i hlink
        have hfirst := adds_linkFileInWorkspace (leads_inputs hd) hf ht hlink
        exact hfirst.trans (hrest hfirst.tidy h)

theorem adds_linkOutputs {dirname : Text} {depth : ℕ} {fs : List File}
    (hfs : ∀ f ∈ fs, Inward first f.payload) (ht : Tidy d) (h : linkOutputs v depth dirname d fs = some d') :
    Adds (v.workspace ++ [first]) d d' := by
  induction fs generalizing d with
  | nil =>
    cases h
    exact .refl ht
  | cons f fs ih =>
    rw [linkOutputs] at h
    split at h
    · cases h
    · rename_i hlink
      have hfirst := adds_linkFileInWorkspace (leads_outputs dirname first) (hfs f List.mem_cons_self) ht hlink
      exact hfirst.trans (ih (fun g hg ↦ hfs g (List.mem_cons_of_mem _ hg)) hfirst.tidy h)

/-- Whatever the names of a task are, if they have no two dots, its inputs show
in its directory alone, and its outputs in the cache alone. -/
theorem links_confined {dirname : Text} (ht : Tidy d) (hd : Name dirname) (depth : ℕ) (fs : List File) :
    ((∀ f ∈ fs, "..".toList ∉ components f.remoteName) → ∀ r d', linkInputs v depth dirname d fs = some (r, d') →
      ∀ p, ¬ v.workspace ++ [dirname] <+: p → d'.see p = d.see p) ∧
    ((∀ f ∈ fs, Inward "cache".toList f.payload) → ∀ d', linkOutputs v depth dirname d fs = some d' →
      ∀ p, ¬ cacheRoot v <+: p → d'.see p = d.see p) := by
  refine ⟨fun hfs r d' h p hp ↦ ?_, fun hfs d' h p hp ↦ ?_⟩
  · exact Volume.see_eq (extends_linkInputs h).inodes ((adds_linkInputs hd hfs ht h).outside p hp)
  · exact Volume.see_eq (extends_linkOutputs h).inodes ((adds_linkOutputs hfs ht h).outside p hp)

theorem tidy_of_entries (h : ∀ x ∈ d.entries, ∀ c ∈ x.1, '/' ∉ c) : Tidy d := by
  intro p hp
  obtain ⟨x, hx, rfl⟩ := Volume.entry_isSome_iff.mp hp
  exact h x hx

theorem links_confined_workshop :
    (∃ r d', linkInputs Inputs.spacious 3 "t.1".toList workshop
        [⟨.file, 1, 0, 0, "cache/n".toList, "in".toList⟩] = some (r, d') ∧
      ∀ p, ¬ Inputs.spacious.workspace ++ ["t.1".toList] <+: p → d'.see p = workshop.see p) ∧
    ∃ d', linkOutputs Inputs.spacious 3 "t.1".toList workshop
        [⟨.file, 1, 0, 0, "cache/o".toList, "out".toList⟩] = some d' ∧
      ∀ p, ¬ cacheRoot Inputs.spacious <+: p → d'.see p = workshop.see p := by
  have htidy : Tidy workshop := tidy_of_entries (by decide)
  have hname : Name "t.1".toList := by decide
  have hconfined := links_confined (v := Inputs.spacious) htidy hname 3
  constructor
  · have hrun : (linkInputs Inputs.spacious 3 "t.1".toList workshop
        [⟨.file, 1, 0, 0, "cache/n".toList, "in".toList⟩]).isSome = true := by
      decide +kernel
    obtain ⟨⟨r, d'⟩, hd'⟩ := Option.isSome_iff_exists.mp hrun
    have hin : ∀ f ∈ [(⟨.file, 1, 0, 0, "cache/n".toList, "in".toList⟩ : File)],
        "..".toList ∉ components f.remoteName := by
      intro f hf
      rw [List.mem_singleton.mp hf]
      decide
    exact ⟨r, d', hd', (hconfined _).1 hin r d' hd'⟩
  · have hrun : (linkOutputs Inputs.spacious 3 "t.1".toList workshop
        [⟨.file, 1, 0, 0, "cache/o".toList, "out".toList⟩]).isSome = true := by
      decide +kernel
    obtain ⟨d', hd'⟩ := Option.isSome_iff_exists.mp hrun
    have hin : ∀ f ∈ [(⟨.file, 1, 0, 0, "cache/o".toList, "out".toList⟩ : File)],
        Inward "cache".toList f.payload := by
      intro f hf
      rw [List.mem_singleton.mp hf]
      exact ⟨by decide, by decide, by decide, by decide⟩
    exact ⟨d', hd', (hconfined _).2 hin d' hd'⟩

end Linking

section Upward

variable {more : List Text} {c x content rest : Text}

theorem walk_append (h : walk d here names = .ok place) : walk d here (names ++ more) = walk d place more := by
  induction names generalizing here with
  | nil =>
    cases h
    rfl
  | cons name names ih =>
    have hd := entry_of_walk h
    rw [walk_directory hd] at h
    rw [List.cons_append, walk_directory hd]
    exact ih h

theorem exists_walk (h : walk d here (names ++ more) = .ok place) (hd : d.entry place = some .directory) :
    ∃ q, walk d here names = .ok q ∧ d.entry q = some .directory := by
  induction names generalizing here with
  | nil =>
    refine ⟨here, rfl, ?_⟩
    cases more with
    | nil =>
      cases h
      exact hd
    | cons name more => exact entry_of_walk h
  | cons name names ih =>
    have hhere := entry_of_walk h
    rw [List.cons_append, walk_directory hhere] at h
    rw [walk_directory hhere]
    exact ih h

theorem resolve_walk (hne : path ≠ []) (ha : ¬ Absolute path)
    (h : walk d v.workspace (components path) = .ok place) (hd : ∀ i, d.entry place ≠ some (.file i)) :
    resolve v d path = .ok place := by
  rw [resolve, if_neg hne, if_neg ha, h]
  dsimp only
  split
  · rename_i hfile
    exact absurd hfile (hd _)
  · rfl

theorem stat_directory (hne : path ≠ []) (ha : ¬ Absolute path)
    (h : walk d v.workspace (components path) = .ok place) (hd : d.entry place = some .directory) :
    stat v d path = .ok (place, .directory) := by
  have hresolve : resolve v d path = .ok place := by
    apply resolve_walk hne ha h
    intro i hi
    rw [hd] at hi
    cases hi
  rw [stat, hresolve]
  dsimp only
  rw [hd]

theorem makeWays_present {ways : List Text} (h : ∀ w ∈ ways, ∃ q, stat v d w = .ok (q, .directory)) :
    makeWays v d ways = (true, d) := by
  induction ways with
  | nil => rfl
  | cons way ways ih =>
    obtain ⟨q, hq⟩ := h way List.mem_cons_self
    rw [makeWays, makeWay, hq]
    exact ih (fun w hw ↦ h w (List.mem_cons_of_mem _ hw))

theorem createDir_present (ha : ¬ Absolute path) (h : walk d v.workspace (components path) = .ok place)
    (hd : d.entry place = some .directory) : createDir v d path = (true, d) := by
  rw [createDir]
  apply makeWays_present
  intro w hw
  have hne := (Confinement.exists_of_mem_waysFrom hw).1
  rcases Confinement.eq_or_before_of_mem_waysFrom hw with rfl | ⟨u, hu⟩
  · exact ⟨place, stat_directory hne ha h hd⟩
  · rw [List.nil_append] at hu
    rw [hu, components_slash] at h
    obtain ⟨q, hq, hdir⟩ := exists_walk h hd
    have hw : ¬ Absolute w := by
      rw [hu, absolute_append hne] at ha
      exact ha
    exact ⟨q, stat_directory hne hw hq hdir⟩

theorem dirname_append (hx : '/' ∉ x) (path : Text) : dirname (path ++ '/' :: x) = path := by
  have hdrop : (path ++ '/' :: x).rdropWhile (fun y ↦ decide (y ≠ '/')) = path ++ ['/'] := by
    induction x using List.reverseRecOn with
    | nil => exact List.rdropWhile_concat_neg _ _ _ (by decide)
    | append_singleton x y ih =>
      rw [List.mem_append, not_or] at hx
      have hy : y ≠ '/' := fun h ↦ hx.2 (h ▸ List.mem_singleton_self _)
      have hcat : path ++ '/' :: (x ++ [y]) = path ++ '/' :: x ++ [y] := by simp
      rw [hcat, List.rdropWhile_concat_pos (fun y ↦ decide (y ≠ '/')) _ y (decide_eq_true hy)]
      exact ih hx.1
  rw [dirname, hdrop, List.dropLast_concat]

theorem skipDots_first (hc : Name c) : skipDots (c ++ '/' :: rest) = c ++ '/' :: rest := by
  rw [skipDots.eq_def]
  split
  · rename_i path h
    exfalso
    match c, hc, h with
    | [], hc, _ => exact hc.ne_nil rfl
    | [y], hc, h =>
      obtain rfl : y = '.' := by simpa using (List.cons.inj h).1
      exact hc.dot rfl
    | y :: z :: c, hc, h =>
      have hz : z = '/' := by simpa using (List.cons.inj (List.cons.inj h).2).1
      exact hc.slash (by rw [hz]; simp)
  · rfl

/-- A name that leads out of the workspace, by way of a directory in the cache. -/
def upward (c x : Text) : Text := c ++ '/' :: ("../../..".toList ++ '/' :: x)

/-- The directory that such a name is in. -/
def climb (c : Text) : Text := "cache".toList ++ '/' :: (c ++ '/' :: "../../..".toList)

theorem cached_upward (hc : Name c) : "cache/".toList ++ skipDots (upward c x) = climb c ++ '/' :: x := by
  rw [upward, skipDots_first hc]
  simp [climb]

theorem components_climb (hc : Name c) :
    components (climb c) = "cache".toList :: c :: List.replicate 3 "..".toList := by
  have hcache : components "cache".toList = ["cache".toList] := by decide
  have hdots : components "../../..".toList = List.replicate 3 "..".toList := by decide
  rw [climb, components_slash, components_slash, hcache, components_word hc.ne_nil hc.slash, hdots]
  rfl

theorem relative_climb : ¬ Absolute (climb c ++ rest) := by
  simp [Absolute, climb]

theorem entry_workspace (h : d.entry (cacheRoot v ++ [c]) = some .directory) :
    d.entry v.workspace = some .directory := by
  apply Volume.entry_of_prefix (q := cacheRoot v ++ [c])
  · exact ⟨["cache".toList, c], by simp [cacheRoot]⟩
  · simp [cacheRoot]
  · rw [h]
    rfl

/-- From the cache, such a name leads to the neighbours of the workspace. -/
theorem walk_climb (hc : Name c) (h : d.entry (cacheRoot v ++ [c]) = some .directory) :
    walk d v.workspace (components (climb c)) = .ok v.workspace.dropLast := by
  have hws := entry_workspace h
  have hcache : d.entry (cacheRoot v) = some .directory := by
    apply Volume.entry_of_prefix (List.prefix_append _ [c])
    · simp
    · rw [h]
      rfl
  have hfirst : turn v.workspace "cache".toList = cacheRoot v := by
    rw [turn, if_neg (by decide), if_neg (by decide), cacheRoot]
  have hsecond : turn (cacheRoot v) c = cacheRoot v ++ [c] := by
    rw [turn, if_neg hc.dot, if_neg hc.dots]
  have hup : ∀ p, turn p "..".toList = p.dropLast := by
    intro p
    rw [turn, if_neg (by decide), if_pos rfl]
  have hroot : (cacheRoot v).dropLast = v.workspace := List.dropLast_concat
  have hthree : List.replicate 3 "..".toList = ["..".toList, "..".toList, "..".toList] := rfl
  rw [components_climb hc, walk_directory hws, hfirst, walk_directory hcache, hsecond, hthree, walk_directory h, hup,
    List.dropLast_concat, walk_directory hcache, hup, hroot, walk_directory hws, hup]
  rfl

theorem resolve_climb (hc : Name c) (hx : Name x) (h : d.entry (cacheRoot v ++ [c]) = some .directory)
    (hd : d.entry v.workspace.dropLast = some .directory) (hfree : d.entry (v.workspace.dropLast ++ [x]) = none) :
    resolve v d (climb c ++ '/' :: x) = .ok (v.workspace.dropLast ++ [x]) := by
  refine resolve_walk (by simp) relative_climb ?_ (fun i hi ↦ ?_)
  · rw [components_slash, walk_append (walk_climb hc h), components_word hx.ne_nil hx.slash, walk_directory hd, turn,
      if_neg hx.dot, if_neg hx.dots]
    rfl
  · rw [hfree] at hi
    cases hi

/-- The check takes a name from the workspace, and the file goes to the cache:
what passes may still be stored outside of the workspace. -/
theorem put_escapes (hc : Name c) (hx : Name x) (hne : v.workspace ≠ [])
    (hcached : d.entry (cacheRoot v ++ [c]) = some .directory) (hunknown : d.entry (v.workspace ++ [c]) = none)
    (hfree : d.entry (v.workspace.dropLast ++ [x]) = none)
    (ha : Accepts v d (upward c x) content.length mode)
    (hp : e.pending = content ++ rest) (he : e.Flowing) (hn : Framing.Ample n e) :
    ¬ v.workspace <+: v.workspace.dropLast ++ [x] ∧ pathWithinWorkspace v d (upward c x) = true ∧
      ∃ d' e', doPut v d (upward c x) content.length mode n e = .done (some d') e' ∧
        d'.see (v.workspace.dropLast ++ [x]) = some (.content ⟨content, newMode v mode⟩) := by
  have hws := entry_workspace hcached
  have hparent : d.entry v.workspace.dropLast = some .directory := by
    apply d.parents _ hne
    exact Option.isSome_of_mem hws
  refine ⟨fun hprefix ↦ ?_, ?_, ?_⟩
  · have hlen : v.workspace.length = (v.workspace.dropLast ++ [x]).length := by
      have := List.length_pos_of_ne_nil hne
      rw [List.length_append, List.length_dropLast, List.length_singleton]
      omega
    rw [← hprefix.eq_of_length hlen, hws] at hfree
    cases hfree
  · have hfirst : (components (upward c x)).head? = some c := by
      rw [upward, components_slash, components_word hc.ne_nil hc.slash]
      rfl
    exact pathWithinWorkspace_first v d (not_absolute hc) hfirst hc hws hunknown
  · have hrel : ¬ Absolute (climb c ++ []) := relative_climb
    rw [List.append_nil] at hrel
    have hcreate := createDir_present hrel (walk_climb hc hcached) hparent
    have hplace : d.entry (v.workspace.dropLast ++ [x]).dropLast = some .directory := by
      rw [List.dropLast_concat]
      exact hparent
    have hresolve := resolve_climb hc hx hcached hparent hfree
    obtain ⟨d', hd', hsee⟩ := exists_openFile_free v d mode hresolve hplace hfree
    have hlen : content.length ≤ e.pending.length := by
      rw [hp, List.length_append]
      omega
    have hroom := ha.room
    rw [cached_upward hc, dirname_append hx.slash] at hroom
    obtain ⟨e', hr, -⟩ := Framing.linkStreamToFd_plain hlen (hroom _ _ _ d' hcreate hd') he hn
    rw [hp, List.take_left] at hr
    refine ⟨d'.rewrite d.next ⟨content, newMode v mode⟩, e', ?_, ?_⟩
    · rw [doPut]
      dsimp only
      rw [if_pos ha.space, cached_upward hc, dirname_append hx.slash, hcreate]
      dsimp only
      rw [hd']
      dsimp only
      rw [Int.toNat_natCast, bind_done hr]
      dsimp only
      rw [if_pos rfl]
      rfl
    · rw [hsee, if_pos rfl]

/-- A directory in the cache. -/
def nested : Disk := (Inputs.emptyCache.mkdir ["w".toList, "cache".toList, "n".toList]).getD Inputs.emptyCache

def stranger : End := ⟨.empty, "abc".toList, [], List.replicate 3 (.ready 2)⟩

theorem put_escapes_nested : pathWithinWorkspace Inputs.spacious nested "n/../../../x".toList = true ∧
    ∃ d' e', doPut Inputs.spacious nested "n/../../../x".toList 3 0o644 70000 stranger = .done (some d') e' ∧
      d'.see ["x".toList] = some (.content ⟨"abc".toList, 0o644⟩) := by
  have hname : "n/../../../x".toList = upward "n".toList "x".toList := by decide
  have ha : Accepts Inputs.spacious nested (upward "n".toList "x".toList) "abc".toList.length 0o644 :=
    ⟨by decide, fun _ _ _ _ _ _ ↦ (by decide : 3 ≤ 100)⟩
  have hp : stranger.pending = "abc".toList ++ [] := by decide
  rw [hname]
  exact (put_escapes (d := nested) (by decide) (by decide) (by decide) (by decide) (by decide) (by decide)
    ha hp (by decide) (by decide)).2

end Upward

end Cyque.Enclosure
