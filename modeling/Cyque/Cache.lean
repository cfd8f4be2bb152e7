import Cyque.Confinement
import Cyque.Framing
import Cyque.Library.Volumes

namespace Cyque.Cache

open Library.Execution Library.Scanning Library.Paths Library.Volumes Buffering
open Link (workQueueLineMax cString)

structure Contents where
  content : Text
  mode : ℕ
deriving DecidableEq

abbrev Disk := Volume Text Contents

inductive Errno
  | noent
  | notdir
deriving DecidableEq

/-- The process of a worker: its working directory, which is its workspace, the
mask of the modes of its files, the space that is left to the user, what the
worker leaves of it, what a file system with such contents still takes, and the
order in which the names in a directory are read. -/
structure Process where
  workspace : List Text
  umask : ℕ
  diskAvail : Disk → ℕ
  diskAvailThreshold : ℕ
  room : Disk → ℕ
  order : List Text → List Text
  perm : ∀ names, (order names).Perm names

variable (v : Process) (d : Disk)

/-- The way from a directory along the names of a path. -/
def walk (d : Disk) : List Text → List Text → Except Errno (List Text)
  | here, [] => .ok here
  | here, name :: names =>
    match d.entry here with
    | none => .error .noent
    | some (.file _) => .error .notdir
    | some .directory =>
      if name = ".".toList then walk d here names
      else if name = "..".toList then walk d here.dropLast names
      else walk d (here ++ [name]) names

/-- Where a path leads. A path with a slash at its end does not lead to a file. -/
def resolve (path : Text) : Except Errno (List Text) :=
  if path = [] then .error .noent
  else
    match walk d (if Absolute path then [] else v.workspace) (components path) with
    | .error errno => .error errno
    | .ok place =>
      match path.getLast?, d.entry place with
      | some '/', some (.file _) => .error .notdir
      | _, _ => .ok place

def stat (path : Text) : Except Errno (List Text × Entry) :=
  match resolve v d path with
  | .error errno => .error errno
  | .ok place =>
    match d.entry place with
    | none => .error .noent
    | some e => .ok (place, e)

def mkdir (path : Text) : Option Disk :=
  match resolve v d path with
  | .error _ => none
  | .ok place => d.mkdir place

def makeWay (d : Disk) (way : Text) : Option Disk :=
  match stat v d way with
  | .ok (_, .directory) => some d
  | .ok (_, .file _) => none
  | .error .noent => mkdir v d way
  | .error .notdir => none

def makeWays (v : Process) (d : Disk) : List Text → Bool × Disk
  | [] => (true, d)
  | way :: ways =>
    match makeWay v d way with
    | none => (false, d)
    | some d => makeWays v d ways

def createDir (path : Text) : Bool × Disk := makeWays v d (Confinement.waysFrom [] path)

/-- What `realpath` writes. -/
def absolute (place : List Text) : Text := if place = [] then "/".toList else place.flatMap ('/' :: ·)

/-- What stands before a slash of the path, for the last slash first. -/
def cutsFrom (done : Text) : Text → List Text
  | [] => []
  | c :: rest => cutsFrom (done ++ [c]) rest ++ if c = '/' then [done] else []

def cutsWithin (v : Process) (d : Disk) : List Text → Bool
  | [] => true
  | cut :: cuts =>
    match stat v d cut with
    | .ok (place, _) => (absolute v.workspace).isPrefixOf (absolute place)
    | .error .noent => cutsWithin v d cuts
    | .error .notdir => false

def pathWithinWorkspace (path : Text) : Bool :=
  (!decide (Absolute path) || (absolute v.workspace).isPrefixOf path) && cutsWithin v d (cutsFrom [] path)

def checkDiskSpaceForFilesize (fileSize : ℤ) : Bool :=
  if 0 < v.diskAvailThreshold then
    if 0 < fileSize then
      fileSize.toNat ≤ v.diskAvail d ∧ v.diskAvailThreshold ≤ v.diskAvail d - fileSize.toNat
    else v.diskAvailThreshold ≤ v.diskAvail d
  else true

def skipDots : Text → Text
  | '.' :: '/' :: path => skipDots path
  | path => path

def newMode (mode : ℕ) : ℕ := (mode ||| 0o600) &&& (0o7777 ^^^ v.umask)

/-- `open` for writing, which makes the file or empties it: the file, and its
mode. -/
def openFile (path : Text) (mode : ℕ) : Option (ℕ × ℕ × Disk) :=
  match resolve v d path with
  | .error _ => none
  | .ok place =>
    match d.entry place with
    | some .directory => none
    | some (.file i) => some (i, (d.inodes i).mode, d.rewrite i ⟨[], (d.inodes i).mode⟩)
    | none => (d.create place ⟨[], newMode v mode⟩).map (fun d' ↦ (d.next, newMode v mode, d'))

def dirname (path : Text) : Text := (path.rdropWhile (· ≠ '/')).dropLast

/-- The disk after a file was put into the cache. A worker that fails gives up
its workspace. -/
def doPut (filename : Text) (length : ℤ) (mode : ℕ) : Exec End (Option Disk) :=
  let cachedFilename := "cache/".toList ++ skipDots filename
  if checkDiskSpaceForFilesize v d length then
    match createDir v d (dirname cachedFilename) with
    | (false, _) => pure none
    | (true, d) =>
      match openFile v d cachedFilename mode with
      | none => pure none
      | some (i, mode, d) => do
        let (actual, content) ← linkStreamToFd (v.room d) length.toNat
        pure (if actual = length then some (d.rewrite i ⟨content, mode⟩) else none)
  else pure none

/-- There is space for a file of this size, and the file system has room for it
when the file is open. -/
structure Accepts (v : Process) (d : Disk) (filename : Text) (length : ℤ) (mode : ℕ) : Prop where
  space : checkDiskSpaceForFilesize v d length = true
  room : ∀ d₁ i m d₂, createDir v d (dirname ("cache/".toList ++ skipDots filename)) = (true, d₁) →
    openFile v d₁ ("cache/".toList ++ skipDots filename) mode = some (i, m, d₂) → length.toNat ≤ v.room d₂

def isOctal (c : Char) : Bool := '0' ≤ c && c ≤ '7'

def readOctal (s : Text) : Option (ℕ × Text) :=
  match s.takeWhile isOctal with
  | [] => none
  | ds => some (Nat.ofDigitChars 8 ds 0, s.dropWhile isOctal)

def lowBits (i : ℤ) : ℕ := if |i| < 2 ^ 64 then (i % 2 ^ 32).toNat else 2 ^ 32 - 1

/-- `%o` in `scanf`. -/
def scanOctal (s : Text) : Option ℕ :=
  match skipSpace s with
  | '-' :: t => (readOctal t).map (fun p ↦ lowBits (-p.1))
  | '+' :: t => (readOctal t).map (fun p ↦ lowBits p.1)
  | t => (readOctal t).map (fun p ↦ lowBits p.1)

/-- The first three values of `"put %s %lld %o %d"`. -/
def scanPut (line : Text) : Option (Text × ℤ × ℕ) :=
  if "put".toList <+: line then
    let word := skipSpace (line.drop 3)
    if word = [] then none
    else
      match readInt (skipSpace (dropWord word)) with
      | none => none
      | some (length, rest) => (scanOctal rest).map (fun mode ↦ (takeWord word, saturate length, mode))
  else none

/-- The branch of `handle_master` for a file. -/
def handlePut : Exec End (Option Disk) := do
  match ← linkReadline workQueueLineMax with
  | none => pure none
  | some line =>
    match scanPut (cString line) with
    | none => pure none
    | some (filename, length, mode) =>
      if pathWithinWorkspace v d filename then doPut v d filename length mode else pure none

def handlePuts (v : Process) : ℕ → Disk → Exec End (Option Disk)
  | 0, d => pure (some d)
  | count + 1, d => do
    match ← handlePut v d with
    | none => pure none
    | some d => handlePuts v count d

section Paths

variable {c : Text} {names p : List Text} {here : List Text} {w done rest : Text}

/-- A name of a directory entry other than the two dots. -/
structure Name (c : Text) : Prop where
  ne_nil : c ≠ []
  slash : '/' ∉ c
  dot : c ≠ ".".toList
  dots : c ≠ "..".toList

instance : DecidablePred Name := fun c ↦
  decidable_of_iff (c ≠ [] ∧ '/' ∉ c ∧ c ≠ ".".toList ∧ c ≠ "..".toList)
    ⟨fun h ↦ ⟨h.1, h.2.1, h.2.2.1, h.2.2.2⟩, fun h ↦ ⟨h.ne_nil, h.slash, h.dot, h.dots⟩⟩

def lead (names : List Text) : Text := names.flatMap (· ++ ['/'])

@[simp] theorem lead_nil : lead [] = [] := rfl

theorem lead_cons : lead (c :: names) = c ++ '/' :: lead names := by
  simp [lead]

theorem lead_concat : lead (names ++ [c]) = lead names ++ c ++ ['/'] := by
  simp [lead]

theorem components_lead (hn : ∀ c ∈ names, Name c) (hc : Name c) : components (lead names ++ c) = names ++ [c] := by
  induction names with
  | nil => exact components_word hc.ne_nil hc.slash
  | cons x names ih =>
    have hx := hn x List.mem_cons_self
    rw [lead_cons, List.append_assoc, List.cons_append, components_slash, components_word hx.ne_nil hx.slash,
      ih (fun y hy ↦ hn y (List.mem_cons_of_mem _ hy))]
    rfl

theorem not_absolute (hc : Name c) : ¬ Absolute (c ++ rest) := by
  obtain ⟨x, xs, rfl⟩ := List.exists_cons_of_ne_nil hc.ne_nil
  intro h
  rw [Absolute, List.cons_append, List.head?_cons, Option.some.injEq] at h
  exact hc.slash (h ▸ List.mem_cons_self)

theorem not_absolute_lead (hn : ∀ c ∈ names, Name c) (hc : Name c) : ¬ Absolute (lead names ++ c) := by
  cases names with
  | nil =>
    have h : ¬ Absolute (c ++ []) := not_absolute hc
    rwa [List.append_nil] at h
  | cons x names =>
    rw [lead_cons, List.append_assoc]
    exact not_absolute (hn x List.mem_cons_self)

theorem waysFrom_word (hw : '/' ∉ w) (hne : done ++ w ≠ []) : Confinement.waysFrom done w = [done ++ w] := by
  induction w generalizing done with
  | nil =>
    rw [List.append_nil] at hne
    rw [Confinement.waysFrom, if_neg hne, List.append_nil]
  | cons x w ih =>
    have hx : x ≠ '/' := fun h ↦ hw (h ▸ List.mem_cons_self)
    rw [Confinement.waysFrom, if_neg (fun h ↦ hx h.1), ih (fun h ↦ hw (List.mem_cons_of_mem _ h)) (by simp)]
    simp

theorem waysFrom_slash (hw : '/' ∉ w) (hne : done ++ w ≠ []) :
    Confinement.waysFrom done (w ++ '/' :: rest) = (done ++ w) :: Confinement.waysFrom (done ++ w ++ ['/']) rest := by
  induction w generalizing done with
  | nil =>
    rw [List.append_nil] at hne
    rw [List.nil_append, Confinement.waysFrom, if_pos ⟨rfl, hne⟩, List.append_nil]
  | cons x w ih =>
    have hx : x ≠ '/' := fun h ↦ hw (h ▸ List.mem_cons_self)
    rw [List.cons_append, Confinement.waysFrom, if_neg (fun h ↦ hx h.1),
      ih (fun h ↦ hw (List.mem_cons_of_mem _ h)) (by simp)]
    simp

def ways (done : List Text) : List Text → List Text
  | [] => []
  | c :: names => (lead done ++ c) :: ways (done ++ [c]) names

theorem waysFrom_lead (dirs : List Text) (hn : ∀ c ∈ names, Name c) (hc : Name c) :
    Confinement.waysFrom (lead dirs) (lead names ++ c) = ways dirs (names ++ [c]) := by
  induction names generalizing dirs with
  | nil => exact waysFrom_word hc.slash (by simp [hc.ne_nil])
  | cons x names ih =>
    have hx := hn x List.mem_cons_self
    rw [lead_cons, List.append_assoc, List.cons_append, waysFrom_slash hx.slash (by simp [hx.ne_nil]), ← lead_concat,
      ih _ (fun y hy ↦ hn y (List.mem_cons_of_mem _ hy))]
    rfl

theorem walk_cons (hd : d.entry here = some .directory) (hc : Name c) :
    walk d here (c :: names) = walk d (here ++ [c]) names := by
  rw [walk, hd]
  dsimp only
  rw [if_neg hc.dot, if_neg hc.dots]

theorem walk_ok (hn : ∀ c ∈ names, Name c)
    (hd : ∀ p, p <+: names → p ≠ names → d.entry (here ++ p) = some .directory) :
    walk d here names = .ok (here ++ names) := by
  induction names generalizing here with
  | nil => rw [walk, List.append_nil]
  | cons c names ih =>
    have hhere : d.entry here = some .directory := by
      simpa using hd [] List.nil_prefix (by simp)
    rw [walk_cons d hhere (hn c List.mem_cons_self), ih (fun x hx ↦ hn x (List.mem_cons_of_mem _ hx))]
    · simp
    · intro p hp hne
      simpa using hd (c :: p) ((List.prefix_cons_inj c).mpr hp) (by simpa using hne)

theorem resolve_lead (hn : ∀ c ∈ names, Name c) (hc : Name c) :
    resolve v d (lead names ++ c) = walk d v.workspace (names ++ [c]) := by
  have hlast : (lead names ++ c).getLast? ≠ some '/' := by
    rw [List.getLast?_append_of_ne_nil _ hc.ne_nil]
    intro h
    exact hc.slash (List.mem_of_getLast? h)
  have hne : lead names ++ c ≠ [] := by simp [hc.ne_nil]
  rw [resolve, if_neg hne, if_neg (not_absolute_lead hn hc), components_lead hn hc]
  cases walk d v.workspace (names ++ [c]) with
  | error errno => rfl
  | ok place =>
    dsimp only
    split
    · rename_i h _
      exact absurd h hlast
    · rfl

theorem stat_found {e : Entry} (hn : ∀ c ∈ names, Name c) (hc : Name c)
    (h : d.entry (v.workspace ++ (names ++ [c])) = some e) :
    stat v d (lead names ++ c) = .ok (v.workspace ++ (names ++ [c]), e) := by
  have hwalk : walk d v.workspace (names ++ [c]) = .ok (v.workspace ++ (names ++ [c])) := by
    refine walk_ok d (fun x hx ↦ ?_) (fun p hp hne ↦ ?_)
    · rcases List.mem_append.mp hx with hx | hx
      · exact hn x hx
      · exact List.mem_singleton.mp hx ▸ hc
    · exact Volume.entry_of_prefix ((List.prefix_append_right_inj _).mpr hp) (fun he ↦ hne (List.append_cancel_left he))
        (by rw [h]; rfl)
  rw [stat, resolve_lead v d hn hc, hwalk]
  dsimp only
  rw [h]

theorem resolve_free (hn : ∀ c ∈ names, Name c) (hc : Name c)
    (hd : d.entry (v.workspace ++ names) = some .directory) :
    resolve v d (lead names ++ c) = .ok (v.workspace ++ (names ++ [c])) := by
  rw [resolve_lead v d hn hc]
  refine walk_ok d (fun x hx ↦ ?_) (fun p hp hne ↦ ?_)
  · rcases List.mem_append.mp hx with hx | hx
    · exact hn x hx
    · exact List.mem_singleton.mp hx ▸ hc
  · have hp : p <+: names := by
      rcases List.prefix_concat_iff.mp hp with h | h
      · exact absurd h hne
      · exact h
    by_cases he : p = names
    · rw [he]
      exact hd
    · exact Volume.entry_of_prefix ((List.prefix_append_right_inj _).mpr hp) (fun h ↦ he (List.append_cancel_left h))
        (by rw [hd]; rfl)

theorem exists_makeWay (hn : ∀ c ∈ names, Name c) (hc : Name c)
    (hd : d.entry (v.workspace ++ names) = some .directory)
    (hq : d.entry (v.workspace ++ (names ++ [c])) = none ∨ d.entry (v.workspace ++ (names ++ [c])) = some .directory) :
    ∃ d', makeWay v d (lead names ++ c) = some d' ∧ d'.inodes = d.inodes ∧
      ∀ p, d'.entry p = if p = v.workspace ++ (names ++ [c]) then some .directory else d.entry p := by
  rcases hq with hq | hq
  · have hstat : stat v d (lead names ++ c) = .error .noent := by
      rw [stat, resolve_free v d hn hc hd]
      dsimp only
      rw [hq]
    have hparent : d.entry (v.workspace ++ (names ++ [c])).dropLast = some .directory := by
      rw [← List.append_assoc, List.dropLast_concat]
      exact hd
    obtain ⟨d', hd', hentry⟩ := Volume.exists_mkdir hparent hq
    refine ⟨d', ?_, hentry⟩
    rw [makeWay, hstat]
    dsimp only
    rw [mkdir, resolve_free v d hn hc hd]
    exact hd'
  · refine ⟨d, ?_, rfl, fun p ↦ ?_⟩
    · rw [makeWay, stat_found v d hn hc hq]
    · by_cases hp : p = v.workspace ++ (names ++ [c])
      · rw [if_pos hp, hp]
        exact hq
      · rw [if_neg hp]

theorem exists_makeWays (dirs : List Text) (hs : ∀ c ∈ dirs ++ names, Name c)
    (hd : d.entry (v.workspace ++ dirs) = some .directory)
    (hq : ∀ t, t <+: names → d.entry (v.workspace ++ (dirs ++ t)) = none ∨
      d.entry (v.workspace ++ (dirs ++ t)) = some .directory) :
    ∃ d', makeWays v d (ways dirs names) = (true, d') ∧ d'.inodes = d.inodes ∧
      ∀ p, d'.entry p = if p <+: v.workspace ++ (dirs ++ names) then some .directory else d.entry p := by
  induction names generalizing dirs d with
  | nil =>
    refine ⟨d, rfl, rfl, fun p ↦ ?_⟩
    rw [List.append_nil]
    by_cases hp : p <+: v.workspace ++ dirs
    · rw [if_pos hp]
      by_cases he : p = v.workspace ++ dirs
      · rw [he]
        exact hd
      · exact Volume.entry_of_prefix hp he (by rw [hd]; rfl)
    · rw [if_neg hp]
  | cons c names ih =>
    have hdirs : ∀ x ∈ dirs, Name x := fun x hx ↦ hs x (List.mem_append_left _ hx)
    have hc : Name c := hs c (by simp)
    obtain ⟨d₁, hd₁, hi₁, he₁⟩ := exists_makeWay v d hdirs hc hd (hq [c] ⟨names, rfl⟩)
    have hnext : d₁.entry (v.workspace ++ (dirs ++ [c])) = some .directory := by rw [he₁, if_pos rfl]
    have hrest : ∀ t, t <+: names → d₁.entry (v.workspace ++ (dirs ++ [c] ++ t)) = none ∨
        d₁.entry (v.workspace ++ (dirs ++ [c] ++ t)) = some .directory := by
      intro t ht
      rw [he₁]
      by_cases he : v.workspace ++ (dirs ++ [c] ++ t) = v.workspace ++ (dirs ++ [c])
      · rw [if_pos he]
        exact .inr rfl
      · rw [if_neg he, List.append_assoc dirs]
        exact hq (c :: t) ((List.prefix_cons_inj c).mpr ht)
    obtain ⟨d', hd', hi, he⟩ := ih d₁ _ (by simpa using hs) hnext hrest
    refine ⟨d', ?_, hi.trans hi₁, fun p ↦ ?_⟩
    · rw [ways, makeWays, hd₁]
      exact hd'
    · rw [he, List.append_assoc dirs, List.singleton_append]
      by_cases hp : p <+: v.workspace ++ (dirs ++ c :: names)
      · rw [if_pos hp, if_pos hp]
      · have hne : p ≠ v.workspace ++ (dirs ++ [c]) := by
          rintro rfl
          exact hp ((List.prefix_append_right_inj _).mpr ((List.prefix_append_right_inj _).mpr ⟨names, rfl⟩))
        rw [if_neg hp, if_neg hp, he₁, if_neg hne]

theorem rdropWhile_lead (hc : '/' ∉ c) : (lead names ++ c).rdropWhile (fun x ↦ decide (x ≠ '/')) = lead names := by
  induction c using List.reverseRecOn with
  | nil =>
    rw [List.append_nil]
    induction names using List.reverseRecOn with
    | nil => rfl
    | append_singleton names x =>
      rw [lead_concat]
      exact List.rdropWhile_concat_neg _ _ _ (by decide)
  | append_singleton c x ih =>
    rw [List.mem_append, not_or] at hc
    have hx : x ≠ '/' := fun h ↦ hc.2 (by rw [h]; exact List.mem_singleton_self _)
    have hdrop := List.rdropWhile_concat_pos (fun x ↦ decide (x ≠ '/')) (lead names ++ c) x (decide_eq_true hx)
    rw [← List.append_assoc, hdrop]
    exact ih hc.1

theorem dirname_lead {x : Text} (hc : Name c) : dirname (lead (names ++ [x]) ++ c) = lead names ++ x := by
  rw [dirname, rdropWhile_lead hc.slash, lead_concat, List.dropLast_concat]

theorem skipDots_lead (hn : ∀ c ∈ names, Name c) (hc : Name c) : skipDots (lead names ++ c) = lead names ++ c := by
  rw [skipDots.eq_def]
  split
  · rename_i path h
    exfalso
    cases names with
    | nil =>
      obtain rfl : c = '.' :: '/' :: path := h
      exact hc.slash (by simp)
    | cons x names =>
      have hx := hn x List.mem_cons_self
      rw [lead_cons, List.append_assoc] at h
      match x, hx, h with
      | [], hx, _ => exact hx.ne_nil rfl
      | [a], hx, h =>
        rw [List.singleton_append, List.cons.injEq] at h
        exact hx.dot (by rw [h.1]; rfl)
      | a :: b :: x, hx, h =>
        simp only [List.cons_append, List.cons.injEq] at h
        exact hx.slash (by rw [h.2.1]; simp)
  · rfl

theorem exists_openFile_free {path : Text} {place : List Text} (mode : ℕ) (hr : resolve v d path = .ok place)
    (hd : d.entry place.dropLast = some .directory) (hq : d.entry place = none) :
    ∃ d', openFile v d path mode = some (d.next, newMode v mode, d') ∧
      ∀ b p, (d'.rewrite d.next b).see p = if p = place then some (.content b) else d.see p := by
  obtain ⟨d', hd', hsee⟩ := Volume.exists_create hd hq ⟨[], newMode v mode⟩
  refine ⟨d', ?_, hsee⟩
  rw [openFile, hr]
  dsimp only
  rw [hq]
  dsimp only
  rw [hd']
  rfl

/-- Directories, or nothing yet, on the way to a place that is free. -/
theorem exists_createDir (hn : ∀ c ∈ names, Name c) (hc : Name c) (hne : names ≠ [])
    (hws : d.entry v.workspace = some .directory) (ho : d.Open (v.workspace ++ (names ++ [c]))) :
    ∃ d', createDir v d (dirname (lead names ++ c)) = (true, d') ∧ d'.inodes = d.inodes ∧
      ∀ p, d'.entry p = if p <+: v.workspace ++ names then some .directory else d.entry p := by
  obtain ⟨dirs, x, rfl⟩ : ∃ dirs x, names = dirs ++ [x] := ⟨_, _, (List.dropLast_append_getLast hne).symm⟩
  have hdirs : ∀ c ∈ dirs, Name c := fun c hc ↦ hn c (List.mem_append_left _ hc)
  have hx : Name x := hn x (by simp)
  have hways : Confinement.waysFrom [] (lead dirs ++ x) = ways [] (dirs ++ [x]) := waysFrom_lead [] hdirs hx
  have hway : ∀ t, t <+: dirs ++ [x] → d.entry (v.workspace ++ ([] ++ t)) = none ∨
      d.entry (v.workspace ++ ([] ++ t)) = some .directory := by
    intro t ht
    rw [List.nil_append]
    refine ho.2 _ ((List.prefix_append_right_inj _).mpr (ht.trans (List.prefix_append _ _))) (fun h ↦ ?_)
    have hlen := congrArg List.length (List.append_cancel_left h)
    have := ht.length_le
    simp only [List.length_append, List.length_singleton] at hlen this
    omega
  rw [dirname_lead hc, createDir, hways]
  exact exists_makeWays v d [] (by simpa using hn) (by simpa using hws) hway

theorem not_concat_prefix {q : List Text} : ¬ q ++ [c] <+: q := by
  intro h
  have := h.length_le
  simp only [List.length_append, List.length_singleton] at this
  omega

theorem prefix_iff_concat {q : List Text} (h : p ≠ q ++ (names ++ [c])) :
    p <+: q ++ names ↔ p <+: q ++ (names ++ [c]) := by
  rw [← List.append_assoc] at h
  rw [← List.append_assoc, List.prefix_concat_iff]
  exact (or_iff_right h).symm

theorem stat_noent {cs : List Text} (hne : rest ≠ []) (ha : ¬ Absolute rest) (hcs : components rest = c :: cs)
    (hc : Name c) (hws : d.entry v.workspace = some .directory) (hd : d.entry (v.workspace ++ [c]) = none) :
    stat v d rest = .error .noent := by
  have hwalk : walk d v.workspace (c :: cs) = walk d (v.workspace ++ [c]) cs := walk_cons d hws hc
  rw [stat, resolve, if_neg hne, if_neg ha, hcs, hwalk]
  cases cs with
  | nil =>
    rw [walk]
    dsimp only
    rw [hd]
    cases rest.getLast? <;> simp [hd]
  | cons x cs => rw [walk, hd]

theorem exists_of_mem_cutsFrom {cut path : Text} (h : cut ∈ cutsFrom done path) :
    ∃ u, done ++ path = cut ++ '/' :: u := by
  induction path generalizing done with
  | nil => cases h
  | cons x path ih =>
    rw [cutsFrom] at h
    rcases List.mem_append.mp h with h | h
    · simpa using ih h
    · split at h
      · rename_i hx
        rw [List.mem_singleton.mp h, hx]
        exact ⟨path, rfl⟩
      · cases h

theorem cutsWithin_of_noent {cuts : List Text} (h : ∀ cut ∈ cuts, stat v d cut = .error .noent) :
    cutsWithin v d cuts = true := by
  induction cuts with
  | nil => rfl
  | cons cut cuts ih =>
    rw [cutsWithin, h cut List.mem_cons_self]
    exact ih (fun x hx ↦ h x (List.mem_cons_of_mem _ hx))

/-- The check passes a path whose first name is not known outside of the
cache. -/
theorem pathWithinWorkspace_first {path : Text} (ha : ¬ Absolute path) (hfirst : (components path).head? = some c)
    (hc : Name c) (hws : d.entry v.workspace = some .directory) (hd : d.entry (v.workspace ++ [c]) = none) :
    pathWithinWorkspace v d path = true := by
  have hcuts : cutsWithin v d (cutsFrom [] path) = true := by
    refine cutsWithin_of_noent v d (fun cut hcut ↦ ?_)
    obtain ⟨u, hu⟩ := exists_of_mem_cutsFrom hcut
    rw [List.nil_append] at hu
    have hne : cut ≠ [] := by
      rintro rfl
      exact ha (by rw [hu]; rfl)
    have hcut : ¬ Absolute cut := by
      rw [hu] at ha
      rwa [absolute_append hne] at ha
    obtain ⟨y, b, rfl, hy, hys, hb⟩ := exists_first_component hne hcut
    have hcomponents : components (y ++ b) = y :: components b := by
      rw [components_join (.inr (.inr hb)), components_word hy hys]
      rfl
    rw [hu, components_slash, hcomponents] at hfirst
    obtain rfl : y = c := Option.some.inj hfirst
    exact stat_noent v d hne hcut hcomponents hc hws hd
  rw [pathWithinWorkspace, hcuts, decide_eq_false ha]
  rfl

end Paths

section Messages

variable {name t : Text} {length flags : ℤ} {mode : ℕ}

def putLine (name : Text) (length : ℤ) (mode : ℕ) (flags : ℤ) : Text :=
  "put ".toList ++ (name ++ ' ' :: (showInt length ++ ' ' :: '0' :: (showOctal mode ++ ' ' :: showInt flags)))

theorem text_put : Link.text (.put name length mode flags) = putLine name length mode flags ++ ['\n'] := by
  have hzero : " 0".toList = [' ', '0'] := rfl
  show "put ".toList ++ name ++ ' ' :: showInt length ++ " 0".toList ++ showOctal mode ++
    ' ' :: showInt flags ++ ['\n'] = _
  rw [putLine, hzero]
  generalize showInt length = l, showOctal mode = m, showInt flags = f
  simp only [List.append_assoc, List.cons_append, List.nil_append]

end Messages

structure Parcel where
  path : List Text
  content : Text
  mode : ℕ
  flags : ℤ

def spell (path : List Text) : Text := lead path.dropLast ++ path.getLast?.getD []

namespace Parcel

def name (f : Parcel) : Text := spell f.path

def line (f : Parcel) : Text := putLine f.name f.content.length f.mode f.flags

def text (f : Parcel) : Text := f.line ++ '\n' :: f.content

def place (f : Parcel) : List Text := v.workspace ++ "cache".toList :: f.path

def contents (f : Parcel) : Contents := ⟨f.content, newMode v f.mode⟩

/-- The message can be read, and its numbers have their sizes. -/
structure Fits (f : Parcel) : Prop where
  nonempty : f.path ≠ []
  names : ∀ c ∈ f.path, Name c
  legible : Streaming.Legible f.name
  short : f.line.length < workQueueLineMax
  mode : f.mode < 2 ^ 32
  size : f.content.length < 2 ^ 63

end Parcel

section Delivery

variable {v d} {f : Parcel} {e : End} {n : ℕ} {rest : Text}

@[simp] theorem spell_concat {dirs : List Text} {c : Text} : spell (dirs ++ [c]) = lead dirs ++ c := by
  simp [spell]

theorem name_cache : Name "cache".toList := ⟨by decide, by decide, by decide, by decide⟩

end Delivery

end Cyque.Cache
