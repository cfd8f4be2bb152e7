import Cyque.Library.Shell
import Cyque.Link

namespace Cyque.Condor

open Library.Scanning Library.Shell Link

inductive Command
  | copy (path : Text)
  | submit (path : Text)
deriving DecidableEq

namespace Command

def program : Command → Text
  | .copy _ => "tee".toList
  | .submit _ => "condor_submit".toList

def path : Command → Text
  | .copy path | .submit path => path

/-- `"tee " + path`, `"condor_submit " + *submit` -/
def text : Command → Text
  | .copy path => "tee ".toList ++ path
  | .submit path => "condor_submit ".toList ++ path

end Command

/-- What happens at a file of the list: it cannot be opened or there is no
session for it, the copy fails after the command went out, or it is made. -/
inductive Attempt
  | unsent
  | failed
  | copied

/-- The commands of the loop over the files, and whether it comes to its end. -/
def copyFiles (attempt : ℕ → Attempt) : ℕ → List Text → List Command × Bool
  | _, [] => ([], true)
  | i, fname :: fnames =>
    match attempt i with
    | .unsent => ([], false)
    | .failed => ([.copy fname], false)
    | .copied =>
      let rest := copyFiles attempt (i + 1) fnames
      (.copy fname :: rest.1, rest.2)

/-- The commands that the tool sends. `session` says whether there is a session
for the last one. -/
def main (attempt : ℕ → Attempt) (session : Bool) (args : List Text) (submit : Text) : List Command :=
  let fnames := if submit ≠ [] then args ++ [submit] else args
  let sent := copyFiles attempt 0 fnames
  if sent.2 ∧ submit ≠ [] ∧ session then sent.1 ++ [.submit submit] else sent.1

def isOperand (a : Text) : Bool := a.head? != some '-' || a == ['-']

variable {reach : Text → ℕ} {c : Command}

/-- The shell of every host, which gets the command as a C string, runs the
program on the named file and does nothing else. -/
def Faithful (reach : Text → ℕ) (c : Command) : Prop :=
  (∀ h, read reach h (cString c.text) = some [c.program, c.path]) ∧ isOperand c.path = true

structure Safe (path : Text) : Prop where
  plain : Plain path
  noZero : '\x00' ∉ path
  operand : isOperand path = true

theorem plain_program (c : Command) : Plain c.program := by
  cases c with
  | copy path =>
    have h : isPlain "tee".toList = true := by decide +kernel
    exact isPlain_iff.mp h
  | submit path =>
    have h : isPlain "condor_submit".toList = true := by decide +kernel
    exact isPlain_iff.mp h

theorem cString_text (c : Command) : cString c.text = c.program ++ ' ' :: cString c.path := by
  cases c with
  | copy path => rfl
  | submit path => rfl

theorem cString_eq_iff (s : Text) : cString s = s ↔ '\x00' ∉ s := by
  rw [cString, List.takeWhile_eq_self_iff]
  constructor
  · intro h hm
    simpa using h _ hm
  · intro h c hc
    exact decide_eq_true (fun he ↦ h (he ▸ hc))

theorem faithful_iff (reach : Text → ℕ) (c : Command) : Faithful reach c ↔ Safe c.path := by
  have hp := plain_program c
  constructor
  · rintro ⟨hr, ho⟩
    have hprefix : cString c.path <+: c.path := List.takeWhile_prefix _
    have hlen := (ordinary_of_read hp (cString_text c ▸ hr spare) hprefix.length_le).2
    have hzero : cString c.path = c.path := hprefix.eq_of_length hlen
    have hread : ∀ h, read reach h (c.program ++ ' ' :: c.path) = some [c.program, c.path] := by
      intro h
      have hh := hr h
      rwa [cString_text, hzero] at hh
    exact ⟨(read_argument_iff hp).mp hread, (cString_eq_iff _).mp hzero, ho⟩
  · rintro ⟨hplain, hzero, ho⟩
    refine ⟨fun h ↦ ?_, ho⟩
    rw [cString_text, (cString_eq_iff _).mpr hzero]
    exact (read_argument_iff hp).mpr hplain h

theorem path_mem_copyFiles {attempt : ℕ → Attempt} {fnames : List Text} {i : ℕ}
    (h : c ∈ (copyFiles attempt i fnames).1) : c.path ∈ fnames := by
  induction fnames generalizing i with
  | nil => exact absurd h List.not_mem_nil
  | cons fname fnames ih =>
    rw [copyFiles] at h
    cases ha : attempt i with
    | unsent =>
      rw [ha] at h
      exact absurd h List.not_mem_nil
    | failed =>
      rw [ha] at h
      rw [List.mem_singleton.mp h]
      exact List.mem_cons_self
    | copied =>
      rw [ha] at h
      rcases List.mem_cons.mp h with rfl | h
      · exact List.mem_cons_self
      · exact List.mem_cons_of_mem _ (ih h)

theorem copyFiles_copied (fnames : List Text) (i : ℕ) :
    copyFiles (fun _ ↦ .copied) i fnames = (fnames.map .copy, true) := by
  induction fnames generalizing i with
  | nil => rfl
  | cons fname fnames ih =>
    rw [copyFiles, ih]
    rfl

theorem path_mem_main {attempt : ℕ → Attempt} {session : Bool} {args : List Text} {submit : Text}
    (h : c ∈ main attempt session args submit) : c.path ∈ args ∨ submit ≠ [] ∧ c.path = submit := by
  have hfile : ∀ {c : Command},
      c ∈ (copyFiles attempt 0 (if submit ≠ [] then args ++ [submit] else args)).1 →
        c.path ∈ args ∨ submit ≠ [] ∧ c.path = submit := by
    intro c hc
    have hm := path_mem_copyFiles hc
    split at hm
    · rename_i hs
      exact (List.mem_append.mp hm).imp id (fun hc ↦ ⟨hs, List.mem_singleton.mp hc⟩)
    · exact .inl hm
  simp only [main] at h
  generalize copyFiles attempt 0 (if submit ≠ [] then args ++ [submit] else args) = sent at h hfile
  split at h
  · rename_i hs
    rcases List.mem_append.mp h with h | h
    · exact hfile h
    · rw [List.mem_singleton.mp h]
      exact .inr ⟨hs.2.1, rfl⟩
  · exact hfile h

theorem mem_main_copied {args : List Text} {submit path : Text}
    (h : path ∈ args ∨ submit ≠ [] ∧ path = submit) :
    .copy path ∈ main (fun _ ↦ .copied) true args submit := by
  simp only [main, copyFiles_copied]
  by_cases hs : submit = []
  · subst hs
    have hm : path ∈ args := h.resolve_right (fun hp ↦ hp.1 rfl)
    simpa using hm
  · have hm : path ∈ args ∨ path = submit := h.imp id And.right
    simpa [hs] using hm

/-- The commands of a run are read as they are meant if and only if the names
that are sent are safe; those of every run if and only if all names are. -/
theorem commands_faithful_iff (reach : Text → ℕ) (args : List Text) (submit : Text) :
    (∀ attempt session, (∀ c ∈ main attempt session args submit, Faithful reach c) ↔
      ∀ c ∈ main attempt session args submit, Safe c.path) ∧
    ((∀ attempt session, ∀ c ∈ main attempt session args submit, Faithful reach c) ↔
      (∀ path ∈ args, Safe path) ∧ (submit ≠ [] → Safe submit)) := by
  refine ⟨fun attempt session ↦ forall₂_congr (fun c _ ↦ faithful_iff reach c), fun h ↦ ?_, ?_⟩
  · have hsafe : ∀ {path : Text}, path ∈ args ∨ submit ≠ [] ∧ path = submit → Safe path :=
      fun hm ↦ (faithful_iff reach _).mp (h _ _ _ (mem_main_copied hm))
    exact ⟨fun path hp ↦ hsafe (.inl hp), fun hs ↦ hsafe (.inr ⟨hs, rfl⟩)⟩
  · rintro ⟨hargs, hsubmit⟩ attempt session c hc
    rw [faithful_iff]
    rcases path_mem_main hc with hp | ⟨hs, hp⟩
    · exact hargs _ hp
    · rw [hp]
      exact hsubmit hs

theorem commands_faithful_job :
    main (fun _ ↦ .copied) true ["run-2.sh".toList] "a_job.sub".toList =
        [.copy "run-2.sh".toList, .copy "a_job.sub".toList, .submit "a_job.sub".toList] ∧
      ∀ c ∈ main (fun _ ↦ .copied) true ["run-2.sh".toList] "a_job.sub".toList,
        Faithful List.length c := by
  have hsafe : ∀ path ∈ ["run-2.sh".toList, "a_job.sub".toList],
      Plain path ∧ cString path = path ∧ isOperand path = true := by
    decide +kernel
  have hname : ∀ path ∈ ["run-2.sh".toList, "a_job.sub".toList], Safe path := by
    intro path hp
    obtain ⟨hplain, hzero, hoperand⟩ := hsafe path hp
    exact ⟨hplain, (cString_eq_iff _).mp hzero, hoperand⟩
  refine ⟨by decide +kernel, (commands_faithful_iff _ _ _).2.mpr ⟨fun path hp ↦ hname path ?_, fun _ ↦
    hname _ ?_⟩ _ _⟩
  · rw [List.mem_singleton.mp hp]
    exact List.mem_cons_self
  · exact List.mem_cons_of_mem _ List.mem_cons_self

/-- A host like any other, with a variable, a home directory and two files. -/
def node : Host where
  value _ := "/home/user".toList
  home _ := "/home/user".toList
  names := ["a1".toList, "a2".toList]
  member body c := body.contains c

/-- The shell takes a name apart at its blanks, runs what is behind a
semicolon, and puts other names in the place of a pattern or a tilde; the
program takes a name for an option. -/
theorem commands_unfaithful :
    read (fun _ ↦ 0) node (cString (Command.copy "a b".toList).text) =
        some ["tee".toList, "a".toList, "b".toList] ∧
      read (fun _ ↦ 0) node (cString (Command.copy "x;rm y".toList).text) = none ∧
      read (fun _ ↦ 0) node (cString (Command.submit "a*".toList).text) =
        some ["condor_submit".toList, "a1".toList, "a2".toList] ∧
      read (fun _ ↦ 0) node (cString (Command.copy "~".toList).text) =
        some ["tee".toList, "/home/user".toList] ∧
      isOperand "-a".toList = false ∧
      ∃ c ∈ main (fun _ ↦ .copied) true ["a b".toList] [], ¬ Faithful (fun _ ↦ 0) c := by
  have hab : read (fun _ ↦ 0) node (cString (Command.copy "a b".toList).text) =
      some ["tee".toList, "a".toList, "b".toList] := by decide +kernel
  refine ⟨hab, by decide +kernel, by decide +kernel, by decide +kernel, by decide, _,
    List.mem_singleton_self _, fun h ↦ ?_⟩
  have := hab.symm.trans (h.1 node)
  exact absurd (Option.some.inj this) (by decide)

end Cyque.Condor
