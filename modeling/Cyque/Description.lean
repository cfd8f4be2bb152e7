import Cyque.Streaming
import Cyque.Specification

namespace Cyque.Description

open Library.Execution Library.Scanning Queue Link Files Transfer Dispatch Worker Specification Streaming

def description (md5String : Text → Text) (t : Task) : Text :=
  ((taskMessages md5String t).filter fits).flatMap text ++ text .end

def line : Msg → Text
  | .cmd c => "cmd ".toList ++ showInt c.length
  | m => (text m).dropLast

def cached (md5String : Text → Text) (f : File) : File :=
  workQueueFileCreate f.remoteName .file f.flags ("cache/".toList ++ makeCachedName md5String f)

structure Received (md5String : Text → Text) (t received : Task) : Prop where
  command : received.commandLine = t.commandLine
  inputs : received.inputFiles = t.inputFiles.map (cached md5String)
  outputs : received.outputFiles = t.outputFiles.map (cached md5String)

/-- When a task can be described to a worker. -/
structure Transmissible (md5String : Text → Text) (t : Task) : Prop where
  command : fits (.cmd t.commandLine) = true
  names : ∀ f ∈ t.inputFiles ++ t.outputFiles,
    IsWord f.remoteName ∧ IsWord (makeCachedName md5String f)
  apart : ∀ f ∈ t.inputFiles, ∀ g ∈ t.outputFiles, f.remoteName ≠ g.remoteName
  outputs : ∀ f ∈ t.outputFiles, ∀ g ∈ t.outputFiles,
    makeCachedName md5String f = makeCachedName md5String g → f.remoteName = g.remoteName

section Words

variable {s : Text} {ds : List Directive} {w : Text} {st : Reading} {t : Task} {v : Scratch}

theorem isWord_takeWord {c : Char} {u : Text} (h : skipSpace s = c :: u) : IsWord (takeWord (c :: u)) := by
  have hc : isSpace c = false := by
    have hdrop : s.dropWhile isSpace = c :: u := h
    have hhead := List.head_dropWhile_not isSpace (l := s) (by rw [hdrop]; simp)
    simpa only [hdrop, List.head_cons, Bool.not_eq_true] using hhead
  refine ⟨by simp [takeWord, hc], fun x hx ↦ ?_⟩
  simpa using List.mem_takeWhile_imp hx

theorem isWord_of_sscanf (h : .word w ∈ (sscanf s ds).values) : IsWord w := by
  induction ds generalizing s with
  | nil => simp [sscanf] at h
  | cons d ds ih =>
    cases d with
    | space => exact ih (by simpa [sscanf] using h)
    | lit c =>
      cases s with
      | nil => simp [sscanf] at h
      | cons a s =>
        rw [sscanf] at h
        split at h
        · exact ih h
        · simp at h
    | word =>
      rw [sscanf] at h
      split at h
      · simp at h
      · rename_i u hne
        cases hu : skipSpace s with
        | nil => exact absurd hu hne
        | cons c u =>
          rw [hu] at h
          rcases List.mem_cons.mp h with h | h
          · cases h
            exact isWord_takeWord hu
          · exact ih h
    | int32 =>
      rw [sscanf] at h
      split at h
      · simp at h
      · simp at h
      · rcases List.mem_cons.mp h with h | h
        · cases h
        · exact ih h
    | int64 =>
      rw [sscanf] at h
      split at h
      · simp at h
      · simp at h
      · rcases List.mem_cons.mp h with h | h
        · cases h
        · exact ih h

structure Wordy (st : Reading) : Prop where
  filename : IsWord st.scratch.filename
  taskname : IsWord st.scratch.taskname
  files : ∀ f ∈ st.task.inputFiles ++ st.task.outputFiles, f.type = .file →
    IsWord f.remoteName ∧ ∃ w, IsWord w ∧ f.payload = "cache/".toList ++ w

theorem isWord_assign (hf : IsWord v.filename) (ht : IsWord v.taskname) (vs : List Value)
    (hvs : ∀ w, .word w ∈ vs → IsWord w) :
    IsWord (v.assign vs).filename ∧ IsWord (v.assign vs).taskname := by
  unfold Scratch.assign
  split
  · exact ⟨hvs _ (by simp), ht⟩
  · exact ⟨hvs _ (by simp), hvs _ (by simp)⟩
  · exact ⟨hvs _ (by simp), hvs _ (by simp)⟩
  · exact ⟨hf, ht⟩
  · exact ⟨hf, ht⟩

def values : Order → List Value
  | .infile vs | .outfile vs | .dir vs | .cores vs | .memory vs | .disk vs | .gpus vs => vs
  | _ => []

theorem isWord_of_parseOrder (h : .word w ∈ values (parseOrder s)) : IsWord w := by
  unfold parseOrder at h
  simp only at h
  split at h
  · exact absurd h List.not_mem_nil
  split at h
  · exact isWord_of_sscanf h
  split at h
  · exact isWord_of_sscanf h
  split at h
  · exact isWord_of_sscanf h
  split at h
  · exact isWord_of_sscanf h
  split at h
  · exact isWord_of_sscanf h
  split at h
  · exact isWord_of_sscanf h
  split at h
  · exact isWord_of_sscanf h
  split at h
  · exact absurd h List.not_mem_nil
  · exact absurd h List.not_mem_nil

theorem mem_specifyFile {localName remoteName : Text} {type : Direction} {flags : ℤ} {f : File}
    (h : f ∈ ((workQueueTaskSpecifyFile t localName remoteName type flags).getD t).inputFiles ++
      ((workQueueTaskSpecifyFile t localName remoteName type flags).getD t).outputFiles) :
    f ∈ t.inputFiles ++ t.outputFiles ∨ f = workQueueFileCreate remoteName .file flags localName := by
  unfold workQueueTaskSpecifyFile at h
  split at h
  · exact .inl h
  split at h
  · exact .inl h
  cases type with
  | input =>
    simp only [Option.getD_some, List.mem_append, List.mem_singleton] at h ⊢
    tauto
  | output =>
    simp only [Option.getD_some, List.mem_append, List.mem_singleton] at h ⊢
    tauto

theorem mem_specifyDirectory {localName remoteName : Text} {flags : ℤ} {f : File}
    (h : f ∈ ((workQueueTaskSpecifyDirectory t localName remoteName flags).getD t).inputFiles ++
      ((workQueueTaskSpecifyDirectory t localName remoteName flags).getD t).outputFiles) :
    f ∈ t.inputFiles ++ t.outputFiles ∨ f.type = .directory := by
  unfold workQueueTaskSpecifyDirectory at h
  split at h
  · exact .inl h
  split at h
  · exact .inl h
  simp only [Option.getD_some, List.mem_append, List.mem_singleton] at h ⊢
  rcases h with (h | rfl) | h
  · exact .inl (.inl h)
  · exact .inr rfl
  · exact .inl (.inr h)

theorem files_specifyResource (set : ℤ → Task → Task) (n : ℤ)
    (hset : ∀ n t, (set n t).commandLine = t.commandLine ∧ (set n t).inputFiles = t.inputFiles ∧
      (set n t).outputFiles = t.outputFiles) (t : Task) :
    (specifyResource set n t).commandLine = t.commandLine ∧
      (specifyResource set n t).inputFiles = t.inputFiles ∧
      (specifyResource set n t).outputFiles = t.outputFiles := by
  unfold specifyResource setTaskUnlabelFlag
  split <;> split <;> exact hset _ t

theorem wordy_follow (h : Wordy st) (o : Order) (ho : ∀ w, .word w ∈ values o → IsWord w) :
    Wordy (follow st o) := by
  have hassign := isWord_assign h.filename h.taskname (values o) ho
  cases o with
  | infile vs =>
    refine ⟨hassign.1, hassign.2, fun f hf ht ↦ ?_⟩
    rcases mem_specifyFile hf with hf | rfl
    · exact h.files f hf ht
    · exact ⟨hassign.2, _, hassign.1, rfl⟩
  | outfile vs =>
    refine ⟨hassign.1, hassign.2, fun f hf ht ↦ ?_⟩
    rcases mem_specifyFile hf with hf | rfl
    · exact h.files f hf ht
    · exact ⟨hassign.2, _, hassign.1, rfl⟩
  | dir vs =>
    refine ⟨hassign.1, hassign.2, fun f hf ht ↦ ?_⟩
    rcases mem_specifyDirectory hf with hf | hd
    · exact h.files f hf ht
    · rw [hd] at ht
      cases ht
  | cores vs =>
    obtain ⟨-, hin, hout⟩ := files_specifyResource (fun n t ↦ { t with cores := n })
      (st.scratch.assign vs).n (fun _ _ ↦ ⟨rfl, rfl, rfl⟩) st.task
    exact ⟨hassign.1, hassign.2, fun f hf ↦ h.files f (by rwa [follow, workQueueTaskSpecifyCores, hin, hout] at hf)⟩
  | memory vs =>
    obtain ⟨-, hin, hout⟩ := files_specifyResource (fun n t ↦ { t with memory := n })
      (st.scratch.assign vs).n (fun _ _ ↦ ⟨rfl, rfl, rfl⟩) st.task
    exact ⟨hassign.1, hassign.2, fun f hf ↦ h.files f (by rwa [follow, workQueueTaskSpecifyMemory, hin, hout] at hf)⟩
  | disk vs =>
    obtain ⟨-, hin, hout⟩ := files_specifyResource (fun n t ↦ { t with disk := n })
      (st.scratch.assign vs).n (fun _ _ ↦ ⟨rfl, rfl, rfl⟩) st.task
    exact ⟨hassign.1, hassign.2, fun f hf ↦ h.files f (by rwa [follow, workQueueTaskSpecifyDisk, hin, hout] at hf)⟩
  | gpus vs =>
    obtain ⟨-, hin, hout⟩ := files_specifyResource (fun n t ↦ { t with gpus := n })
      (st.scratch.assign vs).n (fun _ _ ↦ ⟨rfl, rfl, rfl⟩) st.task
    exact ⟨hassign.1, hassign.2, fun f hf ↦ h.files f (by rwa [follow, workQueueTaskSpecifyGpus, hin, hout] at hf)⟩
  | cmd _ => exact h
  | «end» => exact h
  | invalid => exact h

theorem wordy_readTask {lines : ℕ} {rest : Text} (h : Wordy st)
    (hr : readTask lines st s = some (t, rest)) :
    ∀ f ∈ t.inputFiles ++ t.outputFiles, f.type = .file →
      IsWord f.remoteName ∧ ∃ w, IsWord w ∧ f.payload = "cache/".toList ++ w := by
  induction lines generalizing st s with
  | zero => cases hr
  | succ lines ih =>
    rw [readTask] at hr
    split at hr
    · cases hr
      exact h.files
    · rename_i line rest' _
      have hvalues : ∀ w, .word w ∈ values (parseOrder (cString line)) → IsWord w :=
        fun w hw ↦ isWord_of_parseOrder hw
      split at hr
      · rename_i length _
        have hcmd : Wordy { st with
            task := { st.task with commandLine := cString (rest'.take length.toNat) } } :=
          ⟨h.filename, h.taskname, h.files⟩
        exact ih hcmd hr
      · cases hr
        exact h.files
      · cases hr
      · exact ih (wordy_follow h _ hvalues) hr

end Words

section Lines

variable {c n l rest : Text} {f : ℤ} {k : ℕ} {st : Reading} {m : Msg}

theorem sscanf_number (p : String) (hf : -2 ^ 31 ≤ f ∧ f < 2 ^ 31) :
    sscanf (p.toList ++ ' ' :: showInt f) (lits p ++ [.space, .int32]) = ⟨[.int f], false⟩ := by
  have hint : sscanf (showInt f) [.int32] = ⟨[.int f], false⟩ := by
    have h : sscanf (showInt f ++ []) [.int32] = _ := sscanf_int32 parted_nil
    rw [List.append_nil] at h
    rw [h, saturate_eq (by omega) (by omega), wrap_eq hf.1 hf.2]
    rfl
  have hspace : sscanf (' ' :: (showInt f ++ [])) [.space, .int32] = _ := sscanf_space (isWord_showInt f)
  rw [List.append_nil] at hspace
  rw [sscanf_lits, hspace, hint]

theorem sscanf_file (p : String) (hc : IsWord c) (hn : IsWord n) (hf : -2 ^ 31 ≤ f ∧ f < 2 ^ 31) :
    sscanf (p.toList ++ ' ' :: (c ++ ' ' :: (n ++ ' ' :: showInt f)))
      (lits p ++ [.space, .word, .space, .word, .space, .int32]) = ⟨[.word c, .word n, .int f], false⟩ := by
  have hlast : sscanf (' ' :: showInt f) [.space, .int32] = ⟨[.int f], false⟩ := sscanf_number "" hf
  rw [sscanf_lits, sscanf_space hc, sscanf_word hc (parted_space _), sscanf_space hn,
    sscanf_word hn (parted_space _), hlast]
  rfl

theorem parseOrder_cmd (hf : -2 ^ 31 ≤ f ∧ f < 2 ^ 31) :
    parseOrder ("cmd".toList ++ ' ' :: showInt f) = .cmd f := by
  have hscan := sscanf_number "cmd" hf
  unfold parseOrder
  rw [hscan]

theorem parseOrder_infile (hc : IsWord c) (hn : IsWord n) (hf : -2 ^ 31 ≤ f ∧ f < 2 ^ 31) :
    parseOrder ("infile".toList ++ ' ' :: (c ++ ' ' :: (n ++ ' ' :: showInt f))) =
      .infile [.word c, .word n, .int f] := by
  have hscan := sscanf_file "infile" hc hn hf
  unfold parseOrder
  rw [hscan]
  rfl

theorem parseOrder_outfile (hc : IsWord c) (hn : IsWord n) (hf : -2 ^ 31 ≤ f ∧ f < 2 ^ 31) :
    parseOrder ("outfile".toList ++ ' ' :: (c ++ ' ' :: (n ++ ' ' :: showInt f))) =
      .outfile [.word c, .word n, .int f] := by
  have hscan := sscanf_file "outfile" hc hn hf
  unfold parseOrder
  rw [hscan]
  rfl

theorem cString_clean (hl : Clean l) : cString l = l :=
  (cString_eq_iff l).mpr (fun h ↦ (hl _ h).2.2 rfl)

theorem readTask_order {o : Order} (hl : Clean l) (hn : l.length < workQueueLineMax)
    (ho : parseOrder l = o) (hc : ∀ i, o ≠ .cmd i) (he : o ≠ .end) (hi : o ≠ .invalid) :
    readTask (k + 1) st (l ++ '\n' :: rest) = readTask k (follow st o) rest := by
  rw [readTask, readline_line hl hn]
  simp only [cString_clean hl, ho]

theorem clean_words (p : String) (hp : Clean p.toList) (hc : Legible c) (hn : Legible n) :
    Clean (p.toList ++ ' ' :: (c ++ ' ' :: (n ++ ' ' :: showInt f))) := by
  have hspace : Clean [' '] := clean_of_all rfl
  have hshow : Clean (' ' :: showInt f) := clean_append hspace (clean_showInt f)
  have hname : Clean (' ' :: (n ++ ' ' :: showInt f)) :=
    clean_append hspace (clean_append (clean_of_isWord hn.1 hn.2) hshow)
  exact clean_append hp (clean_append hspace (clean_append (clean_of_isWord hc.1 hc.2) hname))

theorem line_infile : line (.infile c n f) = "infile".toList ++ ' ' :: (c ++ ' ' :: (n ++ ' ' :: showInt f)) ∧
    text (.infile c n f) = line (.infile c n f) ++ ['\n'] := by
  have htext : text (.infile c n f) =
      "infile".toList ++ ' ' :: (c ++ ' ' :: (n ++ ' ' :: showInt f)) ++ ['\n'] := by
    show "infile ".toList ++ c ++ ' ' :: n ++ ' ' :: showInt f ++ ['\n'] = _
    simp
  have hline : line (.infile c n f) = (text (.infile c n f)).dropLast := rfl
  rw [hline, htext, List.dropLast_concat]
  exact ⟨rfl, rfl⟩

theorem line_outfile : line (.outfile c n f) = "outfile".toList ++ ' ' :: (c ++ ' ' :: (n ++ ' ' :: showInt f)) ∧
    text (.outfile c n f) = line (.outfile c n f) ++ ['\n'] := by
  have htext : text (.outfile c n f) =
      "outfile".toList ++ ' ' :: (c ++ ' ' :: (n ++ ' ' :: showInt f)) ++ ['\n'] := by
    show "outfile ".toList ++ c ++ ' ' :: n ++ ' ' :: showInt f ++ ['\n'] = _
    simp
  have hline : line (.outfile c n f) = (text (.outfile c n f)).dropLast := rfl
  rw [hline, htext, List.dropLast_concat]
  exact ⟨rfl, rfl⟩

theorem readTask_infile (hc : Legible c) (hn : Legible n) (hf : -2 ^ 31 ≤ f ∧ f < 2 ^ 31)
    (hlen : (line (.infile c n f)).length < workQueueLineMax) :
    readTask (k + 1) st (text (.infile c n f) ++ rest) =
      readTask k (follow st (.infile [.word c, .word n, .int f])) rest := by
  obtain ⟨hline, htext⟩ := line_infile (c := c) (n := n) (f := f)
  rw [htext, hline, List.append_assoc, List.singleton_append]
  rw [hline] at hlen
  exact readTask_order (clean_words "infile" (clean_of_all rfl) hc hn) hlen
    (parseOrder_infile hc.1 hn.1 hf) nofun nofun nofun

theorem readTask_outfile (hc : Legible c) (hn : Legible n) (hf : -2 ^ 31 ≤ f ∧ f < 2 ^ 31)
    (hlen : (line (.outfile c n f)).length < workQueueLineMax) :
    readTask (k + 1) st (text (.outfile c n f) ++ rest) =
      readTask k (follow st (.outfile [.word c, .word n, .int f])) rest := by
  obtain ⟨hline, htext⟩ := line_outfile (c := c) (n := n) (f := f)
  rw [htext, hline, List.append_assoc, List.singleton_append]
  rw [hline] at hlen
  exact readTask_order (clean_words "outfile" (clean_of_all rfl) hc hn) hlen
    (parseOrder_outfile hc.1 hn.1 hf) nofun nofun nofun

theorem readTask_cmd (hz : '\x00' ∉ c) (hfits : fits (.cmd c) = true)
    (hlen : (line (.cmd c)).length < workQueueLineMax) :
    readTask (k + 1) st (text (.cmd c) ++ rest) =
      readTask k { st with task := { st.task with commandLine := c } } rest := by
  have htext : text (.cmd c) ++ rest = ("cmd".toList ++ ' ' :: showInt c.length) ++ '\n' :: (c ++ rest) := by
    show ("cmd ".toList ++ showInt c.length ++ '\n' :: c) ++ rest = _
    simp
  have hlong : (c.length : ℤ) < 2 ^ 31 := by
    have h : (text (.cmd c)).length < 2 ^ 31 := of_decide_eq_true hfits
    have hle : c.length ≤ (text (.cmd c)).length := by
      show c.length ≤ ("cmd ".toList ++ showInt c.length ++ '\n' :: c).length
      simp only [List.length_append, List.length_cons]
      omega
    omega
  have hclean : Clean ("cmd".toList ++ ' ' :: showInt c.length) := by
    show Clean ("cmd ".toList ++ showInt c.length)
    exact clean_append (clean_of_all rfl) (clean_showInt _)
  rw [htext, readTask, readline_line hclean hlen]
  simp only [cString_clean hclean, parseOrder_cmd (f := c.length) ⟨by omega, hlong⟩]
  rw [Int.toNat_natCast, List.take_left', List.drop_left', (cString_eq_iff c).mpr hz]
  · rfl
  · rfl

/-- The lines about resources change neither the command nor the files. -/
theorem readTask_resources (k : ℕ) (st : Reading) : ∃ t v, readTask (k + 4) st
      ("cores -1\nmemory -1\ndisk -1\ngpus -1\n".toList ++ rest) = readTask k ⟨t, v⟩ rest ∧
    t.commandLine = st.task.commandLine ∧ t.inputFiles = st.task.inputFiles ∧
    t.outputFiles = st.task.outputFiles := by
  have hcores : ∀ st rest, readTask (k + 4) st ("cores -1".toList ++ '\n' :: rest) =
      readTask (k + 3) (follow st (.cores [.int (-1)])) rest := fun st rest ↦
    readTask_order (clean_of_all rfl) (by decide) rfl nofun nofun nofun
  have hmemory : ∀ st rest, readTask (k + 3) st ("memory -1".toList ++ '\n' :: rest) =
      readTask (k + 2) (follow st (.memory [.int (-1)])) rest := fun st rest ↦
    readTask_order (clean_of_all rfl) (by decide) rfl nofun nofun nofun
  have hdisk : ∀ st rest, readTask (k + 2) st ("disk -1".toList ++ '\n' :: rest) =
      readTask (k + 1) (follow st (.disk [.int (-1)])) rest := fun st rest ↦
    readTask_order (clean_of_all rfl) (by decide) rfl nofun nofun nofun
  have hgpus : ∀ st rest, readTask (k + 1) st ("gpus -1".toList ++ '\n' :: rest) =
      readTask k (follow st (.gpus [.int (-1)])) rest := fun st rest ↦
    readTask_order (clean_of_all rfl) (by decide) rfl nofun nofun nofun
  obtain ⟨h₁, h₂, h₃⟩ := files_specifyResource (fun n t ↦ { t with cores := n }) (-1)
    (fun _ _ ↦ ⟨rfl, rfl, rfl⟩) st.task
  obtain ⟨h₄, h₅, h₆⟩ := files_specifyResource (fun n t ↦ { t with memory := n }) (-1)
    (fun _ _ ↦ ⟨rfl, rfl, rfl⟩) (workQueueTaskSpecifyCores (-1) st.task)
  obtain ⟨h₇, h₈, h₉⟩ := files_specifyResource (fun n t ↦ { t with disk := n }) (-1)
    (fun _ _ ↦ ⟨rfl, rfl, rfl⟩) (workQueueTaskSpecifyMemory (-1) (workQueueTaskSpecifyCores (-1) st.task))
  obtain ⟨hc, hi, ho⟩ := files_specifyResource (fun n t ↦ { t with gpus := n }) (-1)
    (fun _ _ ↦ ⟨rfl, rfl, rfl⟩) (workQueueTaskSpecifyDisk (-1)
      (workQueueTaskSpecifyMemory (-1) (workQueueTaskSpecifyCores (-1) st.task)))
  refine ⟨_, _, (hcores st _).trans ((hmemory _ _).trans ((hdisk _ _).trans (hgpus _ rest))), ?_, ?_, ?_⟩
  · exact hc.trans (h₇.trans (h₄.trans h₁))
  · exact hi.trans (h₈.trans (h₅.trans h₂))
  · exact ho.trans (h₉.trans (h₆.trans h₃))

end Lines

/-- The call of `work_queue_task_specify_file` that the worker makes for a file. -/
def forwarded (md5String : Text → Text) (type : Direction) (f : File) : Request :=
  ⟨"cache/".toList ++ makeCachedName md5String f, f.remoteName, f.flags = 1, type⟩

/-- The same for all files of the task, in the order of its description. -/
def requests (md5String : Text → Text) (t : Task) : List Request :=
  t.inputFiles.map (forwarded md5String .input) ++ t.outputFiles.map (forwarded md5String .output)

/-- An entry that was made by a call of `AddInfile` or `AddOutfile`. -/
structure Entered (f : File) : Prop where
  type : f.type = .file
  flags : f.flags = 0 ∨ f.flags = 1
  remoteName : '\x00' ∉ f.remoteName ∧ f.remoteName.head? ≠ some '/'
  payload : '\x00' ∉ f.payload

/-- What every sequence of these calls establishes. -/
structure Described (t : Task) : Prop where
  command : '\x00' ∉ t.commandLine
  resources : t.cores = -1 ∧ t.memory = -1 ∧ t.disk = -1 ∧ t.gpus = -1
  inputs : ∀ f ∈ t.inputFiles, Entered f
  outputs : ∀ f ∈ t.outputFiles, Entered f
  shared : ∀ f ∈ t.inputFiles, ∀ g ∈ t.inputFiles, f.remoteName = g.remoteName → f.payload = g.payload

section Calls

variable {t : Task} {f : File} {md5String : Text → Text} {d : Direction} {c : Request}

theorem zero_not_mem_cString (x : Text) : '\x00' ∉ cString x := by
  intro h
  simpa using List.mem_takeWhile_imp h

theorem entered_file (hr : c.file.remoteName.head? ≠ some '/') : Entered c.file where
  type := rfl
  flags := by
    show (if c.cache then (1 : ℤ) else 0) = 0 ∨ (if c.cache then (1 : ℤ) else 0) = 1
    split
    · exact .inr rfl
    · exact .inl rfl
  remoteName := ⟨zero_not_mem_cString _, hr⟩
  payload := zero_not_mem_cString _

theorem described_next (h : Described t) (c : Request) : Described (next t c) := by
  by_cases ha : c.Admissible t
  · rw [next_of_admissible ha]
    obtain ⟨hr, ha⟩ := ha
    have he := entered_file hr
    cases htype : c.type with
    | input =>
      rw [htype] at ha
      have happ : c.append t = { t with inputFiles := t.inputFiles ++ [c.file] } := by
        rw [Request.append, htype]
      rw [happ]
      refine ⟨h.command, h.resources, fun f hf ↦ ?_, h.outputs, fun f hf g hg hn ↦ ?_⟩
      · rcases List.mem_append.mp hf with hf | hf
        · exact h.inputs f hf
        · rwa [List.mem_singleton.mp hf]
      · rcases List.mem_append.mp hf with hf | hf <;> rcases List.mem_append.mp hg with hg | hg
        · exact h.shared f hf g hg hn
        · obtain rfl := List.mem_singleton.mp hg
          exact ha f hf hn
        · obtain rfl := List.mem_singleton.mp hf
          exact (ha g hg hn.symm).symm
        · rw [List.mem_singleton.mp hf, List.mem_singleton.mp hg]
    | output =>
      have happ : c.append t = { t with outputFiles := t.outputFiles ++ [c.file] } := by
        rw [Request.append, htype]
      rw [happ]
      refine ⟨h.command, h.resources, h.inputs, fun f hf ↦ ?_, h.shared⟩
      rcases List.mem_append.mp hf with hf | hf
      · exact h.outputs f hf
      · rwa [List.mem_singleton.mp hf]
  · rwa [next_of_not_admissible ha]

theorem described_calls (command : Text) (cs : List Request) : Described (cs.foldl next (blank command)) := by
  have hblank : Described (blank command) :=
    ⟨zero_not_mem_cString _, ⟨rfl, rfl, rfl, rfl⟩, fun _ h ↦ absurd h List.not_mem_nil,
      fun _ h ↦ absurd h List.not_mem_nil, fun _ h ↦ absurd h List.not_mem_nil⟩
  induction cs using List.reverseRecOn with
  | nil => exact hblank
  | append_singleton cs c ih =>
    rw [List.foldl_append]
    exact described_next ih c

theorem mem_pathBasename {x : Char} {path : Text} (h : x ∈ pathBasename path) : x ∈ path ∨ x = '.' := by
  unfold pathBasename at h
  simp only at h
  split at h
  · split at h
    · exact .inr (List.mem_singleton.mp h)
    · exact .inl h
  · rename_i r hr
    rw [List.mem_reverse, List.mem_append] at h
    refine .inl (List.mem_reverse.mp ?_)
    rcases h with h | h
    · exact (List.takeWhile_prefix _).subset h
    · exact (List.dropWhile_suffix _).subset ((List.takeWhile_prefix _).subset h)

theorem zero_not_mem_cachedName (hmd5 : ∀ p, '\x00' ∉ md5String p) (hf : Entered f) :
    '\x00' ∉ makeCachedName md5String f := by
  rw [makeCachedName]
  simp only [List.mem_append, List.mem_cons, not_or]
  refine ⟨⟨by decide, hmd5 _⟩, by decide, fun h ↦ ?_⟩
  rcases mem_pathBasename h with h | h
  · exact hf.payload h
  · cases h

theorem file_forwarded (hmd5 : ∀ p, '\x00' ∉ md5String p) (hf : Entered f) :
    (forwarded md5String d f).file = cached md5String f := by
  have hname : cString ("cache/".toList ++ makeCachedName md5String f) =
      "cache/".toList ++ makeCachedName md5String f := by
    refine (cString_eq_iff _).mpr (fun h ↦ ?_)
    rcases List.mem_append.mp h with h | h
    · exact absurd h (by decide)
    · exact zero_not_mem_cachedName hmd5 hf h
  have hflags : (if decide (f.flags = 1) = true then (1 : ℤ) else 0) = f.flags := by
    rcases hf.flags with h | h <;> rw [h] <;> rfl
  show workQueueFileCreate (cString f.remoteName) .file (if decide (f.flags = 1) = true then 1 else 0)
    (cString ("cache/".toList ++ makeCachedName md5String f)) = _
  rw [hname, hflags, (cString_eq_iff _).mpr hf.remoteName.1]
  rfl

theorem next_forwarded (hmd5 : ∀ p, '\x00' ∉ md5String p) (hf : Entered f) :
    next t (forwarded md5String d f) = (workQueueTaskSpecifyFile t
      ("cache/".toList ++ makeCachedName md5String f) f.remoteName d f.flags).getD t := by
  have hfile := file_forwarded (d := d) hmd5 hf
  have hflags : (if (forwarded md5String d f).cache then (1 : ℤ) else 0) = f.flags :=
    congrArg File.flags hfile
  have hremote : cString (forwarded md5String d f).remoteName = f.remoteName :=
    congrArg File.remoteName hfile
  have hlocal : cString (forwarded md5String d f).localName =
      "cache/".toList ++ makeCachedName md5String f := congrArg File.payload hfile
  rw [next, Request.specify, hflags, hremote, hlocal]
  rfl

theorem readTask_files (msg : File → Msg) (fs : List File)
    (hstep : ∀ f ∈ fs, ∀ k st rest, ∃ v, readTask (k + 1) st (text (msg f) ++ rest) =
      readTask k ⟨next st.task (forwarded md5String d f), v⟩ rest) (k : ℕ) (st : Reading) (rest : Text) :
    ∃ v, readTask (k + fs.length) st ((fs.map msg).flatMap text ++ rest) =
      readTask k ⟨(fs.map (forwarded md5String d)).foldl next st.task, v⟩ rest := by
  induction fs generalizing st with
  | nil => exact ⟨st.scratch, rfl⟩
  | cons f fs ih =>
    obtain ⟨v, hv⟩ := hstep f (List.mem_cons_self ..) (k + fs.length) st
      ((fs.map msg).flatMap text ++ rest)
    obtain ⟨v', hv'⟩ := ih (fun g hg ↦ hstep g (List.mem_cons_of_mem f hg))
      ⟨next st.task (forwarded md5String d f), v⟩
    refine ⟨v', ?_⟩
    rw [List.length_cons, List.map_cons, List.flatMap_cons, List.append_assoc, ← Nat.add_assoc, hv, hv']
    rfl

/-- An entry whose line the worker reads as it was meant. -/
structure Sendable (md5String : Text → Text) (m : Msg) (f : File) : Prop where
  entered : Entered f
  remoteName : IsWord f.remoteName
  name : IsWord (makeCachedName md5String f)
  short : (line m).length < workQueueLineMax

theorem Sendable.flags {m : Msg} (h : Sendable md5String m f) : -2 ^ 31 ≤ f.flags ∧ f.flags < 2 ^ 31 := by
  rcases h.entered.flags with h | h <;> rw [h] <;> decide

def outMessage (md5String : Text → Text) (f : File) : Msg :=
  .outfile (makeCachedName md5String f) f.remoteName f.flags

theorem readTask_input (hmd5 : ∀ p, '\x00' ∉ md5String p) (h : Sendable md5String (fileMessage md5String f) f)
    (k : ℕ) (st : Reading) (rest : Text) : ∃ v, readTask (k + 1) st (text (fileMessage md5String f) ++ rest) =
      readTask k ⟨next st.task (forwarded md5String .input f), v⟩ rest := by
  have hmsg : fileMessage md5String f = .infile (makeCachedName md5String f) f.remoteName f.flags := by
    rw [fileMessage, h.entered.type]
  have hshort := h.short
  rw [hmsg] at hshort ⊢
  rw [readTask_infile ⟨h.name, zero_not_mem_cachedName hmd5 h.entered⟩
    ⟨h.remoteName, h.entered.remoteName.1⟩ h.flags hshort, next_forwarded hmd5 h.entered]
  exact ⟨_, rfl⟩

theorem readTask_output (hmd5 : ∀ p, '\x00' ∉ md5String p) (h : Sendable md5String (outMessage md5String f) f)
    (k : ℕ) (st : Reading) (rest : Text) : ∃ v, readTask (k + 1) st (text (outMessage md5String f) ++ rest) =
      readTask k ⟨next st.task (forwarded md5String .output f), v⟩ rest := by
  rw [outMessage, readTask_outfile ⟨h.name, zero_not_mem_cachedName hmd5 h.entered⟩
    ⟨h.remoteName, h.entered.remoteName.1⟩ h.flags h.short, next_forwarded hmd5 h.entered]
  exact ⟨_, rfl⟩

theorem fits_of_line {m : Msg} (h : text m = line m ++ ['\n']) (hlen : (line m).length < workQueueLineMax) :
    fits m = true := by
  refine decide_eq_true ?_
  rw [h, List.length_append, List.length_singleton]
  exact lt_of_lt_of_le (Nat.add_lt_add_right hlen 1) (by decide)

theorem line_fileMessage (hf : Entered f) :
    text (fileMessage md5String f) = line (fileMessage md5String f) ++ ['\n'] := by
  rw [fileMessage, hf.type]
  exact line_infile.2

theorem line_task (i : ℕ) : line (.task i) = "task".toList ++ ' ' :: showInt i ∧
    text (.task i) = line (.task i) ++ ['\n'] := by
  have htext : text (.task i) = "task".toList ++ ' ' :: showInt i ++ ['\n'] := by
    show "task ".toList ++ showInt i ++ ['\n'] = _
    simp
  have hline : line (.task i) = (text (.task i)).dropLast := rfl
  rw [hline, htext, List.dropLast_concat]
  exact ⟨rfl, rfl⟩

def body (md5String : Text → Text) (t : Task) : Text :=
  (if fits (.cmd t.commandLine) then text (.cmd t.commandLine) else []) ++
    ("cores -1\nmemory -1\ndisk -1\ngpus -1\n".toList ++
      ((t.inputFiles.map (fileMessage md5String)).flatMap text ++
        ((t.outputFiles.map (outMessage md5String)).flatMap text ++ "end\n".toList)))

theorem description_eq (h : Described t)
    (hlines : ∀ m ∈ taskMessages md5String t, (line m).length < workQueueLineMax) :
    description md5String t = text (.task t.taskid) ++ body md5String t := by
  obtain ⟨hcores, hmemory, hdisk, hgpus⟩ := h.resources
  have htask : fits (.task t.taskid) = true := by
    refine fits_of_line (line_task _).2 (hlines _ ?_)
    simp [taskMessages]
  have hins : (t.inputFiles.map (fileMessage md5String)).filter fits =
      t.inputFiles.map (fileMessage md5String) := by
    refine List.filter_eq_self.mpr (fun m hm ↦ ?_)
    obtain ⟨f, hf, rfl⟩ := List.mem_map.mp hm
    exact fits_of_line (line_fileMessage (h.inputs f hf)) (hlines _ (by simp [taskMessages, hm]))
  have houts : (t.outputFiles.map (outMessage md5String)).filter fits =
      t.outputFiles.map (outMessage md5String) := by
    refine List.filter_eq_self.mpr (fun m hm ↦ ?_)
    refine fits_of_line ?_ (hlines _ (List.mem_append_right _ hm))
    obtain ⟨f, hf, rfl⟩ := List.mem_map.mp hm
    exact line_outfile.2
  have hmessages : taskMessages md5String t =
      .task t.taskid :: .cmd t.commandLine :: ([.cores (-1), .memory (-1), .disk (-1), .gpus (-1)] ++
        (t.inputFiles.map (fileMessage md5String) ++ t.outputFiles.map (outMessage md5String))) := by
    rw [taskMessages, hcores, hmemory, hdisk, hgpus]
    simp only [List.cons_append, List.nil_append]
    rfl
  have hfour : [Msg.cores (-1), .memory (-1), .disk (-1), .gpus (-1)].filter fits =
      [.cores (-1), .memory (-1), .disk (-1), .gpus (-1)] := by decide +kernel
  have hsame : [Msg.cores (-1), .memory (-1), .disk (-1), .gpus (-1)].flatMap text =
      "cores -1\nmemory -1\ndisk -1\ngpus -1\n".toList := by decide +kernel
  rw [description, hmessages, List.filter_cons_of_pos htask, List.flatMap_cons, List.append_assoc, body]
  refine congrArg (text (.task t.taskid) ++ ·) ?_
  by_cases hc : fits (.cmd t.commandLine) = true
  · rw [List.filter_cons_of_pos hc, if_pos hc, List.flatMap_cons, List.append_assoc, List.filter_append,
      hfour, List.flatMap_append, hsame, List.filter_append, hins, houts, List.flatMap_append]
    simp only [List.append_assoc]
    rfl
  · rw [List.filter_cons_of_neg hc, if_neg hc, List.filter_append, hfour, List.flatMap_append, hsame,
      List.filter_append, hins, houts, List.flatMap_append]
    simp only [List.append_assoc, List.nil_append]
    rfl

theorem length_le_flatMap (ms : List Msg) (h : ∀ m ∈ ms, text m ≠ []) :
    ms.length ≤ (ms.flatMap text).length := by
  induction ms with
  | nil => exact le_rfl
  | cons m ms ih =>
    have hm := List.length_pos_iff.mpr (h m (List.mem_cons_self ..))
    have hms := ih (fun m' hm' ↦ h m' (List.mem_cons_of_mem m hm'))
    rw [List.flatMap_cons, List.length_append, List.length_cons]
    omega

/-- The loop of `do_task` has no more lines to read than the body has bytes. -/
theorem body_length (h : Described t) (md5String : Text → Text) :
    (if fits (.cmd t.commandLine) then 1 else 0) + 4 + t.inputFiles.length + t.outputFiles.length <
      (body md5String t).length := by
  have hins := length_le_flatMap (t.inputFiles.map (fileMessage md5String)) (fun m hm ↦ by
    obtain ⟨f, hf, rfl⟩ := List.mem_map.mp hm
    rw [line_fileMessage (h.inputs f hf)]
    simp)
  have houts := length_le_flatMap (t.outputFiles.map (outMessage md5String)) (fun m hm ↦ by
    obtain ⟨f, hf, rfl⟩ := List.mem_map.mp hm
    rw [outMessage, line_outfile.2]
    simp)
  have hres : "cores -1\nmemory -1\ndisk -1\ngpus -1\n".toList.length = 35 := rfl
  have hend : "end\n".toList.length = 4 := rfl
  rw [List.length_map] at hins houts
  simp only [body, List.length_append, hres, hend]
  split
  · omega
  · omega

theorem readTask_end (k : ℕ) (st : Reading) (rest : Text) :
    readTask (k + 1) st ("end\n".toList ++ rest) = some (st.task, rest) := by
  have hline : readline workQueueLineMax ("end".toList ++ '\n' :: rest) = (some "end".toList, rest) :=
    readline_line (clean_of_all rfl) (by decide)
  rw [readTask, show "end\n".toList ++ rest = "end".toList ++ '\n' :: rest from rfl, hline]
  rfl

theorem handleTask_description (h : Described t) (hid : t.taskid < 2 ^ 31)
    (hlines : ∀ m ∈ taskMessages md5String t, (line m).length < workQueueLineMax) (v : Scratch) (rest : Text) :
    handleTask v (description md5String t ++ rest) = doTask v t.taskid (body md5String t ++ rest) := by
  obtain ⟨hline, htext⟩ := line_task t.taskid
  have hshort := hlines (.task t.taskid) (by simp [taskMessages])
  have hclean : Clean (line (.task t.taskid)) := by
    rw [hline]
    show Clean ("task ".toList ++ showInt t.taskid)
    exact clean_append (clean_of_all rfl) (clean_showInt _)
  have hread : readline workQueueLineMax (description md5String t ++ rest) =
      (some (line (.task t.taskid)), body md5String t ++ rest) := by
    rw [description_eq h hlines, htext, List.append_assoc, List.append_assoc, List.singleton_append]
    exact readline_line hclean hshort
  have hscan : sscanf (line (.task t.taskid)) (lits "task" ++ [.space, .int64]) =
      ⟨[.int t.taskid], false⟩ := by
    have hspace : sscanf (' ' :: (showInt t.taskid ++ [])) [.space, .int64] = _ :=
      sscanf_space (isWord_showInt t.taskid)
    have hint : sscanf (showInt t.taskid ++ []) [.int64] = _ := sscanf_int64 parted_nil
    rw [List.append_nil] at hspace hint
    rw [hline, sscanf_lits, hspace, hint, saturate_eq (by omega) (by omega)]
    rfl
  rw [handleTask, hread]
  simp only [cString_clean hclean, hscan]
  rw [wrap_eq (by omega) (by omega)]

theorem reads_description (h : Described t) (hmd5 : ∀ p, '\x00' ∉ md5String p) (hid : t.taskid < 2 ^ 31)
    (hlines : ∀ m ∈ taskMessages md5String t, (line m).length < workQueueLineMax)
    (hnames : ∀ f ∈ t.inputFiles ++ t.outputFiles, IsWord f.remoteName ∧ IsWord (makeCachedName md5String f))
    (v : Scratch) (rest : Text) :
    ∃ t₁ : Task, t₁.commandLine = (if fits (.cmd t.commandLine) then t.commandLine else []) ∧
      t₁.inputFiles = [] ∧ t₁.outputFiles = [] ∧
      handleTask v (description md5String t ++ rest) = some ((requests md5String t).foldl next t₁, rest) := by
  have hins : ∀ f ∈ t.inputFiles, Sendable md5String (fileMessage md5String f) f := fun f hf ↦
    ⟨h.inputs f hf, (hnames f (List.mem_append_left _ hf)).1, (hnames f (List.mem_append_left _ hf)).2,
      hlines _ (by simp only [taskMessages, List.mem_append, List.mem_map]; exact .inl (.inr ⟨f, hf, rfl⟩))⟩
  have houts : ∀ f ∈ t.outputFiles, Sendable md5String (outMessage md5String f) f := fun f hf ↦
    ⟨h.outputs f hf, (hnames f (List.mem_append_right _ hf)).1, (hnames f (List.mem_append_right _ hf)).2,
      hlines _ (List.mem_append_right _ (List.mem_map.mpr ⟨f, hf, rfl⟩))⟩
  -- After the command a loop of `k + 1` lines remains for the rest of the body.
  have hafter : ∀ (k : ℕ) (st : Reading), st.task.inputFiles = [] → st.task.outputFiles = [] →
      ∃ t₁ : Task, t₁.commandLine = st.task.commandLine ∧ t₁.inputFiles = [] ∧ t₁.outputFiles = [] ∧
        readTask (k + 1 + t.outputFiles.length + t.inputFiles.length + 4) st
          ("cores -1\nmemory -1\ndisk -1\ngpus -1\n".toList ++
            ((t.inputFiles.map (fileMessage md5String)).flatMap text ++
              ((t.outputFiles.map (outMessage md5String)).flatMap text ++ ("end\n".toList ++ rest)))) =
          some ((requests md5String t).foldl next t₁, rest) := by
    intro k st hin hout
    obtain ⟨t₁, v₁, hres, hcmd, hin₁, hout₁⟩ := readTask_resources
      (k + 1 + t.outputFiles.length + t.inputFiles.length) st
    obtain ⟨v₂, h₂⟩ := readTask_files (fileMessage md5String) t.inputFiles
      (fun f hf ↦ readTask_input hmd5 (hins f hf)) (k + 1 + t.outputFiles.length) ⟨t₁, v₁⟩
      ((t.outputFiles.map (outMessage md5String)).flatMap text ++ ("end\n".toList ++ rest))
    obtain ⟨v₃, h₃⟩ := readTask_files (outMessage md5String) t.outputFiles
      (fun f hf ↦ readTask_output hmd5 (houts f hf)) (k + 1)
      ⟨(t.inputFiles.map (forwarded md5String .input)).foldl next t₁, v₂⟩ ("end\n".toList ++ rest)
    refine ⟨t₁, hcmd, hin₁.trans hin, hout₁.trans hout, ?_⟩
    rw [hres, h₂, h₃, readTask_end, requests, List.foldl_append]
  have hmany := body_length h md5String
  rw [handleTask_description h hid hlines, doTask, List.length_append]
  by_cases hc : fits (.cmd t.commandLine) = true
  · rw [if_pos hc] at hmany ⊢
    obtain ⟨k, hk⟩ : ∃ k, (body md5String t).length + rest.length + 1 =
        k + 1 + t.outputFiles.length + t.inputFiles.length + 4 + 1 :=
      ⟨(body md5String t).length + rest.length - (t.outputFiles.length + t.inputFiles.length + 5), by omega⟩
    obtain ⟨t₁, hcmd, hin, hout, hread⟩ := hafter k ⟨{ workQueueTaskCreate [] with
      taskid := (t.taskid : ℤ).toNat, commandLine := t.commandLine }, v⟩ rfl rfl
    refine ⟨t₁, hcmd, hin, hout, ?_⟩
    rw [hk, body, if_pos hc]
    simp only [List.append_assoc]
    rw [readTask_cmd h.command hc (hlines _ (by simp [taskMessages]))]
    exact hread
  · rw [if_neg hc] at hmany ⊢
    obtain ⟨k, hk⟩ : ∃ k, (body md5String t).length + rest.length + 1 =
        k + 1 + t.outputFiles.length + t.inputFiles.length + 4 :=
      ⟨(body md5String t).length + rest.length - (t.outputFiles.length + t.inputFiles.length + 4), by omega⟩
    obtain ⟨t₁, hcmd, hin, hout, hread⟩ := hafter k ⟨{ workQueueTaskCreate [] with
      taskid := (t.taskid : ℤ).toNat }, v⟩ rfl rfl
    refine ⟨t₁, hcmd, hin, hout, ?_⟩
    rw [hk, body, if_neg hc]
    simp only [List.append_assoc, List.nil_append]
    exact hread

end Calls

section Acceptance

variable {t t₁ : Task} {md5String : Text → Text} {c : Request} {cs : List Request} {f g : File}

def entries (t : Task) : ℕ := t.inputFiles.length + t.outputFiles.length

theorem entries_append (t : Task) (c : Request) : entries (c.append t) = entries t + 1 := by
  unfold Request.append entries
  cases c.type with
  | input =>
    simp only [List.length_append, List.length_singleton]
    omega
  | output =>
    simp only [List.length_append, List.length_singleton]
    omega

theorem entries_foldl_le (cs : List Request) (t : Task) :
    entries (cs.foldl next t) ≤ entries t + cs.length := by
  induction cs generalizing t with
  | nil => exact le_rfl
  | cons c cs ih =>
    have hcs := ih (next t c)
    have hc : entries (next t c) ≤ entries t + 1 := by
      by_cases ha : c.Admissible t
      · rw [next_of_admissible ha, entries_append]
      · rw [next_of_not_admissible ha]
        exact Nat.le_succ _
    rw [List.foldl_cons, List.length_cons]
    omega

theorem specifyAll_cons (ha : c.Admissible t) : specifyAll t (c :: cs) = specifyAll (c.append t) cs := by
  simp only [specifyAll, List.foldlM_cons, specify_eq_some_iff.mpr ⟨ha, rfl⟩]
  rfl

/-- No entry is left out exactly when all of them are counted in the end. -/
theorem taken_iff_entries : (specifyAll t cs).isSome ↔ entries (cs.foldl next t) = entries t + cs.length := by
  induction cs generalizing t with
  | nil => simp [specifyAll]
  | cons c cs ih =>
    by_cases ha : c.Admissible t
    · rw [specifyAll_cons ha, ih, List.foldl_cons, next_of_admissible ha, entries_append, List.length_cons]
      omega
    · have hle := entries_foldl_le cs t
      rw [List.foldl_cons, next_of_not_admissible ha, List.length_cons]
      refine iff_of_false (fun h ↦ ha ?_) (by omega)
      exact (specifyAll_isSome_iff.mp h).1 c (List.mem_cons_self ..)

theorem foldl_next_of_taken (h : (specifyAll t cs).isSome) :
    cs.foldl next t = cs.foldl (fun t c ↦ c.append t) t := by
  induction cs generalizing t with
  | nil => rfl
  | cons c cs ih =>
    have ha := (specifyAll_isSome_iff.mp h).1 c (List.mem_cons_self ..)
    rw [specifyAll_cons ha] at h
    rw [List.foldl_cons, List.foldl_cons, next_of_admissible ha, ih h]

theorem append_inputs (fs : List File) (t : Task) :
    (fs.map (forwarded md5String .input)).foldl (fun t c ↦ c.append t) t =
      { t with inputFiles := t.inputFiles ++ fs.map (fun f ↦ (forwarded md5String .input f).file) } := by
  induction fs generalizing t with
  | nil => simp
  | cons f fs ih =>
    rw [List.map_cons, List.foldl_cons, ih]
    simp [Request.append, forwarded]

theorem append_outputs (fs : List File) (t : Task) :
    (fs.map (forwarded md5String .output)).foldl (fun t c ↦ c.append t) t =
      { t with outputFiles := t.outputFiles ++ fs.map (fun f ↦ (forwarded md5String .output f).file) } := by
  induction fs generalizing t with
  | nil => simp
  | cons f fs ih =>
    rw [List.map_cons, List.foldl_cons, ih]
    simp [Request.append, forwarded]

theorem commandLine_foldl (cs : List Request) (t : Task) : (cs.foldl next t).commandLine = t.commandLine := by
  induction cs generalizing t with
  | nil => rfl
  | cons c cs ih =>
    rw [List.foldl_cons, ih]
    by_cases ha : c.Admissible t
    · rw [next_of_admissible ha, Request.append]
      split <;> rfl
    · rw [next_of_not_admissible ha]

theorem received_of_taken (hd : Described t) (hmd5 : ∀ p, '\x00' ∉ md5String p) (hin : t₁.inputFiles = [])
    (hout : t₁.outputFiles = []) (h : (specifyAll t₁ (requests md5String t)).isSome) :
    ((requests md5String t).foldl next t₁).inputFiles = t.inputFiles.map (cached md5String) ∧
      ((requests md5String t).foldl next t₁).outputFiles = t.outputFiles.map (cached md5String) := by
  rw [foldl_next_of_taken h, requests, List.foldl_append, append_inputs, append_outputs, hin, hout]
  simp only [List.nil_append]
  exact ⟨List.map_congr_left (fun f hf ↦ file_forwarded hmd5 (hd.inputs f hf)),
    List.map_congr_left (fun f hf ↦ file_forwarded hmd5 (hd.outputs f hf))⟩

/-- The rules among the files that the worker checks once more. -/
theorem taken_requests_iff (hd : Described t) (hmd5 : ∀ p, '\x00' ∉ md5String p) (hin : t₁.inputFiles = [])
    (hout : t₁.outputFiles = []) : (specifyAll t₁ (requests md5String t)).isSome ↔
      (∀ f ∈ t.inputFiles, ∀ g ∈ t.outputFiles, f.remoteName ≠ g.remoteName) ∧
        ∀ f ∈ t.outputFiles, ∀ g ∈ t.outputFiles,
          makeCachedName md5String f = makeCachedName md5String g → f.remoteName = g.remoteName := by
  have hadmissible : ∀ c ∈ requests md5String t, c.Admissible t₁ := by
    intro c hc
    have hrelative : c.file.remoteName.head? ≠ some '/' := by
      rcases List.mem_append.mp hc with hc | hc <;> obtain ⟨f, hf, rfl⟩ := List.mem_map.mp hc
      · rw [file_forwarded hmd5 (hd.inputs f hf)]
        exact (hd.inputs f hf).remoteName.2
      · rw [file_forwarded hmd5 (hd.outputs f hf)]
        exact (hd.outputs f hf).remoteName.2
    refine ⟨hrelative, ?_⟩
    rw [hin, hout]
    cases c.type with
    | input => exact fun _ h ↦ absurd h List.not_mem_nil
    | output => exact ⟨fun _ h ↦ absurd h List.not_mem_nil, fun _ h ↦ absurd h List.not_mem_nil⟩
  have hinputs : (t.inputFiles.map (forwarded md5String .input)).Pairwise Compatible := by
    refine List.pairwise_map.mpr (List.pairwise_of_forall_mem_list (fun f hf g hg hn ↦ ?_))
    rw [file_forwarded hmd5 (hd.inputs f hf), file_forwarded hmd5 (hd.inputs g hg)] at hn ⊢
    show "cache/".toList ++ makeCachedName md5String f = "cache/".toList ++ makeCachedName md5String g
    rw [makeCachedName, makeCachedName, hd.shared f hf g hg hn]
  have hcross : ∀ f ∈ t.inputFiles, ∀ g ∈ t.outputFiles,
      (Compatible (forwarded md5String .input f) (forwarded md5String .output g) ↔
        f.remoteName ≠ g.remoteName) := by
    intro f hf g hg
    show (forwarded md5String .input f).file.remoteName ≠ (forwarded md5String .output g).file.remoteName ↔ _
    rw [file_forwarded hmd5 (hd.inputs f hf), file_forwarded hmd5 (hd.outputs g hg)]
    exact .rfl
  have hsame : ∀ f ∈ t.outputFiles, ∀ g ∈ t.outputFiles,
      (Compatible (forwarded md5String .output f) (forwarded md5String .output g) ↔
        (makeCachedName md5String f = makeCachedName md5String g → f.remoteName = g.remoteName)) := by
    intro f hf g hg
    show ((forwarded md5String .output f).file.payload = (forwarded md5String .output g).file.payload →
      (forwarded md5String .output f).file.remoteName = (forwarded md5String .output g).file.remoteName) ↔ _
    rw [file_forwarded hmd5 (hd.outputs f hf), file_forwarded hmd5 (hd.outputs g hg)]
    exact imp_congr_left ⟨List.append_cancel_left, congrArg ("cache/".toList ++ ·)⟩
  rw [specifyAll_isSome_iff, and_iff_right hadmissible, requests, List.pairwise_append,
    and_iff_right hinputs, and_comm]
  refine and_congr ?_ ?_
  · simp only [List.forall_mem_map]
    exact forall_congr' (fun f ↦ forall_congr' (fun hf ↦ forall_congr' (fun g ↦
      forall_congr' (fun hg ↦ hcross f hf g hg))))
  · rw [List.pairwise_map]
    constructor
    · intro h f hf g hg
      let R : File → File → Prop := fun f g ↦
        Compatible (forwarded md5String .output f) (forwarded md5String .output g)
      have hR : t.outputFiles.Pairwise R := h
      have hsymm : Std.Symm R := ⟨fun _ _ h ↦ h.symm rfl⟩
      have hrefl : ∀ f ∈ t.outputFiles, R f f := fun f _ ↦ compatible_self _
      exact (hsame f hf g hg).mp (hR.forall_of_forall hrefl hf hg)
    · intro h
      exact List.pairwise_of_forall_mem_list (fun f hf g hg ↦ (hsame f hf g hg).mpr (h f hf g hg))

end Acceptance

/-- The worker builds the task that was described, whatever its variables hold,
if and only if the task can be described: the command is not too long, the names
are words, and no two entries are in conflict in the order in which they are
sent. -/
theorem description_survives_iff (md5String : Text → Text) (command : Text) (cs : List Request) (id : ℕ)
    (rest : Text) (t : Task) (ht : t = { cs.foldl next (blank command) with taskid := id })
    (hmd5 : ∀ p, '\x00' ∉ md5String p) (hid : id < 2 ^ 31)
    (hlines : ∀ m ∈ taskMessages md5String t, (line m).length < workQueueLineMax) :
    (∀ v, ∃ received, handleTask v (description md5String t ++ rest) = some (received, rest) ∧
      Received md5String t received) ↔ Transmissible md5String t := by
  have hd : Described t := by
    have h := described_calls command cs
    rw [ht]
    exact ⟨h.command, h.resources, h.inputs, h.outputs, h.shared⟩
  have hid' : t.taskid < 2 ^ 31 := by rw [ht]; exact hid
  constructor
  · intro h
    -- With words in its variables, the worker has nothing but words in its entries.
    obtain ⟨received, hread, hsame⟩ := h ⟨['x'], ['x'], 0, 0⟩
    have hx : IsWord ['x'] := ⟨List.cons_ne_nil _ _, fun c hc ↦ by rw [List.mem_singleton.mp hc]; rfl⟩
    have hwords : ∀ f ∈ received.inputFiles ++ received.outputFiles, f.type = .file →
        IsWord f.remoteName ∧ ∃ w, IsWord w ∧ f.payload = "cache/".toList ++ w := by
      have hdo := handleTask_description hd hid' hlines ⟨['x'], ['x'], 0, 0⟩ rest
      rw [hread, doTask] at hdo
      exact wordy_readTask ⟨hx, hx, fun _ hf ↦ absurd hf List.not_mem_nil⟩ hdo.symm
    have hnames : ∀ f ∈ t.inputFiles ++ t.outputFiles,
        IsWord f.remoteName ∧ IsWord (makeCachedName md5String f) := by
      intro f hf
      rw [hsame.inputs, hsame.outputs, ← List.map_append] at hwords
      obtain ⟨hremote, w, hw, hp⟩ := hwords _ (List.mem_map_of_mem hf) rfl
      have hcached : makeCachedName md5String f = w := List.append_cancel_left hp
      exact ⟨hremote, hcached ▸ hw⟩
    obtain ⟨t₁, hcmd, hin, hout, hexact⟩ := reads_description hd hmd5 hid' hlines hnames ⟨['x'], ['x'], 0, 0⟩ rest
    rw [hread] at hexact
    cases hexact
    have htaken : (specifyAll t₁ (requests md5String t)).isSome := by
      have hlength : (requests md5String t).length = t.inputFiles.length + t.outputFiles.length := by
        simp [requests]
      rw [taken_iff_entries, hlength, entries, hsame.inputs, hsame.outputs, entries, hin, hout]
      simp
    obtain ⟨hapart, houts⟩ := (taken_requests_iff hd hmd5 hin hout).mp htaken
    refine ⟨?_, hnames, hapart, houts⟩
    by_contra hc
    have hempty := hsame.command
    rw [commandLine_foldl, hcmd, if_neg hc] at hempty
    rw [← hempty] at hc
    exact hc (by decide)
  · intro h v
    obtain ⟨t₁, hcmd, hin, hout, hexact⟩ := reads_description hd hmd5 hid' hlines h.names v rest
    have htaken := (taken_requests_iff hd hmd5 hin hout).mpr ⟨h.apart, h.outputs⟩
    obtain ⟨hins, houts⟩ := received_of_taken hd hmd5 hin hout htaken
    refine ⟨_, hexact, ⟨?_, hins, houts⟩⟩
    rw [commandLine_foldl, hcmd, if_pos h.command]

def described : Task :=
  { [⟨"d/a".toList, "x".toList, true, .input⟩, ⟨"b".toList, "y".toList, false, .output⟩].foldl next
      (blank "cat x\n>y".toList) with taskid := 1 }

def zeroed : Scratch := ⟨[], [], 0, 0⟩

theorem description_survives_described :
    Transmissible digests described ∧
      ∃ received, handleTask zeroed (description digests described ++ []) = some (received, []) ∧
        Received digests described received := by
  have hin : described.inputFiles = [⟨.file, 1, 0, 0, "d/a".toList, "x".toList⟩] := rfl
  have hout : described.outputFiles = [⟨.file, 0, 0, 0, "b".toList, "y".toList⟩] := rfl
  have hword : ∀ w : Text, legible w = true → IsWord w := fun w h ↦ (legible_of_eq_true h).1
  have h : Transmissible digests described := by
    refine ⟨by decide +kernel, fun f hf ↦ ?_, ?_, ?_⟩
    · rw [hin, hout] at hf
      rcases List.mem_cons.mp hf with rfl | hf
      · exact ⟨hword _ (by decide), hword _ (by decide +kernel)⟩
      · rw [List.mem_singleton.mp hf]
        exact ⟨hword _ (by decide), hword _ (by decide +kernel)⟩
    · rw [hin, hout]
      intro f hf g hg
      rw [List.mem_singleton.mp hf, List.mem_singleton.mp hg]
      decide
    · rw [hout]
      intro f hf g hg _
      rw [List.mem_singleton.mp hf, List.mem_singleton.mp hg]
  have hz : ∀ p, '\x00' ∉ digests p := by
    intro p
    unfold digests
    split <;> decide +kernel
  exact ⟨h, (description_survives_iff digests "cat x\n>y".toList _ 1 [] described rfl hz (by decide)
    (by decide +kernel)).mpr h zeroed⟩

/-- The remote name of an input has a space in it. -/
def spaced : Task :=
  { [⟨"a".toList, "my file".toList, true, .input⟩].foldl next (blank "true".toList) with taskid := 1 }

/-- The worker has an entry with another name, and does not notice. -/
theorem description_loses_name :
    ∃ received, handleTask zeroed (description digests spaced) = some (received, []) ∧
      spaced.inputFiles.map File.remoteName = ["my file".toList] ∧
      received.inputFiles.map File.remoteName = ["my".toList] ∧ ¬ Received digests spaced received := by
  have hread : (handleTask zeroed (description digests spaced)).map
      (fun p ↦ (p.1.inputFiles.map File.remoteName, p.2)) = some (["my".toList], []) := by decide +kernel
  obtain ⟨⟨received, rest⟩, hreceived, hnames⟩ := Option.map_eq_some_iff.mp hread
  obtain ⟨hmy, rfl⟩ := Prod.mk.inj hnames
  refine ⟨received, hreceived, rfl, hmy, fun h ↦ ?_⟩
  rw [h.inputs] at hmy
  exact absurd hmy (by decide)

end Cyque.Description
