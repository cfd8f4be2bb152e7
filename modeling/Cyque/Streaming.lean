import Cyque.Worker
import Cyque.Results
import Mathlib.Data.List.TakeWhile

namespace Cyque.Streaming

open Library.Execution Library.Lookup Library.Scanning Queue Link Files Workers Messages Transfer Worker
open Footprint Exchange Conduct Api Wait Run Turns Results
open Agreement (alone)

variable {env : Environment} {k : Key} {r : Ref} {c n : ℕ} {line text rest : Text} {s s' : State}

def Clean (line : Text) : Prop := ∀ x ∈ line, x ≠ '\n' ∧ x ≠ '\r' ∧ x ≠ '\x00'

theorem readline_line (hl : Clean line) (hn : line.length < n) :
    readline n (line ++ '\n' :: rest) = (some line, rest) := by
  induction line generalizing n with
  | nil =>
    obtain ⟨m, rfl⟩ := Nat.exists_eq_succ_of_ne_zero (by omega : n ≠ 0)
    rfl
  | cons x line ih =>
    obtain ⟨m, rfl⟩ := Nat.exists_eq_succ_of_ne_zero (by omega : n ≠ 0)
    have hx := hl x (List.mem_cons_self ..)
    have hih := ih (n := m) (fun y hy ↦ hl y (List.mem_cons_of_mem x hy))
      (by rw [List.length_cons] at hn; omega)
    rw [List.cons_append, readline, if_neg hx.1, if_neg hx.2.1, hih]
    rfl

theorem readline_unended (hl : Clean line) : (readline n line).1 = none := by
  induction line generalizing n with
  | nil => cases n <;> rfl
  | cons x line ih =>
    have hx := hl x (List.mem_cons_self ..)
    cases n with
    | zero => rfl
    | succ n =>
      rw [readline, if_neg hx.1, if_neg hx.2.1]
      simp only [ih (fun y hy ↦ hl y (List.mem_cons_of_mem x hy)), Option.map_none]

theorem readline_long (hl : Clean line) (hn : n ≤ line.length) :
    (readline n (line ++ text)).1 = none := by
  induction line generalizing n with
  | nil =>
    rw [Nat.le_zero.mp hn, readline]
  | cons x line ih =>
    have hx := hl x (List.mem_cons_self ..)
    cases n with
    | zero => rfl
    | succ n =>
      have hih := ih (n := n) (fun y hy ↦ hl y (List.mem_cons_of_mem x hy)) (Nat.le_of_succ_le_succ hn)
      rw [List.cons_append, readline, if_neg hx.1, if_neg hx.2.1]
      simp only [hih, Option.map_none]

def Arrives (env : Environment) (c : ℕ) (line : Text) : Prop :=
  line.length < (env.answers c).arrived ∧ line.length < workQueueLineMax

instance : Decidable (Arrives env c line) := inferInstanceAs (Decidable (_ ∧ _))

theorem readline_arrives (rest : Text) (hl : Clean line) (ha : Arrives env c line) :
    readline workQueueLineMax ((line ++ '\n' :: rest).take (env.answers c).arrived) =
      (some line, rest.take ((env.answers c).arrived - (line.length + 1))) := by
  have htake : (line ++ '\n' :: rest).take (env.answers c).arrived =
      line ++ '\n' :: rest.take ((env.answers c).arrived - (line.length + 1)) := by
    rw [List.take_append, List.take_of_length_le ha.1.le]
    obtain ⟨m, hm⟩ := Nat.exists_eq_succ_of_ne_zero
      (by have := ha.1; omega : (env.answers c).arrived - line.length ≠ 0)
    rw [hm, List.take_succ_cons, show (env.answers c).arrived - (line.length + 1) = m by omega]
  rw [htake, readline_line hl ha.2]

theorem readline_not_arrives (hl : Clean line) (ha : ¬ Arrives env c line) :
    (readline workQueueLineMax ((line ++ '\n' :: rest).take (env.answers c).arrived)).1 = none := by
  by_cases hlen : line.length < (env.answers c).arrived
  · have hlong : workQueueLineMax ≤ line.length := by
      by_contra hlt
      exact ha ⟨hlen, Nat.lt_of_not_le hlt⟩
    rw [List.take_append, List.take_of_length_le hlen.le]
    exact readline_long hl hlong
  · rw [List.take_append_of_le_length (Nat.le_of_not_lt hlen)]
    exact readline_unended (fun x hx ↦ hl x (List.mem_of_mem_take hx))

/-- The next call is the one with number `c`, and `text` is what the worker has
sent and the master has not read. -/
structure Stands (env : Environment) (k : Key) (c : ℕ) (text : Text) (s : State) : Prop where
  env : s.env = env
  calls : s.calls = c
  incoming : ∃ w, s.workerTable.lookup k = some w ∧ w.incoming = text

theorem Stands.connected (h : Stands env k c text s) : Connected s k :=
  h.incoming.imp (fun _ hw ↦ hw.1)

theorem Stands.setWorker (h : Stands env k c text s) {f : Worker → Worker}
    (hf : ∀ w, (f w).incoming = w.incoming) : Stands env k c text (s.setWorker k f) := by
  obtain ⟨w, hw, ht⟩ := h.incoming
  refine ⟨h.env, h.calls, f w, ?_, by rw [hf, ht]⟩
  simp only [State.setWorker, Table.lookup_alter, if_pos, hw, Option.map_some]

theorem Stands.read (text : Text) (h : Stands env k c text s) {f : Worker → Worker} {left : Text}
    (hf : ∀ w, w.incoming = text → (f w).incoming = left) :
    Stands env k c left (s.setWorker k f) := by
  obtain ⟨w, hw, ht⟩ := h.incoming
  refine ⟨h.env, h.calls, f w, ?_, hf w ht⟩
  simp only [State.setWorker, Table.lookup_alter, if_pos, hw, Option.map_some]

theorem Stands.same (h : Stands env k c text s) (he : s'.env = s.env) (hc : s'.calls = s.calls)
    (hw : s'.workerTable.entries = s.workerTable.entries) : Stands env k c text s' := by
  obtain ⟨w, hlook, ht⟩ := h.incoming
  refine ⟨he.trans h.env, hc.trans h.calls, w, ?_, ht⟩
  rw [← hlook, Table.lookup, Table.lookup, hw]

theorem takes_ask : Triple (Stands env k c text) ask
    (fun a s ↦ a = env.answers c ∧ Stands env k (c + 1) text s) := by
  intro n s hs
  exact ⟨by rw [← hs.env, ← hs.calls], ⟨hs.env, congrArg (· + 1) hs.calls, hs.incoming⟩⟩

theorem takes_timestampGet : Triple (Stands env k c text) timestampGet
    (fun _ s ↦ Stands env k (c + 1) text s) :=
  fun _ _ hs ↦ ⟨hs.env, congrArg (· + 1) hs.calls, hs.incoming⟩

theorem linkReadline_apply {w : Queue.Worker} (hw : s.workerTable.lookup k = some w) (m : ℕ) :
    linkReadline k m n s =
      .done ((readline m (w.incoming.take (s.env.answers s.calls).arrived)).1.map cString)
        (({ s with calls := s.calls + 1 } : State).setWorker k (fun w' ↦
          { w' with incoming := (readline m (w.incoming.take (s.env.answers s.calls).arrived)).2 ++
            w'.incoming.drop (s.env.answers s.calls).arrived })) := by
  simp only [linkReadline, bind_apply, worker_apply hw]
  rfl

theorem drop_line (ha : line.length < c) :
    (line ++ '\n' :: rest).drop c = rest.drop (c - (line.length + 1)) := by
  rw [List.drop_append, List.drop_of_length_le ha.le, List.nil_append]
  obtain ⟨m, hm⟩ := Nat.exists_eq_succ_of_ne_zero (by omega : c - line.length ≠ 0)
  rw [hm, List.drop_succ_cons, show c - (line.length + 1) = m by omega]

theorem takes_linkReadline (hl : Clean line) :
    Triple (Stands env k c (line ++ '\n' :: rest)) (linkReadline k workQueueLineMax) (fun a s ↦
      (Arrives env c line ∧ a = some line ∧ Stands env k (c + 1) rest s) ∨
        (¬ Arrives env c line ∧ a = none)) := by
  refine Spec.of_done ?_
  rintro n s ⟨rfl, rfl, w, hw, ht⟩
  refine ⟨_, _, linkReadline_apply hw workQueueLineMax, ?_⟩
  have hz : cString line = line :=
    List.takeWhile_eq_self_iff.mpr (fun x hx ↦ by simp [(hl x hx).2.2])
  by_cases ha : Arrives s.env s.calls line
  · left
    have hread := readline_arrives rest hl ha
    rw [← ht] at hread
    refine ⟨ha, by rw [hread, Option.map_some, hz], ?_⟩
    refine Stands.read (s := { s with calls := s.calls + 1 }) (line ++ '\n' :: rest)
      ⟨rfl, rfl, w, hw, ht⟩ (fun w' hw' ↦ ?_)
    rw [hread, hw', drop_line ha.1]
    exact List.take_append_drop _ _
  · right
    exact ⟨ha, by rw [ht, readline_not_arrives hl ha, Option.map_none]⟩

theorem takes_recvWorkerMsg (hl : Clean line) {P : ℤ × Text → Prop}
    (hp : Triple (Stands env k (c + 2) rest) (processLine k line) (fun m s ↦ P m ∧ Stands env k (c + 2) rest s)) :
    Triple (Stands env k c (line ++ '\n' :: rest)) (recvWorkerMsg k) (fun m s ↦
      (Arrives env c line ∧ P m ∧ Stands env k (c + 2) rest s) ∨ (¬ Arrives env c line ∧ m.1 < 0)) := by
  refine .bind (takes_linkReadline hl) (fun a ↦ ?_)
  cases a with
  | none =>
    refine .pure (fun s hs ↦ ?_)
    rcases hs with ⟨-, ha, -⟩ | ⟨ha, -⟩
    · cases ha
    · exact .inr ⟨ha, by decide⟩
  | some l =>
    refine Triple.of_forall (fun s hs ↦ ?_)
    rcases hs with ⟨ha, hl, hs⟩ | ⟨-, ha⟩
    · cases hl
      refine Triple.pre (P := Stands env k (c + 1) rest) ?_ (by rintro _ rfl; exact hs)
      refine Triple.bind takes_timestampGet (fun now ↦ ?_)
      refine Triple.bind (A := fun _ s ↦ Stands env k (c + 2) rest s)
        (Triple.modify (fun s hs ↦ hs.setWorker (fun _ ↦ rfl))) (fun _ ↦ ?_)
      refine Triple.bind (A := fun _ s ↦ Stands env k (c + 2) rest s)
        (Triple.modify (fun s hs ↦ hs.same rfl rfl rfl)) (fun _ ↦ ?_)
      exact hp.post (fun m s hm ↦ .inl ⟨ha, hm⟩)
    · cases ha

/-- The lines of a worker that do not wait for an answer. -/
inductive Notice : Text → Prop
  | alive (t : Text) : Notice ("alive".toList ++ t)
  | availableResults (t : Text) : Notice ("available_results".toList ++ t)
  | resource (t : Text) : Notice ("resource".toList ++ t)

theorem takes_processResource : Triple (Stands env k c text) (processResource k line)
    (fun a s ↦ a = 0 ∧ Stands env k c text s) := by
  have hset : ∀ f : Queue.Worker → Queue.Worker, (∀ w, (f w).incoming = w.incoming) →
      Triple (Stands env k c text) (setWorker k f) (fun _ s ↦ Stands env k c text s) :=
    fun f hf ↦ Triple.modify (fun s hs ↦ hs.setWorker hf)
  unfold processResource
  split
  · split
    · refine .bind (hset _ (fun _ ↦ rfl)) (fun _ ↦ .bind (A := fun _ s ↦ Stands env k c text s)
        (fun n s hs ↦ hs.same rfl rfl rfl) (fun _ ↦ .pure (fun s hs ↦ ⟨rfl, hs⟩)))
    · exact .pure (fun s hs ↦ ⟨rfl, hs⟩)
  · exact .bind (hset _ (fun _ ↦ rfl)) (fun _ ↦ .pure (fun s hs ↦ ⟨rfl, hs⟩))
  · exact .pure (fun s hs ↦ ⟨rfl, hs⟩)

theorem takes_notice (hn : Notice line) : Triple (Stands env k c text) (processLine k line)
    (fun m s ↦ m.1 = 0 ∧ Stands env k c text s) := by
  cases hn with
  | alive t => exact Triple.pure (a := (0, _)) (fun s hs ↦ ⟨rfl, hs⟩)
  | availableResults t =>
    exact Triple.bind (f := modify (noteAvailableResults k)) (A := fun _ s ↦ Stands env k c text s)
      (Triple.modify (fun s hs ↦ hs.same rfl rfl rfl)) (fun _ ↦ Triple.pure (fun s hs ↦ ⟨rfl, hs⟩))
  | resource t => exact Triple.bind takes_processResource (fun a ↦ .pure (fun s hs ↦ hs))

def Unprocessed (line : Text) : Prop :=
  ∀ p ∈ ["alive", "workqueue", "queue_status", "worker_status", "task_status", "available_results",
    "resource", "auth", "ready", "name"], stringPrefixIs line p = false

theorem processLine_unprocessed (hu : Unprocessed line) : processLine k line = pure (1, line) := by
  simp only [Unprocessed, List.forall_mem_cons] at hu
  obtain ⟨h₁, h₂, h₃, h₄, h₅, h₆, h₇, h₈, h₉, h₁₀, -⟩ := hu
  simp [processLine, h₁, h₂, h₃, h₄, h₅, h₆, h₇, h₈, h₉, h₁₀]

def ArriveAll (env : Environment) : ℕ → List Text → Prop
  | _, [] => True
  | c, line :: lines => Arrives env c line ∧ ArriveAll env (c + 2) lines

def unlines (ls : List Text) : Text := ls.flatMap (fun l ↦ l ++ ['\n'])

theorem arriveAll_append {ls : List Text} :
    ArriveAll env c (ls ++ [line]) ↔ ArriveAll env c ls ∧ Arrives env (c + 2 * ls.length) line := by
  induction ls generalizing c with
  | nil => simp [ArriveAll]
  | cons l ls ih =>
    rw [List.cons_append, ArriveAll, ArriveAll, ih, and_assoc, List.length_cons]
    rw [show c + 2 + 2 * ls.length = c + 2 * (ls.length + 1) by omega]

theorem takes_recvWorkerMsgRetry {notices : List Text} (hn : ∀ l ∈ notices, Notice l ∧ Clean l)
    (hl : Clean line) (hu : Unprocessed line) :
    Triple (Stands env k c (unlines notices ++ (line ++ '\n' :: rest))) (recvWorkerMsgRetry k) (fun m s ↦
      (ArriveAll env c (notices ++ [line]) ∧ m = (1, line) ∧
        Stands env k (c + 2 * notices.length + 2) rest s) ∨
      (¬ ArriveAll env c (notices ++ [line]) ∧ m.1 < 0)) := by
  refine .loop (fun _ s ↦ ∃ ls d, Stands env k d (unlines ls ++ (line ++ '\n' :: rest)) s ∧
    (∀ l ∈ ls, Notice l ∧ Clean l) ∧ d + 2 * ls.length = c + 2 * notices.length ∧
    (ArriveAll env c (notices ++ [line]) ↔ ArriveAll env d (ls ++ [line]))) ()
    (fun s hs ↦ ⟨notices, c, hs, hn, rfl, .rfl⟩) (fun _ ↦ .of_forall ?_)
  rintro s ⟨ls, d, hs, hls, hd, hiff⟩
  refine Triple.pre (P := Stands env k d (unlines ls ++ (line ++ '\n' :: rest))) ?_
    (by rintro _ rfl; exact hs)
  cases ls with
  | nil =>
    rw [hiff, List.nil_append, ArriveAll, ArriveAll, and_true, ← hd]
    refine .bind (takes_recvWorkerMsg (P := fun m ↦ m = (1, line)) hl ?_) (fun m ↦ .of_forall ?_)
    · rw [processLine_unprocessed hu]
      exact .pure (fun s hs ↦ ⟨rfl, hs⟩)
    · rintro s (⟨ha, rfl, hs⟩ | ⟨ha, hm⟩)
      · exact .pure (by rintro _ rfl; exact .inl ⟨ha, rfl, hs⟩)
      · rw [if_neg (by omega)]
        exact .pure (by rintro _ rfl; exact .inr ⟨ha, hm⟩)
  | cons l ls =>
    have hl' := hls l (List.mem_cons_self ..)
    have htext : unlines (l :: ls) ++ (line ++ '\n' :: rest) =
        l ++ '\n' :: (unlines ls ++ (line ++ '\n' :: rest)) := by
      simp [unlines]
    rw [htext]
    refine .bind (takes_recvWorkerMsg (P := fun m ↦ m.1 = 0) hl'.2 (takes_notice hl'.1))
      (fun m ↦ .of_forall ?_)
    rintro s (⟨ha, hm, hs⟩ | ⟨ha, hm⟩)
    · rw [if_pos hm]
      refine .pure ?_
      rintro _ rfl
      refine ⟨ls, d + 2, hs, fun x hx ↦ hls x (List.mem_cons_of_mem l hx), ?_, ?_⟩
      · rw [List.length_cons] at hd
        omega
      · rw [hiff, List.cons_append, ArriveAll, and_iff_right ha]
    · rw [if_neg (by omega)]
      refine .pure ?_
      rintro _ rfl
      exact .inr ⟨fun h ↦ ha (hiff.mp h).1, hm⟩

theorem clean_of_isWord {w : Text} (h : IsWord w) (hz : '\x00' ∉ w) : Clean w := by
  intro x hx
  refine ⟨?_, ?_, fun h0 ↦ hz (h0 ▸ hx)⟩ <;> rintro rfl <;> exact absurd (h.2 _ hx) (by decide)

theorem clean_of_all (h : line.all (fun x ↦ x ≠ '\n' ∧ x ≠ '\r' ∧ x ≠ '\x00') = true) : Clean line :=
  fun x hx ↦ of_decide_eq_true (List.all_eq_true.mp h x hx)

/-- A path that the worker can write into a line, and the master read from it. -/
def Legible (path : Text) : Prop := IsWord path ∧ '\x00' ∉ path

def legible (path : Text) : Bool := path ≠ [] ∧ path.all (fun c ↦ !isSpace c && c ≠ '\x00')

theorem legible_of_eq_true {path : Text} (h : legible path = true) : Legible path := by
  obtain ⟨hne, hall⟩ := of_decide_eq_true h
  have hc : ∀ c ∈ path, isSpace c = false ∧ c ≠ '\x00' := by
    simpa using hall
  exact ⟨⟨hne, fun c hm ↦ (hc c hm).1⟩, fun hm ↦ (hc _ hm).2 rfl⟩

theorem clean_append {t u : Text} (h : Clean t) (h' : Clean u) : Clean (t ++ u) := by
  intro x hx
  exact (List.mem_append.mp hx).elim (h x) (h' x)

theorem clean_showInt (i : ℤ) : Clean (showInt i) := by
  refine clean_of_isWord (isWord_showInt i) (fun hz ↦ ?_)
  have hd : ∀ n, '\x00' ∉ Nat.toDigits 10 n := fun n hn ↦
    absurd (Nat.isDigit_of_mem_toDigits (by decide) (by decide) hn) (by decide)
  cases i with
  | ofNat n => exact hd n hz
  | negSucc n =>
    rcases List.mem_cons.mp hz with h | h
    · cases h
    · exact hd (n + 1) h

section Lines

variable {path content : Text} {errnum : ℕ}

theorem parted_space (t : Text) : Parted (' ' :: t) := parted_cons rfl

theorem parseReply_dir (hp : IsWord path) : parseReply (Piece.dir path).line = .dir path := by
  have hscan : sscanf (Piece.dir path).line (lits "dir" ++ [.space, .word]) = ⟨[.word path], false⟩ := by
    have hline : (Piece.dir path).line = "dir".toList ++ ' ' :: (path ++ [' ', '0']) := by
      show "dir ".toList ++ path ++ " 0".toList = _
      rw [List.append_assoc]
      rfl
    rw [hline, sscanf_lits, sscanf_space hp, sscanf_word hp (parted_space _)]
    rfl
  rw [parseReply, hscan]

theorem parseReply_file (hp : IsWord path) (h : content.length < 2 ^ 63) :
    parseReply (Piece.file path content h).line = .file path content.length := by
  have hline : (Piece.file path content h).line =
      "file".toList ++ ' ' :: (path ++ ' ' :: (showInt content.length ++ [])) := by
    show "file ".toList ++ path ++ ' ' :: showInt content.length = _
    rw [List.append_assoc, List.append_nil]
    rfl
  have hdir : sscanf (Piece.file path content h).line (lits "dir" ++ [.space, .word]) = ⟨[], false⟩ := rfl
  have hscan : sscanf (Piece.file path content h).line (lits "file" ++ [.space, .word, .space, .int64]) =
      ⟨[.word path, .int content.length], false⟩ := by
    rw [hline, sscanf_lits, sscanf_space hp, sscanf_word hp (parted_space _),
      sscanf_space (isWord_showInt _), sscanf_int64 parted_nil, saturate_eq (by omega) (by omega)]
    rfl
  rw [parseReply, hdir, hscan]

theorem parseReply_missing (hp : IsWord path) :
    parseReply (Piece.missing path errnum).line = .missing path := by
  have hline : (Piece.missing path errnum).line =
      "missing".toList ++ ' ' :: (path ++ ' ' :: (showInt errnum ++ [])) := by
    show "missing ".toList ++ path ++ ' ' :: showInt errnum = _
    rw [List.append_assoc, List.append_nil]
    rfl
  have hdir : sscanf (Piece.missing path errnum).line (lits "dir" ++ [.space, .word]) = ⟨[], false⟩ := rfl
  have hfile : sscanf (Piece.missing path errnum).line
    (lits "file" ++ [.space, .word, .space, .int64]) = ⟨[], false⟩ := rfl
  have hscan : sscanf (Piece.missing path errnum).line
      (lits "missing" ++ [.space, .word, .space, .int32]) =
      ⟨[.word path, .int (wrap (saturate errnum))], false⟩ := by
    rw [hline, sscanf_lits, sscanf_space hp, sscanf_word hp (parted_space _),
      sscanf_space (isWord_showInt _), sscanf_int32 parted_nil]
    rfl
  rw [parseReply, hdir, hfile, hscan]

end Lines

theorem clean_line {p : Piece} (hp : Legible p.path) : Clean p.line := by
  have hpath := clean_of_isWord hp.1 hp.2
  have hspace : ∀ {t}, Clean t → Clean (' ' :: t) := by
    intro t ht x hx
    rcases List.mem_cons.mp hx with rfl | hx
    · decide
    · exact ht x hx
  have hlit : Clean "dir ".toList ∧ Clean "file ".toList ∧ Clean "missing ".toList ∧ Clean " 0".toList :=
    ⟨clean_of_all rfl, clean_of_all rfl, clean_of_all rfl, clean_of_all rfl⟩
  cases p with
  | dir path => exact clean_append (clean_append hlit.1 hpath) hlit.2.2.2
  | file path content h => exact clean_append (clean_append hlit.2.1 hpath) (hspace (clean_showInt _))
  | missing path errnum => exact clean_append (clean_append hlit.2.2.1 hpath) (hspace (clean_showInt _))

theorem unprocessed_line (p : Piece) : Unprocessed p.line := by
  cases p <;> simp only [Unprocessed, List.forall_mem_cons, List.not_mem_nil, false_imp_iff,
    implies_true, and_true] <;> exact ⟨rfl, rfl, rfl, rfl, rfl, rfl, rfl, rfl, rfl, rfl⟩

section Store

variable {content localName path : Text}

/-- The bytes come in time, and the local file takes them. -/
def Complete (env : Environment) (c : ℕ) (content : Text) : Prop :=
  content.length ≤ (env.answers c).arrived ∧ (content ≠ [] → 0 ≤ (env.answers c).moved)

theorem takes_linkStreamToFd :
    Triple (Stands env k c (content ++ rest)) (linkStreamToFd k content.length) (fun a s ↦
      (Complete env c content ∧ a = content.length ∧ Stands env k (c + 1) rest s) ∨
        (¬ Complete env c content ∧ a ≠ content.length)) := by
  refine Spec.of_done ?_
  rintro n s ⟨rfl, rfl, w, hw, ht⟩
  have hrun : linkStreamToFd k content.length n s =
      let bytes := w.incoming.take (min content.length (s.env.answers s.calls).arrived)
      .done (if bytes ≠ [] ∧ (s.env.answers s.calls).moved < 0 then -1 else bytes.length)
        (({ s with calls := s.calls + 1 } : State).setWorker k (fun w' ↦
          { w' with incoming := w'.incoming.drop bytes.length })) := by
    simp only [linkStreamToFd, bind_apply, worker_apply hw]
    rfl
  refine ⟨_, _, hrun, ?_⟩
  by_cases hlen : content.length ≤ (s.env.answers s.calls).arrived
  · have hbytes : w.incoming.take (min content.length (s.env.answers s.calls).arrived) = content := by
      rw [ht, min_eq_left hlen, List.take_left]
    rw [hbytes]
    by_cases hm : content ≠ [] ∧ (s.env.answers s.calls).moved < 0
    · right
      refine ⟨fun h ↦ absurd (h.2 hm.1) (by omega), ?_⟩
      rw [if_pos hm]
      omega
    · left
      refine ⟨⟨hlen, fun hne ↦ ?_⟩, by rw [if_neg hm], ?_⟩
      · by_contra hneg
        exact hm ⟨hne, by omega⟩
      · refine Stands.read (s := { s with calls := s.calls + 1 }) (content ++ rest)
          ⟨rfl, rfl, w, hw, ht⟩ (fun w' hw' ↦ ?_)
        show w'.incoming.drop content.length = rest
        rw [hw', List.drop_left]
  · right
    refine ⟨fun h ↦ hlen h.1, ?_⟩
    have hbytes : (w.incoming.take (min content.length (s.env.answers s.calls).arrived)).length <
        content.length := by
      rw [List.length_take]
      omega
    split <;> omega

theorem takes_linkSoak (h : content.length ≤ (env.answers c).arrived) :
    Triple (Stands env k c (content ++ rest)) (linkSoak k content.length)
      (fun _ s ↦ Stands env k (c + 1) rest s) := by
  refine Spec.of_done ?_
  rintro n s ⟨rfl, rfl, w, hw, ht⟩
  have hrun : linkSoak k content.length n s =
      .done () (({ s with calls := s.calls + 1 } : State).setWorker k (fun w' ↦
        { w' with incoming :=
          w'.incoming.drop (min content.length (s.env.answers s.calls).arrived) })) := by
    simp only [linkSoak, bind_apply, worker_apply hw]
    rfl
  refine ⟨_, _, hrun, ?_⟩
  refine Stands.read (s := { s with calls := s.calls + 1 }) (content ++ rest)
    ⟨rfl, rfl, w, hw, ht⟩ (fun w' hw' ↦ ?_)
  show w'.incoming.drop (min content.length (s.env.answers s.calls).arrived) = rest
  rw [hw', min_eq_left h, List.drop_left]

/-- The parent directory of the local file, where it has one, and the file
itself can be made. -/
def Opens (env : Environment) (c : ℕ) (localName : Text) : Prop :=
  ('/' ∈ localName → (env.answers c).opened = true) ∧ (env.answers (c + 1)).opened = true

instance : Decidable (Opens env c localName) := inferInstanceAs (Decidable (_ ∧ _))

/-- The bytes of the file come in time if it cannot be made. -/
def Soaked (env : Environment) (c : ℕ) (localName content : Text) : Prop :=
  ¬ Opens env c localName → content.length ≤ (env.answers (c + 2)).arrived

theorem takes_getFile (hs : Soaked env c localName content) :
    Triple (Stands env k c (content ++ rest)) (getFile k path localName content.length) (fun got s ↦
      (∃ opened stored, got.2 = .file path localName content.length opened stored) ∧
      (((Opens env c localName → Complete env (c + 2) content) ∧ got.1 ≠ workerFailure ∧
          Stands env k (c + 3) rest s) ∨
        (¬ (Opens env c localName → Complete env (c + 2) content) ∧ got.1 = workerFailure))) := by
  refine .bind takes_ask (fun parent ↦ .of_forall ?_)
  rintro s ⟨rfl, hs₁⟩
  refine .bind (takes_ask.pre (by rintro _ rfl; exact hs₁)) (fun file ↦ .of_forall ?_)
  rintro s ⟨rfl, hs₂⟩
  refine .ite (fun ho ↦ ?_) (fun ho ↦ ?_)
  · refine .bind (takes_linkStreamToFd.pre (by rintro _ rfl; exact hs₂)) (fun actual ↦ .pure ?_)
    intro s h
    refine ⟨⟨_, _, rfl⟩, ?_⟩
    rcases h with ⟨hc, ha, hs₃⟩ | ⟨hc, ha⟩
    · exact .inl ⟨fun _ ↦ hc, by rw [if_pos ha]; exact (by decide : success ≠ workerFailure), hs₃⟩
    · exact .inr ⟨fun h ↦ hc (h ho), if_neg ha⟩
  · have hsoak : content.length ≤ (env.answers (c + 2)).arrived :=
      hs ho
    refine .bind ((takes_linkSoak hsoak).pre (by rintro _ rfl; exact hs₂)) (fun _ ↦ .pure ?_)
    intro s hs₃
    exact ⟨⟨_, _, rfl⟩, .inl ⟨fun h ↦ absurd h ho, (by decide : appFailure ≠ workerFailure), hs₃⟩⟩

end Store

/-- Every directory is made that the master comes to before the link or a local
file fails. The call with number `c` reads the first line. -/
def Makes (env : Environment) (payload name : Text) : ℕ → List Piece → Prop
  | _, [] => True
  | c, .dir path :: ps => Arrives env c (Piece.dir path).line →
    (env.answers (c + 2)).opened = true ∧ Makes env payload name (c + 3) ps
  | c, .file path content h :: ps => Arrives env c (Piece.file path content h).line →
    (Opens env (c + 3) (localNameOf payload name path (env.answers (c + 2)).leftover) →
      Complete env (c + 5) content) → Makes env payload name (c + 6) ps
  | c, .missing path errnum :: ps => Arrives env c (Piece.missing path errnum).line →
    Makes env payload name (c + 2) ps

/-- Every file that the master comes to and cannot make is soaked. -/
def Soaks (env : Environment) (payload name : Text) : ℕ → List Piece → Prop
  | _, [] => True
  | c, .dir path :: ps => Arrives env c (Piece.dir path).line →
    (env.answers (c + 2)).opened = true → Soaks env payload name (c + 3) ps
  | c, .file path content h :: ps => Arrives env c (Piece.file path content h).line →
    Soaked env (c + 3) (localNameOf payload name path (env.answers (c + 2)).leftover) content ∧
      ((Opens env (c + 3) (localNameOf payload name path (env.answers (c + 2)).leftover) →
        Complete env (c + 5) content) → Soaks env payload name (c + 6) ps)
  | c, .missing path errnum :: ps => Arrives env c (Piece.missing path errnum).line →
    Soaks env payload name (c + 2) ps

/-- `Makes`, where notices are read first. -/
def Unblocked (env : Environment) (payload name : Text) (c : ℕ) (notices : List Text)
    (ps : List Piece) : Prop :=
  ArriveAll env c notices → Makes env payload name (c + 2 * notices.length) ps

/-- `Soaks`, where notices are read first. -/
def Drained (env : Environment) (payload name : Text) (c : ℕ) (notices : List Text)
    (ps : List Piece) : Prop :=
  ArriveAll env c notices → Soaks env payload name (c + 2 * notices.length) ps

/-- The entry is what the master kept of this piece of an answer. -/
def Describes : Entry → Piece → Prop
  | .dir path _ _, .dir path' => path = path'
  | .file path _ length _ _, .file path' content _ => path = path' ∧ length = content.length
  | .missing path, .missing path' _ => path = path'
  | _, _ => False

def answer (ps : List Piece) : Text := ps.flatMap Piece.text ++ "end\n".toList

theorem answer_cons (p : Piece) (ps : List Piece) :
    answer (p :: ps) ++ rest = p.line ++ '\n' :: (p.content ++ (answer ps ++ rest)) := by
  simp only [answer, List.flatMap_cons, Piece.text, List.append_assoc, List.cons_append]

theorem unblocked_nil {payload name : Text} {ps : List Piece} :
    Unblocked env payload name c [] ps ↔ Makes env payload name c ps := by
  simp [Unblocked, ArriveAll]

theorem drained_nil {payload name : Text} {ps : List Piece} (h : Soaks env payload name c ps) :
    Drained env payload name c [] ps :=
  fun _ ↦ h

def Pending (s : State) (k : Key) (text : Text) : Prop :=
  ∃ w, s.workerTable.lookup k = some w ∧ w.incoming = text

/-- How far the answer to a `get` was read, of which `ps` are the pieces. -/
def Underway (env : Environment) (k : Key) (payload name rest : Text) (ps : List Piece) (B : Prop)
    (g : Retrieval) (s : State) : Prop :=
  ∃ notices done left c, (∀ l ∈ notices, Notice l ∧ Clean l) ∧ ps = done ++ left ∧
    List.Forall₂ Describes g.entries done ∧
    Stands env k c (unlines notices ++ (answer left ++ rest)) s ∧
    (B ↔ Unblocked env payload name c notices left) ∧ Drained env payload name c notices left

/-- How the answer ends: it was read to its end, unless the worker failed, or
its remainder is left in the link. -/
def Ends (k : Key) (rest : Text) (ps : List Piece) (B : Prop) (entries : List Entry) (result : ℤ)
    (s : State) : Prop :=
  (B ∧ (result = workerFailure ∨ List.Forall₂ Describes entries ps ∧ Pending s k rest)) ∨
  (¬ B ∧ result = appFailure ∧ ∃ left, left ≠ [] ∧ Pending s k (left ++ rest))

theorem makes_of_not_arrives {payload name : Text} {p : Piece} {ps : List Piece}
    (h : ¬ Arrives env c p.line) : Makes env payload name c (p :: ps) := by
  cases p <;> exact fun ha ↦ absurd ha h

/-- What is done about one line of an answer. -/
def storeReply (k : Key) (r : Ref) (f : File) (name : Text) (g : Retrieval) :
    Reply → M (Retrieval ⊕ Retrieval)
  | .dir path => do
    let a ← ask
    let localName := localNameOf f.payload name path a.leftover
    let g : Retrieval := { g with entries := g.entries ++ [.dir path localName a.opened] }
    if a.opened then pure (.inl { g with result := success })
    else pure (.inr { g with result := appFailure })
  | .file path length => do
    let localName := localNameOf f.payload name path (← ask).leftover
    let got ← getFile k path localName length
    let g : Retrieval :=
      { result := got.1
        totalBytes := g.totalBytes + if got.1 = success then length else 0
        entries := g.entries ++ [got.2] }
    if got.1 = workerFailure then pure (.inr g) else pure (.inl g)
  | .missing path => do
    setTask r (mark outputMissing)
    pure (.inl { g with entries := g.entries ++ [.missing path] })
  | .end => pure (.inr g)
  | .invalid => pure (.inr { g with result := workerFailure })

theorem getEntry_eq (k : Key) (r : Ref) (f : File) (name : Text) (g : Retrieval) :
    getEntry k r f name g = (do
      let m ← recvWorkerMsgRetry k
      if m.1 < 0 then pure (.inr { g with result := workerFailure })
      else storeReply k r f name g (parseReply m.2)) := by
  simp only [getEntry]
  congr 1

section Entries

variable {f : File} {name : Text} {ps : List Piece} {B : Prop}

theorem takes_piece {p : Piece} {done left : List Piece} {g : Retrieval} (hps : ps = done ++ p :: left)
    (hp : Legible p.path) (hsoak : Soaks env f.payload name c (p :: left)) (hd : List.Forall₂ Describes g.entries done)
    (ha : Arrives env c p.line) (hB : B ↔ Makes env f.payload name c (p :: left)) :
    Triple (Stands env k (c + 2) (p.content ++ (answer left ++ rest)))
      (storeReply k r f name g (parseReply p.line))
      (fun x s ↦ match x with
        | .inl g' => Underway env k f.payload name rest ps B g' s
        | .inr g' => Ends k rest ps B g'.entries g'.result s) := by
  have hdone : ps = done ++ [p] ++ left := by rw [hps, List.append_assoc]; rfl
  have hnext : ∀ {e}, Describes e p → List.Forall₂ Describes (g.entries ++ [e]) (done ++ [p]) :=
    fun he ↦ List.rel_append hd (.cons he .nil)
  cases p with
  | dir path =>
    have hw : IsWord path := hp.1
    rw [parseReply_dir hw]
    refine .bind takes_ask (fun a ↦ .of_forall ?_)
    rintro s ⟨rfl, hs⟩
    refine .ite (fun ho ↦ .pure ?_) (fun ho ↦ .pure ?_)
    · rintro _ rfl
      refine ⟨[], done ++ [.dir path], left, c + 3, fun _ h ↦ absurd h List.not_mem_nil, hdone,
        hnext (by exact rfl), hs, ?_, drained_nil (hsoak ha ho)⟩
      rw [hB, unblocked_nil, Makes, imp_iff_right ha, and_iff_right ho]
    · rintro _ rfl
      refine .inr ⟨?_, rfl, answer left, ?_, hs.incoming⟩
      · rw [hB, Makes, imp_iff_right ha]
        exact fun h ↦ ho h.1
      · exact List.append_ne_nil_of_right_ne_nil _ (by decide)
  | file path content h =>
    have hw : IsWord path := hp.1
    rw [parseReply_file hw]
    refine .bind takes_ask (fun a ↦ .of_forall ?_)
    rintro s ⟨rfl, hs⟩
    refine .bind ((takes_getFile (hsoak ha).1).pre (by rintro _ rfl; exact hs)) (fun got ↦ .of_forall ?_)
    rintro s ⟨⟨opened, stored, hg⟩, hgot⟩
    have hmakes : B ↔ ((Opens env (c + 3) (localNameOf f.payload name path (env.answers (c + 2)).leftover) →
        Complete env (c + 5) content) → Makes env f.payload name (c + 6) left) := by
      rw [hB, Makes, imp_iff_right ha]
    rcases hgot with ⟨hc, hr, hs⟩ | ⟨hc, hr⟩
    · rw [if_neg hr]
      refine .pure ?_
      rintro _ rfl
      refine ⟨[], done ++ [.file path content h], left, c + 6, fun _ h ↦ absurd h List.not_mem_nil, hdone,
        hnext (by rw [hg]; exact ⟨rfl, rfl⟩), hs, ?_, drained_nil ((hsoak ha).2 hc)⟩
      rw [hmakes, unblocked_nil]
      exact imp_iff_right hc
    · rw [if_pos hr]
      refine .pure ?_
      rintro _ rfl
      exact .inl ⟨hmakes.mpr (fun h ↦ absurd h hc), .inl hr⟩
  | missing path errnum =>
    have hw : IsWord path := hp.1
    rw [parseReply_missing hw]
    refine .bind (A := fun _ s ↦ Stands env k (c + 2) (answer left ++ rest) s)
      (.modify (fun s hs ↦ hs.same rfl rfl rfl)) (fun _ ↦ .pure (fun s hs ↦ ?_))
    refine ⟨[], done ++ [.missing path errnum], left, c + 2, fun _ h ↦ absurd h List.not_mem_nil, hdone,
      hnext (by exact rfl), hs, ?_, drained_nil (hsoak ha)⟩
    rw [hB, unblocked_nil, Makes, imp_iff_right ha]

theorem takes_getEntry (hp : ∀ p ∈ ps, Legible p.path) (g : Retrieval) :
    Triple (Underway env k f.payload name rest ps B g) (getEntry k r f name g) (fun x s ↦ match x with
      | .inl g' => Underway env k f.payload name rest ps B g' s
      | .inr g' => Ends k rest ps B g'.entries g'.result s) := by
  rw [getEntry_eq]
  refine .of_forall ?_
  rintro s ⟨notices, done, left, c, hn, hps, hd, hs, hB, hsoak⟩
  cases left with
  | nil =>
    have hend : Clean "end".toList ∧ Unprocessed "end".toList := by
      refine ⟨clean_of_all rfl, ?_⟩
      unfold Unprocessed
      decide
    have hB' : B := hB.mpr (fun _ ↦ trivial)
    refine .bind ((takes_recvWorkerMsgRetry hn hend.1 hend.2).pre (by rintro _ rfl; exact hs))
      (fun m ↦ .of_forall ?_)
    rintro s (⟨-, rfl, hs⟩ | ⟨-, hm⟩)
    · refine .pure ?_
      rintro _ rfl
      rw [List.append_nil] at hps
      exact .inl ⟨hB', .inr ⟨hps ▸ hd, hs.incoming⟩⟩
    · rw [if_pos hm]
      exact .pure (by rintro _ rfl; exact .inl ⟨hB', .inl rfl⟩)
  | cons p left =>
    have hmem : p ∈ ps := by
      rw [hps]
      exact List.mem_append_right _ (List.mem_cons_self ..)
    rw [answer_cons] at hs
    refine .bind ((takes_recvWorkerMsgRetry hn (clean_line (hp p hmem)) (unprocessed_line p)).pre
      (by rintro _ rfl; exact hs)) (fun m ↦ .of_forall ?_)
    rintro s (⟨ha, rfl, hs⟩ | ⟨ha, hm⟩)
    · rw [arriveAll_append] at ha
      refine .ite (fun h ↦ absurd h (by decide : ¬ (1 : ℤ) < 0)) (fun _ ↦ ?_)
      refine (takes_piece hps (hp p hmem) (hsoak ha.1) hd ha.2 ?_).pre (by rintro _ rfl; exact hs)
      rw [hB, Unblocked, imp_iff_right ha.1]
    · rw [if_pos hm]
      refine .pure ?_
      rintro _ rfl
      refine .inl ⟨hB.mpr (fun hall ↦ makes_of_not_arrives (fun hline ↦ ha ?_)), .inl rfl⟩
      exact arriveAll_append.mpr ⟨hall, hline⟩

theorem takes_getEntries {notices : List Text} (hn : ∀ l ∈ notices, Notice l ∧ Clean l)
    (hp : ∀ p ∈ ps, Legible p.path) (hsoak : Drained env f.payload name c notices ps) :
    Triple (Stands env k c (unlines notices ++ (answer ps ++ rest)))
      (loop (getEntry k r f name) ⟨success, 0, []⟩)
      (fun g s ↦ Ends k rest ps (Unblocked env f.payload name c notices ps) g.entries g.result s) := by
  refine .loop (fun g s ↦ Underway env k f.payload name rest ps
    (Unblocked env f.payload name c notices ps) g s) _ (fun s hs ↦ ?_) (fun g ↦ ?_)
  · exact ⟨notices, [], ps, c, hn, rfl, .nil, hs, .rfl, hsoak⟩
  · exact (takes_getEntry hp g).post (fun x s h ↦ by cases x <;> exact h)

def LastReply (k : Key) (r : Ref) (f : File) (entries : List Entry) (result : ℤ) (s : State) : Prop :=
  (replies k r s.trace).getLast? = some (f, entries, result)

theorem takes_getFileOrDirectory {notices : List Text} (hn : ∀ l ∈ notices, Notice l ∧ Clean l)
    (hp : ∀ p ∈ ps, Legible p.path) (hsoak : Drained env f.payload name (c + 1) notices ps) :
    Triple (Stands env k c (unlines notices ++ (answer ps ++ rest))) (getFileOrDirectory k r f name)
      (fun got s ↦ ∃ entries, LastReply k r f entries got.1 s ∧
        Ends k rest ps (Unblocked env f.payload name (c + 1) notices ps) entries got.1 s) := by
  have hsend : Triple (Stands env k c (unlines notices ++ (answer ps ++ rest)))
      (sendWorkerMsg k (.get name))
      (fun _ s ↦ Stands env k (c + 1) (unlines notices ++ (answer ps ++ rest)) s) := by
    refine Spec.of_done ?_
    rintro n s ⟨rfl, rfl, w, hw, ht⟩
    exact ⟨_, _, Polling.sendWorkerMsg_apply hw (.get name) n, rfl, rfl, w, hw, ht⟩
  have hkeep : ∀ {s s' : State} {B : Prop} {entries result}, s'.workerTable = s.workerTable →
      Ends k rest ps B entries result s → Ends k rest ps B entries result s' := by
    intro s s' B entries result hs h
    simpa only [Ends, Pending, hs] using h
  refine .bind hsend (fun _ ↦ .bind (takes_getEntries hn hp hsoak) (fun g ↦ .bind (A := fun _ s ↦
    Ends k rest ps (Unblocked env f.payload name (c + 1) notices ps) g.entries g.result s)
    (.when (fun _ ↦ .modify (fun s hs ↦ ?_)) (fun _ s hs ↦ hs)) (fun _ ↦ .bind (A := fun _ s ↦
      ∃ entries, LastReply k r f entries g.result s ∧
        Ends k rest ps (Unblocked env f.payload name (c + 1) notices ps) entries g.result s)
      (.modify (fun s hs ↦ ⟨g.entries, ?_, ?_⟩)) (fun _ ↦ .pure (fun s hs ↦ hs)))))
  · exact hkeep rfl hs
  · show (replies k r (s.trace ++ [.replied k r f name g.entries g.result])).getLast? = _
    simp [replies, List.filterMap_append]
  · exact hkeep rfl hs

end Entries

/-- Nothing is read from the worker, and none of its answers is recorded. -/
def Stays (k : Key) (r : Ref) (s s' : State) : Prop :=
  (∀ text, Pending s k text → Pending s' k text) ∧ replies k r s'.trace = replies k r s.trace

theorem steadyStays (k : Key) (r : Ref) : Steady (fun _ ↦ True) (Stays k r) where
  refl _ := ⟨fun _ h ↦ h, rfl⟩
  trans h h' := ⟨fun text ht ↦ h'.1 text (h.1 text ht), h'.2.trans h.2⟩
  keeps _ _ := trivial

theorem stays_setWorker {f : Queue.Worker → Queue.Worker} (hf : ∀ w, (f w).incoming = w.incoming) :
    Moves (fun _ ↦ True) (Stays k r) (setWorker k f) := by
  refine .modify _ (fun s _ ↦ ⟨fun text h ↦ ?_, rfl⟩)
  obtain ⟨w, hw, ht⟩ := h
  refine ⟨f w, ?_, by rw [hf, ht]⟩
  simp only [State.setWorker, Table.lookup_alter, if_pos, hw, Option.map_some]

theorem stays_timestampGet : Moves (fun _ ↦ True) (Stays k r) timestampGet := by
  intro n s _
  refine ⟨fun _ h ↦ h, ?_⟩
  show replies k r (s.trace ++ [_]) = _
  simp [replies, List.filterMap_append]

theorem stays_rememberOutput (name : Text) : Moves (fun _ ↦ True) (Stays k r) (rememberOutput k name) := by
  refine .bind (steadyStays k r) (fun n s _ ↦ ⟨fun _ h ↦ h, rfl⟩) (fun a ↦ ?_)
  cases a.stat with
  | none => exact .pure (steadyStays k r) ()
  | some info => exact stays_setWorker (fun _ ↦ rfl)

theorem Ends.stays {ps : List Piece} {B : Prop} {entries : List Entry} {result : ℤ}
    (h : Ends k rest ps B entries result s) (hs : Stays k r s s') :
    Ends k rest ps B entries result s' := by
  rcases h with ⟨hB, h | ⟨hd, ht⟩⟩ | ⟨hB, ha, left, hl, ht⟩
  · exact .inl ⟨hB, .inl h⟩
  · exact .inl ⟨hB, .inr ⟨hd, hs.1 _ ht⟩⟩
  · exact .inr ⟨hB, ha, left, hl, hs.1 _ ht⟩

/-- The worker's side of the retrieval of one output: what it reports in the
meantime, and what it has in its cache. -/
structure Response where
  file : File
  notices : List Text
  node : Node

def Response.name (env : Environment) (o : Response) : Text := makeCachedName env.md5String o.file

def Response.pieces (env : Environment) (o : Response) : List Piece :=
  streamOutputItem (o.name env) o.node

theorem takes_getOutputFile (o : Response) (hn : ∀ l ∈ o.notices, Notice l ∧ Clean l)
    (hp : ∀ p ∈ o.pieces env, Legible p.path)
    (hsoak : Drained env o.file.payload (o.name env) (c + 2) o.notices (o.pieces env)) :
    Triple (Stands env k c (unlines o.notices ++ (doGet (o.name env) o.node ++ rest)))
      (getOutputFile k r o.file) (fun result s ↦ ∃ entries, LastReply k r o.file entries result s ∧
        Ends k rest (o.pieces env) (Unblocked env o.file.payload (o.name env) (c + 2) o.notices
          (o.pieces env)) entries result s) := by
  refine .of_forall (fun s hs ↦ ?_)
  refine .bind (A := fun name s ↦ name = o.name env ∧
    Stands env k c (unlines o.notices ++ (doGet (o.name env) o.node ++ rest)) s) ?_ (fun name ↦ ?_)
  · rintro n _ rfl
    exact ⟨by rw [Response.name, ← hs.env], hs⟩
  refine .of_forall ?_
  rintro s ⟨rfl, hs⟩
  refine .bind (takes_timestampGet.pre (by rintro _ rfl; exact hs)) (fun openTime ↦
    .bind (takes_getFileOrDirectory hn hp hsoak) (fun got ↦ ?_))
  have hT := steadyStays k r
  have hkeep : ∀ {α : Type} {f : M α}, Moves (fun _ ↦ True) (Stays k r) f →
      Triple (fun s ↦ ∃ entries, LastReply k r o.file entries got.1 s ∧ Ends k rest (o.pieces env)
        (Unblocked env o.file.payload (o.name env) (c + 2) o.notices (o.pieces env)) entries got.1 s) f
      (fun _ s ↦ ∃ entries, LastReply k r o.file entries got.1 s ∧ Ends k rest (o.pieces env)
        (Unblocked env o.file.payload (o.name env) (c + 2) o.notices (o.pieces env)) entries got.1 s) := by
    intro α f hf
    refine hf.triple (fun _ _ ↦ trivial) ?_
    rintro s s' ⟨entries, hl, he⟩ h
    exact ⟨entries, by rw [LastReply, h.2]; exact hl, he.stays h⟩
  refine .bind (hkeep stays_timestampGet) (fun closeTime ↦ .bind (hkeep (.when hT (fun _ ↦
    .bind hT (.modify _ (fun _ _ ↦ ⟨fun _ h ↦ h, rfl⟩)) (fun _ ↦ stays_setWorker (fun _ ↦ rfl)))))
    (fun _ ↦ .bind (hkeep (.when hT (fun _ ↦ stays_rememberOutput _))) (fun _ ↦
      .pure (fun s hs ↦ hs))))

def transcript (env : Environment) (rest : Text) : List Response → Text
  | [] => rest
  | o :: os => unlines o.notices ++ (doGet (o.name env) o.node ++ transcript env rest os)

/-- Each of the outputs gets what the worker sent for it: when the next one is
asked for, the answer to the one before has been read to its end. -/
def InStep (k : Key) (r : Ref) (n : ℕ) (env : Environment) (rest : Text) : List Response → State → Prop
  | [], _ => True
  | o :: os, s => ∀ result s', getOutputFile k r o.file n s = .done result s' →
    result ≠ workerFailure → Pending s' k (transcript env rest os) ∧
      (∃ entries, LastReply k r o.file entries result s' ∧
        List.Forall₂ Describes entries (o.pieces env)) ∧ InStep k r n env rest os s'

def Unhindered (k : Key) (r : Ref) (n : ℕ) : List Response → State → Prop
  | [], _ => True
  | o :: os, s => Unblocked s.env o.file.payload (o.name s.env) (s.calls + 2) o.notices (o.pieces s.env) ∧
    ∀ result s', getOutputFile k r o.file n s = .done result s' → result ≠ workerFailure →
      Unhindered k r n os s'

theorem answering_env (h : Relation.ReflTransGen (Answering k r) s s') : s'.env = s.env := by
  induction h with
  | refl => rfl
  | tail _ hx ih =>
    cases hx with
    | quiet hq => exact (Steps.quiet_env hq).trans ih
    | replied => exact ih

theorem pending_unique {t u : Text} (h : Pending s k t) (h' : Pending s k u) : t = u := by
  obtain ⟨w, hw, rfl⟩ := h
  obtain ⟨w', hw', rfl⟩ := h'
  rw [hw] at hw'
  cases hw'
  rfl

theorem not_pending {left : Text} (hl : left ≠ []) (h : Pending s k (left ++ rest)) :
    ¬ Pending s k rest := by
  intro h'
  exact hl (List.append_left_eq_self.mp (pending_unique h h'))

/-- The worker reports nothing else than notices, its names are legible, and
what it sends of a file that cannot be made comes in time. The call with number
`c` reads the first line. -/
structure Honest (env : Environment) (c : ℕ) (o : Response) : Prop where
  notices : ∀ l ∈ o.notices, Notice l ∧ Clean l
  legible : ∀ p ∈ o.pieces env, Legible p.path
  drained : Drained env o.file.payload (o.name env) c o.notices (o.pieces env)

/-- The worker is honest about each of the outputs that it is asked for. -/
def HonestAll (k : Key) (r : Ref) (n : ℕ) : List Response → State → Prop
  | [], _ => True
  | o :: os, s => Honest s.env (s.calls + 2) o ∧
    ∀ result s', getOutputFile k r o.file n s = .done result s' → result ≠ workerFailure →
      HonestAll k r n os s'

theorem inStep_iff (os : List Response) {q result : ℤ} (ho : HonestAll k r n os s)
    (hs : Pending s k (transcript s.env rest os))
    (hf : getEachOutput k r q (os.map Response.file) n s = .done result s') :
    InStep k r n s.env rest os s ↔ Unhindered k r n os s := by
  induction os generalizing s q with
  | nil => exact .rfl
  | cons o os ih =>
    obtain ⟨result₁, s₁, h₁, hf⟩ := bind_eq_done hf
    obtain ⟨hhonest, hrest⟩ := ho
    have henv : s₁.env = s.env := by
      obtain ⟨name, hc⟩ := (spec_getOutputFile o.file).elim (hs.imp (fun _ hw ↦ hw.1)) h₁
      exact answering_env hc.answering
    obtain ⟨entries, hl, hends⟩ := (takes_getOutputFile o hhonest.notices hhonest.legible
      hhonest.drained).elim ⟨rfl, rfl, hs⟩ h₁
    rcases hends with ⟨hB, hends⟩ | ⟨hB, ha, left, hne, ht⟩
    · by_cases hw : result₁ = workerFailure
      · constructor
        · refine fun _ ↦ ⟨hB, fun result' s' h' hr ↦ ?_⟩
          rw [h₁] at h'
          cases h'
          exact absurd hw hr
        · intro _ result' s' h' hr
          rw [h₁] at h'
          cases h'
          exact absurd hw hr
      · obtain ⟨hd, ht⟩ := hends.resolve_left hw
        rw [if_neg hw] at hf
        have hih := ih (s := s₁) (hrest result₁ s₁ h₁ hw) (henv ▸ ht) hf
        rw [henv] at hih
        constructor
        · refine fun h ↦ ⟨hB, fun result' s' h' hr ↦ ?_⟩
          have hstep := (h result' s' h' hr).2.2
          rw [h₁] at h'
          cases h'
          exact hih.mp hstep
        · intro h result' s' h' hr
          have hnext := h.2 result' s' h' hr
          rw [h₁] at h'
          cases h'
          exact ⟨ht, ⟨entries, hl, hd⟩, hih.mpr hnext⟩
    · refine iff_of_false (fun h ↦ ?_) (fun h ↦ hB h.1)
      have hr : result₁ ≠ workerFailure := by rw [ha]; decide
      exact not_pending hne ht (h result₁ s₁ h₁ hr).1

/-- An answer is read to its end, unless the worker failed, if and only if each
of its directories is made; and the outputs that follow get their own answers
under the same condition. -/
theorem retrieval_in_step_iff (k : Key) (r : Ref) (n : ℕ) (s s' : State) (rest : Text) :
    (∀ (o : Response) (got : ℤ × ℤ), Honest s.env (s.calls + 1) o →
      Pending s k (unlines o.notices ++ (doGet (o.name s.env) o.node ++ rest)) →
      getFileOrDirectory k r o.file (o.name s.env) n s = .done got s' →
      ((got.1 ≠ workerFailure → Pending s' k rest) ↔
        Unblocked s.env o.file.payload (o.name s.env) (s.calls + 1) o.notices (o.pieces s.env))) ∧
    ∀ (os : List Response) (q result : ℤ), HonestAll k r n os s →
      Pending s k (transcript s.env rest os) →
      getEachOutput k r q (os.map Response.file) n s = .done result s' →
      (InStep k r n s.env rest os s ↔ Unhindered k r n os s) := by
  refine ⟨fun o got ho hs hg ↦ ?_, fun os q result ho hs hf ↦ inStep_iff os ho hs hf⟩
  obtain ⟨entries, -, hends⟩ := (takes_getFileOrDirectory ho.notices ho.legible ho.drained).elim ⟨rfl, rfl, hs⟩ hg
  rcases hends with ⟨hB, hends⟩ | ⟨hB, ha, left, hne, ht⟩
  · exact iff_of_true (fun hr ↦ (hends.resolve_left hr).2) hB
  · refine iff_of_false (fun h ↦ not_pending hne ht (h ?_)) hB
    rw [ha]
    decide

theorem makes_of_opened {payload name : Text} (h : ∀ c, (env.answers c).opened = true) (ps : List Piece) :
    Makes env payload name c ps := by
  induction ps generalizing c with
  | nil => trivial
  | cons p ps ih =>
    cases p with
    | dir path => exact fun _ ↦ ⟨h _, ih⟩
    | file path content hc => exact fun _ _ ↦ ih
    | missing path errnum => exact fun _ ↦ ih

theorem soaks_of_opened {payload name : Text} (h : ∀ c, (env.answers c).opened = true) (ps : List Piece) :
    Soaks env payload name c ps := by
  induction ps generalizing c with
  | nil => trivial
  | cons p ps ih =>
    cases p with
    | dir path => exact fun _ _ ↦ ih
    | file path content hc => exact fun _ ↦ ⟨fun ho ↦ absurd ⟨fun _ ↦ h _, h _⟩ ho, fun _ ↦ ih⟩
    | missing path errnum => exact fun _ ↦ ih

def first : Response where
  file := ⟨.file, 0, 0, 0, "a".toList, "a".toList⟩
  notices := ["alive".toList]
  node := .directory [("x".toList, .file "abc".toList (by decide))]

def second : Response where
  file := ⟨.file, 0, 0, 0, "b".toList, "b".toList⟩
  notices := []
  node := .file "hi".toList (by decide)

def digests (payload : Text) : Text :=
  if payload = "a".toList then "0cc175b9c0f1b6a831c399e269772661".toList
  else "92eb5ffee6ae2fec3ad71c777531578f".toList

/-- The worker of that task. The call with the given number does not succeed to
make a directory. -/
def retrieving (failing : Option ℕ) : Environment :=
  let incoming := Agreement.lines ["workqueue 3 host linux x86 4", "resource workers 0 0 1 0 0",
    "available_results", "result 0 0 0 1", "end"] ++
      transcript { alone [] with md5String := digests } [] [first, second]
  { alone incoming with
    md5String := digests
    answers := fun i ↦ { (alone incoming).answers i with opened := failing ≠ some i } }

def answering : State :=
  connect 1 ⟨1, [], transcript (retrieving none) [] [first, second]⟩ (newQueue (retrieving none))

theorem honest_first : Honest (retrieving none) c first where
  notices l hl := by
    rw [List.mem_singleton.mp hl]
    exact ⟨.alive [], clean_of_all rfl⟩
  legible p hp := by
    have hpath : ∀ p ∈ first.pieces (retrieving none), legible p.path = true := by
      decide +kernel
    exact legible_of_eq_true (hpath p hp)
  drained _ := soaks_of_opened (fun _ ↦ rfl) _

theorem honest_second : Honest (retrieving none) c second where
  notices l hl := absurd hl List.not_mem_nil
  legible p hp := by
    have hpath : ∀ p ∈ second.pieces (retrieving none), legible p.path = true := by
      decide +kernel
    exact legible_of_eq_true (hpath p hp)
  drained _ := soaks_of_opened (fun _ ↦ rfl) _

theorem retrieval_in_step_answering :
    ∃ result s', getEachOutput 1 0 success [first.file, second.file] 20 answering = .done result s' ∧
      InStep 1 0 20 (retrieving none) [] [first, second] answering := by
  obtain ⟨result, s', hf, -⟩ := exists_of_returns (n := 20) (s := answering)
    (f := getEachOutput 1 0 success [first.file, second.file]) (t := fun _ _ ↦ true) (by decide +kernel)
  have hs : Pending answering 1 (transcript (retrieving none) [] [first, second]) :=
    ⟨newWorker (retrieving none) 1 ⟨1, [], transcript (retrieving none) [] [first, second]⟩, by rfl, by rfl⟩
  have henv : ∀ result₁ s₁, getOutputFile 1 0 first.file 20 answering = .done result₁ s₁ →
      s₁.env = retrieving none := by
    intro result₁ s₁ h₁
    obtain ⟨name, hc⟩ := (spec_getOutputFile first.file).elim (hs.imp (fun _ hw ↦ hw.1)) h₁
    exact answering_env hc.answering
  have honest : HonestAll 1 0 20 [first, second] answering :=
    ⟨honest_first, fun result₁ s₁ h₁ _ ↦ ⟨henv result₁ s₁ h₁ ▸ honest_second, fun _ _ _ _ ↦ trivial⟩⟩
  refine ⟨result, s', hf, ((retrieval_in_step_iff 1 0 20 answering s' []).2 _ success result honest hs
    hf).mpr ?_⟩
  refine ⟨fun _ ↦ makes_of_opened (fun _ ↦ rfl) _, fun result₁ s₁ h₁ _ ↦ ⟨fun _ ↦ ?_, fun _ _ _ _ ↦ trivial⟩⟩
  rw [henv result₁ s₁ h₁]
  exact makes_of_opened (fun _ ↦ rfl) _

def withOutputs : Task :=
  { workQueueTaskCreate [] with outputFiles := [first.file, second.file] }

/-- The queue after that task was made, given its outputs and submitted. -/
def twoOutputs (env : Environment) : State :=
  submitTask (env.answers 0).now 0 ((create [] (newQueue env)).setTask 0 (fun _ ↦ withOutputs)).tick

theorem reachable_twoOutputs : Reachable (fun _ _ ↦ True) env (twoOutputs env) := by
  let one : Task := { workQueueTaskCreate [] with outputFiles := [first.file] }
  have h₁ : Reachable (fun _ _ ↦ True) env (create [] (newQueue env)) :=
    .call (n := 0) (c := .newTask []) .start trivial trivial rfl
  have hadd : ∀ (s : State) (name : Text) (t : Task), workQueueTaskSpecifyFile (s.heap 0) (cString name)
      (cString name) .output 0 = some t →
      perform (.addfile 0 name name false .output) 0 s = .done () (s.setTask 0 (fun _ ↦ t)) := by
    intro s name t ht
    simp only [perform, addfile, bind_apply, get_apply]
    rw [if_neg (by decide), ht]
    rfl
  have h₂ := Reachable.call (c := .addfile 0 "a".toList "a".toList false .output) h₁ Nat.one_pos trivial
    (hadd _ _ one rfl)
  have h₃ := Reachable.call (c := .addfile 0 "b".toList "b".toList false .output) h₂ Nat.one_pos trivial
    (hadd _ _ withOutputs rfl)
  have htask : ((create [] (newQueue env)).setTask 0 (fun _ ↦ one)).setTask 0 (fun _ ↦ withOutputs) =
      (create [] (newQueue env)).setTask 0 (fun _ ↦ withOutputs) := by
    simp [State.setTask]
  rw [htask] at h₃
  exact .call (n := 0) (c := .submit 0) h₃ ⟨Nat.one_pos, by rintro i ⟨⟩,
    (by decide : 1 < 2 ^ 31 - 1)⟩ trivial rfl

/-- The directory of the first output cannot be made, and the second output
gets a file of the first. -/
theorem wait_mixes_outputs :
    Reachable (fun _ _ ↦ True) (retrieving (some 52)) (twoOutputs (retrieving (some 52))) ∧
      ∃ s' entries entries', wait 20 (twoOutputs (retrieving (some 52))) = .done (some 0) s' ∧
        .replied 1 0 first.file (first.name (retrieving none)) entries appFailure ∈ s'.trace ∧
        .replied 1 0 second.file (second.name (retrieving none)) entries' success ∈ s'.trace ∧
        ¬ List.Forall₂ Describes entries' (second.pieces (retrieving none)) := by
  refine ⟨reachable_twoOutputs, ?_⟩
  let name : Text := first.name (retrieving none)
  let entries : List Entry := [.dir name "a".toList false]
  let entries' : List Entry := [.file (below name "x".toList) "b/x".toList 3 true 3]
  obtain ⟨a, s', hw, ht⟩ := exists_of_returns (f := wait) (n := 20)
    (s := twoOutputs (retrieving (some 52))) (t := fun a s' ↦ decide (a = some 0 ∧
      .replied 1 0 first.file name entries appFailure ∈ s'.trace ∧
      .replied 1 0 second.file (second.name (retrieving none)) entries' success ∈ s'.trace))
    (by decide +kernel)
  obtain ⟨rfl, h₁, h₂⟩ := of_decide_eq_true ht
  refine ⟨s', entries, entries', hw, h₁, h₂, fun h ↦ ?_⟩
  obtain ⟨p, _, hp, -, heq⟩ := List.forall₂_cons_left_iff.mp h
  have hmem : p ∈ second.pieces (retrieving none) := heq ▸ List.mem_cons_self
  have hpath : ∀ p ∈ second.pieces (retrieving none), p.path ≠ below name "x".toList := by
    decide +kernel
  cases p with
  | file _ _ _ => exact hpath _ hmem hp.1.symm
  | dir _ | missing _ _ => exact hp

end Cyque.Streaming
