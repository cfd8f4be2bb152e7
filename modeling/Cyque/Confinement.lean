import Cyque.Library.Paths
import Cyque.Streaming

namespace Cyque.Confinement

open Library.Execution Library.Scanning Library.Paths Queue Transfer Api Wait Run Agreement Results Streaming

inductive Found
  | present
  | made
  | refused
deriving DecidableEq

/-- The local files as one line of an answer meets them. The root and the
working directory are there. -/
structure Disk where
  meets : Text → Found
  root : meets "/".toList = .present
  here : meets ".".toList = .present

/-- The directories that `create_dir` looks for, `done` being behind it. -/
def waysFrom (done : Text) : Text → List Text
  | [] => if done = [] then [] else [done]
  | c :: rest =>
    if c = '/' ∧ done ≠ [] then done :: waysFrom (done ++ [c]) rest
    else waysFrom (done ++ [c]) rest

/-- Whether each directory is there in the end, and those that were made. -/
def makeEach (disk : Disk) : List Text → Bool × List Text
  | [] => (true, [])
  | way :: ways =>
    match disk.meets way with
    | .present => makeEach disk ways
    | .made => ((makeEach disk ways).1, way :: (makeEach disk ways).2)
    | .refused => (false, [])

def createDir (disk : Disk) (path : Text) : Bool × List Text := makeEach disk (waysFrom [] path)

/-- The first character is never removed. -/
def pathRemoveTrailingSlashes : Text → Text
  | [] => []
  | c :: path => c :: path.rdropWhile (fun x ↦ x = '/')

def pathDirname (path : Text) : Text :=
  let dir := pathRemoveTrailingSlashes path
  if '/' ∈ dir then
    let dir := (dir.rdropWhile (fun x ↦ x ≠ '/')).rdropWhile (fun x ↦ x = '/')
    if dir = [] then "/".toList else dir
  else ".".toList

/-- The parent directories that were made for a file. -/
def parents (disk : Disk) (localName : Text) : List Text :=
  if '/' ∈ localName then (createDir disk (pathDirname localName)).2 else []

/-- What is created or truncated for one line of an answer. A file that did not
come whole is unlinked under the name by which it was opened. -/
def touched (disk : Disk) : Entry → List Text
  | .dir _ localName _ => (createDir disk localName).2
  | .file _ localName _ opened _ => parents disk localName ++ if opened then [localName] else []
  | .missing _ => []

def Before (p q : Text) : Prop := ∃ u, q = p ++ '/' :: u

variable {p q done path : Text} {disk : Disk}

theorem Before.trans {r : Text} (h : Before p q) (h' : Before q r) : Before p r := by
  obtain ⟨u, rfl⟩ := h
  obtain ⟨v, rfl⟩ := h'
  exact ⟨u ++ '/' :: v, by simp⟩

theorem exists_of_mem_waysFrom (h : p ∈ waysFrom done path) : p ≠ [] ∧ done <+: p := by
  induction path generalizing done with
  | nil =>
    rw [waysFrom] at h
    split at h
    · exact absurd h List.not_mem_nil
    · rename_i hd
      obtain rfl := List.mem_singleton.mp h
      exact ⟨hd, List.prefix_refl _⟩
  | cons c rest ih =>
    have hnext : p ∈ waysFrom (done ++ [c]) rest → p ≠ [] ∧ done <+: p := fun h ↦
      ⟨(ih h).1, (List.prefix_append done [c]).trans (ih h).2⟩
    rw [waysFrom] at h
    split at h
    · rename_i hc
      rcases List.mem_cons.mp h with rfl | h
      · exact ⟨hc.2, List.prefix_refl _⟩
      · exact hnext h
    · exact hnext h

theorem before_of_prefix (h : done ++ ['/'] <+: p) : Before done p := by
  obtain ⟨u, rfl⟩ := h
  exact ⟨u, by simp⟩

theorem pairwise_waysFrom (done path : Text) : (waysFrom done path).Pairwise Before := by
  induction path generalizing done with
  | nil =>
    rw [waysFrom]
    split
    · exact .nil
    · exact List.pairwise_singleton _ _
  | cons c rest ih =>
    rw [waysFrom]
    split
    · rename_i hc
      refine .cons (fun q hq ↦ ?_) (ih _)
      rw [hc.1] at hq
      exact before_of_prefix (exists_of_mem_waysFrom hq).2
    · exact ih _

theorem eq_or_before_of_mem_waysFrom (h : p ∈ waysFrom done path) :
    done ++ path = p ∨ Before p (done ++ path) := by
  induction path generalizing done with
  | nil =>
    rw [waysFrom] at h
    split at h
    · exact absurd h List.not_mem_nil
    · exact .inl (by rw [List.append_nil, List.mem_singleton.mp h])
  | cons c rest ih =>
    have hnext : p ∈ waysFrom (done ++ [c]) rest → done ++ c :: rest = p ∨ Before p (done ++ c :: rest) :=
      fun h ↦ by simpa using ih h
    rw [waysFrom] at h
    split at h
    · rename_i hc
      rcases List.mem_cons.mp h with rfl | h
      · exact .inr ⟨rest, by rw [hc.1]⟩
      · exact hnext h
    · exact hnext h

theorem makeEach_sublist (disk : Disk) (ways : List Text) : (makeEach disk ways).2.Sublist ways := by
  induction ways with
  | nil => exact .slnil
  | cons way ways ih =>
    rw [makeEach]
    split
    · exact ih.cons way
    · exact ih.cons_cons way
    · exact List.nil_sublist _

theorem pairwise_createDir (disk : Disk) (path : Text) : (createDir disk path).2.Pairwise Before :=
  (pairwise_waysFrom [] path).sublist (makeEach_sublist disk _)

theorem of_mem_createDir (h : p ∈ (createDir disk path).2) : p ≠ [] ∧ (path = p ∨ Before p path) := by
  have hp := (makeEach_sublist disk _).subset h
  exact ⟨(exists_of_mem_waysFrom hp).1, eq_or_before_of_mem_waysFrom hp⟩

theorem createDir_root (disk : Disk) : (createDir disk "/".toList).2 = [] := by
  have hways : waysFrom [] "/".toList = ["/".toList] := rfl
  simp only [createDir, hways, makeEach, disk.root]

theorem createDir_here (disk : Disk) : (createDir disk ".".toList).2 = [] := by
  have hways : waysFrom [] ".".toList = [".".toList] := rfl
  simp only [createDir, hways, makeEach, disk.here]

theorem prefix_pathRemoveTrailingSlashes (path : Text) : pathRemoveTrailingSlashes path <+: path := by
  cases path with
  | nil => exact List.prefix_refl _
  | cons c path => exact List.prefix_cons_inj c |>.mpr (List.rdropWhile_prefix _ _)

theorem before_last_slash {dir : Text} (hs : '/' ∈ dir) :
    Before ((dir.rdropWhile (fun x ↦ x ≠ '/')).rdropWhile (fun x ↦ x = '/')) dir := by
  have hne : dir.rdropWhile (fun x ↦ x ≠ '/') ≠ [] := by
    intro h
    simpa using List.rdropWhile_eq_nil_iff.mp h '/' hs
  obtain ⟨u, hu⟩ : ∃ u, dir.rdropWhile (fun x ↦ x ≠ '/') = u ++ ['/'] := by
    refine List.getLast?_eq_some_iff.mp ?_
    rw [List.getLast?_eq_getLast_of_ne_nil hne]
    simpa using List.rdropWhile_last_not _ dir hne
  obtain ⟨t, ht⟩ := List.rdropWhile_prefix (fun x ↦ decide (x ≠ '/')) dir
  rw [hu] at ht ⊢
  rw [List.rdropWhile_concat_pos _ _ _ (by simp), ← ht]
  have hr := List.rdropWhile_append_rtakeWhile (p := fun x ↦ decide (x = '/')) (l := u)
  rcases hc : u.rtakeWhile (fun x ↦ decide (x = '/')) with - | ⟨c, cs⟩
  · rw [hc, List.append_nil] at hr
    rw [hr]
    exact ⟨t, by simp⟩
  · obtain rfl : c = '/' := by
      have hmem : c ∈ u.rtakeWhile (fun x ↦ decide (x = '/')) := by simp [hc]
      simpa using List.mem_rtakeWhile_imp hmem
    refine ⟨cs ++ '/' :: t, ?_⟩
    nth_rewrite 1 [← hr]
    rw [hc]
    simp

theorem pathDirname_cases (path : Text) : pathDirname path = "/".toList ∨ pathDirname path = ".".toList ∨
    Before (pathDirname path) path := by
  simp only [pathDirname]
  split
  · rename_i hs
    split
    · exact .inl rfl
    · obtain ⟨v, hv⟩ := prefix_pathRemoveTrailingSlashes path
      obtain ⟨u, hu⟩ := before_last_slash hs
      refine .inr (.inr ⟨u ++ v, ?_⟩)
      rw [← List.cons_append, ← List.append_assoc, ← hu, hv]
  · exact .inr (.inl rfl)

theorem of_mem_parents (h : p ∈ parents disk path) : p ≠ [] ∧ Before p path := by
  rw [parents] at h
  split at h
  · rcases pathDirname_cases path with hd | hd | hd
    · rw [hd, createDir_root] at h
      exact absurd h List.not_mem_nil
    · rw [hd, createDir_here] at h
      exact absurd h List.not_mem_nil
    · obtain ⟨hp, h | h⟩ := of_mem_createDir h
      · exact ⟨hp, h ▸ hd⟩
      · exact ⟨hp, h.trans hd⟩
  · exact absurd h List.not_mem_nil

theorem pairwise_parents (disk : Disk) (path : Text) : (parents disk path).Pairwise Before := by
  rw [parents]
  split
  · exact pairwise_createDir ..
  · exact .nil

def localName : Entry → Option Text
  | .dir _ name _ => some name
  | .file _ name _ _ _ => some name
  | .missing _ => none

theorem of_mem_touched {e : Entry} (h : p ∈ touched disk e) :
    ∃ name, localName e = some name ∧ (p = name ∨ p ≠ [] ∧ Before p name) := by
  cases e with
  | dir _ name _ =>
    obtain ⟨hp, h⟩ := of_mem_createDir h
    exact ⟨name, rfl, h.imp Eq.symm (fun h ↦ ⟨hp, h⟩)⟩
  | file _ name _ opened _ =>
    rcases List.mem_append.mp h with h | h
    · exact ⟨name, rfl, .inr (of_mem_parents h)⟩
    · split at h
      · exact ⟨name, rfl, .inl (List.mem_singleton.mp h)⟩
      · exact absurd h List.not_mem_nil
  | missing _ => exact absurd h List.not_mem_nil

theorem pairwise_touched (disk : Disk) (e : Entry) : (touched disk e).Pairwise Before := by
  cases e with
  | dir _ localName _ => exact pairwise_createDir ..
  | file _ localName _ opened _ =>
    rw [touched, List.pairwise_append]
    refine ⟨pairwise_parents .., ?_, fun p hp q hq ↦ ?_⟩
    · split
      · exact List.pairwise_singleton _ _
      · exact .nil
    · split at hq
      · obtain rfl := List.mem_singleton.mp hq
        exact (of_mem_parents hp).2
      · exact absurd hq List.not_mem_nil
  | missing _ => exact .nil

/-- A directory that has to be there for the local name. -/
def Above (payload p : Text) : Prop := ∃ rest, payload = p ++ '/' :: rest ∧ components rest ≠ []

/-- Nothing above the local name is made, and what stands behind the local name
is harmless up to the last thing that is made or opened. -/
def Obliging (payload : Text) (disk : Disk) (e : Entry) : Prop :=
  (∀ p ∈ touched disk e, ¬ Above payload p) ∧
    ∀ tail, (touched disk e).getLast? = some (payload ++ tail) → Harmless payload tail

theorem Harmless.of_before {root tail u : Text} (h : Harmless root (tail ++ '/' :: u)) :
    Harmless root tail := by
  obtain ⟨hd, h⟩ := h
  rw [components_slash, List.mem_append, not_or] at hd
  refine ⟨hd.1, (eq_or_ne tail []).imp_right (fun ht ↦ ?_)⟩
  have h := h.resolve_left (by simp)
  rwa [absolute_append ht] at h

theorem before_cases {payload tail : Text} (h : Before p (payload ++ tail)) :
    (∃ rest, payload = p ++ '/' :: rest) ∨ ∃ t, p = payload ++ t := by
  obtain ⟨u, hu⟩ := h
  rcases List.append_eq_append_iff.mp hu with ⟨t, ht, -⟩ | ⟨c, hc, hu⟩
  · exact .inr ⟨t, ht⟩
  · cases c with
    | nil => exact .inr ⟨[], by simpa using hc.symm⟩
    | cons x c =>
      obtain rfl : '/' = x := (List.cons.inj hu).1
      exact .inl ⟨c, hc⟩

theorem below_iff_obliging {payload : Text} {e : Entry}
    (he : ∀ name, localName e = some name → ∃ tail, name = payload ++ tail) :
    (∀ p ∈ touched disk e, Below payload p) ↔ Obliging payload disk e := by
  constructor
  · intro h
    refine ⟨fun p hp habove ↦ ?_, fun tail ht ↦ ?_⟩
    · obtain ⟨rest, rfl, hrest⟩ := habove
      have hne : p ≠ [] := by
        rintro rfl
        obtain ⟨name, hname, hp | hp⟩ := of_mem_touched hp
        · obtain ⟨tail, rfl⟩ := he name hname
          simp at hp
        · exact hp.1 rfl
      exact hrest ((below_slash_iff hne).mp (h p hp))
    · exact below_append_iff.mp (h _ (List.mem_of_getLast? ht))
  · rintro ⟨habove, hlast⟩ p hp
    obtain ⟨name, hname, hpn⟩ := of_mem_touched hp
    obtain ⟨tail, rfl⟩ := he name hname
    have hcases : (p ≠ [] ∧ ∃ rest, payload = p ++ '/' :: rest) ∨ ∃ t, p = payload ++ t := by
      rcases hpn with rfl | ⟨hne, hb⟩
      · exact .inr ⟨tail, rfl⟩
      · exact (before_cases hb).imp_left (fun h ↦ ⟨hne, h⟩)
    rcases hcases with ⟨hne, rest, hrest⟩ | ⟨t, rfl⟩
    · subst hrest
      refine (below_slash_iff hne).mpr ?_
      by_contra hc
      exact habove p hp ⟨rest, rfl, hc⟩
    · refine below_append_iff.mpr ?_
      obtain ⟨l, q, hl⟩ := List.eq_nil_or_concat' (touched disk e) |>.resolve_left
        (List.ne_nil_of_mem hp)
      have hpair := pairwise_touched disk e
      rw [hl] at hp hpair hlast
      rcases List.mem_append.mp hp with hp | hp
      · obtain ⟨u, rfl⟩ := (List.pairwise_append.mp hpair).2.2 _ hp q (List.mem_singleton_self q)
        refine Harmless.of_before (u := u) (hlast _ ?_)
        simp
      · obtain rfl := List.mem_singleton.mp hp
        exact hlast t (by simp)

/-- The entry is stored under the local name that its line leads to. -/
def Named (payload name : Text) : Entry → Prop
  | .dir path l _ => ∃ leftover, l = localNameOf payload name path leftover
  | .file path l _ _ _ => ∃ leftover, l = localNameOf payload name path leftover
  | .missing _ => True

theorem Named.exists_tail {payload name : Text} {e : Entry} (h : Named payload name e) (l : Text)
    (hl : localName e = some l) : ∃ tail, l = payload ++ tail := by
  cases e with
  | dir path _ _ =>
    cases hl
    exact h.imp' _ (fun _ h ↦ h)
  | file path _ _ _ _ =>
    cases hl
    exact h.imp' _ (fun _ h ↦ h)
  | missing _ => cases hl

section Run

variable {k : Key} {r : Ref} {f : File} {name : Text} {g : Retrieval}

theorem named_getFile {localName leftover : Text} (length : ℤ)
    (hl : localName = localNameOf f.payload name path leftover) :
    Yields (getFile k path localName length) (fun got ↦ Named f.payload name got.2) := by
  refine .bind (.any _) (fun parent _ ↦ .bind (.any _) (fun file _ ↦ .ite (fun _ ↦ ?_) (fun _ ↦ ?_)))
  · exact .bind (.any _) (fun actual _ ↦ .pure ⟨leftover, hl⟩)
  · exact .bind (.any _) (fun _ _ ↦ .pure ⟨leftover, hl⟩)

theorem named_append {e : Entry} (hg : ∀ e ∈ g.entries, Named f.payload name e)
    (he : Named f.payload name e) : ∀ e' ∈ g.entries ++ [e], Named f.payload name e' := by
  intro e' he'
  rcases List.mem_append.mp he' with h | h
  · exact hg e' h
  · rwa [List.mem_singleton.mp h]

theorem named_storeReply (hg : ∀ e ∈ g.entries, Named f.payload name e) (reply : Reply) :
    Yields (storeReply k r f name g reply) (fun x ↦ match x with
      | .inl g' => ∀ e ∈ g'.entries, Named f.payload name e
      | .inr g' => ∀ e ∈ g'.entries, Named f.payload name e) := by
  cases reply with
  | dir path =>
    refine .bind (.any _) (fun a _ ↦ ?_)
    have hnamed : ∀ created, Named f.payload name (.dir path
      (localNameOf f.payload name path a.leftover) created) := fun _ ↦ ⟨a.leftover, rfl⟩
    exact .ite (fun _ ↦ .pure (named_append hg (hnamed _))) (fun _ ↦ .pure (named_append hg (hnamed _)))
  | file path length =>
    refine .bind (.any _) (fun a _ ↦ .bind (named_getFile length rfl) (fun got h ↦ ?_))
    exact .ite (fun _ ↦ .pure (named_append hg h)) (fun _ ↦ .pure (named_append hg h))
  | missing path => exact .bind (.any _) (fun _ _ ↦ .pure (named_append hg trivial))
  | «end» => exact .pure hg
  | invalid => exact .pure hg

theorem named_getEntries :
    Yields (loop (getEntry k r f name) ⟨success, 0, []⟩) (fun g ↦ ∀ e ∈ g.entries, Named f.payload name e) := by
  refine .loop (B := fun g ↦ ∀ e ∈ g.entries, Named f.payload name e) (by simp) (fun g hg ↦ ?_)
  rw [getEntry_eq]
  refine .bind (.any _) (fun m _ ↦ .ite (fun _ ↦ .pure hg) (fun _ n s x s' h ↦ ?_))
  have hx := named_storeReply hg (parseReply m.2) n s x s' h
  cases x with
  | inl g' => exact hx
  | inr g' => exact hx

end Run

/-- Every file and directory that is created, truncated or unlinked for an
answer lies below the local name of the output if and only if the directories
above that name are there and each line of the answer is harmless. -/
theorem retrieval_confined_iff {k : Key} {r : Ref} {f : File} {name : Text} {n : ℕ} {s s' : State}
    {got : ℤ × ℤ} (h : getFileOrDirectory k r f name n s = .done got s') :
    ∃ entries, s'.trace.getLast? = some (.replied k r f name entries got.1) ∧
      (∀ e ∈ entries, Named f.payload name e) ∧
      ∀ disk : ℕ → Disk,
        (∀ i e, entries[i]? = some e → ∀ p ∈ touched (disk i) e, Below f.payload p) ↔
          ∀ i e, entries[i]? = some e → Obliging f.payload (disk i) e := by
  obtain ⟨_, s₁, -, h⟩ := bind_eq_done h
  obtain ⟨g, s₂, hg, h⟩ := bind_eq_done h
  obtain ⟨_, s₃, -, h⟩ := bind_eq_done h
  obtain ⟨_, s₄, hlog, h⟩ := bind_eq_done h
  have hnamed := named_getEntries _ _ _ _ hg
  cases hlog
  cases h
  refine ⟨g.entries, List.getLast?_concat .., hnamed, fun disk ↦ forall_congr' (fun i ↦
    forall_congr' (fun e ↦ forall_congr' (fun he ↦ ?_)))⟩
  exact below_iff_obliging (fun l hl ↦ (hnamed e (List.mem_of_getElem? he)).exists_tail l hl)

def fresh : Disk where
  meets way := if way = "o".toList then .made else .present
  root := rfl
  here := rfl

theorem retrieval_confined_iff_answering :
    ∃ got s' entries, getFileOrDirectory 1 0 first.file (first.name (retrieving none)) 20 answering =
        .done got s' ∧
      s'.trace.getLast? = some (.replied 1 0 first.file (first.name (retrieving none)) entries got.1) ∧
      ((∀ (i : ℕ) e, entries[i]? = some e → ∀ p ∈ touched fresh e, Below first.file.payload p) ↔
        ∀ (i : ℕ) e, entries[i]? = some e → Obliging first.file.payload fresh e) := by
  obtain ⟨got, s', h, -⟩ := exists_of_returns (n := 20) (s := answering)
    (f := getFileOrDirectory 1 0 first.file (first.name (retrieving none))) (t := fun _ _ ↦ true)
    (by decide +kernel)
  obtain ⟨entries, ht, -, hiff⟩ := retrieval_confined_iff h
  exact ⟨got, s', entries, h, ht, hiff (fun _ ↦ fresh)⟩

/-- A worker that answers with a file outside of the output it was asked for. -/
def straying : Environment :=
  let incoming := lines ["workqueue 3 host linux x86 4", "resource workers 0 0 1 0 0",
      "available_results", "result 0 0 0 1", "end"] ++
    "file file-d95679752134a2d9eb61dbd7b91c4bcc-o/../x 1\nXend\n".toList
  { alone incoming with md5String := fun _ ↦ "d95679752134a2d9eb61dbd7b91c4bcc".toList }

/-- The file is stored outside, and the worker is not rejected. -/
theorem wait_stores_outside :
    Reachable (fun _ _ ↦ True) straying (oneFile straying withOutput) ∧
      ∃ s' f name path, wait 20 (oneFile straying withOutput) = .done (some 0) s' ∧
        f.payload = "o".toList ∧
        .replied 1 0 f name [.file path "o/../x".toList 1 true 1] success ∈ s'.trace ∧
        (createDir fresh (pathDirname "o/../x".toList)).1 = true ∧
        "o/../x".toList ∈ touched fresh (.file path "o/../x".toList 1 true 1) ∧
        ¬ Below f.payload "o/../x".toList := by
  refine ⟨reachable_oneFile "o".toList false .output rfl, ?_⟩
  let f : File := ⟨.file, 0, 0, 0, "o".toList, "o".toList⟩
  let name : Text := "file-d95679752134a2d9eb61dbd7b91c4bcc-o".toList
  let path : Text := name ++ "/../x".toList
  obtain ⟨a, s', hw, ht⟩ := exists_of_returns (f := wait) (n := 20) (s := oneFile straying withOutput)
    (t := fun a s' ↦ decide (a = some 0 ∧
      .replied 1 0 f name [.file path "o/../x".toList 1 true 1] success ∈ s'.trace)) (by decide +kernel)
  obtain ⟨rfl, h⟩ := of_decide_eq_true ht
  refine ⟨s', f, name, path, hw, rfl, h, by decide +kernel, by decide +kernel, ?_⟩
  intro hbelow
  have hharm : Harmless "o".toList "/../x".toList := below_append_iff.mp hbelow
  exact hharm.1 (by decide +kernel)

end Cyque.Confinement
