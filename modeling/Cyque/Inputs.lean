import Cyque.Agreement
import Cyque.Exchange
import Cyque.Cache

namespace Cyque.Inputs

open Library.Execution Library.Scanning Library.Volumes Library.Paths
open Queue Link Transfer Footprint Exchange Cache Buffering

structure Upload where
  localName : Text
  remoteName : Text
  length : ℤ
  mode : ℕ
  flags : ℤ
deriving DecidableEq

def uploads : List Event → List Upload
  | .sent _ (.put name length mode flags) :: .streamed _ localName _ _ _ :: es =>
    ⟨localName, name, length, mode, flags⟩ :: uploads es
  | _ :: es => uploads es
  | [] => []

/-- The bytes that an event puts on the link, where `bytes` is what is read from
a local file. -/
def written (k : Key) (bytes : Text → ℕ → Text) : Event → Text
  | .sent k' m => if k' = k then text m else []
  | .streamed k' localName _ _ actual => if k' = k then bytes localName actual.toNat else []
  | _ => []

mutual

/-- The history of a transfer that succeeded, with the places below the cache to
which the files go. -/
inductive Carries (k : Key) (flags : ℤ) : Text → List Text → List Event → List (List Text × Upload) → Prop
  | file {localName : Text} {path : List Text} {length mode : ℕ} (hm : mode < 2 ^ 32) :
      Carries k flags localName path [.sent k (.put (spell path) length mode flags),
        .streamed k localName (spell path) length length] [(path, ⟨localName, spell path, length, mode, flags⟩)]
  | directory {localName : Text} {path names : List Text} {es : List Event} {us : List (List Text × Upload)}
      (h : CarriesEntries k flags localName path names es us) :
      Carries k flags localName path (.listed k (spell path) names :: es) us

inductive CarriesEntries (k : Key) (flags : ℤ) :
    Text → List Text → List Text → List Event → List (List Text × Upload) → Prop
  | nil {localName : Text} {path : List Text} : CarriesEntries k flags localName path [] [] []
  | dot {localName name : Text} {path names : List Text} {es : List Event} {us : List (List Text × Upload)}
      (hd : isDot name) (h : CarriesEntries k flags localName path names es us) :
      CarriesEntries k flags localName path (name :: names) es us
  | cons {localName name : Text} {path names : List Text} {ds es : List Event} {us us' : List (List Text × Upload)}
      (hd : ¬ isDot name) (hn : Carries k flags (below localName name) (path ++ [name]) ds us)
      (h : CarriesEntries k flags localName path names es us') :
      CarriesEntries k flags localName path (name :: names) (ds ++ es) (us ++ us')

end

variable {k : Key} {flags : ℤ}

theorem below_spell {path : List Text} (hp : path ≠ []) (name : Text) :
    below (spell path) name = spell (path ++ [name]) := by
  obtain ⟨dirs, c, rfl⟩ : ∃ dirs c, path = dirs ++ [c] := ⟨_, _, (List.dropLast_append_getLast hp).symm⟩
  rw [below, spell_concat, spell_concat, lead_concat, List.append_assoc, List.append_assoc, List.append_assoc]
  rfl

def Good (c : Text) : Prop := Name c ∧ Streaming.Legible c

def parcel (bytes : Text → ℕ → Text) (u : List Text × Upload) : Parcel :=
  ⟨u.1, bytes u.2.localName u.2.length.toNat, u.2.mode, u.2.flags⟩

def Aside (p q : List Text) : Prop := ¬ p <+: q ∧ ¬ q <+: p

theorem Aside.mono {p q p' q' : List Text} (h : Aside p q) (hp : p <+: p') (hq : q <+: q') : Aside p' q' := by
  constructor
  · intro hpq
    rcases List.prefix_or_prefix_of_prefix (hp.trans hpq) hq with h' | h'
    · exact h.1 h'
    · exact h.2 h'
  · intro hqp
    rcases List.prefix_or_prefix_of_prefix (hq.trans hqp) hp with h' | h'
    · exact h.2 h'
    · exact h.1 h'

/-- A stretch of the history, the files it tells of, and the paths below which
they go. -/
structure Conveys (k : Key) (bytes : Text → ℕ → Text) (roots : List (List Text)) (es : List Event)
    (us : List (List Text × Upload)) : Prop where
  uploads : ∀ es', uploads (es ++ es') = us.map Prod.snd ++ Inputs.uploads es'
  written : es.flatMap (written k bytes) = us.flatMap (fun u ↦ (parcel bytes u).text)
  below : ∀ u ∈ us, ∃ r ∈ roots, r <+: u.1
  good : ∀ u ∈ us, ∀ c ∈ u.1, Good c
  apart : us.Pairwise (fun u u' ↦ Aside u.1 u'.1)
  sent : ∀ u ∈ us, u.2.remoteName = spell u.1 ∧ u.2.mode < 2 ^ 32 ∧
    .sent k (.put u.2.remoteName u.2.length u.2.mode u.2.flags) ∈ es
  streamed : ∀ u ∈ us, 0 ≤ u.2.length ∧ .streamed k u.2.localName u.2.remoteName u.2.length u.2.length ∈ es

namespace Conveys

variable {bytes : Text → ℕ → Text} {R R' : List (List Text)} {es es' : List Event} {us us' : List (List Text × Upload)}

theorem nil : Conveys k bytes R [] [] where
  uploads _ := rfl
  written := rfl
  below _ h := absurd h List.not_mem_nil
  good _ h := absurd h List.not_mem_nil
  apart := .nil
  sent _ h := absurd h List.not_mem_nil
  streamed _ h := absurd h List.not_mem_nil

theorem append (h : Conveys k bytes R es us) (h' : Conveys k bytes R' es' us')
    (hr : ∀ r ∈ R, ∀ r' ∈ R', Aside r r') : Conveys k bytes (R ++ R') (es ++ es') (us ++ us') where
  uploads fs := by rw [List.append_assoc, h.uploads, h'.uploads, List.map_append, List.append_assoc]
  written := by rw [List.flatMap_append, List.flatMap_append, h.written, h'.written]
  below u hu := by
    rcases List.mem_append.mp hu with hu | hu
    · obtain ⟨r, hr, hru⟩ := h.below u hu
      exact ⟨r, List.mem_append_left _ hr, hru⟩
    · obtain ⟨r, hr, hru⟩ := h'.below u hu
      exact ⟨r, List.mem_append_right _ hr, hru⟩
  good u hu := (List.mem_append.mp hu).elim (h.good u) (h'.good u)
  apart := by
    refine List.pairwise_append.mpr ⟨h.apart, h'.apart, fun u hu u' hu' ↦ ?_⟩
    obtain ⟨r, hR, hru⟩ := h.below u hu
    obtain ⟨r', hR', hru'⟩ := h'.below u' hu'
    exact (hr r hR r' hR').mono hru hru'
  sent u hu := by
    rcases List.mem_append.mp hu with hu | hu
    · exact ⟨(h.sent u hu).1, (h.sent u hu).2.1, List.mem_append_left _ (h.sent u hu).2.2⟩
    · exact ⟨(h'.sent u hu).1, (h'.sent u hu).2.1, List.mem_append_right _ (h'.sent u hu).2.2⟩
  streamed u hu := by
    rcases List.mem_append.mp hu with hu | hu
    · exact ⟨(h.streamed u hu).1, List.mem_append_left _ (h.streamed u hu).2⟩
    · exact ⟨(h'.streamed u hu).1, List.mem_append_right _ (h'.streamed u hu).2⟩

theorem listed {name : Text} {names : List Text} (h : Conveys k bytes R es us) :
    Conveys k bytes R (.listed k name names :: es) us where
  uploads fs := (h.uploads fs : _)
  written := h.written
  below := h.below
  good := h.good
  apart := h.apart
  sent u hu := ⟨(h.sent u hu).1, (h.sent u hu).2.1, List.mem_cons_of_mem _ (h.sent u hu).2.2⟩
  streamed u hu := ⟨(h.streamed u hu).1, List.mem_cons_of_mem _ (h.streamed u hu).2⟩

theorem file (hb : ∀ l n, (bytes l n).length = n) {localName : Text} {path : List Text} {length mode : ℕ}
    (hm : mode < 2 ^ 32) (hp : ∀ c ∈ path, Good c) :
    Conveys k bytes [path] [.sent k (.put (spell path) length mode flags),
        .streamed k localName (spell path) length length] [(path, ⟨localName, spell path, length, mode, flags⟩)] where
  uploads _ := rfl
  written := by
    rw [List.flatMap_cons, List.flatMap_singleton, List.flatMap_singleton, Parcel.text, Parcel.line, Inputs.written,
      Inputs.written, if_pos rfl, if_pos rfl, text_put, List.append_assoc]
    show _ = putLine (spell path) ((bytes localName (length : ℤ).toNat).length : ℤ) mode flags ++ _
    rw [hb, Int.toNat_natCast]
    rfl
  below u hu := by
    rw [List.mem_singleton.mp hu]
    exact ⟨path, List.mem_singleton_self _, List.prefix_rfl⟩
  good u hu := by
    rw [List.mem_singleton.mp hu]
    exact hp
  apart := List.pairwise_singleton _ _
  sent u hu := by
    rw [List.mem_singleton.mp hu]
    exact ⟨rfl, hm, List.mem_cons_self⟩
  streamed u hu := by
    rw [List.mem_singleton.mp hu]
    exact ⟨Int.natCast_nonneg _, List.mem_cons_of_mem _ (List.mem_singleton_self _)⟩

end Conveys

section Conveying

variable {bytes : Text → ℕ → Text}

end Conveying

def placed (v : Process) (bytes : Text → ℕ → Text) (u : Upload) : List Text × Contents :=
  (v.workspace ++ "cache".toList :: components u.remoteName,
    ⟨bytes u.localName u.length.toNat, newMode v u.mode⟩)

/-- A worker that does not know the name yet, in its cache or beside it. -/
structure Fresh (v : Process) (d : Disk) (name : Text) : Prop where
  workspace : d.entry v.workspace = some .directory
  cache : d.entry (v.workspace ++ ["cache".toList]) = none ∨ d.entry (v.workspace ++ ["cache".toList]) = some .directory
  beside : d.entry (v.workspace ++ [name]) = none
  inside : d.entry (v.workspace ++ ["cache".toList, name]) = none

section Arrival

variable {v : Process} {d : Disk} {name : Text} {path : List Text}

theorem legible_spell (hne : path ≠ []) (hp : ∀ c ∈ path, Streaming.Legible c) : Streaming.Legible (spell path) := by
  obtain ⟨dirs, c, rfl⟩ : ∃ dirs c, path = dirs ++ [c] := ⟨_, _, (List.dropLast_append_getLast hne).symm⟩
  have hc := hp c (by simp)
  have hmem : ∀ x ∈ lead dirs ++ c, isSpace x = false ∧ x ≠ '\x00' := by
    intro x hx
    rcases List.mem_append.mp hx with hx | hx
    · obtain ⟨y, hy, hx⟩ := List.mem_flatMap.mp hx
      have hy := hp y (List.mem_append_left _ hy)
      rcases List.mem_append.mp hx with hx | hx
      · exact ⟨hy.1.2 x hx, fun h ↦ hy.2 (h ▸ hx)⟩
      · rw [List.mem_singleton.mp hx]
        decide
    · exact ⟨hc.1.2 x hx, fun h ↦ hc.2 (h ▸ hx)⟩
  rw [spell_concat]
  refine ⟨⟨by simp [hc.1.1], fun x hx ↦ (hmem x hx).1⟩, fun h ↦ (hmem _ h).2 rfl⟩

theorem Conveys.prefix_path {bytes : Text → ℕ → Text} {es : List Event} {us : List (List Text × Upload)}
    (h : Conveys k bytes [[name]] es us) {u : List Text × Upload} (hu : u ∈ us) : [name] <+: u.1 := by
  obtain ⟨r, hr, hru⟩ := h.below u hu
  rwa [List.mem_singleton.mp hr] at hru

theorem Conveys.path_ne_nil {bytes : Text → ℕ → Text} {es : List Event} {us : List (List Text × Upload)}
    (h : Conveys k bytes [[name]] es us) {u : List Text × Upload} (hu : u ∈ us) : u.1 ≠ [] := by
  obtain ⟨t, ht⟩ := h.prefix_path hu
  rw [← ht]
  exact List.cons_ne_nil _ _

theorem Conveys.length_content {bytes : Text → ℕ → Text} {es : List Event} {us : List (List Text × Upload)}
    (h : Conveys k bytes [[name]] es us) (hb : ∀ l n, (bytes l n).length = n)
    {u : List Text × Upload} (hu : u ∈ us) : ((parcel bytes u).content.length : ℤ) = u.2.length := by
  show ((bytes _ _).length : ℤ) = _
  rw [hb, Int.toNat_of_nonneg (h.streamed u hu).1]

theorem Conveys.fits {bytes : Text → ℕ → Text} {es : List Event} {us : List (List Text × Upload)}
    (h : Conveys k bytes [[name]] es us) (hb : ∀ l n, (bytes l n).length = n)
    (hshort : ∀ msg, .sent k msg ∈ es → (text msg).length ≤ workQueueLineMax)
    (hsize : ∀ l r length actual, .streamed k l r length actual ∈ es → length < 2 ^ 63)
    {u : List Text × Upload} (hu : u ∈ us) : (parcel bytes u).Fits := by
  obtain ⟨hremote, hmode, hsent⟩ := h.sent u hu
  have hlen := h.length_content hb hu
  have hlt := hsize _ _ _ _ (h.streamed u hu).2
  have hline : (parcel bytes u).line ++ ['\n'] = text (.put u.2.remoteName u.2.length u.2.mode u.2.flags) := by
    rw [text_put, Parcel.line, hlen, hremote]
    rfl
  refine ⟨h.path_ne_nil hu, fun c hc ↦ (h.good u hu c hc).1, ?_, ?_, hmode, by omega⟩
  · exact legible_spell (h.path_ne_nil hu) (fun c hc ↦ (h.good u hu c hc).2)
  · have hle := hshort _ hsent
    rw [← hline, List.length_append, List.length_singleton] at hle
    omega

end Arrival

def nested : Environment :=
  { Agreement.silence with
    answers := fun i ↦ { Agreement.silence.answers i with
      stat := some ⟨0, 3, 0o755, i = 7⟩
      opened := true
      moved := 3
      names := if i = 0 then [".".toList, "..".toList, "f".toList, "e".toList] else [".".toList, "..".toList] } }

def spacious : Process := ⟨["w".toList], 0o022, fun _ ↦ 0, 0, fun _ ↦ 100, id, fun _ ↦ .refl _⟩

def emptyCache : Disk :=
  (((Volume.empty ⟨[], 0⟩).mkdir ["w".toList]).bind (·.mkdir ["w".toList, "cache".toList])).getD
    (Volume.empty ⟨[], 0⟩)

end Cyque.Inputs
