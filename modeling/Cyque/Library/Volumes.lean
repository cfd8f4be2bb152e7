import Mathlib.Data.List.Infix
import Mathlib.Data.List.Nodup
import Mathlib.Logic.Function.Basic
import Mathlib.Tactic.Common

namespace Cyque.Library.Volumes

inductive Entry
  | directory
  | file (inode : ℕ)
deriving DecidableEq

/-- Directories and files by the names on the way to them. More than one way
may lead to a file. -/
structure Volume (α β : Type) [DecidableEq α] where
  entries : List (List α × Entry)
  inodes : ℕ → β
  next : ℕ
  root : entries.lookup [] = some .directory
  parents : ∀ p, p ≠ [] → (entries.lookup p).isSome → entries.lookup p.dropLast = some .directory
  known : ∀ p i, entries.lookup p = some (.file i) → i < next
  nodup : (entries.map Prod.fst).Nodup

inductive Seen (β : Type)
  | directory
  | content (b : β)
deriving DecidableEq

namespace Volume

variable {α β : Type} [DecidableEq α] {v v' v₁ : Volume α β} {p q : List α} {b : β} {i : ℕ}

def entry (v : Volume α β) (p : List α) : Option Entry := v.entries.lookup p

def seen (v : Volume α β) : Entry → Seen β
  | .directory => .directory
  | .file i => .content (v.inodes i)

def see (v : Volume α β) (p : List α) : Option (Seen β) := (v.entry p).map v.seen

theorem lookup_cons_ite {es : List (List α × Entry)} {e : Entry} :
    ((q, e) :: es).lookup p = if p = q then some e else es.lookup p := by
  rw [List.lookup_cons]
  by_cases h : p = q
  · rw [beq_iff_eq.mpr h, if_pos h]
  · rw [beq_eq_false_iff_ne.mpr h, if_neg h]

/-- A new entry for a name that is free, in a directory. -/
def add (v : Volume α β) (q : List α) (e : Entry) (inodes : ℕ → β) (next : ℕ)
    (hd : q ≠ [] ∧ v.entry q.dropLast = some .directory ∧ v.entry q = none)
    (hn : v.next ≤ next ∧ ∀ i, e = .file i → i < next) : Volume α β where
  entries := (q, e) :: v.entries
  inodes := inodes
  next := next
  root := by
    rw [lookup_cons_ite, if_neg (Ne.symm hd.1)]
    exact v.root
  parents p hp hs := by
    have hne : p.dropLast ≠ q := by
      intro hq
      rw [lookup_cons_ite] at hs
      by_cases hpq : p = q
      · have hlen := congrArg List.length (hq.trans hpq.symm)
        have := List.length_pos_of_ne_nil hp
        rw [List.length_dropLast] at hlen
        omega
      · rw [if_neg hpq] at hs
        have hdir := v.parents p hp hs
        rw [hq] at hdir
        exact absurd (hd.2.2.symm.trans hdir) nofun
    rw [lookup_cons_ite, if_neg hne]
    rw [lookup_cons_ite] at hs
    by_cases hpq : p = q
    · rw [hpq]
      exact hd.2.1
    · rw [if_neg hpq] at hs
      exact v.parents p hp hs
  known p i h := by
    rw [lookup_cons_ite] at h
    split at h
    · exact hn.2 i (Option.some.inj h)
    · exact Nat.lt_of_lt_of_le (v.known p i h) hn.1
  nodup := by
    refine List.nodup_cons.mpr ⟨fun hq ↦ ?_, v.nodup⟩
    obtain ⟨f, hf, rfl⟩ := List.mem_map.mp hq
    have hne := List.lookup_eq_none_iff.mp hd.2.2 f hf
    simp at hne

instance (v : Volume α β) (q : List α) :
    Decidable (q ≠ [] ∧ v.entry q.dropLast = some .directory ∧ v.entry q = none) :=
  inferInstanceAs (Decidable (_ ∧ _ ∧ _))

def mkdir (v : Volume α β) (q : List α) : Option (Volume α β) :=
  if h : q ≠ [] ∧ v.entry q.dropLast = some .directory ∧ v.entry q = none then
    some (v.add q .directory v.inodes v.next h ⟨Nat.le_refl _, nofun⟩)
  else none

def create (v : Volume α β) (q : List α) (b : β) : Option (Volume α β) :=
  if h : q ≠ [] ∧ v.entry q.dropLast = some .directory ∧ v.entry q = none then
    some (v.add q (.file v.next) (Function.update v.inodes v.next b) (v.next + 1) h
      ⟨Nat.le_succ _, fun _ h ↦ by cases h; exact Nat.lt_succ_self _⟩)
  else none

def link (v : Volume α β) (p q : List α) : Option (Volume α β) :=
  match hp : v.entry p with
  | some (.file i) =>
    if h : q ≠ [] ∧ v.entry q.dropLast = some .directory ∧ v.entry q = none then
      some (v.add q (.file i) v.inodes v.next h ⟨Nat.le_refl _, fun _ h ↦ by cases h; exact v.known p i hp⟩)
    else none
  | _ => none

def children (v : Volume α β) (p : List α) : List α :=
  (v.entries.map Prod.fst).filterMap (fun q ↦ if q ≠ [] ∧ q.dropLast = p then q.getLast? else none)

def rewrite (v : Volume α β) (i : ℕ) (b : β) : Volume α β :=
  { v with inodes := Function.update v.inodes i b }

def empty (b : β) : Volume α β where
  entries := [([], .directory)]
  inodes := fun _ ↦ b
  next := 0
  root := rfl
  parents p hp hs := by
    rw [lookup_cons_ite, if_neg hp] at hs
    cases hs
  known p i h := by
    rw [lookup_cons_ite] at h
    split at h <;> cases h
  nodup := List.pairwise_singleton _ _

@[simp] theorem entry_nil : v.entry [] = some .directory := v.root

theorem entry_add {e : Entry} {inodes : ℕ → β} {n : ℕ}
    (hd : q ≠ [] ∧ v.entry q.dropLast = some .directory ∧ v.entry q = none)
    (hn : v.next ≤ n ∧ ∀ i, e = .file i → i < n) :
    (v.add q e inodes n hd hn).entry p = if p = q then some e else v.entry p :=
  lookup_cons_ite

theorem entry_of_prefix (h : p <+: q) (hne : p ≠ q) (hq : (v.entry q).isSome) : v.entry p = some .directory := by
  obtain ⟨t, rfl⟩ := h
  induction t using List.reverseRecOn with
  | nil => exact absurd (List.append_nil p).symm hne
  | append_singleton t x ih =>
    rw [← List.append_assoc] at hq
    have hdir := v.parents (p ++ t ++ [x]) (by simp) hq
    rw [List.dropLast_concat] at hdir
    by_cases ht : t = []
    · rw [ht, List.append_nil] at hdir
      exact hdir
    · refine ih (fun h ↦ ht (List.self_eq_append_right.mp h)) ?_
      exact Option.isSome_iff_exists.mpr ⟨_, hdir⟩

theorem entry_eq_none_below (h : p <+: q) (hp : v.entry p = none) : v.entry q = none := by
  by_contra hq
  by_cases hne : p = q
  · exact hq (hne ▸ hp)
  · have := entry_of_prefix h hne (Option.isSome_iff_ne_none.mpr hq)
    rw [hp] at this
    cases this

theorem entry_below_file (hp : v.entry p = some (.file i)) {t : List α} (ht : t ≠ []) : v.entry (p ++ t) = none := by
  by_contra hne
  have hdir := entry_of_prefix (List.prefix_append p t) (fun h ↦ ht (List.self_eq_append_right.mp h))
    (Option.isSome_iff_ne_none.mpr hne)
  rw [hp] at hdir
  cases hdir

theorem ne_nil_of_entry_eq_none (hq : v.entry q = none) : q ≠ [] := by
  rintro rfl
  rw [entry_nil] at hq
  cases hq

theorem exists_mkdir (hd : v.entry q.dropLast = some .directory) (hq : v.entry q = none) :
    ∃ v', v.mkdir q = some v' ∧ v'.inodes = v.inodes ∧
      ∀ p, v'.entry p = if p = q then some .directory else v.entry p :=
  ⟨_, dif_pos ⟨ne_nil_of_entry_eq_none hq, hd, hq⟩, rfl, fun _ ↦ entry_add _ _⟩

theorem exists_link (hp : v.entry p = some (.file i)) (hd : v.entry q.dropLast = some .directory)
    (hq : v.entry q = none) :
    ∃ v', v.link p q = some v' ∧ v'.inodes = v.inodes ∧
      ∀ r, v'.entry r = if r = q then some (.file i) else v.entry r := by
  have hcond := And.intro (ne_nil_of_entry_eq_none hq) (And.intro hd hq)
  refine ⟨v.add q (.file i) v.inodes v.next hcond ⟨Nat.le_refl _, fun _ h ↦ by cases h; exact v.known p i hp⟩, ?_,
    rfl, fun _ ↦ entry_add _ _⟩
  unfold link
  split
  · rename_i j hj
    obtain rfl : j = i := by
      rw [hp] at hj
      cases hj
      rfl
    exact dif_pos hcond
  · rename_i hno
    exact absurd hp (hno i)

theorem see_eq (hi : v'.inodes = v.inodes) (he : v'.entry p = v.entry q) : v'.see p = v.see q := by
  have hseen : v'.seen = v.seen := by
    funext e
    cases e with
    | directory => rfl
    | file i => rw [seen, seen, hi]
  rw [see, see, he, hseen]

theorem entry_isSome_iff : (v.entry p).isSome ↔ ∃ x ∈ v.entries, x.1 = p := by
  rw [entry, List.lookup_isSome_iff]
  simp only [beq_iff_eq, Eq.comm (a := p)]

theorem eq_concat_of_child {c : α} (h : (if q ≠ [] ∧ q.dropLast = p then q.getLast? else none) = some c) :
    q = p ++ [c] := by
  rw [Option.ite_none_right_eq_some] at h
  obtain ⟨⟨-, rfl⟩, h⟩ := h
  exact (List.dropLast_append_getLast? c h).symm

theorem mem_children {c : α} : c ∈ v.children p ↔ (v.entry (p ++ [c])).isSome := by
  rw [children, List.mem_filterMap, entry_isSome_iff]
  constructor
  · rintro ⟨q, hq, hc⟩
    obtain ⟨e, he, rfl⟩ := List.mem_map.mp hq
    exact ⟨e, he, eq_concat_of_child hc⟩
  · rintro ⟨e, he, hc⟩
    refine ⟨e.1, List.mem_map_of_mem he, ?_⟩
    rw [hc, if_pos (by simp)]
    simp

theorem nodup_children : (v.children p).Nodup := by
  refine List.Nodup.filterMap (fun q q' c hq hq' ↦ ?_) v.nodup
  rw [eq_concat_of_child hq, eq_concat_of_child hq']

theorem exists_create (hd : v.entry q.dropLast = some .directory) (hq : v.entry q = none) (b : β) :
    ∃ v', v.create q b = some v' ∧
      ∀ c p, (v'.rewrite v.next c).see p = if p = q then some (.content c) else v.see p := by
  refine ⟨_, dif_pos ⟨ne_nil_of_entry_eq_none hq, hd, hq⟩, fun c p ↦ ?_⟩
  have hentry : ∀ w : Volume α β, (w.rewrite v.next c).entry p = w.entry p := fun _ ↦ rfl
  rw [see, hentry, entry_add]
  by_cases h : p = q
  · rw [if_pos h, if_pos h]
    exact congrArg (fun x ↦ some (Seen.content x)) (Function.update_self ..)
  · rw [if_neg h, if_neg h, see]
    cases he : v.entry p with
    | none => rfl
    | some e =>
      cases e with
      | directory => rfl
      | file i =>
        have hi : i ≠ v.next := Nat.ne_of_lt (v.known p i he)
        refine congrArg (fun x ↦ some (Seen.content x)) ?_
        exact (Function.update_of_ne hi ..).trans (Function.update_of_ne hi ..)

/-- A file may be put under a path that is free, below directories or what is
not there yet. -/
def Open (v : Volume α β) (q : List α) : Prop :=
  v.entry q = none ∧ ∀ p, p <+: q → p ≠ q → v.entry p = none ∨ v.entry p = some .directory

def Apart (f g : List α × β) : Prop := ¬ f.1 <+: g.1 ∧ ¬ g.1 <+: f.1

/-- What one place has is found at another one too, with the directories on the
way to it. -/
def graft (v : Volume α β) (p q r : List α) : Option Entry :=
  if q <+: r then v.entry (p ++ r.drop q.length) else if r <+: q then some .directory else v.entry r

/-- The same as far as the names that were done. -/
def sown (v : Volume α β) (p : List α) (done : List α) : List α → Option Entry
  | [] => some .directory
  | c :: t => if c ∈ done then v.entry (p ++ c :: t) else none

structure Grafted (v v' : Volume α β) (p q : List α) (done : List α) : Prop where
  inodes : v'.inodes = v.inodes
  entry : ∀ r, v'.entry r =
    if q <+: r then v.sown p done (r.drop q.length) else if r <+: q then some .directory else v.entry r

theorem sown_eq_entry {done : List α} (hp : v.entry p = some .directory)
    (hd : ∀ c, (v.entry (p ++ [c])).isSome → c ∈ done) (t : List α) : v.sown p done t = v.entry (p ++ t) := by
  cases t with
  | nil => rw [sown, List.append_nil, hp]
  | cons c t =>
    rw [sown]
    split
    · rfl
    · rename_i hc
      refine (entry_eq_none_below (p := p ++ [c]) ⟨t, by simp⟩ ?_).symm
      by_contra hne
      exact hc (hd c (Option.isSome_iff_ne_none.mpr hne))

theorem Grafted.graft {done : List α} (h : Grafted v v' p q done) (hp : v.entry p = some .directory)
    (hd : ∀ c, (v.entry (p ++ [c])).isSome → c ∈ done) (r : List α) : v'.entry r = v.graft p q r := by
  rw [h.entry, sown_eq_entry hp hd]
  rfl

theorem graft_file (hp : v.entry p = some (.file i)) (hq : v.entry q = none) (r : List α) :
    v.graft p q r = if r = q then some (.file i) else if r <+: q then some .directory else v.entry r := by
  rw [Volume.graft]
  by_cases hqr : q <+: r
  · obtain ⟨t, rfl⟩ := hqr
    rw [if_pos (List.prefix_append q t), List.drop_left]
    by_cases ht : t = []
    · rw [ht, List.append_nil, List.append_nil, if_pos rfl, hp]
    · have hne : q ++ t ≠ q := fun h ↦ ht (List.append_right_eq_self.mp h)
      have hlong : ¬ q ++ t <+: q := fun h ↦ hne ((List.prefix_append q t).eq_of_length_le h.length_le).symm
      rw [if_neg hne, if_neg hlong, entry_below_file hp ht, entry_eq_none_below (List.prefix_append q t) hq]
  · have hne : r ≠ q := fun h ↦ hqr (h ▸ List.prefix_rfl)
    rw [if_neg hqr, if_neg hne]

theorem Grafted.entry_source {done : List α} (h : Grafted v v' p q done) (hp : ¬ p <+: q) (hq : ¬ q <+: p)
    (t : List α) : v'.entry (p ++ t) = v.entry (p ++ t) := by
  have hleft : ¬ q <+: p ++ t := by
    intro hpre
    rcases List.prefix_or_prefix_of_prefix hpre (List.prefix_append p t) with h' | h'
    · exact hq h'
    · exact hp h'
  have hright : ¬ p ++ t <+: q := fun hpre ↦ hp ((List.prefix_append p t).trans hpre)
  rw [h.entry, if_neg hleft, if_neg hright]

theorem Grafted.step {done : List α} {c : α} (h : Grafted v v₁ p q done) (hp : ¬ p <+: q) (hq : ¬ q <+: p)
    (hi : v'.inodes = v₁.inodes) (he : ∀ r, v'.entry r = v₁.graft (p ++ [c]) (q ++ [c]) r) :
    Grafted v v' p q (c :: done) := by
  refine ⟨hi.trans h.inodes, fun r ↦ ?_⟩
  rw [he, Volume.graft]
  by_cases hqr : q <+: r
  · obtain ⟨t, rfl⟩ := hqr
    rw [if_pos (List.prefix_append _ _), List.drop_left]
    simp only [List.prefix_append_right_inj]
    cases t with
    | nil =>
      rw [if_neg (by simp), if_pos List.nil_prefix, sown]
    | cons x t =>
      by_cases hx : c = x
      · subst hx
        rw [if_pos ⟨t, rfl⟩, sown, if_pos List.mem_cons_self, List.length_append, ← List.drop_drop, List.drop_left,
          List.append_assoc, h.entry_source hp hq]
        rfl
      · have hnot : ¬ [c] <+: x :: t := fun hc ↦ hx (List.cons_prefix_cons.mp hc).1
        have hnot' : ¬ x :: t <+: [c] := fun hc ↦ hx (List.cons_prefix_cons.mp hc).1.symm
        rw [if_neg hnot, if_neg hnot', h.entry, if_pos (List.prefix_append _ _), List.drop_left, sown, sown]
        simp only [List.mem_cons, Ne.symm hx, false_or]
  · have hnot : ¬ q ++ [c] <+: r := fun hc ↦ hqr ((List.prefix_append q [c]).trans hc)
    rw [if_neg hnot, if_neg hqr]
    have hiff : r <+: q ++ [c] ↔ r <+: q := by
      rw [List.prefix_concat_iff]
      refine or_iff_right ?_
      rintro rfl
      exact hqr (List.prefix_append _ _)
    by_cases hr : r <+: q
    · rw [if_pos (hiff.mpr hr), if_pos hr]
    · rw [if_neg (mt hiff.mp hr), if_neg hr, h.entry, if_neg hqr, if_neg hr]

theorem graft_of_not_prefix {r : List α} (h : ¬ q <+: r) (h' : ¬ r <+: q) : v.graft p q r = v.entry r := by
  rw [graft, if_neg h, if_neg h']

end Volume

end Cyque.Library.Volumes
