import Mathlib.Data.List.Nodup
import Mathlib.Data.List.Perm.Basic
import Mathlib.Tactic.Common

namespace Cyque.Library.Lookup

variable {κ α β : Type}

/-- A chained hash table, flattened: the entries of bucket 0, then those of
bucket 1, and so on. The table has one traversal cursor of its own, the key of
the entry a traversal returns next. -/
structure Table (κ α : Type) where
  hash : κ → ℕ
  bucketCount : ℕ
  entries : List (κ × α)
  cursor : Option κ
  nodup : (entries.map Prod.fst).Nodup

namespace Table

def empty (hash : κ → ℕ) : Table κ α := ⟨hash, 127, [], none, List.nodup_nil⟩

def keys (t : Table κ α) : List κ := t.entries.map Prod.fst

def values (t : Table κ α) : List α := t.entries.map Prod.snd

def size (t : Table κ α) : ℕ := t.entries.length

/-- A new entry goes to the front of its bucket. -/
def place (bucket : κ → ℕ) (e : κ × α) : List (κ × α) → List (κ × α)
  | [] => [e]
  | d :: ds => if bucket e.1 ≤ bucket d.1 then e :: d :: ds else d :: place bucket e ds

theorem place_perm (bucket : κ → ℕ) (e : κ × α) (es : List (κ × α)) :
    (place bucket e es).Perm (e :: es) := by
  induction es with
  | nil => exact .refl _
  | cons d ds ih =>
    unfold place
    split
    · exact .refl _
    · exact (ih.cons d).trans (.swap e d ds)

theorem place_append (bucket : κ → ℕ) (e : κ × α) {as bs : List (κ × α)}
    (ha : ∀ d ∈ as, bucket d.1 < bucket e.1) (hb : ∀ d ∈ bs, bucket e.1 ≤ bucket d.1) :
    place bucket e (as ++ bs) = as ++ e :: bs := by
  induction as with
  | nil =>
    cases bs with
    | nil => rfl
    | cons d bs => exact if_pos (hb d List.mem_cons_self)
  | cons d as ih =>
    have hd := ha d List.mem_cons_self
    rw [List.cons_append, place, if_neg (by omega), ih (fun d hd ↦ ha d (List.mem_cons_of_mem _ hd))]
    rfl

/-- Doubling the buckets visits the entries in order and moves each one to the
front of its new bucket. -/
def rehash (bucket : κ → ℕ) (es : List (κ × α)) : List (κ × α) :=
  es.foldl (fun ds e ↦ place bucket e ds) []

theorem rehash_perm (bucket : κ → ℕ) (es : List (κ × α)) : (rehash bucket es).Perm es := by
  have h : ∀ ds : List (κ × α),
      (es.foldl (fun ds e ↦ place bucket e ds) ds).Perm (es ++ ds) := by
    induction es with
    | nil => exact fun ds ↦ .refl _
    | cons e es ih =>
      intro ds
      refine (ih (place bucket e ds)).trans ?_
      exact ((place_perm bucket e ds).append_left es).trans List.perm_middle
  exact (h []).trans (by rw [List.append_nil])

/-- The table doubles its buckets when more than three quarters full, which
drives the cursor to the end. -/
def grow (t : Table κ α) : Table κ α :=
  if 3 * t.bucketCount < 4 * t.entries.length then
    { hash := t.hash
      bucketCount := 2 * t.bucketCount
      entries := rehash (fun k ↦ t.hash k % (2 * t.bucketCount)) t.entries
      cursor := none
      nodup := ((rehash_perm _ t.entries).map Prod.fst).nodup_iff.mpr t.nodup }
  else t

theorem grow_perm (t : Table κ α) : t.grow.entries.Perm t.entries := by
  unfold grow
  split
  · exact rehash_perm _ _
  · exact .refl _

theorem mem_keys_grow (t : Table κ α) (k : κ) : k ∈ t.grow.keys ↔ k ∈ t.keys :=
  ((grow_perm t).map Prod.fst).mem_iff

@[simp] theorem size_grow (t : Table κ α) : t.grow.size = t.size := (grow_perm t).length_eq

def firstKey (t : Table κ α) : Table κ α := { t with cursor := t.keys.head? }

def exhaust (t : Table κ α) : Table κ α := { t with cursor := none }

/-- A traversal in progress that has still to return the keys `rest`. -/
def Traversal (t : Table κ α) (rest : List κ) : Prop :=
  ∃ seen, t.keys = seen ++ rest ∧ t.cursor = rest.head?

theorem traversal_firstKey (t : Table κ α) : t.firstKey.Traversal t.keys := ⟨[], rfl, rfl⟩

def map (f : α → β) (t : Table κ α) : Table κ β where
  hash := t.hash
  bucketCount := t.bucketCount
  entries := t.entries.map (fun e ↦ (e.1, f e.2))
  cursor := t.cursor
  nodup := by
    rw [List.map_map]
    exact t.nodup

@[simp] theorem size_map (f : α → β) (t : Table κ α) : (t.map f).size = t.size := List.length_map _

variable [DecidableEq κ]

def lookup (t : Table κ α) (k : κ) : Option α := t.entries.lookup k

def add (t : Table κ α) (k : κ) (a : α) (h : k ∉ t.keys) : Table κ α where
  hash := t.hash
  bucketCount := t.bucketCount
  entries := place (fun j ↦ t.hash j % t.bucketCount) (k, a) t.entries
  cursor := t.cursor
  nodup := by
    rw [((place_perm _ (k, a) t.entries).map Prod.fst).nodup_iff]
    exact List.nodup_cons.mpr ⟨h, t.nodup⟩

/-- Change the value under a key in place. -/
def alter (t : Table κ α) (k : κ) (f : α → α) : Table κ α where
  hash := t.hash
  bucketCount := t.bucketCount
  entries := t.entries.map (fun e ↦ if e.1 = k then (e.1, f e.2) else e)
  cursor := t.cursor
  nodup := by
    have h : (t.entries.map (fun e ↦ if e.1 = k then (e.1, f e.2) else e)).map Prod.fst =
        t.entries.map Prod.fst := by
      rw [List.map_map]
      refine List.map_congr_left (fun e _ ↦ ?_)
      simp only [Function.comp_apply]
      split <;> rfl
    rw [h]
    exact t.nodup

/-- Insertion that overwrites the value of a key that is there already. -/
def insert (t : Table κ α) (k : κ) (a : α) : Table κ α :=
  if h : k ∈ t.grow.keys then t.grow.alter k (fun _ ↦ a) else t.grow.add k a h

/-- Insertion that leaves a key that is there already alone. -/
def insertNew (t : Table κ α) (k : κ) (a : α) : Table κ α :=
  if h : k ∈ t.grow.keys then t.grow else t.grow.add k a h

def remove (t : Table κ α) (k : κ) : Table κ α where
  hash := t.hash
  bucketCount := t.bucketCount
  entries := t.entries.filter (fun e ↦ e.1 ≠ k)
  cursor := t.cursor
  nodup := t.nodup.sublist (List.filter_sublist.map Prod.fst)

/-- The entry at the cursor, and the table with the cursor on the next one. The
outer `none` is a cursor on an entry that was removed. -/
def nextKey (t : Table κ α) : Option (Option (κ × α) × Table κ α) :=
  match t.cursor with
  | none => some (none, t)
  | some k =>
    match t.entries.dropWhile (fun e ↦ e.1 ≠ k) with
    | [] => none
    | e :: es => some (some e, { t with cursor := (es.map Prod.fst).head? })

theorem mem_entries_iff (t : Table κ α) (k : κ) (a : α) :
    (k, a) ∈ t.entries ↔ t.lookup k = some a := by
  have h := t.nodup
  unfold lookup
  generalize t.entries = es at h
  induction es with
  | nil => simp
  | cons e es ih =>
    obtain ⟨j, b⟩ := e
    rw [List.map_cons, List.nodup_cons] at h
    by_cases hk : k = j
    · subst hk
      have hn : (k, a) ∉ es := fun hm ↦ h.1 (List.mem_map.mpr ⟨(k, a), hm, rfl⟩)
      simp only [List.mem_cons, Prod.mk.injEq, true_and, hn, or_false, List.lookup_cons_self,
        Option.some.injEq]
      exact eq_comm
    · rw [List.lookup_cons, beq_false_of_ne hk]
      simp [hk, ih h.2]

theorem lookup_eq_none_iff (t : Table κ α) (k : κ) : t.lookup k = none ↔ k ∉ t.keys := by
  rw [← not_iff_not, not_not, ← ne_eq, Option.ne_none_iff_exists']
  simp only [← mem_entries_iff, keys, List.mem_map, Prod.exists]
  constructor
  · rintro ⟨a, ha⟩
    exact ⟨k, a, ha, rfl⟩
  · rintro ⟨j, a, ha, rfl⟩
    exact ⟨a, ha⟩

theorem lookup_eq_some_keys {t : Table κ α} {k : κ} {a : α} (h : t.lookup k = some a) :
    k ∈ t.keys := List.mem_map.mpr ⟨(k, a), (mem_entries_iff t k a).mpr h, rfl⟩

theorem exists_lookup_of_mem_keys {t : Table κ α} {k : κ} (h : k ∈ t.keys) :
    ∃ a, t.lookup k = some a := by
  rw [← Option.ne_none_iff_exists']
  exact fun hn ↦ (lookup_eq_none_iff t k).mp hn h

theorem lookup_congr {t u : Table κ α} (h : t.entries.Perm u.entries) (k : κ) :
    t.lookup k = u.lookup k := by
  ext a
  rw [← mem_entries_iff, ← mem_entries_iff, h.mem_iff]

@[simp] theorem lookup_grow (t : Table κ α) (k : κ) : t.grow.lookup k = t.lookup k :=
  lookup_congr (grow_perm t) k

@[simp] theorem lookup_firstKey (t : Table κ α) (k : κ) : t.firstKey.lookup k = t.lookup k := rfl

@[simp] theorem lookup_exhaust (t : Table κ α) (k : κ) : t.exhaust.lookup k = t.lookup k := rfl

theorem lookup_add (t : Table κ α) (k j : κ) (a : α) (h : k ∉ t.keys) :
    (t.add k a h).lookup j = if j = k then some a else t.lookup j := by
  ext b
  rw [← mem_entries_iff]
  simp only [add, (place_perm _ (k, a) t.entries).mem_iff, List.mem_cons, Prod.mk.injEq]
  rw [mem_entries_iff]
  by_cases hj : j = k
  · subst hj
    simp [(lookup_eq_none_iff t j).mpr h, eq_comm]
  · simp [hj]

@[simp] theorem lookup_alter (t : Table κ α) (k j : κ) (f : α → α) :
    (t.alter k f).lookup j = if j = k then (t.lookup j).map f else t.lookup j := by
  ext b
  rw [← mem_entries_iff]
  simp only [alter, List.mem_map]
  constructor
  · rintro ⟨⟨i, c⟩, hm, he⟩
    rw [mem_entries_iff] at hm
    by_cases hi : i = k
    · simp only [hi, if_true, Prod.mk.injEq] at he hm
      obtain ⟨rfl, rfl⟩ := he
      simp [hm]
    · simp only [hi, if_false, Prod.mk.injEq] at he
      obtain ⟨rfl, rfl⟩ := he
      simp [hi, hm]
  · intro h
    by_cases hj : j = k
    · simp only [hj, if_true, Option.map_eq_some_iff] at h
      obtain ⟨c, hc, rfl⟩ := h
      exact ⟨(k, c), (mem_entries_iff t k c).mpr hc, by simp [hj]⟩
    · simp only [hj, if_false] at h
      exact ⟨(j, b), (mem_entries_iff t j b).mpr h, by simp [hj]⟩

@[simp] theorem lookup_insert (t : Table κ α) (k j : κ) (a : α) :
    (t.insert k a).lookup j = if j = k then some a else t.lookup j := by
  unfold insert
  split
  · rename_i h
    obtain ⟨b, hb⟩ := exists_lookup_of_mem_keys h
    rw [lookup_alter]
    by_cases hj : j = k
    · subst hj
      simp [hb]
    · simp [hj]
  · rw [lookup_add, lookup_grow]

@[simp] theorem lookup_insertNew (t : Table κ α) (k j : κ) (a : α) :
    (t.insertNew k a).lookup j = if j = k then some ((t.lookup k).getD a) else t.lookup j := by
  unfold insertNew
  split
  · rename_i h
    obtain ⟨b, hb⟩ := exists_lookup_of_mem_keys h
    rw [lookup_grow] at hb ⊢
    by_cases hj : j = k
    · subst hj
      simp [hb]
    · simp [hj]
  · rename_i h
    rw [mem_keys_grow, ← lookup_eq_none_iff] at h
    rw [lookup_add, lookup_grow, h]
    rfl

@[simp] theorem lookup_remove (t : Table κ α) (k j : κ) :
    (t.remove k).lookup j = if j = k then none else t.lookup j := by
  ext b
  rw [← mem_entries_iff]
  simp only [remove, List.mem_filter, mem_entries_iff, decide_not, Bool.not_eq_eq_eq_not,
    Bool.not_true, decide_eq_false_iff_not]
  by_cases hj : j = k <;> simp [hj]

theorem lookup_foldl_remove (ks : List κ) (t : Table κ α) (j : κ) :
    (ks.foldl remove t).lookup j = if j ∈ ks then none else t.lookup j := by
  induction ks generalizing t with
  | nil => rfl
  | cons k ks ih =>
    rw [List.foldl_cons, ih, lookup_remove]
    by_cases hj : j = k <;> simp [hj]

theorem lookup_foldl_remove_keys (t : Table κ α) (j : κ) : (t.keys.foldl remove t).lookup j = none := by
  rw [lookup_foldl_remove]
  split
  · rfl
  · rename_i hj
    exact (lookup_eq_none_iff t j).mpr hj

theorem mem_values_iff (t : Table κ α) (a : α) : a ∈ t.values ↔ ∃ k, t.lookup k = some a := by
  simp only [values, List.mem_map, Prod.exists, ← mem_entries_iff]
  constructor
  · rintro ⟨k, b, hb, rfl⟩
    exact ⟨k, hb⟩
  · rintro ⟨k, hk⟩
    exact ⟨k, a, hk, rfl⟩

theorem values_nodup (t : Table κ α) (f : α → κ) (h : ∀ k a, t.lookup k = some a → f a = k) :
    t.values.Nodup := by
  refine (List.Nodup.of_map Prod.fst t.nodup).map_on ?_
  rintro ⟨i, a⟩ hi ⟨j, b⟩ hj rfl
  rw [mem_entries_iff] at hi hj
  rw [← h i a hi, h j a hj]

theorem size_eq_zero_iff (t : Table κ α) : t.size = 0 ↔ ∀ k, t.lookup k = none := by
  rw [size, List.length_eq_zero_iff]
  constructor
  · intro h k
    rw [lookup, h, List.lookup_nil]
  · intro h
    rw [List.eq_nil_iff_forall_not_mem]
    rintro ⟨k, a⟩ hm
    rw [mem_entries_iff, h k] at hm
    cases hm

theorem size_insert (t : Table κ α) (k : κ) (a : α) (h : t.lookup k = none) :
    (t.insert k a).size = t.size + 1 := by
  have hk : k ∉ t.grow.keys := by rwa [mem_keys_grow, ← lookup_eq_none_iff]
  rw [insert, dif_neg hk, ← size_grow t]
  exact (place_perm _ (k, a) t.grow.entries).length_eq

theorem insert_perm (t : Table κ α) (k : κ) (a : α) (h : t.lookup k = none) :
    (t.insert k a).entries.Perm ((k, a) :: t.entries) := by
  have hk : k ∉ t.grow.keys := by rwa [mem_keys_grow, ← lookup_eq_none_iff]
  rw [insert, dif_neg hk]
  exact (place_perm _ (k, a) t.grow.entries).trans ((grow_perm t).cons _)

theorem remove_perm (t : Table κ α) {k : κ} {a : α} (h : t.lookup k = some a) :
    t.entries.Perm ((k, a) :: (t.remove k).entries) := by
  have hnd := t.nodup.of_map
  refine (List.perm_ext_iff_of_nodup hnd ?_).mpr ?_
  · refine List.nodup_cons.mpr ⟨?_, (t.remove k).nodup.of_map⟩
    rw [mem_entries_iff, lookup_remove, if_pos rfl]
    exact Option.some_ne_none a |>.symm
  · rintro ⟨j, b⟩
    rw [List.mem_cons, mem_entries_iff, mem_entries_iff, lookup_remove, Prod.mk.injEq]
    by_cases hj : j = k
    · subst hj
      simp [h, eq_comm]
    · simp [hj]

theorem insert_values_perm (t : Table κ α) (k : κ) (a : α) :
    ((t.lookup k).toList ++ (t.insert k a).values).Perm (a :: t.values) := by
  cases h : t.lookup k with
  | none => exact (t.insert_perm k a h).map Prod.snd
  | some b =>
    have hrest : ((t.insert k a).remove k).entries.Perm (t.remove k).entries := by
      refine (List.perm_ext_iff_of_nodup ((t.insert k a).remove k).nodup.of_map
        (t.remove k).nodup.of_map).mpr ?_
      rintro ⟨j, c⟩
      rw [mem_entries_iff, mem_entries_iff, lookup_remove, lookup_remove, lookup_insert]
      by_cases hj : j = k <;> simp [hj]
    have hnew := (remove_perm (t.insert k a) (k := k) (a := a) (by simp)).map Prod.snd
    have hold := (remove_perm t h).map Prod.snd
    have hswap : (b :: (t.insert k a).values).Perm (a :: b :: (t.remove k).values) :=
      ((hnew.trans ((hrest.map Prod.snd).cons a)).cons b).trans (.swap a b _)
    exact hswap.trans (hold.symm.cons a)

theorem size_remove (t : Table κ α) {k : κ} {a : α} (h : t.lookup k = some a) :
    (t.remove k).size + 1 = t.size :=
  (remove_perm t h).length_eq.symm

theorem size_lt_of_lookup (t u : Table κ α) (h : ∀ k, u.lookup k = none → t.lookup k = none) {k : κ}
    (hk : t.lookup k = none) (hu : u.lookup k ≠ none) : t.size < u.size := by
  have hsub : k :: t.keys ⊆ u.keys := by
    intro j hj
    by_contra hn
    have hj' := h j ((lookup_eq_none_iff u j).mpr hn)
    rcases List.mem_cons.mp hj with rfl | hj
    · exact hu ((lookup_eq_none_iff u j).mpr hn)
    · exact (lookup_eq_none_iff t j).mp hj' hj
  have hnd : (k :: t.keys).Nodup := List.nodup_cons.mpr ⟨(lookup_eq_none_iff t k).mp hk, t.nodup⟩
  have hle := (List.subperm_of_subset hnd hsub).length_le
  rw [List.length_cons, keys, keys, List.length_map, List.length_map] at hle
  exact hle

theorem nextKey_eq_some {t u : Table κ α} {o : Option (κ × α)} (h : t.nextKey = some (o, u)) :
    u.entries = t.entries ∧ ∀ e, o = some e → e ∈ t.entries := by
  unfold nextKey at h
  split at h
  · cases h
    exact ⟨rfl, by rintro e ⟨⟩⟩
  · split at h
    · cases h
    · rename_i e es he
      cases h
      refine ⟨rfl, ?_⟩
      rintro _ ⟨⟩
      exact (List.dropWhile_sublist _).mem (he ▸ List.mem_cons_self ..)

theorem Traversal.nextKey_nil {t : Table κ α} (h : t.Traversal []) :
    t.nextKey = some (none, t) := by
  obtain ⟨_, _, hc⟩ := h
  rw [nextKey, hc]
  rfl

theorem dropWhile_key {es : List (κ × α)} {seen rest : List κ} {k : κ}
    (hk : es.map Prod.fst = seen ++ k :: rest) (hn : k ∉ seen) :
    ∃ a ds, es.dropWhile (fun e ↦ e.1 ≠ k) = (k, a) :: ds ∧ ds.map Prod.fst = rest ∧
      (k, a) ∈ es := by
  induction seen generalizing es with
  | nil =>
    obtain _ | ⟨⟨j, a⟩, es⟩ := es
    · cases hk
    · simp only [List.map_cons, List.nil_append, List.cons.injEq] at hk
      obtain ⟨rfl, hr⟩ := hk
      exact ⟨a, es, by simp, hr, List.mem_cons_self ..⟩
  | cons i seen ih =>
    obtain _ | ⟨⟨j, a⟩, es⟩ := es
    · cases hk
    · simp only [List.map_cons, List.cons_append, List.cons.injEq] at hk
      obtain ⟨rfl, hr⟩ := hk
      rw [List.mem_cons, not_or] at hn
      obtain ⟨b, ds, hd, hds, hm⟩ := ih hr hn.2
      refine ⟨b, ds, ?_, hds, List.mem_cons_of_mem _ hm⟩
      rw [List.dropWhile_cons_of_pos]
      · exact hd
      · simpa using Ne.symm hn.1

theorem Traversal.nextKey_cons {t : Table κ α} {k : κ} {rest : List κ}
    (h : t.Traversal (k :: rest)) :
    ∃ a, t.lookup k = some a ∧
      t.nextKey = some (some (k, a), { t with cursor := rest.head? }) ∧
      Traversal { t with cursor := rest.head? } rest := by
  obtain ⟨seen, hk, hc⟩ := h
  have hnd : (seen ++ k :: rest).Nodup := hk ▸ t.nodup
  have hn : k ∉ seen := fun hm ↦ List.disjoint_of_nodup_append hnd hm (List.mem_cons_self ..)
  obtain ⟨a, ds, hd, hds, hm⟩ := dropWhile_key hk hn
  refine ⟨a, (mem_entries_iff t k a).mp hm, ?_, seen ++ [k], ?_, rfl⟩
  · simp only [nextKey, hc, List.head?_cons, hd, hds]
  · show t.keys = seen ++ [k] ++ rest
    rw [hk, List.append_assoc, List.singleton_append]

theorem Traversal.remove {t : Table κ α} {rest : List κ} (h : t.Traversal rest) {k : κ}
    (hk : k ∉ rest) : (t.remove k).Traversal rest := by
  obtain ⟨seen, he, hc⟩ := h
  refine ⟨seen.filter (fun j ↦ j ≠ k), ?_, hc⟩
  have hr : rest.filter (fun j ↦ j ≠ k) = rest :=
    List.filter_eq_self.mpr (fun j hj ↦ by
      simp only [decide_eq_true_eq]
      rintro rfl
      exact hk hj)
  have hm : (t.remove k).keys = t.keys.filter (fun j ↦ j ≠ k) := by
    simp only [keys, Table.remove, List.filter_map]
    rfl
  rw [hm, he, List.filter_append, hr]

@[simp] theorem keys_alter (t : Table κ α) (k : κ) (f : α → α) : (t.alter k f).keys = t.keys := by
  rw [keys, alter, List.map_map]
  refine List.map_congr_left (fun e _ ↦ ?_)
  simp only [Function.comp_apply]
  split <;> rfl

theorem alter_alter (t : Table κ α) (k : κ) (f g : α → α) :
    (t.alter k f).alter k g = t.alter k (g ∘ f) := by
  simp only [alter, List.map_map, mk.injEq, true_and, and_true]
  refine List.map_congr_left (fun e _ ↦ ?_)
  by_cases h : e.1 = k <;> simp [h]

theorem Traversal.alter {t : Table κ α} {rest : List κ} (h : t.Traversal rest) (k : κ)
    (f : α → α) : (t.alter k f).Traversal rest := by
  obtain ⟨seen, he, hc⟩ := h
  exact ⟨seen, by rw [keys_alter, he], hc⟩

/-- The insertion of a key that is there may cut a traversal short, and does
nothing else to it. -/
theorem Traversal.insertNew {t : Table κ α} {rest : List κ} (h : t.Traversal rest) {k : κ}
    (hk : k ∈ t.keys) (a : α) : (t.insertNew k a).Traversal rest ∨ (t.insertNew k a).Traversal [] := by
  have he : t.insertNew k a = t.grow := dif_pos ((mem_keys_grow t k).mpr hk)
  rw [he]
  unfold grow
  split
  · exact .inr ⟨_, (List.append_nil _).symm, rfl⟩
  · exact .inl h

theorem remove_of_lookup_none (t : Table κ α) {k : κ} (h : t.lookup k = none) : t.remove k = t := by
  have he : t.entries.filter (fun e ↦ decide (e.1 ≠ k)) = t.entries := by
    refine List.filter_eq_self.mpr (fun e hm ↦ decide_eq_true ?_)
    intro hk
    rw [mem_entries_iff t e.1 e.2, hk, h] at hm
    cases hm
  unfold remove
  congr

end Table

end Cyque.Library.Lookup
