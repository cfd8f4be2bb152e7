import Cyque.Library.Pointers
import Cyque.Library.Lookup

namespace Cyque.Buckets

open Library.Execution Library.Pointers Library.Lookup

variable {κ α β : Type}

/-- What an entry holds besides the pointer to the next one. The hash of a key
of an `itable` is the key itself. -/
structure Item (κ α : Type) where
  key : κ
  value : α
  hash : ℕ

abbrev Entry (κ α : Type) := Node (Item κ α)

abbrev Code (κ α β : Type) := Exec (Heap (Entry κ α)) β

/-- `struct hash_table`, `struct itable`. The cursor is `ibucket` and `ientry`,
which nothing sets before the first traversal. -/
structure HashTable (κ : Type) where
  hashFunc : κ → ℕ
  bucketCount : ℕ
  size : ℕ
  buckets : List (Option ℕ)
  cursor : Option (ℕ × Option ℕ)

abbrev defaultSize : ℕ := 127

def create (bucketCount : ℕ) (func : κ → ℕ) : HashTable κ :=
  let count := if bucketCount < 1 then defaultSize else bucketCount
  ⟨func, count, 0, List.replicate count none, none⟩

section Code

variable [DecidableEq κ]

def seekStep (hash : ℕ) (key : κ) : Option ℕ → Code κ α (Option ℕ ⊕ Option (ℕ × Entry κ α))
  | none => pure (.inr none)
  | some e => do
    let entry ← load e
    if hash = entry.item.hash ∧ key = entry.item.key then
      pure (.inr (some (e, entry)))
    else
      pure (.inl entry.next)

def seek (hash : ℕ) (key : κ) : Option ℕ → Code κ α (Option (ℕ × Entry κ α)) := loop (seekStep hash key)

def lookup (h : HashTable κ) (key : κ) : Code κ α (Option α) := do
  let hash := h.hashFunc key
  let e ← deref h.buckets[hash % h.bucketCount]?
  let found ← seek hash key e
  pure (found.map (fun x ↦ x.2.item.value))

def scan (ibucket : ℕ) : List (Option ℕ) → ℕ × Option ℕ
  | [] => (ibucket, none)
  | none :: buckets => scan (ibucket + 1) buckets
  | some e :: _ => (ibucket, some e)

def firstkey (h : HashTable κ) : HashTable κ := { h with cursor := some (scan 0 h.buckets) }

def nextkey (h : HashTable κ) : Code κ α (Option (κ × α) × HashTable κ) := do
  let (ibucket, ientry) ← deref h.cursor
  match ientry with
  | none => pure (none, h)
  | some e =>
    let entry ← load e
    let cursor :=
      match entry.next with
      | none => scan (ibucket + 1) (h.buckets.drop (ibucket + 1))
      | some e' => (ibucket, some e')
    pure (some (entry.item.key, entry.item.value), { h with cursor := some cursor })

def freeStep : Option ℕ → Code κ α (Option ℕ ⊕ Unit)
  | none => pure (.inr ())
  | some e => do
    let entry ← load e
    free e
    pure (.inl entry.next)

def freeBucket : Option ℕ → Code κ α Unit := loop freeStep

def delete (h : HashTable κ) : Code κ α Unit := forEach freeBucket h.buckets

/-- Copy the next entry of a traversal to another table. When it cannot be
inserted there, that table is given up. -/
def copyStep (insert : HashTable κ → κ → α → Code κ α (ℕ × HashTable κ)) (x : HashTable κ × HashTable κ) :
    Code κ α (HashTable κ × HashTable κ ⊕ HashTable κ ⊕ HashTable κ × HashTable κ) := do
  let (o, h) ← nextkey x.1
  match o with
  | none => pure (.inr (.inr (h, x.2)))
  | some (key, value) =>
    let (done, hn) ← insert x.2 key value
    if done = 0 then do
      delete hn
      pure (.inr (.inl h))
    else
      pure (.inl (h, hn))

def doubleBuckets (insert : HashTable κ → κ → α → Code κ α (ℕ × HashTable κ)) (h : HashTable κ) :
    Code κ α (HashTable κ) := do
  match ← loop (copyStep insert) (firstkey h, create (2 * h.bucketCount) h.hashFunc) with
  | .inl h => pure h
  | .inr (h, hn) => do
    delete h
    pure { h with buckets := hn.buckets, bucketCount := hn.bucketCount, size := hn.size }

/-- Insert without a look at the load. `itable_insert` overwrites the value of
a key that is there already, and `hash_table_insert` refuses. -/
def insertHere (overwrites : Bool) (h : HashTable κ) (key : κ) (value : α) : Code κ α (ℕ × HashTable κ) := do
  let hash := h.hashFunc key
  let e ← deref h.buckets[hash % h.bucketCount]?
  match ← seek hash key e with
  | some (p, entry) =>
    if overwrites then do
      store p { entry with item := { entry.item with value := value } }
      pure (1, h)
    else
      pure (0, h)
  | none => do
    let p ← malloc ⟨⟨key, value, hash⟩, e⟩
    pure (1, { h with buckets := h.buckets.set (hash % h.bucketCount) (some p), size := h.size + 1 })

/-- The table is doubled when it is more than three quarters full. -/
def makeRoom (insert : HashTable κ → κ → α → Code κ α (ℕ × HashTable κ)) (h : HashTable κ) :
    Code κ α (HashTable κ) :=
  if 3 * h.bucketCount < 4 * h.size then doubleBuckets insert h else pure h

def insertFor (overwrites : Bool) : ℕ → HashTable κ → κ → α → Code κ α (ℕ × HashTable κ)
  | 0, _, _, _ => exceeded
  | depth + 1, h, key, value => do
    let h ← makeRoom (insertFor overwrites depth) h
    insertHere overwrites h key value

def insert (overwrites : Bool) (h : HashTable κ) (key : κ) (value : α) : Code κ α (ℕ × HashTable κ) :=
  recurse (fun depth ↦ insertFor overwrites depth h key value)

/-- The pointers `f` and `e` go down the bucket together. -/
def removeStep (h : HashTable κ) (hash : ℕ) (key : κ) : Option ℕ × Option ℕ →
    Code κ α (Option ℕ × Option ℕ ⊕ Option α × HashTable κ)
  | (_, none) => pure (.inr (none, h))
  | (f, some e) => do
    let entry ← load e
    if hash = entry.item.hash ∧ key = entry.item.key then do
      let buckets ← match f with
        | some f => do
          let before ← load f
          store f { before with next := entry.next }
          pure h.buckets
        | none => pure (h.buckets.set (hash % h.bucketCount) entry.next)
      free e
      pure (.inr (some entry.item.value, { h with buckets := buckets, size := h.size - 1 }))
    else
      pure (.inl (some e, entry.next))

def remove (h : HashTable κ) (key : κ) : Code κ α (Option α × HashTable κ) := do
  let hash := h.hashFunc key
  let e ← deref h.buckets[hash % h.bucketCount]?
  loop (removeStep h hash key) (none, e)

end Code

/-- The table in memory, with the entries of each bucket and their addresses,
and the table that it stands for. The cursors are compared apart. -/
structure Holds (s : Heap (Entry κ α)) (h : HashTable κ) (L : List (List (ℕ × Item κ α)))
    (t : Table κ α) : Prop where
  func : h.hashFunc = t.hash
  count : h.bucketCount = t.bucketCount
  pos : 0 < t.bucketCount
  buckets : h.buckets.length = t.bucketCount
  length : L.length = t.bucketCount
  chain : ∀ (i : ℕ) e c, h.buckets[i]? = some e → L[i]? = some c → Chain s e c
  bucket : ∀ (i : ℕ) c, L[i]? = some c → ∀ x ∈ c, t.hash x.2.key % t.bucketCount = i
  hashed : ∀ x ∈ L.flatten, x.2.hash = t.hash x.2.key
  nodup : (addresses L.flatten).Nodup
  entries : t.entries = L.flatten.map (fun x ↦ (x.2.key, x.2.value))
  size : h.size = t.entries.length
  load : 4 * h.size ≤ 3 * h.bucketCount + 4

section Walk

variable [DecidableEq κ]

variable {s : Heap (Entry κ α)} {hash : ℕ} {key : κ} {c : List (ℕ × Item κ α)} {e : Option ℕ} {n k : ℕ}

def isKey (key : κ) (x : ℕ × Item κ α) : Bool := decide (x.2.key = key)

theorem seekStep_done {p : ℕ} {x : Item κ α} {q : Option ℕ} (h : s.cell p = some ⟨x, q⟩)
    (hh : x.key = key → x.hash = hash) :
    seekStep hash key (some p) n s =
      .done (if isKey key (p, x) then .inr (some (p, ⟨x, q⟩)) else .inl q) s := by
  rw [seekStep, bind_apply, load_done h]
  simp only [isKey, decide_eq_true_eq]
  by_cases hx : x.key = key
  · rw [if_pos ⟨(hh hx).symm, hx.symm⟩, if_pos hx]
    rfl
  · rw [if_neg (fun h ↦ hx h.2.symm), if_neg hx]
    rfl

theorem seek_done (hc : Chain s e c) (hh : ∀ x ∈ c, x.2.key = key → x.2.hash = hash) (hn : c.length < k) :
    ∃ r, loopFor (seekStep hash key) k e n s = .done r s ∧ (c.find? (isKey key) = none → r = none) ∧
      ∀ x, c.find? (isKey key) = some x → ∃ q, s.cell x.1 = some ⟨x.2, q⟩ ∧ r = some (x.1, ⟨x.2, q⟩) := by
  induction c generalizing e k with
  | nil =>
    obtain ⟨k, rfl⟩ : ∃ j, k = j + 1 := ⟨k - 1, by omega⟩
    cases hc
    exact ⟨none, rfl, fun _ ↦ rfl, fun _ ↦ (nomatch ·)⟩
  | cons x c ih =>
    obtain ⟨k, rfl⟩ : ∃ j, k = j + 1 := ⟨k - 1, by omega⟩
    obtain ⟨rfl, q, hq, hc⟩ := hc
    have hstep := seekStep_done (n := n) hq (hh x List.mem_cons_self)
    rw [List.find?_cons]
    cases hx : isKey key x with
    | true =>
      rw [if_pos hx] at hstep
      refine ⟨_, loopFor_inr hstep, (nomatch ·), fun y hy ↦ ?_⟩
      cases hy
      exact ⟨q, hq, rfl⟩
    | false =>
      rw [if_neg (by rw [hx]; exact Bool.false_ne_true)] at hstep
      rw [loopFor_inl hstep]
      exact ih hc (fun y hy ↦ hh y (List.mem_cons_of_mem _ hy)) (by rw [List.length_cons] at hn; omega)

end Walk

namespace Holds

variable {s s' : Heap (Entry κ α)} {h : HashTable κ} {L : List (List (ℕ × Item κ α))} {t : Table κ α} {key : κ}

theorem index_lt (H : Holds s h L t) (key : κ) : t.hash key % t.bucketCount < t.bucketCount :=
  Nat.mod_lt _ H.pos

theorem bucket_of (H : Holds s h L t) (key : κ) : ∃ e c, h.buckets[t.hash key % t.bucketCount]? = some e ∧
    L[t.hash key % t.bucketCount]? = some c ∧ Chain s e c := by
  have hi := H.index_lt key
  have hb : t.hash key % t.bucketCount < h.buckets.length := by rwa [H.buckets]
  have hL : t.hash key % t.bucketCount < L.length := by rwa [H.length]
  exact ⟨_, _, List.getElem?_eq_getElem hb, List.getElem?_eq_getElem hL,
    H.chain _ _ _ (List.getElem?_eq_getElem hb) (List.getElem?_eq_getElem hL)⟩

theorem mem_flatten {i : ℕ} {c : List (ℕ × Item κ α)} (hc : L[i]? = some c) {x : ℕ × Item κ α} (hx : x ∈ c) :
    x ∈ L.flatten :=
  List.mem_flatten.mpr ⟨c, List.mem_of_getElem? hc, hx⟩

theorem mem_bucket (H : Holds s h L t) {x : ℕ × Item κ α} (hx : x ∈ L.flatten) {c : List (ℕ × Item κ α)}
    (hc : L[t.hash x.2.key % t.bucketCount]? = some c) : x ∈ c := by
  obtain ⟨d, hd, hxd⟩ := List.mem_flatten.mp hx
  obtain ⟨j, hj⟩ := List.mem_iff_getElem?.mp hd
  rw [H.bucket j d hj x hxd, hj] at hc
  cases hc
  exact hxd

theorem mem_keys (H : Holds s h L t) : key ∈ t.keys ↔ ∃ x ∈ L.flatten, x.2.key = key := by
  rw [Table.keys, H.entries, List.map_map, List.mem_map]
  rfl

theorem cell (H : Holds s h L t) {x : ℕ × Item κ α} (hx : x ∈ L.flatten) :
    ∃ q, s.cell x.1 = some ⟨x.2, q⟩ := by
  obtain ⟨e, c, he, hc, hchain⟩ := H.bucket_of x.2.key
  exact hchain.cell (H.mem_bucket hx hc)

theorem lt_top (H : Holds s h L t) {p : ℕ} (hp : p ∈ addresses L.flatten) : p < s.top := by
  obtain ⟨x, hx, rfl⟩ := List.mem_map.mp hp
  obtain ⟨q, hq⟩ := H.cell hx
  exact Heap.lt_top hq

theorem eq_of_key (H : Holds s h L t) {x y : ℕ × Item κ α} (hx : x ∈ L.flatten) (hy : y ∈ L.flatten)
    (hk : x.2.key = y.2.key) : x = y := by
  have hn : (L.flatten.map (fun x ↦ x.2.key)).Nodup := by
    have := t.nodup
    rwa [H.entries, List.map_map] at this
  exact List.inj_on_of_nodup_map hn hx hy hk

theorem eq_of_address (H : Holds s h L t) {x y : ℕ × Item κ α} (hx : x ∈ L.flatten) (hy : y ∈ L.flatten)
    (hp : x.1 = y.1) : x = y :=
  List.inj_on_of_nodup_map H.nodup hx hy hp

/-- Code that has other cells to itself does not change the table. -/
theorem frame (H : Holds s h L t) {A A' : List ℕ} (hs : Acts A A' s s')
    (hA : ∀ p ∈ addresses L.flatten, p ∉ A) : Holds s' h L t where
  func := H.func
  count := H.count
  pos := H.pos
  buckets := H.buckets
  length := H.length
  chain i e c he hc := by
    refine (H.chain i e c he hc).frame hs (fun p hp ↦ hA p ?_)
    obtain ⟨x, hx, rfl⟩ := List.mem_map.mp hp
    exact List.mem_map_of_mem (mem_flatten hc hx)
  bucket := H.bucket
  hashed := H.hashed
  nodup := H.nodup
  entries := H.entries
  size := H.size
  load := H.load

theorem length_le (H : Holds s h L t) {i : ℕ} {c : List (ℕ × Item κ α)} (hc : L[i]? = some c) :
    c.length ≤ t.size := by
  rw [Table.size, H.entries, List.length_map]
  exact (List.sublist_flatten_of_mem (List.mem_of_getElem? hc)).length_le

variable [DecidableEq κ]

/-- What is found in the bucket of a key is what the table has under it. -/
theorem lookup_eq (H : Holds s h L t) {c : List (ℕ × Item κ α)} (hc : L[t.hash key % t.bucketCount]? = some c) :
    t.lookup key = (c.find? (isKey key)).map (fun x ↦ x.2.value) := by
  cases hf : c.find? (isKey key) with
  | none =>
    rw [Option.map_none, Table.lookup_eq_none_iff, H.mem_keys]
    rintro ⟨x, hx, rfl⟩
    have := List.find?_eq_none.mp hf x (H.mem_bucket hx hc)
    simp [isKey] at this
  | some x =>
    have hk := List.find?_some hf
    rw [isKey, decide_eq_true_eq] at hk
    have hx := mem_flatten hc (List.mem_of_find?_eq_some hf)
    rw [Option.map_some, ← Table.mem_entries_iff, H.entries, List.mem_map]
    exact ⟨x, hx, by rw [hk]⟩

end Holds

section Flatten

variable {L : List (List β)} {i : ℕ} {c : List β}

theorem flatten_eq (h : L[i]? = some c) : L.flatten = (L.take i).flatten ++ (c ++ (L.drop (i + 1)).flatten) := by
  obtain ⟨hi, rfl⟩ := List.getElem?_eq_some_iff.mp h
  conv_lhs => rw [← List.take_append_drop i L, List.drop_eq_getElem_cons hi]
  rw [List.flatten_append, List.flatten_cons]

theorem flatten_set (h : L[i]? = some c) (d : List β) :
    (L.set i d).flatten = (L.take i).flatten ++ (d ++ (L.drop (i + 1)).flatten) := by
  obtain ⟨hi, -⟩ := List.getElem?_eq_some_iff.mp h
  rw [List.set_eq_take_append_cons_drop, if_pos hi, List.flatten_append, List.flatten_cons]

theorem mem_flatten_take {x : β} (h : x ∈ (L.take i).flatten) : ∃ j c, j < i ∧ L[j]? = some c ∧ x ∈ c := by
  obtain ⟨c, hc, hx⟩ := List.mem_flatten.mp h
  obtain ⟨j, hj⟩ := List.mem_iff_getElem?.mp hc
  rw [List.getElem?_take] at hj
  split at hj
  · exact ⟨j, c, ‹_›, hj, hx⟩
  · cases hj

theorem mem_flatten_drop {x : β} (h : x ∈ (L.drop i).flatten) : ∃ j c, i ≤ j ∧ L[j]? = some c ∧ x ∈ c := by
  obtain ⟨c, hc, hx⟩ := List.mem_flatten.mp h
  obtain ⟨j, hj⟩ := List.mem_iff_getElem?.mp hc
  rw [List.getElem?_drop] at hj
  exact ⟨i + j, c, Nat.le_add_right _ _, hj, hx⟩

end Flatten

variable {s s' : Heap (Entry κ α)} {h : HashTable κ} {L : List (List (ℕ × Item κ α))}
variable {t : Table κ α} {n : ℕ}

theorem bucket_apply (H : Holds s h L t) (key : κ) {e : Option ℕ} {f : Option ℕ → Code κ α β}
    (he : h.buckets[t.hash key % t.bucketCount]? = some e) :
    (deref h.buckets[h.hashFunc key % h.bucketCount]? >>= f) n s = f e n s := by
  rw [H.func, H.count, he]
  rfl

variable [DecidableEq κ]

theorem seek_bucket (H : Holds s h L t) {key : κ} {e : Option ℕ} {c : List (ℕ × Item κ α)}
    (hc : L[t.hash key % t.bucketCount]? = some c) (hchain : Chain s e c) (hn : t.size < n) :
    ∃ r, seek (h.hashFunc key) key e n s = .done r s ∧ ((r = none ∧ key ∉ t.keys) ∨ ∃ x q, x ∈ L.flatten ∧
      x.2.key = key ∧ s.cell x.1 = some ⟨x.2, q⟩ ∧ r = some (x.1, ⟨x.2, q⟩)) := by
  have hh : ∀ x ∈ c, x.2.key = key → x.2.hash = h.hashFunc key := by
    intro x hx hk
    rw [H.hashed x (Holds.mem_flatten hc hx), hk, H.func]
  obtain ⟨r, hr, hnone, hsome⟩ := seek_done (n := n) (k := n) hchain hh
    (Nat.lt_of_le_of_lt (H.length_le hc) hn)
  refine ⟨r, hr, ?_⟩
  cases hf : c.find? (isKey key) with
  | none =>
    refine .inl ⟨hnone hf, ?_⟩
    rw [← Table.lookup_eq_none_iff, H.lookup_eq hc, hf]
    rfl
  | some x =>
    obtain ⟨q, hq, hrx⟩ := hsome x hf
    have hk : x.2.key = key := by simpa [isKey] using List.find?_some hf
    exact .inr ⟨x, q, Holds.mem_flatten hc (List.mem_of_find?_eq_some hf), hk, hq, hrx⟩

theorem lookup_done (H : Holds s h L t) (key : κ) (hn : t.size < n) :
    lookup h key n s = .done (t.lookup key) s := by
  obtain ⟨e, c, he, hc, hchain⟩ := H.bucket_of key
  obtain ⟨r, hr, hcase⟩ := seek_bucket H hc hchain hn
  have hmap : r.map (fun x ↦ x.2.item.value) = t.lookup key := by
    rcases hcase with ⟨rfl, hk⟩ | ⟨x, q, hx, rfl, -, rfl⟩
    · exact ((Table.lookup_eq_none_iff t key).mpr hk).symm
    · refine ((Table.mem_entries_iff t _ _).mp ?_).symm
      rw [H.entries]
      exact List.mem_map_of_mem hx
  rw [← hmap, lookup, bucket_apply H key he, bind_done hr]
  rfl

abbrev cells (L : List (List (ℕ × Item κ α))) : List ℕ := addresses L.flatten

theorem getElem?_set_cases {M : List β} {i j : ℕ} {a b : β} (h : (M.set i a)[j]? = some b) :
    j = i ∧ b = a ∨ j ≠ i ∧ M[j]? = some b := by
  by_cases hj : j = i
  · subst hj
    rw [List.getElem?_set_self'] at h
    obtain ⟨_, -, rfl⟩ := Option.map_eq_some_iff.mp h
    exact .inl ⟨rfl, rfl⟩
  · rw [List.getElem?_set_ne (Ne.symm hj)] at h
    exact .inr ⟨hj, h⟩

theorem set_self {M : List β} {i : ℕ} {a : β} (h : M[i]? = some a) : M.set i a = M := by
  obtain ⟨hi, rfl⟩ := List.getElem?_eq_some_iff.mp h
  exact List.set_getElem_self hi

omit [DecidableEq κ] in
theorem Holds.place_eq (H : Holds s h L t) {key : κ} (value : α) {c : List (ℕ × Item κ α)}
    (hc : L[t.hash key % t.bucketCount]? = some c) (p : ℕ) :
    Table.place (fun j ↦ t.hash j % t.bucketCount) (key, value) t.entries =
      (L.set (t.hash key % t.bucketCount) ((p, ⟨key, value, t.hash key⟩) :: c)).flatten.map
        (fun x ↦ (x.2.key, x.2.value)) := by
  rw [H.entries, flatten_eq hc, List.map_append, Table.place_append]
  · simp only [flatten_set hc, List.map_append, List.cons_append, List.map_cons]
  · intro d hd
    obtain ⟨y, hy, rfl⟩ := List.mem_map.mp hd
    obtain ⟨j, d, hj, hd, hyd⟩ := mem_flatten_take hy
    dsimp only
    rwa [H.bucket j d hd y hyd]
  · intro d hd
    obtain ⟨y, hy, rfl⟩ := List.mem_map.mp hd
    dsimp only
    rcases List.mem_append.mp hy with hy | hy
    · exact Nat.le_of_eq (H.bucket _ _ hc y hy).symm
    · obtain ⟨j, d, hj, hd, hyd⟩ := mem_flatten_drop hy
      rw [H.bucket j d hd y hyd]
      omega

omit [DecidableEq κ] in
/-- A new entry goes to the front of its bucket. -/
theorem Holds.add (H : Holds s h L t) {key : κ} (value : α) (hk : key ∉ t.keys) (hroom : 4 * h.size ≤ 3 * h.bucketCount)
    {e : Option ℕ} {c : List (ℕ × Item κ α)} (he : h.buckets[t.hash key % t.bucketCount]? = some e)
    (hc : L[t.hash key % t.bucketCount]? = some c) :
    let x : Item κ α := ⟨key, value, t.hash key⟩
    let L' := L.set (t.hash key % t.bucketCount) ((s.top, x) :: c)
    Holds (s.push ⟨x, e⟩)
      { h with buckets := h.buckets.set (t.hash key % t.bucketCount) (some s.top), size := h.size + 1 }
      L' (t.add key value hk) ∧ Acts (cells L) (cells L') s (s.push ⟨x, e⟩) := by
  intro x L'
  have hperm : L'.flatten.Perm ((s.top, x) :: L.flatten) := by
    rw [flatten_set hc, flatten_eq hc]
    exact List.perm_middle
  have hcells : ∀ p, p ∈ cells L' ↔ p = s.top ∨ p ∈ cells L := by
    intro p
    rw [cells, addresses, (hperm.map Prod.fst).mem_iff, List.map_cons, List.mem_cons]
    rfl
  refine ⟨⟨H.func, H.count, H.pos, ?_, ?_, ?_, ?_, ?_, ?_, H.place_eq value hc s.top, ?_, ?_⟩, Acts.push s _ hcells⟩
  · exact (List.length_set ..).trans H.buckets
  · exact (List.length_set ..).trans H.length
  · intro i e' d he' hd
    rcases getElem?_set_cases hd with ⟨rfl, rfl⟩ | ⟨hi, hd⟩
    · rcases getElem?_set_cases he' with ⟨-, rfl⟩ | ⟨hne, -⟩
      · exact (H.chain _ _ _ he hc).push
      · exact absurd rfl hne
    · rcases getElem?_set_cases he' with ⟨rfl, -⟩ | ⟨-, he'⟩
      · exact absurd rfl hi
      · refine (H.chain i e' d he' hd).congr (fun p hp ↦ Heap.cell_push ?_)
        have := (H.chain i e' d he' hd).lt_top hp
        omega
  · intro i d hd y hy
    rcases getElem?_set_cases hd with ⟨rfl, rfl⟩ | ⟨-, hd⟩
    · rcases List.mem_cons.mp hy with rfl | hy
      · rfl
      · exact H.bucket _ _ hc y hy
    · exact H.bucket i d hd y hy
  · intro y hy
    rcases List.mem_cons.mp (hperm.mem_iff.mp hy) with rfl | hy
    · rfl
    · exact H.hashed y hy
  · rw [addresses, (hperm.map Prod.fst).nodup_iff, List.map_cons, List.nodup_cons]
    exact ⟨fun h ↦ Nat.lt_irrefl _ (H.lt_top h), H.nodup⟩
  · show h.size + 1 = (Table.place _ _ t.entries).length
    rw [(Table.place_perm _ _ _).length_eq, List.length_cons, H.size]
  · show 4 * (h.size + 1) ≤ 3 * h.bucketCount + 4
    omega

theorem Holds.alter (H : Holds s h L t) {x : ℕ × Item κ α} (hx : x ∈ L.flatten) {q : Option ℕ}
    (hq : s.cell x.1 = some ⟨x.2, q⟩) (value : α) :
    let g := fun y : ℕ × Item κ α ↦ if y.2.key = x.2.key then { y.2 with value := value } else y.2
    let s' := s.put x.1 (some ⟨{ x.2 with value := value }, q⟩) (Heap.lt_top hq)
    Holds s' h (L.map (List.map (fun y ↦ (y.1, g y)))) (t.alter x.2.key (fun _ ↦ value)) ∧
      Acts (cells L) (cells (L.map (List.map (fun y ↦ (y.1, g y))))) s s' := by
  intro g s'
  have hflat : (L.map (List.map (fun y ↦ (y.1, g y)))).flatten = L.flatten.map (fun y ↦ (y.1, g y)) :=
    List.map_flatten.symm
  have hcells : cells (L.map (List.map (fun y ↦ (y.1, g y)))) = cells L := by
    rw [cells, hflat, addresses, List.map_map]
    rfl
  have hkey : ∀ y, (g y).key = y.2.key := by
    intro y
    simp only [g]
    split <;> rfl
  have hhash : ∀ y, (g y).hash = y.2.hash := by
    intro y
    simp only [g]
    split <;> rfl
  have hget : ∀ (i : ℕ) d, (L.map (List.map (fun y ↦ (y.1, g y))))[i]? = some d →
      ∃ c, L[i]? = some c ∧ d = c.map (fun y ↦ (y.1, g y)) := by
    intro i d hd
    rw [List.getElem?_map] at hd
    obtain ⟨c, hc, rfl⟩ := Option.map_eq_some_iff.mp hd
    exact ⟨c, hc, rfl⟩
  refine ⟨⟨H.func, H.count, H.pos, H.buckets, ?_, ?_, ?_, ?_, ?_, ?_, ?_, H.load⟩, ?_⟩
  · exact (List.length_map _).trans H.length
  · intro i e d he hd
    obtain ⟨c, hc, rfl⟩ := hget i d hd
    refine (H.chain i e c he hc).map g (fun y hy r hr ↦ ?_)
    have hyL := mem_flatten hc hy
    by_cases hyx : y = x
    · subst hyx
      rw [hq] at hr
      cases hr
      simp only [s', g, Heap.cell_put_self, if_true]
    · have hk : y.2.key ≠ x.2.key := fun hk ↦ hyx (H.eq_of_key hyL hx hk)
      simp only [g, if_neg hk]
      rw [← hr]
      exact Heap.cell_put _ (fun hp ↦ hyx (H.eq_of_address hyL hx hp))
  · intro i d hd y hy
    obtain ⟨c, hc, rfl⟩ := hget i d hd
    obtain ⟨z, hz, rfl⟩ := List.mem_map.mp hy
    show t.hash (g z).key % t.bucketCount = i
    rw [hkey]
    exact H.bucket i c hc z hz
  · intro y hy
    rw [hflat] at hy
    obtain ⟨z, hz, rfl⟩ := List.mem_map.mp hy
    show (g z).hash = t.hash (g z).key
    rw [hkey, hhash]
    exact H.hashed z hz
  · rw [show addresses _ = cells L from hcells]
    exact H.nodup
  · show t.entries.map _ = _
    rw [H.entries, hflat, List.map_map, List.map_map]
    refine List.map_congr_left (fun y _ ↦ ?_)
    simp only [Function.comp_apply, g]
    split <;> rfl
  · exact H.size.trans (List.length_map _).symm
  · rw [hcells]
    exact Acts.put (List.mem_map_of_mem hx) _ _

section Remove

variable {hash : ℕ} {key : κ} {c d d' : List (ℕ × Item κ α)} {e e' f : Option ℕ} {k : ℕ}

theorem removeStep_next (hash : ℕ) {p : ℕ} {x : Item κ α} {q : Option ℕ} (hp : s.cell p = some ⟨x, q⟩)
    (hx : isKey key (p, x) = false) :
    removeStep h hash key (f, some p) n s = .done (.inl (some p, q)) s := by
  rw [isKey, decide_eq_false_iff_not] at hx
  rw [removeStep, bind_apply, load_done hp]
  dsimp only
  rw [if_neg (fun h ↦ hx h.2.symm)]
  rfl

theorem removeLoop_skip (hd : Segment s e d e') (hno : ∀ y ∈ d, isKey key y = false) :
    loopFor (removeStep h hash key) (k + d.length) (f, e) n s =
      loopFor (removeStep h hash key) k ((d.getLast?.map Prod.fst).or f, e') n s := by
  induction d generalizing e f with
  | nil =>
    cases hd
    rfl
  | cons x d ih =>
    obtain ⟨rfl, q, hq, hd⟩ := hd
    have hstep := removeStep_next (h := h) (n := n) (f := f) hash hq (hno x List.mem_cons_self)
    rw [List.length_cons, ← Nat.add_assoc, loopFor_inl hstep, ih hd (fun y hy ↦ hno y (List.mem_cons_of_mem _ hy)),
      List.getLast?_cons]
    cases d.getLast? <;> rfl

theorem removeLoop_none (hc : Chain s e c) (hno : ∀ y ∈ c, isKey key y = false) (hk : c.length < k) :
    loopFor (removeStep h hash key) k (f, e) n s = .done (none, h) s := by
  obtain ⟨j, rfl⟩ : ∃ j, k = j + 1 + c.length := ⟨k - 1 - c.length, by omega⟩
  rw [removeLoop_skip hc hno]
  exact loopFor_inr rfl

theorem removeStep_first {p : ℕ} {x : Item κ α} {q : Option ℕ} (hp : s.cell p = some ⟨x, q⟩)
    (hx : hash = x.hash ∧ key = x.key) :
    removeStep h hash key (none, some p) n s =
      .done (.inr (some x.value, { h with buckets := h.buckets.set (hash % h.bucketCount) q, size := h.size - 1 }))
        (s.put p none (Heap.lt_top hp)) := by
  rw [removeStep, bind_done (load_done hp), if_pos hx]
  exact bind_done (free_done hp)

theorem removeStep_unlink {p g : ℕ} {x y : Item κ α} {q r : Option ℕ} (hp : s.cell p = some ⟨x, q⟩)
    (hg : s.cell g = some ⟨y, r⟩) (hgp : p ≠ g) (hx : hash = x.hash ∧ key = x.key) :
    removeStep h hash key (some g, some p) n s =
      .done (.inr (some x.value, { h with buckets := h.buckets, size := h.size - 1 }))
        ((s.put g (some ⟨y, q⟩) (Heap.lt_top hg)).put p none (Heap.lt_top (s := s) hp)) := by
  have hp' : (s.put g (some ⟨y, q⟩) (Heap.lt_top hg)).cell p = some ⟨x, q⟩ :=
    (Heap.cell_put (Heap.lt_top hg) hgp).trans hp
  rw [removeStep, bind_done (load_done hp), if_pos hx]
  refine (bind_done (load_done hg)).trans ?_
  refine (bind_done (store_done hg)).trans ?_
  exact bind_done (free_done hp')

/-- The entry that is removed is taken out of its bucket and freed. -/
theorem removeLoop_some {p : ℕ} {x : Item κ α} (hc : Chain s e (d ++ (p, x) :: d'))
    (hn : (addresses (d ++ (p, x) :: d')).Nodup) (hno : ∀ y ∈ d, isKey key y = false)
    (hx : hash = x.hash ∧ key = x.key) (he : h.buckets[hash % h.bucketCount]? = some e)
    (hk : (d ++ (p, x) :: d').length < k) :
    ∃ s' r, loopFor (removeStep h hash key) k (none, e) n s =
      .done (some x.value, { h with buckets := h.buckets.set (hash % h.bucketCount) r, size := h.size - 1 }) s' ∧
      Chain s' r (d ++ d') ∧ Acts (addresses (d ++ (p, x) :: d')) (addresses (d ++ d')) s s' := by
  rw [List.length_append, List.length_cons] at hk
  obtain ⟨j, rfl⟩ : ∃ j, k = j + 1 + d.length := ⟨k - 1 - d.length, by omega⟩
  obtain ⟨m, hd, rfl, q, hq, hd'⟩ := Segment.append.mp hc
  have hpt := Heap.lt_top hq
  have hA : ∀ r, r ∈ addresses (d ++ d') ↔ r ∈ addresses (d ++ (p, x) :: d') ∧ r ≠ p := by
    intro r
    simp only [addresses_append, addresses_cons, List.nodup_append, List.nodup_cons, List.mem_cons] at hn
    simp only [addresses_append, addresses_cons, List.mem_append, List.mem_cons]
    constructor
    · intro hr
      refine ⟨by tauto, ?_⟩
      rintro rfl
      rcases hr with hr | hr
      · exact hn.2.2 r hr r (.inl rfl) rfl
      · exact hn.2.1.1 hr
    · tauto
  have hp : p ∈ addresses (d ++ (p, x) :: d') := by simp
  rw [removeLoop_skip hd hno]
  rcases List.eq_nil_or_concat d with rfl | ⟨d₀, ⟨g, y⟩, rfl⟩
  · cases hd
    refine ⟨s.put p none hpt, q, loopFor_inr (removeStep_first hq hx), ?_, Acts.erase hp hpt hA⟩
    refine hd'.congr (fun r hr ↦ Heap.cell_put hpt ?_)
    exact ((hA r).mp (by simpa using hr)).2
  · rw [List.concat_eq_append, List.append_assoc] at hc hn
    obtain ⟨m, -, rfl, r, hr, -⟩ := Segment.append.mp hc
    have hgp : p ≠ g := by
      rintro rfl
      simp [List.nodup_append] at hn
    obtain ⟨hgt, hpt', hc'⟩ := hc.unlink hn hq
    refine ⟨_, e, ?_, by simpa using hc', ?_⟩
    · have hlast : ((d₀.concat (g, y)).getLast?.map Prod.fst).or none = some g := by
        rw [List.concat_eq_append, List.getLast?_concat]
        rfl
      rw [hlast, set_self he]
      exact loopFor_inr (removeStep_unlink hq hr hgp hx)
    · refine (Acts.put (p := g) ?_ hgt _).trans (Acts.erase hp hpt' hA)
      simp

end Remove

omit [DecidableEq κ] in
theorem Holds.disjoint (H : Holds s h L t) {i j : ℕ} {c d : List (ℕ × Item κ α)} (hc : L[i]? = some c)
    (hd : L[j]? = some d) (hij : i ≠ j) {p : ℕ} (hp : p ∈ addresses c) : p ∉ addresses d := by
  intro hp'
  obtain ⟨x, hx, rfl⟩ := List.mem_map.mp hp
  obtain ⟨y, hy, hxy⟩ := List.mem_map.mp hp'
  have he := H.eq_of_address (mem_flatten hd hy) (mem_flatten hc hx) hxy
  rw [← he] at hx
  exact hij ((H.bucket i c hc y hx).symm.trans (H.bucket j d hd y hy))

theorem Holds.shorten (H : Holds s h L t) {i : ℕ} {x : ℕ × Item κ α} {c d d' : List (ℕ × Item κ α)}
    {r : Option ℕ} (hc : L[i]? = some c) (hcd : c = d ++ x :: d') (hr : Chain s' r (d ++ d'))
    (hs : Acts (addresses c) (addresses (d ++ d')) s s') :
    Holds s' { h with buckets := h.buckets.set i r, size := h.size - 1 } (L.set i (d ++ d')) (t.remove x.2.key) ∧
      Acts (cells L) (cells (L.set i (d ++ d'))) s s' := by
  subst hcd
  have hsub : (d ++ d').Sublist (d ++ x :: d') := (List.Sublist.refl d).append (List.sublist_cons_self _ _)
  have hflat : (L.set i (d ++ d')).flatten.Sublist L.flatten := by
    rw [flatten_set hc, flatten_eq hc]
    exact (List.Sublist.refl _).append (hsub.append (List.Sublist.refl _))
  have hperm : L.flatten.Perm (x :: (L.set i (d ++ d')).flatten) := by
    rw [flatten_set hc, flatten_eq hc]
    exact ((List.perm_middle.append_right _).append_left _).trans List.perm_middle
  have hentries : (t.remove x.2.key).entries = (L.set i (d ++ d')).flatten.map (fun y ↦ (y.2.key, y.2.value)) := by
    have hx : x ∉ (L.set i (d ++ d')).flatten :=
      (List.nodup_cons.mp (hperm.nodup_iff.mp (List.Nodup.of_map _ H.nodup))).1
    have hkeep : ∀ y ∈ (L.set i (d ++ d')).flatten, decide (y.2.key ≠ x.2.key) = true := by
      intro y hy
      refine decide_eq_true (fun hk ↦ hx ?_)
      rwa [H.eq_of_key (hperm.mem_iff.mpr List.mem_cons_self) (hflat.mem hy) hk.symm]
    show t.entries.filter _ = _
    rw [H.entries, List.filter_map, ← List.filter_eq_self.mpr hkeep, flatten_set hc, flatten_eq hc]
    simp only [List.filter_append, List.append_assoc, List.cons_append]
    rw [List.filter_cons_of_neg (by simp), List.filter_append]
    rfl
  refine ⟨⟨H.func, H.count, H.pos, ?_, ?_, ?_, ?_, ?_, ?_, hentries, ?_, ?_⟩, ?_⟩
  · exact (List.length_set ..).trans H.buckets
  · exact (List.length_set ..).trans H.length
  · intro j e' b he' hb
    rcases getElem?_set_cases hb with ⟨rfl, rfl⟩ | ⟨hj, hb⟩
    · rcases getElem?_set_cases he' with ⟨-, rfl⟩ | ⟨hne, -⟩
      · exact hr
      · exact absurd rfl hne
    · rcases getElem?_set_cases he' with ⟨rfl, -⟩ | ⟨-, he'⟩
      · exact absurd rfl hj
      · exact (H.chain j e' b he' hb).frame hs (fun p hp ↦ H.disjoint hb hc hj hp)
  · intro j b hb y hy
    rcases getElem?_set_cases hb with ⟨rfl, rfl⟩ | ⟨-, hb⟩
    · exact H.bucket _ _ hc y (hsub.mem hy)
    · exact H.bucket j b hb y hy
  · exact fun y hy ↦ H.hashed y (hflat.mem hy)
  · exact H.nodup.sublist (hflat.map Prod.fst)
  · show h.size - 1 = (t.remove x.2.key).entries.length
    rw [hentries, List.length_map, H.size, H.entries, List.length_map, hperm.length_eq]
    rfl
  · show 4 * (h.size - 1) ≤ 3 * h.bucketCount + 4
    have := H.load
    omega
  · refine (hs.mono (addresses ((L.take i).flatten ++ (L.drop (i + 1)).flatten))).congr (fun p ↦ ?_) (fun p ↦ ?_)
    · rw [cells, flatten_eq hc]
      simp only [addresses_append, List.mem_append]
      tauto
    · rw [cells, flatten_set hc]
      simp only [addresses_append, List.mem_append]
      tauto

/-- The entries of the first table with such a key are where they were. -/
def Covers (P : κ → Prop) (L L' : List (List (ℕ × Item κ α))) : Prop :=
  ∀ (i : ℕ) c x, L[i]? = some c → x ∈ c → P x.2.key → ∃ c' y, L'[i]? = some c' ∧ y ∈ c' ∧ y.1 = x.1 ∧ y.2.key = x.2.key

omit [DecidableEq κ] in
theorem Covers.refl (P : κ → Prop) (L : List (List (ℕ × Item κ α))) : Covers P L L :=
  fun _ c x hc hx _ ↦ ⟨c, x, hc, hx, rfl, rfl⟩

omit [DecidableEq κ] in
theorem covers_set {P : κ → Prop} {i : ℕ} {c d : List (ℕ × Item κ α)} (hc : L[i]? = some c)
    (hd : ∀ x ∈ c, P x.2.key → x ∈ d) : Covers P L (L.set i d) := by
  intro j b x hb hx hP
  by_cases hj : j = i
  · subst hj
    rw [hc] at hb
    cases hb
    exact ⟨d, x, List.getElem?_set_self (List.getElem?_eq_some_iff.mp hc).1, hd x hx hP, rfl, rfl⟩
  · exact ⟨b, x, by rwa [List.getElem?_set_ne (Ne.symm hj)], hx, rfl, rfl⟩

/-- What a removal returns and leaves. The entry of the key is freed, and the
others stay. -/
theorem remove_done (H : Holds s h L t) (key : κ) (hn : t.size < n) :
    ∃ s' h' L', remove h key n s = .done (t.lookup key, h') s' ∧ Holds s' h' L' (t.remove key) ∧
      Acts (cells L) (cells L') s s' ∧ h'.cursor = h.cursor ∧ Covers (· ≠ key) L L' ∧
      ∀ x ∈ L.flatten, x.2.key = key → s'.cell x.1 = none := by
  obtain ⟨e, c, he, hc, hchain⟩ := H.bucket_of key
  have hlen := Nat.lt_of_le_of_lt (H.length_le hc) hn
  have hrun : remove h key n s = loopFor (removeStep h (h.hashFunc key) key) n (none, e) n s := bucket_apply H key he
  rw [hrun]
  cases hf : c.find? (isKey key) with
  | none =>
    have hlookup : t.lookup key = none := by
      rw [H.lookup_eq hc, hf]
      rfl
    have hno : ∀ y ∈ c, isKey key y = false := by
      intro y hy
      simpa using List.find?_eq_none.mp hf y hy
    rw [hlookup, Table.remove_of_lookup_none t hlookup]
    refine ⟨s, h, L, removeLoop_none hchain hno hlen, H, Acts.refl _ _, rfl, Covers.refl _ _, fun x hx hk ↦ ?_⟩
    exact absurd (H.mem_keys.mpr ⟨x, hx, hk⟩) ((Table.lookup_eq_none_iff t key).mp hlookup)
  | some x =>
    obtain ⟨hx, d, d', rfl, hno⟩ := List.find?_eq_some_iff_append.mp hf
    have hk : x.2.key = key := by simpa [isKey] using hx
    have hxL : x ∈ L.flatten := Holds.mem_flatten hc (by simp)
    have hnodup : (addresses (d ++ x :: d')).Nodup := by
      have hsub := (List.sublist_flatten_of_mem (List.mem_of_getElem? hc)).map Prod.fst
      exact H.nodup.sublist hsub
    have hhash : h.hashFunc key = x.2.hash := by rw [H.func, H.hashed x hxL, hk]
    obtain ⟨s', r, hrun, hr, hs⟩ := removeLoop_some (n := n) hchain hnodup (by simpa using hno) ⟨hhash, hk.symm⟩
      (by rw [H.func, H.count]; exact he) hlen
    obtain ⟨H', hs'⟩ := H.shorten hc rfl hr hs
    rw [H.lookup_eq hc, hf]
    refine ⟨s', _, _, hrun, by simpa only [hk, H.func, H.count] using H', hs', rfl, covers_set hc ?_, ?_⟩
    · intro y hy hne
      rcases List.mem_append.mp hy with hy | hy
      · exact List.mem_append_left _ hy
      · rcases List.mem_cons.mp hy with rfl | hy
        · exact absurd hk hne
        · exact List.mem_append_right _ hy
    · intro y hy hky
      rw [H.eq_of_key hy hxL (hky.trans hk.symm)]
      refine hs.freed x.1 (by simp) (fun hm ↦ ?_)
      rw [addresses_append, addresses_cons, List.perm_middle.nodup_iff, List.nodup_cons, ← addresses_append] at hnodup
      exact hnodup.1 hm

theorem insertHere_old (H : Holds s h L t) (overwrites : Bool) {key : κ} (value : α) (hk : key ∈ t.keys)
    (hn : t.size < n) : ∃ s' L', insertHere overwrites h key value n s = .done (if overwrites then 1 else 0, h) s' ∧
      Holds s' h L' (if overwrites then t.alter key (fun _ ↦ value) else t) ∧ Acts (cells L) (cells L') s s' ∧
      Covers (fun _ ↦ True) L L' := by
  obtain ⟨e, c, he, hc, hchain⟩ := H.bucket_of key
  obtain ⟨r, hr, ⟨-, hno⟩ | ⟨x, q, hx, rfl, hq, rfl⟩⟩ := seek_bucket H hc hchain hn
  · exact absurd hk hno
  rw [insertHere, bucket_apply H _ he, bind_done hr]
  cases overwrites with
  | false => exact ⟨s, L, rfl, H, Acts.refl _ _, Covers.refl _ _⟩
  | true =>
    obtain ⟨H', hs⟩ := H.alter hx hq value
    refine ⟨_, _, bind_done (store_done hq), H', hs, fun i d y hd hy _ ↦ ?_⟩
    refine ⟨_, _, by rw [List.getElem?_map, hd]; rfl, List.mem_map_of_mem hy, rfl, ?_⟩
    dsimp only
    split <;> rfl

theorem insertHere_new (H : Holds s h L t) (overwrites : Bool) {key : κ} (value : α) (hk : key ∉ t.keys)
    (hroom : 4 * h.size ≤ 3 * h.bucketCount) (hn : t.size < n) :
    ∃ s' h' L', insertHere overwrites h key value n s = .done (1, h') s' ∧ Holds s' h' L' (t.add key value hk) ∧
      Acts (cells L) (cells L') s s' ∧ h'.cursor = h.cursor ∧ Covers (fun _ ↦ True) L L' := by
  obtain ⟨e, c, he, hc, hchain⟩ := H.bucket_of key
  obtain ⟨r, hr, ⟨rfl, -⟩ | ⟨x, q, hx, hkx, -⟩⟩ := seek_bucket H hc hchain hn
  · obtain ⟨H', hs⟩ := H.add value hk hroom he hc
    refine ⟨_, _, _, ?_, H', hs, rfl, covers_set hc (fun y hy _ ↦ List.mem_cons_of_mem _ hy)⟩
    rw [insertHere, bucket_apply H _ he, bind_done hr, H.func, H.count]
    rfl
  · exact absurd (H.mem_keys.mpr ⟨x, hx, hkx⟩) hk

end Cyque.Buckets
