import Cyque.Buckets

namespace Cyque.Rehashing

open Library.Execution Library.Pointers Library.Lookup Buckets

variable {κ α β : Type} {s s' : Heap (Entry κ α)} {h hn : HashTable κ} {L Ln : List (List (ℕ × Item κ α))}
variable {t u : Table κ α} {n : ℕ}

/-- The two cursors are at the same entry, or both at the end. -/
def Points (h : HashTable κ) (L : List (List (ℕ × Item κ α))) (t : Table κ α) : Prop :=
  (∃ i, h.cursor = some (i, none) ∧ t.cursor = none) ∨
    ∃ i c x, h.cursor = some (i, some x.1) ∧ L[i]? = some c ∧ x ∈ c ∧ t.cursor = some x.2.key

theorem holds_congr {h' : HashTable κ} {t' : Table κ α} (H : Holds s h L t) (hf : h'.hashFunc = h.hashFunc)
    (hb : h'.bucketCount = h.bucketCount) (hs : h'.size = h.size) (hbs : h'.buckets = h.buckets)
    (htf : t'.hash = t.hash) (htb : t'.bucketCount = t.bucketCount) (hte : t'.entries = t.entries) :
    Holds s h' L t' := by
  constructor
  · rw [hf, htf, H.func]
  · rw [hb, htb, H.count]
  · rw [htb]
    exact H.pos
  · rw [hbs, htb, H.buckets]
  · rw [htb, H.length]
  · rw [hbs]
    exact H.chain
  · rw [htf, htb]
    exact H.bucket
  · rw [htf]
    exact H.hashed
  · exact H.nodup
  · rw [hte, H.entries]
  · rw [hs, hte, H.size]
  · rw [hs, hb]
    exact H.load

theorem scan_spec {bs : List (Option ℕ)} {M : List (List (ℕ × Item κ α))} (hlen : bs.length = M.length)
    (hchain : ∀ (i : ℕ) e c, bs[i]? = some e → M[i]? = some c → Chain s e c) (j : ℕ) :
    (M.flatten = [] ∧ ∃ i, scan j bs = (i, none)) ∨
      ∃ (i : ℕ) (c : _) (x : _), M[i]? = some c ∧ x ∈ c ∧ M.flatten.head? = some x ∧ scan j bs = (j + i, some x.1) := by
  induction bs generalizing M j with
  | nil =>
    obtain rfl : M = [] := List.eq_nil_of_length_eq_zero hlen.symm
    exact .inl ⟨rfl, j, rfl⟩
  | cons b bs ih =>
    obtain _ | ⟨c, M⟩ := M
    · cases hlen
    have hc := hchain 0 b c rfl rfl
    cases c with
    | nil =>
      cases hc
      rcases ih (M := M) (Nat.succ.inj hlen) (fun i e c he hc ↦ hchain (i + 1) e c he hc) (j + 1) with ⟨hM, i, hi⟩ | h
      · exact .inl ⟨hM, i, hi⟩
      · obtain ⟨i, c, x, hc, hx, hh, hi⟩ := h
        refine .inr ⟨i + 1, c, x, hc, hx, hh, ?_⟩
        rw [scan, hi]
        congr 1
        omega
    | cons x c =>
      obtain ⟨rfl, -⟩ := hc
      exact .inr ⟨0, x :: c, x, rfl, List.mem_cons_self, rfl, rfl⟩

theorem firstkey_points (H : Holds s h L t) : Points (firstkey h) L t.firstKey := by
  have hlen : h.buckets.length = L.length := by rw [H.buckets, H.length]
  have hkeys : t.keys.head? = L.flatten.head?.map (fun x ↦ x.2.key) := by
    rw [Table.keys, H.entries, List.map_map, List.head?_map]
    rfl
  rcases scan_spec hlen H.chain 0 with ⟨hL, i, hi⟩ | ⟨i, c, x, hc, hx, hhead, hi⟩
  · refine .inl ⟨i, by rw [firstkey, hi], ?_⟩
    show t.keys.head? = none
    rw [hkeys, hL]
    rfl
  · refine .inr ⟨i, c, x, by rw [firstkey, hi, Nat.zero_add], hc, hx, ?_⟩
    show t.keys.head? = _
    rw [hkeys, hhead]
    rfl

theorem firstkey_holds (H : Holds s h L t) : Holds s (firstkey h) L t.firstKey :=
  holds_congr H rfl rfl rfl rfl rfl rfl rfl

/-- Where the pointer `next` of an entry leads, and from there the buckets
after its own. -/
def follow (h : HashTable κ) (i : ℕ) : Option ℕ → ℕ × Option ℕ
  | none => scan (i + 1) (h.buckets.drop (i + 1))
  | some e => (i, some e)

theorem nextkey_eq {i p : ℕ} {x : Item κ α} {q : Option ℕ} (hi : h.cursor = some (i, some p))
    (hp : s.cell p = some ⟨x, q⟩) :
    nextkey h n s = .done (some (x.key, x.value), { h with cursor := some (follow h i q) }) s := by
  rw [nextkey, hi]
  refine (bind_done (load_done hp)).trans ?_
  cases q <;> rfl

theorem follow_points (H : Holds s h L t) {i : ℕ} {x : ℕ × Item κ α} {c₁ c₂ : List (ℕ × Item κ α)}
    (hc : L[i]? = some (c₁ ++ x :: c₂)) {q : Option ℕ} (hq : Chain s q c₂) :
    Points { h with cursor := some (follow h i q) } L
      { t with cursor := ((c₂ ++ (L.drop (i + 1)).flatten).map (fun y ↦ y.2.key)).head? } := by
  cases c₂ with
  | cons y c₃ =>
    obtain ⟨rfl, -⟩ := hq
    exact .inr ⟨i, _, y, rfl, hc, by simp, rfl⟩
  | nil =>
    cases hq
    have hlen : (h.buckets.drop (i + 1)).length = (L.drop (i + 1)).length := by
      rw [List.length_drop, List.length_drop, H.buckets, H.length]
    have hchain : ∀ (j : ℕ) e c, (h.buckets.drop (i + 1))[j]? = some e → (L.drop (i + 1))[j]? = some c →
        Chain s e c := by
      intro j e c he hc
      rw [List.getElem?_drop] at he hc
      exact H.chain _ e c he hc
    rcases scan_spec hlen hchain (i + 1) with ⟨hL, j, hj⟩ | ⟨j, c, y, hc', hy, hhead, hj⟩
    · refine .inl ⟨j, congrArg some hj, ?_⟩
      dsimp only
      rw [hL]
      rfl
    · rw [List.getElem?_drop] at hc'
      refine .inr ⟨i + 1 + j, c, y, congrArg some hj, hc', hy, ?_⟩
      dsimp only
      rw [List.nil_append, List.head?_map, hhead]
      rfl

theorem nextkey_done [DecidableEq κ] (H : Holds s h L t) (hp : Points h L t) :
    ∃ o u cur, t.nextKey = some (o, u) ∧ nextkey h n s = .done (o, { h with cursor := some cur }) s ∧
      Holds s { h with cursor := some cur } L u ∧ Points { h with cursor := some cur } L u := by
  rcases hp with ⟨i, hi, ht⟩ | ⟨i, c, x, hi, hc, hx, ht⟩
  · have hsame : { h with cursor := some (i, none) } = h := by rw [← hi]
    refine ⟨none, t, (i, none), by rw [Table.nextKey, ht], ?_, ?_⟩
    · rw [hsame, nextkey, hi]
      rfl
    · rw [hsame]
      exact ⟨H, .inl ⟨i, hi, ht⟩⟩
  · obtain ⟨c₁, c₂, rfl⟩ := List.append_of_mem hx
    have hil : i < h.buckets.length := by
      rw [H.buckets, ← H.length]
      exact (List.getElem?_eq_some_iff.mp hc).1
    obtain ⟨m, -, rfl, q, hq, hc₂⟩ := Segment.append.mp (H.chain i _ _ (List.getElem?_eq_getElem hil) hc)
    have hkeys : t.Traversal (x.2.key :: (c₂ ++ (L.drop (i + 1)).flatten).map (fun y ↦ y.2.key)) := by
      refine ⟨((L.take i).flatten ++ c₁).map (fun y ↦ y.2.key), ?_, ht⟩
      rw [Table.keys, H.entries, flatten_eq hc]
      simp [Function.comp_def]
    obtain ⟨a, ha, hnext, -⟩ := hkeys.nextKey_cons
    have hvalue : a = x.2.value := by
      have hmem : (x.2.key, x.2.value) ∈ t.entries := by
        rw [H.entries]
        exact List.mem_map_of_mem (Holds.mem_flatten hc (by simp))
      rw [Table.mem_entries_iff, ha] at hmem
      exact Option.some_inj.mp hmem
    rw [hvalue] at hnext
    exact ⟨_, _, follow h i q, hnext, nextkey_eq hi hq, holds_congr H rfl rfl rfl rfl rfl rfl rfl,
      follow_points H hc hc₂⟩

/-- A table whose cursor does not agree, because its entry was removed or none
was ever chosen, has no next entry. -/
theorem nextkey_fault (hc : h.cursor = none ∨ ∃ i p, h.cursor = some (i, some p) ∧ s.cell p = none) :
    nextkey h n s = .fault := by
  rcases hc with hc | ⟨i, p, hc, hp⟩
  · rw [nextkey, hc]
    rfl
  · rw [nextkey, hc]
    show (load p >>= _) n s = _
    rw [bind_apply, load_fault hp]

section Delete

variable {e : Option ℕ} {c : List (ℕ × Item κ α)} {k : ℕ}

theorem freeBucket_done (hc : Chain s e c) (hn : (addresses c).Nodup) (hk : c.length < k) :
    ∃ s', loopFor freeStep k e n s = .done () s' ∧ Acts (addresses c) [] s s' := by
  induction c generalizing e k s with
  | nil =>
    obtain ⟨k, rfl⟩ : ∃ j, k = j + 1 := ⟨k - 1, by omega⟩
    cases hc
    exact ⟨s, rfl, Acts.refl _ _⟩
  | cons x c ih =>
    obtain ⟨k, rfl⟩ : ∃ j, k = j + 1 := ⟨k - 1, by omega⟩
    obtain ⟨rfl, q, hq, hc⟩ := hc
    rw [addresses_cons, List.nodup_cons] at hn
    have hstep : freeStep (some x.1) n s = .done (.inl q) (s.put x.1 none (Heap.lt_top hq)) := by
      rw [freeStep, bind_done (load_done hq), bind_done (free_done hq)]
      rfl
    have hacts : Acts (addresses (x :: c)) (addresses c) s (s.put x.1 none (Heap.lt_top hq)) := by
      refine Acts.erase List.mem_cons_self _ (fun p ↦ ?_)
      show p ∈ addresses c ↔ p ∈ x.1 :: addresses c ∧ p ≠ x.1
      rw [List.mem_cons]
      constructor
      · intro hp
        refine ⟨.inr hp, ?_⟩
        rintro rfl
        exact hn.1 hp
      · rintro ⟨rfl | hp, hne⟩
        · exact absurd rfl hne
        · exact hp
    have hc' : Chain (s.put x.1 none (Heap.lt_top hq)) q c := by
      refine hc.congr (fun p hp ↦ Heap.cell_put _ ?_)
      rintro rfl
      exact hn.1 hp
    obtain ⟨s', hs', ha⟩ := ih hc' hn.2 (k := k) (by rw [List.length_cons] at hk; omega)
    exact ⟨s', (loopFor_inl hstep).trans hs', hacts.trans ha⟩

theorem freeAll_done {bs : List (Option ℕ)} {M : List (List (ℕ × Item κ α))} (hlen : bs.length = M.length)
    (hchain : ∀ (i : ℕ) e c, bs[i]? = some e → M[i]? = some c → Chain s e c) (hd : (cells M).Nodup)
    (hn : M.flatten.length < n) : ∃ s', forEach freeBucket bs n s = .done () s' ∧ Acts (cells M) [] s s' := by
  induction bs generalizing M s with
  | nil =>
    obtain rfl : M = [] := List.eq_nil_of_length_eq_zero hlen.symm
    exact ⟨s, rfl, Acts.refl _ _⟩
  | cons b bs ih =>
    obtain _ | ⟨c, M⟩ := M
    · cases hlen
    rw [List.flatten_cons, List.length_append] at hn
    rw [cells, List.flatten_cons, addresses_append, List.nodup_append] at hd
    obtain ⟨hdc, hdM, hdis⟩ := hd
    obtain ⟨s₁, hs₁, ha₁⟩ := freeBucket_done (n := n) (k := n) (hchain 0 b c rfl rfl) hdc (by omega)
    have hchain₁ : ∀ (i : ℕ) e d, bs[i]? = some e → M[i]? = some d → Chain s₁ e d := by
      intro i e d he hd
      refine (hchain (i + 1) e d he hd).frame ha₁ (fun p hp hpc ↦ ?_)
      have hpM : p ∈ addresses M.flatten := by
        obtain ⟨x, hx, rfl⟩ := List.mem_map.mp hp
        exact List.mem_map_of_mem (Holds.mem_flatten hd hx)
      exact hdis p hpc p hpM rfl
    obtain ⟨s₂, hs₂, ha₂⟩ := ih (Nat.succ.inj hlen) hchain₁ hdM (by omega)
    refine ⟨s₂, ?_, ?_⟩
    · rw [forEach, bind_done (show freeBucket b n s = _ from hs₁)]
      exact hs₂
    · rw [cells, List.flatten_cons, addresses_append]
      exact (ha₁.mono _).trans ha₂

theorem delete_done (H : Holds s h L t) (hn : t.size < n) :
    ∃ s', delete h n s = .done () s' ∧ Acts (cells L) [] s s' := by
  refine freeAll_done ?_ H.chain H.nodup ?_
  · rw [H.buckets, H.length]
  · rwa [Table.size, H.entries, List.length_map] at hn

end Delete

theorem create_holds (s : Heap (Entry κ α)) (func : κ → ℕ) {count : ℕ} (hc : 0 < count) :
    Holds s (create count func) (List.replicate count []) ⟨func, count, [], none, List.nodup_nil⟩ := by
  have hcreate : create count func = ⟨func, count, 0, List.replicate count none, none⟩ := by
    rw [create, if_neg (by omega)]
  have hflat : (List.replicate count ([] : List (ℕ × Item κ α))).flatten = [] := by simp
  rw [hcreate]
  refine ⟨rfl, rfl, hc, List.length_replicate, List.length_replicate, ?_, ?_, ?_, ?_, ?_, rfl, ?_⟩
  · intro i e c he hc
    rw [List.eq_of_mem_replicate (List.mem_of_getElem? he), List.eq_of_mem_replicate (List.mem_of_getElem? hc)]
    rfl
  · intro i c hc x hx
    rw [List.eq_of_mem_replicate (List.mem_of_getElem? hc)] at hx
    cases hx
  · rw [hflat]
    exact fun x hx ↦ nomatch hx
  · rw [hflat]
    exact List.nodup_nil
  · rw [hflat]
    rfl
  · show 4 * 0 ≤ 3 * count + 4
    omega

variable [DecidableEq κ]

theorem insertFor_new (H : Holds s h L t) (overwrites : Bool) (depth : ℕ) {key : κ} (value : α) (hk : key ∉ t.keys)
    (hroom : 4 * h.size ≤ 3 * h.bucketCount) (hn : t.size < n) :
    ∃ s' h' L', insertFor overwrites (depth + 1) h key value n s = .done (1, h') s' ∧
      Holds s' h' L' (t.add key value hk) ∧ Acts (cells L) (cells L') s s' := by
  obtain ⟨s', h', L', hr, H', hs, -⟩ := insertHere_new H overwrites value hk hroom hn
  refine ⟨s', h', L', ?_, H', hs⟩
  have hno : makeRoom (insertFor overwrites depth) h = (pure h : Code κ α _) := if_neg (by omega)
  rw [insertFor, hno]
  exact hr

/-- What is left of the traversal goes to the new table, which has room. -/
theorem copy_done (overwrites : Bool) (depth : ℕ) (es : List (κ × α)) {k : ℕ} (H : Holds s h L t) (hp : Points h L t)
    (ht : ∃ seen, t.entries = seen ++ es) (hcur : t.cursor = (es.map Prod.fst).head?) (Hn : Holds s hn Ln u)
    (hd : ∀ p ∈ cells L, p ∉ cells Ln) (hnew : ∀ x ∈ es, x.1 ∉ u.keys)
    (hroom : 4 * (u.size + es.length) ≤ 3 * u.bucketCount + 4) (hn' : u.size + es.length < n) (hk : es.length < k) :
    ∃ s' cur hn' Ln' u', loopFor (copyStep (insertFor overwrites (depth + 1))) k (h, hn) n s =
        .done (.inr ({ h with cursor := some cur }, hn')) s' ∧ cur.2 = none ∧ Holds s' h L t ∧ Holds s' hn' Ln' u' ∧
      u'.entries = es.foldl (fun ds e ↦ Table.place (fun j ↦ u.hash j % u.bucketCount) e ds) u.entries ∧
      u'.hash = u.hash ∧ u'.bucketCount = u.bucketCount ∧ Acts (cells Ln) (cells Ln') s s' := by
  induction es generalizing s h t hn Ln u k with
  | nil =>
    obtain ⟨k, rfl⟩ : ∃ j, k = j + 1 := ⟨k - 1, by omega⟩
    rcases hp with ⟨i, hi, -⟩ | ⟨i, c, x, -, -, -, hx⟩
    · refine ⟨s, (i, none), hn, Ln, u, loopFor_inr ?_, rfl, H, Hn, rfl, rfl, rfl, Acts.refl _ _⟩
      have hsame : { h with cursor := some (i, none) } = h := by rw [← hi]
      rw [hsame, copyStep, nextkey, hi]
      rfl
    · rw [hcur] at hx
      cases hx
  | cons x es ih =>
    obtain ⟨k, rfl⟩ : ∃ j, k = j + 1 := ⟨k - 1, by omega⟩
    obtain ⟨seen, hseen⟩ := ht
    have htr : t.Traversal (x.1 :: es.map Prod.fst) := by
      refine ⟨seen.map Prod.fst, ?_, hcur⟩
      rw [Table.keys, hseen, List.map_append, List.map_cons]
    obtain ⟨a, ha, hnext, -⟩ := htr.nextKey_cons
    have hax : t.lookup x.1 = some x.2 := by
      rw [← Table.mem_entries_iff, hseen]
      simp
    rw [hax] at ha
    cases ha
    obtain ⟨o, t₁, cur, hnext₁, hrun, H₁, hp₁⟩ := nextkey_done (n := n) H hp
    rw [hnext] at hnext₁
    cases hnext₁
    have hsize : hn.size = u.size := Hn.size
    have hcount := Hn.count
    rw [List.length_cons] at hroom hn' hk
    have hx := hnew x List.mem_cons_self
    obtain ⟨s₁, hn₁, Ln₁, hins, Hn₁, hs₁⟩ := insertFor_new Hn overwrites depth x.2 hx (by omega) (n := n) (by omega)
    have hstep : copyStep (insertFor overwrites (depth + 1)) (h, hn) n s =
        .done (.inl ({ h with cursor := some cur }, hn₁)) s₁ := by
      rw [copyStep, bind_done hrun]
      exact bind_done hins
    have hadd : (u.add x.1 x.2 hx).size = u.size + 1 := (Table.place_perm _ _ _).length_eq
    have hd₁ : ∀ p ∈ cells L, p ∉ cells Ln₁ := by
      intro p hp hp'
      rcases hs₁.fresh p hp' with hpn | htop
      · exact hd p hp hpn
      · have := H.lt_top hp
        omega
    have hnew₁ : ∀ y ∈ es, y.1 ∉ (u.add x.1 x.2 hx).keys := by
      intro y hy hm
      have hm' : y.1 ∈ x.1 :: u.keys := ((Table.place_perm _ _ _).map Prod.fst).mem_iff.mp hm
      rcases List.mem_cons.mp hm' with he | hm'
      · have hnd := t.nodup
        rw [hseen, List.map_append, List.nodup_append, List.map_cons, List.nodup_cons] at hnd
        exact hnd.2.1.1 (he ▸ List.mem_map_of_mem hy)
      · exact hnew y (List.mem_cons_of_mem _ hy) hm'
    obtain ⟨s', cur', hn₂, Ln₂, u₂, hr, hc', H', Hn', hent, hhash, hcnt, hs'⟩ :=
      ih (k := k) (H₁.frame hs₁ hd) hp₁ ⟨seen ++ [x], by simp [hseen]⟩ rfl Hn₁ hd₁ hnew₁
        (by rw [hadd]; show 4 * (u.size + 1 + es.length) ≤ 3 * u.bucketCount + 4; omega) (by omega) (by omega)
    exact ⟨s', cur', hn₂, Ln₂, u₂, (loopFor_inl hstep).trans hr, hc', holds_congr H' rfl rfl rfl rfl rfl rfl rfl, Hn',
      hent, hhash, hcnt, hs₁.trans hs'⟩

theorem doubleBuckets_done (H : Holds s h L t) (overwrites : Bool) (depth : ℕ) (hg : 3 * t.bucketCount < 4 * t.size)
    (hn : t.size < n) : ∃ s' h' L' i, doubleBuckets (insertFor overwrites (depth + 1)) h n s = .done h' s' ∧
      Holds s' h' L' t.grow ∧ Acts (cells L) (cells L') s s' ∧ h'.cursor = some (i, none) := by
  have hpos := H.pos
  have hload := H.load
  have hcount := H.count
  have hsize : h.size = t.size := H.size
  have Hn : Holds s (create (2 * h.bucketCount) h.hashFunc) (List.replicate (2 * h.bucketCount) [])
      ⟨h.hashFunc, 2 * h.bucketCount, [], none, List.nodup_nil⟩ := create_holds s h.hashFunc (by omega)
  have hnil : cells (List.replicate (2 * h.bucketCount) ([] : List (ℕ × Item κ α))) = [] := by simp [cells]
  have hroom : 4 * (0 + t.size) ≤ 3 * (2 * h.bucketCount) + 4 := by omega
  obtain ⟨s₁, cur, hn₁, Ln, u, hr, hcur, H₁, Hn₁, hent, hhash, hcnt, hs₁⟩ :=
    copy_done overwrites depth t.entries (k := n) (firstkey_holds H) (firstkey_points H) ⟨[], rfl⟩ rfl Hn
      (by rw [hnil]; exact fun _ _ ↦ List.not_mem_nil) (fun _ _ ↦ List.not_mem_nil) hroom (n := n)
      (by show 0 + t.size < n; omega) hn
  rw [hnil] at hs₁
  obtain ⟨s₂, hdel, hs₂⟩ := delete_done (h := { firstkey h with cursor := some cur }) (n := n)
    (holds_congr H₁ rfl rfl rfl rfl rfl rfl rfl) hn
  have hdis : ∀ p ∈ cells Ln, p ∉ cells L := by
    intro p hp hpL
    rcases hs₁.fresh p hp with hp | htop
    · cases hp
    · have := H.lt_top hpL
      omega
  have hg' : 3 * t.bucketCount < 4 * t.entries.length := hg
  refine ⟨s₂, { firstkey h with
      cursor := some cur, buckets := hn₁.buckets, bucketCount := hn₁.bucketCount, size := hn₁.size },
    Ln, cur.1, ?_, holds_congr (Hn₁.frame hs₂ hdis) ?_ rfl rfl rfl ?_ ?_ ?_, ?_, ?_⟩
  · rw [doubleBuckets, bind_done (show loop _ _ n s = _ from hr)]
    exact bind_done hdel
  · exact (Hn₁.func.trans hhash).symm
  · rw [Table.grow, if_pos hg', hhash]
    exact H.func.symm
  · rw [Table.grow, if_pos hg', hcnt, hcount]
  · rw [Table.grow, if_pos hg', hent, H.func, hcount]
    rfl
  · have h₁ := hs₁.mono (cells L)
    have h₂ := (hs₂.mono (cells Ln)).congr (B := cells Ln ++ cells L) (fun p ↦ List.perm_append_comm.mem_iff)
      (fun p ↦ Iff.rfl)
    exact h₁.trans h₂
  · show some cur = some (cur.1, none)
    rw [← hcur]

omit [DecidableEq κ] in
theorem grow_of_not (hg : ¬ 3 * t.bucketCount < 4 * t.size) : t.grow = t := if_neg hg

/-- The table before the insertion proper: where its cursor is depends on
whether it was doubled. -/
theorem makeRoom_done (H : Holds s h L t) (overwrites : Bool) (depth : ℕ) (hn : t.size < n) :
    ∃ s' h' L', makeRoom (insertFor overwrites (depth + 1)) h n s = .done h' s' ∧
      Holds s' h' L' t.grow ∧ Acts (cells L) (cells L') s s' ∧ 4 * h'.size ≤ 3 * h'.bucketCount ∧
      (3 * t.bucketCount < 4 * t.size ∧ (∃ i, h'.cursor = some (i, none)) ∨
        ¬ 3 * t.bucketCount < 4 * t.size ∧ h'.cursor = h.cursor ∧ L' = L) := by
  have hsize : h.size = t.size := H.size
  have hcount := H.count
  by_cases hg : 3 * t.bucketCount < 4 * t.size
  · obtain ⟨s', h', L', i, hr, H', hs, hi⟩ := doubleBuckets_done H overwrites depth hg hn
    have hgrow : t.grow.bucketCount = 2 * t.bucketCount := by
      rw [Table.grow, if_pos (show 3 * t.bucketCount < 4 * t.entries.length from hg)]
    have hsize' : h'.size = t.size := H'.size.trans (Table.size_grow t)
    have hcount' := H'.count.trans hgrow
    have := H.load
    have := H.pos
    rw [makeRoom, if_pos (by omega)]
    exact ⟨s', h', L', hr, H', hs, by omega, .inl ⟨hg, i, hi⟩⟩
  · rw [makeRoom, if_neg (by omega), grow_of_not hg]
    exact ⟨s, h, L, rfl, H, Acts.refl _ _, by omega, .inr ⟨hg, rfl, rfl⟩⟩

/-- What an insertion does to a table that has room. -/
def inserted (overwrites : Bool) (key : κ) (value : α) (t : Table κ α) : Table κ α :=
  if h : key ∈ t.keys then if overwrites then t.alter key (fun _ ↦ value) else t else t.add key value h

theorem insertHere_done (H : Holds s h L t) (overwrites : Bool) (key : κ) (value : α)
    (hroom : 4 * h.size ≤ 3 * h.bucketCount) (hn : t.size < n) :
    ∃ s' h' L', insertHere overwrites h key value n s =
        .done (if key ∈ t.keys ∧ overwrites = false then 0 else 1, h') s' ∧
      Holds s' h' L' (inserted overwrites key value t) ∧ Acts (cells L) (cells L') s s' ∧ h'.cursor = h.cursor ∧
      Covers (fun _ ↦ True) L L' := by
  by_cases hk : key ∈ t.keys
  · obtain ⟨s', L', hr, H', hs, hc⟩ := insertHere_old H overwrites value hk hn
    refine ⟨s', h, L', ?_, ?_, hs, rfl, hc⟩
    · rw [hr]
      cases overwrites <;> simp [hk]
    · rw [inserted, dif_pos hk]
      exact H'
  · obtain ⟨s', h', L', hr, H', hs, hcur, hc⟩ := insertHere_new H overwrites value hk hroom hn
    refine ⟨s', h', L', ?_, ?_, hs, hcur, hc⟩
    · rw [hr, if_neg (fun h ↦ hk h.1)]
    · rw [inserted, dif_neg hk]
      exact H'

theorem inserted_grow (overwrites : Bool) (key : κ) (value : α) (t : Table κ α) :
    inserted overwrites key value t.grow = if overwrites then t.insert key value else t.insertNew key value := by
  cases overwrites <;> rfl

theorem insert_done (H : Holds s h L t) (overwrites : Bool) (key : κ) (value : α) (hn : t.size + 1 < n) :
    ∃ s' h' L', insert overwrites h key value n s = .done (if key ∈ t.keys ∧ overwrites = false then 0 else 1, h') s' ∧
      Holds s' h' L' (inserted overwrites key value t.grow) ∧ Acts (cells L) (cells L') s s' ∧
      (3 * t.bucketCount < 4 * t.size ∧ (∃ i, h'.cursor = some (i, none)) ∨
        ¬ 3 * t.bucketCount < 4 * t.size ∧ h'.cursor = h.cursor ∧ Covers (fun _ ↦ True) L L') := by
  obtain ⟨m, rfl⟩ : ∃ m, n = m + 2 := ⟨n - 2, by omega⟩
  obtain ⟨s₁, h₁, L₁, hr₁, H₁, hs₁, hroom, hcase⟩ := makeRoom_done H overwrites m (n := m + 2) (by omega)
  obtain ⟨s₂, h₂, L₂, hr₂, H₂, hs₂, hcur, hcov⟩ := insertHere_done H₁ overwrites key value hroom (n := m + 2)
    (by rw [Table.size_grow]; omega)
  refine ⟨s₂, h₂, L₂, ?_, H₂, hs₁.trans hs₂, ?_⟩
  · simp only [Table.mem_keys_grow] at hr₂
    show insertFor overwrites (m + 2) h key value (m + 2) s = _
    rw [insertFor, bind_done hr₁]
    exact hr₂
  · rw [hcur]
    rcases hcase with hcase | ⟨hg, hcur₁, rfl⟩
    · exact .inl hcase
    · exact .inr ⟨hg, hcur₁, hcov⟩

end Cyque.Rehashing
