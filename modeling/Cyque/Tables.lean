import Cyque.Rehashing

namespace Cyque.Tables

open Library.Execution Library.Pointers Library.Lookup Buckets Rehashing

variable {κ α β : Type}

inductive Call (κ α : Type)
  | lookup (key : κ)
  | insert (key : κ) (value : α)
  | remove (key : κ)
  | size
  | firstkey
  | nextkey

inductive Answer (κ α : Type)
  | value (o : Option α)
  | number (n : ℕ)
  | nothing
  | entry (o : Option (κ × α))

section Calls

variable [DecidableEq κ]

def call (overwrites : Bool) (h : HashTable κ) : Call κ α → Code κ α (Answer κ α × HashTable κ)
  | .lookup key => do
    let o ← lookup h key
    pure (.value o, h)
  | .insert key value => do
    let (done, h) ← insert overwrites h key value
    pure (.number done, h)
  | .remove key => do
    let (o, h) ← remove h key
    pure (.value o, h)
  | .size => pure (.number h.size, h)
  | .firstkey => pure (.nothing, firstkey h)
  | .nextkey => do
    let (o, h) ← nextkey h
    pure (.entry o, h)

def calls (overwrites : Bool) : List (Call κ α) → HashTable κ → Code κ α (List (Answer κ α) × HashTable κ)
  | [], h => pure ([], h)
  | c :: cs, h => do
    let (a, h) ← call overwrites h c
    let (as, h) ← calls overwrites cs h
    pure (a :: as, h)

/-- A table, and whether its cursor is of no use: no traversal was started, or
the entry that comes next was removed. -/
structure Watched (κ α : Type) where
  table : Table κ α
  stale : Bool

namespace Watched

/-- A call on the table as a whole. A traversal with a cursor of no use has no
meaning. -/
def call (overwrites : Bool) (w : Watched κ α) : Call κ α → Option (Answer κ α × Watched κ α)
  | .lookup key => some (.value (w.table.lookup key), w)
  | .insert key value =>
    some (.number (if key ∈ w.table.keys ∧ overwrites = false then 0 else 1),
      { table := if overwrites then w.table.insert key value else w.table.insertNew key value
        stale := w.stale && decide (4 * w.table.size ≤ 3 * w.table.bucketCount) })
  | .remove key =>
    some (.value (w.table.lookup key), ⟨w.table.remove key, w.stale || decide (w.table.cursor = some key)⟩)
  | .size => some (.number w.table.size, w)
  | .firstkey => some (.nothing, ⟨w.table.firstKey, false⟩)
  | .nextkey => if w.stale then none else w.table.nextKey.map (fun x ↦ (.entry x.1, ⟨x.2, false⟩))

def calls (overwrites : Bool) : List (Call κ α) → Watched κ α → Option (List (Answer κ α) × Watched κ α)
  | [], w => some ([], w)
  | c :: cs, w => do
    let (a, w) ← call overwrites w c
    let (as, w) ← calls overwrites cs w
    pure (a :: as, w)

theorem calls_cons_none {overwrites : Bool} {w : Watched κ α} {c : Call κ α} (h : w.call overwrites c = none)
    (cs : List (Call κ α)) : calls overwrites (c :: cs) w = none := by
  rw [calls, h]
  rfl

theorem calls_cons_some {overwrites : Bool} {w w' : Watched κ α} {c : Call κ α} {a : Answer κ α}
    (h : w.call overwrites c = some (a, w')) (cs : List (Call κ α)) :
    calls overwrites (c :: cs) w = (calls overwrites cs w').map (fun x ↦ (a :: x.1, x.2)) := by
  rw [calls, h]
  cases hc : calls overwrites cs w' <;> simp [hc]

end Watched

end Calls

/-- The cursor is not set or its entry is freed. -/
def Dangles (s : Heap (Entry κ α)) (h : HashTable κ) : Prop :=
  h.cursor = none ∨ ∃ i p, h.cursor = some (i, some p) ∧ s.cell p = none ∧ p < s.top

/-- The table in memory stands for the other one. -/
structure Stands (s : Heap (Entry κ α)) (h : HashTable κ) (L : List (List (ℕ × Item κ α))) (w : Watched κ α) :
    Prop where
  holds : Holds s h L w.table
  points : w.stale = false → Points h L w.table
  dangles : w.stale = true → Dangles s h

variable {s s' : Heap (Entry κ α)} {h h' : HashTable κ} {L L' : List (List (ℕ × Item κ α))}
variable {t t' : Table κ α} {w : Watched κ α} {n : ℕ}

theorem points_covers {P : κ → Prop} (hp : Points h L t) (hc : Covers P L L') (hP : ∀ k, t.cursor = some k → P k)
    (hh : h'.cursor = h.cursor) (ht : t'.cursor = t.cursor) : Points h' L' t' := by
  rcases hp with ⟨i, hi, hcur⟩ | ⟨i, c, x, hi, hL, hx, hcur⟩
  · exact .inl ⟨i, hh.trans hi, ht.trans hcur⟩
  · obtain ⟨c', y, hc', hy, hyp, hyk⟩ := hc i c x hL hx (hP _ hcur)
    refine .inr ⟨i, c', y, ?_, hc', hy, ?_⟩
    · rw [hh, hi, hyp]
    · rw [ht, hcur, hyk]

theorem dangles_acts (H : Holds s h L t) (hd : Dangles s h) (hs : Acts (cells L) (cells L') s s')
    (hh : h'.cursor = h.cursor) : Dangles s' h' := by
  rcases hd with hd | ⟨i, p, hi, hp, ht⟩
  · exact .inl (hh.trans hd)
  · refine .inr ⟨i, p, hh.trans hi, ?_, Nat.lt_of_lt_of_le ht hs.top⟩
    rw [hs.frame (fun hm ↦ ?_) ht, hp]
    obtain ⟨x, hx, rfl⟩ := List.mem_map.mp hm
    obtain ⟨q, hq⟩ := H.cell hx
    rw [hp] at hq
    cases hq

/-- How the code ends where the functions on tables end so. -/
def Ends (s : Heap (Entry κ α)) (L : List (List (ℕ × Item κ α))) :
    Option (β × Watched κ α) → Outcome (Heap (Entry κ α)) (β × HashTable κ) → Prop
  | none, r => r = .fault
  | some (a, w), r => ∃ s' h' L', r = .done (a, h') s' ∧ Stands s' h' L' w ∧ Acts (cells L) (cells L') s s'

variable [DecidableEq κ]

theorem inserted_cursor (overwrites : Bool) (key : κ) (value : α) (t : Table κ α) :
    (inserted overwrites key value t).cursor = t.cursor := by
  unfold inserted
  split
  · cases overwrites <;> rfl
  · rfl

theorem insert_ends (overwrites : Bool) (H : Stands s h L w) (key : κ) (value : α) (hn : w.table.size + 1 < n) :
    Ends s L (w.call overwrites (.insert key value)) (call overwrites h (.insert key value) n s) := by
  obtain ⟨s', h', L', hr, H', hs, hcase⟩ := insert_done H.holds overwrites key value hn
  have hcur := inserted_cursor overwrites key value w.table.grow
  rw [inserted_grow] at H' hcur
  refine ⟨s', h', L', ?_, ⟨H', fun hst ↦ ?_, fun hst ↦ ?_⟩, hs⟩
  · rw [call, bind_done hr]
    rfl
  · rcases hcase with ⟨hg, i, hi⟩ | ⟨hg, hi, hc⟩
    · refine .inl ⟨i, hi, hcur.trans ?_⟩
      rw [Table.grow, if_pos (show 3 * w.table.bucketCount < 4 * w.table.entries.length from hg)]
    · rw [grow_of_not hg] at hcur
      refine points_covers (H.points ?_) hc (fun _ _ ↦ trivial) hi hcur
      simpa [show 4 * w.table.size ≤ 3 * w.table.bucketCount by omega] using hst
  · have hst' : w.stale = true ∧ 4 * w.table.size ≤ 3 * w.table.bucketCount := by simpa using hst
    rcases hcase with ⟨hg, -⟩ | ⟨-, hi, -⟩
    · omega
    · exact dangles_acts H.holds (H.dangles hst'.1) hs hi

theorem remove_ends (overwrites : Bool) (H : Stands s h L w) (key : κ) (hn : w.table.size + 1 < n) :
    Ends s L (w.call overwrites (.remove key)) (call overwrites h (.remove key) n s) := by
  obtain ⟨s', h', L', hr, H', hs, hi, hc, hfree⟩ := remove_done (n := n) H.holds key (by omega)
  refine ⟨s', h', L', ?_, ⟨H', fun hst ↦ ?_, fun hst ↦ ?_⟩, hs⟩
  · rw [call, bind_done hr]
    rfl
  · have hst' : w.stale = false ∧ w.table.cursor ≠ some key := by simpa using hst
    refine points_covers (H.points hst'.1) hc (fun k hk ↦ ?_) hi rfl
    rintro rfl
    exact hst'.2 hk
  · by_cases hw : w.stale = true
    · exact dangles_acts H.holds (H.dangles hw) hs hi
    · have hcur : w.table.cursor = some key := by simpa [hw] using hst
      rcases H.points (by simpa using hw) with ⟨i, -, hcur'⟩ | ⟨i, c, x, hx, hL, hxc, hcur'⟩
      · rw [hcur] at hcur'
        cases hcur'
      · rw [hcur] at hcur'
        have hxL := Holds.mem_flatten hL hxc
        refine .inr ⟨i, x.1, hi.trans hx, hfree x hxL (Option.some_inj.mp hcur').symm, ?_⟩
        exact Nat.lt_of_lt_of_le (H.holds.lt_top (List.mem_map_of_mem hxL)) hs.top

theorem nextkey_ends (overwrites : Bool) (H : Stands s h L w) :
    Ends s L (w.call overwrites .nextkey) (call overwrites h .nextkey n s) := by
  cases hw : w.stale with
  | true =>
    have hfault : nextkey h n s = .fault := by
      refine nextkey_fault ?_
      rcases H.dangles hw with hd | ⟨i, p, hi, hp, -⟩
      · exact .inl hd
      · exact .inr ⟨i, p, hi, hp⟩
    rw [Watched.call, hw]
    show (nextkey h >>= _) n s = .fault
    rw [bind_apply, hfault]
  | false =>
    obtain ⟨o, u, cur, hnext, hr, H', hp⟩ := nextkey_done (n := n) H.holds (H.points hw)
    rw [Watched.call, hw, hnext]
    refine ⟨s, _, L, ?_, ⟨H', fun _ ↦ hp, (nomatch ·)⟩, Acts.refl _ _⟩
    rw [call, bind_done hr]
    rfl

/-- One call, in memory and on the table. -/
theorem call_ends (overwrites : Bool) (H : Stands s h L w) (c : Call κ α) (hn : w.table.size + 1 < n) :
    Ends s L (w.call overwrites c) (call overwrites h c n s) := by
  cases c with
  | lookup key =>
    refine ⟨s, h, L, ?_, H, Acts.refl _ _⟩
    rw [call, bind_done (lookup_done H.holds key (by omega))]
    rfl
  | size =>
    refine ⟨s, h, L, ?_, H, Acts.refl _ _⟩
    rw [call, show h.size = w.table.size from H.holds.size]
    rfl
  | firstkey =>
    exact ⟨s, firstkey h, L, rfl, ⟨firstkey_holds H.holds, fun _ ↦ firstkey_points H.holds, (nomatch ·)⟩,
      Acts.refl _ _⟩
  | nextkey => exact nextkey_ends overwrites H
  | insert key value => exact insert_ends overwrites H key value hn
  | remove key => exact remove_ends overwrites H key hn

theorem calls_ends (overwrites : Bool) (cs : List (Call κ α)) (w : Watched κ α) : ∃ N, ∀ n ≥ N, ∀ s h L,
    Stands s h L w → Ends s L (Watched.calls overwrites cs w) (calls overwrites cs h n s) := by
  induction cs generalizing w with
  | nil => exact ⟨0, fun n _ s h L H ↦ ⟨s, h, L, rfl, H, Acts.refl _ _⟩⟩
  | cons c cs ih =>
    cases hw : w.call overwrites c with
    | none =>
      refine ⟨w.table.size + 2, fun n hn s h L H ↦ ?_⟩
      have hc := call_ends overwrites H c (n := n) (by omega)
      rw [hw] at hc
      rw [Watched.calls_cons_none hw]
      show (call overwrites h c >>= _) n s = .fault
      rw [bind_apply, show call overwrites h c n s = .fault from hc]
    | some x =>
      obtain ⟨a, w'⟩ := x
      obtain ⟨N, hN⟩ := ih w'
      refine ⟨max (w.table.size + 2) N, fun n hn s h L H ↦ ?_⟩
      have hc := call_ends overwrites H c (n := n) (by omega)
      rw [hw] at hc
      obtain ⟨s₁, h₁, L₁, hr₁, H₁, hs₁⟩ := hc
      have hcs := hN n (by omega) s₁ h₁ L₁ H₁
      rw [Watched.calls_cons_some hw, calls, bind_done hr₁]
      cases hws : Watched.calls overwrites cs w' with
      | none =>
        rw [hws] at hcs
        show (calls overwrites cs h₁ >>= _) n s₁ = .fault
        rw [bind_apply, show calls overwrites cs h₁ n s₁ = .fault from hcs]
      | some y =>
        rw [hws] at hcs
        obtain ⟨s₂, h₂, L₂, hr₂, H₂, hs₂⟩ := hcs
        exact ⟨s₂, h₂, L₂, bind_done hr₂, H₂, hs₁.trans hs₂⟩

def Watched.create (count : ℕ) (func : κ → ℕ) : Watched κ α :=
  ⟨⟨func, (Buckets.create count func).bucketCount, [], none, List.nodup_nil⟩, true⟩

omit [DecidableEq κ] in
theorem create_stands (s : Heap (Entry κ α)) (count : ℕ) (func : κ → ℕ) :
    ∃ L, Stands s (create count func) L (Watched.create count func) ∧ cells L = [] := by
  have hpos : 0 < (create count func).bucketCount := by
    unfold create
    dsimp only
    split
    · decide
    · omega
  have hc : create (create count func).bucketCount func = create count func := by
    unfold create
    dsimp only
    split <;> simp
  have H := create_holds (α := α) s func hpos
  rw [hc] at H
  exact ⟨_, ⟨H, (nomatch ·), fun _ ↦ .inl rfl⟩, by simp [cells]⟩

/-- Whatever a program calls, the code does what the functions on tables say,
and it faults where these give a traversal no meaning. -/
theorem table_refines (overwrites : Bool) (count : ℕ) (func : κ → ℕ) (cs : List (Call κ α)) : ∃ N, ∀ n ≥ N,
    Ends (Heap.empty _) [] (Watched.calls overwrites cs (Watched.create count func))
      (calls overwrites cs (create count func) n (Heap.empty _)) := by
  obtain ⟨N, hN⟩ := calls_ends overwrites cs (Watched.create count func)
  refine ⟨N, fun n hn ↦ ?_⟩
  obtain ⟨L, H, hL⟩ := create_stands (Heap.empty (Entry κ α)) count func
  have hends := hN n hn _ _ _ H
  unfold Ends at hends ⊢
  rw [hL] at hends
  exact hends

def stored (overwrites : Bool) (m : κ → Option α) : Call κ α → κ → Option α
  | .insert key value => if overwrites = false ∧ (m key).isSome then m else Function.update m key (some value)
  | .remove key => Function.update m key none
  | _ => m

def contents (overwrites : Bool) (cs : List (Call κ α)) : κ → Option α :=
  cs.foldl (stored overwrites) (fun _ ↦ none)

theorem call_stored {overwrites : Bool} {w' : Watched κ α} {c : Call κ α} {a : Answer κ α}
    (h : w.call overwrites c = some (a, w')) :
    w'.table.lookup = stored overwrites w.table.lookup c := by
  cases c with
  | lookup key | size | firstkey =>
    cases h
    rfl
  | nextkey =>
    rw [Watched.call] at h
    split at h
    · cases h
    · obtain ⟨⟨o, u⟩, hu, he⟩ := Option.map_eq_some_iff.mp h
      cases he
      funext k
      show u.entries.lookup k = _
      rw [(Table.nextKey_eq_some hu).1]
      rfl
  | remove key =>
    cases h
    funext k
    rw [Table.lookup_remove, stored, Function.update_apply]
  | insert key value =>
    cases h
    funext k
    simp only [stored]
    cases overwrites with
    | true =>
      rw [if_pos rfl, Table.lookup_insert]
      simp [Function.update_apply]
    | false =>
      rw [if_neg (by simp), Table.lookup_insertNew]
      cases hk : w.table.lookup key with
      | none => simp [Function.update_apply]
      | some b =>
        simp only [Option.getD_some, Option.isSome_some, and_self, if_true]
        split
        · rename_i he
          rw [he, hk]
        · rfl

theorem calls_stored {overwrites : Bool} {w' : Watched κ α} {cs : List (Call κ α)} {as : List (Answer κ α)}
    (h : Watched.calls overwrites cs w = some (as, w')) :
    w'.table.lookup = cs.foldl (stored overwrites) w.table.lookup := by
  induction cs generalizing w as with
  | nil =>
    cases h
    rfl
  | cons c cs ih =>
    cases hw : w.call overwrites c with
    | none =>
      rw [Watched.calls_cons_none hw] at h
      cases h
    | some x =>
      rw [Watched.calls_cons_some hw] at h
      obtain ⟨y, hy, he⟩ := Option.map_eq_some_iff.mp h
      cases he
      rw [List.foldl_cons, ← call_stored hw]
      exact ih hy

theorem traversal_calls (overwrites : Bool) (es : List (κ × α)) {t : Table κ α} (ht : ∃ seen, t.entries = seen ++ es)
    (hc : t.cursor = (es.map Prod.fst).head?) :
    ∃ u, Watched.calls overwrites (List.replicate (es.length + 1) .nextkey) ⟨t, false⟩ =
      some (es.map (fun e ↦ .entry (some e)) ++ [.entry none], ⟨u, false⟩) := by
  obtain ⟨seen, hseen⟩ := ht
  induction es generalizing t seen with
  | nil =>
    refine ⟨t, ?_⟩
    have hnext : t.nextKey = some (none, t) := by
      rw [Table.nextKey, hc]
      rfl
    have hcall : Watched.call overwrites ⟨t, false⟩ .nextkey = some (.entry none, ⟨t, false⟩) := by
      rw [Watched.call, hnext]
      rfl
    exact Watched.calls_cons_some hcall []
  | cons x es ih =>
    have htr : t.Traversal (x.1 :: es.map Prod.fst) := by
      refine ⟨seen.map Prod.fst, ?_, hc⟩
      rw [Table.keys, hseen, List.map_append, List.map_cons]
    obtain ⟨a, ha, hnext, -⟩ := htr.nextKey_cons
    have hx : t.lookup x.1 = some x.2 := by
      rw [← Table.mem_entries_iff, hseen]
      simp
    rw [hx] at ha
    cases ha
    have hcall : Watched.call overwrites ⟨t, false⟩ .nextkey =
        some (.entry (some x), ⟨{ t with cursor := (es.map Prod.fst).head? }, false⟩) := by
      rw [Watched.call, hnext]
      rfl
    obtain ⟨u, hu⟩ := ih (t := { t with cursor := (es.map Prod.fst).head? }) rfl (seen ++ [x]) (by simp [hseen])
    refine ⟨u, ?_⟩
    rw [List.length_cons, List.replicate_succ, Watched.calls_cons_some hcall, hu]
    rfl

/-- What is read from a table after any calls is what was stored, entry for
entry, and the whole of it is freed in the end. -/
theorem table_contents {overwrites : Bool} (count : ℕ) (func : κ → ℕ) {cs : List (Call κ α)}
    {as : List (Answer κ α)} {w : Watched κ α}
    (hcs : Watched.calls overwrites cs (Watched.create count func) = some (as, w)) :
    ∃ N, ∀ n ≥ N, ∃ s h, calls overwrites cs (create count func) n (Heap.empty _) = .done (as, h) s ∧
      (∀ key, lookup h key n s = .done (contents overwrites cs key) s) ∧
      (∃ (es : List (κ × α)) (s' : _) (h' : _),
        calls overwrites (.firstkey :: List.replicate (es.length + 1) .nextkey) h n s =
          .done (.nothing :: es.map (fun e ↦ .entry (some e)) ++ [.entry none], h') s' ∧ h.size = es.length ∧
        (es.map Prod.fst).Nodup ∧ ∀ key value, (key, value) ∈ es ↔ contents overwrites cs key = some value) ∧
      ∃ s', delete h n s = .done () s' ∧ ∀ p, s'.cell p = none := by
  obtain ⟨N, hN⟩ := calls_ends overwrites cs (Watched.create count func)
  obtain ⟨L₀, H₀, hL₀⟩ := create_stands (Heap.empty (Entry κ α)) count func
  obtain ⟨u, hu⟩ := traversal_calls overwrites w.table.entries (t := w.table.firstKey) ⟨[], rfl⟩ rfl
  obtain ⟨M, hM⟩ := calls_ends overwrites (.firstkey :: List.replicate (w.table.entries.length + 1) .nextkey) w
  have hmap : w.table.lookup = contents overwrites cs := calls_stored hcs
  refine ⟨max (max N M) (w.table.size + 1), fun n hn ↦ ?_⟩
  have hends := hN n (by omega) _ _ _ H₀
  rw [hcs] at hends
  obtain ⟨s, h, L, hr, H, hs⟩ := hends
  rw [hL₀] at hs
  refine ⟨s, h, hr, fun key ↦ ?_, ?_, ?_⟩
  · rw [← hmap]
    exact lookup_done H.holds key (by omega)
  · have htr := hM n (by omega) s h L H
    have hfirst : w.call overwrites .firstkey = some (.nothing, ⟨w.table.firstKey, false⟩) := rfl
    rw [Watched.calls_cons_some hfirst, hu] at htr
    obtain ⟨s', h', -, hr', -⟩ := htr
    refine ⟨w.table.entries, s', h', hr', H.holds.size, w.table.nodup, fun key value ↦ ?_⟩
    rw [Table.mem_entries_iff, hmap]
  · obtain ⟨s', hd, hs'⟩ := delete_done H.holds (n := n) (by omega)
    refine ⟨s', hd, fun p ↦ ?_⟩
    exact (hs.trans hs').cell p List.not_mem_nil List.not_mem_nil

/-- The third entry does not fit into two buckets. -/
def threeKeys : List (Call ℕ Char) :=
  [.insert 5 'a', .insert 7 'b', .insert 9 'c', .insert 7 'd', .firstkey, .nextkey, .remove 9, .nextkey]

theorem table_contents_threeKeys : contents true threeKeys 7 = some 'd' ∧ contents true threeKeys 9 = none ∧
    ∃ N, ∀ n ≥ N, ∃ as s h, calls true threeKeys (create 2 id) n (Heap.empty _) = .done (as, h) s ∧
      ∀ key, lookup h key n s = .done (contents true threeKeys key) s := by
  have hcs : (Watched.calls true threeKeys (Watched.create 2 id)).isSome = true := by decide +kernel
  obtain ⟨⟨as, w⟩, hw⟩ := Option.isSome_iff_exists.mp hcs
  obtain ⟨N, hN⟩ := table_contents 2 id hw
  refine ⟨by decide, by decide, N, fun n hn ↦ ?_⟩
  obtain ⟨s, h, hr, hl, -⟩ := hN n hn
  exact ⟨as, s, h, hr, hl⟩

end Cyque.Tables
