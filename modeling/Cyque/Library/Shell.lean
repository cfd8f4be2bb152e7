import Cyque.Library.Scanning
import Mathlib.Data.List.TakeWhile

namespace Cyque.Library.Shell

open Scanning

/-- What a word of the command language is made of. Quotes leave a mark, so
that they stand for a field even around nothing. -/
inductive Piece
  | plain (c : Char)
  | quoted (c : Char)
  | mark
  | expansion (source : Text)
  | within (source : Text)
deriving DecidableEq

abbrev Word := List Piece

/-- Operators start with one of these. A newline ends a command like them. -/
def isOperator (c : Char) : Bool := "\n|&;<>()".toList.contains c

def isBlank (c : Char) : Bool := c == ' ' || c == '\t'

def startsExpansion (c : Char) : Bool := c == '$' || c == '`'

inductive Mode
  | bare
  | single
  | double
  | escaped
  | escapedDouble
  | comment
  | spanning (left : ℕ) (inside : Bool) (source : Text)

def add (w : Option Word) (p : Piece) : Option Word := some (w.getD [] ++ [p])

def expanded (inside : Bool) (source : Text) : Piece :=
  if inside then .within source else .expansion source

/-- The words of a line that has no operator, up to the end or a comment.
`reach` is the number of characters of an expansion behind its first one. A
backslash at the very end means nothing that is specified. -/
def scan (reach : Text → ℕ) : Mode → Option Word → Text → Option (List Word)
  | .bare, w, [] => some w.toList
  | .comment, w, [] => some w.toList
  | .escaped, w, [] => some (add w (.within ['\\'])).toList
  | _, _, [] => none
  | .bare, w, c :: s =>
    if isOperator c then none
    else if isBlank c then (scan reach .bare none s).map (w.toList ++ ·)
    else if c = '\\' then scan reach .escaped w s
    else if c = '\'' then scan reach .single (add w .mark) s
    else if c = '"' then scan reach .double (add w .mark) s
    else if startsExpansion c then
      match reach (c :: s) with
      | 0 => scan reach .bare (add w (expanded false [c])) s
      | n + 1 => scan reach (.spanning n false [c]) w s
    else if c = '#' ∧ w = none then scan reach .comment w s
    else scan reach .bare (add w (.plain c)) s
  | .comment, w, c :: s => if c = '\n' then none else scan reach .comment w s
  | .single, w, c :: s =>
    if c = '\'' then scan reach .bare w s else scan reach .single (add w (.quoted c)) s
  | .double, w, c :: s =>
    if c = '"' then scan reach .bare w s
    else if c = '\\' then scan reach .escapedDouble w s
    else if startsExpansion c then
      match reach (c :: s) with
      | 0 => scan reach .double (add w (expanded true [c])) s
      | n + 1 => scan reach (.spanning n true [c]) w s
    else scan reach .double (add w (.quoted c)) s
  | .escaped, w, c :: s =>
    if c = '\n' then scan reach .bare w s else scan reach .bare (add w (.quoted c)) s
  | .escapedDouble, w, c :: s =>
    if c = '\n' then scan reach .double w s
    else if "$`\"\\".toList.contains c then scan reach .double (add w (.quoted c)) s
    else scan reach .double (add (add w (.quoted '\\')) (.quoted c)) s
  | .spanning 0 inside source, w, c :: s =>
    scan reach (if inside then .double else .bare) (add w (expanded inside (source ++ [c]))) s
  | .spanning (n + 1) inside source, w, c :: s =>
    scan reach (.spanning n inside (source ++ [c])) w s

/-- What the words of a command depend on: what an expansion comes to, what a
tilde with a name behind it stands for, the path names there are, and what a
bracket expression matches in the locale. -/
structure Host where
  value : Text → Text
  home : Text → Text
  names : List Text
  member : Text → Char → Bool

abbrev Field := List (Char × Bool)

def inLogin : Piece → Bool
  | .plain c => c != '/'
  | _ => false

def charOf : Piece → Char
  | .plain c | .quoted c => c
  | _ => '\x00'

/-- Tilde expansion, of a prefix that has no quotes up to the first slash. -/
def tilde (h : Host) : Word → Word
  | [] => []
  | p :: w =>
    if p = .plain '~' then
      match w.dropWhile inLogin with
      | [] => (h.home ((w.takeWhile inLogin).map charOf)).map .quoted
      | .plain c :: v => (h.home ((w.takeWhile inLogin).map charOf)).map .quoted ++ .plain c :: v
      | _ => p :: w
    else p :: w

def append (f : Option Field) (cs : Field) : Option Field := some (f.getD [] ++ cs)

/-- Field splitting of the value of an expansion: the fields it ends, and the
one it leaves unfinished. -/
def splitValue : Option Field → Text → List Field × Option Field
  | f, [] => ([], f)
  | f, c :: v =>
    if isBlank c ∨ c = '\n' then
      let p := splitValue none v
      (f.toList ++ p.1, p.2)
    else splitValue (append f [(c, false)]) v

def fields (h : Host) : Option Field → Word → List Field
  | f, [] => f.toList
  | f, .plain c :: w => fields h (append f [(c, false)]) w
  | f, .quoted c :: w => fields h (append f [(c, true)]) w
  | f, .mark :: w => fields h (append f []) w
  | f, .within source :: w => fields h (append f ((h.value source).map (fun c ↦ (c, true)))) w
  | f, .expansion source :: w =>
    let p := splitValue f (h.value source)
    p.1 ++ fields h p.2 w

/-- The parts of a pattern. -/
inductive Glob
  | lit (c : Char)
  | any
  | star
  | set (body : Text)
deriving DecidableEq

/-- Where in a bracket expression a character stands: among the members, or in a
class or collating symbol such as `[:alpha:]`. -/
inductive Inside
  | members
  | opening (d : Char)
  | symbol (d : Char)
  | closing

def behindBracket : Field → Inside
  | [] => .members
  | (d, _) :: _ => if d = ':' ∨ d = '.' ∨ d = '=' then .opening d else .members

/-- The place of the bracket that closes a bracket expression. A slash ends the
search. -/
def closing : Inside → Field → Option ℕ
  | _, [] => none
  | .members, (c, q) :: s =>
    if c = '/' then none
    else if c = ']' ∧ q = false then some 0
    else (closing (if c = '[' ∧ q = false then behindBracket s else .members) s).map (· + 1)
  | .opening d, _ :: s => (closing (.symbol d) s).map (· + 1)
  | .symbol d, (c, _) :: s =>
    if c = '/' then none
    else
      (closing (if c = d ∧ s.head?.map Prod.fst = some ']' then .closing else .symbol d) s).map (· + 1)
  | .closing, _ :: s => (closing .members s).map (· + 1)

/-- The same for the text behind the opening bracket, where an exclamation mark
and a closing bracket may come first. -/
def bracket (s : Field) : Option ℕ :=
  let n := if s.head? = some ('!', false) then 1 else 0
  let m := if (s.drop n).head? = some (']', false) then n + 1 else n
  (closing .members (s.drop m)).map (· + m)

/-- The parts of a pattern, after some characters that belong to the one before. -/
def globsFrom : ℕ → Field → List Glob
  | _, [] => []
  | n + 1, _ :: s => globsFrom n s
  | 0, (c, q) :: s =>
    if q then .lit c :: globsFrom 0 s
    else if c = '*' then .star :: globsFrom 0 s
    else if c = '?' then .any :: globsFrom 0 s
    else if c = '[' then
      match bracket s with
      | some n => .set ((s.take n).map Prod.fst) :: globsFrom (n + 1) s
      | none => .lit c :: globsFrom 0 s
    else .lit c :: globsFrom 0 s

def globs (f : Field) : List Glob := globsFrom 0 f

/-- No part of a pattern but the character itself matches a slash, or a period
at the start of a name. -/
def wild (start : Bool) (c : Char) : Bool := c != '/' && !(start && c == '.')

/-- Any number of characters, and then what `k` accepts. -/
def starred (k : Bool → Text → Bool) : Bool → Text → Bool
  | start, [] => k start []
  | start, d :: n => k start (d :: n) || (wild start d && starred k false n)

def fits (member : Text → Char → Bool) : List Glob → Bool → Text → Bool
  | [], _, n => n.isEmpty
  | .lit _ :: _, _, [] => false
  | .lit c :: gs, _, d :: n => d == c && fits member gs (c == '/') n
  | .any :: _, _, [] => false
  | .any :: gs, start, d :: n => wild start d && fits member gs false n
  | .set _ :: _, _, [] => false
  | .set body :: gs, start, d :: n => wild start d && member body d && fits member gs false n
  | .star :: gs, start, n => starred (fits member gs) start n

def Glob.isLit : Glob → Bool
  | .lit _ => true
  | _ => false

/-- Pathname expansion and the removal of quotes. A pattern that matches nothing
stays as it is. -/
def pathnames (h : Host) (f : Field) : List Text :=
  if (globs f).all Glob.isLit then [f.map Prod.fst]
  else
    match h.names.filter (fits h.member (globs f) true) with
    | [] => [f.map Prod.fst]
    | ns => ns

def expandWord (h : Host) (w : Word) : List Text := (fields h none (tilde h w)).flatMap (pathnames h)

/-- The name and the arguments of the command that a line is read as, when it is
a single simple command without redirections. The first word is taken to be
neither reserved nor an assignment nor an alias. -/
def read (reach : Text → ℕ) (h : Host) (line : Text) : Option (List Text) :=
  (scan reach .bare none line).map (fun ws ↦ ws.flatMap (expandWord h))

/-- A character that does not simply become part of a word. -/
def isSpecial (c : Char) : Bool :=
  isOperator c || isBlank c || c == '\\' || c == '\'' || c == '"' || startsExpansion c

variable {reach : Text → ℕ} {h : Host} {w : Option Word} {ws : List Word} {s t : Text} {c : Char}

/-- The number of characters that a word holds as they are. -/
def Piece.weight : Piece → ℕ
  | .plain _ | .quoted _ => 1
  | _ => 0

def weigh (w : Word) : ℕ := (w.map Piece.weight).sum

def weighAll (ws : List Word) : ℕ := (ws.map weigh).sum

theorem weigh_add (w : Option Word) (p : Piece) :
    weigh ((add w p).getD []) = weigh (w.getD []) + p.weight := by
  simp [add, weigh]

theorem weighAll_toList (w : Option Word) : weighAll w.toList = weigh (w.getD []) := by
  cases w with
  | none => rfl
  | some w => simp [weighAll]

theorem weight_expanded (inside : Bool) (source : Text) : (expanded inside source).weight = 0 := by
  cases inside with
  | true => rfl
  | false => rfl

/-- A backslash in double quotes may yet stay. -/
def Mode.pending : Mode → ℕ
  | .escapedDouble => 1
  | _ => 0

/-- One character is read. It adds at most itself to the words, and a special one
outside of quotes adds nothing. -/
inductive Reads (reach : Text → ℕ) (m : Mode) (w : Option Word) (c : Char) (s : Text) (ws : List Word) :
    Prop
  | ended (ws' : List Word) (hm : m = .bare) (h : scan reach .bare none s = some ws')
      (hws : ws = w.toList ++ ws')
  | goes (m' : Mode) (w' : Option Word) (h : scan reach m' w' s = some ws)
      (hle : weigh (w'.getD []) + m'.pending ≤ weigh (w.getD []) + m.pending + 1)
      (hlt : m = .bare → isSpecial c = true → weigh (w'.getD []) + m'.pending ≤ weigh (w.getD []))

theorem reads_of_scan {m : Mode} (hs : scan reach m w (c :: s) = some ws) : Reads reach m w c s ws := by
  have hadd := weigh_add w
  cases m with
  | bare =>
    rw [scan] at hs
    split_ifs at hs with hop hblank hback hsingle hdouble hexp hcomment
    · obtain ⟨ws', h', rfl⟩ := Option.map_eq_some_iff.mp hs
      exact .ended ws' rfl h' rfl
    · exact .goes _ _ hs (Nat.le_succ _) (fun _ _ ↦ Nat.le_refl _)
    · exact .goes _ _ hs (by rw [hadd]; exact Nat.le_succ _) (fun _ _ ↦ by rw [hadd]; exact Nat.le_refl _)
    · exact .goes _ _ hs (by rw [hadd]; exact Nat.le_succ _) (fun _ _ ↦ by rw [hadd]; exact Nat.le_refl _)
    · split at hs
      · exact .goes _ _ hs (by rw [hadd]; exact Nat.le_succ _) (fun _ _ ↦ by rw [hadd]; exact Nat.le_refl _)
      · exact .goes _ _ hs (Nat.le_succ _) (fun _ _ ↦ Nat.le_refl _)
    · exact .goes _ _ hs (Nat.le_succ _) (fun _ _ ↦ Nat.le_refl _)
    · refine .goes _ _ hs (by rw [hadd]; exact Nat.le_refl _) (fun _ hspec ↦ ?_)
      simp [isSpecial, hop, hblank, hback, hsingle, hdouble, hexp] at hspec
  | comment =>
    rw [scan] at hs
    split_ifs at hs
    exact .goes _ _ hs (Nat.le_succ _) (by rintro ⟨⟩)
  | single =>
    rw [scan] at hs
    split_ifs at hs
    · exact .goes _ _ hs (Nat.le_succ _) (by rintro ⟨⟩)
    · exact .goes _ _ hs (by rw [hadd]; exact Nat.le_refl _) (by rintro ⟨⟩)
  | double =>
    rw [scan] at hs
    split_ifs at hs
    · exact .goes _ _ hs (Nat.le_succ _) (by rintro ⟨⟩)
    · exact .goes _ _ hs (Nat.le_refl _) (by rintro ⟨⟩)
    · split at hs
      · exact .goes _ _ hs (by rw [hadd]; exact Nat.le_succ _) (by rintro ⟨⟩)
      · exact .goes _ _ hs (Nat.le_succ _) (by rintro ⟨⟩)
    · exact .goes _ _ hs (by rw [hadd]; exact Nat.le_refl _) (by rintro ⟨⟩)
  | escaped =>
    rw [scan] at hs
    split_ifs at hs
    · exact .goes _ _ hs (Nat.le_succ _) (by rintro ⟨⟩)
    · exact .goes _ _ hs (by rw [hadd]; exact Nat.le_refl _) (by rintro ⟨⟩)
  | escapedDouble =>
    rw [scan] at hs
    split_ifs at hs
    · exact .goes _ _ hs (by show weigh _ + 0 ≤ weigh _ + 1 + 1; omega) (by rintro ⟨⟩)
    · exact .goes _ _ hs (by rw [hadd]; exact Nat.le_succ _) (by rintro ⟨⟩)
    · exact .goes _ _ hs (by rw [weigh_add, hadd]; exact Nat.le_refl _) (by rintro ⟨⟩)
  | spanning n inside source =>
    cases n with
    | zero =>
      rw [scan] at hs
      refine .goes _ _ hs ?_ (by rintro ⟨⟩)
      rw [hadd, weight_expanded]
      cases inside with
      | true => exact Nat.le_succ _
      | false => exact Nat.le_succ _
    | succ n =>
      rw [scan] at hs
      exact .goes _ _ hs (Nat.le_succ _) (by rintro ⟨⟩)

theorem weighAll_append (ws ws' : List Word) : weighAll (ws ++ ws') = weighAll ws + weighAll ws' := by
  simp [weighAll]

theorem weighAll_scan_le {m : Mode} (hs : scan reach m w s = some ws) :
    weighAll ws ≤ weigh (w.getD []) + m.pending + s.length := by
  induction s generalizing m w ws with
  | nil =>
    cases m with
    | bare | comment =>
      cases hs
      rw [weighAll_toList]
      exact Nat.le_add_right _ _
    | escaped =>
      cases hs
      rw [weighAll_toList, weigh_add]
      exact Nat.le_add_right _ _
    | single | double | escapedDouble => cases hs
    | spanning n inside source => cases n <;> cases hs
  | cons c s ih =>
    rw [List.length_cons]
    cases reads_of_scan hs with
    | ended ws' hm h' hws =>
      have hle := ih h'
      change weighAll ws' ≤ 0 + 0 + s.length at hle
      rw [hws, weighAll_append, weighAll_toList]
      omega
    | goes m' w' h' hle hlt =>
      have := ih h'
      omega

theorem scan_plain (hc : isSpecial c = false) : scan reach .bare w (c :: s) =
    if c = '#' ∧ w = none then scan reach .comment w s else scan reach .bare (add w (.plain c)) s := by
  simp only [isSpecial, Bool.or_eq_false_iff, beq_eq_false_iff_ne] at hc
  obtain ⟨⟨⟨⟨⟨hop, hblank⟩, hback⟩, hsingle⟩, hdouble⟩, hexp⟩ := hc
  simp only [scan, hop, hblank, hback, hsingle, hdouble, hexp, Bool.false_eq_true, if_false]

/-- They hold fewer when one of the characters was special. -/
theorem weighAll_scan_lt (hs : scan reach .bare w s = some ws) (hc : ∃ c ∈ s, isSpecial c = true) :
    weighAll ws < weigh (w.getD []) + s.length := by
  induction s generalizing w with
  | nil => simp at hc
  | cons c s ih =>
    rw [List.length_cons]
    by_cases hspec : isSpecial c = true
    · cases reads_of_scan hs with
      | ended ws' hm h' hws =>
        have hle := weighAll_scan_le h'
        change weighAll ws' ≤ 0 + 0 + s.length at hle
        rw [hws, weighAll_append, weighAll_toList]
        omega
      | goes m' w' h' hle hlt =>
        have := weighAll_scan_le h'
        have := hlt rfl hspec
        omega
    · have hrest : ∃ d ∈ s, isSpecial d = true := by
        obtain ⟨d, hd, hds⟩ := hc
        rcases List.mem_cons.mp hd with rfl | hd
        · exact absurd hds hspec
        · exact ⟨d, hd, hds⟩
      rw [scan_plain (Bool.eq_false_iff.mpr hspec)] at hs
      split at hs
      · have hle := weighAll_scan_le hs
        change weighAll ws ≤ weigh (w.getD []) + 0 + s.length at hle
        omega
      · have hlt := ih hs hrest
        rw [weigh_add] at hlt
        change weighAll ws < weigh (w.getD []) + 1 + s.length at hlt
        omega

theorem scan_word {v : Word} (hs : ∀ c ∈ s, isSpecial c = false) :
    scan reach .bare (some v) s = some [v ++ s.map .plain] := by
  induction s generalizing v with
  | nil => simp [scan]
  | cons c s ih =>
    rw [scan_plain (hs c (List.mem_cons_self ..)), if_neg (by simp)]
    show scan reach .bare (some (v ++ [.plain c])) s = _
    rw [ih (fun d hd ↦ hs d (List.mem_cons_of_mem _ hd))]
    simp

theorem scan_name (hs : ∀ c ∈ s, isSpecial c = false) (hne : s ≠ []) (hh : s.head? ≠ some '#') :
    scan reach .bare none s = some [s.map .plain] := by
  cases s with
  | nil => exact absurd rfl hne
  | cons c s =>
    have hc : c ≠ '#' := fun he ↦ hh (congrArg some he)
    rw [scan_plain (hs c (List.mem_cons_self ..)), if_neg (fun h ↦ hc h.1)]
    exact scan_word (v := [.plain c]) (fun d hd ↦ hs d (List.mem_cons_of_mem _ hd))

theorem scan_word_blank {v : Word} (hs : ∀ c ∈ s, isSpecial c = false) (t : Text) :
    scan reach .bare (some v) (s ++ ' ' :: t) =
      (scan reach .bare none t).map ([v ++ s.map .plain] ++ ·) := by
  induction s generalizing v with
  | nil =>
    rw [List.nil_append, scan, if_neg (by decide), if_pos (by decide), List.map_nil, List.append_nil]
    rfl
  | cons c s ih =>
    rw [List.cons_append, scan_plain (hs c (List.mem_cons_self ..)), if_neg (by simp)]
    show scan reach .bare (some (v ++ [.plain c])) _ = _
    rw [ih (fun d hd ↦ hs d (List.mem_cons_of_mem _ hd))]
    simp

theorem scan_name_blank (hs : ∀ c ∈ s, isSpecial c = false) (hne : s ≠ []) (hh : s.head? ≠ some '#')
    (t : Text) : scan reach .bare none (s ++ ' ' :: t) =
      (scan reach .bare none t).map ([s.map .plain] ++ ·) := by
  cases s with
  | nil => exact absurd rfl hne
  | cons c s =>
    have hc : c ≠ '#' := fun he ↦ hh (congrArg some he)
    rw [List.cons_append, scan_plain (hs c (List.mem_cons_self ..)), if_neg (fun h ↦ hc h.1)]
    exact scan_word_blank (v := [.plain c]) (fun d hd ↦ hs d (List.mem_cons_of_mem _ hd)) t

theorem scan_comment (w : Option Word) (ws : List Word) (hs : scan reach .comment w s = some ws) :
    ws = w.toList := by
  induction s with
  | nil => exact (Option.some.inj hs).symm
  | cons c s ih =>
    rw [scan] at hs
    split at hs
    · cases hs
    · exact ih hs

/-- A host on which every expansion comes to nothing, no name is known behind a
tilde, and no file exists. -/
def spare : Host where
  value _ := []
  home login := '~' :: login
  names := []
  member _ _ := true

theorem weigh_login (w : Word) (hw : ∀ p ∈ w, inLogin p = true) : weigh w = w.length := by
  induction w with
  | nil => rfl
  | cons p w ih =>
    have hp := hw p (List.mem_cons_self ..)
    have hrest := ih (fun q hq ↦ hw q (List.mem_cons_of_mem _ hq))
    cases p with
    | plain c =>
      show 1 + weigh w = w.length + 1
      omega
    | _ => cases hp

theorem weigh_append (v w : Word) : weigh (v ++ w) = weigh v + weigh w := by
  simp [weigh]

theorem weigh_quoted (t : Text) : weigh (t.map .quoted) = t.length := by
  induction t with
  | nil => rfl
  | cons c t ih =>
    show 1 + weigh (t.map .quoted) = t.length + 1
    omega

theorem weigh_tilde (w : Word) : weigh (tilde spare w) = weigh w := by
  cases w with
  | nil => rfl
  | cons p w =>
    rw [tilde]
    split
    · rename_i hp
      subst hp
      have hlogin : weigh (w.takeWhile inLogin) = (w.takeWhile inLogin).length :=
        weigh_login _ (fun q hq ↦ List.mem_takeWhile_imp hq)
      have hparts : weigh (.plain '~' :: w) =
          1 + (weigh (w.takeWhile inLogin) + weigh (w.dropWhile inLogin)) := by
        rw [← weigh_append, List.takeWhile_append_dropWhile]
        rfl
      have hhome : weigh ((spare.home ((w.takeWhile inLogin).map charOf)).map .quoted) =
          1 + (w.takeWhile inLogin).length := by
        rw [weigh_quoted]
        show (('~' :: (w.takeWhile inLogin).map charOf).length) = _
        rw [List.length_cons, List.length_map]
        omega
      split
      · rename_i hd
        rw [hparts, hhome, hd, hlogin]
        rfl
      · rename_i hd
        rw [hparts, weigh_append, hhome, hd, hlogin]
        omega
      · rfl
    · rfl

theorem length_fields (f : Option Field) (w : Word) :
    ((fields spare f w).map List.length).sum = (f.getD []).length + weigh w := by
  induction w generalizing f with
  | nil => cases f <;> simp [fields, weigh]
  | cons p w ih =>
    have hw : weigh (p :: w) = p.weight + weigh w := by simp [weigh]
    rw [hw]
    cases p with
    | plain c | quoted c =>
      rw [fields, ih]
      simp only [append, Option.getD_some, List.length_append, List.length_singleton, Piece.weight]
      omega
    | mark =>
      rw [fields, ih]
      simp [append, Piece.weight]
    | within source =>
      rw [fields, ih]
      simp [append, Piece.weight, spare]
    | expansion source =>
      rw [fields]
      show (([] ++ fields spare f w).map List.length).sum = _
      rw [List.nil_append, ih]
      simp [Piece.weight]

theorem pathnames_of_names (hn : h.names = []) (f : Field) : pathnames h f = [f.map Prod.fst] := by
  rw [pathnames, hn]
  split
  · rfl
  · rfl

theorem length_expandWord (w : Word) : ((expandWord spare w).map List.length).sum = weigh w := by
  have hone : ∀ fs : List Field, ((fs.flatMap (pathnames spare)).map List.length).sum =
      (fs.map List.length).sum := by
    intro fs
    induction fs with
    | nil => rfl
    | cons f fs ih => simp [pathnames_of_names (h := spare) rfl, ih]
  rw [expandWord, hone, length_fields, weigh_tilde]
  exact Nat.zero_add _

/-- On such a host a word keeps what it holds, so that nothing is left of a
special character. -/
theorem length_words (ws : List Word) :
    ((ws.flatMap (expandWord spare)).map List.length).sum = weighAll ws := by
  induction ws with
  | nil => rfl
  | cons w ws ih =>
    rw [List.flatMap_cons, List.map_append, List.sum_append, length_expandWord, ih]
    simp [weighAll]

theorem fields_plain (f : Field) (t : Text) :
    fields h (some f) (t.map .plain) = [f ++ t.map (fun c ↦ (c, false))] := by
  induction t generalizing f with
  | nil => simp [fields]
  | cons c t ih =>
    show fields h (some (f ++ [(c, false)])) (t.map .plain) = _
    rw [ih]
    simp

theorem fst_bare (t : Text) : (t.map (fun c ↦ (c, false))).map Prod.fst = t := by
  simp [Function.comp_def]

/-- A name that is no pattern. -/
def literal (t : Text) : Bool := (globs (t.map (fun c ↦ (c, false)))).all Glob.isLit

/-- A word without special characters and without a tilde in front comes to the
path names it matches. -/
theorem expandWord_plain (hne : t ≠ []) (hh : t.head? ≠ some '~') :
    expandWord h (t.map .plain) = pathnames h (t.map (fun c ↦ (c, false))) := by
  cases t with
  | nil => exact absurd rfl hne
  | cons c t =>
    have hc : Piece.plain c ≠ .plain '~' := by
      rintro ⟨⟩
      exact hh rfl
    have htilde : tilde h ((c :: t).map .plain) = (c :: t).map .plain := by
      rw [List.map_cons, tilde, if_neg hc]
    rw [expandWord, htilde]
    show (fields h (some [(c, false)]) (t.map .plain)).flatMap (pathnames h) = _
    rw [fields_plain, List.flatMap_cons, List.flatMap_nil, List.append_nil]
    rfl

theorem pathnames_literal (ht : literal t = true) :
    pathnames h (t.map (fun c ↦ (c, false))) = [t] := by
  rw [literal] at ht
  rw [pathnames, if_pos ht, fst_bare]

theorem expandWord_literal (hne : t ≠ []) (hh : t.head? ≠ some '~') (ht : literal t = true) :
    expandWord h (t.map .plain) = [t] := by
  rw [expandWord_plain hne hh, pathnames_literal ht]

theorem tilde_plain (t : Text) : ∃ v : Text, tilde h (('~' :: t).map .plain) =
    (h.home (t.takeWhile (· != '/'))).map .quoted ++ v.map .plain := by
  have htake : ((t.map Piece.plain).takeWhile inLogin).map charOf = t.takeWhile (· != '/') := by
    induction t with
    | nil => rfl
    | cons c t ih =>
      rw [List.map_cons, List.takeWhile_cons, List.takeWhile_cons]
      show List.map charOf (if (c != '/') = true then _ else []) = _
      split
      · rw [List.map_cons, ih]
        rfl
      · rfl
  have hdrop : (t.map Piece.plain).dropWhile inLogin = (t.dropWhile (· != '/')).map .plain := by
    rw [List.dropWhile_map]
    rfl
  refine ⟨t.dropWhile (· != '/'), ?_⟩
  rw [List.map_cons, tilde, if_pos rfl, hdrop, htake]
  cases t.dropWhile (· != '/') with
  | nil => simp
  | cons c v => rfl

def rooted : Host := { spare with home := fun _ ↦ ['/'] }

theorem expandWord_rooted (t : Text) : ∃ v, expandWord rooted (('~' :: t).map .plain) = ['/' :: v] := by
  obtain ⟨v, hv⟩ := tilde_plain (h := rooted) t
  refine ⟨v, ?_⟩
  rw [expandWord, hv]
  show (fields rooted (some [('/', true)]) (v.map .plain)).flatMap (pathnames rooted) = _
  rw [fields_plain, List.flatMap_cons, List.flatMap_nil, List.append_nil, pathnames_of_names rfl]
  show ['/' :: (v.map (fun c ↦ (c, false))).map Prod.fst] = _
  rw [fst_bare]

/-- A name that a pattern matches. -/
def sample : List Glob → Text
  | [] => []
  | .lit c :: gs => c :: sample gs
  | _ :: gs => 'x' :: sample gs

theorem starred_of {k : Bool → Text → Bool} {start : Bool} {n : Text} (hk : k start n = true) :
    starred k start n = true := by
  cases n with
  | nil => exact hk
  | cons d n => simp [starred, hk]

theorem fits_sample (gs : List Glob) (start : Bool) :
    fits (fun _ _ ↦ true) gs start (sample gs) = true := by
  have hx : ∀ start, wild start 'x' = true := by decide
  induction gs generalizing start with
  | nil => rfl
  | cons g gs ih =>
    cases g with
    | lit c =>
      rw [sample, fits, beq_self_eq_true, Bool.true_and]
      exact ih _
    | any | set _ =>
      rw [sample, fits, hx]
      exact ih _
      all_goals rintro _ ⟨⟩
    | star =>
      rw [sample, fits, starred, hx, starred_of (ih false), Bool.and_true, Bool.or_true]
      rintro _ ⟨⟩

theorem globs_cons (c : Char) (t : Text) :
    globs ((c :: t).map (fun c ↦ (c, false))) = .lit c :: globs (t.map (fun c ↦ (c, false))) ∨
      c ≠ 'x' ∧ ∃ g gs, g.isLit = false ∧ globs ((c :: t).map (fun c ↦ (c, false))) = g :: gs := by
  show globsFrom 0 ((c, false) :: t.map (fun c ↦ (c, false))) = _ ∨ _ ∧ ∃ g gs, _ ∧
    globsFrom 0 ((c, false) :: t.map (fun c ↦ (c, false))) = _
  rw [globsFrom, if_neg (by decide)]
  by_cases hstar : c = '*'
  · subst hstar
    exact .inr ⟨by decide, _, _, rfl, if_pos rfl⟩
  rw [if_neg hstar]
  by_cases hany : c = '?'
  · subst hany
    exact .inr ⟨by decide, _, _, rfl, if_pos rfl⟩
  rw [if_neg hany]
  by_cases hset : c = '['
  · subst hset
    rw [if_pos rfl]
    cases bracket (t.map (fun c ↦ (c, false))) with
    | none => exact .inl rfl
    | some n => exact .inr ⟨by decide, _, _, rfl, rfl⟩
  · rw [if_neg hset]
    exact .inl rfl

theorem sample_ne (ht : literal t = false) : sample (globs (t.map (fun c ↦ (c, false)))) ≠ t := by
  induction t with
  | nil => cases ht
  | cons c t ih =>
    rcases globs_cons c t with hg | ⟨hc, g, gs, hlit, hg⟩
    · have ht' : literal t = false := by
        rw [literal, hg] at ht
        exact ht
      rw [hg]
      exact fun h ↦ ih ht' (List.cons.inj h).2
    · rw [hg]
      cases g with
      | lit d => cases hlit
      | any | star | set _ => exact fun h ↦ hc (List.cons.inj h).1.symm

def single (name : Text) : Host := { spare with names := [name] }

theorem pathnames_single (ht : literal t = false) :
    pathnames (single (sample (globs (t.map (fun c ↦ (c, false)))))) (t.map (fun c ↦ (c, false))) ≠ [t] := by
  rw [literal] at ht
  rw [pathnames, if_neg (by rw [ht]; decide)]
  show (match List.filter (fits (fun _ _ ↦ true) (globs (t.map (fun c ↦ (c, false)))) true)
      [sample (globs (t.map (fun c ↦ (c, false))))] with
    | [] => [(t.map (fun c ↦ (c, false))).map Prod.fst]
    | ns => ns) ≠ [t]
  rw [List.filter_cons_of_pos (fits_sample _ _)]
  exact fun h ↦ sample_ne ht (List.cons.inj h).1

/-- A text that a shell reads as a word and leaves as it is. -/
structure Plain (t : Text) : Prop where
  ne_nil : t ≠ []
  ordinary : ∀ c ∈ t, isSpecial c = false
  notComment : t.head? ≠ some '#'
  notTilde : t.head? ≠ some '~'
  literal : literal t = true

def isPlain (t : Text) : Bool :=
  t != [] && t.all (fun c ↦ !isSpecial c) && t.head? != some '#' && t.head? != some '~' &&
    Shell.literal t

theorem isPlain_iff : isPlain t = true ↔ Plain t := by
  simp only [isPlain, Bool.and_eq_true, bne_iff_ne, List.all_eq_true, Bool.not_eq_true']
  constructor
  · rintro ⟨⟨⟨⟨hne, hord⟩, hcomment⟩, htilde⟩, hlit⟩
    exact ⟨hne, hord, hcomment, htilde, hlit⟩
  · rintro ⟨hne, hord, hcomment, htilde, hlit⟩
    exact ⟨⟨⟨⟨hne, hord⟩, hcomment⟩, htilde⟩, hlit⟩

instance : Decidable (Plain t) := decidable_of_iff _ isPlain_iff

theorem read_word {p : Text} (hp : Plain p) (t : Text) : read reach h (p ++ ' ' :: t) =
    (scan reach .bare none t).map (fun ws ↦ p :: ws.flatMap (expandWord h)) := by
  rw [read, scan_name_blank hp.ordinary hp.ne_nil hp.notComment, Option.map_map]
  congr 1
  funext ws
  show ([p.map Piece.plain] ++ ws).flatMap (expandWord h) = _
  rw [List.flatMap_append, List.flatMap_cons, List.flatMap_nil, List.append_nil,
    expandWord_literal hp.ne_nil hp.notTilde hp.literal]
  rfl

theorem ordinary_of_read {p : Text} (hp : Plain p)
    (hr : read reach spare (p ++ ' ' :: s) = some [p, t]) (hs : s.length ≤ t.length) :
    (∀ c ∈ s, isSpecial c = false) ∧ s.length = t.length := by
  rw [read_word hp] at hr
  obtain ⟨ws, hscan, hws⟩ := Option.map_eq_some_iff.mp hr
  have hlen := congrArg (fun ts : List Text ↦ (ts.map List.length).sum) (List.cons.inj hws).2
  simp only [length_words, List.map_cons, List.map_nil, List.sum_cons, List.sum_nil] at hlen
  have hle := weighAll_scan_le hscan
  change weighAll ws ≤ 0 + 0 + s.length at hle
  refine ⟨fun c hc ↦ ?_, by omega⟩
  by_contra hspec
  have hlt := weighAll_scan_lt hscan ⟨c, hc, by simpa using hspec⟩
  change weighAll ws < 0 + s.length at hlt
  omega

/-- A text behind a command is read as one argument, unchanged, on every host if
and only if it is plain. -/
theorem read_argument_iff {p : Text} (hp : Plain p) :
    (∀ h, read reach h (p ++ ' ' :: t) = some [p, t]) ↔ Plain t := by
  constructor
  · intro hr
    have hord := (ordinary_of_read hp (hr spare) (Nat.le_refl _)).1
    have hword : ∀ h, ∃ ws, scan reach .bare none t = some ws ∧ ws.flatMap (expandWord h) = [t] := by
      intro h
      have hh := hr h
      rw [read_word hp] at hh
      obtain ⟨ws, hscan, hws⟩ := Option.map_eq_some_iff.mp hh
      exact ⟨ws, hscan, (List.cons.inj hws).2⟩
    obtain ⟨ws, hscan, hws⟩ := hword spare
    have hne : t ≠ [] := by
      rintro rfl
      cases hscan
      cases hws
    have hcomment : t.head? ≠ some '#' := by
      intro hh
      obtain ⟨u, rfl⟩ : ∃ u, t = '#' :: u := List.head?_eq_some_iff.mp hh
      rw [scan_plain (hord _ (List.mem_cons_self ..)), if_pos ⟨rfl, rfl⟩] at hscan
      rw [scan_comment none ws hscan] at hws
      cases hws
    have hread : ∀ h, expandWord h (t.map .plain) = [t] := by
      intro h
      obtain ⟨vs, hvs, he⟩ := hword h
      rw [scan_name hord hne hcomment] at hvs
      cases hvs
      simpa using he
    have htilde : t.head? ≠ some '~' := by
      intro hh
      obtain ⟨u, rfl⟩ : ∃ u, t = '~' :: u := List.head?_eq_some_iff.mp hh
      obtain ⟨v, hv⟩ := expandWord_rooted u
      rw [hread rooted] at hv
      exact absurd (List.cons.inj (List.cons.inj hv).1).1 (by decide)
    refine ⟨hne, hord, hcomment, htilde, ?_⟩
    by_contra hlit
    rw [Bool.not_eq_true] at hlit
    refine pathnames_single hlit ?_
    rw [← expandWord_plain hne htilde]
    exact hread _
  · intro ht h
    rw [read_word hp, scan_name ht.ordinary ht.ne_nil ht.notComment]
    show some (p :: [t.map Piece.plain].flatMap (expandWord h)) = _
    rw [List.flatMap_cons, List.flatMap_nil, List.append_nil,
      expandWord_literal ht.ne_nil ht.notTilde ht.literal]

end Cyque.Library.Shell
