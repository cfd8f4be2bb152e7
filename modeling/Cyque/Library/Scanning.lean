import Mathlib.Algebra.Order.Ring.Int
import Mathlib.Algebra.Order.Ring.Nat
import Mathlib.Tactic.Common

namespace Cyque.Library.Scanning

/-- A byte string without the terminating zero of C. -/
abbrev Text := List Char

/-- `isspace` in the C locale. -/
def isSpace (c : Char) : Bool :=
  c == ' ' || c == '\t' || c == '\n' || c == '\x0b' || c == '\x0c' || c == '\r'

def skipSpace (s : Text) : Text := s.dropWhile isSpace

def takeWord (s : Text) : Text := s.takeWhile (fun c ↦ !isSpace c)

def dropWord (s : Text) : Text := s.dropWhile (fun c ↦ !isSpace c)

/-- `%d` and `%lld` in `printf`. -/
def showInt : ℤ → Text
  | .ofNat n => Nat.toDigits 10 n
  | .negSucc n => '-' :: Nat.toDigits 10 (n + 1)

/-- `%o` in `printf`. -/
def showOctal (n : ℕ) : Text := Nat.toDigits 8 n

def readNat (s : Text) : Option (ℕ × Text) :=
  match s.takeWhile Char.isDigit with
  | [] => none
  | ds => some (Nat.ofDigitChars 10 ds 0, s.dropWhile Char.isDigit)

/-- A decimal number with an optional sign, at the front of the text. -/
def readInt : Text → Option (ℤ × Text)
  | '-' :: s => (readNat s).map (fun p ↦ (-(p.1 : ℤ), p.2))
  | '+' :: s => (readNat s).map (fun p ↦ ((p.1 : ℤ), p.2))
  | s => (readNat s).map (fun p ↦ ((p.1 : ℤ), p.2))

/-- Numbers out of the range of 64 bits saturate, as `strtol` does. -/
def saturate (i : ℤ) : ℤ := max (-2 ^ 63) (min i (2 ^ 63 - 1))

/-- The low 32 bits, read as a signed number. -/
def wrap (i : ℤ) : ℤ := (i + 2 ^ 31) % 2 ^ 32 - 2 ^ 31

def atoll (s : Text) : ℤ :=
  match readInt (skipSpace s) with
  | some (i, _) => saturate i
  | none => 0

def atoi (s : Text) : ℤ := wrap (atoll s)

/-- What a `scanf` format is made of: a character to match, white space,
`%s`, `%d` and `%lld`. -/
inductive Directive
  | lit (c : Char)
  | space
  | word
  | int32
  | int64

inductive Value
  | word (w : Text)
  | int (i : ℤ)
deriving DecidableEq

/-- The assigned values in order. `ended` says that the input ran out before
the format did. -/
structure Scan where
  values : List Value
  ended : Bool
deriving DecidableEq

namespace Scan

def cons (v : Value) (r : Scan) : Scan := ⟨v :: r.values, r.ended⟩

/-- The result of `sscanf`: the number of assignments, or `EOF`. -/
def count (r : Scan) : ℤ := if r.values = [] ∧ r.ended = true then -1 else r.values.length

end Scan

def lits (s : String) : List Directive := s.toList.map .lit

def sscanf : Text → List Directive → Scan
  | _, [] => ⟨[], false⟩
  | s, .space :: ds => sscanf (skipSpace s) ds
  | [], .lit _ :: _ => ⟨[], true⟩
  | a :: s, .lit c :: ds => if a = c then sscanf s ds else ⟨[], false⟩
  | s, .word :: ds =>
    match skipSpace s with
    | [] => ⟨[], true⟩
    | t => (sscanf (dropWord t) ds).cons (.word (takeWord t))
  | s, .int32 :: ds =>
    match skipSpace s, readInt (skipSpace s) with
    | [], _ => ⟨[], true⟩
    | _, none => ⟨[], false⟩
    | _, some (i, t) => (sscanf t ds).cons (.int (wrap (saturate i)))
  | s, .int64 :: ds =>
    match skipSpace s, readInt (skipSpace s) with
    | [], _ => ⟨[], true⟩
    | _, none => ⟨[], false⟩
    | _, some (i, t) => (sscanf t ds).cons (.int (saturate i))
termination_by structural _ ds => ds

def stringPrefixIs (s : Text) (p : String) : Bool := p.toList.isPrefixOf s

/-- What `%s` reads as a whole. -/
def IsWord (w : Text) : Prop := w ≠ [] ∧ ∀ c ∈ w, isSpace c = false

/-- Text that ends a word or a number before it. -/
def Parted (t : Text) : Prop := ∀ c, t.head? = some c → isSpace c = true

variable {w t : Text} {c : Char} {ds : List Directive} {i : ℤ}

theorem parted_nil : Parted [] := by
  rintro c ⟨⟩

theorem parted_cons (h : isSpace c = true) : Parted (c :: t) := by
  rintro d ⟨⟩
  exact h

theorem takeWord_append (hw : ∀ c ∈ w, isSpace c = false) (ht : Parted t) : takeWord (w ++ t) = w := by
  rw [takeWord, List.takeWhile_append_of_pos (by simpa using hw)]
  cases t with
  | nil => simp
  | cons c t => simp [ht c rfl]

theorem dropWord_append (hw : ∀ c ∈ w, isSpace c = false) (ht : Parted t) : dropWord (w ++ t) = t := by
  rw [dropWord, List.dropWhile_append_of_pos (by simpa using hw)]
  cases t with
  | nil => rfl
  | cons c t => simp [ht c rfl]

theorem skipSpace_append (hw : IsWord w) : skipSpace (w ++ t) = w ++ t := by
  cases w with
  | nil => exact absurd rfl hw.1
  | cons c w => simp [skipSpace, hw.2 c (List.mem_cons_self ..)]

theorem isSpace_of_isDigit (h : c.isDigit = true) : isSpace c = false := by
  by_contra hs
  rw [Bool.not_eq_false] at hs
  simp only [isSpace, Bool.or_eq_true, beq_iff_eq] at hs
  rcases hs with ((((rfl | rfl) | rfl) | rfl) | rfl) | rfl <;> exact absurd h (by decide)

theorem not_isDigit_of_parted (ht : Parted t) : ∀ c, t.head? = some c → c.isDigit = false := by
  intro c hc
  by_contra hd
  rw [Bool.not_eq_false] at hd
  have := ht c hc
  rw [isSpace_of_isDigit hd] at this
  cases this

theorem readNat_toDigits (n : ℕ) (ht : Parted t) : readNat (Nat.toDigits 10 n ++ t) = some (n, t) := by
  have hd : ∀ c ∈ Nat.toDigits 10 n, c.isDigit = true :=
    fun c hc ↦ Nat.isDigit_of_mem_toDigits (by decide) (by decide) hc
  have htake : (Nat.toDigits 10 n ++ t).takeWhile Char.isDigit = Nat.toDigits 10 n := by
    rw [List.takeWhile_append_of_pos hd]
    cases t with
    | nil => simp
    | cons c t => simp [not_isDigit_of_parted ht c rfl]
  have hdrop : (Nat.toDigits 10 n ++ t).dropWhile Char.isDigit = t := by
    rw [List.dropWhile_append_of_pos hd]
    cases t with
    | nil => rfl
    | cons c t => simp [not_isDigit_of_parted ht c rfl]
  rw [readNat, htake, hdrop]
  cases hn : Nat.toDigits 10 n with
  | nil => exact absurd hn Nat.toDigits_ne_nil
  | cons d ds => simp only [← hn, Nat.ofDigitChars_ten_toDigits]

theorem readInt_showInt (i : ℤ) (ht : Parted t) : readInt (showInt i ++ t) = some (i, t) := by
  cases i with
  | ofNat n =>
    have hread := readNat_toDigits n ht
    have hd : ∀ c ∈ Nat.toDigits 10 n, c.isDigit = true :=
      fun c hc ↦ Nat.isDigit_of_mem_toDigits (by decide) (by decide) hc
    rw [showInt]
    cases hn : Nat.toDigits 10 n with
    | nil => exact absurd hn Nat.toDigits_ne_nil
    | cons d ds =>
      rw [hn] at hread hd
      have hd' := hd d (List.mem_cons_self ..)
      unfold readInt
      split
      · rename_i h
        cases h
        cases hd'
      · rename_i h
        cases h
        cases hd'
      · rw [hread]
        rfl
  | negSucc n =>
    rw [showInt, List.cons_append, readInt, readNat_toDigits (n + 1) ht]
    rfl

theorem isWord_showInt (i : ℤ) : IsWord (showInt i) := by
  have hd : ∀ n, ∀ c ∈ Nat.toDigits 10 n, isSpace c = false := fun n c hc ↦
    isSpace_of_isDigit (Nat.isDigit_of_mem_toDigits (by decide) (by decide) hc)
  cases i with
  | ofNat n => exact ⟨Nat.toDigits_ne_nil, hd n⟩
  | negSucc n =>
    refine ⟨List.cons_ne_nil _ _, fun c hc ↦ ?_⟩
    rcases List.mem_cons.mp hc with rfl | hc
    · rfl
    · exact hd (n + 1) c hc

theorem saturate_eq (h : -2 ^ 63 ≤ i) (h' : i < 2 ^ 63) : saturate i = i := by
  unfold saturate
  omega

theorem wrap_eq (h : -2 ^ 31 ≤ i) (h' : i < 2 ^ 31) : wrap i = i := by
  unfold wrap
  omega

@[simp] theorem sscanf_lits (p : String) (s : Text) (ds : List Directive) :
    sscanf (p.toList ++ s) (lits p ++ ds) = sscanf s ds := by
  rw [lits]
  induction p.toList with
  | nil => rfl
  | cons c cs ih => simpa [sscanf] using ih

theorem sscanf_space (hw : IsWord w) : sscanf (' ' :: (w ++ t)) (.space :: ds) = sscanf (w ++ t) ds := by
  have hskip : skipSpace (' ' :: (w ++ t)) = skipSpace (w ++ t) := rfl
  rw [sscanf, hskip, skipSpace_append hw]

theorem sscanf_word (hw : IsWord w) (ht : Parted t) :
    sscanf (w ++ t) (.word :: ds) = (sscanf t ds).cons (.word w) := by
  have htake := takeWord_append hw.2 ht
  have hdrop := dropWord_append hw.2 ht
  rw [sscanf, skipSpace_append hw]
  cases w with
  | nil => exact absurd rfl hw.1
  | cons c w =>
    show (sscanf (dropWord (c :: w ++ t)) ds).cons (.word (takeWord (c :: w ++ t))) = _
    rw [htake, hdrop]

theorem sscanf_int64 (ht : Parted t) :
    sscanf (showInt i ++ t) (.int64 :: ds) = (sscanf t ds).cons (.int (saturate i)) := by
  have hw := isWord_showInt i
  rw [sscanf, skipSpace_append hw, readInt_showInt i ht]
  cases h : showInt i with
  | nil => exact absurd h hw.1
  | cons c w => rfl

theorem sscanf_int32 (ht : Parted t) :
    sscanf (showInt i ++ t) (.int32 :: ds) = (sscanf t ds).cons (.int (wrap (saturate i))) := by
  have hw := isWord_showInt i
  rw [sscanf, skipSpace_append hw, readInt_showInt i ht]
  cases h : showInt i with
  | nil => exact absurd h hw.1
  | cons c w => rfl

end Cyque.Library.Scanning
