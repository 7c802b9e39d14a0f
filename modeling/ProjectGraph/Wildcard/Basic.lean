/-! # Wildcard patterns

A pattern is a list of pieces, and it matches a whole text, letter case included. A slash and a line
break are characters like any other.

`matchesChars` says what matching means. `fits` decides it in time proportional to the length of the
pattern times the length of the text, and `fits_eq_matchesChars` says that the two agree. -/

namespace ProjectGraph

/-- A set of characters: the ranges, both ends included, or everything outside them. -/
structure CharClass where
  negated : Bool
  ranges : List (Char × Char)
  deriving DecidableEq, Repr

namespace CharClass

/-- Membership in a class. The class without ranges is empty, and its complement holds everything. -/
def holds (k : CharClass) (c : Char) : Bool :=
  (k.ranges.any fun r => r.1 ≤ c && c ≤ r.2) != k.negated

end CharClass

/-- One piece of a pattern. -/
inductive Piece where
  /-- Exactly this character. -/
  | char (c : Char)
  /-- Any one character. -/
  | any
  /-- Any text, the empty one too. -/
  | many
  /-- Any one character of a class. -/
  | oneOf (k : CharClass)
  deriving DecidableEq, Repr

abbrev Wildcard := List Piece

namespace Wildcard

/-! ## Matching -/

/-- Does `test` hold of some suffix of `cs`, `cs` itself and the empty one included? -/
def anySuffix (test : List Char → Bool) : List Char → Bool
  | [] => test []
  | c :: cs => test (c :: cs) || anySuffix test cs

/-- Does the pattern match the whole of `cs`? -/
def matchesChars : Wildcard → List Char → Bool
  | [], cs => cs.isEmpty
  | .many :: ps, cs => anySuffix (matchesChars ps) cs
  | .char _ :: _, [] => false
  | .char d :: ps, c :: cs => c = d && matchesChars ps cs
  | .any :: _, [] => false
  | .any :: ps, _ :: cs => matchesChars ps cs
  | .oneOf _ :: _, [] => false
  | .oneOf k :: ps, c :: cs => k.holds c && matchesChars ps cs

/-! ## Rows

The row of a pattern over a text holds, for every suffix of the text from the longest to the empty
one, whether the pattern matches it. The row of a pattern comes from the row of its tail. -/

/-- What `test` says of every suffix, from the longest on. -/
def onSuffixes (test : List Char → Bool) : List Char → List Bool
  | [] => [test []]
  | c :: cs => test (c :: cs) :: onSuffixes test cs

/-- The row after a piece for one character that passes `test` is put in front. -/
def oneRow (test : Char → Bool) : List Char → List Bool → List Bool
  | c :: cs, _ :: row => (test c && row.headD false) :: oneRow test cs row
  | _, _ => [false]

/-- The row after a piece for any text is put in front. -/
def manyRow : List Bool → List Bool
  | [] => []
  | b :: row =>
    let rest := manyRow row
    (b || rest.headD false) :: rest

/-- The row of a pattern over a text. -/
def row : Wildcard → List Char → List Bool
  | [], cs => onSuffixes List.isEmpty cs
  | .many :: ps, cs => manyRow (row ps cs)
  | .char d :: ps, cs => oneRow (· = d) cs (row ps cs)
  | .any :: ps, cs => oneRow (fun _ => true) cs (row ps cs)
  | .oneOf k :: ps, cs => oneRow k.holds cs (row ps cs)

/-- Does the pattern match the whole text? -/
def fits (p : Wildcard) (text : String) : Bool := (row p text.toList).headD false

theorem head?_onSuffixes (test : List Char → Bool) (cs : List Char) :
    (onSuffixes test cs).head? = some (test cs) := by
  cases cs <;> rfl

theorem manyRow_onSuffixes (test : List Char → Bool) (cs : List Char) :
    manyRow (onSuffixes test cs) = onSuffixes (anySuffix test) cs := by
  induction cs with
  | nil => simp [onSuffixes, manyRow, anySuffix]
  | cons c cs ih => simp [onSuffixes, manyRow, ih, head?_onSuffixes, anySuffix]

theorem oneRow_onSuffixes (one : Char → Bool) (test next : List Char → Bool)
    (hnil : next [] = false) (hcons : ∀ c cs, next (c :: cs) = (one c && test cs))
    (cs : List Char) : oneRow one cs (onSuffixes test cs) = onSuffixes next cs := by
  induction cs with
  | nil => simp [onSuffixes, oneRow, hnil]
  | cons c cs ih => simp [onSuffixes, oneRow, head?_onSuffixes, hcons, ih]

theorem row_eq_onSuffixes (p : Wildcard) (cs : List Char) :
    row p cs = onSuffixes (matchesChars p) cs := by
  induction p with
  | nil =>
    have h : matchesChars [] = List.isEmpty := by
      funext cs
      simp [matchesChars]
    rw [row, h]
  | cons piece ps ih =>
    cases piece with
    | many =>
      have h : matchesChars (.many :: ps) = anySuffix (matchesChars ps) := by
        funext cs
        simp [matchesChars]
      rw [row, ih, manyRow_onSuffixes, h]
    | char d =>
      rw [row, ih]
      exact oneRow_onSuffixes _ _ _ (by simp [matchesChars]) (by simp [matchesChars]) cs
    | any =>
      rw [row, ih]
      exact oneRow_onSuffixes _ _ _ (by simp [matchesChars]) (by simp [matchesChars]) cs
    | oneOf k =>
      rw [row, ih]
      exact oneRow_onSuffixes _ _ _ (by simp [matchesChars]) (by simp [matchesChars]) cs

theorem fits_eq_matchesChars (p : Wildcard) (text : String) :
    p.fits text = p.matchesChars text.toList := by
  simp [fits, row_eq_onSuffixes, head?_onSuffixes]

end Wildcard
end ProjectGraph
