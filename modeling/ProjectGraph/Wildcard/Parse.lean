import ProjectGraph.Wildcard.Basic

/-! # Reading wildcard patterns

A `*` stands for any text, and so does a run of them; a `?` stands for any character, and brackets
enclose a class. A bracket that is never closed stands for itself.

A class is negated by a leading `!`. A closing bracket at the start of a class belongs to it. A hyphen
between two characters makes a range; the character after a range never starts another one, and a
hyphen at the start or the end stands for itself. A range whose ends are in the wrong order is left
out together with its ends. -/

namespace ProjectGraph.Wildcard

/-! ## Character classes -/

/-- The body of a class and what follows its closing bracket, if there is one. -/
def untilBracket : List Char → Option (List Char × List Char)
  | [] => none
  | ']' :: cs => some ([], cs)
  | c :: cs => (untilBracket cs).map fun r => (c :: r.1, r.2)

/-- The body of a class after its opening bracket. A `]` at the start does not close it. -/
def classBody : List Char → Option (List Char)
  | '!' :: ']' :: cs => (untilBracket cs).map fun r => '!' :: ']' :: r.1
  | '!' :: cs => (untilBracket cs).map fun r => '!' :: r.1
  | ']' :: cs => (untilBracket cs).map fun r => ']' :: r.1
  | cs => (untilBracket cs).map fun r => r.1

/-- Cuts a class body at its range hyphens. A hyphen is one only after `wait` more characters, and
after a range hyphen the next two characters cannot be one. -/
def cutRanges : (wait : Nat) → List Char → List (List Char)
  | _, [] => [[]]
  | 0, '-' :: cs => [] :: cutRanges 2 cs
  | 0, c :: cs =>
    match cutRanges 0 cs with
    | [] => [[c]]
    | chunk :: rest => (c :: chunk) :: rest
  | wait + 1, c :: cs =>
    match cutRanges wait cs with
    | [] => [[c]]
    | chunk :: rest => (c :: chunk) :: rest

/-- A range hyphen at the very end of the body stands for itself. -/
def keepLastHyphen : List (List Char) → List (List Char)
  | [] => []
  | [chunk] => [chunk]
  | [chunk, []] => [chunk ++ ['-']]
  | chunk :: next :: rest => chunk :: keepLastHyphen (next :: rest)

/-- Leaves out each range that ends before it starts, together with both ends. -/
def dropEmptyRanges : List (List Char) → List (List Char)
  | [] => []
  | chunk :: rest =>
    match dropEmptyRanges rest with
    | [] => [chunk]
    | next :: others =>
      match chunk.getLast?, next with
      | some lo, hi :: tail =>
        if hi < lo then (chunk.dropLast ++ tail) :: others else chunk :: next :: others
      | _, _ => chunk :: next :: others

/-- A class body read character by character: a member, or the hyphen of a range. -/
inductive ClassToken where
  | member (c : Char)
  | rangeHyphen
  deriving DecidableEq, Repr

/-- A range hyphen that has no left end stands for itself. -/
def ClassToken.char : ClassToken → Char
  | .member c => c
  | .rangeHyphen => '-'

def classTokens : List (List Char) → List ClassToken
  | [] => []
  | [chunk] => chunk.map .member
  | chunk :: next :: rest =>
    chunk.map .member ++ .rangeHyphen :: classTokens (next :: rest)

def classRanges : List ClassToken → List (Char × Char)
  | [] => []
  | lo :: .rangeHyphen :: hi :: rest => (lo.char, hi.char) :: classRanges rest
  | t :: rest => (t.char, t.char) :: classRanges rest

/-- The class of a body. The leading `!` is looked for after empty ranges have been left out. -/
def parseClass (body : List Char) : CharClass :=
  let wait := if body.head? = some '!' then 2 else 1
  match classTokens (dropEmptyRanges (keepLastHyphen (cutRanges wait body))) with
  | .member '!' :: rest => ⟨true, classRanges rest⟩
  | tokens => ⟨false, classRanges tokens⟩

/-! ## Patterns -/

/-- Reads a pattern after passing over `skip` characters that belong to a class already read. -/
def parseFrom : (skip : Nat) → List Char → Wildcard
  | _, [] => []
  | skip + 1, _ :: cs => parseFrom skip cs
  | 0, '*' :: '*' :: cs => parseFrom 0 ('*' :: cs)
  | 0, '*' :: cs => .many :: parseFrom 0 cs
  | 0, '?' :: cs => .any :: parseFrom 0 cs
  | 0, '[' :: cs =>
    match classBody cs with
    | some body => .oneOf (parseClass body) :: parseFrom (body.length + 1) cs
    | none => .char '[' :: parseFrom 0 cs
  | 0, c :: cs => .char c :: parseFrom 0 cs

def parse (pattern : String) : Wildcard := parseFrom 0 pattern.toList

/-- Does `pattern` match the whole of `text`? -/
def accepts (pattern text : String) : Bool := (parse pattern).fits text

/-- Does the text hold a character that means something in a pattern? -/
def isPattern (text : String) : Bool := text.toList.any fun c => c = '*' || c = '?' || c = '['

example : accepts "[!a-c]*" "dé\n" ∧ accepts "[]-]" "-" ∧ accepts "[a" "[a" := by decide
example : accepts "[z-a!-c]" "d" ∧ !accepts "[z-a!-c]" "-" ∧ !accepts "[z-a]" "z" := by decide

end ProjectGraph.Wildcard
