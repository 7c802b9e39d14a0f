/-! # The parts of a spelled path

A path is taken as it is spelled: these functions look at slashes and dots only. -/

namespace ProjectGraph.Text

/-- Everything after the last slash. -/
def baseNameChars (cs : List Char) : List Char :=
  (cs.reverse.takeWhile (· ≠ '/')).reverse

/-- Everything up to the last slash, without the slashes at its end unless it has nothing else. -/
def directoryChars (cs : List Char) : List Char :=
  let head := (cs.reverse.dropWhile (· ≠ '/')).reverse
  if head.all (· = '/') then head else (head.reverse.dropWhile (· = '/')).reverse

/-- The extension of a base name, with its dot: it starts at the last dot, and dots at the start of
the name do not count. -/
def baseNameExtension (name : List Char) : List Char :=
  let stem := name.dropWhile (· = '.')
  if '.' ∈ stem then '.' :: (stem.reverse.takeWhile (· ≠ '.')).reverse else []

/-- The directory part of a path, empty for a path without a slash. -/
def directoryOf (path : String) : String :=
  String.ofList (directoryChars path.toList)

/-- The last component of a path, empty for a path that ends in a slash. -/
def baseNameOf (path : String) : String :=
  String.ofList (baseNameChars path.toList)

/-- The extension of a path, with its dot. -/
def extensionOf (path : String) : String :=
  String.ofList (baseNameExtension (baseNameChars path.toList))

example : directoryOf "a//b" = "a" ∧ directoryOf "//b" = "//" ∧ directoryOf "b" = "" := by decide
example : baseNameOf "a/b" = "b" ∧ baseNameOf "a/" = "" := by decide
example : extensionOf "a.b/c" = "" ∧ extensionOf "..a.tar.gz" = ".gz" ∧ extensionOf "...a" = "" := by
  decide

end ProjectGraph.Text
