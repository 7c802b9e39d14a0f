import ProjectGraph.Text.Split

/-! # Path names

A path name is a list of components below a number of leading slashes: none for a relative path, one
for an absolute path, and two when a path is spelled with exactly two of them. -/

namespace ProjectGraph

structure PathName where
  slashes : Nat
  components : List String
  deriving DecidableEq, Repr

namespace PathName

/-- The leading slashes that count: a run of three or more is the same as one. -/
def leadingSlashes (cs : List Char) : Nat :=
  match (cs.takeWhile (· = '/')).length with
  | 0 => 0
  | 2 => 2
  | _ => 1

/-- Empty components and `.` components name the directory they stand in. -/
def IsVoid (component : String) : Prop := component = "" ∨ component = "."

instance (component : String) : Decidable (IsVoid component) :=
  inferInstanceAs (Decidable (_ ∨ _))

/-- The components of a path as spelled, without the void ones. A `..` stays. -/
def parse (path : String) : PathName where
  slashes := leadingSlashes path.toList
  components := (Text.split '/' path).filter fun c => !decide (IsVoid c)

/-- One component on top of the reversed components of a path: a `..` cancels the component below
it, unless that is a `..` itself; with nothing below, it stays in a relative path only. -/
def push (rooted : Bool) (stack : List String) (component : String) : List String :=
  if component = ".." then
    match stack with
    | [] => if rooted then [] else [".."]
    | top :: below => if top = ".." then ".." :: top :: below else below
  else component :: stack

/-- Cancels each `..` against the component before it. -/
def cancelParents (p : PathName) : PathName where
  slashes := p.slashes
  components := (p.components.foldl (push (p.slashes ≠ 0)) []).reverse

/-- The normal form of a path: two spellings with one normal form name the same file. -/
def normalize (path : String) : PathName := (parse path).cancelParents

/-- The spelling of a path name. The empty relative path is spelled `.`. -/
def text (p : PathName) : String :=
  if p.slashes = 0 ∧ p.components = [] then "."
  else String.ofList (List.replicate p.slashes '/') ++ "/".intercalate p.components

/-- `q` as seen from `p`; an absolute `q` is itself. -/
def join (p q : PathName) : PathName :=
  if q.slashes = 0 then { p with components := p.components ++ q.components } else q

instance : Append PathName := ⟨join⟩

/-- The relative path of one component. -/
def single (component : String) : PathName := ⟨0, [component]⟩

/-- The path without its last component. -/
def parent (p : PathName) : PathName := { p with components := p.components.dropLast }

def IsAbsolute (p : PathName) : Prop := p.slashes ≠ 0

instance (p : PathName) : Decidable p.IsAbsolute := inferInstanceAs (Decidable (¬ _))

example : (normalize "a/./b//../..").text = "." := by decide
example : (normalize "../a/../..").text = "../.." := by decide
example : (normalize "//a/../..").text = "//" ∧ (normalize "///a").text = "/a" := by decide
example : (parse "x/y/z/" ++ parse "./t").text = "x/y/z/t" := by decide

end PathName
end ProjectGraph
