/-! # Tags

Declarations carry tags, each with a list of values. A tag may occur several times, and the order of
the occurrences is kept. -/

namespace Marshal

structure Tags where
  occurrences : List (String × List String) := []
deriving DecidableEq, Repr, Inhabited

namespace Tags

def isEmpty (t : Tags) : Bool := t.occurrences.isEmpty

def has (t : Tags) (tag : String) : Bool := t.occurrences.any (·.1 == tag)

def values (t : Tags) (tag : String) : List (List String) := (t.occurrences.filter (·.1 == tag)).map (·.2)

/-- The value of a tag that occurs exactly once, with exactly one value. -/
def single? (t : Tags) (tag : String) : Option String :=
  match t.values tag with
  | [[value]] => some value
  | _ => none

end Tags

end Marshal
