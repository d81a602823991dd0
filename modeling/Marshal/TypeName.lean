import Marshal.Fingerprint
import Marshal.Text.Segments

/-! # Qualified type names

A type is named by a package and a name inside it; the name of a nested type has dots of its own. The
source form joins the two by a dot, the binary form uses slashes between packages and a dollar sign
before a nested name. Reading a source form takes the leading segments that start with a lowercase
letter as the package. -/

namespace Marshal

structure TypeName where
  package : String
  simple : String
deriving DecidableEq, Repr, Inhabited

namespace TypeName

/-- Packages are recognised by their first letter, an ASCII one. -/
def startsLower (segment : List Char) : Bool :=
  match segment with
  | [] => false
  | c :: _ => c.isLower

/-- How many of the segments are the package: the leading lowercase ones, but never all of them. -/
def packageLength (segments : List (List Char)) : Nat :=
  let leading := (segments.takeWhile startsLower).length
  if leading < segments.length then leading else segments.length - 1

/-- The name that a source form denotes. Empty segments do not count. -/
def parse (source : String) : TypeName :=
  let segments := (Segments.cut '.' source.toList).filter (!·.isEmpty)
  let n := packageLength segments
  ⟨String.ofList (Segments.join '.' (segments.take n)), String.ofList (Segments.join '.' (segments.drop n))⟩

def source (n : TypeName) : String :=
  if n.package.isEmpty then n.simple else n.package ++ "." ++ n.simple

def binary (n : TypeName) : String :=
  let nested := n.simple.map fun c => if c = '.' then '$' else c
  if n.package.isEmpty then nested
  else (n.package.map fun c => if c = '.' then '/' else c) ++ "/" ++ nested

def fingerprint (n : TypeName) : Fingerprint := Fingerprint.ofName n.source

/-! ### Order

By package, then by name, each by the code points of its characters. -/

instance : Ord TypeName := ⟨compareLex (compareOn package) (compareOn simple)⟩

def sort (names : List TypeName) : List TypeName := names.mergeSort fun a b => (compare a b).isLE

end TypeName

end Marshal
