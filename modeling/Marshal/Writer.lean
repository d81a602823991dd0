import Marshal.Text.Bytes

/-! # The indenting writer

A writer holds the text written so far. Each line is indented when its first character is printed, by the
level in force then, so that empty lines stay empty. A mark remembers how far the text, the level and the
line had come; a writer can be taken back to it. -/

namespace Marshal

structure Writer where
  text : String := ""
  unit : String := "  "
  level : Nat := 0
  atLineStart : Bool := true
deriving DecidableEq, Repr, Inhabited

namespace Writer

/-! ### Lines -/

/-- The printed characters, with the padding before the first character of each line. -/
def layout (padding : List Char) (atLineStart : Bool) : List Char → List Char
  | [] => []
  | c :: cs =>
    if c = '\n' then c :: layout padding true cs
    else (if atLineStart then padding else []) ++ c :: layout padding false cs

def lineStartAfter (atLineStart : Bool) : List Char → Bool
  | [] => atLineStart
  | c :: cs => lineStartAfter (c == '\n') cs

/-! ### Steps -/

def padding (w : Writer) : List Char := (List.replicate w.level w.unit.toList).flatten

def print (w : Writer) (text : String) : Writer :=
  { w with
    text := w.text ++ String.ofList (layout w.padding w.atLineStart text.toList)
    atLineStart := lineStartAfter w.atLineStart text.toList }

def indent (w : Writer) : Writer := { w with level := w.level + 1 }

/-- At the lowest level there is nothing to take back. -/
def outdent (w : Writer) : Writer := { w with level := w.level - 1 }

inductive Step
  | print (text : String)
  | indent
  | outdent
deriving DecidableEq, Repr

def apply (w : Writer) : Step → Writer
  | .print text => w.print text
  | .indent => w.indent
  | .outdent => w.outdent

def run (w : Writer) (steps : List Step) : Writer := steps.foldl apply w

def printLine (w : Writer) (text : String) : Writer := (w.print text).print "\n"

/-! ### Marks -/

/-- The size is the length of the text in bytes. -/
structure Mark where
  size : Nat
  level : Nat
  atLineStart : Bool
deriving DecidableEq, Repr, Inhabited

def mark (w : Writer) : Mark := ⟨Bytes.length w.text.toList, w.level, w.atLineStart⟩

/-- Takes the writer back to the mark. A text that has become shorter than the mark is kept whole. It fails
    when the mark is inside a character of the present text. -/
def rollback? (w : Writer) (m : Mark) : Option Writer :=
  (Bytes.take? m.size w.text.toList).map fun cs =>
    { w with text := String.ofList cs, level := m.level, atLineStart := m.atLineStart }

end Writer

end Marshal
