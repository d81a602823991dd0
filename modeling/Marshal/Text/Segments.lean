/-! # Segments of a text

A text cut at every occurrence of a separator, and put together again. Cutting always gives at least
one segment. -/

namespace Marshal.Segments

/-- Cuts at every separator; the separators are dropped. -/
def cut (sep : Char) : List Char → List (List Char)
  | [] => [[]]
  | c :: cs =>
    if c = sep then [] :: cut sep cs
    else
      match cut sep cs with
      | [] => [[c]]
      | s :: rest => (c :: s) :: rest

def join (sep : Char) : List (List Char) → List Char
  | [] => []
  | [s] => s
  | s :: t :: rest => s ++ sep :: join sep (t :: rest)

theorem cut_ne_nil {sep : Char} {cs : List Char} : cut sep cs ≠ [] := by
  cases cs with
  | nil => simp [cut]
  | cons c cs =>
    rw [cut]
    split
    · exact List.cons_ne_nil _ _
    · split <;> exact List.cons_ne_nil _ _

end Marshal.Segments
