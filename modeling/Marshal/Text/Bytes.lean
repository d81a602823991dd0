/-! # Texts by their bytes

Lengths of texts in bytes of UTF-8, and cutting a text after a number of bytes. A cut inside a character
is impossible; a cut beyond the end keeps everything. -/

namespace Marshal.Bytes

def length : List Char → Nat
  | [] => 0
  | c :: cs => c.utf8Size + length cs

/-- The first `n` bytes, or all of the text if it has fewer. -/
def take? : Nat → List Char → Option (List Char)
  | _, [] => some []
  | n, c :: cs =>
    if n = 0 then some []
    else if c.utf8Size ≤ n then (take? (n - c.utf8Size) cs).map (c :: ·)
    else none

@[simp] theorem length_nil : length [] = 0 := rfl

@[simp] theorem length_cons (c : Char) (cs : List Char) : length (c :: cs) = c.utf8Size + length cs := rfl

@[simp] theorem length_append (cs ds : List Char) : length (cs ++ ds) = length cs + length ds := by
  induction cs with
  | nil => simp
  | cons c cs ih => rw [List.cons_append, length_cons, length_cons, ih, Nat.add_assoc]

/-- Cutting at the end of a text gives that text back, whatever follows it. -/
theorem take?_append (cs ds : List Char) : take? (length cs) (cs ++ ds) = some cs := by
  induction cs with
  | nil => cases ds <;> simp [take?]
  | cons c cs ih =>
    have hc : c.utf8Size ≠ 0 := by have := c.utf8Size_pos; omega
    rw [List.cons_append, take?, length_cons, if_neg (by omega), if_pos (by omega), Nat.add_sub_cancel_left, ih]
    rfl

end Marshal.Bytes
