import Marshal.Text.Unprintable

/-! # Quoted texts

A text between double quotes, for diagnostics. Quotes, backslashes and the common control characters have
short escapes; any other character that does not print on its own is written by its number. -/

namespace Marshal.Quoted

/-- The number of the character in braces, in hexadecimal digits without leading zeros. -/
def numbered (c : Char) : List Char := ['\\', 'u', '\x7b'] ++ Nat.toDigits 16 c.toNat ++ ['\x7d']

def escape (c : Char) : List Char :=
  match c with
  | '\x00' => ['\\', '0']
  | '\t' => ['\\', 't']
  | '\r' => ['\\', 'r']
  | '\n' => ['\\', 'n']
  | '"' => ['\\', '"']
  | '\\' => ['\\', '\\']
  | c => if Unprintable.contains c then numbered c else [c]

def quote (text : String) : String := String.ofList ('"' :: text.toList.flatMap escape ++ ['"'])

end Marshal.Quoted
