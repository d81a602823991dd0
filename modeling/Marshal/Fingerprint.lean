import Marshal.Fingerprint.XxHash64

/-! # Fingerprints

A type is known by a 64-bit fingerprint of its qualified source name, so that it can be referred to
before it is declared. Fingerprints are written as `0x` and sixteen hexadecimal digits. -/

namespace Marshal

structure Fingerprint where
  bits : UInt64
deriving DecidableEq, Repr, Inhabited

namespace Fingerprint

/-- Keeps fingerprints of types apart from plain digests of the same names. -/
def domain : UInt64 := 0x2fac10b63a6cc57c

def utf8 (text : String) : List UInt8 := text.toList.flatMap String.utf8EncodeChar

def ofName (name : String) : Fingerprint := ⟨domain ^^^ XxHash64.digest 0 (utf8 name)⟩

/-- The hexadecimal digits of `n`, the `places` lowest ones. -/
def hexDigits : Nat → Nat → List Char
  | 0, _ => []
  | places + 1, n => hexDigits places (n / 16) ++ [Nat.digitChar (n % 16)]

def text (f : Fingerprint) : String := "0x" ++ String.ofList (hexDigits 16 f.bits.toNat)

/-! ### Order

Fingerprints are ordered by their numbers; the order only serves to look them up. -/

instance : Ord Fingerprint := ⟨compareOn bits⟩

instance : Std.TransOrd Fingerprint := inferInstanceAs (Std.TransCmp (compareOn bits))

instance : Std.LawfulEqOrd Fingerprint where
  eq_of_compare {a b} h := by
    have h' : a.bits = b.bits := Std.LawfulEqOrd.eq_of_compare (h : compare a.bits b.bits = .eq)
    cases a; cases b; cases h'; rfl

end Fingerprint

end Marshal
