import Marshal.Converter.Emission

/-! # Scripted strategies

A user's strategy given as data: a rule for the types that it accepts, and for each direction a script of
pieces that are written one after the other, up to the first that fails. -/

namespace Marshal

inductive Rule
  | among (names : List String)
  | all
  | array
  | object
  | primitive
  | declared
  | callable
  | known (id : Fingerprint)
  | never
deriving DecidableEq, Repr, Inhabited

def Rule.accepts (cat : Catalog) (s : Settings) (t : HostType) : Rule → Bool
  | among names => names.contains t.source
  | all => true
  | array => (t matches .array _)
  | object => t.classRef?.isSome
  | primitive => t.primitive?.isSome
  | declared => (cat.declOf? t).isSome
  | callable => Conversion.isCallable cat s t
  | known id => t.fingerprint == id
  | never => false

/-- A piece of a script. Conversions of parts are named as the value itself unless a name is given. -/
inductive Piece
  | text (text : String)
  | name
  | type
  | depth
  | newline
  | indent
  | outdent
  /-- Fails as if the output had. -/
  | fail
  /-- Fails as if no strategy accepted the type. -/
  | unresolvable
  /-- Converts an element; nothing for types other than arrays. -/
  | element (name : Option String) (direction : Direction)
  | part (type : HostType) (name : Option String) (direction : Direction)
  | delegate (strategy : Nat) (direction : Direction)
deriving DecidableEq, Repr, Inhabited

namespace Piece

def andThen (next : Behaviour) : Except ConversionError Unit → Behaviour
  | .ok () => next
  | .error e => .stop (.error e)

def behaviour (c : Conversion) (next : Behaviour) : Piece → Behaviour
  | text s => .write (.print s) next
  | name => .write (.print c.name) next
  | type => .write (.print c.type.source) next
  | depth => .write (.print c.depth.repr) next
  | newline => .write (.print "\n") next
  | indent => .write .indent next
  | outdent => .write .outdent next
  | fail => .stop (.error .writeFailed)
  | unresolvable => .stop (.error (.unresolvable c.type.source))
  | element given d =>
    match c.type with
    | .array t => .nested t (given.getD c.name) d (andThen next)
    | _ => next
  | part t given d => .nested t (given.getD c.name) d (andThen next)
  | delegate i d => .delegate i d (andThen next)

end Piece

structure Script where
  name : String
  accepts : Rule
  isIdentity : Bool := false
  defaultValue : String := "null"
  toRuntime : List Piece
  fromRuntime : List Piece
  /-- Without a script, references to extractors are not allowed. -/
  extractor : Option (List Piece) := none
deriving DecidableEq, Repr, Inhabited

namespace Script

def behaviour (c : Conversion) (pieces : List Piece) : Behaviour :=
  pieces.foldr (fun p next => p.behaviour c next) (.stop (.ok ()))

def pieces? (s : Script) : Direction → Option (List Piece)
  | .toRuntime => some s.toRuntime
  | .fromRuntime => some s.fromRuntime
  | .extractor => s.extractor

def strategy (s : Script) : Strategy :=
  .custom {
    name := s.name
    accepts := fun cat settings t => s.accepts.accepts cat settings t
    isIdentity := s.isIdentity
    defaultValue := fun _ _ => s.defaultValue
    behaviour := fun _ _ d c =>
      match s.pieces? d with
      | some pieces => behaviour c pieces
      | none => .stop (.error (.disallowedDirection c.type.source d s.name)) }

end Script

end Marshal
