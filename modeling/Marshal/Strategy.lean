import Marshal.Conversion
import Marshal.Emission
import Marshal.Peer

/-! # Strategies

A strategy converts the values of the types that it accepts. Three strategies are built in: values that are
the same on both sides, callables, and peers. Others are supplied by the user, who describes what they write
by a behaviour: a tree of steps, of requests for other conversions, and of transactions, which goes on with
the outcome of each request and of each transaction. -/

namespace Marshal

inductive Behaviour
  | stop (result : Except ConversionError Unit)
  | write (step : Writer.Step) (next : Behaviour)
  /-- Converts a part of the value under a name of its own. -/
  | nested (type : HostType) (name : String) (direction : Direction)
      (resume : Except ConversionError Unit → Behaviour)
  /-- Hands the same conversion to another strategy, given by its position. -/
  | delegate (strategy : Nat) (direction : Direction) (resume : Except ConversionError Unit → Behaviour)
  /-- Does a part of the work as a transaction, which leaves nothing behind if it fails. -/
  | attempt (part : Behaviour) (resume : Except ConversionError Unit → Behaviour)

abbrev Nesting := HostType → String → Direction → Emission Unit

/-- How a conversion is handed on to the strategy at a position. -/
abbrev Handing := Nat → Direction → Emission Unit

/-- The emission of a behaviour, from those of its requests. What a failed request has written stays, unless
    it is part of a transaction. -/
def Behaviour.emission (nest : Nesting) (hand : Handing) : Behaviour → Emission Unit
  | stop result => ⟨[], result⟩
  | write s next =>
    let e := next.emission nest hand
    ⟨s :: e.steps, e.result⟩
  | nested t name d resume =>
    let request := nest t name d
    let e := (resume request.result).emission nest hand
    ⟨request.steps ++ e.steps, e.result⟩
  | delegate i d resume =>
    let request := hand i d
    let e := (resume request.result).emission nest hand
    ⟨request.steps ++ e.steps, e.result⟩
  | attempt part resume =>
    let transaction := (part.emission nest hand).attempt
    let e := (resume transaction.result).emission nest hand
    ⟨transaction.steps ++ e.steps, e.result⟩

structure CustomStrategy where
  name : String
  accepts : Catalog → Settings → HostType → Bool
  isIdentity : Bool := false
  defaultValue : Catalog → HostType → String := fun _ _ => "null"
  behaviour : Catalog → Settings → Direction → Conversion → Behaviour

inductive Strategy
  | identity
  | callable
  | peering (index : PeerIndex)
  | custom (c : CustomStrategy)

namespace Strategy

def name : Strategy → String
  | identity => "identity"
  | callable => "function"
  | peering _ => "peering"
  | custom c => c.name

/-- Values that need no conversion: primitives, strings, and handles of runtime objects. -/
def isPlain (cat : Catalog) (s : Settings) : HostType → Bool
  | .primitive _ => true
  | t@(.object c) => c.name.source == s.types.string || cat.assignable t s.handleType
  | .array _ => false

def accepts (cat : Catalog) (s : Settings) (t : HostType) : Strategy → Bool
  | identity => isPlain cat s t
  | callable => t.classRef?.isSome && Conversion.isCallable cat s t
  | peering index => (index.of? t).isSome
  | custom c => c.accepts cat s t

def isIdentity : Strategy → Bool
  | identity => true
  | custom c => c.isIdentity
  | _ => false

/-- A literal that can stand for any value of a type that needs no conversion. -/
def plainDefault (t : HostType) : String :=
  match t.primitive? with
  | some .boolean => "false"
  | some p => if p.isNumeric then "0" else "null"
  | none => "null"

def defaultValue (cat : Catalog) (t : HostType) : Strategy → String
  | identity => plainDefault t
  | custom c => c.defaultValue cat t
  | _ => "null"

end Strategy

end Marshal
