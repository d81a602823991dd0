import Marshal.RuntimeFunction

/-! # Emitting conversions

The expression that converts a value, by the strategy that its type selects. Conversions of parts are
emitted by the converter again, one level deeper; levels are bounded by the settings. A user's strategy may
also hand a conversion to other strategies at the same level. If it does so more often than there are pairs
of a strategy and a direction, some pair has come back and the conversion would never end. -/

namespace Marshal

namespace Strategy

def disallowed (c : Conversion) (d : Direction) (s : Strategy) : Emission Unit :=
  .fail (.disallowedDirection c.type.source d s.name)

/-! ### Built-in strategies -/

def emitIdentity (c : Conversion) : Direction → Emission Unit
  | .extractor => identity.disallowed c .extractor
  | _ => .print c.name

/-- The function of a callable is made once and then kept in a property of the callable. -/
def emitCallable (k : Converter) (cat : Catalog) (nest : Nesting) (c : Conversion) : Direction → Emission Unit
  | .toRuntime =>
    match cat.declOf? c.type with
    | none => .fail (.unknownType c.type.source)
    | some decl => do
      if decl.id = .ofName k.settings.types.callable then .fail (.bareMarker decl.name.source)
      let m ← .ofExcept (exportedMethod k.settings decl)
      let slot := c.name ++ ".@" ++ k.settings.types.callable ++ "::" ++ k.settings.members.exportedFunction
      .print ("(" ++ slot ++ " || (" ++ slot ++ " = ")
      RuntimeFunction.function k cat nest c.name decl m
      .print "))"
  | d => callable.disallowed c d

/-- A peer is reached through its handle, and a handle through the back reference or the factory. An
    inherited factory makes a supertype only and does not count. -/
def emitPeer (k : Converter) (cat : Catalog) (index : PeerIndex) (c : Conversion) : Direction → Emission Unit
  | .toRuntime =>
    match (index.of? c.type).bind (·.peerField) with
    | some field => .print (c.name ++ "." ++ field.reference)
    | none => missing .peerField k.settings.members.peerField
  | .fromRuntime =>
    match (index.of? c.type).bind (·.factory) with
    | some f =>
      if cat.assignable f.returns c.type then
        .print (c.name ++ "." ++ k.settings.members.backReference ++ " || " ++ f.member.reference ++
          "(" ++ f.signature ++ ")(" ++ c.name ++ ")")
      else missing .factoryMethod k.settings.members.factoryMethod
    | none => missing .factoryMethod k.settings.members.factoryMethod
  | .extractor =>
    match (index.of? c.type).bind (·.extractor) with
    | some field => .print field.reference
    | none => missing .extractorField k.settings.members.extractorField
where
  missing (convention : Convention) (member : String) : Emission Unit :=
    .fail (.missingConvention c.type.source convention member)

/-! ### One strategy -/

/-- What the strategy writes, whether or not it accepts the type; `nest` converts parts of the value and
    `hand` hands the conversion to the strategy at a position. -/
def emission (k : Converter) (cat : Catalog) (nest : Nesting) (hand : Handing) (c : Conversion) (d : Direction) :
    Strategy → Emission Unit
  | identity => emitIdentity c d
  | callable => emitCallable k cat nest c d
  | peering index => emitPeer k cat index c d
  | custom s => (s.behaviour cat k.settings d c).emission nest hand

end Strategy

namespace Converter

/-! ### All strategies -/

/-- Hands the conversion to the strategy at a position, with a bound on how often this one is handed on. -/
def handed (k : Converter) (cat : Catalog) (nest : Nesting) (c : Conversion) : Nat → Handing
  | 0, _, _ => .fail (.lostDelegation c.type.source)
  | bound + 1, i, d =>
    match k.strategies[i]? with
    | none => .fail (.lostDelegation c.type.source)
    | some s => s.emission k cat nest (handed k cat nest c bound) c d

def emissionBy (k : Converter) (cat : Catalog) (nest : Nesting) (s : Strategy) (c : Conversion) (d : Direction) :
    Emission Unit :=
  s.emission k cat nest (k.handed cat nest c (3 * k.strategies.length)) c d

/-- The emission of a conversion that may have this many levels of conversions inside it. -/
def emissionWithin (k : Converter) (cat : Catalog) : Nat → Conversion → Direction → Emission Unit
  | 0, c, d => do
    let s ← .ofExcept (k.select cat c.type)
    k.emissionBy cat (fun t _ _ => .fail (.recursive t.source (c.depth + 1))) s c d
  | levels + 1, c, d => do
    let s ← .ofExcept (k.select cat c.type)
    k.emissionBy cat
      (fun t name d' => do
        let inner ← .ofExcept (c.nested cat k.settings t name)
        emissionWithin k cat levels inner d')
      s c d

def emission (k : Converter) (cat : Catalog) (c : Conversion) (d : Direction) : Emission Unit :=
  k.emissionWithin cat (k.settings.maxDepth - c.depth) c d

def nest (k : Converter) (cat : Catalog) (c : Conversion) : Nesting := fun t name d => do
  let inner ← .ofExcept (c.nested cat k.settings t name)
  k.emission cat inner d

/-- The emission of a given strategy, whatever strategy the type selects. -/
def emissionOf (k : Converter) (cat : Catalog) (s : Strategy) (c : Conversion) (d : Direction) : Emission Unit :=
  k.emissionBy cat (k.nest cat c) s c d

/-- A conversion is what the selected strategy writes, with the parts converted in the same way. -/
theorem emission_eq (k : Converter) (cat : Catalog) (c : Conversion) (d : Direction) :
    k.emission cat c d = (do
      let s ← .ofExcept (k.select cat c.type)
      k.emissionOf cat s c d) := by
  unfold emission emissionOf
  cases h : k.settings.maxDepth - c.depth with
  | zero =>
    have hn : k.nest cat c = fun t _ _ => .fail (.recursive t.source (c.depth + 1)) := by
      funext t name d'
      unfold nest
      rw [Conversion.nested_of_maxDepth_le (by omega)]
      rfl
    rw [emissionWithin, hn]
  | succ levels =>
    have hn : k.nest cat c = fun t name d' => (do
        let inner ← .ofExcept (c.nested cat k.settings t name)
        k.emissionWithin cat levels inner d') := by
      funext t name d'
      unfold nest
      cases hc : c.nested cat k.settings t name with
      | error e => rfl
      | ok inner =>
        have hl : k.settings.maxDepth - inner.depth = levels := by
          rw [Conversion.depth_of_nested hc]
          omega
        rw [← hl]
        rfl
    rw [emissionWithin, hn]

/-! ### Writing -/

def convert (k : Converter) (cat : Catalog) (d : Direction) (t : HostType) (name : String) (w : Writer) :
    Option (Except ConversionError Unit × Writer) :=
  w.transact (k.emission cat ⟨t, name, []⟩ d)

def convertToText (k : Converter) (cat : Catalog) (d : Direction) (t : HostType) (name : String) :
    Except ConversionError String :=
  (k.emission cat ⟨t, name, []⟩ d).toText k.settings.indentUnit

end Converter

end Marshal
