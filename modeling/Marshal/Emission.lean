import Marshal.Writer
import Marshal.Conversion.Error

/-! # Emissions

What a conversion writes never depends on the writer, so it is a value of its own: the steps up to the end
or up to the failure, and the result. A writer can run an emission as it is, in which case the steps before
a failure stay, or as a transaction, which takes them back. -/

namespace Marshal

structure Emission (α : Type) where
  steps : List Writer.Step
  result : Except ConversionError α

namespace Emission

variable {α β : Type}

protected def pure (a : α) : Emission α := ⟨[], .ok a⟩

/-- After a failure nothing more is written. -/
protected def bind (e : Emission α) (f : α → Emission β) : Emission β :=
  match e.result with
  | .error x => ⟨e.steps, .error x⟩
  | .ok a => ⟨e.steps ++ (f a).steps, (f a).result⟩

instance : Monad Emission where
  pure := Emission.pure
  bind := Emission.bind

def step (s : Writer.Step) : Emission Unit := ⟨[s], .ok ()⟩

def print (text : String) : Emission Unit := step (.print text)

def printLine (text : String) : Emission Unit := ⟨[.print text, .print "\n"], .ok ()⟩

def indent : Emission Unit := step .indent

def outdent : Emission Unit := step .outdent

def fail (x : ConversionError) : Emission α := ⟨[], .error x⟩

def ofExcept (r : Except ConversionError α) : Emission α := ⟨[], r⟩

/-- The emission as a transaction of its own: nothing stays of what was written before a failure. -/
def attempt (e : Emission α) : Emission α :=
  match e.result with
  | .ok _ => e
  | .error x => fail x

def toText (e : Emission α) (unit : String) : Except ConversionError String :=
  e.result.map fun _ => (({ unit := unit } : Writer).run e.steps).text

end Emission

namespace Writer

variable {α : Type}

/-- Runs an emission; what is written before a failure stays. -/
def emit (w : Writer) (e : Emission α) : Except ConversionError α × Writer := (e.result, w.run e.steps)

/-- Runs an emission and takes it back if it fails. There is no result when taking it back is impossible. -/
def transact (w : Writer) (e : Emission α) : Option (Except ConversionError α × Writer) :=
  let w' := w.run e.steps
  match e.result with
  | .ok a => some (.ok a, w')
  | .error x => (w'.rollback? w.mark).map (.error x, ·)

end Writer

end Marshal
