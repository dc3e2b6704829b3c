import Conformance.Walk.Inspector
/-! A type and its superclasses, one after the other. The chain is read from memory that may be
corrupt, so it can be endless. It is cut off after a number of superclass pointers, and usually
sooner by a marker that is left behind at growing distances: a chain that meets its marker goes
round in a circle. -/
namespace Conformance

/-- The marker on a superclass chain. -/
structure Marker where
  /-- The type that was marked. -/
  type : Address
  /-- How many types are passed before the marker moves on. -/
  reach : Nat
  /-- How many types have been passed since the marker moved. -/
  passed : Nat
deriving DecidableEq, Repr

namespace Marker

/-- The marker on the first type of a chain. -/
def start (type : Address) : Marker := ⟨type, 1, 0⟩

/-- The marker after the chain has gone on to another type. Each time it moves, its reach is
doubled. -/
def advance (marker : Marker) (next : Address) : Marker :=
  if marker.passed + 1 = marker.reach then ⟨next, 2 * marker.reach, 0⟩
  else { marker with passed := marker.passed + 1 }

end Marker

namespace Inspector

variable {σ : Type}

/-- Visits a type, then its superclasses, until the visitor is done or the chain ends. The
superclass of each type is read before the type is visited. The result has the reason for which
the chain was given up, if its end was met and was not a null superclass. -/
def climb (inspector : Inspector) (visit : Address → σ → Probe (ForInStep σ)) :
    (hopsLeft : Nat) → Marker → (type : Address) → σ → Probe (σ × Option Anomaly)
  | hopsLeft, marker, type, state => do
      let last (reason : Option Anomaly) : Probe (σ × Option Anomaly) := do
        let step ← visit type state
        pure (step.value, reason)
      match ← inspector.layout.follow type inspector.layout.superclass with
      | none => last (some .invalidRead)
      | some superclass =>
          if superclass = 0 then last none
          else
            match hopsLeft with
            | 0 => last (some .hopLimit)
            | hopsLeft + 1 =>
                if superclass = marker.type then last (some .cycle)
                else
                  match ← visit type state with
                  | .done state => pure (state, none)
                  | .yield state =>
                      climb inspector visit hopsLeft (marker.advance superclass) superclass state

/-- Visits the ancestry of a type within the bounds. -/
def visitAncestry (inspector : Inspector) (visit : Address → σ → Probe (ForInStep σ))
    (type : Address) (state : σ) : Probe (σ × Option Anomaly) :=
  inspector.climb visit inspector.limits.superclassHops (.start type) type state

/-- Whether a type is `ancestor` or one of its superclasses is. -/
def inheritsFrom (inspector : Inspector) (type ancestor : Address) (trace : Trace) :
    Probe (Bool × Trace) := do
  let visit (current : Address) (_ : Bool) : Probe (ForInStep Bool) :=
    pure (if current = ancestor then .done true else .yield false)
  let (found, reason) ← inspector.visitAncestry visit type false
  pure (found, trace.flag? reason)

end Inspector

end Conformance
