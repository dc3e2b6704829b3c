import Conformance.Limits
import Conformance.Metadata.Access
import Conformance.Walk.Anomaly
/-! What queries are answered with, and the bookkeeping of one query. -/
namespace Conformance

/-- The layout to read by and the bounds to keep. -/
structure Inspector where
  layout : Layout
  limits : Limits
deriving DecidableEq, Repr

/-- The bookkeeping of a query: what went wrong so far, and how many records may still be
inspected. -/
structure Trace where
  anomalies : Anomalies
  recordsLeft : Nat
deriving DecidableEq, Repr

namespace Trace

/-- The bookkeeping at the start of a query. -/
def start (limits : Limits) : Trace := ⟨.none, limits.recordsVisited⟩

/-- Notes an anomaly. -/
def flag (trace : Trace) (anomaly : Anomaly) : Trace :=
  { trace with anomalies := trace.anomalies.insert anomaly }

/-- Notes an anomaly, if there is one. -/
def flag? (trace : Trace) : Option Anomaly → Trace
  | some anomaly => trace.flag anomaly
  | none => trace

/-- Ends the query with an answer. -/
def finish (trace : Trace) (conforms : Bool) : Verdict := ⟨conforms, trace.anomalies⟩

end Trace

/-- The type of an object, or why it has none. -/
def Inspector.typeOf (inspector : Inspector) (object : Address) :
    Probe (Except Anomaly Address) := do
  match ← inspector.layout.follow object inspector.layout.objectType with
  | none => pure (.error .invalidRead)
  | some type => if type = 0 then pure (.error .nullType) else pure (.ok type)

end Conformance
