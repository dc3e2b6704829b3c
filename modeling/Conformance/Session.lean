import Conformance.Memory.Source
import Conformance.Resolution
import Conformance.Walk.Query
/-! Sessions: everything a query needs, captured once. -/
namespace Conformance

/-- A layout that may be missing, the memory that queries read, and their bounds. -/
structure Session where
  resolution : Resolution
  source : Source
  limits : Limits

namespace Session

/-- The session of a configuration on a memory. -/
def ofConfig (platform : Platform) (config : Config) (source : Source) : Session :=
  ⟨.ofSelection platform config.selection, source, config.limits⟩

/-- What queries are answered with, if there is a layout. -/
def inspector? (session : Session) : Option Inspector :=
  session.resolution.layout?.map fun layout => ⟨layout, session.limits⟩

/-- A query of the session as a computation over memory. Without a layout nothing is read. -/
def probe (session : Session) (query : Inspector → Probe Verdict) : Probe Verdict :=
  match session.inspector? with
  | some inspector => query inspector
  | none => pure (.rejected .unresolved)

/-- The answer to a query. -/
def answer (session : Session) (query : Inspector → Probe Verdict) : Verdict :=
  session.source.run (session.probe query)

/-- Whether the type of an object declares a protocol, with the anomalies met. -/
def verdict (session : Session) (object protocol : Address) : Verdict :=
  session.answer (·.verdict object protocol)

/-- Whether the type of an object declares a protocol. -/
def conforms (session : Session) (object protocol : Address) : Bool :=
  (session.verdict object protocol).conforms

/-- Whether a type declares a protocol. -/
def typeConforms (session : Session) (type protocol : Address) : Bool :=
  (session.answer (·.typeVerdict type protocol)).conforms

/-- Whether an object satisfies a composition. -/
def conformsToComposition (session : Session) (object composition : Address) : Bool :=
  (session.answer (·.compositionVerdict object composition)).conforms

end Session

end Conformance
