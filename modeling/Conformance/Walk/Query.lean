import Conformance.Metadata.Kind
import Conformance.Walk.Ancestry
import Conformance.Walk.Records
/-! Queries: whether an object or a type conforms to a protocol, and whether an object satisfies a
protocol composition. -/
namespace Conformance

/-- The search of an ancestry: how the last list that was gone through ended, and the
bookkeeping. -/
structure Search where
  finding : Finding
  trace : Trace
deriving DecidableEq, Repr

/-- The part of a composition's header that says what follows it. -/
structure CompositionHeader where
  flags : CompositionFlags
  /-- The number of protocol references. -/
  count : Nat
deriving DecidableEq, Repr

namespace Inspector

/-- Searches the conformance list of one type. The search of an ancestry ends at a match and when
the budget has run out. -/
def searchType (inspector : Inspector) (target type : Address) (search : Search) :
    Probe (ForInStep Search) := do
  match ← inspector.layout.follow type inspector.layout.conformances with
  | none => pure (.yield ⟨.absent, search.trace.flag .invalidRead⟩)
  | some list =>
      if list = 0 then pure (.yield ⟨.absent, search.trace⟩)
      else
        let (finding, trace) ← inspector.scanList target list search.trace
        match finding with
        | .absent => pure (.yield ⟨finding, trace⟩)
        | _ => pure (.done ⟨finding, trace⟩)

/-- Searches the conformance lists of a type and of its superclasses. -/
def searchAncestry (inspector : Inspector) (target type : Address) (trace : Trace) :
    Probe (Bool × Trace) := do
  let (search, reason) ←
    inspector.visitAncestry (inspector.searchType target) type ⟨.absent, trace⟩
  pure (search.finding == .found, search.trace.flag? reason)

/-- Whether a type declares a protocol, itself or through a superclass, directly or through
protocols that incorporate it. -/
def typeVerdict (inspector : Inspector) (type protocol : Address) : Probe Verdict := do
  if type = 0 ∨ protocol = 0 then pure (.rejected .nullAddress)
  else
    let (found, trace) ← inspector.searchAncestry protocol type (.start inspector.limits)
    pure (trace.finish found)

/-- Whether the type of an object declares a protocol. -/
def verdict (inspector : Inspector) (object protocol : Address) : Probe Verdict := do
  if object = 0 ∨ protocol = 0 then pure (.rejected .nullAddress)
  else
    match ← inspector.typeOf object with
    | .error reason => pure (.rejected reason)
    | .ok type =>
        let (found, trace) ← inspector.searchAncestry protocol type (.start inspector.limits)
        pure (trace.finish found)

/-- Reads the header of a composition: its kind, then its flags and its count. -/
def readHeader (inspector : Inspector) (encoding : CompositionLayout) (composition : Address) :
    Probe (Except Anomaly CompositionHeader) := do
  let layout := inspector.layout
  match ← layout.readWord (Address.plus composition encoding.kindOffset) with
  | none => pure (.error .invalidRead)
  | some word =>
      if Kind.ofWord word ≠ .existential then pure (.error .notAComposition)
      else
        let flags ← layout.readHalf (Address.plus composition encoding.flagsOffset)
        let count ← layout.readHalf (Address.plus composition encoding.countOffset)
        match flags, count with
        | some flags, some count =>
            if inspector.limits.listEntries < count.toNat then pure (.error .listTooLong)
            else pure (.ok ⟨⟨flags⟩, count.toNat⟩)
        | _, _ => pure (.error .invalidRead)

/-- Whether a type meets the superclass constraint at a position. A null constraint is always met.
The references that follow the constraint have to have an address. -/
def meetsConstraint (inspector : Inspector) (type : Address) (position : Nat) (trace : Trace) :
    Probe (Bool × Trace) := do
  match ← inspector.layout.readPointer position with
  | none => pure (false, trace.flag .invalidRead)
  | some superclass =>
      let (met, trace) ←
        if superclass = 0 then pure (true, trace)
        else inspector.inheritsFrom type superclass trace
      if met then
        match ← Probe.locate (position + inspector.layout.pointerWidth.bytes) with
        | some _ => pure (true, trace)
        | none => pure (false, trace.flag .invalidRead)
      else pure (false, trace)

/-- Whether a type conforms to each of the protocols that are referred to from a position on. The
first one that it does not conform to ends the query. -/
def meetsProtocols (inspector : Inspector) (encoding : CompositionLayout) (type : Address) :
    (remaining position : Nat) → Trace → Probe Verdict
  | 0, _, trace => pure (trace.finish true)
  | remaining + 1, position, trace => do
      match ← inspector.layout.readPointer position with
      | none => pure ((trace.flag .invalidRead).finish false)
      | some reference =>
          let protocol := reference &&& encoding.protocolMask
          if protocol = 0 then pure ((trace.flag .nullAddress).finish false)
          else
            let (found, trace) ← inspector.searchAncestry protocol type trace
            if found then
              inspector.meetsProtocols encoding type remaining
                (position + inspector.layout.pointerWidth.bytes) trace
            else pure (trace.finish false)

/-- Whether an object satisfies a composition. A composition that requires nothing is satisfied by
every object, whether or not the object has a type. -/
def compositionVerdict (inspector : Inspector) (object composition : Address) :
    Probe Verdict := do
  if object = 0 ∨ composition = 0 then pure (.rejected .nullAddress)
  else
    match inspector.layout.composition with
    | none => pure (.rejected .notAComposition)
    | some encoding =>
        match ← inspector.readHeader encoding composition with
        | .error reason => pure (.rejected reason)
        | .ok header =>
            if header.count = 0 ∧ header.flags.hasSuperclass = false then pure ⟨true, .none⟩
            else
              match ← inspector.typeOf object with
              | .error reason => pure (.rejected reason)
              | .ok type =>
                  let trace := Trace.start inspector.limits
                  let position := Address.plus composition encoding.trailingOffset
                  if header.flags.hasSuperclass then
                    let (met, trace) ← inspector.meetsConstraint type position trace
                    if met then
                      inspector.meetsProtocols encoding type header.count
                        (position + inspector.layout.pointerWidth.bytes) trace
                    else pure (trace.finish false)
                  else inspector.meetsProtocols encoding type header.count position trace

end Inspector

end Conformance
