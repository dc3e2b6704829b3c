import Conformance.Walk.Inspector
/-! Conformance lists and the lists nested below them. A search goes through the records of a
list in order and, after each record, through the list of protocols that its protocol
incorporates. The lists that are open form a stack, whose height is bounded by the nesting depth;
every record that is inspected, of whatever list, counts against one budget. -/
namespace Conformance

/-- A list that is being gone through. -/
structure Frame where
  list : Address
  /-- The index of the next record. -/
  next : Nat
  /-- The number of records. -/
  count : Nat
deriving DecidableEq, Repr

namespace Frame

/-- Whether no record is left. -/
def isSpent (frame : Frame) : Bool := frame.count ≤ frame.next

/-- The list after its next record. -/
def advance (frame : Frame) : Frame := { frame with next := frame.next + 1 }

end Frame

/-- What the head of a list says. -/
inductive Opening where
  | frame (frame : Frame)
  /-- The list has no record. -/
  | empty
  /-- The list is passed over for a reason. -/
  | refused (reason : Anomaly)
deriving DecidableEq, Repr

/-- What a record says. -/
inductive Sighting where
  /-- The record names the protocol that is looked for. -/
  | target
  /-- Nothing is to be found below the record. -/
  | leaf
  /-- A list is nested below the record. -/
  | nested (list : Address)
  | unreadable
deriving DecidableEq, Repr

/-- How the search through a list has ended. -/
inductive Finding where
  | found
  | absent
  /-- The budget of records has run out. -/
  | exhausted
deriving DecidableEq, Repr

/-- The position of a record. -/
def Layout.recordPosition (layout : Layout) (list : Address) (index : Nat) : Nat :=
  list.toNat + layout.list.entriesOffset.toNat + index * layout.record.stride.toNat

/-- The position of the pointer to the list that is nested below a record, if the layout has
nested lists. -/
def Layout.nestedPosition? (layout : Layout) (record : Nat) (interface : Address) : Option Nat :=
  match layout.record.nested with
  | .absent => none
  | .inRecord offset => some (record + offset.toNat)
  | .inInterface offset => some (Address.plus interface offset)

namespace Inspector

/-- Reads the head of a list. -/
def openList (inspector : Inspector) (list : Address) : Probe Opening := do
  match ← inspector.layout.readCount (Address.plus list inspector.layout.list.countOffset) with
  | none => pure (.refused .invalidRead)
  | some count =>
      if count = 0 then pure .empty
      else if inspector.limits.listEntries < count.toNat then pure (.refused .listTooLong)
      else pure (.frame ⟨list, 0, count.toNat⟩)

/-- Reads a record. A record that names the target is a match even where the target is null. -/
def inspect (inspector : Inspector) (target list : Address) (index : Nat) : Probe Sighting := do
  let layout := inspector.layout
  let record := layout.recordPosition list index
  match ← layout.readPointer (record + layout.record.interfaceOffset.toNat) with
  | none => pure .unreadable
  | some interface =>
      if interface = target then pure .target
      else if interface = 0 then pure .leaf
      else
        match layout.nestedPosition? record interface with
        | none => pure .leaf
        | some position =>
            match ← layout.readPointer position with
            | none => pure .unreadable
            | some nested => if nested = 0 then pure .leaf else pure (.nested nested)

/-- Opens a list on top of the stack, unless the stack is as high as it may be. -/
def descend (inspector : Inspector) (list : Address) (stack : List Frame) (seen : Anomalies) :
    Probe (List Frame × Anomalies) := do
  if inspector.limits.effectiveDepth < stack.length then pure (stack, seen.insert .depthLimit)
  else
    match ← inspector.openList list with
    | .frame frame => pure (frame :: stack, seen)
    | .empty => pure (stack, seen)
    | .refused reason => pure (stack, seen.insert reason)

/-- Goes through the open lists, the topmost first. -/
def scan (inspector : Inspector) (target : Address) :
    (recordsLeft : Nat) → List Frame → Anomalies → Probe (Finding × Trace)
  | recordsLeft, stack, seen =>
      match stack.dropWhile Frame.isSpent with
      | [] => pure (.absent, ⟨seen, recordsLeft⟩)
      | frame :: below =>
          match recordsLeft with
          | 0 => pure (.exhausted, ⟨seen.insert .budgetExhausted, 0⟩)
          | recordsLeft + 1 => do
              let stack := frame.advance :: below
              match ← inspector.inspect target frame.list frame.next with
              | .target => pure (.found, ⟨seen, recordsLeft⟩)
              | .leaf => inspector.scan target recordsLeft stack seen
              | .unreadable => inspector.scan target recordsLeft stack (seen.insert .invalidRead)
              | .nested list => do
                  let (stack, seen) ← inspector.descend list stack seen
                  inspector.scan target recordsLeft stack seen

/-- Searches a list and every list nested below it. -/
def scanList (inspector : Inspector) (target list : Address) (trace : Trace) :
    Probe (Finding × Trace) := do
  let (stack, seen) ← inspector.descend list [] trace.anomalies
  inspector.scan target trace.recordsLeft stack seen

end Inspector

end Conformance
