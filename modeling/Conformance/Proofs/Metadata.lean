import Conformance.Walk.Query
import Mathlib.Tactic.SplitIfs
/-! Memory as a layout describes it. Each operation of a search that reads memory is restated as a
function of what the memory holds, so that later modules never look at a probe. -/
namespace Conformance

/-- A memory together with the layout that it is read by. -/
structure Metadata where
  layout : Layout
  reader : Reader

namespace Metadata

variable (metadata : Metadata)

/-- The value of a pointer field of the structure at `base`. It is `none` if a read on the way to
the field is refused, and null if a pointer on the way is. -/
def field? (base : Address) (path : Path) : Option Address :=
  (metadata.layout.follow base path).run metadata.reader

/-- The type of an object. -/
def objectType? (object : Address) : Option Address :=
  metadata.field? object metadata.layout.objectType

/-- The superclass of a type. -/
def superclass? (type : Address) : Option Address :=
  metadata.field? type metadata.layout.superclass

/-- The conformance list of a type. -/
def conformances? (type : Address) : Option Address :=
  metadata.field? type metadata.layout.conformances

/-- The pointer at a position. -/
def pointer? (position : Nat) : Option Address :=
  (metadata.layout.readPointer position).run metadata.reader

/-- The number of records that a list declares. -/
def count? (list : Address) : Option UInt64 :=
  (metadata.layout.readCount (Address.plus list metadata.layout.list.countOffset)).run
    metadata.reader

/-- The protocol that a record of a list names. -/
def interface? (list : Address) (index : Nat) : Option Address :=
  metadata.pointer? <|
    metadata.layout.recordPosition list index + metadata.layout.record.interfaceOffset.toNat

/-- The list nested below a record that names `interface`. It is null where a layout nests
nothing. -/
def nested? (list : Address) (index : Nat) (interface : Address) : Option Address :=
  match metadata.layout.nestedPosition? (metadata.layout.recordPosition list index) interface with
  | none => some 0
  | some position => metadata.pointer? position

end Metadata

namespace Inspector

/-- A memory as an inspector reads it. -/
def metadata (inspector : Inspector) (reader : Reader) : Metadata := ⟨inspector.layout, reader⟩

variable (inspector : Inspector) (reader : Reader)

/-- A null count opens nothing, and neither does a count above the bound. -/
theorem run_openList (list : Address) :
    (inspector.openList list).run reader =
      match (inspector.metadata reader).count? list with
      | none => .refused .invalidRead
      | some count =>
          if count = 0 then .empty
          else if inspector.limits.listEntries < count.toNat then .refused .listTooLong
          else .frame ⟨list, 0, count.toNat⟩ := by
  simp only [openList, Probe.run_bind, Metadata.count?, metadata]
  cases (inspector.layout.readCount _).run reader with
  | none => rfl
  | some count =>
      dsimp only
      split_ifs <;> rfl

/-- The target is recognised before anything below the record is read. -/
theorem run_inspect (target list : Address) (index : Nat) :
    (inspector.inspect target list index).run reader =
      match (inspector.metadata reader).interface? list index with
      | none => .unreadable
      | some interface =>
          if interface = target then .target
          else if interface = 0 then .leaf
          else
            match (inspector.metadata reader).nested? list index interface with
            | none => .unreadable
            | some nested => if nested = 0 then .leaf else .nested nested := by
  simp only [inspect, Probe.run_bind, Metadata.interface?, Metadata.pointer?, metadata]
  cases (inspector.layout.readPointer _).run reader with
  | none => rfl
  | some interface =>
      dsimp only
      split_ifs with hTarget hNull
      · rfl
      · rfl
      · simp only [Metadata.nested?, Metadata.pointer?]
        cases inspector.layout.nestedPosition? _ interface with
        | none => rfl
        | some position =>
            simp only [Probe.run_bind]
            cases (inspector.layout.readPointer position).run reader with
            | none => rfl
            | some nested =>
                dsimp only
                split_ifs <;> rfl

/-- A list is opened on top of the stack only where the depth allows it. -/
theorem run_descend (list : Address) (stack : List Frame) (seen : Anomalies) :
    (inspector.descend list stack seen).run reader =
      if inspector.limits.effectiveDepth < stack.length then (stack, seen.insert .depthLimit)
      else
        match (inspector.openList list).run reader with
        | .frame frame => (frame :: stack, seen)
        | .empty => (stack, seen)
        | .refused reason => (stack, seen.insert reason) := by
  unfold descend
  split_ifs with hDeep
  · rfl
  · rw [Probe.run_bind]
    cases (inspector.openList list).run reader <;> rfl

/-- An object without a type is told apart from one whose type cannot be read. -/
theorem run_typeOf (object : Address) :
    (inspector.typeOf object).run reader =
      match (inspector.metadata reader).objectType? object with
      | none => .error .invalidRead
      | some type => if type = 0 then .error .nullType else .ok type := by
  simp only [typeOf, Probe.run_bind, Metadata.objectType?, Metadata.field?, metadata]
  cases (inspector.layout.follow object _).run reader with
  | none => rfl
  | some type =>
      dsimp only
      split_ifs <;> rfl

end Inspector

end Conformance
