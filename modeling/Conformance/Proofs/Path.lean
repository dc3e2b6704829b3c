import Conformance.Proofs.Metadata
import Mathlib.Data.ENat.Basic
/-! Declared paths. A path goes from an object to its type, up a number of superclasses, into the
conformance list of the type reached there, and down a number of nested lists to a record that
names the protocol. Paths are relations over what memory holds; nothing here is computed by a
search. -/
namespace Conformance

/-- How far a path may go. -/
structure Reach where
  /-- How many superclass pointers it may follow. -/
  hops : ℕ∞
  /-- How many lists it may enter below the first one. -/
  depth : ℕ∞
  /-- How many records a list on it may declare. -/
  entries : ℕ∞

/-- No bound at all. -/
def Reach.unbounded : Reach := ⟨⊤, ⊤, ⊤⟩

/-- The reach that the bounds of a query allow. The bound on the records of a whole query is no
part of it. -/
def Limits.reach (limits : Limits) : Reach :=
  ⟨limits.superclassHops, limits.effectiveDepth, limits.listEntries⟩

namespace Metadata

variable (metadata : Metadata) (reach : Reach)

/-- Exactly `hops` superclass pointers, all of them readable and none null, lead from a type to an
ancestor. -/
inductive Ascends : (hops : Nat) → (type ancestor : Address) → Prop where
  | zero (type : Address) : Ascends 0 type type
  | succ {hops : Nat} {type superclass ancestor : Address}
      (first : metadata.superclass? type = some superclass) (hNonnull : superclass ≠ 0)
      (rest : Ascends hops superclass ancestor) : Ascends (hops + 1) type ancestor

/-- A list within reach has a record at an index. -/
def HasRecord (list : Address) (index : Nat) : Prop :=
  ∃ count, metadata.count? list = some count ∧ (count.toNat : ℕ∞) ≤ reach.entries ∧
    index < count.toNat

/-- A record of a list names a protocol. -/
def Names (list protocol : Address) : Prop :=
  ∃ index, metadata.HasRecord reach list index ∧
    metadata.interface? list index = some protocol

/-- A list is nested below a record of another one. The record has to name a protocol. -/
def Nests (list nested : Address) : Prop :=
  ∃ index interface, metadata.HasRecord reach list index ∧
    metadata.interface? list index = some interface ∧ interface ≠ 0 ∧
    metadata.nested? list index interface = some nested ∧ nested ≠ 0

/-- Exactly `depth` nestings lead from a list to another one. -/
inductive Descends : (depth : Nat) → (list last : Address) → Prop where
  | zero (list : Address) : Descends 0 list list
  | succ {depth : Nat} {list nested last : Address} (first : metadata.Nests reach list nested)
      (rest : Descends depth nested last) : Descends (depth + 1) list last

/-- A protocol is named by a list that lies exactly `depth` nestings below another one. -/
def Leads (depth : Nat) (list protocol : Address) : Prop :=
  ∃ last, metadata.Descends reach depth list last ∧ metadata.Names reach last protocol

/-- The conformance list of a type leads to a protocol. -/
def Declares (type protocol : Address) : Prop :=
  ∃ (list : Address) (depth : Nat), metadata.conformances? type = some list ∧ list ≠ 0 ∧
    (depth : ℕ∞) ≤ reach.depth ∧ metadata.Leads reach depth list protocol

/-- A type or one of its superclasses declares a protocol. -/
def TypeConforms (type protocol : Address) : Prop :=
  ∃ (hops : Nat) (ancestor : Address),
    (hops : ℕ∞) ≤ reach.hops ∧ metadata.Ascends hops type ancestor ∧
    metadata.Declares reach ancestor protocol

/-- There is a declared path from an object to a protocol. -/
def ObjectConforms (object protocol : Address) : Prop :=
  ∃ type, metadata.objectType? object = some type ∧ type ≠ 0 ∧
    metadata.TypeConforms reach type protocol

/-- A record can be read: the protocol that it names and, where it names one, the pointer to the
list below it. -/
def RecordGranted (list : Address) (index : Nat) : Prop :=
  ∃ interface, metadata.interface? list index = some interface ∧
    (interface ≠ 0 → ∃ nested, metadata.nested? list index interface = some nested)

/-- A list can be read: its count and each of its records. -/
def ListGranted (list : Address) : Prop :=
  ∃ count, metadata.count? list = some count ∧
    ∀ index < count.toNat, metadata.RecordGranted list index

/-- A type can be read: its superclass, its conformance list, and every list that is nested below
that one at any depth. -/
def TypeGranted (type : Address) : Prop :=
  (∃ superclass, metadata.superclass? type = some superclass) ∧
    ∃ list, metadata.conformances? type = some list ∧ (list ≠ 0 →
      ∀ depth last, metadata.Descends .unbounded depth list last → metadata.ListGranted last)

/-- Everything that a path from an object can go along can be read, however far it goes. -/
def ObjectGranted (object : Address) : Prop :=
  ∃ type, metadata.objectType? object = some type ∧ type ≠ 0 ∧
    ∀ hops ancestor, metadata.Ascends hops type ancestor → metadata.TypeGranted ancestor

variable {metadata reach}

theorem leads_zero_iff {list protocol : Address} :
    metadata.Leads reach 0 list protocol ↔ metadata.Names reach list protocol := by
  constructor
  · rintro ⟨last, descent, names⟩
    cases descent
    exact names
  · intro names
    exact ⟨list, .zero list, names⟩

theorem leads_succ_iff {depth : Nat} {list protocol : Address} :
    metadata.Leads reach (depth + 1) list protocol ↔
      ∃ nested, metadata.Nests reach list nested ∧
        metadata.Leads reach depth nested protocol := by
  constructor
  · rintro ⟨last, descent, names⟩
    cases descent with
    | succ first rest => exact ⟨_, first, last, rest, names⟩
  · rintro ⟨nested, first, last, rest, names⟩
    exact ⟨last, .succ first rest, names⟩

end Metadata

end Conformance
