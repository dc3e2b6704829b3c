/-! Bounds on queries. They take the place of timeouts: reaching one ends the branch of the walk
that it concerns. -/
namespace Conformance

/-- The most nested lists that a walk can hold open below a declared one. -/
def nestingCapacity : Nat := 32

/-- The bounds of a query. -/
structure Limits where
  /-- How many superclass pointers are followed from the first type. -/
  superclassHops : Nat
  /-- How deep lists are nested below a declared conformance; the capacity bounds it as well. -/
  nestedDepth : Nat
  /-- How many records a list may declare. A list that declares more is skipped. -/
  listEntries : Nat
  /-- How many records are inspected in all. -/
  recordsVisited : Nat
deriving DecidableEq, Repr

namespace Limits

/-- Bounds that suit real class hierarchies. -/
def default : Limits := ⟨128, 16, 4096, 65536⟩

/-- Bounds for a process with little time left. -/
def strict : Limits := ⟨32, 8, 512, 4096⟩

/-- Bounds for inspection at leisure. -/
def thorough : Limits := ⟨1024, nestingCapacity, 65536, 4194304⟩

/-- The bounds with another number of superclass pointers. -/
def withSuperclassHops (limits : Limits) (hops : Nat) : Limits :=
  { limits with superclassHops := hops }

/-- The bounds with another depth, cut down to the capacity. -/
def withNestedDepth (limits : Limits) (depth : Nat) : Limits :=
  { limits with nestedDepth := min depth nestingCapacity }

/-- The bounds with another number of records in a list. -/
def withListEntries (limits : Limits) (entries : Nat) : Limits :=
  { limits with listEntries := entries }

/-- The bounds with another number of records in all. -/
def withRecordsVisited (limits : Limits) (records : Nat) : Limits :=
  { limits with recordsVisited := records }

/-- The depth that a walk can use. -/
def effectiveDepth (limits : Limits) : Nat := min limits.nestedDepth nestingCapacity

theorem effectiveDepth_le (limits : Limits) : limits.effectiveDepth ≤ nestingCapacity :=
  Nat.min_le_right _ _

end Limits

end Conformance
