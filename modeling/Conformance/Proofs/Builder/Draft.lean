import Conformance.Proofs.Builder.Declarations
import Conformance.Proofs.Builder.Structures
import Mathlib.Logic.Function.Basic
/-! Runs of calls that lay out structures. A draft is a builder together with what was declared by
the calls that succeeded; it is represented when the bytes of the builder hold the declarations. -/
namespace Conformance

namespace Declarations

variable (declarations : Declarations)

/-- An address is that of something declared. -/
def Names (address : Address) : Prop :=
  address ∈ declarations.protocols ∨ address ∈ declarations.types ∨ address ∈ declarations.objects

def addProtocol (protocol : Address) (incorporated : List Address) : Declarations :=
  { declarations with
    protocols := protocol :: declarations.protocols
    incorporated := Function.update declarations.incorporated protocol incorporated }

def addType (type : Address) (superclass : Option Address) (declared : List Address) :
    Declarations :=
  { declarations with
    types := type :: declarations.types
    superclass? := Function.update declarations.superclass? type superclass
    declared := Function.update declarations.declared type declared }

def addObject (object type : Address) : Declarations :=
  { declarations with
    objects := object :: declarations.objects
    typeOf := Function.update declarations.typeOf object type }

def setSuperclass (type superclass : Address) : Declarations :=
  { declarations with
    superclass? := Function.update declarations.superclass? type (some superclass) }

end Declarations

/-- A call that lays out a structure or changes one. -/
inductive Call where
  | protocol (incorporated : List Address)
  | type (superclass : Option Address) (declared : List Address)
  | object (type : Address)
  | setSuperclass (type superclass : Address)

/-- The arguments of a call are addresses of structures of the right sort. -/
def Call.WellSorted (declarations : Declarations) : Call → Prop
  | .protocol incorporated => incorporated ⊆ declarations.protocols
  | .type superclass declared =>
      (∀ ancestor ∈ superclass, ancestor ∈ declarations.types) ∧ declared ⊆ declarations.protocols
  | .object ofType => ofType ∈ declarations.types
  | .setSuperclass heir superclass =>
      heir ∈ declarations.types ∧ superclass ∈ declarations.types

instance (declarations : Declarations) :
    (call : Call) → Decidable (call.WellSorted declarations)
  | .protocol incorporated => inferInstanceAs (Decidable (incorporated ⊆ declarations.protocols))
  | .type superclass _ =>
      -- The superclass is looked at alone: a search of all addresses would decide this as well.
      @instDecidableAnd _ _ (Option.decidableForallMem superclass) inferInstance
  | .object ofType => inferInstanceAs (Decidable (ofType ∈ declarations.types))
  | .setSuperclass heir superclass =>
      inferInstanceAs (Decidable (heir ∈ declarations.types ∧ superclass ∈ declarations.types))

/-- A builder with what was declared to it. -/
structure Draft where
  builder : Builder
  declarations : Declarations

namespace Draft

/-- Nothing is laid out and nothing declared. -/
def start (layout : Layout) (base : Address) : Draft := ⟨.start layout base, .empty⟩

/-- The draft after an operation. A failed operation declares nothing, but what it laid out before
it failed is there. -/
def apply {α : Type} (draft : Draft) (action : Build α)
    (declare : α → Declarations → Declarations) : Draft :=
  match action.run draft.builder with
  | .ok result builder => ⟨builder, declare result draft.declarations⟩
  | .error _ builder => ⟨builder, draft.declarations⟩

/-- The draft after a call. -/
def perform (draft : Draft) : Call → Draft
  | .protocol incorporated => draft.apply (Build.protocol incorporated) fun protocol declarations =>
      declarations.addProtocol protocol incorporated
  | .type superclass declared => draft.apply (Build.type superclass declared)
      fun type declarations => declarations.addType type superclass declared
  | .object type => draft.apply (Build.object type) fun object declarations =>
      declarations.addObject object type
  | .setSuperclass type superclass => draft.apply (Build.setSuperclass type superclass)
      fun _ declarations => declarations.setSuperclass type superclass

/-- A draft is reached from another one by a run of calls, each with arguments that earlier calls
of the right sort returned. -/
inductive Reaches (first : Draft) : Draft → Prop where
  | refl : Reaches first first
  | perform {draft : Draft} {call : Call} (run : Reaches first draft)
      (wellSorted : call.WellSorted draft.declarations) : Reaches first (draft.perform call)

end Draft

namespace Builder

variable (builder : Builder)

/-- The cell that holds the superclass of a type. -/
def InSuperclass (type : Address) (position : Nat) : Prop :=
  Build.superclassPosition builder.layout type ≤ position ∧
    position < Build.superclassPosition builder.layout type + builder.layout.pointerWidth.bytes

instance (type : Address) (position : Nat) : Decidable (builder.InSuperclass type position) :=
  inferInstanceAs (Decidable (_ ∧ _))

/-- The bytes that no call will change: all but the superclasses of types. -/
def steady (types : List Address) : Contents := fun position =>
  if ∃ type ∈ types, builder.InSuperclass type position then none else builder.byte? position

/-- A block of the smallest size at least lies at an address. -/
structure Placed (address : Address) : Prop where
  low : builder.base.toNat ≤ address.toNat
  aligned : address.toNat % 16 = 0
  high : address.toNat + 64 ≤ builder.finish

end Builder

namespace Layout

/-- A protocol as it is laid out: the list of what it incorporates, and the pointer to that list
where layouts keep it in protocols. Where they keep it in records, `below` has to know it. -/
structure HasProtocol (layout : Layout) (contents : Contents) (nest below : Address → Address)
    (incorporated : List Address) (protocol : Address) : Prop where
  lays : layout.Lays contents nest incorporated (nest protocol)
  inInterface : ∀ offset, layout.record.nested = .inInterface offset →
    layout.Stores contents (Address.plus protocol offset) (nest protocol)
  inRecord : ∀ offset, layout.record.nested = .inRecord offset → below protocol = nest protocol

/-- A type as it is laid out, but for its superclass. -/
def HasType (layout : Layout) (contents : Contents) (bits : Nat) (nest : Address → Address)
    (declared : List Address) (type : Address) : Prop :=
  ∃ list, layout.Lays contents nest declared list ∧
    layout.Links contents bits type layout.conformances.first layout.conformances.later list

/-- An object as it is laid out. -/
def HasObject (layout : Layout) (contents : Contents) (bits : Nat) (type object : Address) : Prop :=
  layout.Links contents bits object layout.objectType.first layout.objectType.later type

end Layout

/-- The bytes of a builder hold what was declared. Everything but the superclasses of types lies
where no call will write again. -/
structure Draft.Represents (draft : Draft) (bits : Nat) (nest : Address → Address) : Prop where
  regular : draft.builder.layout.Regular bits
  sound : draft.builder.Sound
  closed : draft.declarations.Closed
  placed : ∀ address, draft.declarations.Names address → draft.builder.Placed address
  apart : ∀ first ∈ draft.declarations.types, ∀ second ∈ draft.declarations.types,
    first ≠ second → first.toNat + 64 ≤ second.toNat ∨ second.toNat + 64 ≤ first.toNat
  protocols : ∀ protocol ∈ draft.declarations.protocols,
    draft.builder.layout.HasProtocol (draft.builder.steady draft.declarations.types) nest
      (Build.nestedBelow draft.builder) (draft.declarations.incorporated protocol) protocol
  types : ∀ type ∈ draft.declarations.types,
    draft.builder.layout.HasType (draft.builder.steady draft.declarations.types) bits nest
      (draft.declarations.declared type) type
  objects : ∀ object ∈ draft.declarations.objects,
    draft.builder.layout.HasObject (draft.builder.steady draft.declarations.types) bits
      (draft.declarations.typeOf object) object
  superclass : ∀ type ∈ draft.declarations.types,
    draft.builder.layout.Stores draft.builder.byte?
      (Build.superclassPosition draft.builder.layout type)
      ((draft.declarations.superclass? type).getD 0)

namespace Layout

variable {layout : Layout} {contents whole : Contents} {bits : Nat} {reader : Reader}
  {nest : Address → Address} {interfaces : List Address} {list : Address}

/-- A list that was laid out is read back. -/
theorem readsList_of_lays (regular : layout.Regular bits) (shows : reader.Shows contents)
    (lays : layout.Lays contents nest interfaces list)
    (hInterface : ∀ interface ∈ interfaces, Address.Plain bits interface)
    (hNest : ∀ interface ∈ interfaces, Address.Plain bits (nest interface))
    (hNested : ∀ interface ∈ interfaces, ∀ offset, layout.record.nested = .inInterface offset →
      layout.Stores contents (Address.plus interface offset) (nest interface)) :
    Metadata.ReadsList ⟨layout, reader⟩ nest interfaces list := by
  rcases lays with hEmpty | lists
  · obtain ⟨rfl, rfl⟩ := hEmpty
    exact ⟨by simp, fun h => absurd rfl h, fun h => absurd rfl h⟩
  · refine ⟨by simp [lists.nonnull, lists.nonempty], fun _ => ?_,
      fun _ index interface hIndex => ?_⟩
    · exact run_readCount shows lists.count lists.bound
    · have hMem := List.mem_of_getElem? hIndex
      obtain ⟨hName, hBelow⟩ := lists.records index interface hIndex
      refine ⟨run_readPointer regular shows hName (hInterface interface hMem), ?_⟩
      unfold Metadata.nested? nestedPosition?
      have hWhere := regular.nested
      cases hRecord : layout.record.nested with
      | absent =>
          rw [hRecord] at hWhere
          exact hWhere.elim
      | inRecord offset =>
          exact run_readPointer regular shows (hBelow offset hRecord) (hNest interface hMem)
      | inInterface offset =>
          exact run_readPointer regular shows (hNested interface hMem offset hRecord)
            (hNest interface hMem)

end Layout

namespace Builder

variable {builder : Builder} {bits : Nat}

theorem steady_eq_some_iff {types : List Address} {position : Nat} {byte : UInt8} :
    builder.steady types position = some byte ↔
      (∀ type ∈ types, ¬ builder.InSuperclass type position) ∧
        builder.byte? position = some byte := by
  unfold steady
  split_ifs with hCell
  · obtain ⟨type, hType, hInside⟩ := hCell
    simp only [false_iff, not_and]
    intro hNone
    exact absurd hInside (hNone type hType)
  · rw [and_iff_right]
    intro type hType hInside
    exact hCell ⟨type, hType, hInside⟩

theorem steady_within (types : List Address) : (builder.steady types).Within builder.byte? := by
  intro position byte h
  exact (steady_eq_some_iff.mp h).2

theorem Placed.plain {address : Address} (placed : builder.Placed address)
    (hBits : builder.finish ≤ 2 ^ bits) : Address.Plain bits address := by
  have hHigh := placed.high
  exact ⟨placed.aligned, by omega⟩

theorem plain_of_lays {nest : Address → Address} {interfaces : List Address} {list : Address}
    (lays : builder.layout.Lays builder.byte? nest interfaces list)
    (hBits : builder.finish ≤ 2 ^ bits) : Address.Plain bits list := by
  rcases lays with hEmpty | lists
  · rw [hEmpty.2]
    exact Address.plain_zero bits
  · have hBounds := bounds_of_holds lists.count (Layout.encode_ne_nil _ _ _)
    have hWidth := builder.layout.list.countWidth.bytes_pos
    rw [ByteOrder.length_encode] at hBounds
    unfold Address.plus at hBounds
    exact ⟨lists.aligned, by omega⟩

end Builder

/-- A memory that shows the bytes of a draft reads as what was declared. -/
theorem Draft.Represents.reads {draft : Draft} {bits : Nat} {nest : Address → Address}
    {reader : Reader} (represents : draft.Represents bits nest)
    (hBits : draft.builder.finish ≤ 2 ^ bits) (shows : reader.Shows draft.builder.byte?) :
    Metadata.Reads ⟨draft.builder.layout, reader⟩ draft.declarations nest := by
  have regular := represents.regular
  have closed := represents.closed
  have hSteady := draft.builder.steady_within draft.declarations.types
  have hPlain (address : Address) (h : draft.declarations.Names address) :
      Address.Plain bits address := (represents.placed address h).plain hBits
  have readsList (interfaces : List Address) (list : Address)
      (hInterfaces : interfaces ⊆ draft.declarations.protocols)
      (lays : draft.builder.layout.Lays (draft.builder.steady draft.declarations.types) nest
        interfaces list) :
      Metadata.ReadsList ⟨draft.builder.layout, reader⟩ nest interfaces list := by
    refine Layout.readsList_of_lays regular (shows.mono hSteady) lays (fun interface h => ?_)
      (fun interface h => ?_) (fun interface h => ?_)
    · exact hPlain interface (Or.inl (hInterfaces h))
    · have protocol := represents.protocols interface (hInterfaces h)
      exact Builder.plain_of_lays (protocol.lays.mono hSteady) hBits
    · exact (represents.protocols interface (hInterfaces h)).inInterface
  refine ⟨closed, fun protocol h => ?_, fun type h => ?_, fun type h => ?_, fun object h => ?_⟩
  · exact readsList _ _ (closed.incorporated protocol h) (represents.protocols protocol h).lays
  · obtain ⟨list, lays, links⟩ := represents.types type h
    refine ⟨list, ?_, readsList _ _ (closed.declared type h) lays⟩
    exact Layout.run_followHops regular (shows.mono hSteady) regular.conformances links
      (Builder.plain_of_lays (lays.mono hSteady) hBits)
  · have hHops : ∀ hop ∈ draft.builder.layout.superclass.first :: [],
        hop.Regular bits draft.builder.layout.pointerWidth.bytes := by
      intro hop hHop
      rw [List.mem_singleton.mp hHop]
      exact regular.superclass.2
    have hValue : Address.Plain bits ((draft.declarations.superclass? type).getD 0) := by
      cases hSuperclass : draft.declarations.superclass? type with
      | none => exact Address.plain_zero bits
      | some superclass =>
          exact hPlain superclass (Or.inr (Or.inl (closed.superclass type h _ hSuperclass)))
    have hRead := Layout.run_followHops regular shows hHops (represents.superclass type h) hValue
    unfold Metadata.superclass? Metadata.field? Layout.follow Path.hops
    rw [regular.superclass.1]
    exact hRead
  · have hType := closed.typeOf object h
    exact Layout.run_followHops regular (shows.mono hSteady) regular.objectType
      (represents.objects object h) (hPlain _ (Or.inr (Or.inl hType)))

end Conformance
