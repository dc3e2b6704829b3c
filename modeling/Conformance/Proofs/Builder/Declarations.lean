import Conformance.Proofs.Path
/-! What was declared, as a graph: the protocols with those that they incorporate, the types with
their superclasses and the protocols that they declare, and the objects with their types. A memory
that reads as such a graph has exactly the paths of the graph. -/
namespace Conformance

/-- Declared protocols, types and objects, each named by its address. -/
structure Declarations where
  protocols : List Address
  types : List Address
  objects : List Address
  /-- The protocols that a protocol incorporates. -/
  incorporated : Address → List Address
  /-- The protocols that a type declares. -/
  declared : Address → List Address
  superclass? : Address → Option Address
  /-- The type of an object. -/
  typeOf : Address → Address

namespace Declarations

/-- Nothing is declared. -/
def empty : Declarations := ⟨[], [], [], fun _ => [], fun _ => [], fun _ => none, fun _ => 0⟩

variable (declarations : Declarations)

/-- Exactly `hops` declared superclasses lead from a type to an ancestor. -/
inductive Ascends : (hops : Nat) → (type ancestor : Address) → Prop where
  | zero (type : Address) : Ascends 0 type type
  | succ {hops : Nat} {type superclass ancestor : Address}
      (first : declarations.superclass? type = some superclass)
      (rest : Ascends hops superclass ancestor) : Ascends (hops + 1) type ancestor

/-- Exactly `depth` declared incorporations lead from a protocol to another one, each by a list of
at most `entries` protocols. -/
inductive Incorporates (entries : Nat) : (depth : Nat) → (protocol last : Address) → Prop where
  | zero (protocol : Address) : Incorporates entries 0 protocol protocol
  | succ {depth : Nat} {protocol next last : Address}
      (hEntries : (declarations.incorporated protocol).length ≤ entries)
      (first : next ∈ declarations.incorporated protocol)
      (rest : Incorporates entries depth next last) : Incorporates entries (depth + 1) protocol last

/-- A protocol is reached from the declared list of a type, within the bounds of a query. -/
def Declares (limits : Limits) (type protocol : Address) : Prop :=
  (declarations.declared type).length ≤ limits.listEntries ∧
    ∃ depth ≤ limits.effectiveDepth, ∃ first ∈ declarations.declared type,
      declarations.Incorporates limits.listEntries depth first protocol

/-- A type within the hops from the type of an object declares a protocol. -/
def Conforms (limits : Limits) (object protocol : Address) : Prop :=
  ∃ hops ≤ limits.superclassHops, ∃ ancestor,
    declarations.Ascends hops (declarations.typeOf object) ancestor ∧
      declarations.Declares limits ancestor protocol

/-- Every address that is referred to was declared, and none is null. -/
structure Closed : Prop where
  protocol_ne : ∀ protocol ∈ declarations.protocols, protocol ≠ 0
  type_ne : ∀ type ∈ declarations.types, type ≠ 0
  object_ne : ∀ object ∈ declarations.objects, object ≠ 0
  incorporated : ∀ protocol ∈ declarations.protocols,
    declarations.incorporated protocol ⊆ declarations.protocols
  declared : ∀ type ∈ declarations.types, declarations.declared type ⊆ declarations.protocols
  superclass : ∀ type ∈ declarations.types,
    ∀ superclass ∈ declarations.superclass? type, superclass ∈ declarations.types
  typeOf : ∀ object ∈ declarations.objects, declarations.typeOf object ∈ declarations.types

variable {declarations}

theorem incorporates_zero_iff {entries : Nat} {protocol last : Address} :
    declarations.Incorporates entries 0 protocol last ↔ protocol = last := by
  constructor
  · intro h
    cases h
    rfl
  · intro h
    exact h ▸ .zero protocol

theorem incorporates_succ_iff {entries depth : Nat} {protocol last : Address} :
    declarations.Incorporates entries (depth + 1) protocol last ↔
      (declarations.incorporated protocol).length ≤ entries ∧
        ∃ next ∈ declarations.incorporated protocol,
          declarations.Incorporates entries depth next last := by
  constructor
  · intro h
    cases h with
    | succ hEntries first rest => exact ⟨hEntries, _, first, rest⟩
  · intro h
    obtain ⟨hEntries, next, first, rest⟩ := h
    exact .succ hEntries first rest

end Declarations

namespace Metadata

/-- A memory has the list of some protocols at an address. Below each protocol lies the list that
`nest` gives. -/
structure ReadsList (metadata : Metadata) (nest : Address → Address) (interfaces : List Address)
    (list : Address) : Prop where
  null_iff : list = 0 ↔ interfaces = []
  count : list ≠ 0 →
    ∃ count, metadata.count? list = some count ∧ count.toNat = interfaces.length
  records : list ≠ 0 → ∀ index interface, interfaces[index]? = some interface →
    metadata.interface? list index = some interface ∧
      metadata.nested? list index interface = some (nest interface)

/-- A memory has what was declared. -/
structure Reads (metadata : Metadata) (declarations : Declarations) (nest : Address → Address) :
    Prop where
  closed : declarations.Closed
  incorporated : ∀ protocol ∈ declarations.protocols,
    metadata.ReadsList nest (declarations.incorporated protocol) (nest protocol)
  declared : ∀ type ∈ declarations.types, ∃ list, metadata.conformances? type = some list ∧
    metadata.ReadsList nest (declarations.declared type) list
  superclass : ∀ type ∈ declarations.types,
    metadata.superclass? type = some ((declarations.superclass? type).getD 0)
  typeOf : ∀ object ∈ declarations.objects,
    metadata.objectType? object = some (declarations.typeOf object)

variable {metadata : Metadata} {declarations : Declarations} {nest : Address → Address}
  {reach : Reach} {interfaces : List Address} {list : Address}

theorem ReadsList.hasRecord_iff (reads : metadata.ReadsList nest interfaces list)
    (hList : list ≠ 0) {index : Nat} :
    metadata.HasRecord reach list index ↔
      (interfaces.length : ℕ∞) ≤ reach.entries ∧ index < interfaces.length := by
  obtain ⟨count, hCount, hLength⟩ := reads.count hList
  unfold HasRecord
  rw [hCount, ← hLength]
  simp

theorem ReadsList.names_iff (reads : metadata.ReadsList nest interfaces list) (hList : list ≠ 0)
    {protocol : Address} :
    metadata.Names reach list protocol ↔
      (interfaces.length : ℕ∞) ≤ reach.entries ∧ protocol ∈ interfaces := by
  constructor
  · intro h
    obtain ⟨index, hRecord, hName⟩ := h
    obtain ⟨hEntries, hIndex⟩ := (reads.hasRecord_iff hList).mp hRecord
    have hHere := (reads.records hList index _ (List.getElem?_eq_getElem hIndex)).1
    obtain rfl := Option.some.inj (hHere.symm.trans hName)
    exact ⟨hEntries, List.getElem_mem hIndex⟩
  · intro h
    obtain ⟨hEntries, hMem⟩ := h
    obtain ⟨index, hIndex⟩ := List.mem_iff_getElem?.mp hMem
    obtain ⟨hBound, -⟩ := List.getElem?_eq_some_iff.mp hIndex
    exact ⟨index, (reads.hasRecord_iff hList).mpr ⟨hEntries, hBound⟩,
      (reads.records hList index protocol hIndex).1⟩

theorem ReadsList.nests_iff (reads : metadata.ReadsList nest interfaces list) (hList : list ≠ 0)
    (hNonnull : ∀ interface ∈ interfaces, interface ≠ 0) {nested : Address} :
    metadata.Nests reach list nested ↔
      (interfaces.length : ℕ∞) ≤ reach.entries ∧
        ∃ interface ∈ interfaces, nest interface = nested ∧ nested ≠ 0 := by
  constructor
  · intro h
    obtain ⟨index, interface, hRecord, hName, -, hNested, hNull⟩ := h
    obtain ⟨hEntries, hIndex⟩ := (reads.hasRecord_iff hList).mp hRecord
    obtain ⟨hHere, hBelow⟩ := reads.records hList index _ (List.getElem?_eq_getElem hIndex)
    obtain rfl := Option.some.inj (hHere.symm.trans hName)
    exact ⟨hEntries, _, List.getElem_mem hIndex, Option.some.inj (hBelow.symm.trans hNested), hNull⟩
  · intro h
    obtain ⟨hEntries, interface, hMem, rfl, hNull⟩ := h
    obtain ⟨index, hIndex⟩ := List.mem_iff_getElem?.mp hMem
    obtain ⟨hBound, -⟩ := List.getElem?_eq_some_iff.mp hIndex
    obtain ⟨hHere, hBelow⟩ := reads.records hList index interface hIndex
    exact ⟨index, interface, (reads.hasRecord_iff hList).mpr ⟨hEntries, hBound⟩, hHere,
      hNonnull interface hMem, hBelow, hNull⟩

/-- A list that is read leads to what its protocols incorporate, and to nothing else. -/
theorem Reads.leads_iff (reads : metadata.Reads declarations nest) (limits : Limits) (depth : Nat)
    {protocol : Address} (here : metadata.ReadsList nest interfaces list) (hList : list ≠ 0)
    (hDeclared : interfaces ⊆ declarations.protocols) :
    metadata.Leads limits.reach depth list protocol ↔
      interfaces.length ≤ limits.listEntries ∧ ∃ first ∈ interfaces,
        declarations.Incorporates limits.listEntries depth first protocol := by
  have hNonnull := fun interface h => reads.closed.protocol_ne interface (hDeclared h)
  induction depth generalizing interfaces list with
  | zero =>
      rw [leads_zero_iff, here.names_iff hList]
      simp [Limits.reach, Declarations.incorporates_zero_iff]
  | succ depth ih =>
      rw [leads_succ_iff]
      simp only [here.nests_iff hList hNonnull, Declarations.incorporates_succ_iff, Limits.reach,
        Nat.cast_le]
      constructor
      · intro h
        obtain ⟨nested, ⟨hEntries, first, hFirst, rfl, hNull⟩, leads⟩ := h
        have below := reads.incorporated first (hDeclared hFirst)
        have hBelow := reads.closed.incorporated first (hDeclared hFirst)
        exact ⟨hEntries, first, hFirst, (ih below hNull hBelow
          fun _ h => reads.closed.protocol_ne _ (hBelow h)).mp leads⟩
      · intro h
        obtain ⟨hEntries, first, hFirst, incorporates⟩ := h
        have below := reads.incorporated first (hDeclared hFirst)
        have hBelow := reads.closed.incorporated first (hDeclared hFirst)
        have hNull : nest first ≠ 0 := by
          intro hNull
          obtain ⟨-, next, hNext, -⟩ := incorporates
          rw [below.null_iff.mp hNull] at hNext
          exact List.not_mem_nil hNext
        exact ⟨nest first, ⟨hEntries, first, hFirst, rfl, hNull⟩, (ih below hNull hBelow
          fun _ h => reads.closed.protocol_ne _ (hBelow h)).mpr incorporates⟩

/-- Every list below one that is read is read as well, and can be read to its end. -/
theorem Reads.listGranted (reads : metadata.Reads declarations nest) {depth : Nat} {last : Address}
    (descent : metadata.Descends .unbounded depth list last)
    (here : metadata.ReadsList nest interfaces list) (hList : list ≠ 0)
    (hDeclared : interfaces ⊆ declarations.protocols) : metadata.ListGranted last := by
  induction descent generalizing interfaces with
  | zero list =>
      obtain ⟨count, hCount, hLength⟩ := here.count hList
      refine ⟨count, hCount, fun index hIndex => ?_⟩
      rw [hLength] at hIndex
      obtain ⟨hName, hNested⟩ := here.records hList index _ (List.getElem?_eq_getElem hIndex)
      exact ⟨_, hName, fun _ => ⟨_, hNested⟩⟩
  | succ first _ ih =>
      have hNonnull := fun interface h => reads.closed.protocol_ne interface (hDeclared h)
      obtain ⟨-, interface, hMem, rfl, hNull⟩ := (here.nests_iff hList hNonnull).mp first
      exact ih (reads.incorporated interface (hDeclared hMem)) hNull
        (reads.closed.incorporated interface (hDeclared hMem))

theorem Reads.ascends_iff (reads : metadata.Reads declarations nest) (hops : Nat)
    {type ancestor : Address} (hType : type ∈ declarations.types) :
    metadata.Ascends hops type ancestor ↔ declarations.Ascends hops type ancestor := by
  constructor
  · intro ascent
    induction ascent with
    | zero type => exact .zero type
    | succ first hNonnull _ ih =>
        rw [reads.superclass _ hType] at first
        cases hSuperclass : declarations.superclass? _ with
        | none =>
            rw [hSuperclass] at first
            exact absurd (Option.some.inj first).symm hNonnull
        | some superclass =>
            rw [hSuperclass] at first
            obtain rfl := Option.some.inj first
            exact .succ hSuperclass (ih (reads.closed.superclass _ hType _ hSuperclass))
  · intro ascent
    induction ascent with
    | zero type => exact .zero type
    | succ first _ ih =>
        have hNext := reads.closed.superclass _ hType _ first
        have hHere := reads.superclass _ hType
        rw [first] at hHere
        exact .succ hHere (reads.closed.type_ne _ hNext) (ih hNext)

theorem Reads.mem_types_of_ascends (reads : metadata.Reads declarations nest) {hops : Nat}
    {type ancestor : Address} (ascent : declarations.Ascends hops type ancestor)
    (hType : type ∈ declarations.types) : ancestor ∈ declarations.types := by
  induction ascent with
  | zero => exact hType
  | succ first _ ih => exact ih (reads.closed.superclass _ hType _ first)

theorem Reads.declares_iff (reads : metadata.Reads declarations nest) (limits : Limits)
    {type protocol : Address} (hType : type ∈ declarations.types) :
    metadata.Declares limits.reach type protocol ↔ declarations.Declares limits type protocol := by
  obtain ⟨list, hList, here⟩ := reads.declared type hType
  have hDeclared := reads.closed.declared type hType
  unfold Metadata.Declares Declarations.Declares
  constructor
  · intro h
    obtain ⟨found, depth, hFound, hNonnull, hDepth, leads⟩ := h
    obtain rfl := Option.some.inj (hList.symm.trans hFound)
    obtain ⟨hEntries, first, hFirst, rest⟩ :=
      (reads.leads_iff limits depth here hNonnull hDeclared).mp leads
    exact ⟨hEntries, depth, Nat.cast_le.mp hDepth, first, hFirst, rest⟩
  · intro h
    obtain ⟨hEntries, depth, hDepth, first, hFirst, rest⟩ := h
    have hNonnull : list ≠ 0 := by
      intro hNull
      rw [here.null_iff.mp hNull] at hFirst
      exact List.not_mem_nil hFirst
    exact ⟨list, depth, hList, hNonnull, Nat.cast_le.mpr hDepth,
      (reads.leads_iff limits depth here hNonnull hDeclared).mpr ⟨hEntries, first, hFirst, rest⟩⟩

/-- The paths that a memory holds from the type of an object on are the declared ones. -/
theorem Reads.typeConforms_iff (reads : metadata.Reads declarations nest) (limits : Limits)
    {object protocol : Address} (hObject : object ∈ declarations.objects) :
    metadata.TypeConforms limits.reach (declarations.typeOf object) protocol ↔
      declarations.Conforms limits object protocol := by
  have hType := reads.closed.typeOf object hObject
  unfold TypeConforms Declarations.Conforms
  constructor
  · intro h
    obtain ⟨hops, ancestor, hHops, ascent, declares⟩ := h
    have ascent := (reads.ascends_iff hops hType).mp ascent
    have hAncestor := reads.mem_types_of_ascends ascent hType
    exact ⟨hops, Nat.cast_le.mp hHops, ancestor, ascent,
      (reads.declares_iff limits hAncestor).mp declares⟩
  · intro h
    obtain ⟨hops, hHops, ancestor, ascent, declares⟩ := h
    have hAncestor := reads.mem_types_of_ascends ascent hType
    exact ⟨hops, ancestor, Nat.cast_le.mpr hHops, (reads.ascends_iff hops hType).mpr ascent,
      (reads.declares_iff limits hAncestor).mpr declares⟩

theorem Reads.objectGranted (reads : metadata.Reads declarations nest) {object : Address}
    (hObject : object ∈ declarations.objects) : metadata.ObjectGranted object := by
  have hType := reads.closed.typeOf object hObject
  refine ⟨_, reads.typeOf object hObject, reads.closed.type_ne _ hType, ?_⟩
  intro hops ancestor ascent
  have hAncestor := reads.mem_types_of_ascends ((reads.ascends_iff hops hType).mp ascent) hType
  obtain ⟨list, hList, here⟩ := reads.declared ancestor hAncestor
  refine ⟨⟨_, reads.superclass ancestor hAncestor⟩, list, hList, fun hNonnull => ?_⟩
  intro depth last descent
  exact reads.listGranted descent here hNonnull (reads.closed.declared ancestor hAncestor)

end Metadata

end Conformance
