import Conformance.Proofs.Builder.Declarations
import Conformance.Proofs.Composition
import Conformance.Proofs.Granted
/-! The requirements of a composition. Memory that reads as a declared composition, next to declared
objects, has composition queries answered by what the composition requires: a declared superclass,
and each of the protocols on its own. -/
namespace Conformance

/-- What a composition requires: some protocols and, perhaps, a superclass. -/
structure Requirements where
  protocols : List Address
  superclass : Option Address
deriving DecidableEq, Repr

namespace Requirements

variable (requirements : Requirements)

/-- The pointers behind the header of a composition. -/
def trailing : List Address := requirements.superclass.toList ++ requirements.protocols

/-- The flags in the header of a composition. -/
def flags : CompositionFlags :=
  ⟨if requirements.superclass.isSome then CompositionFlags.superclassBit else 0⟩

/-- The header of a composition. -/
def header : CompositionHeader := ⟨requirements.flags, requirements.protocols.length⟩

theorem hasSuperclass_flags :
    requirements.flags.hasSuperclass = requirements.superclass.isSome := by
  have hBit : CompositionFlags.hasSuperclass ⟨CompositionFlags.superclassBit⟩ = true := by decide
  unfold flags
  cases requirements.superclass with
  | none => decide
  | some superclass => exact hBit

/-- Every requirement is a declared one. -/
def Declared (declarations : Declarations) : Prop :=
  requirements.protocols ⊆ declarations.protocols ∧
    ∀ superclass ∈ requirements.superclass, superclass ∈ declarations.types

instance (declarations : Declarations) : Decidable (requirements.Declared declarations) :=
  -- The superclass is looked at alone: a search of all addresses would decide this as well.
  @instDecidableAnd _ _ inferInstance (Option.decidableForallMem requirements.superclass)

end Requirements

namespace Metadata

variable (metadata : Metadata)

/-- From a position on lie pointers, one after the other and none of them null, which a mask leaves
alone. The position after each of them has an address. -/
inductive Refers (mask : UInt64) : (position : Nat) → List Address → Prop where
  | nil (position : Nat) : Refers mask position []
  | cons {position : Nat} {pointer : Address} {rest : List Address}
      (hPointer : metadata.pointer? position = some pointer) (hNonnull : pointer ≠ 0)
      (hMask : pointer &&& mask = pointer)
      (hRoom : position + metadata.layout.pointerWidth.bytes < UInt64.size)
      (later : Refers mask (position + metadata.layout.pointerWidth.bytes) rest) :
      Refers mask position (pointer :: rest)

/-- A memory has the composition of some requirements at an address. -/
structure ReadsComposition (encoding : CompositionLayout) (requirements : Requirements)
    (composition : Address) : Prop where
  nonnull : composition ≠ 0
  kind : metadata.word? (Address.plus composition encoding.kindOffset) =
    some Kind.existential.word
  flags : metadata.half? (Address.plus composition encoding.flagsOffset) =
    some requirements.flags.bits
  count : ∃ count, metadata.half? (Address.plus composition encoding.countOffset) = some count ∧
    count.toNat = requirements.protocols.length
  trailing : metadata.Refers encoding.protocolMask
    (Address.plus composition encoding.trailingOffset) requirements.trailing

end Metadata

namespace Inspector

variable (inspector : Inspector) (reader : Reader)

/-- The type of an object was declared to descend from the superclass that is required, and conforms
to each of the protocols that are, as queries of their own find. -/
def Fulfils (declarations : Declarations) (object : Address) (requirements : Requirements) :
    Prop :=
  (∀ superclass ∈ requirements.superclass, ∃ hops ≤ inspector.limits.superclassHops,
    declarations.Ascends hops (declarations.typeOf object) superclass) ∧
  ∀ protocol ∈ requirements.protocols,
    ((inspector.typeVerdict (declarations.typeOf object) protocol).run reader).conforms = true

variable {inspector reader} {encoding : CompositionLayout} {requirements : Requirements}
  {composition : Address} {anomaly : Anomaly}

theorem heads_of_readsComposition
    (reads : (inspector.metadata reader).ReadsComposition encoding requirements composition)
    (hEntries : requirements.protocols.length ≤ inspector.limits.listEntries) :
    inspector.Heads reader encoding composition requirements.header := by
  obtain ⟨count, hCount, hLength⟩ := reads.count
  exact ⟨⟨_, reads.kind, Kind.ofWord_word _⟩, reads.flags, ⟨count, hCount, hLength.symm⟩, hEntries⟩

theorem meetsReferences_iff {type : Address} {position : Nat} {protocols : List Address}
    (refers : (inspector.metadata reader).Refers encoding.protocolMask position protocols) :
    inspector.MeetsReferences reader encoding type protocols.length position ↔
      ∀ protocol ∈ protocols,
        ((inspector.typeVerdict type protocol).run reader).conforms = true := by
  induction refers with
  | nil => exact iff_of_true (fun _ h => absurd h (Nat.not_lt_zero _)) (List.forall_mem_nil _)
  | cons hPointer hNonnull hMask _ _ ih =>
      rw [List.length_cons, meetsReferences_succ_iff, List.forall_mem_cons]
      refine and_congr ?_ ih
      unfold MeetsReference
      simp [hPointer, hMask, hNonnull]

/-- Going through references that can be read notes bounds only. -/
theorem meetsProtocols_granted {type : Address} {position : Nat} {protocols : List Address}
    {trace : Trace}
    (refers : (inspector.metadata reader).Refers encoding.protocolMask position protocols)
    (ancestry : (inspector.metadata reader).AncestryGranted type)
    (hAnomaly : anomaly.isBound = false)
    (h : anomaly ∈ ((inspector.meetsProtocols encoding type protocols.length position trace).run
      reader).anomalies) : anomaly ∈ trace.anomalies := by
  induction refers generalizing trace with
  | nil => exact h
  | cons hPointer hNonnull hMask _ _ ih =>
      rw [List.length_cons, run_meetsProtocols_succ, hPointer] at h
      dsimp only at h
      rw [hMask, if_neg hNonnull] at h
      split_ifs at h with hFound
      · exact searchAncestry_granted ancestry hAnomaly (ih h)
      · exact searchAncestry_granted ancestry hAnomaly h

variable {declarations : Declarations} {nest : Address → Address} {object : Address}

/-- A constraint to a type that is not null is met by declared descent. -/
theorem meetsSuperclass_iff (reads : (inspector.metadata reader).Reads declarations nest)
    (hObject : object ∈ declarations.objects) {position : Nat} {superclass : Address}
    {rest : List Address} (refers : (inspector.metadata reader).Refers encoding.protocolMask
      position (superclass :: rest)) :
    inspector.MeetsSuperclass reader (declarations.typeOf object) position ↔
      ∃ hops ≤ inspector.limits.superclassHops,
        declarations.Ascends hops (declarations.typeOf object) superclass := by
  have hType := reads.closed.typeOf object hObject
  cases refers with
  | cons hPointer hNonnull _ hRoom _ =>
      unfold MeetsSuperclass
      simp only [hPointer, Option.some.injEq, exists_eq_left', hNonnull, false_or,
        reads.ascends_iff _ hType]
      exact and_iff_left hRoom

theorem meetsRequirements_iff (reads : (inspector.metadata reader).Reads declarations nest)
    (has : (inspector.metadata reader).ReadsComposition encoding requirements composition)
    (hObject : object ∈ declarations.objects) :
    inspector.MeetsRequirements reader encoding requirements.header composition
        (declarations.typeOf object) ↔
      inspector.Fulfils reader declarations object requirements := by
  have refers := has.trailing
  unfold MeetsRequirements Fulfils
  unfold Requirements.trailing at refers
  simp only [Requirements.header, requirements.hasSuperclass_flags]
  cases hSuperclass : requirements.superclass with
  | none =>
      rw [hSuperclass] at refers
      simpa using meetsReferences_iff refers
  | some superclass =>
      rw [hSuperclass] at refers
      have constraint := meetsSuperclass_iff reads hObject refers
      cases refers with
      | cons _ _ _ _ later =>
          simpa [metadata] using and_congr constraint (meetsReferences_iff later)

/-- A composition that is read is satisfied where its requirements are fulfilled. -/
theorem satisfies_iff (reads : (inspector.metadata reader).Reads declarations nest)
    (has : (inspector.metadata reader).ReadsComposition encoding requirements composition)
    (hEncoding : inspector.layout.composition = some encoding)
    (hObject : object ∈ declarations.objects)
    (hEntries : requirements.protocols.length ≤ inspector.limits.listEntries) :
    inspector.Satisfies reader object composition ↔
      inspector.Fulfils reader declarations object requirements := by
  have heads := heads_of_readsComposition has hEntries
  have meets := meetsRequirements_iff reads has hObject
  have hRead := reads.typeOf object hObject
  constructor
  · intro satisfied
    obtain ⟨-, -, other, header, hOther, otherHeads, required⟩ := satisfied
    obtain rfl := Option.some.inj (hEncoding.symm.trans hOther)
    obtain rfl : requirements.header = header := Except.ok.inj <|
      (readHeader_ok_iff.mpr heads).symm.trans (readHeader_ok_iff.mpr otherHeads)
    rcases required with ⟨hCount, hFlag⟩ | ⟨type, hType, -, met⟩
    · have hProtocols := List.length_eq_zero_iff.mp hCount
      have hSuperclass : requirements.superclass = none := by
        simpa [Requirements.header, requirements.hasSuperclass_flags] using hFlag
      simp [Fulfils, hProtocols, hSuperclass]
    · obtain rfl := Option.some.inj (hRead.symm.trans hType)
      exact meets.mp met
  · intro fulfils
    have hNonnull := reads.closed.type_ne _ (reads.closed.typeOf object hObject)
    exact ⟨reads.closed.object_ne object hObject, has.nonnull, encoding, _, hEncoding, heads,
      Or.inr ⟨_, hRead, hNonnull, meets.mpr fulfils⟩⟩

theorem meetsConstraint_granted {type superclass : Address} {position : Nat} {rest : List Address}
    {trace : Trace} (refers : (inspector.metadata reader).Refers encoding.protocolMask position
      (superclass :: rest))
    (ancestry : (inspector.metadata reader).AncestryGranted type)
    (hAnomaly : anomaly.isBound = false)
    (h : anomaly ∈ ((inspector.meetsConstraint type position trace).run reader).2.anomalies) :
    anomaly ∈ trace.anomalies := by
  cases refers with
  | cons hPointer hNonnull _ hRoom _ =>
      have hRoom : position + inspector.layout.pointerWidth.bytes < UInt64.size := hRoom
      rw [run_meetsConstraint, hPointer] at h
      dsimp only at h
      rw [if_neg hNonnull, if_pos hRoom, ite_self] at h
      exact inheritsFrom_granted ancestry hAnomaly h

theorem requirementsVerdict_granted {type : Address}
    (has : (inspector.metadata reader).ReadsComposition encoding requirements composition)
    (ancestry : (inspector.metadata reader).AncestryGranted type)
    (hAnomaly : anomaly.isBound = false) :
    anomaly ∉ (inspector.requirementsVerdict reader encoding requirements.header composition
      type).anomalies := by
  have refers := has.trailing
  have hFresh : anomaly ∉ (Trace.start inspector.limits).anomalies := Anomalies.not_mem_none _
  intro h
  unfold requirementsVerdict at h
  unfold Requirements.trailing at refers
  simp only [Requirements.header, requirements.hasSuperclass_flags] at h
  cases hSuperclass : requirements.superclass with
  | none =>
      rw [hSuperclass] at refers h
      exact hFresh (meetsProtocols_granted refers ancestry hAnomaly h)
  | some superclass =>
      rw [hSuperclass] at refers h
      have constraint := fun h => hFresh (meetsConstraint_granted refers ancestry hAnomaly h)
      cases refers with
      | cons _ _ _ _ later =>
          simp only [Option.isSome_some, if_true] at h
          split_ifs at h
          · exact constraint (meetsProtocols_granted later ancestry hAnomaly h)
          · exact constraint h

/-- A composition query over memory that can be read reports bounds only. -/
theorem compositionVerdict_granted
    (has : (inspector.metadata reader).ReadsComposition encoding requirements composition)
    (hEncoding : inspector.layout.composition = some encoding) (hNonnull : object ≠ 0)
    (hObject : (inspector.metadata reader).ObjectGranted object)
    (hEntries : requirements.protocols.length ≤ inspector.limits.listEntries)
    (hAnomaly : anomaly.isBound = false) :
    anomaly ∉ ((inspector.compositionVerdict object composition).run reader).anomalies := by
  have hHeader := readHeader_ok_iff.mpr (heads_of_readsComposition has hEntries)
  obtain ⟨type, hType, hTypeNonnull, ancestry⟩ := hObject
  rw [run_compositionVerdict, if_neg (not_or.mpr ⟨hNonnull, has.nonnull⟩), hEncoding]
  dsimp only
  rw [hHeader]
  dsimp only
  split_ifs
  · exact Anomalies.not_mem_none _
  · rw [hType]
    dsimp only
    rw [if_neg hTypeNonnull]
    exact requirementsVerdict_granted has ancestry hAnomaly

variable (inspector reader) in
/-- A composition query over memory that reads as what was declared finds whether the requirements
are fulfilled, and reports bounds only. -/
theorem compositionVerdict_of_reads (reads : (inspector.metadata reader).Reads declarations nest)
    (has : (inspector.metadata reader).ReadsComposition encoding requirements composition)
    (hEncoding : inspector.layout.composition = some encoding)
    (hObject : object ∈ declarations.objects)
    (hEntries : requirements.protocols.length ≤ inspector.limits.listEntries) :
    let answer := (inspector.compositionVerdict object composition).run reader
    (∀ anomaly ∈ answer.anomalies, anomaly.isBound = true) ∧
      (.budgetExhausted ∉ answer.anomalies →
        (answer.conforms = true ↔
          inspector.Fulfils reader declarations object requirements)) := by
  intro answer
  have hNonnull := reads.closed.object_ne object hObject
  have settles : answer.Settles (inspector.Fulfils reader declarations object requirements) :=
    (inspector.compositionVerdict_settles reader object composition).congr
      (satisfies_iff reads has hEncoding hObject hEntries)
  refine ⟨fun anomaly h => ?_, settles.iff⟩
  rw [← Bool.not_eq_false]
  intro hAnomaly
  exact compositionVerdict_granted has hEncoding hNonnull (reads.objectGranted hObject) hEntries
    hAnomaly h

end Inspector

end Conformance
