import Conformance.Proofs.Builder.Compositions
import Conformance.Proofs.Builder.RoundTrip
/-! Round trip of compositions. A blueprint is a draft with the compositions that were laid out in
the same memory; what their requirements are is what queries find, in place or in the image. -/
namespace Conformance

/-- A composition of declared requirements lies where no call will write again. -/
structure Draft.HasComposition (draft : Draft) (requirements : Requirements)
    (composition : Address) : Prop where
  declared : requirements.Declared draft.declarations
  laid : ∃ encoding, draft.builder.layout.composition = some encoding ∧
    draft.builder.layout.HasComposition (draft.builder.steady draft.declarations.types) encoding
      requirements composition

namespace Draft.HasComposition

variable {draft after : Draft} {requirements : Requirements} {composition : Address}

theorem keep (has : draft.HasComposition requirements composition) (keeps : draft.Keeps after) :
    after.HasComposition requirements composition := by
  obtain ⟨⟨hProtocols, hSuperclass⟩, encoding, hEncoding, laid⟩ := has
  refine ⟨⟨fun _ h => keeps.protocols (hProtocols h), fun superclass h => ?_⟩, encoding, ?_, ?_⟩
  · exact keeps.types (hSuperclass superclass h)
  · rw [keeps.layout, hEncoding]
  · rw [keeps.layout]
    exact laid.mono keeps.steady

variable {bits : Nat} {nest : Address → Address} {reader : Reader}

/-- A memory that shows the bytes of a draft reads as having its compositions. -/
theorem reads (has : draft.HasComposition requirements composition)
    (represents : draft.Represents bits nest) (hBits : draft.builder.finish ≤ 2 ^ bits)
    (hFinish : draft.builder.finish < UInt64.size)
    (hRegular : ∀ encoding, draft.builder.layout.composition = some encoding →
      encoding.Regular bits draft.builder.layout.pointerWidth.bytes)
    (shows : reader.Shows draft.builder.byte?) :
    ∃ encoding, draft.builder.layout.composition = some encoding ∧
      Metadata.ReadsComposition ⟨draft.builder.layout, reader⟩ encoding requirements
        composition := by
  obtain ⟨⟨hProtocols, hSuperclass⟩, encoding, hEncoding, laid⟩ := has
  have closed := represents.closed
  refine ⟨encoding, hEncoding, Builder.readsComposition represents.regular shows hFinish
    (hRegular encoding hEncoding) (laid.mono (Builder.steady_within _)) fun pointer h => ?_⟩
  rcases List.mem_append.mp h with hFirst | hLater
  · have hType := hSuperclass pointer (Option.mem_toList.mp hFirst)
    exact ⟨closed.type_ne pointer hType, (represents.placed pointer (Or.inr (Or.inl hType))).plain
      hBits⟩
  · have hProtocol := hProtocols hLater
    exact ⟨closed.protocol_ne pointer hProtocol, (represents.placed pointer
      (Or.inl hProtocol)).plain hBits⟩

end Draft.HasComposition

/-- A draft with the compositions that were laid out beside it, and what they require. -/
structure Blueprint where
  draft : Draft
  compositions : List (Address × Requirements)

namespace Blueprint

/-- Nothing is laid out and nothing declared. -/
def start (layout : Layout) (base : Address) : Blueprint := ⟨.start layout base, []⟩

/-- The blueprint after a call. -/
def perform (blueprint : Blueprint) (call : Call) : Blueprint :=
  { blueprint with draft := blueprint.draft.perform call }

/-- The blueprint after a composition. A composition that fails is not there, but what was laid out
for it is. -/
def compose (blueprint : Blueprint) (requirements : Requirements) : Blueprint :=
  let declarations := blueprint.draft.declarations
  match (Build.composition requirements.protocols requirements.superclass).run
      blueprint.draft.builder with
  | .ok composition builder =>
      ⟨⟨builder, declarations⟩, (composition, requirements) :: blueprint.compositions⟩
  | .error _ builder => ⟨⟨builder, declarations⟩, blueprint.compositions⟩

/-- A blueprint is reached from another one by a run of calls and compositions, each with arguments
that earlier calls of the right sort returned. -/
inductive Reaches (first : Blueprint) : Blueprint → Prop where
  | refl : Reaches first first
  | perform {blueprint : Blueprint} {call : Call} (run : Reaches first blueprint)
      (wellSorted : call.WellSorted blueprint.draft.declarations) :
      Reaches first (blueprint.perform call)
  | compose {blueprint : Blueprint} {requirements : Requirements} (run : Reaches first blueprint)
      (declared : requirements.Declared blueprint.draft.declarations) :
      Reaches first (blueprint.compose requirements)

/-- What holds of every blueprint of a run. -/
structure Running (layout : Layout) (bits : Nat) (blueprint : Blueprint) : Prop where
  draft : blueprint.draft.Running layout bits
  compositions : blueprint.draft.builder.finish ≤ 2 ^ bits →
    ∀ entry ∈ blueprint.compositions, blueprint.draft.HasComposition entry.2 entry.1

namespace Running

variable {layout : Layout} {bits : Nat} {blueprint : Blueprint}
  (running : blueprint.Running layout bits)

include running

/-- The compositions are still there for a draft that has kept what the draft before it had. -/
theorem keep {after : Draft} (hAfter : after.Running layout bits)
    (keeps : blueprint.draft.Keeps after) :
    Running layout bits ⟨after, blueprint.compositions⟩ := by
  refine ⟨hAfter, fun hBits entry hEntry => ?_⟩
  exact (running.compositions (Nat.le_trans keeps.finish_le hBits) entry hEntry).keep keeps

theorem perform (hRegular : layout.Regular bits) {call : Call}
    (wellSorted : call.WellSorted blueprint.draft.declarations) :
    (blueprint.perform call).Running layout bits := by
  have changes := blueprint.draft.changes_perform running.draft.sound
    (running.draft.layout ▸ hRegular) call
  exact running.keep (running.draft.perform hRegular wellSorted) (changes.keeps wellSorted)

theorem compose {requirements : Requirements} (hRegular : ∀ encoding,
      layout.composition = some encoding → encoding.Regular bits layout.pointerWidth.bytes)
    (declared : requirements.Declared blueprint.draft.declarations) :
    (blueprint.compose requirements).Running layout bits := by
  have ensures := Build.ensures_composition requirements running.draft.sound
    (running.draft.layout ▸ hRegular)
  unfold Build.Ensures at ensures
  unfold Blueprint.compose
  -- Whether the composition succeeds or not, the memory before it is kept.
  have hKept {after : Builder} (grows : Builder.Extends blueprint.draft.builder after) :
      Running layout bits ⟨⟨after, blueprint.draft.declarations⟩, blueprint.compositions⟩ :=
    running.keep (running.draft.extend grows)
      (Draft.keeps_of_extends (Build.grows_withNestedLists grows) (fun _ h => h) rfl)
  cases hRun : (Build.composition requirements.protocols requirements.superclass).run
      blueprint.draft.builder with
  | error error after =>
      rw [hRun] at ensures
      exact hKept ensures
  | ok composition after =>
      rw [hRun] at ensures
      obtain ⟨grows, encoding, hEncoding, laid⟩ := ensures
      refine ⟨(hKept grows).draft, fun hBits => List.forall_mem_cons.mpr ⟨?_, ?_⟩⟩
      · obtain ⟨nest, represents⟩ :=
          running.draft.represents (Nat.le_trans grows.finish_le hBits)
        have hSteady := represents.since_within_steady grows.layout
        refine ⟨declared, encoding, grows.layout ▸ hEncoding, ?_⟩
        dsimp only
        rw [grows.layout]
        exact laid.mono hSteady
      · exact (hKept grows).compositions hBits

end Running

variable {blueprint : Blueprint}

theorem Reaches.running (runtime : Runtime) {base : Address}
    (run : (start runtime.layout base).Reaches blueprint) (hBase : base ≠ 0)
    (hAligned : base.toNat % 16 = 0) :
    blueprint.Running runtime.layout runtime.addressBits := by
  induction run with
  | refl =>
      exact ⟨Draft.running_start runtime.regular hBase hAligned,
        fun _ _ h => absurd h List.not_mem_nil⟩
  | perform _ wellSorted ih => exact ih.perform runtime.regular wellSorted
  | compose _ declared ih => exact ih.compose (fun _ => runtime.regular_composition) declared

/-- A query for a composition that a run laid out answers by what the composition requires, in place
and in the image: the superclass is looked for among the declared ones, and each protocol as by a
query of its own. Where the layout of a runtime has no compositions, no run lays one out. -/
theorem Reaches.composition_conforms_iff (runtime : Runtime) {base : Address}
    (run : (start runtime.layout base).Reaches blueprint) (hBase : base ≠ 0)
    (hAligned : base.toNat % 16 = 0) (hSpan : blueprint.draft.builder.finish ≤ runtime.span)
    {composition object : Address} {requirements : Requirements}
    (hComposition : (composition, requirements) ∈ blueprint.compositions)
    (hObject : object ∈ blueprint.draft.declarations.objects) (limits : Limits)
    (hEntries : requirements.protocols.length ≤ limits.listEntries) :
    let declarations := blueprint.draft.declarations
    let inspector : Inspector := ⟨runtime.layout, limits⟩
    ∃ image, blueprint.draft.builder.toImage = .ok image ∧
      ∀ source ∈ [blueprint.draft.builder.source, image.source],
        let answer := source.run (inspector.compositionVerdict object composition)
        (∀ anomaly ∈ [.invalidRead, .nullAddress, .nullType, .notAComposition],
          anomaly ∉ answer.anomalies) ∧
        (.budgetExhausted ∉ answer.anomalies →
          (answer.conforms = true ↔
            (∀ superclass ∈ requirements.superclass, ∃ hops ≤ limits.superclassHops,
              declarations.Ascends hops (declarations.typeOf object) superclass) ∧
            ∀ protocol ∈ requirements.protocols, (source.run
              (inspector.typeVerdict (declarations.typeOf object) protocol)).conforms = true)) := by
  intro declarations inspector
  obtain ⟨hBits, hSize⟩ := runtime.span_le
  have running := run.running runtime hBase hAligned
  have hLayout := running.draft.layout
  have hFinish : blueprint.draft.builder.finish ≤ 2 ^ runtime.addressBits :=
    Nat.le_trans hSpan hBits
  have hEnd := Nat.lt_of_le_of_lt hSpan hSize
  obtain ⟨nest, represents⟩ := running.draft.represents hFinish
  obtain ⟨image, hImage, hShows⟩ := represents.shows hEnd hObject
  refine ⟨image, hImage, fun source hSource => ?_⟩
  have shows := hShows source hSource
  have reads := represents.reads hFinish shows
  have has := running.compositions hFinish _ hComposition
  obtain ⟨encoding, hEncoding, readsComposition⟩ := has.reads represents hFinish hEnd
    (hLayout ▸ fun _ => runtime.regular_composition) shows
  rw [hLayout] at reads hEncoding readsComposition
  obtain ⟨hBounds, hAnswer⟩ := inspector.compositionVerdict_of_reads source.read reads
    readsComposition hEncoding hObject hEntries
  have hOther : ∀ anomaly ∈ [Anomaly.invalidRead, .nullAddress, .nullType, .notAComposition],
      anomaly.isBound = false := by decide
  refine ⟨fun anomaly hListed h => ?_, hAnswer⟩
  exact Bool.noConfusion ((hOther anomaly hListed).symm.trans (hBounds anomaly h))

/-- A composition at `0xD0` and an object at `0x110`. The composition requires the superclass at
`0x50`, which is the type of the object, and the protocol at `0x10`, which that type declares. -/
def constrained : Blueprint :=
  ((((start Runtime.compact32.layout 0x10).perform (.protocol [])).perform
    (.type none [0x10])).compose ⟨[0x10], some 0x50⟩).perform (.object 0x50)

theorem composition_conforms_iff_constrained :
    constrained.draft.builder.finish ≤ Runtime.compact32.span ∧
      (0xD0, ⟨[0x10], some 0x50⟩) ∈ constrained.compositions ∧
      (constrained.draft.builder.source.run
        (Inspector.compositionVerdict ⟨Runtime.compact32.layout, .default⟩ 0x110 0xD0)).conforms =
          true ∧
      ∃ hops ≤ Limits.default.superclassHops,
        constrained.draft.declarations.Ascends hops 0x50 0x50 := by
  have run : (start Runtime.compact32.layout 0x10).Reaches constrained := by
    apply Reaches.perform (.compose (.perform (.perform .refl ?_) ?_) ?_) <;> decide +kernel
  have hAnswer :
      let answer := constrained.draft.builder.source.run
        (Inspector.compositionVerdict ⟨Runtime.compact32.layout, .default⟩ 0x110 0xD0)
      constrained.draft.builder.finish ≤ Runtime.compact32.span ∧
        (0xD0, ⟨[0x10], some 0x50⟩) ∈ constrained.compositions ∧
        0x110 ∈ constrained.draft.declarations.objects ∧
        constrained.draft.declarations.typeOf 0x110 = 0x50 ∧
        .budgetExhausted ∉ answer.anomalies ∧ answer.conforms = true := by
    decide +kernel
  obtain ⟨hSpan, hComposition, hObject, hType, hBudget, hConforms⟩ := hAnswer
  obtain ⟨image, -, hSources⟩ := run.composition_conforms_iff .compact32 (by decide) (by decide)
    hSpan hComposition hObject .default (by decide)
  obtain ⟨-, hRequired⟩ := hSources constrained.draft.builder.source List.mem_cons_self
  obtain ⟨hSuperclass, -⟩ := (hRequired hBudget).mp hConforms
  rw [hType] at hSuperclass
  exact ⟨hSpan, hComposition, hConforms, hSuperclass 0x50 rfl⟩

end Blueprint

end Conformance
