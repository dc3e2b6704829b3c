import Conformance.Proofs.Builder.Runs
import Conformance.Proofs.Granted
/-! Round trip of the builder and the queries. What is declared by any run of calls is what the
queries find, in place or in the image, on every layout of the catalogue. -/
namespace Conformance

/-- The end that blocks may reach for a runtime. The isa masks and the pointer width bound it, and
the end itself has to be an address. -/
def Runtime.span : Runtime → Nat
  | .objc2Arm64 => 2 ^ 36
  | .objc2X86_64 => 2 ^ 47
  | .compact64 => 2 ^ 64 - 1
  | .compact32 => 2 ^ 32

theorem Runtime.span_le (runtime : Runtime) :
    runtime.span ≤ 2 ^ runtime.addressBits ∧ runtime.span < UInt64.size := by
  cases runtime <;> decide

/-- A query over memory that reads as what was declared finds exactly that, and meets no read that
is refused. -/
theorem Metadata.Reads.verdict {inspector : Inspector} {reader : Reader}
    {declarations : Declarations} {nest : Address → Address}
    (reads : (inspector.metadata reader).Reads declarations nest) {object protocol : Address}
    (hObject : object ∈ declarations.objects) (hProtocol : protocol ≠ 0) :
    let answer := (inspector.verdict object protocol).run reader
    .invalidRead ∉ answer.anomalies ∧ .nullType ∉ answer.anomalies ∧
      (.budgetExhausted ∉ answer.anomalies →
        (answer.conforms = true ↔ declarations.Conforms inspector.limits object protocol)) := by
  intro answer
  have granted := reads.objectGranted hObject
  have hNonnull := reads.closed.object_ne object hObject
  have hType := reads.closed.type_ne _ (reads.closed.typeOf object hObject)
  obtain ⟨found, absent⟩ := inspector.searchAncestry_decides reader protocol
    (declarations.typeOf object) (.start inspector.limits)
  rw [reads.typeConforms_iff inspector.limits hObject] at found absent
  refine ⟨Inspector.verdict_granted granted (Or.inl rfl),
    Inspector.verdict_granted granted (Or.inr rfl), ?_⟩
  have hAnswer : answer = _ := inspector.run_verdict reader object protocol
  rw [if_neg (not_or.mpr ⟨hNonnull, hProtocol⟩), reads.typeOf object hObject] at hAnswer
  dsimp only at hAnswer
  rw [if_neg hType] at hAnswer
  rw [hAnswer]
  refine fun hBudget => ⟨found, fun conforms => ?_⟩
  by_contra hRefused
  exact absent hBudget (Bool.eq_false_iff.mpr hRefused) conforms

namespace Draft

variable {draft : Draft}

/-- A draft with an object in it is shown by its own memory, and by its image. -/
theorem Represents.shows {bits : Nat} {nest : Address → Address}
    (represents : draft.Represents bits nest) (hFinish : draft.builder.finish < UInt64.size)
    {object : Address} (hObject : object ∈ draft.declarations.objects) :
    ∃ image, draft.builder.toImage = .ok image ∧
      ∀ source ∈ [draft.builder.source, image.source],
        Reader.Shows source.read draft.builder.byte? := by
  have placed := represents.placed object (Or.inr (Or.inr hObject))
  have hBytes : draft.builder.bytes ≠ #[] := by
    intro hEmpty
    have hLow := placed.low
    have hHigh := placed.high
    unfold Builder.finish at hHigh
    rw [hEmpty, Array.size_empty] at hHigh
    omega
  obtain ⟨image, hImage, hShows⟩ := Builder.toImage_shows hFinish hBytes
  refine ⟨image, hImage, List.forall_mem_cons.mpr ⟨?_, List.forall_mem_singleton.mpr ?_⟩⟩
  · exact Builder.shows hFinish
  · exact hShows

/-- A query over what a run of calls laid out answers by what was declared, in place and in the
image. No read is refused on the way, whatever the run and the limits are. -/
theorem Reaches.conforms_iff_declared (runtime : Runtime) {base : Address}
    (run : (start runtime.layout base).Reaches draft) (hBase : base ≠ 0)
    (hAligned : base.toNat % 16 = 0) (hSpan : draft.builder.finish ≤ runtime.span)
    {object protocol : Address} (hObject : object ∈ draft.declarations.objects)
    (hProtocol : protocol ≠ 0) (limits : Limits) :
    ∃ image, draft.builder.toImage = .ok image ∧
      ∀ source ∈ [draft.builder.source, image.source],
        let answer := source.run (Inspector.verdict ⟨runtime.layout, limits⟩ object protocol)
        .invalidRead ∉ answer.anomalies ∧ .nullType ∉ answer.anomalies ∧
          (.budgetExhausted ∉ answer.anomalies →
            (answer.conforms = true ↔ draft.declarations.Conforms limits object protocol)) := by
  obtain ⟨hBits, hSize⟩ := runtime.span_le
  have running := run.running runtime.regular hBase hAligned
  have hFinish : draft.builder.finish ≤ 2 ^ runtime.addressBits := Nat.le_trans hSpan hBits
  obtain ⟨nest, represents⟩ := running.represents hFinish
  obtain ⟨image, hImage, hShows⟩ := represents.shows (Nat.lt_of_le_of_lt hSpan hSize) hObject
  refine ⟨image, hImage, fun source hSource => ?_⟩
  have reads : (Inspector.metadata ⟨runtime.layout, limits⟩ source.read).Reads
      draft.declarations nest := by
    have hReads := represents.reads hFinish (hShows source hSource)
    rw [running.layout] at hReads
    exact hReads
  exact reads.verdict hObject hProtocol

/-- An object at `0xD0`. Its type is its own superclass, and declares the protocol at `0x10`. -/
def circular : Draft :=
  ((((start Runtime.compact32.layout 0x10).perform (.protocol [])).perform
    (.type none [0x10])).perform (.setSuperclass 0x50 0x50)).perform (.object 0x50)

theorem conforms_iff_declared_circular :
    circular.builder.finish ≤ Runtime.compact32.span ∧ 0xD0 ∈ circular.declarations.objects ∧
      (circular.builder.source.run
        (Inspector.verdict ⟨Runtime.compact32.layout, .default⟩ 0xD0 0x10)).conforms = true ∧
      circular.declarations.Conforms .default 0xD0 0x10 := by
  have run : (start Runtime.compact32.layout 0x10).Reaches circular := by
    apply Reaches.perform (.perform (.perform (.perform .refl ?_) ?_) ?_) <;> decide +kernel
  have hAnswer :
      let answer := circular.builder.source.run
        (Inspector.verdict ⟨Runtime.compact32.layout, .default⟩ 0xD0 0x10)
      circular.builder.finish ≤ Runtime.compact32.span ∧ 0xD0 ∈ circular.declarations.objects ∧
        .budgetExhausted ∉ answer.anomalies ∧ answer.conforms = true := by
    decide +kernel
  obtain ⟨hSpan, hObject, hBudget, hConforms⟩ := hAnswer
  obtain ⟨image, -, hSources⟩ := run.conforms_iff_declared .compact32 (by decide) (by decide) hSpan
    hObject (show (0x10 : Address) ≠ 0 by decide) .default
  obtain ⟨-, -, hDeclared⟩ := hSources circular.builder.source List.mem_cons_self
  exact ⟨hSpan, hObject, hConforms, (hDeclared hBudget).mp hConforms⟩

end Draft

end Conformance
