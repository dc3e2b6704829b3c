import Conformance.Proofs.AncestrySearch
import Conformance.Metadata.Runtime
/-! Exactness of the queries for one protocol. Unless the records of a query run out, its answer is
whether there is a declared path within the bounds; a yes always is such a path. -/
namespace Conformance

namespace Inspector

variable (inspector : Inspector) (reader : Reader)

theorem run_typeVerdict (type protocol : Address) :
    (inspector.typeVerdict type protocol).run reader =
      if type = 0 ∨ protocol = 0 then .rejected .nullAddress
      else
        let outcome :=
          (inspector.searchAncestry protocol type (.start inspector.limits)).run reader
        outcome.2.finish outcome.1 := by
  unfold typeVerdict
  split_ifs
  · rfl
  · rw [Probe.run_bind]
    rfl

theorem run_verdict (object protocol : Address) :
    (inspector.verdict object protocol).run reader =
      if object = 0 ∨ protocol = 0 then .rejected .nullAddress
      else
        match (inspector.metadata reader).objectType? object with
        | none => .rejected .invalidRead
        | some type =>
            if type = 0 then .rejected .nullType
            else
              let outcome :=
                (inspector.searchAncestry protocol type (.start inspector.limits)).run reader
              outcome.2.finish outcome.1 := by
  unfold verdict
  split_ifs
  · rfl
  · rw [Probe.run_bind, run_typeOf]
    cases (inspector.metadata reader).objectType? object with
    | none => rfl
    | some type =>
        dsimp only
        split_ifs
        · rfl
        · simp only [Probe.run_bind]
          rfl

/-- A query that has not run out of records answers whether there is a declared path from the
object to the protocol, and no query ever answers yes without one. -/
theorem verdict_conforms_iff (object protocol : Address) (hObject : object ≠ 0)
    (hProtocol : protocol ≠ 0) :
    let answer := (inspector.verdict object protocol).run reader
    let path := (inspector.metadata reader).ObjectConforms inspector.limits.reach object protocol
    (answer.conforms = true → path) ∧
      (.budgetExhausted ∉ answer.anomalies → (answer.conforms = true ↔ path)) := by
  rw [run_verdict, if_neg (by simp [hObject, hProtocol])]
  unfold Metadata.ObjectConforms
  cases (inspector.metadata reader).objectType? object with
  | none => simp [Verdict.rejected]
  | some type =>
      dsimp only
      split_ifs with hNull
      · simp [Verdict.rejected, hNull]
      · obtain ⟨found, absent⟩ := inspector.searchAncestry_decides reader protocol type
          (.start inspector.limits)
        have hPath : (∃ first, some type = some first ∧ first ≠ 0 ∧
            (inspector.metadata reader).TypeConforms inspector.limits.reach first protocol) ↔
            (inspector.metadata reader).TypeConforms inspector.limits.reach type protocol := by
          simp [hNull]
        rw [hPath]
        refine ⟨found, fun hBudget => ⟨found, fun path => ?_⟩⟩
        by_contra hAnswer
        exact absent hBudget (Bool.eq_false_iff.mpr hAnswer) path

end Inspector

/-- A memory that holds some numbers, each at an address of its own. -/
def Reader.ofWords (words : List (Address × Nat)) : Reader :=
  fun address length => (words.lookup address).map (ByteOrder.little.encode length)

/-- An object at `0x10` whose type has a superclass at `0x40`. The list of the superclass names a
protocol at `0x80`, and below it another list names one at `0xB0`. -/
def inheritedMemory : Reader :=
  .ofWords [(0x10, 0x20), (0x28, 0x40), (0x30, 0), (0x48, 0), (0x50, 0x60), (0x60, 1),
    (0x68, 0x80), (0x70, 0x90), (0x90, 1), (0x98, 0xB0)]

theorem verdict_conforms_iff_inherited :
    let inspector : Inspector := ⟨Runtime.compact64.layout, .default⟩
    ((inspector.verdict 0x10 0xB0).run inheritedMemory).conforms = true ∧
      (inspector.metadata inheritedMemory).ObjectConforms inspector.limits.reach 0x10 0xB0 := by
  intro inspector
  have hAnswer : ((inspector.verdict 0x10 0xB0).run inheritedMemory).conforms = true := by
    decide +kernel
  exact ⟨hAnswer,
    (inspector.verdict_conforms_iff inheritedMemory 0x10 0xB0 (by decide) (by decide)).1 hAnswer⟩

end Conformance
