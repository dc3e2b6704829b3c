import Conformance.Proofs.Lineage
import Conformance.Proofs.ListSearch
/-! The search of an ancestry: the list search of each type of a lineage, until one of them finds
the target or the records run out. -/
namespace Conformance

/-- The state of a search settles a question, unless the records have run out; then the search says
so. -/
structure Search.Decides (search : Search) (question : Prop) : Prop where
  found : search.finding = .found → question
  absent : search.finding = .absent → ¬ question
  exhausted : search.finding = .exhausted → .budgetExhausted ∈ search.trace.anomalies

theorem Trace.mem_flag? {trace : Trace} {reason : Option Anomaly} {anomaly : Anomaly} :
    anomaly ∈ (trace.flag? reason).anomalies ↔
      some anomaly = reason ∨ anomaly ∈ trace.anomalies := by
  cases reason with
  | none => simp [flag?]
  | some reason => simp [flag?, flag]

namespace Inspector

variable (inspector : Inspector) (reader : Reader) (target : Address)

/-- What visiting a type does to a search. -/
def visitType (type : Address) (search : Search) : ForInStep Search :=
  (inspector.searchType target type search).run reader

theorem visitType_eq (type : Address) (search : Search) :
    inspector.visitType reader target type search =
      match (inspector.metadata reader).conformances? type with
      | none => .yield ⟨.absent, search.trace.flag .invalidRead⟩
      | some list =>
          if list = 0 then .yield ⟨.absent, search.trace⟩
          else
            let outcome := (inspector.scanList target list search.trace).run reader
            if outcome.1 = .absent then .yield ⟨.absent, outcome.2⟩
            else .done ⟨outcome.1, outcome.2⟩ := by
  unfold visitType searchType
  simp only [Probe.run_bind, Metadata.conformances?, Metadata.field?, metadata]
  cases (inspector.layout.follow type inspector.layout.conformances).run reader with
  | none => rfl
  | some list =>
      dsimp only
      split_ifs with hNull hAbsent
      · rfl
      · simp only [Probe.run_bind, hAbsent]
        rfl
      · simp only [Probe.run_bind]
        generalize (inspector.scanList target list search.trace).run reader = outcome at hAbsent ⊢
        obtain ⟨finding, trace⟩ := outcome
        cases finding with
        | absent => exact absurd rfl hAbsent
        | found => rfl
        | exhausted => rfl

/-- A visit goes on exactly when nothing was found in the type. -/
theorem finding_of_visitType (type : Address) (search : Search) :
    match inspector.visitType reader target type search with
    | .yield after => after.finding = .absent
    | .done after => after.finding ≠ .absent := by
  rw [visitType_eq]
  cases (inspector.metadata reader).conformances? type with
  | none => rfl
  | some list =>
      dsimp only
      split_ifs with hNull hAbsent
      · rfl
      · rfl
      · exact hAbsent

theorem visitType_decides (type : Address) (search : Search) :
    (inspector.visitType reader target type search).value.Decides
      ((inspector.metadata reader).Declares inspector.limits.reach type target) := by
  rw [visitType_eq]
  unfold Metadata.Declares
  cases hList : (inspector.metadata reader).conformances? type with
  | none => exact ⟨nofun, fun _ => by simp, nofun⟩
  | some list =>
      dsimp only
      split_ifs with hNull hAbsent
      · exact ⟨nofun, fun _ => by simp [hNull], nofun⟩
      all_goals
        have run := inspector.scans_run_scanList reader target list search.trace
        have pending := run.pending
        rw [pending_root_iff] at pending
        have hDeclares : (∃ (first : Address) (depth : Nat), some list = some first ∧
            first ≠ 0 ∧ (depth : ℕ∞) ≤ inspector.limits.reach.depth ∧
            (inspector.metadata reader).Leads inspector.limits.reach depth first target) ↔
            ∃ depth ≤ inspector.limits.effectiveDepth,
              (inspector.metadata reader).Leads inspector.limits.reach depth list target := by
          simp [Limits.reach, hNull]
        rw [hDeclares]
      · exact ⟨nofun, fun _ => pending.2 hAbsent, nofun⟩
      · exact ⟨pending.1, fun h => absurd h hAbsent, run.budgetExhausted_mem⟩

theorem visitEach_decides (types : List Address) (search : Search)
    (hAbsent : search.finding = .absent) :
    (visitEach (inspector.visitType reader target) types search).value.Decides
      (∃ type ∈ types,
        (inspector.metadata reader).Declares inspector.limits.reach type target) := by
  induction types generalizing search with
  | nil =>
      refine ⟨fun h => ?_, fun _ => by simp, fun h => ?_⟩
      · exact absurd (hAbsent.symm.trans h) (by decide)
      · exact absurd (hAbsent.symm.trans h) (by decide)
  | cons type rest ih =>
      have here := inspector.visitType_decides reader target type search
      have hFinding := inspector.finding_of_visitType reader target type search
      rw [visitEach]
      simp only [List.mem_cons, exists_eq_or_imp]
      cases hStep : inspector.visitType reader target type search with
      | done after =>
          rw [hStep] at here hFinding
          exact ⟨fun h => Or.inl (here.found h), fun h => absurd h hFinding, here.exhausted⟩
      | yield after =>
          rw [hStep] at here hFinding
          have later := ih after hFinding
          refine ⟨fun h => Or.inr (later.found h), fun h => ?_, later.exhausted⟩
          rw [not_or]
          exact ⟨here.absent hFinding, later.absent h⟩

theorem mem_visitType (type : Address) {search : Search} {anomaly : Anomaly}
    (h : anomaly ∈ search.trace.anomalies) :
    anomaly ∈ (inspector.visitType reader target type search).value.trace.anomalies := by
  rw [visitType_eq]
  cases (inspector.metadata reader).conformances? type with
  | none => exact Anomalies.mem_insert.mpr (Or.inr h)
  | some list =>
      have run := inspector.scans_run_scanList reader target list search.trace
      dsimp only
      split_ifs
      · exact h
      all_goals exact run.mem_of_mem (mem_descend h)

variable {inspector reader target}

theorem mem_visitEach {types : List Address} {search : Search} {anomaly : Anomaly}
    (h : anomaly ∈ search.trace.anomalies) :
    anomaly ∈
      (visitEach (inspector.visitType reader target) types search).value.trace.anomalies := by
  induction types generalizing search with
  | nil => exact h
  | cons type rest ih =>
      have here := inspector.mem_visitType reader target type h
      rw [visitEach]
      cases hStep : inspector.visitType reader target type search with
      | done after =>
          rw [hStep] at here
          exact here
      | yield after =>
          rw [hStep] at here
          exact ih here

theorem visitEach_cons_of_absent {type : Address} {rest : List Address} {search : Search}
    (h : (visitEach (inspector.visitType reader target) (type :: rest) search).value.finding =
      .absent) :
    ∃ after, inspector.visitType reader target type search = .yield after ∧
      after.finding = .absent ∧
      visitEach (inspector.visitType reader target) (type :: rest) search =
        visitEach (inspector.visitType reader target) rest after := by
  have hFinding := inspector.finding_of_visitType reader target type search
  rw [visitEach] at h ⊢
  cases hStep : inspector.visitType reader target type search with
  | done after =>
      rw [hStep] at h hFinding
      exact absurd h hFinding
  | yield after =>
      rw [hStep] at hFinding
      exact ⟨after, rfl, hFinding, rfl⟩

theorem visitEach_done_finding {types : List Address} {search after : Search}
    (h : visitEach (inspector.visitType reader target) types search = .done after) :
    after.finding ≠ .absent := by
  induction types generalizing search with
  | nil => cases h
  | cons type rest ih =>
      have hFinding := inspector.finding_of_visitType reader target type search
      rw [visitEach] at h
      cases hStep : inspector.visitType reader target type search with
      | done next =>
          rw [hStep] at h hFinding
          cases h
          exact hFinding
      | yield next =>
          rw [hStep] at h
          exact ih h

theorem visitEach_of_append_absent {first second : List Address} {search : Search}
    (h : (visitEach (inspector.visitType reader target) (first ++ second) search).value.finding =
      .absent) :
    ∃ after, visitEach (inspector.visitType reader target) first search = .yield after := by
  rw [visitEach_append] at h
  cases hFirst : visitEach (inspector.visitType reader target) first search with
  | done after =>
      rw [hFirst] at h
      exact absurd h (visitEach_done_finding hFirst)
  | yield after => exact ⟨after, rfl⟩

variable (inspector reader target)

theorem run_searchAncestry (type : Address) (trace : Trace) :
    (inspector.searchAncestry target type trace).run reader =
      let visited := (inspector.lineage reader type).visit (inspector.visitType reader target)
        ⟨.absent, trace⟩
      (visited.1.finding == .found, visited.1.trace.flag? visited.2) := by
  unfold searchAncestry
  rw [Probe.run_bind, run_visitAncestry]
  rfl

/-- A search that has not run out of records answers whether the type conforms. -/
theorem searchAncestry_decides (type : Address) (trace : Trace) :
    let outcome := (inspector.searchAncestry target type trace).run reader
    (outcome.1 = true →
        (inspector.metadata reader).TypeConforms inspector.limits.reach type target) ∧
      (.budgetExhausted ∉ outcome.2.anomalies → outcome.1 = false →
        ¬ (inspector.metadata reader).TypeConforms inspector.limits.reach type target) := by
  have decides := inspector.visitEach_decides reader target (inspector.lineage reader type).types
    ⟨.absent, trace⟩ rfl
  have hQuestion : (∃ ancestor ∈ (inspector.lineage reader type).types,
        (inspector.metadata reader).Declares inspector.limits.reach ancestor target) ↔
      (inspector.metadata reader).TypeConforms inspector.limits.reach type target := by
    simp only [mem_lineage_iff, Metadata.TypeConforms, Limits.reach, Nat.cast_le]
    constructor
    · intro h
      obtain ⟨ancestor, ⟨hops, hHops, ascent⟩, declares⟩ := h
      exact ⟨hops, ancestor, hHops, ascent, declares⟩
    · intro h
      obtain ⟨hops, ancestor, hHops, ascent, declares⟩ := h
      exact ⟨ancestor, ⟨hops, hHops, ascent⟩, declares⟩
  rw [hQuestion] at decides
  rw [run_searchAncestry]
  dsimp only [Lineage.visit]
  refine ⟨fun h => decides.found (beq_iff_eq.mp h), fun hBudget hAnswer => ?_⟩
  have hNotFound := beq_eq_false_iff_ne.mp hAnswer
  have hLeft := fun h => hBudget (Trace.mem_flag?.mpr (Or.inr (decides.exhausted h)))
  apply decides.absent
  cases hFinding : (visitEach (inspector.visitType reader target)
    (inspector.lineage reader type).types ⟨.absent, trace⟩).value.finding with
  | absent => rfl
  | found => exact absurd hFinding hNotFound
  | exhausted => exact absurd hFinding hLeft

end Inspector

end Conformance
