import Conformance.Proofs.Bounds
import Conformance.Proofs.Exhaustion
/-! The budget of records as a threshold. A query that does not run out of records answers the same
whatever more it could inspect. One that does run out answers no, has inspected every record it was
allowed, and has noted nothing but what a query with more records notes as well. -/
namespace Conformance

/-- How an answer that was reached by some steps with `records` left compares to the answer with
more records left. -/
structure Threshold (records : Nat) (steps : List Step) (short long : Verdict) : Prop where
  same : .budgetExhausted ∉ short.anomalies → long = short
  no : .budgetExhausted ∈ short.anomalies → short.conforms = false
  inspected : .budgetExhausted ∈ short.anomalies → steps.countP Step.inspects = records
  kept : ∀ anomaly ∈ short.anomalies, anomaly ≠ .budgetExhausted → anomaly ∈ long.anomalies

namespace Threshold

variable {records left : Nat} {steps first : List Step} {short long answer : Verdict}

/-- An answer for which the records have not run out is on the safe side of every threshold. -/
theorem settled (hBudget : .budgetExhausted ∉ answer.anomalies) :
    Threshold records steps answer answer :=
  ⟨fun _ => rfl, fun h => absurd h hBudget, fun h => absurd h hBudget, fun _ h _ => h⟩

theorem rejected {reason : Anomaly} (hReason : reason ≠ .budgetExhausted) :
    Threshold records steps (.rejected reason) (.rejected reason) :=
  settled fun h => hReason (Anomalies.mem_only.mp h).symm

/-- An answer after one more anomaly that is not the end of the budget. -/
theorem refused {trace : Trace} {reason : Anomaly} (hFresh : .budgetExhausted ∉ trace.anomalies)
    (hReason : reason ≠ .budgetExhausted) :
    Threshold records steps ((trace.flag reason).finish false)
      ((trace.flag reason).finish false) :=
  settled fun h => (Anomalies.mem_insert.mp h).elim (fun e => hReason e.symm) hFresh

/-- Steps taken before use up records as well. -/
theorem append (threshold : Threshold left steps short long)
    (hFirst : first.countP Step.inspects + left = records) :
    Threshold records (first ++ steps) short long := by
  obtain ⟨same, no, inspected, kept⟩ := threshold
  refine ⟨same, no, fun hBudget => ?_, kept⟩
  rw [List.countP_append, inspected hBudget]
  exact hFirst

theorem cons {step : Step} (threshold : Threshold records steps short long)
    (hNone : step.inspects = false) : Threshold records (step :: steps) short long := by
  have hStep : [step].countP Step.inspects + records = records := by simp [hNone]
  exact threshold.append hStep

/-- A search with more records may find what the other one did not, and the query goes on. -/
theorem go_on {outcome : Bool × Trace} {further : Verdict}
    (threshold : Threshold records steps short (outcome.2.finish outcome.1))
    (hNo : short.conforms = false)
    (hFurther : ∀ anomaly ∈ outcome.2.anomalies, anomaly ∈ further.anomalies) :
    Threshold records steps short (if outcome.1 then further else outcome.2.finish false) := by
  obtain ⟨same, no, inspected, kept⟩ := threshold
  refine ⟨fun hBudget => ?_, no, inspected, fun anomaly hNoted hOther => ?_⟩
  · have hSame := same hBudget
    have hAnswer : outcome.1 = false := (congrArg Verdict.conforms hSame).trans hNo
    rw [hAnswer] at hSame ⊢
    exact hSame
  · have hLong : anomaly ∈ outcome.2.anomalies := kept anomaly hNoted hOther
    split_ifs
    · exact hFurther anomaly hLong
    · exact hLong

end Threshold

namespace Inspector

variable {inspector : Inspector}

section Budget

variable (reader : Reader) {type : Address} {trace : Trace}

theorem threshold_ancestrySteps (target : Address) (hType : type ≠ 0)
    (hLeft : trace.recordsLeft ≤ inspector.limits.recordsVisited)
    (hFresh : .budgetExhausted ∉ trace.anomalies) (extra : Nat) :
    let short := (inspector.searchAncestry target type trace).run reader
    let long := (inspector.searchAncestry target type (trace.join .none extra)).run reader
    Threshold trace.recordsLeft (inspector.ancestrySteps reader target type trace)
      (short.2.finish short.1) (long.2.finish long.1) := by
  intro short long
  have accounts := accounts_ancestrySteps reader target hType hLeft
  refine ⟨fun hBudget => ?_, fun hBudget => ?_, fun hBudget => ?_, fun anomaly hNoted hOther => ?_⟩
  · have hMore : long = (short.1, short.2.join .none extra) :=
      inspector.run_searchAncestry_of_more reader target type extra hBudget
    rw [hMore]
    exact short.2.finish_join_none extra short.1
  · exact (inspector.searchAncestry_exhausted reader target type hFresh hBudget).1
  · have hSpent := (inspector.searchAncestry_exhausted reader target type hFresh hBudget).2
    have hPaid := accounts.paid
    omega
  · exact inspector.mem_searchAncestry_of_more reader target type extra hNoted hOther

/-- The references of a composition share what is left of the budget. -/
theorem threshold_referenceSteps (encoding : CompositionLayout) (hType : type ≠ 0)
    (remaining position : Nat) (hLeft : trace.recordsLeft ≤ inspector.limits.recordsVisited)
    (hFresh : .budgetExhausted ∉ trace.anomalies) (extra : Nat) :
    Threshold trace.recordsLeft
      (inspector.referenceSteps reader encoding type remaining position trace)
      ((inspector.meetsProtocols encoding type remaining position trace).run reader)
      ((inspector.meetsProtocols encoding type remaining position
        (trace.join .none extra)).run reader) := by
  induction remaining generalizing position trace with
  | zero =>
      unfold meetsProtocols
      rw [Probe.run_pure, Probe.run_pure, Trace.finish_join_none]
      exact .settled hFresh
  | succ remaining ih =>
      rw [run_meetsProtocols_succ, run_meetsProtocols_succ]
      unfold referenceSteps
      cases (inspector.metadata reader).pointer? position with
      | none =>
          dsimp only
          rw [← Trace.join_flag, Trace.finish_join_none]
          exact .refused hFresh (by decide)
      | some reference =>
          dsimp only
          generalize reference &&& encoding.protocolMask = target
          by_cases hNull : target = 0
          · rw [if_pos hNull, if_pos hNull, if_pos hNull, ← Trace.join_flag,
              Trace.finish_join_none]
            exact .refused hFresh (by decide)
          · rw [if_neg hNull, if_neg hNull, if_neg hNull]
            have here := threshold_ancestrySteps reader target hType hLeft hFresh extra
            have accounts := accounts_ancestrySteps reader target hType hLeft
            have exhausted := inspector.searchAncestry_exhausted reader target type hFresh
            have hMore (hBudget : .budgetExhausted ∉
                ((inspector.searchAncestry target type trace).run reader).2.anomalies) :=
              inspector.run_searchAncestry_of_more reader target type extra hBudget
            dsimp only at here
            generalize (inspector.searchAncestry target type trace).run reader = short
              at here accounts exhausted hMore ⊢
            by_cases hFound : short.1 = true
            · have hBudget : .budgetExhausted ∉ short.2.anomalies := fun h =>
                absurd ((exhausted h).1.symm.trans hFound) (by decide)
              rw [hMore hBudget]
              simp only [hFound, if_true]
              exact ((ih _ (Nat.le_trans accounts.after_le hLeft) hBudget).append
                accounts.paid).cons rfl
            · have hNo : short.1 = false := Bool.eq_false_iff.mpr hFound
              rw [if_neg hFound, if_neg hFound, List.append_nil]
              rw [hNo] at here
              refine (here.go_on rfl fun anomaly hNoted => ?_).cons rfl
              exact inspector.mem_meetsProtocols reader encoding type remaining _ hNoted

variable (inspector) in
theorem run_inheritsFrom_join (type ancestor : Address) (trace : Trace) (extra : Nat) :
    (inspector.inheritsFrom type ancestor (trace.join .none extra)).run reader =
      (((inspector.inheritsFrom type ancestor trace).run reader).1,
        ((inspector.inheritsFrom type ancestor trace).run reader).2.join .none extra) := by
  unfold inheritsFrom
  rw [Probe.run_bind, Probe.run_bind]
  simp only [Probe.run_pure, Trace.join_flag?]

variable (inspector) in
theorem run_meetsConstraint_join (type : Address) (position : Nat) (trace : Trace) (extra : Nat) :
    (inspector.meetsConstraint type position (trace.join .none extra)).run reader =
      (((inspector.meetsConstraint type position trace).run reader).1,
        ((inspector.meetsConstraint type position trace).run reader).2.join .none extra) := by
  rw [run_meetsConstraint, run_meetsConstraint]
  cases (inspector.metadata reader).pointer? position with
  | none =>
      dsimp only
      rw [Trace.join_flag]
  | some superclass =>
      by_cases hNull : superclass = 0
      · simp only [if_pos hNull, if_true]
        split_ifs
        · rfl
        · rw [Trace.join_flag]
      · simp only [if_neg hNull, run_inheritsFrom_join]
        split_ifs
        · rfl
        · rw [Trace.join_flag]
        · rfl

theorem threshold_requirementSteps (encoding : CompositionLayout) (header : CompositionHeader)
    {composition : Address} (hComposition : composition ≠ 0) (hType : type ≠ 0) (extra : Nat) :
    Threshold inspector.limits.recordsVisited
      (inspector.requirementSteps reader encoding header composition type)
      (inspector.requirementsVerdict reader encoding header composition type)
      ((inspector.withRecords (inspector.limits.recordsVisited + extra)).requirementsVerdict reader
        encoding header composition type) := by
  have hFresh : .budgetExhausted ∉ (Trace.start inspector.limits).anomalies :=
    Anomalies.not_mem_none _
  have hStart : (Trace.start inspector.limits).recordsLeft ≤ inspector.limits.recordsVisited :=
    Nat.le_refl _
  unfold requirementsVerdict requirementSteps
  rw [layout_withRecords]
  simp only [start_withRecords, meetsConstraint_withRecords, meetsProtocols_withRecords,
    run_meetsConstraint_join]
  by_cases hSuperclass : header.flags.hasSuperclass = true
  · simp only [if_pos hSuperclass]
    have spends := (inspector.meetsConstraint_iff reader type
      (Address.plus composition encoding.trailingOffset) (.start inspector.limits)).2
    have accounts := accounts_constraintSteps reader hType
      (Address.plus_pos hComposition encoding.trailingOffset) hStart
    have hBudget := fun h => (spends.exhausted h).elim hFresh (by decide)
    split_ifs with hMet
    · exact (threshold_referenceSteps reader encoding hType header.count _
        (Nat.le_trans accounts.after_le hStart) hBudget extra).append accounts.paid
    · rw [Trace.finish_join_none]
      exact .settled hBudget
  · simp only [if_neg hSuperclass]
    exact threshold_referenceSteps reader encoding hType header.count _ hStart hFresh extra

variable (inspector) in
/-- Whatever has a type is asked about its type, which is read whatever the budget. -/
theorem threshold_objectSteps (object : Address) {steps : Address → List Step}
    {short long : Address → Verdict}
    (hType : ∀ type, type ≠ 0 →
      Threshold inspector.limits.recordsVisited (steps type) (short type) (long type)) :
    let answer (verdict : Address → Verdict) : Verdict :=
      match (inspector.metadata reader).objectType? object with
      | none => .rejected .invalidRead
      | some type => if type = 0 then .rejected .nullType else verdict type
    Threshold inspector.limits.recordsVisited (inspector.objectSteps reader object steps)
      (answer short) (answer long) := by
  intro answer
  unfold answer objectSteps
  cases (inspector.metadata reader).objectType? object with
  | none => exact .rejected (by decide)
  | some type =>
      dsimp only
      by_cases hNull : type = 0
      · simp only [if_pos hNull]
        exact .rejected (by decide)
      · simp only [if_neg hNull]
        exact (hType type hNull).cons rfl

variable (inspector) in
theorem threshold_querySteps (query : Query) (extra : Nat) :
    Threshold inspector.limits.recordsVisited (inspector.querySteps reader query)
      ((query.probe inspector).run reader)
      ((query.probe (inspector.withRecords
        (inspector.limits.recordsVisited + extra))).run reader) := by
  have hFresh : .budgetExhausted ∉ (Trace.start inspector.limits).anomalies :=
    Anomalies.not_mem_none _
  have ancestry (protocol type : Address) (hType : type ≠ 0) :=
    threshold_ancestrySteps reader protocol hType (Nat.le_refl _) hFresh extra
  cases query with
  | ofObject object protocol =>
      unfold Query.probe querySteps
      rw [run_verdict, run_verdict, metadata_withRecords]
      simp only [searchAncestry_withRecords, start_withRecords]
      split_ifs with hNull
      · exact .rejected (by decide)
      · exact inspector.threshold_objectSteps reader object (ancestry protocol)
  | ofType type protocol =>
      unfold Query.probe querySteps
      simp only [run_typeVerdict, searchAncestry_withRecords, start_withRecords]
      split_ifs with hNull
      · exact .rejected (by decide)
      · exact ancestry protocol type (not_or.mp hNull).1
  | ofComposition object composition =>
      unfold Query.probe querySteps
      rw [run_compositionVerdict, run_compositionVerdict, layout_withRecords, metadata_withRecords]
      split_ifs with hNull
      · exact .rejected (by decide)
      · cases inspector.layout.composition with
        | none => exact .rejected (by decide)
        | some encoding =>
            dsimp only
            rw [readHeader_withRecords]
            cases hHeader : (inspector.readHeader encoding composition).run reader with
            | error reason => exact .rejected (reason_of_readHeader hHeader)
            | ok header =>
                dsimp only
                split_ifs with hEmpty
                · exact .settled (Anomalies.not_mem_none _)
                · exact (inspector.threshold_objectSteps reader object fun type hType =>
                    threshold_requirementSteps reader encoding header (not_or.mp hNull).2 hType
                      extra).cons rfl

end Budget

variable (inspector : Inspector) (reader : Reader)

/-- The budget of records is a threshold. A query for which the records do not run out answers the
same with any larger budget. A query for which they do answers no and has inspected exactly the
records of its budget, and the query with the larger budget meets all its other anomalies. -/
theorem answer_withRecords (query : Query) (records : Nat)
    (hRecords : inspector.limits.recordsVisited ≤ records) :
    let short := (query.probe inspector).run reader
    let long := (query.probe (inspector.withRecords records)).run reader
    let steps := inspector.querySteps reader query
    (query.probe inspector).events reader = steps.flatMap (Step.events inspector reader) ∧
      (.budgetExhausted ∉ short.anomalies → long = short) ∧
      (.budgetExhausted ∈ short.anomalies →
        short.conforms = false ∧
          steps.countP Step.inspects = inspector.limits.recordsVisited ∧
          ∀ anomaly ∈ short.anomalies, anomaly ≠ .budgetExhausted →
            anomaly ∈ long.anomalies) := by
  intro short long steps
  obtain ⟨extra, rfl⟩ := Nat.exists_eq_add_of_le hRecords
  have threshold : Threshold inspector.limits.recordsVisited steps short long :=
    inspector.threshold_querySteps reader query extra
  exact ⟨events_query query, threshold.same, fun hBudget =>
    ⟨threshold.no hBudget, threshold.inspected hBudget, threshold.kept⟩⟩

end Inspector

/-- Of the two records below the type of the object, the second one names the protocol. -/
theorem answer_withRecords_boundary :
    let inspector : Inspector := ⟨Runtime.compact64.layout, Limits.default.withRecordsVisited 1⟩
    let query : Query := .ofObject 0x10 0xB0
    inspector.limits.recordsVisited ≤ 2 ∧
      ((query.probe inspector).run inheritedMemory).conforms = false ∧
      (inspector.querySteps inheritedMemory query).countP Step.inspects = 1 ∧
      (query.probe (inspector.withRecords 2)).run inheritedMemory = ⟨true, .none⟩ := by
  intro inspector query
  have hRecords : inspector.limits.recordsVisited ≤ 2 := by decide
  have hBudget : .budgetExhausted ∈ ((query.probe inspector).run inheritedMemory).anomalies := by
    decide +kernel
  obtain ⟨-, -, hExhausted⟩ := inspector.answer_withRecords inheritedMemory query 2 hRecords
  obtain ⟨hNo, hInspected, -⟩ := hExhausted hBudget
  exact ⟨hRecords, hNo, hInspected, by decide +kernel⟩

end Conformance
