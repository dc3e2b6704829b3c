import Conformance.Proofs.Composition
/-! Searches that run out of records, and the same searches with more of them. A search that runs
out has used up all its records, and a search with more records notes everything else that it
notes. The parts of a query do not depend on the budget otherwise. -/
namespace Conformance

namespace Anomalies

@[simp] theorem none_union (set : Anomalies) : none.union set = set := by
  simp [union, none]

end Anomalies

@[simp] theorem Trace.anomalies_join_none (trace : Trace) (extra : Nat) :
    (trace.join .none extra).anomalies = trace.anomalies :=
  Anomalies.none_union _

/-- A bookkeeping with more records left ends with the same answer. -/
@[simp] theorem Trace.finish_join_none (trace : Trace) (extra : Nat) (conforms : Bool) :
    (trace.join .none extra).finish conforms = trace.finish conforms := by
  rw [finish, finish, anomalies_join_none]

namespace Inspector

/-- Two inspectors open the same lists. A search of lists depends on nothing else. -/
structure OpensLike (other inspector : Inspector) : Prop where
  layout : other.layout = inspector.layout
  depth : other.limits.effectiveDepth = inspector.limits.effectiveDepth
  entries : other.limits.listEntries = inspector.limits.listEntries

namespace OpensLike

variable {other inspector : Inspector} (alike : other.OpensLike inspector)

include alike

theorem descend (list : Address) (stack : List Frame) (seen : Anomalies) :
    other.descend list stack seen = inspector.descend list stack seen := by
  unfold Inspector.descend openList
  rw [alike.layout, alike.depth, alike.entries]

theorem scan (target : Address) (left : Nat) (stack : List Frame) (seen : Anomalies) :
    other.scan target left stack seen = inspector.scan target left stack seen := by
  have hInspect : other.inspect = inspector.inspect := by
    unfold inspect
    rw [alike.layout]
  induction left generalizing stack seen with
  | zero =>
      unfold Inspector.scan
      rfl
  | succ left ih =>
      unfold Inspector.scan
      simp only [ih, hInspect, alike.descend]

theorem searchType (target : Address) : other.searchType target = inspector.searchType target := by
  funext type search
  unfold Inspector.searchType scanList
  simp only [alike.layout, alike.scan, alike.descend]

end OpensLike

/-- The inspector with another budget of records. -/
def withRecords (inspector : Inspector) (records : Nat) : Inspector :=
  { inspector with limits := inspector.limits.withRecordsVisited records }

section OtherBudget

variable (inspector : Inspector) (records : Nat)

@[simp] theorem layout_withRecords :
    (inspector.withRecords records).layout = inspector.layout := rfl

@[simp] theorem metadata_withRecords (reader : Reader) :
    (inspector.withRecords records).metadata reader = inspector.metadata reader := rfl

theorem opensLike_withRecords : (inspector.withRecords records).OpensLike inspector :=
  ⟨rfl, rfl, rfl⟩

theorem start_withRecords (extra : Nat) :
    Trace.start (inspector.withRecords (inspector.limits.recordsVisited + extra)).limits =
      (Trace.start inspector.limits).join .none extra := by
  have hNone : (Trace.start inspector.limits).anomalies = .none := rfl
  rw [Trace.join, hNone, Anomalies.union_none]
  rfl

theorem readHeader_withRecords (encoding : CompositionLayout) (composition : Address) :
    (inspector.withRecords records).readHeader encoding composition =
      inspector.readHeader encoding composition := rfl

theorem climb_withRecords {σ : Type} (visit : Address → σ → Probe (ForInStep σ)) (hopsLeft : Nat)
    (marker : Marker) (type : Address) (state : σ) :
    (inspector.withRecords records).climb visit hopsLeft marker type state =
      inspector.climb visit hopsLeft marker type state := by
  induction hopsLeft generalizing marker type state with
  | zero =>
      unfold climb
      rfl
  | succ hopsLeft ih =>
      unfold climb
      simp only [ih]
      rfl

theorem searchAncestry_withRecords (target type : Address) (trace : Trace) :
    (inspector.withRecords records).searchAncestry target type trace =
      inspector.searchAncestry target type trace := by
  have hVisit : (inspector.withRecords records).searchType target =
      inspector.searchType target :=
    (inspector.opensLike_withRecords records).searchType target
  unfold searchAncestry visitAncestry
  rw [climb_withRecords, hVisit]
  rfl

theorem meetsConstraint_withRecords (type : Address) (position : Nat) (trace : Trace) :
    (inspector.withRecords records).meetsConstraint type position trace =
      inspector.meetsConstraint type position trace := by
  unfold meetsConstraint inheritsFrom visitAncestry
  simp only [climb_withRecords]
  rfl

theorem meetsProtocols_withRecords (encoding : CompositionLayout) (type : Address)
    (remaining position : Nat) (trace : Trace) :
    (inspector.withRecords records).meetsProtocols encoding type remaining position trace =
      inspector.meetsProtocols encoding type remaining position trace := by
  induction remaining generalizing position trace with
  | zero => rfl
  | succ remaining ih =>
      unfold meetsProtocols
      simp only [searchAncestry_withRecords, ih]
      rfl

end OtherBudget

variable {inspector : Inspector} {reader : Reader} {target : Address}

theorem Scans.recordsLeft_of_exhausted {left : Nat} {stack : List Frame} {seen : Anomalies}
    {outcome : Finding × Trace} (run : inspector.Scans reader target left stack seen outcome)
    (hFinding : outcome.1 = .exhausted) : outcome.2.recordsLeft = 0 := by
  induction run with
  | absent => cases hFinding
  | exhausted => rfl
  | found => cases hFinding
  | pass _ _ _ ih => exact ih hFinding

/-- With more records, a search notes everything that it notes without them, except that the records
have run out. -/
theorem Scans.mem_of_more {left : Nat} {stack : List Frame} {seen : Anomalies}
    {outcome : Finding × Trace} {anomaly : Anomaly}
    (run : inspector.Scans reader target left stack seen outcome) (extra : Nat)
    (hNoted : anomaly ∈ outcome.2.anomalies) (hOther : anomaly ≠ .budgetExhausted) :
    anomaly ∈ ((inspector.scan target (left + extra) stack seen).run reader).2.anomalies := by
  induction run with
  | absent spent =>
      rw [(Scans.absent spent).run_scan]
      exact hNoted
  | exhausted =>
      have hBefore := (Anomalies.mem_insert.mp hNoted).resolve_left hOther
      exact (inspector.scans_run_scan reader target _ _ _).mem_of_mem hBefore
  | found top sighted =>
      rw [Nat.add_right_comm, (Scans.found top sighted).run_scan]
      exact hNoted
  | pass top step _ ih =>
      have rest := inspector.scans_run_scan reader target
      rw [Nat.add_right_comm, (Scans.pass top step (rest _ _ _)).run_scan]
      exact ih hNoted

theorem mem_scanList_of_more {list : Address} {trace : Trace} {anomaly : Anomaly} (extra : Nat)
    (hNoted : anomaly ∈ ((inspector.scanList target list trace).run reader).2.anomalies)
    (hOther : anomaly ≠ .budgetExhausted) :
    anomaly ∈
      ((inspector.scanList target list (trace.join .none extra)).run reader).2.anomalies := by
  have run := inspector.scans_run_scanList reader target list trace
  have hMore := run.mem_of_more extra hNoted hOther
  unfold scanList
  rw [Probe.run_bind, Trace.anomalies_join_none]
  exact hMore

theorem recordsLeft_of_visitType {type : Address} {search : Search}
    (hFinding : (inspector.visitType reader target type search).value.finding = .exhausted) :
    (inspector.visitType reader target type search).value.trace.recordsLeft = 0 := by
  rw [visitType_eq] at hFinding ⊢
  cases hList : (inspector.metadata reader).conformances? type with
  | none =>
      rw [hList] at hFinding
      cases hFinding
  | some list =>
      rw [hList] at hFinding
      dsimp only at hFinding ⊢
      split_ifs at hFinding ⊢ with hNull hAbsent
      · cases hFinding
      · cases hFinding
      · have run := inspector.scans_run_scanList reader target list search.trace
        exact run.recordsLeft_of_exhausted hFinding

theorem recordsLeft_of_visitEach {types : List Address} {search : Search}
    (hAbsent : search.finding = .absent)
    (hFinding : (visitEach (inspector.visitType reader target) types search).value.finding =
      .exhausted) :
    (visitEach (inspector.visitType reader target) types search).value.trace.recordsLeft = 0 := by
  induction types generalizing search with
  | nil => exact absurd (hAbsent.symm.trans hFinding) (by decide)
  | cons type rest ih =>
      have hGoesOn := inspector.finding_of_visitType reader target type search
      have hSpent (h : (inspector.visitType reader target type search).value.finding =
          .exhausted) := recordsLeft_of_visitType h
      rw [visitEach] at hFinding ⊢
      cases hStep : inspector.visitType reader target type search with
      | done after =>
          rw [hStep] at hFinding hSpent
          exact hSpent hFinding
      | yield after =>
          rw [hStep] at hFinding hGoesOn
          exact ih hGoesOn hFinding

theorem mem_visitType_of_more {type : Address} {search : Search} {anomaly : Anomaly} (extra : Nat)
    (hNoted : anomaly ∈ (inspector.visitType reader target type search).value.trace.anomalies)
    (hOther : anomaly ≠ .budgetExhausted) :
    anomaly ∈ (inspector.visitType reader target type
      (search.join .none extra)).value.trace.anomalies := by
  rw [visitType_eq] at hNoted ⊢
  cases hList : (inspector.metadata reader).conformances? type with
  | none =>
      rw [hList] at hNoted
      simpa [Trace.flag, Search.join] using hNoted
  | some list =>
      rw [hList] at hNoted
      dsimp only at hNoted ⊢
      by_cases hNull : list = 0
      · rw [if_pos hNull] at hNoted ⊢
        simpa [Search.join] using hNoted
      · rw [if_neg hNull] at hNoted ⊢
        -- Whether the list search goes on or not, the bookkeeping is the one it ends with.
        have hShort : anomaly ∈
            ((inspector.scanList target list search.trace).run reader).2.anomalies := by
          split_ifs at hNoted <;> exact hNoted
        have hLong := mem_scanList_of_more extra hShort hOther
        split_ifs <;> exact hLong

theorem mem_visitEach_of_more {types : List Address} {search : Search} {anomaly : Anomaly}
    (extra : Nat)
    (hNoted : anomaly ∈
      (visitEach (inspector.visitType reader target) types search).value.trace.anomalies)
    (hOther : anomaly ≠ .budgetExhausted) :
    anomaly ∈ (visitEach (inspector.visitType reader target) types
      (search.join .none extra)).value.trace.anomalies := by
  induction types generalizing search with
  | nil => simpa [visitEach, Search.join, ForInStep.value] using hNoted
  | cons type rest ih =>
      have hGoesOn := inspector.finding_of_visitType reader target type search
      rw [visitEach] at hNoted ⊢
      cases hStep : inspector.visitType reader target type search with
      | done after =>
          rw [hStep] at hNoted
          have hShort : anomaly ∈
              (inspector.visitType reader target type search).value.trace.anomalies := by
            rw [hStep]
            exact hNoted
          have hHere := mem_visitType_of_more extra hShort hOther
          cases hLong : inspector.visitType reader target type (search.join .none extra) with
          | done later =>
              rw [hLong] at hHere
              exact hHere
          | yield later =>
              rw [hLong] at hHere
              have hLater : anomaly ∈ later.trace.anomalies := hHere
              exact mem_visitEach hLater
      | yield after =>
          rw [hStep] at hNoted hGoesOn
          have hLeft : (inspector.visitType reader target type search).value.finding ≠
              .exhausted := by
            rw [hStep]
            exact ne_of_eq_of_ne hGoesOn (by decide)
          rw [visitType_join (Or.inr hLeft), hStep]
          exact ih hNoted

theorem reason_of_visit_of_more {lineage : Lineage} {search : Search} {reason : Anomaly}
    (extra : Nat) (hAbsent : search.finding = .absent)
    (hReason : (lineage.visit (inspector.visitType reader target) search).2 = some reason) :
    (lineage.visit (inspector.visitType reader target) (search.join .none extra)).2 =
      some reason := by
  unfold Lineage.visit at hReason ⊢
  dsimp only at hReason ⊢
  cases hEarlier : visitEach (inspector.visitType reader target) lineage.earlier search with
  | done after =>
      rw [hEarlier] at hReason
      cases hReason
  | yield after =>
      rw [hEarlier] at hReason
      have hLeft : (visitEach (inspector.visitType reader target) lineage.earlier
          search).value.finding ≠ .exhausted := by
        rw [hEarlier]
        exact ne_of_eq_of_ne (visitEach_yield_finding hAbsent hEarlier) (by decide)
      rw [visitEach_join (Or.inr hLeft), hEarlier]
      exact hReason

variable (inspector reader target)

/-- What a search of an ancestry makes of a budget that runs out. -/
theorem searchAncestry_exhausted (type : Address) {trace : Trace}
    (hFresh : .budgetExhausted ∉ trace.anomalies)
    (hBudget : .budgetExhausted ∈
      ((inspector.searchAncestry target type trace).run reader).2.anomalies) :
    ((inspector.searchAncestry target type trace).run reader).1 = false ∧
      ((inspector.searchAncestry target type trace).run reader).2.recordsLeft = 0 := by
  have spends := inspector.spends_visitEach reader target (inspector.lineage reader type).types
    ⟨.absent, trace⟩ rfl
  rw [run_searchAncestry] at hBudget ⊢
  have hVisited := (Trace.mem_flag?.mp hBudget).resolve_left fun h => reason_of_visit h.symm
  have hFinding := (spends.exhausted hVisited).resolve_left hFresh
  constructor
  · exact beq_eq_false_iff_ne.mpr (ne_of_eq_of_ne hFinding (by decide))
  · rw [Trace.recordsLeft_flag?]
    exact recordsLeft_of_visitEach rfl hFinding

theorem run_searchAncestry_of_more (type : Address) {trace : Trace} (extra : Nat)
    (hBudget : .budgetExhausted ∉
      ((inspector.searchAncestry target type trace).run reader).2.anomalies) :
    (inspector.searchAncestry target type (trace.join .none extra)).run reader =
      (((inspector.searchAncestry target type trace).run reader).1,
        ((inspector.searchAncestry target type trace).run reader).2.join .none extra) := by
  have decides := inspector.visitEach_decides reader target (inspector.lineage reader type).types
    ⟨.absent, trace⟩ rfl
  refine inspector.run_searchAncestry_join_of_finding reader target type trace .none extra
    (Or.inr fun hExhausted => hBudget ?_)
  rw [run_searchAncestry]
  exact Trace.mem_flag?.mpr (Or.inr (decides.exhausted hExhausted))

theorem mem_searchAncestry_of_more (type : Address) {trace : Trace} {anomaly : Anomaly}
    (extra : Nat)
    (hNoted : anomaly ∈ ((inspector.searchAncestry target type trace).run reader).2.anomalies)
    (hOther : anomaly ≠ .budgetExhausted) :
    anomaly ∈ ((inspector.searchAncestry target type
      (trace.join .none extra)).run reader).2.anomalies := by
  rw [run_searchAncestry] at hNoted ⊢
  rcases Trace.mem_flag?.mp hNoted with hReason | hVisited
  · have hLong := reason_of_visit_of_more extra (by rfl) hReason.symm
    exact Trace.mem_flag?.mpr (Or.inl hLong.symm)
  · have hLong := mem_visitEach_of_more extra hVisited hOther
    exact Trace.mem_flag?.mpr (Or.inr hLong)

theorem mem_searchAncestry (type : Address) {trace : Trace} {anomaly : Anomaly}
    (hNoted : anomaly ∈ trace.anomalies) :
    anomaly ∈ ((inspector.searchAncestry target type trace).run reader).2.anomalies := by
  rw [run_searchAncestry]
  have hVisited : anomaly ∈ (visitEach (inspector.visitType reader target)
      (inspector.lineage reader type).types ⟨.absent, trace⟩).value.trace.anomalies :=
    mem_visitEach hNoted
  exact Trace.mem_flag?.mpr (Or.inr hVisited)

theorem mem_meetsProtocols (encoding : CompositionLayout) (type : Address)
    (remaining position : Nat) {trace : Trace} {anomaly : Anomaly}
    (hNoted : anomaly ∈ trace.anomalies) :
    anomaly ∈
      ((inspector.meetsProtocols encoding type remaining position trace).run reader).anomalies := by
  induction remaining generalizing position trace with
  | zero => exact hNoted
  | succ remaining ih =>
      rw [run_meetsProtocols_succ]
      cases (inspector.metadata reader).pointer? position with
      | none => exact Anomalies.mem_insert.mpr (Or.inr hNoted)
      | some reference =>
          have hSearched := inspector.mem_searchAncestry reader
            (reference &&& encoding.protocolMask) type hNoted
          dsimp only
          split_ifs
          · exact Anomalies.mem_insert.mpr (Or.inr hNoted)
          · exact ih _ hSearched
          · exact hSearched

end Inspector

end Conformance
