import Conformance.Proofs.AncestrySearch
/-! The budget of records and the anomalies met before. A search does the same whatever anomalies it
starts with, and as long as the records do not run out, whatever number of records it starts with:
what it starts with in addition is still there when it ends. -/
namespace Conformance

namespace Anomalies

/-- The anomalies of two sets together. -/
def union (first second : Anomalies) : Anomalies := ⟨first.bits ||| second.bits⟩

@[simp] theorem union_insert (first second : Anomalies) (anomaly : Anomaly) :
    first.union (second.insert anomaly) = (first.union second).insert anomaly := by
  simp only [union, insert, BitVec.or_assoc]

@[simp] theorem union_none (set : Anomalies) : set.union none = set := by
  simp [union, none]

end Anomalies

/-- The bookkeeping of a query that had met some anomalies before and has more records left. -/
def Trace.join (trace : Trace) (earlier : Anomalies) (extra : Nat) : Trace :=
  ⟨earlier.union trace.anomalies, trace.recordsLeft + extra⟩

namespace Inspector

variable {inspector : Inspector} {reader : Reader} {target : Address}

theorem run_descend_union (list : Address) (stack : List Frame) (earlier seen : Anomalies) :
    (inspector.descend list stack (earlier.union seen)).run reader =
      (((inspector.descend list stack seen).run reader).1,
        earlier.union ((inspector.descend list stack seen).run reader).2) := by
  rw [run_descend, run_descend]
  split_ifs with hDeep
  · simp
  · cases (inspector.openList list).run reader <;> simp

theorem Passes.union {frame : Frame} {below after : List Frame} {seen more : Anomalies}
    (earlier : Anomalies) (step : inspector.Passes reader target frame below seen after more) :
    inspector.Passes reader target frame below (earlier.union seen) after (earlier.union more) := by
  cases step with
  | leaf sighted => exact .leaf sighted
  | unreadable sighted =>
      rw [Anomalies.union_insert]
      exact .unreadable sighted
  | nested sighted =>
      have next : inspector.Passes reader target frame below (earlier.union seen) _ _ :=
        .nested sighted
      rw [run_descend_union] at next
      exact next

/-- A run of the search is determined by where it starts. -/
theorem Scans.run_scan {left : Nat} {stack : List Frame} {seen : Anomalies}
    {outcome : Finding × Trace} (run : inspector.Scans reader target left stack seen outcome) :
    (inspector.scan target left stack seen).run reader = outcome := by
  induction run with
  | @absent left stack seen spent =>
      unfold scan
      cases left <;> simp [spent]
  | exhausted top =>
      unfold scan
      simp [top]
  | found top sighted =>
      unfold scan
      simp [top, sighted]
  | pass top step _ ih =>
      unfold scan
      rw [← ih]
      cases step with
      | leaf sighted => simp [top, sighted]
      | unreadable sighted => simp [top, sighted]
      | nested sighted => simp [top, sighted]

theorem Scans.join {left : Nat} {stack : List Frame} {seen : Anomalies}
    {outcome : Finding × Trace} (run : inspector.Scans reader target left stack seen outcome)
    (earlier : Anomalies) (extra : Nat) (hLeft : extra = 0 ∨ outcome.1 ≠ .exhausted) :
    inspector.Scans reader target (left + extra) stack (earlier.union seen)
      (outcome.1, outcome.2.join earlier extra) := by
  induction run with
  | absent spent => exact .absent spent
  | exhausted top =>
      rcases hLeft with rfl | hFinding
      · simpa [Trace.join] using Scans.exhausted top
      · exact absurd rfl hFinding
  | found top sighted =>
      rw [Nat.add_right_comm]
      exact .found top sighted
  | pass top step _ ih =>
      rw [Nat.add_right_comm]
      exact .pass top (step.union earlier) (ih hLeft)

theorem run_scanList_join (list : Address) (trace : Trace) (earlier : Anomalies) (extra : Nat)
    (hLeft : extra = 0 ∨ ((inspector.scanList target list trace).run reader).1 ≠ .exhausted) :
    (inspector.scanList target list (trace.join earlier extra)).run reader =
      (((inspector.scanList target list trace).run reader).1,
        ((inspector.scanList target list trace).run reader).2.join earlier extra) := by
  have run := (inspector.scans_run_scanList reader target list trace).join earlier extra hLeft
  rw [← run.run_scan]
  unfold scanList
  rw [Probe.run_bind]
  simp only [Trace.join, run_descend_union]

end Inspector

namespace Search

/-- The state of a search that had met some anomalies before and has more records left. -/
def join (earlier : Anomalies) (extra : Nat) (search : Search) : Search :=
  ⟨search.finding, search.trace.join earlier extra⟩

/-- The same for a step of the search. -/
def joinStep (earlier : Anomalies) (extra : Nat) : ForInStep Search → ForInStep Search
  | .done search => .done (search.join earlier extra)
  | .yield search => .yield (search.join earlier extra)

end Search

theorem Trace.join_flag (trace : Trace) (earlier : Anomalies) (extra : Nat) (anomaly : Anomaly) :
    (trace.flag anomaly).join earlier extra = (trace.join earlier extra).flag anomaly := by
  simp [join, flag]

theorem Trace.join_flag? (trace : Trace) (earlier : Anomalies) (extra : Nat)
    (reason : Option Anomaly) :
    (trace.flag? reason).join earlier extra = (trace.join earlier extra).flag? reason := by
  cases reason with
  | none => rfl
  | some anomaly => exact trace.join_flag earlier extra anomaly

@[simp] theorem Trace.recordsLeft_flag? (trace : Trace) (reason : Option Anomaly) :
    (trace.flag? reason).recordsLeft = trace.recordsLeft := by
  cases reason <;> rfl

namespace Inspector

variable {inspector : Inspector} {reader : Reader} {target : Address}

theorem visitType_join {type : Address} {search : Search} {earlier : Anomalies} {extra : Nat}
    (hLeft : extra = 0 ∨
      (inspector.visitType reader target type search).value.finding ≠ .exhausted) :
    inspector.visitType reader target type (search.join earlier extra) =
      Search.joinStep earlier extra (inspector.visitType reader target type search) := by
  rw [visitType_eq] at hLeft ⊢
  rw [visitType_eq]
  cases hList : (inspector.metadata reader).conformances? type with
  | none =>
      dsimp only [Search.join, Search.joinStep]
      rw [Trace.join_flag]
  | some list =>
      rw [hList] at hLeft
      dsimp only [Search.join] at hLeft ⊢
      by_cases hNull : list = 0
      · simp [hNull, Search.joinStep, Search.join]
      · rw [if_neg hNull] at hLeft
        have hScan : extra = 0 ∨
            ((inspector.scanList target list search.trace).run reader).1 ≠ .exhausted := by
          refine hLeft.imp_right fun h => ?_
          split_ifs at h with hAbsent
          · simp [hAbsent]
          · exact h
        rw [if_neg hNull, if_neg hNull, run_scanList_join list search.trace earlier extra hScan]
        dsimp only
        split_ifs <;> rfl

theorem visitEach_join {types : List Address} {search : Search} {earlier : Anomalies} {extra : Nat}
    (hLeft : extra = 0 ∨
      (visitEach (inspector.visitType reader target) types search).value.finding ≠ .exhausted) :
    visitEach (inspector.visitType reader target) types (search.join earlier extra) =
      Search.joinStep earlier extra
        (visitEach (inspector.visitType reader target) types search) := by
  induction types generalizing search with
  | nil => rfl
  | cons type rest ih =>
      have hFinding := inspector.finding_of_visitType reader target type search
      rw [visitEach] at hLeft ⊢
      rw [visitEach]
      cases hStep : inspector.visitType reader target type search with
      | done after =>
          rw [hStep] at hLeft
          rw [visitType_join (by rwa [hStep]), hStep]
          rfl
      | yield after =>
          rw [hStep] at hLeft hFinding
          have hAbsent : (ForInStep.yield after).value.finding ≠ .exhausted := by
            intro h
            exact absurd (hFinding.symm.trans h) (by decide)
          rw [visitType_join (by rw [hStep]; exact Or.inr hAbsent), hStep]
          exact ih hLeft

theorem visitEach_yield_finding {types : List Address} {search after : Search}
    (hAbsent : search.finding = .absent)
    (hYield : visitEach (inspector.visitType reader target) types search = .yield after) :
    after.finding = .absent := by
  induction types generalizing search with
  | nil =>
      cases hYield
      exact hAbsent
  | cons type rest ih =>
      have hFinding := inspector.finding_of_visitType reader target type search
      rw [visitEach] at hYield
      cases hStep : inspector.visitType reader target type search with
      | done next =>
          rw [hStep] at hYield
          cases hYield
      | yield next =>
          rw [hStep] at hFinding hYield
          exact ih hFinding hYield

theorem visit_lineage_join {lineage : Lineage} {search : Search} {earlier : Anomalies}
    {extra : Nat} (hAbsent : search.finding = .absent)
    (hLeft : extra = 0 ∨
      (lineage.visit (inspector.visitType reader target) search).1.finding ≠ .exhausted) :
    lineage.visit (inspector.visitType reader target) (search.join earlier extra) =
      ((lineage.visit (inspector.visitType reader target) search).1.join earlier extra,
        (lineage.visit (inspector.visitType reader target) search).2) := by
  have hEarlier : extra = 0 ∨
      (visitEach (inspector.visitType reader target) lineage.earlier search).value.finding ≠
        .exhausted := by
    refine hLeft.imp_right fun h => ?_
    rw [Lineage.visit, Lineage.types, visitEach_append] at h
    cases hVisit : visitEach (inspector.visitType reader target) lineage.earlier search with
    | done after =>
        rw [hVisit] at h
        exact h
    | yield after =>
        intro hExhausted
        have hFinding := visitEach_yield_finding hAbsent hVisit
        exact absurd (hFinding.symm.trans hExhausted) (by decide)
  unfold Lineage.visit at hLeft ⊢
  rw [visitEach_join hLeft, visitEach_join hEarlier]
  congr 1
  · cases visitEach (inspector.visitType reader target) lineage.types search <;> rfl
  · cases visitEach (inspector.visitType reader target) lineage.earlier search <;> rfl

variable (inspector reader target) in
theorem run_searchAncestry_join_of_finding (type : Address) (trace : Trace) (earlier : Anomalies)
    (extra : Nat)
    (hLeft : extra = 0 ∨ ((inspector.lineage reader type).visit
      (inspector.visitType reader target) ⟨.absent, trace⟩).1.finding ≠ .exhausted) :
    (inspector.searchAncestry target type (trace.join earlier extra)).run reader =
      (((inspector.searchAncestry target type trace).run reader).1,
        ((inspector.searchAncestry target type trace).run reader).2.join earlier extra) := by
  have hSearch : (⟨.absent, trace.join earlier extra⟩ : Search) =
      Search.join earlier extra ⟨.absent, trace⟩ := rfl
  rw [run_searchAncestry, run_searchAncestry, hSearch]
  dsimp only
  rw [visit_lineage_join rfl hLeft]
  dsimp only [Search.join]
  rw [Trace.join_flag?]

variable (inspector reader target) in
theorem run_searchAncestry_join (type : Address) (trace : Trace) (earlier : Anomalies)
    (extra : Nat)
    (hLeft : extra = 0 ∨ ((inspector.searchAncestry target type trace).run reader).1 = true) :
    (inspector.searchAncestry target type (trace.join earlier extra)).run reader =
      (((inspector.searchAncestry target type trace).run reader).1,
        ((inspector.searchAncestry target type trace).run reader).2.join earlier extra) := by
  refine inspector.run_searchAncestry_join_of_finding reader target type trace earlier extra ?_
  refine hLeft.imp_right fun hFound hExhausted => ?_
  rw [run_searchAncestry] at hFound
  dsimp only at hFound
  rw [hExhausted] at hFound
  cases hFound

end Inspector

/-- What a part of a query does to the budget: it gains no records, and that they have run out is
noted only by a search that ends for this reason. -/
structure Spends (before : Trace) (finding : Finding) (after : Trace) : Prop where
  recordsLeft : after.recordsLeft ≤ before.recordsLeft
  exhausted : .budgetExhausted ∈ after.anomalies →
    .budgetExhausted ∈ before.anomalies ∨ finding = .exhausted

theorem Spends.refl (trace : Trace) : Spends trace .absent trace :=
  ⟨Nat.le_refl _, Or.inl⟩

theorem Spends.flag {before after : Trace} {finding : Finding} {reason : Anomaly}
    (spends : Spends before finding after) (hReason : reason ≠ .budgetExhausted) :
    Spends before finding (after.flag reason) := by
  refine ⟨spends.recordsLeft, fun h => spends.exhausted ?_⟩
  exact (Anomalies.mem_insert.mp h).resolve_left hReason.symm

theorem Spends.flag? {before after : Trace} {finding : Finding} {reason : Option Anomaly}
    (spends : Spends before finding after) (hReason : reason ≠ some .budgetExhausted) :
    Spends before finding (after.flag? reason) := by
  cases reason with
  | none => exact spends
  | some anomaly => exact spends.flag fun h => hReason (congrArg some h)

theorem Spends.trans {first second third : Trace} {finding : Finding}
    (earlier : Spends first .absent second) (later : Spends second finding third) :
    Spends first finding third := by
  constructor
  · exact Nat.le_trans later.recordsLeft earlier.recordsLeft
  · intro h
    rcases later.exhausted h with hBefore | hFinding
    · exact Or.inl ((earlier.exhausted hBefore).resolve_right (by decide))
    · exact Or.inr hFinding

namespace Inspector

variable {inspector : Inspector} {reader : Reader} {target : Address}

theorem reason_of_openList {list : Address} {reason : Anomaly}
    (h : (inspector.openList list).run reader = .refused reason) : reason ≠ .budgetExhausted := by
  rw [run_openList] at h
  split at h
  · cases h
    decide
  · split_ifs at h
    cases h
    decide

theorem budgetExhausted_of_mem_descend {list : Address} {stack : List Frame} {seen : Anomalies}
    (h : .budgetExhausted ∈ ((inspector.descend list stack seen).run reader).2) :
    .budgetExhausted ∈ seen := by
  rw [run_descend] at h
  split_ifs at h
  · simpa using h
  · cases hOpen : (inspector.openList list).run reader with
    | frame => simpa [hOpen] using h
    | empty => simpa [hOpen] using h
    | refused reason =>
        rw [hOpen] at h
        rcases Anomalies.mem_insert.mp h with hReason | hSeen
        · exact absurd hReason.symm (reason_of_openList hOpen)
        · exact hSeen

theorem Passes.budgetExhausted_of_mem {frame : Frame} {below after : List Frame}
    {seen more : Anomalies} (step : inspector.Passes reader target frame below seen after more)
    (h : .budgetExhausted ∈ more) : .budgetExhausted ∈ seen := by
  cases step with
  | leaf => exact h
  | unreadable => simpa using h
  | nested => exact budgetExhausted_of_mem_descend h

theorem Scans.spends {left : Nat} {stack : List Frame} {seen : Anomalies}
    {outcome : Finding × Trace} (run : inspector.Scans reader target left stack seen outcome) :
    Spends ⟨seen, left⟩ outcome.1 outcome.2 := by
  induction run with
  | absent => exact ⟨Nat.le_refl _, Or.inl⟩
  | exhausted => exact ⟨Nat.le_refl _, fun _ => Or.inr rfl⟩
  | found => exact ⟨Nat.le_succ _, Or.inl⟩
  | pass _ step _ ih =>
      constructor
      · exact Nat.le_succ_of_le ih.recordsLeft
      · intro h
        exact (ih.exhausted h).imp_left step.budgetExhausted_of_mem

variable (inspector reader target) in
theorem spends_visitType (type : Address) (search : Search) :
    Spends search.trace (inspector.visitType reader target type search).value.finding
      (inspector.visitType reader target type search).value.trace := by
  rw [visitType_eq]
  cases (inspector.metadata reader).conformances? type with
  | none => exact ⟨Nat.le_refl _, fun h => Or.inl (by simpa [Trace.flag] using h)⟩
  | some list =>
      have run := (inspector.scans_run_scanList reader target list search.trace).spends
      have opened : Spends search.trace .absent
          ⟨((inspector.descend list [] search.trace.anomalies).run reader).2,
            search.trace.recordsLeft⟩ :=
        ⟨Nat.le_refl _, fun h => Or.inl (budgetExhausted_of_mem_descend h)⟩
      dsimp only
      split_ifs with hNull hAbsent
      · exact ⟨Nat.le_refl _, Or.inl⟩
      · rw [hAbsent] at run
        exact opened.trans run
      · exact opened.trans run

variable (inspector reader target) in
theorem spends_visitEach (types : List Address) (search : Search)
    (hAbsent : search.finding = .absent) :
    Spends search.trace
      (visitEach (inspector.visitType reader target) types search).value.finding
      (visitEach (inspector.visitType reader target) types search).value.trace := by
  induction types generalizing search with
  | nil => exact ⟨Nat.le_refl _, Or.inl⟩
  | cons type rest ih =>
      have here := inspector.spends_visitType reader target type search
      have hFinding := inspector.finding_of_visitType reader target type search
      rw [visitEach]
      cases hStep : inspector.visitType reader target type search with
      | done after =>
          rw [hStep] at here
          exact here
      | yield after =>
          rw [hStep] at here hFinding
          have hHere : Spends search.trace .absent after.trace := hFinding ▸ here
          exact hHere.trans (ih after hFinding)

theorem lineageFrom_reason {hopsLeft : Nat} {marker : Marker} {type : Address} :
    (inspector.lineageFrom reader hopsLeft marker type).reason ≠ some .budgetExhausted := by
  fun_induction inspector.lineageFrom reader hopsLeft marker type with
  | case5 marker type superclass hSuperclass hNonnull hopsLeft _ ih => exact ih
  | _ => simp

theorem reason_of_visit {σ : Type} {visit : Address → σ → ForInStep σ} {type : Address}
    {state : σ} :
    ((inspector.lineage reader type).visit visit state).2 ≠ some .budgetExhausted := by
  unfold Lineage.visit
  cases visitEach visit (inspector.lineage reader type).earlier state with
  | done => simp
  | yield => exact lineageFrom_reason

variable (inspector reader target) in
/-- A search without a match is the only one after which the records have run out. -/
theorem spends_searchAncestry (type : Address) (trace : Trace) :
    let outcome := (inspector.searchAncestry target type trace).run reader
    outcome.2.recordsLeft ≤ trace.recordsLeft ∧
      (.budgetExhausted ∈ outcome.2.anomalies →
        .budgetExhausted ∈ trace.anomalies ∨ outcome.1 = false) := by
  have spends := inspector.spends_visitEach reader target (inspector.lineage reader type).types
    ⟨.absent, trace⟩ rfl
  rw [run_searchAncestry]
  constructor
  · rw [Trace.recordsLeft_flag?]
    exact spends.recordsLeft
  · intro h
    rcases Trace.mem_flag?.mp h with hReason | hVisited
    · exact absurd hReason.symm reason_of_visit
    · refine (spends.exhausted hVisited).imp_right fun hFinding => ?_
      rw [beq_eq_false_iff_ne]
      exact ne_of_eq_of_ne hFinding (by decide)

variable (inspector reader target) in
/-- A search that shares the budget with others answers as it would on its own, unless the records
run out. -/
theorem searchAncestry_shared (type : Address) (trace : Trace)
    (hLeft : trace.recordsLeft ≤ inspector.limits.recordsVisited) :
    let shared := (inspector.searchAncestry target type trace).run reader
    let alone := (inspector.searchAncestry target type (.start inspector.limits)).run reader
    (shared.1 = true → alone.1 = true) ∧
      (.budgetExhausted ∉ shared.2.anomalies → alone.1 = true → shared.1 = true) := by
  intro shared alone
  have hTrace : trace = Trace.join ⟨.none, trace.recordsLeft⟩ trace.anomalies 0 := by
    simp [Trace.join]
  have hStart : Trace.start inspector.limits = Trace.join ⟨.none, trace.recordsLeft⟩ .none
      (inspector.limits.recordsVisited - trace.recordsLeft) := by
    simp [Trace.join, Trace.start, Nat.add_sub_cancel' hLeft]
  constructor
  · intro hShared
    have hBase : ((inspector.searchAncestry target type ⟨.none, trace.recordsLeft⟩).run
        reader).1 = true := by
      have hJoin := inspector.run_searchAncestry_join reader target type
        ⟨.none, trace.recordsLeft⟩ trace.anomalies 0 (Or.inl rfl)
      rw [← hTrace] at hJoin
      exact (congrArg Prod.fst hJoin).symm.trans hShared
    have hJoin := inspector.run_searchAncestry_join reader target type
      ⟨.none, trace.recordsLeft⟩ .none (inspector.limits.recordsVisited - trace.recordsLeft)
      (Or.inr hBase)
    rw [← hStart] at hJoin
    exact (congrArg Prod.fst hJoin).trans hBase
  · intro hBudget hAlone
    have path := (inspector.searchAncestry_decides reader target type _).1 hAlone
    by_contra hShared
    exact (inspector.searchAncestry_decides reader target type trace).2 hBudget
      (Bool.eq_false_iff.mpr hShared) path

end Inspector

end Conformance
