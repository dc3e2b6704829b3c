import Conformance.Proofs.Incidents
/-! Reports. Each part of a query adds to the anomalies met before it what its own steps note,
whichever way it ends; so the parts of a query report together what its steps note one by one. No
anomaly is lost where a search ends early, and none is added. -/
namespace Conformance

/-- An anomaly that memory or a bound is the reason for. The others are about the question that was
asked or about the composition that was asked for. -/
def Anomaly.isIncident : Anomaly → Bool
  | .nullAddress | .unresolved | .notAComposition => false
  | _ => true

/-- Some steps of a query add what they note to the anomalies met before them, and nothing else. -/
structure Reports (inspector : Inspector) (reader : Reader) (query : Query) (steps : List Step)
    (before after : Anomalies) : Prop where
  stands : ∀ step ∈ steps, step.Stands inspector reader query
  noted : ∀ anomaly, anomaly.isIncident = true → (anomaly ∈ after ↔
    anomaly ∈ before ∨ ∃ step ∈ steps, step.anomaly? inspector reader = some anomaly)

namespace Reports

variable {inspector : Inspector} {reader : Reader} {query : Query} {step : Step}
  {steps first second : List Step} {before between after : Anomalies} {reason : Option Anomaly}

theorem nil (seen : Anomalies) : Reports inspector reader query [] seen seen :=
  ⟨nofun, fun _ _ => by simp⟩

theorem append (earlier : Reports inspector reader query first before between)
    (later : Reports inspector reader query second between after) :
    Reports inspector reader query (first ++ second) before after := by
  refine ⟨List.forall_mem_append.mpr ⟨earlier.stands, later.stands⟩, fun anomaly hIncident => ?_⟩
  rw [later.noted anomaly hIncident, earlier.noted anomaly hIncident, or_assoc]
  simp only [List.mem_append, or_and_right, exists_or]

theorem single (stands : step.Stands inspector reader query)
    (hAnomaly : step.anomaly? inspector reader = reason) (adds : before.Adds reason after) :
    Reports inspector reader query [step] before after := by
  refine ⟨List.forall_mem_singleton.mpr stands, fun anomaly _ => ?_⟩
  rw [adds anomaly, ← hAnomaly, or_comm, @eq_comm _ (some anomaly)]
  simp only [List.mem_singleton, exists_eq_left]

/-- A step that notes nothing. -/
theorem quiet (rest : Reports inspector reader query steps before after)
    (stands : step.Stands inspector reader query)
    (hQuiet : step.anomaly? inspector reader = none) :
    Reports inspector reader query (step :: steps) before after :=
  (single stands hQuiet (Anomalies.adds_none _)).append rest

/-- A step that notes an anomaly before the steps after it note theirs. -/
theorem note {noted : Anomaly}
    (rest : Reports inspector reader query steps (before.insert noted) after)
    (stands : step.Stands inspector reader query)
    (hNoted : step.anomaly? inspector reader = some noted) :
    Reports inspector reader query (step :: steps) before after :=
  (single stands hNoted (Anomalies.adds_insert _ _)).append rest

/-- A step whose anomaly is noted after those of the steps after it. -/
theorem cons_last (rest : Reports inspector reader query steps before between)
    (stands : step.Stands inspector reader query)
    (hAnomaly : step.anomaly? inspector reader = reason) (adds : between.Adds reason after) :
    Reports inspector reader query (step :: steps) before after := by
  have reports := rest.append (single stands hAnomaly adds)
  refine ⟨List.forall_mem_cons.mpr ⟨stands, rest.stands⟩, fun anomaly hIncident => ?_⟩
  rw [reports.noted anomaly hIncident]
  refine or_congr_right (exists_congr fun other => and_congr_left fun _ => ?_)
  rw [List.mem_append, List.mem_singleton, List.mem_cons, or_comm]

/-- What is no incident may be added to a report. -/
theorem remark {other : Anomaly} (reports : Reports inspector reader query steps before after)
    (hOther : other.isIncident = false) :
    Reports inspector reader query steps before (after.insert other) := by
  refine ⟨reports.stands, fun anomaly hIncident => ?_⟩
  have hNe : anomaly ≠ other := by
    rintro rfl
    exact Bool.noConfusion (hOther.symm.trans hIncident)
  rw [← reports.noted anomaly hIncident, Anomalies.mem_insert, or_iff_right hNe]

end Reports

namespace Inspector

variable {inspector : Inspector} {reader : Reader} {query : Query} {start : Address}

/-- The check that the references behind a constraint have an address. -/
theorem reports_locate (position : Nat) (trace : Trace) :
    Reports inspector reader query
      [.locate (position + inspector.layout.pointerWidth.bytes)] trace.anomalies
      (if position + inspector.layout.pointerWidth.bytes < UInt64.size then trace
        else trace.flag .invalidRead).anomalies := by
  have hRoom : (Step.locate (position + inspector.layout.pointerWidth.bytes)).anomaly?
      inspector reader = if position + inspector.layout.pointerWidth.bytes < UInt64.size then
        none else some .invalidRead := by
    unfold Step.anomaly? Address.ofPosition?
    dsimp only
    split_ifs <;> rfl
  split_ifs at hRoom ⊢
  · exact (Reports.nil _).quiet trivial hRoom
  · exact (Reports.nil _).note trivial hRoom

variable (hStart : query.Starts (inspector.metadata reader) start)

include hStart

theorem reports_enterSteps {list : Address} {stack : List Frame}
    (hShallow : ¬ inspector.limits.effectiveDepth < stack.length)
    (reaches : (inspector.metadata reader).Reaches inspector.limits.reach start stack.length list)
    (opened : (inspector.metadata reader).Opened inspector.limits.reach start stack)
    (seen : Anomalies) :
    (inspector.metadata reader).Opened inspector.limits.reach start
        ((inspector.descend list stack seen).run reader).1 ∧
      Reports inspector reader query (inspector.enterSteps list stack) seen
        ((inspector.descend list stack seen).run reader).2 := by
  have stands : (Step.enter stack.length list).Stands inspector reader query :=
    ⟨start, hStart, reaches⟩
  unfold enterSteps
  rw [run_descend, if_neg hShallow, if_neg hShallow]
  cases hOpen : (inspector.openList list).run reader with
  | frame frame =>
      refine ⟨⟨?_, fun index hIndex => ?_, opened⟩,
        (Reports.nil _).quiet stands (by simp [Step.anomaly?, hOpen])⟩
      · rwa [(frame_of_openList hOpen).1]
      · rw [(frame_of_openList hOpen).1]
        exact hasRecord_iff.mpr ⟨frame, hOpen, hIndex⟩
  | empty =>
      exact ⟨opened, (Reports.nil _).quiet stands (by simp [Step.anomaly?, hOpen])⟩
  | refused reason =>
      exact ⟨opened, (Reports.nil _).note stands (by simp [Step.anomaly?, hOpen])⟩

theorem reports_searchSteps (target : Address) {left : Nat} {stack : List Frame}
    (opened : (inspector.metadata reader).Opened inspector.limits.reach start stack)
    (seen : Anomalies) :
    Reports inspector reader query (inspector.searchSteps reader target left stack seen) seen
      ((inspector.scan target left stack seen).run reader).2.anomalies := by
  induction left generalizing stack seen with
  | zero =>
      have stands : (Step.search target 0 stack).Stands inspector reader query :=
        ⟨start, hStart, opened⟩
      unfold searchSteps scan
      cases top : stack.dropWhile Frame.isSpent with
      | nil => exact (Reports.nil _).quiet stands (by simp [Step.anomaly?, top])
      | cons frame below =>
          exact (Reports.nil _).note stands (by simp [Step.anomaly?, top])
  | succ left ih =>
      have stands : (Step.search target (left + 1) stack).Stands inspector reader query :=
        ⟨start, hStart, opened⟩
      unfold searchSteps scan
      cases top : stack.dropWhile Frame.isSpent with
      | nil => exact (Reports.nil _).quiet stands (by simp [Step.anomaly?, top])
      | cons frame below =>
          have advanced : (inspector.metadata reader).Opened inspector.limits.reach start
              (frame.advance :: below) := by
            have hTop := opened.dropWhile Frame.isSpent
            rwa [top] at hTop
          simp only [Probe.run_bind]
          cases sighted : (inspector.inspect target frame.list frame.next).run reader with
          | target =>
              exact (Reports.nil _).quiet stands (by simp [Step.anomaly?, top, sighted])
          | leaf =>
              exact (ih advanced seen).quiet stands (by simp [Step.anomaly?, top, sighted])
          | unreadable =>
              exact (ih advanced _).note stands (by simp [Step.anomaly?, top, sighted])
          | nested list =>
              have hIndex := advanced.2.1 frame.next (next_lt_count top)
              have reaches := advanced.1.nested (nests_of_inspect hIndex sighted)
              simp only [Probe.run_bind]
              by_cases hDeep : inspector.limits.effectiveDepth < (frame.advance :: below).length
              · have hAnomaly : (Step.search target (left + 1) stack).anomaly? inspector reader =
                    some .depthLimit := by
                  rw [List.length_cons] at hDeep
                  simp [Step.anomaly?, top, sighted, hDeep]
                unfold enterSteps
                rw [run_descend, if_pos hDeep, if_pos hDeep]
                exact (ih advanced _).note stands hAnomaly
              · have hAnomaly : (Step.search target (left + 1) stack).anomaly? inspector reader =
                    none := by
                  rw [List.length_cons] at hDeep
                  simp [Step.anomaly?, top, sighted, hDeep]
                obtain ⟨hOpened, entered⟩ := reports_enterSteps hStart hDeep reaches advanced seen
                exact (entered.append (ih hOpened _)).quiet stands hAnomaly

theorem reports_listSteps (target : Address) {list : Address}
    (reaches : (inspector.metadata reader).Reaches inspector.limits.reach start 0 list)
    (trace : Trace) :
    Reports inspector reader query (inspector.listSteps reader target list trace) trace.anomalies
      ((inspector.scanList target list trace).run reader).2.anomalies := by
  have hShallow : ¬ inspector.limits.effectiveDepth < ([] : List Frame).length :=
    Nat.not_lt_zero _
  obtain ⟨opened, entered⟩ := reports_enterSteps hStart hShallow reaches trivial trace.anomalies
  unfold listSteps scanList
  rw [Probe.run_bind]
  exact entered.append (reports_searchSteps hStart target opened _)

theorem reports_typeSteps (target : Address) {type : Address} {hops : Nat}
    (hHops : hops ≤ inspector.limits.superclassHops)
    (ascent : (inspector.metadata reader).Ascends hops start type) (search : Search) :
    Reports inspector reader query (inspector.typeSteps reader target type search)
      search.trace.anomalies
      (inspector.visitType reader target type search).value.trace.anomalies := by
  have stands : (Step.declare type).Stands inspector reader query := trivial
  rw [visitType_eq]
  unfold typeSteps
  cases hList : (inspector.metadata reader).conformances? type with
  | none => exact (Reports.nil _).note stands (by simp [Step.anomaly?, hList])
  | some list =>
      have hQuiet : (Step.declare type).anomaly? inspector reader = none := by
        simp [Step.anomaly?, hList]
      dsimp only
      split_ifs with hNull hAbsent
      · exact (Reports.nil _).quiet stands hQuiet
      all_goals
        have reaches : (inspector.metadata reader).Reaches inspector.limits.reach start 0 list :=
          ⟨hops, type, list, Nat.cast_le.mpr hHops, ascent, hList, hNull, .zero list⟩
        exact (reports_listSteps hStart target reaches search.trace).quiet stands hQuiet

/-- A climb notes why it ended after what its visitor has noted at the last type. -/
theorem reports_climbSteps {σ : Type} {visit : Address → σ → Probe (ForInStep σ)}
    {visitSteps : Address → σ → List Step} (seen : σ → Anomalies)
    (hVisit : ∀ hops type state, hops ≤ inspector.limits.superclassHops →
      (inspector.metadata reader).Ascends hops start type →
      Reports inspector reader query (visitSteps type state) (seen state)
        (seen ((visit type state).run reader).value))
    {hops hopsLeft : Nat} {marker : Marker} {type : Address} {state : σ} {after : Anomalies}
    (tracks : marker.Tracks inspector.limits hopsLeft)
    (follows : marker.Follows (inspector.metadata reader) start hops type)
    (hAfter :
      let climbed := (inspector.climb visit hopsLeft marker type state).run reader
      (seen climbed.1).Adds climbed.2 after) :
    Reports inspector reader query
      (inspector.climbSteps reader visit visitSteps hopsLeft marker type state) (seen state)
      after := by
  rw [run_climb] at hAfter
  fun_induction inspector.lineageFrom reader hopsLeft marker type generalizing hops state with
  | case5 marker type superclass hSuperclass hNonnull hopsLeft hMarked ih =>
      have hHops := follows.hops_add tracks
      have stands : (Step.ascend (hopsLeft + 1) marker type).Stands inspector reader query :=
        ⟨start, hops, hStart, follows⟩
      have hQuiet : (Step.ascend (hopsLeft + 1) marker type).anomaly? inspector reader = none := by
        simp [Step.anomaly?, hSuperclass, hNonnull, hMarked]
      have here := hVisit hops type state (by omega) follows.reached
      unfold climbSteps
      rw [hSuperclass]
      dsimp only
      rw [if_neg hNonnull, if_neg hMarked]
      rw [Lineage.visit_after] at hAfter
      cases hStep : (visit type state).run reader with
      | done last =>
          rw [hStep] at here hAfter
          rw [List.append_nil]
          exact here.cons_last stands rfl (hQuiet ▸ hAfter)
      | yield next =>
          rw [hStep] at here hAfter
          have later := ih (tracks.advance superclass) (follows.advance hSuperclass hNonnull) hAfter
          exact (here.append later).quiet stands hQuiet
  | _ =>
      have hHops := follows.hops_add tracks
      have last := hVisit hops _ state (by omega) follows.reached
      unfold climbSteps
      simp only [*, Lineage.visit_singleton] at hAfter ⊢
      exact last.cons_last ⟨start, hops, hStart, follows⟩ (by simp [Step.anomaly?, *]) hAfter

theorem reports_ancestrySteps (target : Address) (trace : Trace) :
    Reports inspector reader query (inspector.ancestrySteps reader target start trace)
      trace.anomalies
      ((inspector.searchAncestry target start trace).run reader).2.anomalies := by
  unfold ancestrySteps searchAncestry visitAncestry
  rw [Probe.run_bind]
  exact reports_climbSteps hStart (fun search : Search => search.trace.anomalies)
    (fun _ _ search hHops ascent => reports_typeSteps hStart target hHops ascent search)
    (.start start) (.start_self start) (Trace.adds_flag? _ _)

theorem reports_inheritSteps (ancestor : Address) (trace : Trace) :
    Reports inspector reader query (inspector.inheritSteps reader start ancestor) trace.anomalies
      ((inspector.inheritsFrom start ancestor trace).run reader).2.anomalies := by
  unfold inheritSteps inheritsFrom visitAncestry
  rw [Probe.run_bind]
  exact reports_climbSteps hStart (fun _ => trace.anomalies) (fun _ _ _ _ _ => .nil _)
    (.start start) (.start_self start) (Trace.adds_flag? _ _)

theorem reports_constraintSteps (position : Nat) (trace : Trace) :
    Reports inspector reader query (inspector.constraintSteps reader start position trace)
      trace.anomalies
      ((inspector.meetsConstraint start position trace).run reader).2.anomalies := by
  have stands : (Step.trailing position).Stands inspector reader query := trivial
  rw [run_meetsConstraint]
  unfold constraintSteps
  cases hPointer : (inspector.metadata reader).pointer? position with
  | none => exact (Reports.nil _).note stands (by simp [Step.anomaly?, hPointer])
  | some superclass =>
      have hQuiet : (Step.trailing position).anomaly? inspector reader = none := by
        simp [Step.anomaly?, hPointer]
      dsimp only
      by_cases hNull : superclass = 0
      · simp only [if_pos hNull, if_true]
        have reports := (reports_locate position trace).quiet stands hQuiet
        split_ifs at reports ⊢ <;> exact reports
      · have inherits := reports_inheritSteps hStart superclass trace
        simp only [if_neg hNull]
        split_ifs with hFound hRoom
        · have reports := inherits.append (reports_locate position _)
          rw [if_pos hRoom] at reports
          exact reports.quiet stands hQuiet
        · have reports := inherits.append (reports_locate position _)
          rw [if_neg hRoom] at reports
          exact reports.quiet stands hQuiet
        · rw [List.append_nil]
          exact inherits.quiet stands hQuiet

theorem reports_referenceSteps (encoding : CompositionLayout) (remaining position : Nat)
    (trace : Trace) :
    Reports inspector reader query
      (inspector.referenceSteps reader encoding start remaining position trace) trace.anomalies
      ((inspector.meetsProtocols encoding start remaining position trace).run
        reader).anomalies := by
  induction remaining generalizing position trace with
  | zero => exact .nil _
  | succ remaining ih =>
      have stands : (Step.trailing position).Stands inspector reader query := trivial
      rw [run_meetsProtocols_succ]
      unfold referenceSteps
      cases hPointer : (inspector.metadata reader).pointer? position with
      | none => exact (Reports.nil _).note stands (by simp [Step.anomaly?, hPointer])
      | some reference =>
          have hQuiet : (Step.trailing position).anomaly? inspector reader = none := by
            simp [Step.anomaly?, hPointer]
          have search := reports_ancestrySteps hStart (reference &&& encoding.protocolMask) trace
          dsimp only
          split_ifs with hNull hFound
          · -- A null reference is said to be one, without being an incident.
            exact ((Reports.nil _).quiet stands hQuiet).remark rfl
          · exact (search.append (ih _ _)).quiet stands hQuiet
          · rw [List.append_nil]
            exact search.quiet stands hQuiet

theorem reports_requirementSteps (encoding : CompositionLayout) (header : CompositionHeader)
    (composition : Address) :
    Reports inspector reader query
      (inspector.requirementSteps reader encoding header composition start) .none
      (inspector.requirementsVerdict reader encoding header composition start).anomalies := by
  have constraint := reports_constraintSteps hStart
    (Address.plus composition encoding.trailingOffset) (.start inspector.limits)
  unfold requirementSteps requirementsVerdict
  dsimp only
  split_ifs with hSuperclass hMet
  · exact constraint.append (reports_referenceSteps hStart encoding _ _ _)
  · rw [List.append_nil]
    exact constraint
  · exact reports_referenceSteps hStart encoding _ _ (.start inspector.limits)

omit hStart

theorem reports_objectSteps {object : Address} (hObject : query.object? = some object)
    {steps : Address → List Step} {answer : Address → Verdict}
    (hSteps : ∀ type, (inspector.metadata reader).objectType? object = some type →
      Reports inspector reader query (steps type) .none (answer type).anomalies) :
    Reports inspector reader query (inspector.objectSteps reader object steps) .none
      (match (inspector.metadata reader).objectType? object with
        | none => .rejected .invalidRead
        | some type =>
            if type = 0 then .rejected .nullType else answer type : Verdict).anomalies := by
  have stands : (Step.typeOf object).Stands inspector reader query := hObject
  unfold objectSteps
  cases hType : (inspector.metadata reader).objectType? object with
  | none =>
      exact (Reports.nil _).note stands (by simp [Step.anomaly?, run_typeOf, hType])
  | some type =>
      dsimp only
      split_ifs with hNull
      · exact (Reports.nil _).note stands (by simp [Step.anomaly?, run_typeOf, hType, hNull])
      · exact (hSteps type hType).quiet stands (by simp [Step.anomaly?, run_typeOf, hType, hNull])

variable (inspector reader query)

/-- The anomalies of an answer are those that the steps of the query have noted, as far as memory or
a bound is the reason for them. -/
theorem reports_querySteps :
    Reports inspector reader query (inspector.querySteps reader query) .none
      ((query.probe inspector).run reader).anomalies := by
  have ancestry (protocol type : Address)
      (hStart : query.Starts (inspector.metadata reader) type) :=
    reports_ancestrySteps hStart protocol (.start inspector.limits)
  cases query with
  | ofObject object protocol =>
      unfold Query.probe querySteps
      dsimp only
      rw [run_verdict]
      split_ifs with hNull
      · exact (Reports.nil _).remark rfl
      · exact reports_objectSteps rfl fun type hType => ancestry protocol type hType
  | ofType type protocol =>
      unfold Query.probe querySteps
      dsimp only
      rw [run_typeVerdict]
      split_ifs with hNull
      · exact (Reports.nil _).remark rfl
      · exact ancestry protocol type rfl
  | ofComposition object composition =>
      unfold Query.probe querySteps
      dsimp only
      rw [run_compositionVerdict]
      split_ifs with hNull
      · exact (Reports.nil _).remark rfl
      · cases hLayout : inspector.layout.composition with
        | none => exact (Reports.nil _).remark rfl
        | some encoding =>
            have stands : (Step.header encoding composition).Stands inspector reader
                (.ofComposition object composition) := ⟨object, rfl, hLayout⟩
            dsimp only
            cases hHeader : (inspector.readHeader encoding composition).run reader with
            | error reason =>
                exact (Reports.nil _).note stands (by simp [Step.anomaly?, hHeader])
            | ok header =>
                have hQuiet : (Step.header encoding composition).anomaly? inspector reader =
                    none := by
                  simp [Step.anomaly?, hHeader]
                dsimp only
                split_ifs with hEmpty
                · exact (Reports.nil _).quiet stands hQuiet
                · have requirements (type : Address)
                      (hStart : (Query.ofComposition object composition).Starts
                        (inspector.metadata reader) type) :=
                    reports_requirementSteps hStart encoding header composition
                  refine Reports.quiet ?_ stands hQuiet
                  exact reports_objectSteps rfl fun type hType => requirements type hType

end Inspector

/-- Whatever is asked, the answer reports a refused read exactly if a read was refused or an address
had no room, and reports nothing else that memory gives no cause for. -/
theorem Inspector.reports_faithfully (inspector : Inspector) (reader : Reader) (query : Query) :
    let answer := (query.probe inspector).run reader
    (.invalidRead ∈ answer.anomalies ↔
      ∃ event ∈ (query.probe inspector).events reader, event.isRefusal = true) ∧
    ∀ anomaly ∈ answer.anomalies, anomaly.Caused inspector reader query := by
  intro answer
  have reports := inspector.reports_querySteps reader query
  obtain ⟨left, accounts⟩ := inspector.accounts_querySteps reader query
  have hRefused : .invalidRead ∈ answer.anomalies ↔
      ∃ event ∈ (query.probe inspector).events reader, event.isRefusal = true := by
    rw [reports.noted .invalidRead rfl, or_iff_right (Anomalies.not_mem_none _), events_query]
    simp only [← Step.refuses_iff, List.mem_flatMap]
    constructor
    · rintro ⟨step, hStep, event, hEvent, hRefusal⟩
      exact ⟨event, ⟨step, hStep, hEvent⟩, hRefusal⟩
    · rintro ⟨event, ⟨step, hStep, hEvent⟩, hRefusal⟩
      exact ⟨step, hStep, event, hEvent, hRefusal⟩
  refine ⟨hRefused, fun anomaly hAnomaly => ?_⟩
  by_cases hRead : anomaly = .invalidRead
  · subst hRead
    exact hRefused.mp hAnomaly
  cases hIncident : anomaly.isIncident with
  | false =>
      cases anomaly with
      | nullAddress | unresolved | notAComposition => trivial
      | _ => cases hIncident
  | true =>
      rw [reports.noted anomaly hIncident, or_iff_right (Anomalies.not_mem_none _)] at hAnomaly
      obtain ⟨step, hStep, hNoted⟩ := hAnomaly
      exact Step.caused (accounts.sound step hStep) (reports.stands step hStep) hNoted hRead

/-- Types that go round in a circle and lists that go on for ever, with records that cannot be
read. -/
theorem reports_faithfully_knotted :
    let inspector : Inspector := ⟨Runtime.compact64.layout, ⟨5, 1, 8, 40⟩⟩
    let query : Query := .ofObject 0x10 0x90
    ((query.probe inspector).run knottedMemory).anomalies.toList =
        [.invalidRead, .cycle, .depthLimit] ∧
      (∃ event ∈ (query.probe inspector).events knottedMemory, event.isRefusal = true) ∧
      Anomaly.cycle.Caused inspector knottedMemory query ∧
      Anomaly.depthLimit.Caused inspector knottedMemory query := by
  intro inspector query
  obtain ⟨hRefused, hCaused⟩ := inspector.reports_faithfully knottedMemory query
  exact ⟨by decide +kernel, hRefused.mp (by decide +kernel), hCaused .cycle (by decide +kernel),
    hCaused .depthLimit (by decide +kernel)⟩

end Conformance
