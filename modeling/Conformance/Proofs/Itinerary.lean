import Conformance.Proofs.Composition
/-! The steps of a query. A query is taken apart into the steps of its loops, each with the state
that the loop is in. What memory is asked for in the course of a query is what its steps ask for,
one after the other; so whatever holds of every step holds of the query. -/
namespace Conformance

/-- A question that is answered by reading metadata. -/
inductive Query where
  /-- Whether the type of an object declares a protocol. -/
  | ofObject (object protocol : Address)
  /-- Whether a type declares a protocol. -/
  | ofType (type protocol : Address)
  /-- Whether an object satisfies a composition. -/
  | ofComposition (object composition : Address)
deriving DecidableEq, Repr

/-- The computation that answers a question. -/
def Query.probe (inspector : Inspector) : Query → Probe Verdict
  | .ofObject object protocol => inspector.verdict object protocol
  | .ofType type protocol => inspector.typeVerdict type protocol
  | .ofComposition object composition => inspector.compositionVerdict object composition

/-- One step of a query. -/
inductive Step where
  /-- The type of an object is read. -/
  | typeOf (object : Address)
  /-- A chain of superclasses has reached a type, whose superclass is read. -/
  | ascend (hopsLeft : Nat) (marker : Marker) (type : Address)
  /-- The pointer from a type to its conformance list is read. -/
  | declare (type : Address)
  /-- The head of a list is read while a number of lists are open. -/
  | enter (height : Nat) (list : Address)
  /-- The search of the open lists goes on with its next record. -/
  | search (target : Address) (recordsLeft : Nat) (stack : List Frame)
  /-- The header of a composition is read. -/
  | header (encoding : CompositionLayout) (composition : Address)
  /-- A word behind the header of a composition is read. -/
  | trailing (position : Nat)
  /-- The position behind a superclass constraint is checked to have an address. -/
  | locate (position : Nat)

/-- The record that a search inspects next: none where every open list is spent, and none where the
records have run out. -/
def nextRecord? : (recordsLeft : Nat) → List Frame → Option Frame
  | 0, _ => none
  | _ + 1, stack => (stack.dropWhile Frame.isSpent).head?

namespace Step

/-- The record that is inspected in a step. -/
def record? : Step → Option Frame
  | .search _ recordsLeft stack => nextRecord? recordsLeft stack
  | _ => none

/-- What memory is asked for in a step. -/
def events (inspector : Inspector) (reader : Reader) : Step → List Probe.Event
  | .typeOf object => (inspector.typeOf object).events reader
  | .ascend _ _ type =>
      (inspector.layout.follow type inspector.layout.superclass).events reader
  | .declare type =>
      (inspector.layout.follow type inspector.layout.conformances).events reader
  | .enter _ list => (inspector.openList list).events reader
  | .search target recordsLeft stack =>
      match nextRecord? recordsLeft stack with
      | some frame => (inspector.inspect target frame.list frame.next).events reader
      | none => []
  | .header encoding composition => (inspector.readHeader encoding composition).events reader
  | .trailing position => (inspector.layout.readPointer position).events reader
  | .locate position => (Probe.locate position).events reader

end Step

namespace Inspector

variable (inspector : Inspector) (reader : Reader)

/-- The steps of opening a list on top of others. -/
def enterSteps (list : Address) (stack : List Frame) : List Step :=
  if inspector.limits.effectiveDepth < stack.length then [] else [.enter stack.length list]

/-- The steps of the search through the open lists. -/
def searchSteps (target : Address) : (recordsLeft : Nat) → List Frame → Anomalies → List Step
  | recordsLeft, stack, seen =>
      .search target recordsLeft stack ::
        match stack.dropWhile Frame.isSpent with
        | [] => []
        | frame :: below =>
            match recordsLeft with
            | 0 => []
            | recordsLeft + 1 =>
                let stack := frame.advance :: below
                match (inspector.inspect target frame.list frame.next).run reader with
                | .target => []
                | .leaf => searchSteps target recordsLeft stack seen
                | .unreadable => searchSteps target recordsLeft stack (seen.insert .invalidRead)
                | .nested list =>
                    let entered := (inspector.descend list stack seen).run reader
                    inspector.enterSteps list stack ++
                      searchSteps target recordsLeft entered.1 entered.2

/-- The steps of the search through a list and the lists nested below it. -/
def listSteps (target list : Address) (trace : Trace) : List Step :=
  let entered := (inspector.descend list [] trace.anomalies).run reader
  inspector.enterSteps list [] ++
    inspector.searchSteps reader target trace.recordsLeft entered.1 entered.2

/-- The steps of the search through the list of a type. -/
def typeSteps (target type : Address) (search : Search) : List Step :=
  .declare type ::
    match (inspector.metadata reader).conformances? type with
    | none => []
    | some list =>
        if list = 0 then [] else inspector.listSteps reader target list search.trace

/-- The steps of a climb whose visitor takes some steps at each type. -/
def climbSteps {σ : Type} (visit : Address → σ → Probe (ForInStep σ))
    (visitSteps : Address → σ → List Step) :
    (hopsLeft : Nat) → Marker → (type : Address) → σ → List Step
  | hopsLeft, marker, type, state =>
      .ascend hopsLeft marker type ::
        match (inspector.metadata reader).superclass? type with
        | none => visitSteps type state
        | some superclass =>
            if superclass = 0 then visitSteps type state
            else
              match hopsLeft with
              | 0 => visitSteps type state
              | hopsLeft + 1 =>
                  if superclass = marker.type then visitSteps type state
                  else
                    visitSteps type state ++
                      match (visit type state).run reader with
                      | .done _ => []
                      | .yield state =>
                          climbSteps visit visitSteps hopsLeft (marker.advance superclass)
                            superclass state

/-- The steps of the search of an ancestry. -/
def ancestrySteps (target type : Address) (trace : Trace) : List Step :=
  inspector.climbSteps reader (inspector.searchType target) (inspector.typeSteps reader target)
    inspector.limits.superclassHops (.start type) type ⟨.absent, trace⟩

/-- The steps of looking for a type in an ancestry. -/
def inheritSteps (type ancestor : Address) : List Step :=
  inspector.climbSteps reader
    (fun current (_ : Bool) => pure (if current = ancestor then .done true else .yield false))
    (fun _ _ => []) inspector.limits.superclassHops (.start type) type false

/-- The steps of checking a superclass constraint. -/
def constraintSteps (type : Address) (position : Nat) (trace : Trace) : List Step :=
  .trailing position ::
    match (inspector.metadata reader).pointer? position with
    | none => []
    | some superclass =>
        let next := Step.locate (position + inspector.layout.pointerWidth.bytes)
        if superclass = 0 then [next]
        else
          inspector.inheritSteps reader type superclass ++
            if ((inspector.inheritsFrom type superclass trace).run reader).1 then [next] else []

/-- The steps of checking the references from a position on. -/
def referenceSteps (encoding : CompositionLayout) (type : Address) :
    (remaining position : Nat) → Trace → List Step
  | 0, _, _ => []
  | remaining + 1, position, trace =>
      .trailing position ::
        match (inspector.metadata reader).pointer? position with
        | none => []
        | some reference =>
            let protocol := reference &&& encoding.protocolMask
            if protocol = 0 then []
            else
              let outcome := (inspector.searchAncestry protocol type trace).run reader
              inspector.ancestrySteps reader protocol type trace ++
                if outcome.1 then
                  referenceSteps encoding type remaining
                    (position + inspector.layout.pointerWidth.bytes) outcome.2
                else []

/-- The steps of checking a type against a composition. -/
def requirementSteps (encoding : CompositionLayout) (header : CompositionHeader)
    (composition type : Address) : List Step :=
  let trailing := Address.plus composition encoding.trailingOffset
  let start := Trace.start inspector.limits
  if header.flags.hasSuperclass then
    let outcome := (inspector.meetsConstraint type trailing start).run reader
    inspector.constraintSteps reader type trailing start ++
      if outcome.1 then
        inspector.referenceSteps reader encoding type header.count
          (trailing + inspector.layout.pointerWidth.bytes) outcome.2
      else []
  else inspector.referenceSteps reader encoding type header.count trailing start

/-- The steps that begin with the type of an object and go on with a type that is not null. -/
def objectSteps (object : Address) (steps : Address → List Step) : List Step :=
  .typeOf object ::
    match (inspector.metadata reader).objectType? object with
    | none => []
    | some type => if type = 0 then [] else steps type

/-- The steps of a query. -/
def querySteps : Query → List Step
  | .ofObject object protocol =>
      if object = 0 ∨ protocol = 0 then []
      else
        inspector.objectSteps reader object fun type =>
          inspector.ancestrySteps reader protocol type (.start inspector.limits)
  | .ofType type protocol =>
      if type = 0 ∨ protocol = 0 then []
      else inspector.ancestrySteps reader protocol type (.start inspector.limits)
  | .ofComposition object composition =>
      if object = 0 ∨ composition = 0 then []
      else
        match inspector.layout.composition with
        | none => []
        | some encoding =>
            .header encoding composition ::
              match (inspector.readHeader encoding composition).run reader with
              | .error _ => []
              | .ok header =>
                  if header.count = 0 ∧ header.flags.hasSuperclass = false then []
                  else
                    inspector.objectSteps reader object
                      (inspector.requirementSteps reader encoding header composition)

variable {inspector reader}

theorem events_descend (list : Address) (stack : List Frame) (seen : Anomalies) :
    (inspector.descend list stack seen).events reader =
      (inspector.enterSteps list stack).flatMap (Step.events inspector reader) := by
  unfold descend enterSteps
  split_ifs with hDeep
  · rfl
  · simp only [Probe.events_bind, List.flatMap_singleton, Step.events]
    cases (inspector.openList list).run reader <;> simp

theorem events_scan (target : Address) (left : Nat) (stack : List Frame) (seen : Anomalies) :
    (inspector.scan target left stack seen).events reader =
      (inspector.searchSteps reader target left stack seen).flatMap
        (Step.events inspector reader) := by
  induction left generalizing stack seen with
  | zero =>
      unfold scan searchSteps
      cases stack.dropWhile Frame.isSpent <;> simp [Step.events, nextRecord?]
  | succ left ih =>
      unfold scan searchSteps
      rw [List.flatMap_cons]
      simp only [Step.events, nextRecord?]
      cases stack.dropWhile Frame.isSpent with
      | nil => rfl
      | cons frame below =>
          simp only [Probe.events_bind, List.head?_cons]
          congr 1
          cases (inspector.inspect target frame.list frame.next).run reader with
          | target => rfl
          | leaf => exact ih _ _
          | unreadable => exact ih _ _
          | nested list =>
              simp only [Probe.events_bind, List.flatMap_append, ← events_descend list _ seen]
              congr 1
              exact ih _ _

theorem events_scanList (target list : Address) (trace : Trace) :
    (inspector.scanList target list trace).events reader =
      (inspector.listSteps reader target list trace).flatMap (Step.events inspector reader) := by
  unfold scanList listSteps
  rw [Probe.events_bind, List.flatMap_append, ← events_descend list [] trace.anomalies]
  congr 1
  exact events_scan target _ _ _

theorem events_searchType (target type : Address) (search : Search) :
    (inspector.searchType target type search).events reader =
      (inspector.typeSteps reader target type search).flatMap
        (Step.events inspector reader) := by
  unfold searchType typeSteps
  simp only [Probe.events_bind, List.flatMap_cons, Step.events, Metadata.conformances?,
    Metadata.field?, metadata]
  congr 1
  cases (inspector.layout.follow type inspector.layout.conformances).run reader with
  | none => rfl
  | some list =>
      dsimp only
      split_ifs with hNull
      · rfl
      · rw [Probe.events_bind, ← events_scanList]
        cases ((inspector.scanList target list search.trace).run reader).1 <;> simp

theorem events_climb {σ : Type} {visit : Address → σ → Probe (ForInStep σ)}
    {visitSteps : Address → σ → List Step}
    (hVisit : ∀ type state, (visit type state).events reader =
      (visitSteps type state).flatMap (Step.events inspector reader))
    (hopsLeft : Nat) (marker : Marker) (type : Address) (state : σ) :
    (inspector.climb visit hopsLeft marker type state).events reader =
      (inspector.climbSteps reader visit visitSteps hopsLeft marker type state).flatMap
        (Step.events inspector reader) := by
  induction hopsLeft generalizing marker type state with
  | zero =>
      unfold climb climbSteps
      simp only [Probe.events_bind, List.flatMap_cons, Step.events, Metadata.superclass?,
        Metadata.field?, metadata]
      congr 1
      cases (inspector.layout.follow type inspector.layout.superclass).run reader with
      | none => simp [hVisit]
      | some superclass =>
          dsimp only
          split_ifs <;> simp [hVisit]
  | succ hopsLeft ih =>
      unfold climb climbSteps
      simp only [Probe.events_bind, List.flatMap_cons, Step.events, Metadata.superclass?,
        Metadata.field?, metadata]
      congr 1
      cases (inspector.layout.follow type inspector.layout.superclass).run reader with
      | none => simp [hVisit]
      | some superclass =>
          dsimp only
          split_ifs
          · simp [hVisit]
          · simp [hVisit]
          · rw [Probe.events_bind, List.flatMap_append, hVisit]
            congr 1
            cases (visit type state).run reader with
            | done state => rfl
            | yield state => exact ih _ _ state

theorem events_searchAncestry (target type : Address) (trace : Trace) :
    (inspector.searchAncestry target type trace).events reader =
      (inspector.ancestrySteps reader target type trace).flatMap
        (Step.events inspector reader) := by
  unfold searchAncestry visitAncestry ancestrySteps
  rw [Probe.events_bind, events_climb (events_searchType target)]
  exact List.append_nil _

theorem events_inheritsFrom (type ancestor : Address) (trace : Trace) :
    (inspector.inheritsFrom type ancestor trace).events reader =
      (inspector.inheritSteps reader type ancestor).flatMap (Step.events inspector reader) := by
  have hSeek (current : Address) (_ : Bool) :
      Probe.events reader (pure (if current = ancestor then ForInStep.done true
        else .yield false)) = [].flatMap (Step.events inspector reader) := rfl
  unfold inheritsFrom visitAncestry inheritSteps
  rw [Probe.events_bind, events_climb hSeek]
  exact List.append_nil _

theorem events_confirmRoom (position : Nat) (outcome : Bool × Trace) :
    (inspector.confirmRoom position outcome).events reader =
      (if outcome.1 then [Step.locate (position + inspector.layout.pointerWidth.bytes)]
        else []).flatMap (Step.events inspector reader) := by
  unfold confirmRoom
  split_ifs
  · rw [Probe.events_bind, List.flatMap_singleton, Step.events]
    cases (Probe.locate _).run reader <;> exact List.append_nil _
  · rfl

theorem events_meetsConstraint (type : Address) (position : Nat) (trace : Trace) :
    (inspector.meetsConstraint type position trace).events reader =
      (inspector.constraintSteps reader type position trace).flatMap
        (Step.events inspector reader) := by
  unfold meetsConstraint constraintSteps
  simp only [Probe.events_bind, List.flatMap_cons, Step.events, Metadata.pointer?, metadata]
  congr 1
  cases (inspector.layout.readPointer position).run reader with
  | none => rfl
  | some superclass =>
      dsimp only
      by_cases hNull : superclass = 0
      · rw [if_pos hNull, if_pos hNull, Probe.events_bind]
        exact events_confirmRoom position (true, trace)
      · rw [if_neg hNull, if_neg hNull, Probe.events_bind, List.flatMap_append,
          events_inheritsFrom]
        congr 1
        exact events_confirmRoom position _

theorem events_meetsProtocols (encoding : CompositionLayout) (type : Address)
    (remaining position : Nat) (trace : Trace) :
    (inspector.meetsProtocols encoding type remaining position trace).events reader =
      (inspector.referenceSteps reader encoding type remaining position trace).flatMap
        (Step.events inspector reader) := by
  induction remaining generalizing position trace with
  | zero => rfl
  | succ remaining ih =>
      unfold meetsProtocols referenceSteps
      simp only [Probe.events_bind, List.flatMap_cons, Step.events, Metadata.pointer?, metadata]
      congr 1
      cases (inspector.layout.readPointer position).run reader with
      | none => rfl
      | some reference =>
          dsimp only
          split_ifs with hNull hFound
          · rfl
          · rw [Probe.events_bind, List.flatMap_append, events_searchAncestry]
            simp only [hFound, if_true]
            congr 1
            exact ih _ _
          · rw [Probe.events_bind, List.flatMap_append, events_searchAncestry]
            simp only [hFound]
            rfl

theorem events_typeOf_bind {object : Address} {next : Except Anomaly Address → Probe Verdict}
    {steps : Address → List Step}
    (hError : ∀ reason, (next (.error reason)).events reader = [])
    (hOk : ∀ type, (next (.ok type)).events reader =
      (steps type).flatMap (Step.events inspector reader)) :
    (inspector.typeOf object >>= next).events reader =
      (inspector.objectSteps reader object steps).flatMap (Step.events inspector reader) := by
  unfold objectSteps
  rw [Probe.events_bind, List.flatMap_cons, Step.events, run_typeOf]
  congr 1
  cases (inspector.metadata reader).objectType? object with
  | none => exact hError _
  | some type =>
      dsimp only
      split_ifs
      · exact hError _
      · exact hOk type

theorem events_requirements (encoding : CompositionLayout) (header : CompositionHeader)
    (composition type : Address) :
    Probe.events reader (do
      let trace := Trace.start inspector.limits
      let position := Address.plus composition encoding.trailingOffset
      if header.flags.hasSuperclass then
        let (met, trace) ← inspector.meetsConstraint type position trace
        if met then
          inspector.meetsProtocols encoding type header.count
            (position + inspector.layout.pointerWidth.bytes) trace
        else pure (trace.finish false)
      else inspector.meetsProtocols encoding type header.count position trace) =
    (inspector.requirementSteps reader encoding header composition type).flatMap
      (Step.events inspector reader) := by
  unfold requirementSteps
  dsimp only
  split_ifs with hSuperclass hMet
  · rw [Probe.events_bind, List.flatMap_append, events_meetsConstraint]
    simp only [hMet, if_true]
    congr 1
    exact events_meetsProtocols _ _ _ _ _
  · rw [Probe.events_bind, List.flatMap_append, events_meetsConstraint]
    simp only [hMet]
    rfl
  · exact events_meetsProtocols _ _ _ _ _

/-- Memory is asked for what the steps of a query ask for, in their order, and for nothing else. -/
theorem events_query (query : Query) :
    (query.probe inspector).events reader =
      (inspector.querySteps reader query).flatMap (Step.events inspector reader) := by
  cases query with
  | ofObject object protocol =>
      unfold Query.probe querySteps verdict
      dsimp only
      split_ifs
      · rfl
      · refine events_typeOf_bind (fun _ => rfl) fun type => ?_
        dsimp only
        rw [Probe.events_bind, events_searchAncestry]
        exact List.append_nil _
  | ofType type protocol =>
      unfold Query.probe querySteps typeVerdict
      dsimp only
      split_ifs
      · rfl
      · rw [Probe.events_bind, events_searchAncestry]
        exact List.append_nil _
  | ofComposition object composition =>
      unfold Query.probe querySteps compositionVerdict
      dsimp only
      split_ifs
      · rfl
      · cases inspector.layout.composition with
        | none => rfl
        | some encoding =>
            dsimp only
            rw [Probe.events_bind, List.flatMap_cons, Step.events]
            congr 1
            cases (inspector.readHeader encoding composition).run reader with
            | error reason => rfl
            | ok header =>
                dsimp only
                by_cases hEmpty : header.count = 0 ∧ header.flags.hasSuperclass = false
                · rw [if_pos hEmpty, if_pos hEmpty]
                  rfl
                · rw [if_neg hEmpty, if_neg hEmpty]
                  refine events_typeOf_bind (fun _ => rfl) fun type => ?_
                  exact events_requirements encoding header composition type

end Inspector

end Conformance
