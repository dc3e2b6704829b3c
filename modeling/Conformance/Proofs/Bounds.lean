import Conformance.Proofs.Itinerary
import Conformance.Proofs.Reads
/-! Bounds on a query, whatever memory admits. Every counter of every loop stays in range, every
inspected record is paid for out of the records allowed for the whole query, and the number of steps
follows from the limits alone. Each part of a query is accounted for on its own; the accounts of the
parts add up. -/
namespace Conformance

theorem Address.plus_pos {base : Address} (hBase : base ≠ 0) (offset : UInt64) :
    0 < Address.plus base offset := by
  have hPos := UInt64.lt_iff_toNat_lt.mp (UInt64.pos_iff_ne_zero.mpr hBase)
  exact Nat.lt_of_lt_of_le hPos (Nat.le_add_right _ _)

/-- The position in a list lies in it, and its number of records is a word. -/
def Frame.Fits (frame : Frame) : Prop :=
  frame.next ≤ frame.count ∧ frame.count < UInt64.size

/-- The counters of a marker are words, and the marker is moved before its reach is passed. -/
def Marker.Fits (marker : Marker) : Prop :=
  marker.passed < marker.reach ∧ marker.reach < UInt64.size

/-- The marker on a chain keeps count of the types that have been passed: its counters and the hops
left add up to one more than the hops allowed. -/
structure Marker.Tracks (limits : Limits) (hopsLeft : Nat) (marker : Marker) : Prop where
  passed : marker.passed < marker.reach
  sum : marker.reach + marker.passed + hopsLeft = limits.superclassHops + 1

namespace Marker.Tracks

variable {limits : Limits} {hopsLeft : Nat} {marker : Marker}

theorem start (type : Address) : (Marker.start type).Tracks limits limits.superclassHops :=
  ⟨Nat.one_pos, Nat.add_comm _ _⟩

theorem advance (tracks : marker.Tracks limits (hopsLeft + 1)) (next : Address) :
    (marker.advance next).Tracks limits hopsLeft := by
  obtain ⟨hPassed, hSum⟩ := tracks
  unfold Marker.advance
  split_ifs with hMoves
  · exact ⟨by dsimp only; omega, by dsimp only; omega⟩
  · exact ⟨by dsimp only; omega, by dsimp only; omega⟩

/-- The reach of a marker is at most the number of types passed, which is a word. -/
theorem fits (tracks : marker.Tracks limits hopsLeft) (hHops : limits.superclassHops ≤ 2 ^ 63) :
    marker.Fits := by
  have hSize : UInt64.size = 2 ^ 64 := rfl
  have hSum := tracks.sum
  exact ⟨tracks.passed, by omega⟩

end Marker.Tracks

/-- Open lists as they can occur within some limits: not more than may be open, each with its
position in it. -/
def Limits.Admits (limits : Limits) (stack : List Frame) : Prop :=
  stack.length ≤ limits.effectiveDepth + 1 ∧ ∀ frame ∈ stack, frame.list ≠ 0 ∧ frame.Fits

/-- A record that is inspected is one of an open list, which is not spent, and one of the records
left. -/
theorem mem_of_nextRecord? {recordsLeft : Nat} {stack : List Frame} {frame : Frame}
    (hNext : nextRecord? recordsLeft stack = some frame) :
    frame ∈ stack ∧ 0 < recordsLeft ∧ frame.next < frame.count := by
  cases recordsLeft with
  | zero => cases hNext
  | succ left =>
      obtain ⟨below, top⟩ := List.head?_eq_some_iff.mp hNext
      have hMem : frame ∈ stack.dropWhile Frame.isSpent := top ▸ List.mem_cons_self
      exact ⟨(List.dropWhile_sublist _).subset hMem, Nat.succ_pos _, Inspector.next_lt_count top⟩

namespace Step

/-- What holds of every step: it starts from addresses that are not null, no loop is past its bound,
and the counters of the marker on a chain add up to the number of types passed. -/
def Sound (limits : Limits) : Step → Prop
  | .typeOf object => object ≠ 0
  | .ascend hopsLeft marker type => type ≠ 0 ∧ marker.Tracks limits hopsLeft
  | .declare type => type ≠ 0
  | .enter height list => list ≠ 0 ∧ height ≤ limits.effectiveDepth
  | .search _ recordsLeft stack =>
      recordsLeft ≤ limits.recordsVisited ∧ limits.Admits stack
  | .header _ composition => composition ≠ 0
  | .trailing position => 0 < position
  | .locate _ => True

/-- The counters of the loop that takes a step are in range, and stay so when it goes on. -/
def InRange (limits : Limits) : Step → Prop
  | .ascend hopsLeft marker _ =>
      hopsLeft ≤ limits.superclassHops ∧ marker.Fits ∧
        (hopsLeft ≠ 0 → ∀ next, (marker.advance next).Fits)
  | .enter height _ => height ≤ limits.effectiveDepth ∧ height < nestingCapacity + 1
  | .search _ recordsLeft stack =>
      recordsLeft ≤ limits.recordsVisited ∧ stack.length ≤ limits.effectiveDepth + 1 ∧
        stack.length ≤ nestingCapacity + 1 ∧ (∀ frame ∈ stack, frame.Fits) ∧
        ∀ frame, nextRecord? recordsLeft stack = some frame → 0 < recordsLeft ∧ frame.advance.Fits
  | _ => True

/-- Whether a record is inspected in a step. -/
def inspects (step : Step) : Bool := step.record?.isSome

theorem Sound.inRange {limits : Limits} {step : Step} (sound : step.Sound limits)
    (hHops : limits.superclassHops ≤ 2 ^ 63) : step.InRange limits := by
  have hDepth := limits.effectiveDepth_le
  cases step with
  | ascend hopsLeft marker type =>
      obtain ⟨-, tracks⟩ := sound
      have hSum := tracks.sum
      have hPassed := tracks.passed
      refine ⟨by omega, tracks.fits hHops, fun hLeft next => ?_⟩
      obtain ⟨rest, rfl⟩ := Nat.exists_eq_succ_of_ne_zero hLeft
      exact (tracks.advance next).fits hHops
  | enter height list => exact ⟨sound.2, by have := sound.2; omega⟩
  | search target recordsLeft stack =>
      obtain ⟨hLeft, hHeight, hFrames⟩ := sound
      have hFits : ∀ frame ∈ stack, frame.Fits := fun frame h => (hFrames frame h).2
      refine ⟨hLeft, hHeight, by omega, hFits, fun frame hNext => ?_⟩
      obtain ⟨hMem, hRecord, hCount⟩ := mem_of_nextRecord? hNext
      exact ⟨hRecord, hCount, (hFits frame hMem).2⟩
  | _ => trivial

end Step

/-- The account of some steps that start with `before` records left and end with `after`: each
record that is inspected is paid for, and apart from two steps for each record there are no more
steps than `toll`. -/
structure Accounts (limits : Limits) (steps : List Step) (before after toll : Nat) : Prop where
  sound : ∀ step ∈ steps, step.Sound limits
  paid : steps.countP Step.inspects + after = before
  short : steps.length ≤ toll + 2 * steps.countP Step.inspects

namespace Accounts

variable {limits : Limits} {steps first second : List Step} {before between after toll other : Nat}

theorem nil : Accounts limits [] before before 0 :=
  ⟨nofun, Nat.zero_add _, Nat.zero_le _⟩

theorem append (earlier : Accounts limits first before between toll)
    (later : Accounts limits second between after other) :
    Accounts limits (first ++ second) before after (toll + other) := by
  obtain ⟨hFirst, paid, short⟩ := earlier
  obtain ⟨hSecond, hPaid, hShort⟩ := later
  refine ⟨List.forall_mem_append.mpr ⟨hFirst, hSecond⟩, ?_, ?_⟩
  · rw [List.countP_append]
    omega
  · rw [List.countP_append, List.length_append]
    omega

theorem mono (accounts : Accounts limits steps before after toll) (hToll : toll ≤ other) :
    Accounts limits steps before after other :=
  ⟨accounts.sound, accounts.paid, Nat.le_trans accounts.short (Nat.add_le_add_right hToll _)⟩

/-- A step that inspects no record. -/
theorem cons {step : Step} (rest : Accounts limits steps before after toll)
    (hSound : step.Sound limits) (hNone : step.inspects = false) :
    Accounts limits (step :: steps) before after (toll + 1) := by
  obtain ⟨sound, paid, short⟩ := rest
  refine ⟨List.forall_mem_cons.mpr ⟨hSound, sound⟩, ?_, ?_⟩
  · rw [List.countP_cons_of_neg (by simp [hNone])]
    exact paid
  · rw [List.countP_cons_of_neg (by simp [hNone]), List.length_cons]
    omega

/-- A step up a chain of superclasses. -/
theorem ascend {hopsLeft : Nat} {marker : Marker} {type : Address}
    (rest : Accounts limits steps before after toll) (hType : type ≠ 0)
    (tracks : marker.Tracks limits hopsLeft) :
    Accounts limits (.ascend hopsLeft marker type :: steps) before after (toll + 1) :=
  rest.cons ⟨hType, tracks⟩ rfl

/-- A step that inspects a record. It leaves room for two steps after it. -/
theorem inspect {step : Step} (rest : Accounts limits steps before after (toll + 1))
    (hSound : step.Sound limits) (hInspects : step.inspects = true) :
    Accounts limits (step :: steps) (before + 1) after toll := by
  obtain ⟨sound, paid, short⟩ := rest
  refine ⟨List.forall_mem_cons.mpr ⟨hSound, sound⟩, ?_, ?_⟩
  · rw [List.countP_cons_of_pos hInspects]
    omega
  · rw [List.countP_cons_of_pos hInspects, List.length_cons]
    omega

theorem after_le (accounts : Accounts limits steps before after toll) : after ≤ before := by
  have := accounts.paid
  omega

end Accounts

/-- An upper bound on the number of steps of a query. -/
def Limits.steps (limits : Limits) : Nat :=
  2 * limits.recordsVisited + (limits.listEntries + 2) * (4 * limits.superclassHops + 5)

namespace Inspector

variable {inspector : Inspector} {reader : Reader}

theorem accounts_enterSteps {list : Address} (hList : list ≠ 0) (stack : List Frame)
    (left : Nat) :
    Accounts inspector.limits (inspector.enterSteps list stack) left left 1 := by
  unfold enterSteps
  split_ifs with hDeep
  · exact Accounts.nil.mono (Nat.zero_le _)
  · exact Accounts.nil.cons ⟨hList, Nat.not_lt.mp hDeep⟩ rfl

theorem fits_of_openList {list : Address} {frame : Frame}
    (opened : (inspector.openList list).run reader = .frame frame) : frame.Fits := by
  rw [run_openList] at opened
  split at opened
  · cases opened
  · rename_i count _
    split_ifs at opened
    cases opened
    exact ⟨Nat.zero_le _, count.toNat_lt_size⟩

theorem admits_advance {stack below : List Frame} {frame : Frame}
    (admits : inspector.limits.Admits stack)
    (top : stack.dropWhile Frame.isSpent = frame :: below) :
    inspector.limits.Admits (frame.advance :: below) := by
  have hRest : (frame :: below).Sublist stack := top ▸ List.dropWhile_sublist _
  have hNext := next_lt_count top
  obtain ⟨⟨hList, -, hCount⟩, hBelow⟩ :=
    List.forall_mem_cons.mp fun frame h => admits.2 frame (hRest.subset h)
  refine ⟨Nat.le_trans hRest.length_le admits.1, List.forall_mem_cons.mpr ⟨⟨hList, ?_⟩, hBelow⟩⟩
  exact ⟨hNext, hCount⟩

theorem ne_zero_of_nested {target list nested : Address} {index : Nat}
    (sighted : (inspector.inspect target list index).run reader = .nested nested) : nested ≠ 0 := by
  rw [run_inspect] at sighted
  split at sighted
  · cases sighted
  · split_ifs at sighted
    split at sighted
    · cases sighted
    · split_ifs at sighted with hNull
      cases sighted
      exact hNull

variable (reader)

/-- Opening a list on top of open lists leaves them as they can occur. -/
theorem admits_descend {list : Address} {stack : List Frame} (hList : list ≠ 0)
    (admits : inspector.limits.Admits stack) (seen : Anomalies) :
    inspector.limits.Admits ((inspector.descend list stack seen).run reader).1 := by
  rw [run_descend]
  split_ifs with hDeep
  · exact admits
  · cases hOpen : (inspector.openList list).run reader with
    | frame frame =>
        refine ⟨?_, List.forall_mem_cons.mpr ⟨⟨?_, fits_of_openList hOpen⟩, admits.2⟩⟩
        · rw [List.length_cons]
          omega
        · rwa [(frame_of_openList hOpen).1]
    | empty => exact admits
    | refused reason => exact admits

theorem accounts_searchSteps (target : Address) {left : Nat} {stack : List Frame}
    (hLeft : left ≤ inspector.limits.recordsVisited) (admits : inspector.limits.Admits stack)
    (seen : Anomalies) :
    Accounts inspector.limits (inspector.searchSteps reader target left stack seen) left
      ((inspector.scan target left stack seen).run reader).2.recordsLeft 1 := by
  induction left generalizing stack seen with
  | zero =>
      unfold searchSteps scan
      cases top : stack.dropWhile Frame.isSpent with
      | nil => exact Accounts.nil.cons ⟨hLeft, admits⟩ rfl
      | cons frame below => exact Accounts.nil.cons ⟨hLeft, admits⟩ rfl
  | succ left ih =>
      unfold searchSteps scan
      cases top : stack.dropWhile Frame.isSpent with
      | nil =>
          refine Accounts.nil.cons ⟨hLeft, admits⟩ ?_
          simp [Step.inspects, Step.record?, nextRecord?, top]
      | cons frame below =>
          have hInspects : (Step.search target (left + 1) stack).inspects = true := by
            simp [Step.inspects, Step.record?, nextRecord?, top]
          have hRest : left ≤ inspector.limits.recordsVisited := Nat.le_of_succ_le hLeft
          have advanced := admits_advance admits top
          simp only [Probe.run_bind]
          cases sighted : (inspector.inspect target frame.list frame.next).run reader with
          | target =>
              exact (Accounts.nil.mono (Nat.zero_le _)).inspect ⟨hLeft, admits⟩ hInspects
          | leaf =>
              exact ((ih hRest advanced seen).mono (by decide)).inspect ⟨hLeft, admits⟩ hInspects
          | unreadable =>
              exact ((ih hRest advanced _).mono (by decide)).inspect ⟨hLeft, admits⟩ hInspects
          | nested list =>
              have hList := ne_zero_of_nested sighted
              have entered := admits_descend reader hList advanced seen
              simp only [Probe.run_bind]
              exact ((accounts_enterSteps hList _ left).append (ih hRest entered _)).inspect
                ⟨hLeft, admits⟩ hInspects

theorem accounts_listSteps (target : Address) {list : Address} (hList : list ≠ 0) {trace : Trace}
    (hLeft : trace.recordsLeft ≤ inspector.limits.recordsVisited) :
    Accounts inspector.limits (inspector.listSteps reader target list trace) trace.recordsLeft
      ((inspector.scanList target list trace).run reader).2.recordsLeft 2 := by
  have hEmpty : inspector.limits.Admits [] := ⟨Nat.zero_le _, nofun⟩
  unfold listSteps scanList
  rw [Probe.run_bind]
  exact (accounts_enterSteps hList _ _).append
    (accounts_searchSteps reader target hLeft (admits_descend reader hList hEmpty _) _)

theorem accounts_typeSteps (target : Address) {type : Address} (hType : type ≠ 0) {search : Search}
    (hLeft : search.trace.recordsLeft ≤ inspector.limits.recordsVisited) :
    Accounts inspector.limits (inspector.typeSteps reader target type search)
      search.trace.recordsLeft
      (inspector.visitType reader target type search).value.trace.recordsLeft 3 := by
  rw [visitType_eq]
  have hSound : (Step.declare type).Sound inspector.limits := hType
  unfold typeSteps
  cases (inspector.metadata reader).conformances? type with
  | none => exact (Accounts.nil.cons hSound rfl).mono (by decide)
  | some list =>
      dsimp only
      split_ifs with hNull hAbsent
      · exact (Accounts.nil.cons hSound rfl).mono (by decide)
      all_goals exact (accounts_listSteps reader target hNull hLeft).cons hSound rfl

/-- Climbing a chain costs one step for each type and what its visitor costs there. -/
theorem accounts_climbSteps {σ : Type} {visit : Address → σ → Probe (ForInStep σ)}
    {visitSteps : Address → σ → List Step} (records : σ → Nat) {toll : Nat}
    (hVisit : ∀ type state, type ≠ 0 → records state ≤ inspector.limits.recordsVisited →
      Accounts inspector.limits (visitSteps type state) (records state)
        (records ((visit type state).run reader).value) toll)
    {hopsLeft : Nat} {marker : Marker} {type : Address} {state : σ} (hType : type ≠ 0)
    (tracks : marker.Tracks inspector.limits hopsLeft)
    (hLeft : records state ≤ inspector.limits.recordsVisited) :
    Accounts inspector.limits
      (inspector.climbSteps reader visit visitSteps hopsLeft marker type state) (records state)
      (records ((inspector.climb visit hopsLeft marker type state).run reader).1)
      ((hopsLeft + 1) * (toll + 1)) := by
  rw [run_climb]
  fun_induction inspector.lineageFrom reader hopsLeft marker type generalizing state with
  | case5 marker type superclass hSuperclass hNonnull hopsLeft hMarked ih =>
      have here := hVisit type state hType hLeft
      unfold climbSteps
      rw [hSuperclass]
      dsimp only
      rw [if_neg hNonnull, if_neg hMarked, Lineage.visit_after]
      cases hStep : (visit type state).run reader with
      | done after =>
          rw [hStep] at here
          rw [List.append_nil]
          exact (here.ascend hType tracks).mono (Nat.le_mul_of_pos_left _ (Nat.succ_pos _))
      | yield after =>
          rw [hStep] at here
          have later := ih hNonnull (tracks.advance superclass)
            (Nat.le_trans here.after_le hLeft)
          refine ((here.append later).ascend hType tracks).mono ?_
          rw [Nat.succ_mul (hopsLeft + 1)]
          omega
  | _ =>
      have last := (hVisit _ state hType hLeft).ascend hType tracks
      unfold climbSteps
      simp only [*, Lineage.visit_singleton]
      exact last.mono (Nat.le_mul_of_pos_left _ (Nat.succ_pos _))

theorem accounts_ancestrySteps (target : Address) {type : Address} (hType : type ≠ 0)
    {trace : Trace} (hLeft : trace.recordsLeft ≤ inspector.limits.recordsVisited) :
    Accounts inspector.limits (inspector.ancestrySteps reader target type trace) trace.recordsLeft
      ((inspector.searchAncestry target type trace).run reader).2.recordsLeft
      ((inspector.limits.superclassHops + 1) * 4) := by
  unfold ancestrySteps searchAncestry visitAncestry
  simp only [Probe.run_bind, Probe.run_pure, Trace.recordsLeft_flag?]
  exact accounts_climbSteps reader (fun search : Search => search.trace.recordsLeft)
    (fun _ _ hType hLeft => accounts_typeSteps reader target hType hLeft) hType (.start type) hLeft

theorem accounts_inheritSteps {type : Address} (hType : type ≠ 0) (ancestor : Address) {left : Nat}
    (hLeft : left ≤ inspector.limits.recordsVisited) :
    Accounts inspector.limits (inspector.inheritSteps reader type ancestor) left left
      (inspector.limits.superclassHops + 1) := by
  rw [← Nat.mul_one (inspector.limits.superclassHops + 1)]
  exact accounts_climbSteps reader (fun _ => left) (fun _ _ _ _ => Accounts.nil) hType (.start type)
    hLeft

theorem recordsLeft_inheritsFrom (type ancestor : Address) (trace : Trace) :
    ((inspector.inheritsFrom type ancestor trace).run reader).2.recordsLeft =
      trace.recordsLeft := by
  unfold inheritsFrom
  rw [Probe.run_bind]
  exact Trace.recordsLeft_flag? _ _

/-- Checking a constraint inspects no record. -/
theorem accounts_constraintSteps {type : Address} (hType : type ≠ 0) {position : Nat}
    (hPosition : 0 < position) {trace : Trace}
    (hLeft : trace.recordsLeft ≤ inspector.limits.recordsVisited) :
    Accounts inspector.limits (inspector.constraintSteps reader type position trace)
      trace.recordsLeft
      ((inspector.meetsConstraint type position trace).run reader).2.recordsLeft
      (inspector.limits.superclassHops + 3) := by
  have hSound : (Step.trailing position).Sound inspector.limits := hPosition
  have next : Accounts inspector.limits
      [.locate (position + inspector.layout.pointerWidth.bytes)] trace.recordsLeft
      trace.recordsLeft 1 :=
    Accounts.nil.cons trivial rfl
  rw [run_meetsConstraint]
  unfold constraintSteps
  cases (inspector.metadata reader).pointer? position with
  | none => exact (Accounts.nil.cons hSound rfl).mono (by omega)
  | some superclass =>
      dsimp only
      by_cases hNull : superclass = 0
      · simp only [if_pos hNull]
        have hToll : 1 + 1 ≤ inspector.limits.superclassHops + 3 := by omega
        split_ifs <;> exact (next.cons hSound rfl).mono hToll
      · have inherits := accounts_inheritSteps reader hType superclass hLeft
        have hSame : ((inspector.inheritsFrom type superclass trace).run reader).2.recordsLeft =
            trace.recordsLeft := recordsLeft_inheritsFrom reader type superclass trace
        simp only [if_neg hNull]
        split_ifs with hFound hRoom
        · rw [hSame]
          exact (inherits.append next).cons hSound rfl
        · rw [Trace.flag, hSame]
          exact (inherits.append next).cons hSound rfl
        · rw [hSame, List.append_nil]
          exact (inherits.cons hSound rfl).mono (by omega)

theorem accounts_referenceSteps (encoding : CompositionLayout) {type : Address} (hType : type ≠ 0)
    (remaining : Nat) {position : Nat} (hPosition : 0 < position) {trace : Trace}
    (hLeft : trace.recordsLeft ≤ inspector.limits.recordsVisited) :
    ∃ after, Accounts inspector.limits
      (inspector.referenceSteps reader encoding type remaining position trace) trace.recordsLeft
      after (remaining * (4 * inspector.limits.superclassHops + 5)) := by
  induction remaining generalizing position trace with
  | zero => exact ⟨_, Accounts.nil.mono (Nat.zero_le _)⟩
  | succ remaining ih =>
      have hSound : (Step.trailing position).Sound inspector.limits := hPosition
      unfold referenceSteps
      rw [Nat.succ_mul]
      cases (inspector.metadata reader).pointer? position with
      | none => exact ⟨_, (Accounts.nil.cons hSound rfl).mono (by omega)⟩
      | some reference =>
          have search := accounts_ancestrySteps reader
            (reference &&& encoding.protocolMask) hType hLeft
          dsimp only
          split_ifs with hNull hFound
          · exact ⟨_, (Accounts.nil.cons hSound rfl).mono (by omega)⟩
          · obtain ⟨after, later⟩ := ih (Nat.lt_of_lt_of_le hPosition (Nat.le_add_right _ _))
              (Nat.le_trans search.after_le hLeft)
            exact ⟨after, ((search.append later).cons hSound rfl).mono (by omega)⟩
          · rw [List.append_nil]
            exact ⟨_, (search.cons hSound rfl).mono (by omega)⟩

theorem accounts_requirementSteps (encoding : CompositionLayout) (header : CompositionHeader)
    {composition type : Address} (hComposition : composition ≠ 0) (hType : type ≠ 0) :
    ∃ after, Accounts inspector.limits
      (inspector.requirementSteps reader encoding header composition type)
      inspector.limits.recordsVisited after
      (inspector.limits.superclassHops + 3 +
        header.count * (4 * inspector.limits.superclassHops + 5)) := by
  have hTrailing : 0 < Address.plus composition encoding.trailingOffset :=
    Address.plus_pos hComposition _
  have hStart : (Trace.start inspector.limits).recordsLeft ≤ inspector.limits.recordsVisited :=
    Nat.le_refl _
  have constraint := accounts_constraintSteps reader hType hTrailing hStart
  unfold requirementSteps
  dsimp only
  split_ifs with hSuperclass hMet
  · obtain ⟨after, references⟩ := accounts_referenceSteps reader encoding hType header.count
      (Nat.lt_of_lt_of_le hTrailing (Nat.le_add_right _ _))
      (Nat.le_trans constraint.after_le hStart)
    exact ⟨after, constraint.append references⟩
  · rw [List.append_nil]
    exact ⟨_, constraint.mono (Nat.le_add_right _ _)⟩
  · obtain ⟨after, references⟩ :=
      accounts_referenceSteps reader encoding hType header.count hTrailing hStart
    exact ⟨after, references.mono (Nat.le_add_left _ _)⟩

theorem accounts_objectSteps {object : Address} (hObject : object ≠ 0)
    {steps : Address → List Step} {toll : Nat}
    (hSteps : ∀ type, type ≠ 0 → ∃ after, Accounts inspector.limits (steps type)
      inspector.limits.recordsVisited after toll) :
    ∃ after, Accounts inspector.limits (inspector.objectSteps reader object steps)
      inspector.limits.recordsVisited after (toll + 1) := by
  have hSound : (Step.typeOf object).Sound inspector.limits := hObject
  unfold objectSteps
  cases (inspector.metadata reader).objectType? object with
  | none => exact ⟨_, (Accounts.nil.cons hSound rfl).mono (by omega)⟩
  | some type =>
      dsimp only
      split_ifs with hType
      · exact ⟨_, (Accounts.nil.cons hSound rfl).mono (by omega)⟩
      · obtain ⟨after, accounts⟩ := hSteps type hType
        exact ⟨after, accounts.cons hSound rfl⟩

variable (inspector) in
/-- Whatever is asked of whatever memory, all steps are sound and the records inspected are those
that are paid for. -/
theorem accounts_querySteps (query : Query) :
    ∃ after, Accounts inspector.limits (inspector.querySteps reader query)
      inspector.limits.recordsVisited after
      ((inspector.limits.listEntries + 2) * (4 * inspector.limits.superclassHops + 5)) := by
  have hStart : (Trace.start inspector.limits).recordsLeft ≤ inspector.limits.recordsVisited :=
    Nat.le_refl _
  have hLeast : 4 * inspector.limits.superclassHops + 5 ≤ (inspector.limits.listEntries + 2) *
      (4 * inspector.limits.superclassHops + 5) :=
    Nat.le_mul_of_pos_left _ (Nat.succ_pos _)
  have ancestry (protocol type : Address) (hType : type ≠ 0) := accounts_ancestrySteps reader
    protocol hType hStart
  cases query with
  | ofObject object protocol =>
      unfold querySteps
      dsimp only
      split_ifs with hNull
      · exact ⟨_, Accounts.nil.mono (Nat.zero_le _)⟩
      · obtain ⟨after, accounts⟩ := accounts_objectSteps reader (not_or.mp hNull).1
          fun type hType => ⟨_, ancestry protocol type hType⟩
        exact ⟨after, accounts.mono (by omega)⟩
  | ofType type protocol =>
      unfold querySteps
      dsimp only
      split_ifs with hNull
      · exact ⟨_, Accounts.nil.mono (Nat.zero_le _)⟩
      · exact ⟨_, (ancestry protocol type (not_or.mp hNull).1).mono (by omega)⟩
  | ofComposition object composition =>
      unfold querySteps
      dsimp only
      split_ifs with hNull
      · exact ⟨_, Accounts.nil.mono (Nat.zero_le _)⟩
      · obtain ⟨hObject, hComposition⟩ := not_or.mp hNull
        cases inspector.layout.composition with
        | none => exact ⟨_, Accounts.nil.mono (Nat.zero_le _)⟩
        | some encoding =>
            have hSound : (Step.header encoding composition).Sound inspector.limits := hComposition
            dsimp only
            cases hHeader : (inspector.readHeader encoding composition).run reader with
            | error reason => exact ⟨_, (Accounts.nil.cons hSound rfl).mono (by omega)⟩
            | ok header =>
                dsimp only
                split_ifs
                · exact ⟨_, (Accounts.nil.cons hSound rfl).mono (by omega)⟩
                · obtain ⟨after, accounts⟩ := accounts_objectSteps reader hObject fun type hType =>
                    accounts_requirementSteps reader encoding header hComposition hType
                  have hCount := (readHeader_ok_iff.mp hHeader).bound
                  have hReferences := Nat.mul_le_mul_right
                    (4 * inspector.limits.superclassHops + 5) hCount
                  refine ⟨after, (accounts.cons hSound rfl).mono ?_⟩
                  rw [Nat.add_mul]
                  omega

variable (inspector)

/-- No step asks memory for more than a field at the end of the longest path. -/
theorem length_events_step_le (step : Step) :
    (step.events inspector reader).length ≤ 2 * Path.maxHops := by
  cases step with
  | typeOf object => exact (inspector.asks_typeOf object).length_events_le reader
  | ascend hopsLeft marker type =>
      exact (inspector.layout.asks_follow type _).length_events_le reader
  | declare type => exact (inspector.layout.asks_follow type _).length_events_le reader
  | enter height list =>
      exact ((inspector.asks_openList list).mono (by decide)).length_events_le reader
  | search target left stack =>
      have asks (frame : Frame) :=
        (inspector.asks_inspect target frame.list frame.next).length_events_le reader
      unfold Step.events
      dsimp only
      cases nextRecord? left stack with
      | none => exact Nat.zero_le _
      | some frame => exact Nat.le_trans (asks frame) (by decide)
  | header encoding composition =>
      have asks := inspector.asks_readHeader encoding composition
      exact (asks.mono (by decide)).length_events_le reader
  | trailing position =>
      exact ((Probe.asks_fetch _ _ _).mono (by decide)).length_events_le reader
  | locate position => exact ((Probe.asks_locate position).mono (by decide)).length_events_le reader

theorem length_events_steps_le (steps : List Step) :
    (steps.flatMap (Step.events inspector reader)).length ≤ 2 * Path.maxHops * steps.length := by
  induction steps with
  | nil => exact Nat.zero_le _
  | cons step rest ih =>
      have here := inspector.length_events_step_le reader step
      rw [List.flatMap_cons, List.length_append, List.length_cons, Nat.mul_succ]
      omega

/-- An ancestry has one type more than superclass pointers may be followed. -/
theorem length_types_le (hopsLeft : Nat) (marker : Marker) (type : Address) :
    (inspector.lineageFrom reader hopsLeft marker type).types.length ≤ hopsLeft + 1 := by
  fun_induction inspector.lineageFrom reader hopsLeft marker type with
  | case5 marker type superclass _ _ hopsLeft _ ih =>
      rw [Lineage.types_after, List.length_cons]
      exact Nat.succ_le_succ ih
  | _ => exact Nat.succ_le_succ (Nat.zero_le _)

/-- Whatever memory holds and whatever is asked, a query ends after a number of reads that follows
from the limits, and inspects no more records than the limits allow for all its searches together.
The counters of each of its loops stay in range, and no chain of superclasses that it follows is
longer than the limits allow. -/
theorem query_bounded (hHops : inspector.limits.superclassHops ≤ 2 ^ 63) (query : Query) :
    let steps := inspector.querySteps reader query
    let events := (query.probe inspector).events reader
    events = steps.flatMap (Step.events inspector reader) ∧
      steps.length ≤ inspector.limits.steps ∧
      events.length ≤ 2 * Path.maxHops * inspector.limits.steps ∧
      steps.countP Step.inspects ≤ inspector.limits.recordsVisited ∧
      (∀ step ∈ steps, step.InRange inspector.limits) ∧
      ∀ type,
        (inspector.lineage reader type).types.length ≤ inspector.limits.superclassHops + 1 := by
  intro steps events
  obtain ⟨after, accounts⟩ := inspector.accounts_querySteps reader query
  have hEvents : events = steps.flatMap (Step.events inspector reader) := events_query query
  have hPaid : steps.countP Step.inspects + after = inspector.limits.recordsVisited :=
    accounts.paid
  have hSteps : steps.length ≤ inspector.limits.steps := by
    have hShort : steps.length ≤ _ + 2 * steps.countP Step.inspects := accounts.short
    unfold Limits.steps
    omega
  refine ⟨hEvents, hSteps, ?_, by omega, fun step h => (accounts.sound step h).inRange hHops,
    fun type => inspector.length_types_le reader _ _ type⟩
  have hLength := inspector.length_events_steps_le reader steps
  rw [hEvents]
  exact Nat.le_trans hLength (Nat.mul_le_mul_left _ hSteps)

end Inspector

/-- Two types at `0x20` and `0x40` that are superclasses of each other. Both declare a list that is
nested below its own first record. -/
def knottedMemory : Reader :=
  .ofWords [(0x10, 0x20), (0x28, 0x40), (0x30, 0x60), (0x48, 0x20), (0x50, 0x60), (0x60, 4),
    (0x68, 0x80), (0x70, 0x60)]

theorem query_bounded_knotted :
    let inspector : Inspector := ⟨Runtime.compact64.layout, ⟨5, 100, 8, 40⟩⟩
    let steps := inspector.querySteps knottedMemory (.ofObject 0x10 0x90)
    steps.countP Step.inspects = 40 ∧ steps.length ≤ inspector.limits.steps ∧
      ∀ step ∈ steps, step.InRange inspector.limits := by
  intro inspector steps
  have bounded := inspector.query_bounded knottedMemory (by decide) (.ofObject 0x10 0x90)
  exact ⟨by decide +kernel, bounded.2.1, bounded.2.2.2.2.1⟩

end Conformance
