import Conformance.Proofs.Budget
import Conformance.Proofs.Exactness
/-! Composition queries. The requirements of a composition are checked one after the other on one
budget, and each of them is answered as a query of its own would answer it; so the answer is the
conjunction of the requirements, unless the records run out. -/
namespace Conformance

namespace Metadata

variable (metadata : Metadata)

/-- The pointer-sized word at a position, with all its bits. -/
def word? (position : Nat) : Option UInt64 :=
  (metadata.layout.readWord position).run metadata.reader

/-- The 32-bit field at a position. -/
def half? (position : Nat) : Option UInt32 :=
  (metadata.layout.readHalf position).run metadata.reader

end Metadata

namespace Inspector

variable (inspector : Inspector) (reader : Reader)

/-- A composition has a readable header, for an existential kind and no more references than a list
may declare records. -/
structure Heads (encoding : CompositionLayout) (composition : Address)
    (header : CompositionHeader) : Prop where
  kind : ∃ word,
    (inspector.metadata reader).word? (Address.plus composition encoding.kindOffset) = some word ∧
      Kind.ofWord word = .existential
  flags : (inspector.metadata reader).half? (Address.plus composition encoding.flagsOffset) =
    some header.flags.bits
  count : ∃ count,
    (inspector.metadata reader).half? (Address.plus composition encoding.countOffset) =
      some count ∧ header.count = count.toNat
  bound : header.count ≤ inspector.limits.listEntries

/-- The constraint at a position is null or lies in the ancestry of a type, and the position after
it has an address. -/
def MeetsSuperclass (type : Address) (position : Nat) : Prop :=
  ∃ superclass, (inspector.metadata reader).pointer? position = some superclass ∧
    (superclass = 0 ∨ ∃ hops ≤ inspector.limits.superclassHops,
      (inspector.metadata reader).Ascends hops type superclass) ∧
    position + inspector.layout.pointerWidth.bytes < UInt64.size

/-- The reference at a position names a protocol, and a query of its own finds that a type conforms
to it. -/
def MeetsReference (encoding : CompositionLayout) (type : Address) (position : Nat) : Prop :=
  ∃ reference, (inspector.metadata reader).pointer? position = some reference ∧
    reference &&& encoding.protocolMask ≠ 0 ∧
    ((inspector.typeVerdict type (reference &&& encoding.protocolMask)).run reader).conforms = true

/-- A type meets each of the references from a position on. -/
def MeetsReferences (encoding : CompositionLayout) (type : Address) (count position : Nat) : Prop :=
  ∀ index < count, inspector.MeetsReference reader encoding type
    (position + index * inspector.layout.pointerWidth.bytes)

/-- A type meets the superclass constraint, where there is one, and each of the references behind
it. -/
def MeetsRequirements (encoding : CompositionLayout) (header : CompositionHeader)
    (composition type : Address) : Prop :=
  let trailing := Address.plus composition encoding.trailingOffset
  if header.flags.hasSuperclass then
    inspector.MeetsSuperclass reader type trailing ∧
      inspector.MeetsReferences reader encoding type header.count
        (trailing + inspector.layout.pointerWidth.bytes)
  else inspector.MeetsReferences reader encoding type header.count trailing

/-- An object satisfies a composition: the composition requires nothing, or the type of the object
meets its requirements. -/
def Satisfies (object composition : Address) : Prop :=
  object ≠ 0 ∧ composition ≠ 0 ∧
    ∃ encoding header, inspector.layout.composition = some encoding ∧
      inspector.Heads reader encoding composition header ∧
      (header.count = 0 ∧ header.flags.hasSuperclass = false ∨
        ∃ type, (inspector.metadata reader).objectType? object = some type ∧ type ≠ 0 ∧
          inspector.MeetsRequirements reader encoding header composition type)

end Inspector

/-- An answer settles a question, unless the records have run out; then it is a no. -/
structure Verdict.Settles (answer : Verdict) (question : Prop) : Prop where
  yes : answer.conforms = true → question
  no : .budgetExhausted ∉ answer.anomalies → answer.conforms = false → ¬ question
  exhausted : .budgetExhausted ∈ answer.anomalies → answer.conforms = false

namespace Verdict

theorem settles_of_rejected {question : Prop} {reason : Anomaly}
    (hReason : reason ≠ .budgetExhausted) (hQuestion : ¬ question) :
    (rejected reason).Settles question := by
  refine ⟨nofun, fun _ _ => hQuestion, fun h => ?_⟩
  exact absurd (Anomalies.mem_only.mp h).symm hReason

theorem settles_of_refused {question : Prop} {trace : Trace} (hQuestion : ¬ question) :
    (trace.finish false).Settles question :=
  ⟨nofun, fun _ _ => hQuestion, fun _ => rfl⟩

theorem Settles.iff {answer : Verdict} {question : Prop} (settles : answer.Settles question)
    (hBudget : .budgetExhausted ∉ answer.anomalies) : answer.conforms = true ↔ question := by
  refine ⟨settles.yes, fun hQuestion => ?_⟩
  by_contra hAnswer
  exact settles.no hBudget (Bool.eq_false_iff.mpr hAnswer) hQuestion

theorem Settles.congr {answer : Verdict} {question same : Prop} (settles : answer.Settles question)
    (hSame : question ↔ same) : answer.Settles same :=
  propext hSame ▸ settles

end Verdict

namespace Inspector

variable {inspector : Inspector} {reader : Reader}

theorem run_readHeader (encoding : CompositionLayout) (composition : Address) :
    (inspector.readHeader encoding composition).run reader =
      match (inspector.metadata reader).word? (Address.plus composition encoding.kindOffset) with
      | none => .error .invalidRead
      | some word =>
          if Kind.ofWord word ≠ .existential then .error .notAComposition
          else
            match
              (inspector.metadata reader).half? (Address.plus composition encoding.flagsOffset),
              (inspector.metadata reader).half? (Address.plus composition encoding.countOffset) with
            | some flags, some count =>
                if inspector.limits.listEntries < count.toNat then .error .listTooLong
                else .ok ⟨⟨flags⟩, count.toNat⟩
            | _, _ => .error .invalidRead := by
  simp only [readHeader, Probe.run_bind, Metadata.word?, Metadata.half?, metadata]
  cases (inspector.layout.readWord _).run reader with
  | none => rfl
  | some word =>
      dsimp only
      split_ifs with hKind
      · rfl
      · simp only [Probe.run_bind]
        cases (inspector.layout.readHalf (Address.plus composition encoding.flagsOffset)).run
          reader with
        | none => rfl
        | some flags =>
            cases (inspector.layout.readHalf (Address.plus composition encoding.countOffset)).run
              reader with
            | none => rfl
            | some count =>
                dsimp only
                split_ifs <;> rfl

theorem readHeader_ok_iff {encoding : CompositionLayout} {composition : Address}
    {header : CompositionHeader} :
    (inspector.readHeader encoding composition).run reader = .ok header ↔
      inspector.Heads reader encoding composition header := by
  rw [run_readHeader]
  constructor
  · intro h
    split at h
    · cases h
    · rename_i word hWord
      split_ifs at h with hKind
      split at h
      · rename_i flags count hFlags hCount
        split_ifs at h with hLong
        cases h
        exact ⟨⟨word, hWord, not_not.mp hKind⟩, hFlags, ⟨count, hCount, rfl⟩, by simpa using hLong⟩
      · cases h
  · intro heads
    obtain ⟨⟨word, hWord, hKind⟩, hFlags, ⟨count, hCount, hHeader⟩, hBound⟩ := heads
    have hShort : ¬ inspector.limits.listEntries < count.toNat := by omega
    obtain ⟨⟨bits⟩, number⟩ := header
    simp_all

theorem reason_of_readHeader {encoding : CompositionLayout} {composition : Address}
    {reason : Anomaly}
    (h : (inspector.readHeader encoding composition).run reader = .error reason) :
    reason ≠ .budgetExhausted := by
  rw [run_readHeader] at h
  split at h
  · cases h
    decide
  · split_ifs at h
    · cases h
      decide
    · split at h
      · split_ifs at h
        cases h
        decide
      · cases h
        decide

theorem visitEach_seek (ancestor : Address) (types : List Address) :
    (visitEach (fun current _ => if current = ancestor then .done true else .yield false) types
      false).value = decide (ancestor ∈ types) := by
  induction types with
  | nil => rfl
  | cons type rest ih =>
      rw [visitEach]
      by_cases hType : type = ancestor
      · simp [hType]
      · have hOther : ancestor ≠ type := fun h => hType h.symm
        rw [if_neg hType]
        simpa [hOther] using ih

variable (inspector reader)

theorem inheritsFrom_iff (type ancestor : Address) (trace : Trace) :
    let outcome := (inspector.inheritsFrom type ancestor trace).run reader
    (outcome.1 = true ↔ ∃ hops ≤ inspector.limits.superclassHops,
        (inspector.metadata reader).Ascends hops type ancestor) ∧
      Spends trace .absent outcome.2 := by
  unfold inheritsFrom
  rw [Probe.run_bind, run_visitAncestry, ← mem_lineage_iff]
  generalize hVisit : (inspector.lineage reader type).visit _ false = visited
  have hReason : visited.2 ≠ some .budgetExhausted := hVisit ▸ reason_of_visit
  have hFound : visited.1 = decide (ancestor ∈ (inspector.lineage reader type).types) := by
    rw [← hVisit]
    exact visitEach_seek ancestor _
  constructor
  · change visited.1 = true ↔ _
    rw [hFound, decide_eq_true_iff]
  · exact (Spends.refl trace).flag? hReason

/-- How the check of a constraint ends once it is known whether a type inherits from it: the
position after the constraint has to have an address. -/
def confirmRoom (position : Nat) (outcome : Bool × Trace) : Probe (Bool × Trace) := do
  if outcome.1 then
    match ← Probe.locate (position + inspector.layout.pointerWidth.bytes) with
    | some _ => pure (true, outcome.2)
    | none => pure (false, outcome.2.flag .invalidRead)
  else pure (false, outcome.2)

theorem run_confirmRoom (position : Nat) (outcome : Bool × Trace) :
    (inspector.confirmRoom position outcome).run reader =
      if outcome.1 then
        if position + inspector.layout.pointerWidth.bytes < UInt64.size then outcome
        else (false, outcome.2.flag .invalidRead)
      else outcome := by
  obtain ⟨met, after⟩ := outcome
  unfold confirmRoom
  cases met with
  | false => rfl
  | true =>
      simp only [if_true, Probe.run_bind, Probe.run_locate, Address.ofPosition?]
      split_ifs <;> rfl

theorem run_meetsConstraint (type : Address) (position : Nat) (trace : Trace) :
    (inspector.meetsConstraint type position trace).run reader =
      match (inspector.metadata reader).pointer? position with
      | some superclass =>
          let inherited :=
            if superclass = 0 then (true, trace)
            else (inspector.inheritsFrom type superclass trace).run reader
          if inherited.1 then
            if position + inspector.layout.pointerWidth.bytes < UInt64.size then inherited
            else (false, inherited.2.flag .invalidRead)
          else inherited
      | none => (false, trace.flag .invalidRead) := by
  simp only [meetsConstraint, Probe.run_bind, Metadata.pointer?, metadata]
  cases (inspector.layout.readPointer position).run reader with
  | none => rfl
  | some superclass =>
      dsimp only
      by_cases hNull : superclass = 0
      · rw [if_pos hNull, if_pos hNull, Probe.run_bind]
        exact inspector.run_confirmRoom reader position _
      · rw [if_neg hNull, if_neg hNull, Probe.run_bind]
        exact inspector.run_confirmRoom reader position _

/-- Checking the superclass constraint settles it and costs no records. -/
theorem meetsConstraint_iff (type : Address) (position : Nat) (trace : Trace) :
    let outcome := (inspector.meetsConstraint type position trace).run reader
    (outcome.1 = true ↔ inspector.MeetsSuperclass reader type position) ∧
      Spends trace .absent outcome.2 := by
  rw [run_meetsConstraint]
  unfold MeetsSuperclass
  cases (inspector.metadata reader).pointer? position with
  | none => exact ⟨by simp, (Spends.refl trace).flag (by decide)⟩
  | some superclass =>
      have inherits : ∃ inherited : Bool × Trace,
          inherited = (if superclass = 0 then (true, trace)
            else (inspector.inheritsFrom type superclass trace).run reader) ∧
          (inherited.1 = true ↔ superclass = 0 ∨ ∃ hops ≤ inspector.limits.superclassHops,
            (inspector.metadata reader).Ascends hops type superclass) ∧
          Spends trace .absent inherited.2 := by
        refine ⟨_, rfl, ?_⟩
        split_ifs with hNull
        · exact ⟨by simp [hNull], Spends.refl trace⟩
        · have inherits := inspector.inheritsFrom_iff reader type superclass trace
          simpa [hNull] using inherits
      obtain ⟨inherited, hInherited, hMet, spends⟩ := inherits
      dsimp only
      rw [← hInherited]
      simp only [Option.some.injEq, exists_eq_left']
      rw [← hMet]
      split_ifs with hFound hRoom
      · exact ⟨by simp [hFound, hRoom], spends⟩
      · exact ⟨by simp [hRoom], spends.flag (by decide)⟩
      · exact ⟨by simp [hFound], spends⟩

theorem meetsReferences_succ_iff (encoding : CompositionLayout) (type : Address)
    (count position : Nat) :
    inspector.MeetsReferences reader encoding type (count + 1) position ↔
      inspector.MeetsReference reader encoding type position ∧
        inspector.MeetsReferences reader encoding type count
          (position + inspector.layout.pointerWidth.bytes) := by
  have hShift (index : Nat) : position + (index + 1) * inspector.layout.pointerWidth.bytes =
      position + inspector.layout.pointerWidth.bytes +
        index * inspector.layout.pointerWidth.bytes := by
    rw [Nat.succ_mul]
    omega
  unfold MeetsReferences
  rw [Nat.forall_lt_succ_left]
  simp only [hShift, Nat.zero_mul, Nat.add_zero]

theorem run_meetsProtocols_succ (encoding : CompositionLayout) (type : Address)
    (remaining position : Nat) (trace : Trace) :
    (inspector.meetsProtocols encoding type (remaining + 1) position trace).run reader =
      match (inspector.metadata reader).pointer? position with
      | none => (trace.flag .invalidRead).finish false
      | some reference =>
          if reference &&& encoding.protocolMask = 0 then (trace.flag .nullAddress).finish false
          else
            let outcome := (inspector.searchAncestry (reference &&& encoding.protocolMask) type
              trace).run reader
            if outcome.1 then
              (inspector.meetsProtocols encoding type remaining
                (position + inspector.layout.pointerWidth.bytes) outcome.2).run reader
            else outcome.2.finish false := by
  rw [meetsProtocols]
  simp only [Probe.run_bind, Metadata.pointer?, metadata]
  cases (inspector.layout.readPointer position).run reader with
  | none => rfl
  | some reference =>
      dsimp only
      split_ifs with hNull hFound
      · rfl
      · rw [Probe.run_bind]
        simp only [hFound, if_true]
      · rw [Probe.run_bind]
        simp only [hFound]
        rfl

/-- Going through the references settles whether each of them is met, as long as no more records
are left than a query starts with. -/
theorem meetsProtocols_settles (encoding : CompositionLayout) {type : Address} (hType : type ≠ 0)
    (remaining position : Nat) (trace : Trace)
    (hLeft : trace.recordsLeft ≤ inspector.limits.recordsVisited)
    (hBudget : .budgetExhausted ∉ trace.anomalies) :
    ((inspector.meetsProtocols encoding type remaining position trace).run reader).Settles
      (inspector.MeetsReferences reader encoding type remaining position) := by
  induction remaining generalizing position trace with
  | zero =>
      refine ⟨fun _ index hIndex => ?_, nofun, fun h => absurd h hBudget⟩
      exact absurd hIndex (Nat.not_lt_zero index)
  | succ remaining ih =>
      rw [run_meetsProtocols_succ]
      refine Verdict.Settles.congr ?_
        (inspector.meetsReferences_succ_iff reader encoding type remaining position).symm
      unfold MeetsReference
      cases (inspector.metadata reader).pointer? position with
      | none => exact Verdict.settles_of_refused (by simp)
      | some reference =>
          simp only [Option.some.injEq, exists_eq_left']
          by_cases hNull : reference &&& encoding.protocolMask = 0
          · rw [if_pos hNull]
            exact Verdict.settles_of_refused (by simp [hNull])
          · have shared := inspector.searchAncestry_shared reader
              (reference &&& encoding.protocolMask) type trace hLeft
            have spends := inspector.spends_searchAncestry reader
              (reference &&& encoding.protocolMask) type trace
            rw [if_neg hNull, run_typeVerdict, if_neg (not_or.mpr ⟨hType, hNull⟩)]
            dsimp only [Trace.finish] at shared spends ⊢
            split_ifs with hFound
            · have hNext := fun h => (spends.2 h).elim hBudget (by simp [hFound])
              refine (ih _ _ (Nat.le_trans spends.1 hLeft) hNext).congr ?_
              simp [hNull, shared.1 hFound]
            · refine ⟨nofun, fun hRecords _ met => ?_, fun _ => rfl⟩
              exact hFound (shared.2 hRecords met.1.2)

/-- The answer for a type: the superclass constraint is checked first, where there is one, and the
references after it. -/
def requirementsVerdict (encoding : CompositionLayout) (header : CompositionHeader)
    (composition type : Address) : Verdict :=
  let trailing := Address.plus composition encoding.trailingOffset
  let start := Trace.start inspector.limits
  if header.flags.hasSuperclass then
    let outcome := (inspector.meetsConstraint type trailing start).run reader
    if outcome.1 then
      (inspector.meetsProtocols encoding type header.count
        (trailing + inspector.layout.pointerWidth.bytes) outcome.2).run reader
    else outcome.2.finish false
  else (inspector.meetsProtocols encoding type header.count trailing start).run reader

theorem run_compositionVerdict (object composition : Address) :
    (inspector.compositionVerdict object composition).run reader =
      if object = 0 ∨ composition = 0 then .rejected .nullAddress
      else
        match inspector.layout.composition with
        | none => .rejected .notAComposition
        | some encoding =>
            match (inspector.readHeader encoding composition).run reader with
            | .error reason => .rejected reason
            | .ok header =>
                if header.count = 0 ∧ header.flags.hasSuperclass = false then ⟨true, .none⟩
                else
                  match (inspector.metadata reader).objectType? object with
                  | none => .rejected .invalidRead
                  | some type =>
                      if type = 0 then .rejected .nullType
                      else
                        inspector.requirementsVerdict reader encoding header composition type := by
  unfold compositionVerdict
  split_ifs with hNull
  · rfl
  · cases inspector.layout.composition with
    | none => rfl
    | some encoding =>
        dsimp only
        rw [Probe.run_bind]
        cases (inspector.readHeader encoding composition).run reader with
        | error reason => rfl
        | ok header =>
            dsimp only
            by_cases hEmpty : header.count = 0 ∧ header.flags.hasSuperclass = false
            · rw [if_pos hEmpty, if_pos hEmpty]
              rfl
            · rw [if_neg hEmpty, if_neg hEmpty, Probe.run_bind, run_typeOf]
              cases (inspector.metadata reader).objectType? object with
              | none => rfl
              | some type =>
                  dsimp only
                  by_cases hType : type = 0
                  · rw [if_pos hType, if_pos hType]
                    rfl
                  · rw [if_neg hType, if_neg hType]
                    unfold requirementsVerdict
                    by_cases hSuperclass : header.flags.hasSuperclass = true
                    · rw [if_pos hSuperclass]
                      dsimp only
                      rw [if_pos hSuperclass, Probe.run_bind]
                      split_ifs <;> rfl
                    · rw [if_neg hSuperclass]
                      dsimp only
                      rw [if_neg hSuperclass]

theorem requirementsVerdict_settles (encoding : CompositionLayout) (header : CompositionHeader)
    (composition : Address) {type : Address} (hType : type ≠ 0) :
    (inspector.requirementsVerdict reader encoding header composition type).Settles
      (inspector.MeetsRequirements reader encoding header composition type) := by
  have hFresh : .budgetExhausted ∉ (Trace.start inspector.limits).anomalies :=
    Anomalies.not_mem_none _
  obtain ⟨hMet, spends⟩ := inspector.meetsConstraint_iff reader type
    (Address.plus composition encoding.trailingOffset) (.start inspector.limits)
  unfold requirementsVerdict MeetsRequirements
  dsimp only
  split_ifs with hSuperclass hFound
  · have hBudget := fun h => (spends.exhausted h).elim hFresh (by decide)
    refine (inspector.meetsProtocols_settles reader encoding hType _ _ _ spends.recordsLeft
      hBudget).congr ?_
    exact (and_iff_right (hMet.mp hFound)).symm
  · refine Verdict.settles_of_refused fun met => ?_
    exact hFound (hMet.mpr met.1)
  · exact inspector.meetsProtocols_settles reader encoding hType _ _ _ (Nat.le_refl _) hFresh

theorem compositionVerdict_settles (object composition : Address) :
    ((inspector.compositionVerdict object composition).run reader).Settles
      (inspector.Satisfies reader object composition) := by
  rw [run_compositionVerdict]
  unfold Satisfies
  by_cases hNull : object = 0 ∨ composition = 0
  · rw [if_pos hNull]
    refine Verdict.settles_of_rejected (by decide) fun satisfied => ?_
    exact hNull.elim satisfied.1 satisfied.2.1
  · rw [if_neg hNull]
    obtain ⟨hObject, hComposition⟩ := not_or.mp hNull
    cases hEncoding : inspector.layout.composition with
    | none => exact Verdict.settles_of_rejected (by decide) (by simp)
    | some encoding =>
        simp only [← readHeader_ok_iff, Option.some.injEq, exists_and_left, exists_eq_left']
        cases hHeader : (inspector.readHeader encoding composition).run reader with
        | error reason =>
            exact Verdict.settles_of_rejected (reason_of_readHeader hHeader) (by simp)
        | ok header =>
            simp only [Except.ok.injEq, exists_eq_left']
            by_cases hEmpty : header.count = 0 ∧ header.flags.hasSuperclass = false
            · rw [if_pos hEmpty]
              refine ⟨fun _ => ⟨hObject, hComposition, Or.inl hEmpty⟩, nofun, fun h => ?_⟩
              exact absurd h (Anomalies.not_mem_none _)
            · rw [if_neg hEmpty]
              cases hFirst : (inspector.metadata reader).objectType? object with
              | none => exact Verdict.settles_of_rejected (by decide) (by simp [hEmpty])
              | some type =>
                  by_cases hType : type = 0
                  · simp only [if_pos hType]
                    exact Verdict.settles_of_rejected (by decide) (by simp [hEmpty, hType])
                  · simp only [if_neg hType]
                    refine (inspector.requirementsVerdict_settles reader encoding header composition
                      hType).congr ?_
                    simp [hObject, hComposition, hEmpty, hType]

/-- An object is found to satisfy a composition exactly where each requirement of the composition is
met on its own. If the records run out the answer is no, and a yes always stands. -/
theorem compositionVerdict_conforms_iff (object composition : Address) :
    let answer := (inspector.compositionVerdict object composition).run reader
    let satisfied := inspector.Satisfies reader object composition
    (answer.conforms = true → satisfied) ∧
      (.budgetExhausted ∈ answer.anomalies → answer.conforms = false) ∧
      (.budgetExhausted ∉ answer.anomalies → (answer.conforms = true ↔ satisfied)) := by
  intro answer satisfied
  have settles : answer.Settles satisfied :=
    inspector.compositionVerdict_settles reader object composition
  refine ⟨settles.yes, settles.exhausted, fun hBudget => ⟨settles.yes, fun hSatisfied => ?_⟩⟩
  by_contra hAnswer
  exact settles.no hBudget (Bool.eq_false_iff.mpr hAnswer) hSatisfied

end Inspector

/-- The memory of the inherited conformances with a composition at `0x100`. It is constrained to the
superclass at `0x40` and refers to both protocols, to the first one by a word with its low bit
set. -/
def composedMemory : Reader := fun address length =>
  (inheritedMemory address length).or <|
    Reader.ofWords [(0x100, 0x303), (0x108, 0x40000000), (0x10C, 2), (0x110, 0x40),
      (0x118, 0x81), (0x120, 0xB0)] address length

theorem compositionVerdict_conforms_iff_composed :
    let inspector : Inspector := ⟨Runtime.compact64.layout, .default⟩
    ((inspector.compositionVerdict 0x10 0x100).run composedMemory).conforms = true ∧
      inspector.Satisfies composedMemory 0x10 0x100 := by
  intro inspector
  have hAnswer :
      ((inspector.compositionVerdict 0x10 0x100).run composedMemory).conforms = true := by
    decide +kernel
  exact ⟨hAnswer,
    (inspector.compositionVerdict_conforms_iff composedMemory 0x10 0x100).1 hAnswer⟩

end Conformance
