import Conformance.Proofs.Exactness
/-! Negative answers without anomalies. Whatever a query gives up on leaves an anomaly behind, a
chain of superclasses that goes round in a circle excepted; so a no with no other anomaly says that
there is no declared path of any length, and that nothing on the way was unreadable. -/
namespace Conformance

namespace Metadata

variable (metadata : Metadata) (target : Address)

/-- A list is settled when its records can be read, none of them names the target, and every list
nested below it is settled in turn. -/
inductive Settled : Address → Prop where
  | intro {list : Address} {count : UInt64} (hCount : metadata.count? list = some count)
      (records : ∀ index < count.toNat, metadata.RecordGranted list index)
      (names : ¬ metadata.Names .unbounded list target)
      (below : ∀ nested, metadata.Nests .unbounded list nested → Settled nested) : Settled list

/-- A record is settled when it can be read and neither names the target nor leads to a list that is
not settled. -/
def RecordSettled (list : Address) (index : Nat) : Prop :=
  ∃ interface, metadata.interface? list index = some interface ∧ interface ≠ target ∧
    (interface ≠ 0 → ∃ nested, metadata.nested? list index interface = some nested ∧
      (nested ≠ 0 → metadata.Settled target nested))

variable {metadata target}

theorem lt_count_of_hasRecord {reach : Reach} {list : Address} {index : Nat} {count : UInt64}
    (hCount : metadata.count? list = some count) (h : metadata.HasRecord reach list index) :
    index < count.toNat := by
  obtain ⟨found, hFound, _, hIndex⟩ := h
  rw [hCount] at hFound
  exact Option.some.inj hFound ▸ hIndex

theorem Settled.of_records {list : Address} {count : UInt64}
    (hCount : metadata.count? list = some count)
    (records : ∀ index < count.toNat, metadata.RecordSettled target list index) :
    metadata.Settled target list := by
  refine .intro hCount (fun index hIndex => ?_) ?_ ?_
  · obtain ⟨interface, hInterface, _, hBelow⟩ := records index hIndex
    refine ⟨interface, hInterface, fun hNonnull => ?_⟩
    obtain ⟨nested, hNested, _⟩ := hBelow hNonnull
    exact ⟨nested, hNested⟩
  · intro h
    obtain ⟨index, hRecord, hName⟩ := h
    have hIndex := lt_count_of_hasRecord hCount hRecord
    obtain ⟨interface, hInterface, hOther, _⟩ := records index hIndex
    rw [hInterface] at hName
    exact hOther (Option.some.inj hName)
  · intro nested h
    obtain ⟨index, interface, hRecord, hInterface, hNonnull, hNested, hList⟩ := h
    obtain ⟨found, hFound, _, hBelow⟩ := records index (lt_count_of_hasRecord hCount hRecord)
    obtain rfl := Option.some.inj (hInterface.symm.trans hFound)
    obtain ⟨other, hOther, settled⟩ := hBelow hNonnull
    obtain rfl := Option.some.inj (hNested.symm.trans hOther)
    exact settled hList

/-- Everything below a settled list is settled. -/
theorem Settled.descends {depth : Nat} {list last : Address}
    (descent : metadata.Descends .unbounded depth list last)
    (settled : metadata.Settled target list) : metadata.Settled target last := by
  induction descent with
  | zero => exact settled
  | succ first _ ih =>
      cases settled with
      | intro _ _ _ below => exact ih (below _ first)

theorem Settled.listGranted {list : Address} (settled : metadata.Settled target list) :
    metadata.ListGranted list := by
  cases settled with
  | intro hCount records _ _ => exact ⟨_, hCount, records⟩

theorem Settled.not_leads {depth : Nat} {list : Address} (settled : metadata.Settled target list) :
    ¬ metadata.Leads .unbounded depth list target := by
  intro h
  obtain ⟨last, descent, hNames⟩ := h
  cases settled.descends descent with
  | intro _ _ names _ => exact names hNames

end Metadata

/-- Nothing was left out: no anomaly was met, except that the chain of superclasses may have led
back onto itself. -/
def Anomalies.IsQuiet (anomalies : Anomalies) : Prop := ∀ anomaly ∈ anomalies, anomaly = .cycle

theorem Anomalies.IsQuiet.of_insert {anomalies more : Anomalies} {anomaly : Anomaly}
    (quiet : more.IsQuiet) (hMore : ∀ a ∈ anomalies.insert anomaly, a ∈ more) :
    anomaly = .cycle :=
  quiet anomaly (hMore anomaly (Anomalies.mem_insert.mpr (Or.inl rfl)))

namespace Inspector

variable {inspector : Inspector} {reader : Reader} {target : Address}

theorem recordSettled_iff {list : Address} {index : Nat} :
    (inspector.metadata reader).RecordSettled target list index ↔
      match (inspector.inspect target list index).run reader with
      | .target | .unreadable => False
      | .leaf => True
      | .nested nested => (inspector.metadata reader).Settled target nested := by
  rw [run_inspect]
  unfold Metadata.RecordSettled
  cases hInterface : (inspector.metadata reader).interface? list index with
  | none => simp
  | some interface =>
      dsimp only
      split_ifs with hTarget hNull
      · simp [hTarget]
      · subst hNull
        simp [hTarget]
      · cases hNested : (inspector.metadata reader).nested? list index interface with
        | none => simp [hTarget, hNull, hNested]
        | some nested =>
            dsimp only
            split_ifs with hEmpty
            · simp [hTarget, hNested, hEmpty]
            · simp [hTarget, hNull, hNested, hEmpty]

variable (inspector reader target) in
/-- Every record that some open lists have ahead of them is settled. -/
def SettledAhead (stack : List Frame) : Prop :=
  ∀ frame ∈ stack, ∀ index, frame.next ≤ index → index < frame.count →
    (inspector.metadata reader).RecordSettled target frame.list index

theorem settledAhead_of_dropWhile {stack : List Frame}
    (h : inspector.SettledAhead reader target (stack.dropWhile Frame.isSpent)) :
    inspector.SettledAhead reader target stack := by
  induction stack with
  | nil => exact h
  | cons frame below ih =>
      rw [List.dropWhile_cons] at h
      split at h
      · rename_i hSpent
        have hNone : frame.count ≤ frame.next := by simpa [Frame.isSpent] using hSpent
        intro other hOther index hNext hCount
        rcases List.mem_cons.mp hOther with rfl | hBelow
        · omega
        · exact ih h other hBelow index hNext hCount
      · exact h

theorem settledAhead_cons {frame : Frame} {below : List Frame}
    (here : (inspector.metadata reader).RecordSettled target frame.list frame.next)
    (h : inspector.SettledAhead reader target (frame.advance :: below)) :
    inspector.SettledAhead reader target (frame :: below) := by
  intro other hOther index hNext hCount
  rcases List.mem_cons.mp hOther with rfl | hBelow
  · rcases Nat.eq_or_lt_of_le hNext with rfl | hLater
    · exact here
    · exact h other.advance List.mem_cons_self index hLater hCount
  · exact h other (List.mem_cons_of_mem _ hBelow) index hNext hCount

/-- Where going down into a list is not noted as an anomaly, settling the records ahead settles the
list. -/
theorem settled_of_descend {list : Address} {stack : List Frame} {seen more : Anomalies}
    (quiet : more.IsQuiet)
    (hMore : ∀ a ∈ ((inspector.descend list stack seen).run reader).2, a ∈ more)
    (h : inspector.SettledAhead reader target ((inspector.descend list stack seen).run reader).1) :
    (inspector.metadata reader).Settled target list ∧
      inspector.SettledAhead reader target stack := by
  rw [run_descend, run_openList] at hMore h
  split_ifs at hMore h with hDeep
  · exact absurd (quiet.of_insert hMore) (by decide)
  · cases hCount : (inspector.metadata reader).count? list with
    | none =>
        rw [hCount] at hMore
        exact absurd (quiet.of_insert hMore) (by decide)
    | some count =>
        rw [hCount] at hMore h
        dsimp only at hMore h
        split_ifs at hMore h with hZero hLong
        · refine ⟨.of_records hCount fun index hIndex => ?_, h⟩
          rw [hZero] at hIndex
          exact absurd hIndex (Nat.not_lt_zero index)
        · exact absurd (quiet.of_insert hMore) (by decide)
        · refine ⟨.of_records hCount fun index hIndex => ?_, fun frame hFrame => ?_⟩
          · exact h _ List.mem_cons_self index (Nat.zero_le _) hIndex
          · exact h frame (List.mem_cons_of_mem _ hFrame)

theorem Passes.settledAhead {frame : Frame} {below after : List Frame} {seen more last : Anomalies}
    (step : inspector.Passes reader target frame below seen after more) (quiet : last.IsQuiet)
    (hLast : ∀ a ∈ more, a ∈ last) (h : inspector.SettledAhead reader target after) :
    inspector.SettledAhead reader target (frame :: below) := by
  cases step with
  | leaf sighted =>
      refine settledAhead_cons ?_ h
      rw [recordSettled_iff, sighted]
      trivial
  | unreadable => exact absurd (quiet.of_insert hLast) (by decide)
  | nested sighted =>
      obtain ⟨settled, rest⟩ := settled_of_descend quiet hLast h
      refine settledAhead_cons ?_ rest
      rw [recordSettled_iff, sighted]
      exact settled

/-- A search that came to its end without a match and left nothing out has settled every record. -/
theorem Scans.settledAhead {left : Nat} {stack : List Frame} {seen : Anomalies}
    {outcome : Finding × Trace} (run : inspector.Scans reader target left stack seen outcome)
    (hAbsent : outcome.1 = .absent) (quiet : outcome.2.anomalies.IsQuiet) :
    inspector.SettledAhead reader target stack := by
  induction run with
  | absent spent =>
      apply settledAhead_of_dropWhile
      rw [spent]
      exact fun _ h => absurd h List.not_mem_nil
  | exhausted => cases hAbsent
  | found => cases hAbsent
  | pass top step rest ih =>
      apply settledAhead_of_dropWhile
      rw [top]
      exact step.settledAhead quiet (fun _ => rest.mem_of_mem) (ih hAbsent quiet)

theorem settled_of_scanList {list : Address} {trace : Trace}
    (hAbsent : ((inspector.scanList target list trace).run reader).1 = .absent)
    (quiet : ((inspector.scanList target list trace).run reader).2.anomalies.IsQuiet) :
    (inspector.metadata reader).Settled target list := by
  have run := inspector.scans_run_scanList reader target list trace
  exact (settled_of_descend quiet (fun _ => run.mem_of_mem) (run.settledAhead hAbsent quiet)).1

variable (inspector reader target) in
/-- A type is settled when its conformance list can be read and is null or settled. -/
def TypeSettled (type : Address) : Prop :=
  ∃ list, (inspector.metadata reader).conformances? type = some list ∧
    (list ≠ 0 → (inspector.metadata reader).Settled target list)

theorem typeSettled_of_visitType {type : Address} {search : Search}
    (hAbsent : (inspector.visitType reader target type search).value.finding = .absent)
    (quiet : (inspector.visitType reader target type search).value.trace.anomalies.IsQuiet) :
    inspector.TypeSettled reader target type := by
  rw [visitType_eq] at hAbsent quiet
  cases hList : (inspector.metadata reader).conformances? type with
  | none =>
      rw [hList] at quiet
      exact absurd (quiet.of_insert fun _ h => h) (by decide)
  | some list =>
      refine ⟨list, hList, fun hNonnull => ?_⟩
      rw [hList] at hAbsent quiet
      dsimp only at hAbsent quiet
      rw [if_neg hNonnull] at hAbsent quiet
      split_ifs at hAbsent quiet with hScan
      · exact settled_of_scanList hScan quiet
      · exact absurd hAbsent hScan

theorem typeSettled_of_visitEach {types : List Address} {search : Search}
    (hAbsent : (visitEach (inspector.visitType reader target) types search).value.finding = .absent)
    (quiet : (visitEach (inspector.visitType reader target) types
      search).value.trace.anomalies.IsQuiet) :
    ∀ type ∈ types, inspector.TypeSettled reader target type := by
  induction types generalizing search with
  | nil => exact fun _ h => absurd h List.not_mem_nil
  | cons type rest ih =>
      obtain ⟨after, hStep, hFinding, hRest⟩ := visitEach_cons_of_absent hAbsent
      rw [hRest] at hAbsent quiet
      intro other hOther
      rcases List.mem_cons.mp hOther with rfl | hLater
      · have here := @typeSettled_of_visitType inspector reader target other search
        rw [hStep] at here
        exact here hFinding fun anomaly h => quiet anomaly (mem_visitEach h)
      · exact ih hAbsent quiet other hLater

/-- A search of an ancestry that found nothing and left nothing out has settled the conformance list
of every superclass, however far away. -/
theorem settled_of_searchAncestry {type : Address} {trace : Trace}
    (hAnswer : ((inspector.searchAncestry target type trace).run reader).1 = false)
    (quiet : ((inspector.searchAncestry target type trace).run reader).2.anomalies.IsQuiet)
    {hops : Nat} {ancestor : Address}
    (ascent : (inspector.metadata reader).Ascends hops type ancestor) :
    (∃ superclass, (inspector.metadata reader).superclass? ancestor = some superclass) ∧
      inspector.TypeSettled reader target ancestor := by
  have decides := inspector.visitEach_decides reader target (inspector.lineage reader type).types
    ⟨.absent, trace⟩ rfl
  rw [run_searchAncestry] at hAnswer quiet
  dsimp only [Lineage.visit] at hAnswer quiet
  have quietTrace : (visitEach (inspector.visitType reader target)
      (inspector.lineage reader type).types ⟨.absent, trace⟩).value.trace.anomalies.IsQuiet :=
    fun anomaly h => quiet anomaly (Trace.mem_flag?.mpr (Or.inr h))
  have hAbsent : (visitEach (inspector.visitType reader target)
      (inspector.lineage reader type).types ⟨.absent, trace⟩).value.finding = .absent := by
    cases hFinding : (visitEach (inspector.visitType reader target)
      (inspector.lineage reader type).types ⟨.absent, trace⟩).value.finding with
    | absent => rfl
    | found => exact absurd hFinding (beq_eq_false_iff_ne.mp hAnswer)
    | exhausted => exact absurd (quietTrace _ (decides.exhausted hFinding)) (by decide)
  obtain ⟨after, hEarlier⟩ := visitEach_of_append_absent hAbsent
  have hReason : ∀ reason ∈ (inspector.lineage reader type).reason, reason = .cycle := by
    intro reason h
    rw [hEarlier] at quiet
    exact quiet reason (Trace.mem_flag?.mpr (Or.inl h.symm))
  have closed := (Trail.start type).closed_of_reason hReason
  rw [List.append_nil] at closed
  have hMem := closed.mem_of_ascends ascent (mem_lineage_iff.mpr ⟨0, Nat.zero_le _, .zero type⟩)
  obtain ⟨superclass, hSuperclass, _⟩ := closed ancestor hMem
  exact ⟨⟨superclass, hSuperclass⟩, typeSettled_of_visitEach hAbsent quietTrace ancestor hMem⟩

variable (inspector reader) in
/-- If a query answers no and met no anomaly but a circular chain of superclasses, then there is no
declared path from the object to the protocol, however long, and everything that such a path could
go along was readable. -/
theorem not_objectConforms_of_quiet (object protocol : Address) (hObject : object ≠ 0)
    (hProtocol : protocol ≠ 0)
    (hAnswer : ((inspector.verdict object protocol).run reader).conforms = false)
    (quiet : ((inspector.verdict object protocol).run reader).anomalies.IsQuiet) :
    ¬ (inspector.metadata reader).ObjectConforms .unbounded object protocol ∧
      (inspector.metadata reader).ObjectGranted object := by
  rw [run_verdict, if_neg (by simp [hObject, hProtocol])] at hAnswer quiet
  cases hType : (inspector.metadata reader).objectType? object with
  | none =>
      rw [hType] at quiet
      exact absurd (quiet _ (Anomalies.mem_only.mpr rfl)) (by decide)
  | some type =>
      rw [hType] at hAnswer quiet
      dsimp only at hAnswer quiet
      split_ifs at hAnswer quiet with hNull
      · exact absurd (quiet _ (Anomalies.mem_only.mpr rfl)) (by decide)
      · have settled {hops : Nat} {ancestor : Address}
            (ascent : (inspector.metadata reader).Ascends hops type ancestor) :=
          settled_of_searchAncestry hAnswer quiet ascent
        constructor
        · intro h
          obtain ⟨first, hFirst, _, hops, ancestor, _, ascent, list, depth, hList, hNonnull, _,
            leads⟩ := h
          obtain rfl := Option.some.inj (hType.symm.trans hFirst)
          obtain ⟨_, other, hOther, below⟩ := settled ascent
          obtain rfl := Option.some.inj (hList.symm.trans hOther)
          exact (below hNonnull).not_leads leads
        · refine ⟨type, hType, hNull, fun hops ancestor ascent => ?_⟩
          obtain ⟨hSuperclass, list, hList, below⟩ := settled ascent
          refine ⟨hSuperclass, list, hList, fun hNonnull depth last descent => ?_⟩
          exact ((below hNonnull).descends descent).listGranted

end Inspector

/-- An object at `0x10` with two types that are superclasses of each other. The list of the second
one names a protocol at `0x80`. -/
def circularMemory : Reader :=
  .ofWords [(0x10, 0x20), (0x28, 0x40), (0x30, 0), (0x48, 0x20), (0x50, 0x60), (0x60, 1),
    (0x68, 0x80), (0x70, 0)]

theorem not_objectConforms_of_quiet_circular :
    let inspector : Inspector := ⟨Runtime.compact64.layout, .strict⟩
    (inspector.verdict 0x10 0x90).run circularMemory = ⟨false, .only .cycle⟩ ∧
      ¬ (inspector.metadata circularMemory).ObjectConforms .unbounded 0x10 0x90 ∧
      (inspector.metadata circularMemory).ObjectGranted 0x10 := by
  intro inspector
  have hAnswer : (inspector.verdict 0x10 0x90).run circularMemory = ⟨false, .only .cycle⟩ := by
    decide +kernel
  refine ⟨hAnswer, ?_⟩
  apply inspector.not_objectConforms_of_quiet circularMemory 0x10 0x90 (by decide) (by decide)
  · rw [hAnswer]
  · rw [hAnswer]
    exact fun anomaly h => Anomalies.mem_only.mp h

end Conformance
