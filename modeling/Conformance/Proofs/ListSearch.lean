import Conformance.Proofs.Path
/-! The search through a list and the lists nested below it. A run of the search is described by a
relation with one case for each way in which a record is dealt with. What holds of a run is proved
by induction on it; in particular, a search that neither finds its target nor runs out of records
has left no path to the target within the depth. -/
namespace Conformance

namespace Inspector

variable (inspector : Inspector) (reader : Reader) (target : Address)

/-- One record is passed without a match: the open lists and the anomalies afterwards. The list
below the record is opened where the depth and the list itself allow it. -/
inductive Passes (frame : Frame) (below : List Frame) (seen : Anomalies) :
    List Frame → Anomalies → Prop where
  | leaf (sighted : (inspector.inspect target frame.list frame.next).run reader = .leaf) :
      Passes frame below seen (frame.advance :: below) seen
  | unreadable
      (sighted : (inspector.inspect target frame.list frame.next).run reader = .unreadable) :
      Passes frame below seen (frame.advance :: below) (seen.insert .invalidRead)
  | nested {list : Address}
      (sighted : (inspector.inspect target frame.list frame.next).run reader = .nested list) :
      Passes frame below seen
        ((inspector.descend list (frame.advance :: below) seen).run reader).1
        ((inspector.descend list (frame.advance :: below) seen).run reader).2

/-- A run of the search from some open lists, with the records that may still be inspected and the
anomalies met before it. -/
inductive Scans : Nat → List Frame → Anomalies → Finding × Trace → Prop where
  | absent {left : Nat} {stack : List Frame} {seen : Anomalies}
      (spent : stack.dropWhile Frame.isSpent = []) :
      Scans left stack seen (.absent, ⟨seen, left⟩)
  | exhausted {stack below : List Frame} {frame : Frame} {seen : Anomalies}
      (top : stack.dropWhile Frame.isSpent = frame :: below) :
      Scans 0 stack seen (.exhausted, ⟨seen.insert .budgetExhausted, 0⟩)
  | found {left : Nat} {stack below : List Frame} {frame : Frame} {seen : Anomalies}
      (top : stack.dropWhile Frame.isSpent = frame :: below)
      (sighted : (inspector.inspect target frame.list frame.next).run reader = .target) :
      Scans (left + 1) stack seen (.found, ⟨seen, left⟩)
  | pass {left : Nat} {stack below after : List Frame} {frame : Frame}
      {seen more : Anomalies} {outcome : Finding × Trace}
      (top : stack.dropWhile Frame.isSpent = frame :: below)
      (step : inspector.Passes reader target frame below seen after more)
      (rest : Scans left after more outcome) :
      Scans (left + 1) stack seen outcome

/-- The search makes the run that the relation describes. -/
theorem scans_run_scan (left : Nat) (stack : List Frame) (seen : Anomalies) :
    inspector.Scans reader target left stack seen
      ((inspector.scan target left stack seen).run reader) := by
  induction left generalizing stack seen with
  | zero =>
      unfold scan
      cases top : stack.dropWhile Frame.isSpent with
      | nil => exact .absent top
      | cons frame below => exact .exhausted top
  | succ left ih =>
      unfold scan
      cases top : stack.dropWhile Frame.isSpent with
      | nil => exact .absent top
      | cons frame below =>
          simp only [Probe.run_bind]
          cases sighted : (inspector.inspect target frame.list frame.next).run reader with
          | target => exact .found top sighted
          | leaf => exact .pass top (.leaf sighted) (ih _ _)
          | unreadable => exact .pass top (.unreadable sighted) (ih _ _)
          | nested list =>
              simp only [Probe.run_bind]
              exact .pass top (.nested sighted) (ih _ _)

end Inspector

namespace Metadata

variable (metadata : Metadata) (reach : Reach)

/-- A record leads to a protocol: it names the protocol, or the list nested below it leads there
with fewer than `depth` further nestings. -/
def RecordLeads (depth : Nat) (list : Address) (index : Nat) (protocol : Address) : Prop :=
  metadata.interface? list index = some protocol ∨
    ∃ interface nested further, metadata.interface? list index = some interface ∧
      interface ≠ 0 ∧ metadata.nested? list index interface = some nested ∧ nested ≠ 0 ∧
      further < depth ∧ metadata.Leads reach further nested protocol

variable {metadata reach}

theorem exists_leads_iff {depth : Nat} {list protocol : Address} :
    (∃ further ≤ depth, metadata.Leads reach further list protocol) ↔
      ∃ index, metadata.HasRecord reach list index ∧
        metadata.RecordLeads reach depth list index protocol := by
  constructor
  · rintro ⟨further, hFurther, leads⟩
    cases further with
    | zero =>
        obtain ⟨index, hIndex, named⟩ := leads_zero_iff.mp leads
        exact ⟨index, hIndex, Or.inl named⟩
    | succ further =>
        obtain ⟨nested, ⟨index, interface, hIndex, named, hInterface, below, hNested⟩, rest⟩ :=
          leads_succ_iff.mp leads
        exact ⟨index, hIndex, Or.inr ⟨interface, nested, further, named, hInterface, below,
          hNested, hFurther, rest⟩⟩
  · rintro ⟨index, hIndex, named | ⟨interface, nested, further, named, hInterface, below,
      hNested, hFurther, rest⟩⟩
    · exact ⟨0, Nat.zero_le _, leads_zero_iff.mpr ⟨index, hIndex, named⟩⟩
    · refine ⟨further + 1, hFurther, leads_succ_iff.mpr ⟨nested, ?_, rest⟩⟩
      exact ⟨index, interface, hIndex, named, hInterface, below, hNested⟩

end Metadata

namespace Inspector

variable {inspector : Inspector} {reader : Reader} {target : Address}

theorem recordLeads_iff {depth : Nat} {list : Address} {index : Nat} :
    (inspector.metadata reader).RecordLeads inspector.limits.reach depth list index target ↔
      match (inspector.inspect target list index).run reader with
      | .target => True
      | .leaf | .unreadable => False
      | .nested nested => ∃ further < depth,
          (inspector.metadata reader).Leads inspector.limits.reach further nested target := by
  rw [run_inspect]
  unfold Metadata.RecordLeads
  cases hInterface : (inspector.metadata reader).interface? list index with
  | none => simp
  | some interface =>
      dsimp only
      split_ifs with hTarget hNull
      · simp [hTarget]
      · subst hNull
        simp [hTarget]
      · cases hNested : (inspector.metadata reader).nested? list index interface with
        | none => simp [hTarget, hNested]
        | some nested =>
            dsimp only
            split_ifs with hEmpty
            · simp [hTarget, hNested, hEmpty]
            · simp [hTarget, hNull, hNested, hEmpty]

theorem frame_of_openList {list : Address} {frame : Frame}
    (opened : (inspector.openList list).run reader = .frame frame) :
    frame.list = list ∧ frame.next = 0 := by
  rw [run_openList] at opened
  split at opened
  · cases opened
  · split_ifs at opened
    cases opened
    exact ⟨rfl, rfl⟩

/-- A list has the records that it is opened with. -/
theorem hasRecord_iff {list : Address} {index : Nat} :
    (inspector.metadata reader).HasRecord inspector.limits.reach list index ↔
      ∃ frame, (inspector.openList list).run reader = .frame frame ∧ index < frame.count := by
  rw [run_openList]
  unfold Metadata.HasRecord
  cases (inspector.metadata reader).count? list with
  | none => simp
  | some count =>
      dsimp only [Limits.reach]
      split_ifs with hZero hLong
      · simp [hZero]
      · have hBound : ¬ count.toNat ≤ inspector.limits.listEntries := by omega
        simp [hBound]
      · have hBound : count.toNat ≤ inspector.limits.listEntries := by omega
        simp [hBound]

variable (inspector reader target) in
/-- A record that some open lists have ahead of them leads to the target. The lists under the one
that has the record use up as many of the nestings that are allowed. -/
def Pending : List Frame → Prop
  | [] => False
  | frame :: below =>
      (∃ index, frame.next ≤ index ∧ index < frame.count ∧
        (inspector.metadata reader).RecordLeads inspector.limits.reach
          (inspector.limits.effectiveDepth - below.length) frame.list index target) ∨
      Pending below

theorem pending_dropWhile (stack : List Frame) :
    inspector.Pending reader target (stack.dropWhile Frame.isSpent) ↔
      inspector.Pending reader target stack := by
  induction stack with
  | nil => rfl
  | cons frame below ih =>
      rw [List.dropWhile_cons]
      split
      · rename_i hSpent
        have hNone : frame.count ≤ frame.next := by simpa [Frame.isSpent] using hSpent
        rw [ih]
        constructor
        · exact Or.inr
        · rintro (⟨index, hNext, hCount, _⟩ | pending)
          · omega
          · exact pending
      · rfl

theorem next_lt_count {stack below : List Frame} {frame : Frame}
    (top : stack.dropWhile Frame.isSpent = frame :: below) : frame.next < frame.count := by
  have hHead := List.head?_dropWhile_not Frame.isSpent stack
  rw [top] at hHead
  simpa [Frame.isSpent] using hHead

theorem pending_cons_iff {frame : Frame} {below : List Frame} (hNext : frame.next < frame.count) :
    inspector.Pending reader target (frame :: below) ↔
      (inspector.metadata reader).RecordLeads inspector.limits.reach
          (inspector.limits.effectiveDepth - below.length) frame.list frame.next target ∨
        inspector.Pending reader target (frame.advance :: below) := by
  simp only [Pending, Frame.advance]
  constructor
  · rintro (⟨index, hLow, hHigh, leads⟩ | pending)
    · rcases Nat.eq_or_lt_of_le hLow with rfl | hLater
      · exact Or.inl leads
      · exact Or.inr (Or.inl ⟨index, hLater, hHigh, leads⟩)
    · exact Or.inr (Or.inr pending)
  · rintro (leads | ⟨index, hLow, hHigh, leads⟩ | pending)
    · exact Or.inl ⟨frame.next, Nat.le_refl _, hNext, leads⟩
    · exact Or.inl ⟨index, by omega, hHigh, leads⟩
    · exact Or.inr pending

/-- Going down into a list adds exactly the paths that start with it and are short enough. -/
theorem pending_descend_iff {list : Address} {stack : List Frame} {seen : Anomalies} :
    inspector.Pending reader target ((inspector.descend list stack seen).run reader).1 ↔
      (∃ further, further + stack.length ≤ inspector.limits.effectiveDepth ∧
        (inspector.metadata reader).Leads inspector.limits.reach further list target) ∨
      inspector.Pending reader target stack := by
  rw [run_descend]
  split_ifs with hDeep
  · constructor
    · exact Or.inr
    · rintro (⟨further, hFurther, _⟩ | pending)
      · omega
      · exact pending
  · have hNestings : (∃ further, further + stack.length ≤ inspector.limits.effectiveDepth ∧
          (inspector.metadata reader).Leads inspector.limits.reach further list target) ↔
        ∃ frame, (inspector.openList list).run reader = .frame frame ∧
          ∃ index < frame.count, (inspector.metadata reader).RecordLeads inspector.limits.reach
            (inspector.limits.effectiveDepth - stack.length) list index target := by
      have hBound (further : Nat) : further + stack.length ≤ inspector.limits.effectiveDepth ↔
          further ≤ inspector.limits.effectiveDepth - stack.length := by omega
      simp only [hBound, Metadata.exists_leads_iff, hasRecord_iff]
      constructor
      · rintro ⟨index, ⟨frame, opened, hIndex⟩, leads⟩
        exact ⟨frame, opened, index, hIndex, leads⟩
      · rintro ⟨frame, opened, index, hIndex, leads⟩
        exact ⟨index, ⟨frame, opened, hIndex⟩, leads⟩
    rw [hNestings]
    cases opened : (inspector.openList list).run reader with
    | frame frame =>
        obtain ⟨rfl, hNext⟩ := frame_of_openList opened
        simp [Pending, hNext]
    | empty => simp
    | refused reason => simp

/-- Passing a record without a match loses no path and adds none. -/
theorem Passes.pending_iff {frame : Frame} {below after : List Frame} {seen more : Anomalies}
    (step : inspector.Passes reader target frame below seen after more)
    (hNext : frame.next < frame.count) :
    inspector.Pending reader target after ↔
      inspector.Pending reader target (frame :: below) := by
  rw [pending_cons_iff hNext, recordLeads_iff]
  cases step with
  | leaf sighted => simp [sighted]
  | unreadable sighted => simp [sighted]
  | nested sighted =>
      rw [pending_descend_iff, sighted]
      have hBound (further : Nat) :
          further + (frame.advance :: below).length ≤ inspector.limits.effectiveDepth ↔
            further < inspector.limits.effectiveDepth - below.length := by
        rw [List.length_cons]
        omega
      simp only [hBound]

/-- A run that has not been cut short finds the target exactly where something leads to it. -/
theorem Scans.pending {left : Nat} {stack : List Frame} {seen : Anomalies}
    {outcome : Finding × Trace} (run : inspector.Scans reader target left stack seen outcome) :
    (outcome.1 = .found → inspector.Pending reader target stack) ∧
      (outcome.1 = .absent → ¬ inspector.Pending reader target stack) := by
  induction run with
  | absent spent =>
      refine ⟨nofun, fun _ => ?_⟩
      rw [← pending_dropWhile, spent]
      exact id
  | exhausted => exact ⟨nofun, nofun⟩
  | found top sighted =>
      refine ⟨fun _ => ?_, nofun⟩
      rw [← pending_dropWhile, top, pending_cons_iff (next_lt_count top), recordLeads_iff, sighted]
      exact Or.inl trivial
  | pass top step _ ih =>
      rw [← pending_dropWhile, top, ← step.pending_iff (next_lt_count top)]
      exact ih

theorem mem_descend {list : Address} {stack : List Frame} {seen : Anomalies} {anomaly : Anomaly}
    (h : anomaly ∈ seen) : anomaly ∈ ((inspector.descend list stack seen).run reader).2 := by
  rw [run_descend]
  split_ifs
  · exact Anomalies.mem_insert.mpr (Or.inr h)
  · split
    · exact h
    · exact h
    · exact Anomalies.mem_insert.mpr (Or.inr h)

theorem Passes.mem_of_mem {frame : Frame} {below after : List Frame} {seen more : Anomalies}
    {anomaly : Anomaly} (step : inspector.Passes reader target frame below seen after more)
    (h : anomaly ∈ seen) : anomaly ∈ more := by
  cases step with
  | leaf => exact h
  | unreadable => exact Anomalies.mem_insert.mpr (Or.inr h)
  | nested => exact mem_descend h

/-- No anomaly is forgotten. -/
theorem Scans.mem_of_mem {left : Nat} {stack : List Frame} {seen : Anomalies}
    {outcome : Finding × Trace} {anomaly : Anomaly}
    (run : inspector.Scans reader target left stack seen outcome) (h : anomaly ∈ seen) :
    anomaly ∈ outcome.2.anomalies := by
  induction run with
  | absent => exact h
  | exhausted => exact Anomalies.mem_insert.mpr (Or.inr h)
  | found => exact h
  | pass _ step _ ih => exact ih (step.mem_of_mem h)

theorem Scans.budgetExhausted_mem {left : Nat} {stack : List Frame} {seen : Anomalies}
    {outcome : Finding × Trace} (run : inspector.Scans reader target left stack seen outcome)
    (h : outcome.1 = .exhausted) : .budgetExhausted ∈ outcome.2.anomalies := by
  induction run with
  | absent => cases h
  | exhausted => exact Anomalies.mem_insert.mpr (Or.inl rfl)
  | found => cases h
  | pass _ _ _ ih => exact ih h

variable (inspector reader target) in
/-- The search of a list starts with the list as the only open one. -/
theorem scans_run_scanList (list : Address) (trace : Trace) :
    inspector.Scans reader target trace.recordsLeft
      ((inspector.descend list [] trace.anomalies).run reader).1
      ((inspector.descend list [] trace.anomalies).run reader).2
      ((inspector.scanList target list trace).run reader) := by
  unfold scanList
  rw [Probe.run_bind]
  exact inspector.scans_run_scan reader target _ _ _

theorem pending_root_iff {list : Address} {seen : Anomalies} :
    inspector.Pending reader target ((inspector.descend list [] seen).run reader).1 ↔
      ∃ depth ≤ inspector.limits.effectiveDepth,
        (inspector.metadata reader).Leads inspector.limits.reach depth list target := by
  rw [pending_descend_iff]
  simp [Pending]

end Inspector

end Conformance
