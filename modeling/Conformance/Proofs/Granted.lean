import Conformance.Proofs.Budget
import Conformance.Proofs.Exactness
/-! Queries over memory that can be read. Where everything that lies ahead of an object can be read,
no query for the object reports that a read was refused. -/
namespace Conformance

/-- An anomaly that only memory can be the reason for: a refused read, or an object without a
type. -/
def Anomaly.IsRefusal (anomaly : Anomaly) : Prop := anomaly = .invalidRead ∨ anomaly = .nullType

/-- An anomaly that the bounds of a search can be the reason for, or a chain of superclasses that
goes round in a circle. -/
def Anomaly.isBound : Anomaly → Bool
  | .hopLimit | .cycle | .depthLimit | .listTooLong | .budgetExhausted => true
  | _ => false

theorem Anomaly.IsRefusal.not_isBound {anomaly : Anomaly} (refusal : anomaly.IsRefusal) :
    anomaly.isBound = false := by
  rcases refusal with rfl | rfl <;> rfl

/-- Noting a bound notes nothing else. -/
theorem Anomalies.mem_of_mem_insert_bound {anomaly bound : Anomaly} {seen : Anomalies}
    (h : anomaly ∈ seen.insert bound) (hAnomaly : anomaly.isBound = false)
    (hBound : bound.isBound = true) : anomaly ∈ seen := by
  refine (Anomalies.mem_insert.mp h).resolve_left ?_
  rintro rfl
  exact Bool.noConfusion (hAnomaly.symm.trans hBound)

namespace Metadata

variable {metadata : Metadata}

/-- A list and every list below it can be read. -/
def ListsGranted (metadata : Metadata) (list : Address) : Prop :=
  ∀ depth last, metadata.Descends .unbounded depth list last → metadata.ListGranted last

theorem ListsGranted.self {list : Address} (granted : metadata.ListsGranted list) :
    metadata.ListGranted list :=
  granted 0 list (.zero list)

theorem ListsGranted.nested {list nested : Address} (granted : metadata.ListsGranted list)
    (first : metadata.Nests .unbounded list nested) : metadata.ListsGranted nested := by
  intro depth last descent
  exact granted (depth + 1) last (.succ first descent)

/-- A type and its superclasses can be read, as far as there are any. -/
def AncestryGranted (metadata : Metadata) (type : Address) : Prop :=
  ∀ hops ancestor, metadata.Ascends hops type ancestor → metadata.TypeGranted ancestor

/-- An open list that can be read, with all lists below it. -/
def FrameGranted (metadata : Metadata) (frame : Frame) : Prop :=
  (∃ count, metadata.count? frame.list = some count ∧ frame.count = count.toNat) ∧
    metadata.ListsGranted frame.list

theorem FrameGranted.record {frame : Frame} (granted : metadata.FrameGranted frame)
    (hNext : frame.next < frame.count) : metadata.RecordGranted frame.list frame.next := by
  obtain ⟨⟨count, hCount, hFrame⟩, hLists⟩ := granted
  obtain ⟨same, hSame, hRecords⟩ := hLists.self
  obtain rfl := Option.some.inj (hCount.symm.trans hSame)
  exact hRecords frame.next (hFrame ▸ hNext)

end Metadata

namespace Inspector

variable {inspector : Inspector} {reader : Reader} {target : Address} {anomaly : Anomaly}

theorem reason_of_openList_granted {list : Address} {reason : Anomaly}
    (hList : (inspector.metadata reader).ListGranted list)
    (h : (inspector.openList list).run reader = .refused reason) : reason = .listTooLong := by
  obtain ⟨count, hCount, -⟩ := hList
  rw [run_openList, hCount] at h
  dsimp only at h
  split_ifs at h
  cases h
  rfl

theorem frameGranted_of_openList {list : Address} {frame : Frame}
    (hList : (inspector.metadata reader).ListsGranted list)
    (h : (inspector.openList list).run reader = .frame frame) :
    (inspector.metadata reader).FrameGranted frame := by
  obtain ⟨count, hCount, -⟩ := hList.self
  rw [run_openList, hCount] at h
  dsimp only at h
  split_ifs at h
  cases h
  exact ⟨⟨count, hCount, rfl⟩, hList⟩

theorem descend_granted (list : Address) (stack : List Frame) (seen : Anomalies)
    (hList : (inspector.metadata reader).ListsGranted list)
    (hStack : ∀ frame ∈ stack, (inspector.metadata reader).FrameGranted frame)
    (hAnomaly : anomaly.isBound = false) :
    (∀ frame ∈ ((inspector.descend list stack seen).run reader).1,
        (inspector.metadata reader).FrameGranted frame) ∧
      (anomaly ∈ ((inspector.descend list stack seen).run reader).2 → anomaly ∈ seen) := by
  rw [run_descend]
  split_ifs
  · exact ⟨hStack, fun h => Anomalies.mem_of_mem_insert_bound h hAnomaly rfl⟩
  · cases hOpen : (inspector.openList list).run reader with
    | empty => exact ⟨hStack, id⟩
    | frame frame =>
        refine ⟨fun other hOther => ?_, id⟩
        rcases List.mem_cons.mp hOther with rfl | hBelow
        · exact frameGranted_of_openList hList hOpen
        · exact hStack other hBelow
    | refused reason =>
        obtain rfl := reason_of_openList_granted hList.self hOpen
        exact ⟨hStack, fun h => Anomalies.mem_of_mem_insert_bound h hAnomaly rfl⟩

theorem nests_of_inspect {reach : Reach} {list nested : Address} {index : Nat}
    (hIndex : (inspector.metadata reader).HasRecord reach list index)
    (sighted : (inspector.inspect target list index).run reader = .nested nested) :
    (inspector.metadata reader).Nests reach list nested := by
  rw [run_inspect] at sighted
  split at sighted
  · cases sighted
  · rename_i interface hInterface
    split_ifs at sighted with hTarget hNull
    split at sighted
    · cases sighted
    · rename_i below hNested
      split_ifs at sighted with hEmpty
      cases sighted
      exact ⟨index, interface, hIndex, hInterface, hNull, hNested, hEmpty⟩

theorem inspect_granted {list : Address} {index : Nat}
    (hRecord : (inspector.metadata reader).RecordGranted list index) :
    (inspector.inspect target list index).run reader ≠ .unreadable := by
  obtain ⟨interface, hInterface, hNested⟩ := hRecord
  rw [run_inspect, hInterface]
  dsimp only
  split_ifs with hTarget hNull
  · simp
  · simp
  · obtain ⟨nested, hNested⟩ := hNested hNull
    rw [hNested]
    dsimp only
    split_ifs <;> simp

theorem Passes.granted {frame : Frame} {below after : List Frame} {seen more : Anomalies}
    (step : inspector.Passes reader target frame below seen after more)
    (hNext : frame.next < frame.count)
    (hStack : ∀ other ∈ frame :: below, (inspector.metadata reader).FrameGranted other)
    (hAnomaly : anomaly.isBound = false) :
    (∀ other ∈ after, (inspector.metadata reader).FrameGranted other) ∧
      (anomaly ∈ more → anomaly ∈ seen) := by
  have hFrame := hStack frame List.mem_cons_self
  have hAdvance : ∀ other ∈ frame.advance :: below,
      (inspector.metadata reader).FrameGranted other := by
    intro other hOther
    rcases List.mem_cons.mp hOther with rfl | hBelow
    · exact hFrame
    · exact hStack other (List.mem_cons_of_mem _ hBelow)
  cases step with
  | leaf => exact ⟨hAdvance, id⟩
  | unreadable sighted => exact absurd sighted (inspect_granted (hFrame.record hNext))
  | nested sighted =>
      obtain ⟨count, hCount, hSame⟩ := hFrame.1
      have hIndex : (inspector.metadata reader).HasRecord .unbounded frame.list frame.next :=
        ⟨count, hCount, le_top, hSame ▸ hNext⟩
      have hBelow := hFrame.2.nested (nests_of_inspect hIndex sighted)
      exact descend_granted _ _ _ hBelow hAdvance hAnomaly

theorem Scans.granted {left : Nat} {stack : List Frame} {seen : Anomalies}
    {outcome : Finding × Trace} (run : inspector.Scans reader target left stack seen outcome)
    (hStack : ∀ frame ∈ stack, (inspector.metadata reader).FrameGranted frame)
    (hAnomaly : anomaly.isBound = false) (h : anomaly ∈ outcome.2.anomalies) :
    anomaly ∈ seen := by
  induction run with
  | absent => exact h
  | exhausted => exact Anomalies.mem_of_mem_insert_bound h hAnomaly rfl
  | found => exact h
  | pass top step _ ih =>
      have hTop := fun frame hFrame =>
        hStack frame ((List.dropWhile_sublist Frame.isSpent).subset (top ▸ hFrame))
      obtain ⟨hAfter, hMore⟩ := step.granted (next_lt_count top) hTop hAnomaly
      exact hMore (ih hAfter h)

theorem visitType_granted {type : Address} {search : Search}
    (hType : (inspector.metadata reader).TypeGranted type) (hAnomaly : anomaly.isBound = false)
    (h : anomaly ∈ (inspector.visitType reader target type search).value.trace.anomalies) :
    anomaly ∈ search.trace.anomalies := by
  obtain ⟨-, list, hList, hLists⟩ := hType
  rw [visitType_eq, hList] at h
  dsimp only at h
  by_cases hNull : list = 0
  · rwa [if_pos hNull] at h
  · have opened := descend_granted list [] search.trace.anomalies (hLists hNull)
      (fun _ h => absurd h List.not_mem_nil) hAnomaly
    have run := inspector.scans_run_scanList reader target list search.trace
    rw [if_neg hNull] at h
    split_ifs at h <;> exact opened.2 (run.granted opened.1 hAnomaly h)

theorem visitEach_granted {types : List Address} {search : Search}
    (hTypes : ∀ type ∈ types, (inspector.metadata reader).TypeGranted type)
    (hAnomaly : anomaly.isBound = false)
    (h : anomaly ∈
      (visitEach (inspector.visitType reader target) types search).value.trace.anomalies) :
    anomaly ∈ search.trace.anomalies := by
  induction types generalizing search with
  | nil => exact h
  | cons type rest ih =>
      have here := @visitType_granted inspector reader target anomaly type search
        (hTypes type List.mem_cons_self) hAnomaly
      rw [visitEach] at h
      cases hStep : inspector.visitType reader target type search with
      | done after =>
          rw [hStep] at h here
          exact here h
      | yield after =>
          rw [hStep] at h here
          exact here (ih (fun other hOther => hTypes other (List.mem_cons_of_mem _ hOther)) h)

/-- A climb from a type that can be read, as far as its superclasses go, ends at a null superclass
or for a bound. -/
theorem lineageFrom_granted {hopsLeft : Nat} {marker : Marker} {type : Address}
    (ancestry : (inspector.metadata reader).AncestryGranted type)
    (hAnomaly : anomaly.isBound = false) :
    (inspector.lineageFrom reader hopsLeft marker type).reason ≠ some anomaly := by
  fun_induction inspector.lineageFrom reader hopsLeft marker type with
  | case1 hopsLeft marker type hUnreadable =>
      obtain ⟨⟨superclass, hSuperclass⟩, -⟩ := ancestry 0 type (.zero type)
      rw [hUnreadable] at hSuperclass
      cases hSuperclass
  | case2 => simp
  | case3 | case4 =>
      rintro h
      cases h
      cases hAnomaly
  | case5 marker type superclass hSuperclass hNonnull hopsLeft _ ih =>
      refine ih fun hops ancestor ascent => ?_
      exact ancestry (hops + 1) ancestor (.succ hSuperclass hNonnull ascent)

theorem reason_of_visit_granted {σ : Type} {visit : Address → σ → ForInStep σ} {state : σ}
    {type : Address} (ancestry : (inspector.metadata reader).AncestryGranted type)
    (hAnomaly : anomaly.isBound = false) :
    ((inspector.lineage reader type).visit visit state).2 ≠ some anomaly := by
  unfold Lineage.visit
  cases visitEach visit (inspector.lineage reader type).earlier state with
  | done => simp
  | yield => exact lineageFrom_granted ancestry hAnomaly

theorem searchAncestry_granted {type : Address} {trace : Trace}
    (ancestry : (inspector.metadata reader).AncestryGranted type)
    (hAnomaly : anomaly.isBound = false)
    (h : anomaly ∈ ((inspector.searchAncestry target type trace).run reader).2.anomalies) :
    anomaly ∈ trace.anomalies := by
  rw [run_searchAncestry] at h
  rcases Trace.mem_flag?.mp h with hReason | hVisited
  · exact absurd hReason.symm (reason_of_visit_granted ancestry hAnomaly)
  · refine visitEach_granted (fun ancestor hAncestor => ?_) hAnomaly hVisited
    obtain ⟨hops, -, ascent⟩ := mem_lineage_iff.mp hAncestor
    exact ancestry hops ancestor ascent

theorem inheritsFrom_granted {type ancestor : Address} {trace : Trace}
    (ancestry : (inspector.metadata reader).AncestryGranted type)
    (hAnomaly : anomaly.isBound = false)
    (h : anomaly ∈ ((inspector.inheritsFrom type ancestor trace).run reader).2.anomalies) :
    anomaly ∈ trace.anomalies := by
  unfold inheritsFrom at h
  rw [Probe.run_bind, run_visitAncestry] at h
  refine (Trace.mem_flag?.mp h).resolve_left fun hReason => ?_
  exact reason_of_visit_granted ancestry hAnomaly hReason.symm

/-- A query for an object whose memory can be read reports no refused read and no missing type. -/
theorem verdict_granted {object protocol : Address}
    (hObject : (inspector.metadata reader).ObjectGranted object) (hAnomaly : anomaly.IsRefusal) :
    anomaly ∉ ((inspector.verdict object protocol).run reader).anomalies := by
  obtain ⟨type, hType, hNonnull, ancestry⟩ := hObject
  intro h
  rw [run_verdict] at h
  split_ifs at h with hNull
  · have hOnly := Anomalies.mem_only.mp h
    rcases hAnomaly with rfl | rfl <;> cases hOnly
  · rw [hType] at h
    dsimp only at h
    rw [if_neg hNonnull] at h
    exact Anomalies.not_mem_none _ (searchAncestry_granted ancestry hAnomaly.not_isBound h)

end Inspector

end Conformance
