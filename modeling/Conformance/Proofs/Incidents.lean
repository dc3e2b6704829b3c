import Conformance.Proofs.Climb
import Conformance.Proofs.Granted
import Conformance.Proofs.Refusal
/-! What goes wrong in a step. A step of a query notes one anomaly at most. A refused read is noted
exactly if something is refused in the step; for every other anomaly, the place where the step
stands, so many superclasses up and so many lists down, gives the cause that memory holds. -/
namespace Conformance

namespace Metadata

variable (metadata : Metadata) (reach : Reach)

/-- A list lies exactly `level` nestings below the list of a type or of one of its superclasses. -/
def Reaches (start : Address) (level : Nat) (list : Address) : Prop :=
  ∃ (hops : Nat) (ancestor root : Address), (hops : ℕ∞) ≤ reach.hops ∧
    metadata.Ascends hops start ancestor ∧ metadata.conformances? ancestor = some root ∧
    root ≠ 0 ∧ metadata.Descends reach level root list

/-- Open lists whose records are those of the lists, each nested below the one under it. -/
def Opened (start : Address) : List Frame → Prop
  | [] => True
  | frame :: below =>
      metadata.Reaches reach start below.length frame.list ∧
        (∀ index < frame.count, metadata.HasRecord reach frame.list index) ∧ Opened start below

variable {metadata reach} {start list below : Address} {level : Nat} {stack : List Frame}

theorem Descends.snoc {last : Address} (descent : metadata.Descends reach level list last)
    (next : metadata.Nests reach last below) : metadata.Descends reach (level + 1) list below := by
  induction descent with
  | zero => exact .succ next (.zero below)
  | succ first _ ih => exact .succ first (ih next)

theorem Reaches.nested (reaches : metadata.Reaches reach start level list)
    (next : metadata.Nests reach list below) :
    metadata.Reaches reach start (level + 1) below := by
  obtain ⟨hops, ancestor, root, hHops, ascent, hRoot, hNonnull, descent⟩ := reaches
  exact ⟨hops, ancestor, root, hHops, ascent, hRoot, hNonnull, descent.snoc next⟩

theorem Opened.dropWhile (opened : metadata.Opened reach start stack) (test : Frame → Bool) :
    metadata.Opened reach start (stack.dropWhile test) := by
  induction stack with
  | nil => exact opened
  | cons frame below ih =>
      rw [List.dropWhile_cons]
      split_ifs
      · exact ih opened.2.2
      · exact opened

end Metadata

/-- Some anomalies are those met before and the one for a reason, if there is one. -/
def Anomalies.Adds (reason : Option Anomaly) (before after : Anomalies) : Prop :=
  ∀ anomaly, anomaly ∈ after ↔ some anomaly = reason ∨ anomaly ∈ before

theorem Anomalies.adds_none (set : Anomalies) : Adds Option.none set set := by
  simp [Adds]

theorem Anomalies.adds_insert (reason : Anomaly) (set : Anomalies) :
    Adds (some reason) set (set.insert reason) := by
  simp [Adds]

theorem Trace.adds_flag? (trace : Trace) (reason : Option Anomaly) :
    Anomalies.Adds reason trace.anomalies (trace.flag? reason).anomalies :=
  fun _ => mem_flag?

namespace Step

/-- The anomaly that is noted in a step. -/
def anomaly? (inspector : Inspector) (reader : Reader) : Step → Option Anomaly
  | .typeOf object =>
      match (inspector.typeOf object).run reader with
      | .error reason => some reason
      | .ok _ => none
  | .ascend hopsLeft marker type =>
      match (inspector.metadata reader).superclass? type with
      | none => some .invalidRead
      | some superclass =>
          if superclass = 0 then none
          else if hopsLeft = 0 then some .hopLimit
          else if superclass = marker.type then some .cycle
          else none
  | .declare type =>
      match (inspector.metadata reader).conformances? type with
      | none => some .invalidRead
      | some _ => none
  | .enter _ list =>
      match (inspector.openList list).run reader with
      | .refused reason => some reason
      | .frame _ | .empty => none
  | .search target recordsLeft stack =>
      match recordsLeft, stack.dropWhile Frame.isSpent with
      | _, [] => none
      | 0, _ :: _ => some .budgetExhausted
      | _ + 1, frame :: below =>
          match (inspector.inspect target frame.list frame.next).run reader with
          | .unreadable => some .invalidRead
          | .nested _ =>
              if inspector.limits.effectiveDepth < below.length + 1 then some .depthLimit else none
          | .target | .leaf => none
  | .header encoding composition =>
      match (inspector.readHeader encoding composition).run reader with
      | .error reason => some reason
      | .ok _ => none
  | .trailing position =>
      match (inspector.metadata reader).pointer? position with
      | none => some .invalidRead
      | some _ => none
  | .locate position =>
      match Address.ofPosition? position with
      | none => some .invalidRead
      | some _ => none

/-- A step notes a refused read exactly if something is refused in it. -/
theorem refuses_iff (inspector : Inspector) (reader : Reader) (step : Step) :
    (∃ event ∈ step.events inspector reader, event.isRefusal = true) ↔
      step.anomaly? inspector reader = some .invalidRead := by
  cases step with
  | typeOf object =>
      refine (inspector.tells_typeOf object reader).trans ?_
      unfold anomaly?
      dsimp only
      cases (inspector.typeOf object).run reader <;> simp
  | ascend hopsLeft marker type =>
      refine (inspector.layout.tells_follow type _ reader).trans ?_
      unfold anomaly? Metadata.superclass? Metadata.field? Inspector.metadata
      dsimp only
      cases (inspector.layout.follow type inspector.layout.superclass).run reader with
      | none => simp
      | some superclass =>
          dsimp only
          split_ifs <;> simp
  | declare type =>
      refine (inspector.layout.tells_follow type _ reader).trans ?_
      unfold anomaly? Metadata.conformances? Metadata.field? Inspector.metadata
      dsimp only
      cases (inspector.layout.follow type inspector.layout.conformances).run reader <;> simp
  | enter height list =>
      refine (inspector.tells_openList list reader).trans ?_
      unfold anomaly?
      dsimp only
      cases (inspector.openList list).run reader <;> simp
  | search target recordsLeft stack =>
      unfold events anomaly? nextRecord?
      dsimp only
      cases recordsLeft with
      | zero => cases stack.dropWhile Frame.isSpent <;> simp
      | succ left =>
          dsimp only
          cases stack.dropWhile Frame.isSpent with
          | nil => simp
          | cons frame below =>
              refine (inspector.tells_inspect target frame.list frame.next reader).trans ?_
              dsimp only
              cases (inspector.inspect target frame.list frame.next).run reader with
              | nested list =>
                  dsimp only
                  split_ifs <;> simp
              | _ => simp
  | header encoding composition =>
      refine (inspector.tells_readHeader encoding composition reader).trans ?_
      unfold anomaly?
      dsimp only
      cases (inspector.readHeader encoding composition).run reader <;> simp
  | trailing position =>
      refine (inspector.layout.tells_readPointer position reader).trans ?_
      unfold anomaly? Metadata.pointer? Inspector.metadata
      dsimp only
      cases (inspector.layout.readPointer position).run reader <;> simp
  | locate position =>
      refine (Probe.tells_locate position reader).trans ?_
      unfold anomaly?
      rw [Probe.run_locate]
      dsimp only
      cases Address.ofPosition? position <;> simp

end Step

namespace Query

/-- The object of a query. -/
def object? : Query → Option Address
  | .ofObject object _ | .ofComposition object _ => some object
  | .ofType _ _ => none

/-- The search of a query starts from a type. -/
def Starts (metadata : Metadata) : Query → Address → Prop
  | .ofObject object _, type | .ofComposition object _, type =>
      metadata.objectType? object = some type
  | .ofType first _, type => type = first

end Query

/-- Where a step stands in a query: how far up the chain of superclasses, and how far below the list
of a type there. -/
def Step.Stands (inspector : Inspector) (reader : Reader) (query : Query) : Step → Prop
  | .typeOf object => query.object? = some object
  | .ascend _ marker type =>
      ∃ start hops, query.Starts (inspector.metadata reader) start ∧
        marker.Follows (inspector.metadata reader) start hops type
  | .enter height list =>
      ∃ start, query.Starts (inspector.metadata reader) start ∧
        (inspector.metadata reader).Reaches inspector.limits.reach start height list
  | .search _ _ stack =>
      ∃ start, query.Starts (inspector.metadata reader) start ∧
        (inspector.metadata reader).Opened inspector.limits.reach start stack
  | .header encoding composition =>
      ∃ object, query = .ofComposition object composition ∧
        inspector.layout.composition = some encoding
  | .declare _ | .trailing _ | .locate _ => True

/-- What memory holds where an anomaly is reported. Nothing is asked of an anomaly that is about the
question, or about the records that are allowed. -/
def Anomaly.Caused (inspector : Inspector) (reader : Reader) (query : Query) : Anomaly → Prop
  | .invalidRead => (query.probe inspector).Refuses reader
  | .nullType =>
      ∃ object, query.object? = some object ∧
        (inspector.metadata reader).objectType? object = some 0
  | .hopLimit =>
      ∃ start ancestor, query.Starts (inspector.metadata reader) start ∧
        (inspector.metadata reader).Ascends (inspector.limits.superclassHops + 1) start ancestor
  | .cycle =>
      ∃ start type first second, query.Starts (inspector.metadata reader) start ∧
        first < second ∧ (inspector.metadata reader).Ascends first start type ∧
        (inspector.metadata reader).Ascends second start type
  | .depthLimit =>
      ∃ start list nested, query.Starts (inspector.metadata reader) start ∧
        (inspector.metadata reader).Reaches inspector.limits.reach start
          inspector.limits.effectiveDepth list ∧
        (inspector.metadata reader).Nests inspector.limits.reach list nested
  | .listTooLong =>
      (∃ start level list count, query.Starts (inspector.metadata reader) start ∧
        level ≤ inspector.limits.effectiveDepth ∧
        (inspector.metadata reader).Reaches inspector.limits.reach start level list ∧
        (inspector.metadata reader).count? list = some count ∧
        inspector.limits.listEntries < count.toNat) ∨
      ∃ object composition encoding count, query = .ofComposition object composition ∧
        inspector.layout.composition = some encoding ∧
        (inspector.metadata reader).half? (Address.plus composition encoding.countOffset) =
          some count ∧
        inspector.limits.listEntries < count.toNat
  | .nullAddress | .unresolved | .budgetExhausted | .notAComposition => True

namespace Inspector

variable {inspector : Inspector} {reader : Reader} {query : Query}

theorem count_of_refused {list : Address} {reason : Anomaly}
    (h : (inspector.openList list).run reader = .refused reason) :
    reason = .invalidRead ∨ reason = .listTooLong ∧
      ∃ count, (inspector.metadata reader).count? list = some count ∧
        inspector.limits.listEntries < count.toNat := by
  rw [run_openList] at h
  split at h
  · cases h
    exact Or.inl rfl
  · rename_i count hCount
    split_ifs at h with hZero hLong
    cases h
    exact Or.inr ⟨rfl, count, hCount, hLong⟩

theorem count_of_error {encoding : CompositionLayout} {composition : Address} {reason : Anomaly}
    (h : (inspector.readHeader encoding composition).run reader = .error reason) :
    reason = .invalidRead ∨ reason = .notAComposition ∨ reason = .listTooLong ∧
      ∃ count, (inspector.metadata reader).half? (Address.plus composition encoding.countOffset) =
        some count ∧ inspector.limits.listEntries < count.toNat := by
  rw [run_readHeader] at h
  split at h
  · cases h
    exact Or.inl rfl
  · split_ifs at h
    · cases h
      exact Or.inr (Or.inl rfl)
    · split at h
      · rename_i flags count _ hCount
        split_ifs at h with hLong
        cases h
        exact Or.inr (Or.inr ⟨rfl, count, hCount, hLong⟩)
      · cases h
        exact Or.inl rfl

end Inspector

/-- What a step notes has its cause in the place where the step stands. -/
theorem Step.caused {inspector : Inspector} {reader : Reader} {query : Query} {step : Step}
    {anomaly : Anomaly} (sound : step.Sound inspector.limits)
    (stands : step.Stands inspector reader query)
    (hAnomaly : step.anomaly? inspector reader = some anomaly)
    (hRead : anomaly ≠ .invalidRead) : anomaly.Caused inspector reader query := by
  unfold Step.anomaly? at hAnomaly
  cases step with
  | typeOf object =>
      dsimp only at hAnomaly
      rw [Inspector.run_typeOf] at hAnomaly
      cases hType : (inspector.metadata reader).objectType? object with
      | none =>
          rw [hType] at hAnomaly
          cases hAnomaly
          exact absurd rfl hRead
      | some type =>
          rw [hType] at hAnomaly
          dsimp only at hAnomaly
          split_ifs at hAnomaly with hNull
          cases hAnomaly
          exact ⟨object, stands, hNull ▸ hType⟩
  | ascend hopsLeft marker type =>
      obtain ⟨start, hops, hStart, follows⟩ := stands
      have hHops := follows.hops_add sound.2
      dsimp only at hAnomaly
      split at hAnomaly
      · cases hAnomaly
        exact absurd rfl hRead
      · rename_i superclass hSuperclass
        split_ifs at hAnomaly with hNull hSpent hMarked
        · -- The hops allowed are used up, and there is one more superclass.
          cases hAnomaly
          have ascent := follows.reached.snoc hSuperclass hNull
          rw [hSpent, Nat.add_zero] at hHops
          exact ⟨start, superclass, hStart, hHops ▸ ascent⟩
        · -- The marker was left behind on the same chain.
          cases hAnomaly
          have ascent := follows.reached.snoc hSuperclass hNull
          have hSum := follows.sum
          rw [hMarked] at ascent
          exact ⟨start, marker.type, marker.reach - 1, hops + 1, hStart, by omega,
            follows.marked, ascent⟩
  | enter height list =>
      obtain ⟨start, hStart, reaches⟩ := stands
      dsimp only at hAnomaly
      split at hAnomaly
      · rename_i reason hOpen
        cases hAnomaly
        obtain rfl | ⟨rfl, count, hCount, hLong⟩ := Inspector.count_of_refused hOpen
        · exact absurd rfl hRead
        · exact Or.inl ⟨start, height, list, count, hStart, sound.2, reaches, hCount, hLong⟩
      all_goals cases hAnomaly
  | search target recordsLeft stack =>
      obtain ⟨start, hStart, opened⟩ := stands
      dsimp only at hAnomaly
      split at hAnomaly
      · cases hAnomaly
      · cases hAnomaly
        trivial
      · rename_i left frame below top
        split at hAnomaly
        · cases hAnomaly
          exact absurd rfl hRead
        · rename_i nested sighted
          split_ifs at hAnomaly with hDeep
          cases hAnomaly
          have hTop := opened.dropWhile Frame.isSpent
          rw [top] at hTop
          obtain ⟨reaches, records, -⟩ := hTop
          have hLevel : below.length = inspector.limits.effectiveDepth := by
            have hHeight := (List.dropWhile_sublist Frame.isSpent (l := stack)).length_le
            have hStack := sound.2.1
            rw [top, List.length_cons] at hHeight
            omega
          have nests := Inspector.nests_of_inspect (records _ (Inspector.next_lt_count top)) sighted
          exact ⟨start, frame.list, nested, hStart, hLevel ▸ reaches, nests⟩
        all_goals cases hAnomaly
  | header encoding composition =>
      obtain ⟨object, rfl, hLayout⟩ := stands
      dsimp only at hAnomaly
      split at hAnomaly
      · rename_i reason hHeader
        cases hAnomaly
        obtain rfl | rfl | ⟨rfl, count, hCount, hLong⟩ := Inspector.count_of_error hHeader
        · exact absurd rfl hRead
        · trivial
        · exact Or.inr ⟨object, composition, encoding, count, rfl, hLayout, hCount, hLong⟩
      · cases hAnomaly
  | declare | trailing | locate =>
      dsimp only at hAnomaly
      split at hAnomaly
      · cases hAnomaly
        exact absurd rfl hRead
      · cases hAnomaly

end Conformance
