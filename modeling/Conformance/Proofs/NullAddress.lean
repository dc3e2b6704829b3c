import Conformance.Proofs.Bounds
/-! Reads of the null address. Each step of a query starts from addresses that are not null, and
what it reads lies there or behind. Only a tagged word leads elsewhere: it is followed to its
wrapper before the pointer is compared with null, so a word of tags alone has address zero read. -/
namespace Conformance

namespace Probe

/-- Something is read at an address. -/
def ReadAt (events : List Event) (address : Address) : Prop :=
  ∃ length granted, .read address length granted ∈ events

@[simp] theorem not_readAt_nil (address : Address) : ¬ ReadAt [] address := by
  simp [ReadAt]

@[simp] theorem readAt_append_iff {first second : List Event} {address : Address} :
    ReadAt (first ++ second) address ↔ ReadAt first address ∨ ReadAt second address := by
  simp only [ReadAt, List.mem_append, exists_or]

theorem readAt_flatMap_iff {α : Type} {list : List α} {f : α → List Event} {address : Address} :
    ReadAt (list.flatMap f) address ↔ ∃ a ∈ list, ReadAt (f a) address := by
  simp only [ReadAt, List.mem_flatMap]
  constructor
  · rintro ⟨length, granted, a, hMem, hRead⟩
    exact ⟨a, hMem, length, granted, hRead⟩
  · rintro ⟨a, hMem, length, granted, hRead⟩
    exact ⟨length, granted, a, hMem, hRead⟩

/-- Fetching reads at the address of a position and nowhere else. -/
theorem readAt_fetch_iff {α : Type} {reader : Reader} {position length : Nat}
    {decode : List UInt8 → α} {address : Address} :
    ReadAt ((fetch position length decode).events reader) address ↔
      position = address.toNat := by
  rw [events_fetch, ← Address.ofPosition?_eq_some_iff]
  cases Address.ofPosition? position <;> simp [ReadAt, eq_comm]

theorem not_readAt_null_of_pos {α : Type} {reader : Reader} {position length : Nat}
    {decode : List UInt8 → α} (hPosition : 0 < position) :
    ¬ ReadAt ((fetch position length decode).events reader) 0 := by
  rw [readAt_fetch_iff]
  exact Nat.ne_of_gt hPosition

theorem not_readAt_locate {reader : Reader} (position : Nat) (address : Address) :
    ¬ ReadAt ((locate position).events reader) address := by
  unfold locate
  cases Address.ofPosition? position <;> simp [ReadAt, events]

end Probe

namespace Metadata

variable (metadata : Metadata)

/-- The pointer that one hop leads to. -/
def hop? (base : Address) (hop : Hop) : Option Address :=
  (metadata.layout.readHop base hop).run metadata.reader

/-- A hop leads through a wrapper at the null address: its word is tagged, and nothing is left of
the word without its tags. -/
def WrapsNull (base : Address) (hop : Hop) : Prop :=
  ∃ word, metadata.pointer? (Address.plus base hop.offset) = some word ∧
    word &&& hop.tag ≠ 0 ∧ word &&& hop.mask = 0

/-- Following some hops from a base leads through a wrapper at the null address. -/
inductive MeetsNullWrapper : Address → List Hop → Prop where
  | here {base : Address} {hop : Hop} {rest : List Hop} (wraps : metadata.WrapsNull base hop) :
      MeetsNullWrapper base (hop :: rest)
  | later {base next : Address} {hop : Hop} {rest : List Hop}
      (leads : metadata.hop? base hop = some next) (hNonnull : next ≠ 0)
      (meets : MeetsNullWrapper next rest) : MeetsNullWrapper base (hop :: rest)

/-- A wrapper is read before its address is compared with null. -/
theorem readAt_null_readHop_iff {base : Address} (hBase : base ≠ 0) (hop : Hop) :
    Probe.ReadAt ((metadata.layout.readHop base hop).events metadata.reader) 0 ↔
      metadata.WrapsNull base hop := by
  have hField : ¬ Probe.ReadAt ((metadata.layout.readPointer
      (Address.plus base hop.offset)).events metadata.reader) 0 :=
    Probe.not_readAt_null_of_pos (Address.plus_pos hBase hop.offset)
  unfold Layout.readHop WrapsNull pointer?
  rw [Probe.events_bind, Probe.readAt_append_iff, or_iff_right hField]
  cases (metadata.layout.readPointer (Address.plus base hop.offset)).run metadata.reader with
  | none => simp
  | some word =>
      simp only [Option.some.injEq, exists_eq_left']
      split_ifs with hTag
      · simp [hTag]
      · have hWrapper : Probe.ReadAt ((metadata.layout.readPointer
            (word &&& hop.mask).toNat).events metadata.reader) 0 ↔ word &&& hop.mask = 0 := by
          rw [← UInt64.toNat_inj]
          exact Probe.readAt_fetch_iff
        rw [hWrapper]
        exact (and_iff_right hTag).symm

theorem readAt_null_followHops_iff {base : Address} (hBase : base ≠ 0) (hops : List Hop) :
    Probe.ReadAt ((metadata.layout.followHops base hops).events metadata.reader) 0 ↔
      metadata.MeetsNullWrapper base hops := by
  induction hops generalizing base with
  | nil => exact ⟨fun h => absurd h (Probe.not_readAt_nil 0), nofun⟩
  | cons hop rest ih =>
      unfold Layout.followHops
      rw [Probe.events_bind, Probe.readAt_append_iff, metadata.readAt_null_readHop_iff hBase]
      have hMeets : metadata.MeetsNullWrapper base (hop :: rest) ↔
          metadata.WrapsNull base hop ∨ ∃ next, metadata.hop? base hop = some next ∧ next ≠ 0 ∧
            metadata.MeetsNullWrapper next rest := by
        constructor
        · intro h
          cases h with
          | here wraps => exact Or.inl wraps
          | later leads hNonnull meets => exact Or.inr ⟨_, leads, hNonnull, meets⟩
        · rintro (wraps | ⟨next, leads, hNonnull, meets⟩)
          · exact .here wraps
          · exact .later leads hNonnull meets
      rw [hMeets]
      apply or_congr_right
      unfold hop?
      cases (metadata.layout.readHop base hop).run metadata.reader with
      | none => simp
      | some next =>
          simp only [Option.some.injEq, exists_eq_left']
          split_ifs with hNull
          · simp [hNull]
          · rw [ih hNull]
            exact (and_iff_right hNull).symm

end Metadata

/-- The field that is followed in a step leads through a wrapper at the null address. -/
def Step.MeetsNullWrapper (metadata : Metadata) : Step → Prop
  | .typeOf object => metadata.MeetsNullWrapper object metadata.layout.objectType.hops
  | .ascend _ _ type => metadata.MeetsNullWrapper type metadata.layout.superclass.hops
  | .declare type => metadata.MeetsNullWrapper type metadata.layout.conformances.hops
  | _ => False

namespace Inspector

variable {inspector : Inspector} {reader : Reader}

theorem readAt_null_typeOf_iff {object : Address} (hObject : object ≠ 0) :
    Probe.ReadAt ((inspector.typeOf object).events reader) 0 ↔
      (inspector.metadata reader).MeetsNullWrapper object inspector.layout.objectType.hops := by
  rw [← (inspector.metadata reader).readAt_null_followHops_iff hObject]
  unfold typeOf
  rw [Probe.events_bind, Probe.readAt_append_iff]
  refine or_iff_left ?_
  cases (inspector.layout.follow object inspector.layout.objectType).run reader with
  | none => simp
  | some type =>
      dsimp only
      split_ifs <;> simp

theorem not_readAt_null_openList {list : Address} (hList : list ≠ 0) :
    ¬ Probe.ReadAt ((inspector.openList list).events reader) 0 := by
  have hHead : ¬ Probe.ReadAt ((inspector.layout.readCount
      (Address.plus list inspector.layout.list.countOffset)).events reader) 0 :=
    Probe.not_readAt_null_of_pos (Address.plus_pos hList _)
  unfold openList
  rw [Probe.events_bind, Probe.readAt_append_iff, or_iff_right hHead]
  cases (inspector.layout.readCount _).run reader with
  | none => simp
  | some count =>
      dsimp only
      split_ifs <;> simp

/-- A record lies behind the start of its list, and what is nested below it lies behind the record
or behind the start of a protocol that is not null. -/
theorem not_readAt_null_inspect (target : Address) {list : Address} (hList : list ≠ 0)
    (index : Nat) : ¬ Probe.ReadAt ((inspector.inspect target list index).events reader) 0 := by
  have hRecord : 0 < inspector.layout.recordPosition list index :=
    Nat.lt_of_lt_of_le (Address.plus_pos hList _) (Nat.le_add_right _ _)
  have hField : ¬ Probe.ReadAt ((inspector.layout.readPointer
      (inspector.layout.recordPosition list index +
        inspector.layout.record.interfaceOffset.toNat)).events reader) 0 :=
    Probe.not_readAt_null_of_pos (Nat.lt_of_lt_of_le hRecord (Nat.le_add_right _ _))
  unfold inspect
  rw [Probe.events_bind, Probe.readAt_append_iff, or_iff_right hField]
  cases (inspector.layout.readPointer _).run reader with
  | none => simp
  | some interface =>
      dsimp only
      split_ifs with hTarget hNull
      · simp
      · simp
      · cases hNested : inspector.layout.nestedPosition? _ interface with
        | none => simp
        | some position =>
            have hPosition : 0 < position := by
              unfold Layout.nestedPosition? at hNested
              split at hNested
              · cases hNested
              · cases hNested
                exact Nat.lt_of_lt_of_le hRecord (Nat.le_add_right _ _)
              · cases hNested
                exact Address.plus_pos hNull _
            have hBelow : ¬ Probe.ReadAt
                ((inspector.layout.readPointer position).events reader) 0 :=
              Probe.not_readAt_null_of_pos hPosition
            dsimp only
            rw [Probe.events_bind, Probe.readAt_append_iff, or_iff_right hBelow]
            cases (inspector.layout.readPointer position).run reader with
            | none => simp
            | some nested =>
                dsimp only
                split_ifs <;> simp

theorem not_readAt_null_readHeader (encoding : CompositionLayout) {composition : Address}
    (hComposition : composition ≠ 0) :
    ¬ Probe.ReadAt ((inspector.readHeader encoding composition).events reader) 0 := by
  have hKind : ¬ Probe.ReadAt ((inspector.layout.readWord
      (Address.plus composition encoding.kindOffset)).events reader) 0 :=
    Probe.not_readAt_null_of_pos (Address.plus_pos hComposition _)
  have hHalf (offset : UInt64) : ¬ Probe.ReadAt ((inspector.layout.readHalf
      (Address.plus composition offset)).events reader) 0 :=
    Probe.not_readAt_null_of_pos (Address.plus_pos hComposition _)
  unfold readHeader
  rw [Probe.events_bind, Probe.readAt_append_iff, or_iff_right hKind]
  cases (inspector.layout.readWord _).run reader with
  | none => simp
  | some word =>
      dsimp only
      split_ifs
      · simp
      · rw [Probe.events_bind, Probe.readAt_append_iff, or_iff_right (hHalf _), Probe.events_bind,
          Probe.readAt_append_iff, or_iff_right (hHalf _)]
        cases (inspector.layout.readHalf (Address.plus composition encoding.flagsOffset)).run
          reader with
        | none => simp
        | some flags =>
            cases (inspector.layout.readHalf (Address.plus composition encoding.countOffset)).run
              reader with
            | none => simp
            | some count =>
                dsimp only
                split_ifs <;> simp

theorem readAt_null_step_iff {step : Step} (sound : step.Sound inspector.limits) :
    Probe.ReadAt (step.events inspector reader) 0 ↔
      step.MeetsNullWrapper (inspector.metadata reader) := by
  cases step with
  | typeOf object => exact readAt_null_typeOf_iff sound
  | ascend hopsLeft marker type =>
      exact (inspector.metadata reader).readAt_null_followHops_iff sound.1 _
  | declare type => exact (inspector.metadata reader).readAt_null_followHops_iff sound _
  | enter height list => exact iff_of_false (not_readAt_null_openList sound.1) id
  | search target left stack =>
      refine iff_of_false ?_ id
      unfold Step.events
      dsimp only
      cases hNext : nextRecord? left stack with
      | none => exact Probe.not_readAt_nil 0
      | some frame =>
          have hFrame := sound.2.2 frame (mem_of_nextRecord? hNext).1
          exact not_readAt_null_inspect target hFrame.1 frame.next
  | header encoding composition =>
      exact iff_of_false (not_readAt_null_readHeader encoding sound) id
  | trailing position => exact iff_of_false (Probe.not_readAt_null_of_pos sound) id
  | locate position => exact iff_of_false (Probe.not_readAt_locate position 0) id

variable (inspector reader)

/-- A query reads the null address exactly where a field that it follows leads through a wrapper at
the null address: nothing else that it reads can lie there. -/
theorem reads_null_iff (query : Query) :
    Probe.ReadAt ((query.probe inspector).events reader) 0 ↔
      ∃ step ∈ inspector.querySteps reader query,
        step.MeetsNullWrapper (inspector.metadata reader) := by
  obtain ⟨after, accounts⟩ := inspector.accounts_querySteps reader query
  rw [events_query, Probe.readAt_flatMap_iff]
  refine exists_congr fun step => and_congr_right fun hStep => ?_
  exact readAt_null_step_iff (accounts.sound step hStep)

end Inspector

/-- An object at `0x100` whose class has no protocols of its own: the word of its read-write data is
a tag and nothing else. What lies at the null address is taken for read-only data. -/
def untargetedMemory : Reader :=
  .ofWords [(0x100, 0x200), (0x208, 0), (0x220, 0x300), (0x308, 1), (0, 0x400), (0x428, 0x500),
    (0x500, 1), (0x508, 0x600)]

/-- A class without protocols is found to conform to one, by way of the null address. -/
theorem verdict_reads_null_wrapper :
    let inspector : Inspector := ⟨Runtime.objc2Arm64.layout, .default⟩
    inspector.layout.validate = .ok () ∧
      Probe.ReadAt ((inspector.verdict 0x100 0x600).events untargetedMemory) 0 ∧
      (inspector.verdict 0x100 0x600).run untargetedMemory = ⟨true, .none⟩ := by
  refine ⟨by decide +kernel, ⟨8, true, by decide +kernel⟩, by decide +kernel⟩

end Conformance
