import Conformance.Proofs.Builder.Effects
/-! Builders that any calls lead to. Nothing is assumed of the arguments of the calls, nor of the
place of the first byte: a call may name what was never laid out, write into structures of others,
and fail halfway. It never takes bytes away, and it leaves a builder to which blocks can be
appended. -/
namespace Conformance

namespace Builder

/-- A builder is reached from another one by calls with any arguments. -/
inductive Reaches (first : Builder) : Builder → Prop where
  | refl : Reaches first first
  | protocol {builder : Builder} (run : Reaches first builder) (incorporated : List Address) :
      Reaches first (builder.after (Build.protocol incorporated))
  | type {builder : Builder} (run : Reaches first builder) (superclass : Option Address)
      (declared : List Address) : Reaches first (builder.after (Build.type superclass declared))
  | object {builder : Builder} (run : Reaches first builder) (type : Address) :
      Reaches first (builder.after (Build.object type))
  | composition {builder : Builder} (run : Reaches first builder) (protocols : List Address)
      (superclass : Option Address) :
      Reaches first (builder.after (Build.composition protocols superclass))
  | setSuperclass {builder : Builder} (run : Reaches first builder) (type superclass : Address) :
      Reaches first (builder.after (Build.setSuperclass type superclass))
  | writePointer {builder : Builder} (run : Reaches first builder) (address value : Address) :
      Reaches first (builder.after (Build.writePointer address value))

end Builder

namespace Build

variable {α β : Type}

/-- An operation continues every builder, with whatever result. -/
def Advances (action : Build α) : Prop :=
  ∀ builder : Builder, builder.Fits →
    Ensures action builder (fun _ after => builder.Continues after) builder.Continues

/-- An operation works on bytes from a position on, in every builder that ends there or later, and
hands out results for which `post` holds. -/
def Works (floor : Nat) (action : Build α) (post : α → Prop) : Prop :=
  ∀ builder : Builder, builder.Fits → floor ≤ builder.finish →
    Ensures action builder (fun result after => post result ∧ builder.Fills floor after)
      (builder.Fills floor)

/-- The result of an operation is of no interest. -/
abbrev anything : α → Prop := fun _ => True

variable {floor : Nat} {action : Build α} {post : α → Prop}

/-- Whatever becomes of an operation, it fills a builder from there on. -/
theorem Works.ensures_fills (works : Works floor action post) {builder : Builder}
    (fits : builder.Fits) (hFloor : floor ≤ builder.finish) :
    Ensures action builder (fun _ after => builder.Fills floor after) (builder.Fills floor) :=
  (works builder fits hFloor).mono (fun _ _ h => h.2) fun _ h => h

theorem Works.advances (works : Works 0 action post) : Advances action :=
  fun builder fits => (works builder fits (Nat.zero_le _)).mono
    (fun _ _ h => h.2.continues fits) fun _ h => h.continues fits

/-- What comes after an operation starts from a builder that it left. -/
theorem Advances.ensures_bind {next : α → Build β} {first builder : Builder}
    {post : β → Builder → Prop} (advances : Advances action) (continues : first.Continues builder)
    (hNext : ∀ result after, first.Continues after →
      Ensures (next result) after post first.Continues) :
    Ensures (action >>= next) builder post first.Continues := by
  rw [Build.ensures_bind]
  refine (advances builder continues.fits).mono (fun result after h => ?_) fun _ h =>
    continues.trans h
  exact hNext result after (continues.trans h)

theorem Advances.bind {action : Build α} {next : α → Build β} (advances : Advances action)
    (hNext : ∀ result, Advances (next result)) : Advances (action >>= next) := by
  intro builder fits
  refine advances.ensures_bind fits.continues fun result middle left => ?_
  exact (hNext result middle left.fits).mono (fun _ _ right => left.trans right)
    fun _ right => left.trans right

theorem advances_pure (result : α) : Advances (pure result) :=
  fun _ fits => fits.continues

theorem works_pure {result : α} (hResult : post result) : Works floor (pure result) post :=
  fun builder _ _ => ⟨hResult, .refl floor builder⟩

theorem works_throw (error : Error) : Works floor (throw error : Build α) post :=
  fun builder _ _ => .refl floor builder

theorem works_get : Works floor get anything :=
  fun builder _ _ => ⟨trivial, .refl floor builder⟩

theorem works_bind {next : α → Build β} {last : β → Prop} (hAction : Works floor action post)
    (hNext : ∀ result, post result → Works floor (next result) last) :
    Works floor (action >>= next) last := by
  intro builder fits hFloor
  rw [ensures_bind]
  refine (hAction builder fits hFloor).mono (fun result middle h => ?_) fun _ h => h
  obtain ⟨hResult, left⟩ := h
  have continues := left.continues fits
  exact (hNext result hResult middle continues.fits (Nat.le_trans hFloor continues.finish_le)).mono
    (fun _ _ h => h.imp_right left.trans) fun _ right => left.trans right

/-- Fields of a structure are not before the structure. -/
theorem works_place {base : Address} (offset : UInt64) (hBase : floor ≤ base.toNat) :
    Works floor (place base offset) (floor ≤ ·.toNat) := by
  intro builder _ _
  refine ensures_place (fun address hAddress => ⟨?_, .refl floor builder⟩) (.refl floor builder)
  exact Nat.le_trans hBase (hAddress ▸ Nat.le_add_right _ _)

theorem works_write {address : Address} (bytes : List UInt8) (hAddress : floor ≤ address.toNat) :
    Works floor (write address bytes) anything := by
  intro builder _ _
  have failed := (ensures_iff_result.mp (@ensures_write builder address bytes)).2
  refine ensures_iff_result.mpr ⟨fun _ hDone => ⟨trivial, ?_⟩, fun hDone => ?_⟩
  · exact .single (.overwrite hDone) ⟨hAddress, rfl⟩
  · exact (failed hDone).symm ▸ .refl floor builder

theorem works_writeField {address : Address} (width : Nat) (value : UInt64)
    (hAddress : floor ≤ address.toNat) : Works floor (writeField address width value) anything := by
  refine works_bind works_get fun builder _ => ?_
  split
  · exact works_write _ hAddress
  · exact works_throw _

theorem works_writePointer {address : Address} (value : Address)
    (hAddress : floor ≤ address.toNat) : Works floor (writePointer address value) anything :=
  works_bind works_get fun _ _ => works_writeField _ _ hAddress

/-- Blocks are appended where the bytes end. -/
theorem works_allocate (size : UInt64) : Works floor (allocate size) (floor ≤ ·.toNat) := by
  intro builder fits hFloor
  have ensures := ensures_iff_result.mp (ensures_allocate_of_fits size fits)
  refine ensures_iff_result.mpr ⟨fun address hAddress => ⟨?_, ?_⟩, fun hFail => ?_⟩
  · obtain ⟨-, -, hStart, -⟩ := ensures.1 address hAddress
    exact hStart ▸ hFloor
  · exact .single (.append hAddress) ⟨trivial, rfl⟩
  · exact (ensures.2 hFail).symm ▸ .refl floor builder

/-- A path may lead anywhere, as far as it exists. -/
theorem works_storeAlong (base value : Address) (hop : Hop) (rest : List Hop) :
    Works 0 (storeAlong base value hop rest) anything := by
  have hAny (address : Address) : 0 ≤ address.toNat := Nat.zero_le _
  induction rest generalizing base hop with
  | nil => exact works_bind (works_place _ (hAny _)) fun _ _ => works_writePointer _ (hAny _)
  | cons next rest ih =>
      refine works_bind (works_place _ (hAny _)) fun field _ =>
        works_bind works_get fun builder _ => ?_
      split
      · exact works_throw _
      · split_ifs
        · exact ih _ _
        · exact works_bind (works_allocate _) fun block _ =>
            works_bind (works_writePointer _ (hAny _)) fun _ _ => ih _ _

theorem works_store (base : Address) (path : Path) (value : Address) :
    Works 0 (store base path value) anything :=
  works_storeAlong _ _ _ _

theorem works_writeRecords {entry : Address} (interfaces : List Address)
    (hEntry : floor ≤ entry.toNat) : Works floor (writeRecords entry interfaces) anything := by
  induction interfaces generalizing entry with
  | nil => exact works_pure trivial
  | cons interface rest ih =>
      refine works_bind works_get fun builder _ => ?_
      refine works_bind (works_place _ hEntry) fun field hField =>
        works_bind (works_writePointer _ hField) fun _ _ => ?_
      have hRest : Works floor
          (do writeRecords (← place entry builder.layout.record.stride) rest) anything :=
        works_bind (works_place _ hEntry) fun _ => ih
      split
      · exact works_bind (works_place _ hEntry) fun _ hNested =>
          works_bind (works_writePointer _ hNested) fun _ _ => hRest
      · exact hRest

theorem works_list (interfaces : List Address) : Works floor (list interfaces) anything := by
  unfold list
  split_ifs
  · exact works_pure trivial
  · refine works_bind works_get fun builder _ => ?_
    dsimp only
    split
    · exact works_throw _
    · exact works_bind (works_allocate _) fun _ hList =>
        works_bind (works_place _ hList) fun _ hCount =>
          works_bind (works_writeField _ _ hCount) fun _ _ =>
            works_bind (works_place _ hList) fun _ hEntry =>
              works_bind (works_writeRecords _ hEntry) fun _ _ => works_pure trivial

theorem works_setSuperclass (type superclass : Address) :
    Works 0 (setSuperclass type superclass) anything :=
  works_bind works_get fun _ _ => works_store _ _ _

theorem works_type (superclass : Option Address) (declared : List Address) :
    Works 0 (type superclass declared) anything := by
  refine works_bind works_get fun builder _ => ?_
  dsimp only
  refine works_bind (works_allocate _) fun _ _ => works_bind (works_list _) fun _ _ =>
    works_bind (works_store _ _ _) fun _ _ => ?_
  split
  · exact works_bind (works_setSuperclass _ _) fun _ _ => works_pure trivial
  · exact works_pure trivial

theorem works_object (type : Address) : Works 0 (object type) anything :=
  works_bind works_get fun _ _ => works_bind (works_allocate _) fun _ _ =>
    works_bind (works_store _ _ _) fun _ _ => works_pure trivial

theorem works_writePointers {position : Address} (pointers : List Address)
    (hPosition : floor ≤ position.toNat) :
    Works floor (writePointers position pointers) anything := by
  induction pointers generalizing position with
  | nil => exact works_pure trivial
  | cons pointer rest ih =>
      exact works_bind (works_writePointer _ hPosition) fun _ _ => works_bind works_get fun _ _ =>
        works_bind (works_place _ hPosition) fun _ => ih

theorem works_composition (protocols : List Address) (superclass : Option Address) :
    Works floor (composition protocols superclass) anything := by
  refine works_bind works_get fun builder _ => ?_
  split
  · exact works_throw _
  · rename_i encoding _
    have hRest (trailing : List Address) (flags : UInt32) : Works floor (do
        let composition ←
          allocate (encoding.trailingOffset + trailing.length.toUInt64 * builder.word)
        writePointer (← place composition encoding.kindOffset) Kind.existential.word
        writeField (← place composition encoding.flagsOffset) 4 flags.toUInt64
        writeField (← place composition encoding.countOffset) 4 protocols.length.toUInt64
        writePointers (← place composition encoding.trailingOffset) trailing
        pure composition) anything :=
      works_bind (works_allocate _) fun _ hBlock =>
        works_bind (works_place _ hBlock) fun _ hKind =>
        works_bind (works_writePointer _ hKind) fun _ _ =>
        works_bind (works_place _ hBlock) fun _ hFlags =>
        works_bind (works_writeField _ _ hFlags) fun _ _ =>
        works_bind (works_place _ hBlock) fun _ hCount =>
        works_bind (works_writeField _ _ hCount) fun _ _ =>
        works_bind (works_place _ hBlock) fun _ hTrailing =>
        works_bind (works_writePointers _ hTrailing) fun _ _ => works_pure trivial
    have hMany : Works floor (throw .outOfBounds : Build PUnit) anything := works_throw _
    dsimp only
    split_ifs
    · exact works_bind hMany fun _ _ => hRest _ _
    · exact works_bind hMany fun _ _ => hRest _ _
    · exact hRest _ _
    · exact hRest _ _

/-- An operation lays out where the bytes end. Lists are recorded only if it succeeds. -/
def Appends (action : Build α) (builder : Builder) : Prop :=
  Ensures action builder
    (fun _ after => ∃ effects, builder.Performs effects after ∧
      ∀ effect ∈ effects, effect.Beyond builder.finish)
    (builder.Fills builder.finish)

theorem appends_of_fills {builder : Builder} (ensures : Ensures action builder
    (fun _ after => builder.Fills builder.finish after) (builder.Fills builder.finish)) :
    Appends action builder :=
  ensures.mono (fun _ _ fills => fills.exists_beyond) fun _ fills => fills

theorem Appends.performs {builder : Builder} (appends : Appends action builder) :
    ∃ effects, builder.Performs effects (builder.after action) ∧
      ∀ effect ∈ effects, effect.Beyond builder.finish :=
  (Ensures.mono appends (fun _ _ h => h) fun _ fills => fills.exists_beyond).after

/-- The list of a protocol is recorded as the last step, if at all. -/
theorem appends_protocol (incorporated : List Address) {builder : Builder} (fits : builder.Fits) :
    Appends (protocol incorporated) builder := by
  have hWorks {action : Build Address} (works : Works builder.finish action anything) :
      Appends action builder :=
    appends_of_fills (works.ensures_fills fits (Nat.le_refl _))
  unfold Appends protocol
  rw [ensures_bind, ensures_get]
  cases builder.layout.record.nested with
  | absent =>
      exact hWorks (works_bind (works_allocate _) fun _ _ => works_bind (works_list _) fun _ _ =>
        works_pure trivial)
  | inInterface offset =>
      exact hWorks (works_bind (works_allocate _) fun _ hBlock => works_bind (works_list _)
        fun _ _ => works_bind (works_place _ hBlock) fun _ hField =>
          works_bind (works_writePointer _ hField) fun _ _ => works_pure trivial)
  | inRecord offset =>
      have allocated := ((works_allocate builder.word) builder fits (Nat.le_refl _)).and
        (ensures_allocate_of_fits builder.word fits)
      dsimp only
      rw [ensures_bind]
      refine allocated.mono (fun protocol first h => ?_) fun _ h => h.1
      obtain ⟨⟨hStart, fills⟩, -, hFits, hAddress, -, hRoom⟩ := h
      have hLarge := hRoom (Nat.le_trans (toNat_word_le builder) (by decide))
      rw [ensures_bind]
      refine (works_list incorporated first hFits (by omega)).mono (fun list second h => ?_)
        fun _ h => fills.trans h
      obtain ⟨effects, run, fresh⟩ := fills.trans h.2
      have hFinish := (h.2.continues hFits).finish_le
      rw [ensures_bind, ensures_modify, ensures_pure]
      refine ⟨effects ++ [.record protocol list], .step run (.record (by omega)), ?_⟩
      refine List.forall_mem_append.mpr ⟨fun effect hEffect => (fresh effect hEffect).1, ?_⟩
      exact fun effect hEffect => List.mem_singleton.mp hEffect ▸ hStart

end Build

namespace Builder

variable {first last : Builder}

theorem Reaches.trans {middle : Builder} (left : first.Reaches middle)
    (right : middle.Reaches last) : first.Reaches last := by
  induction right with
  | refl => exact left
  | protocol _ incorporated ih => exact .protocol ih incorporated
  | type _ superclass declared ih => exact .type ih superclass declared
  | object _ type ih => exact .object ih type
  | composition _ protocols superclass ih => exact .composition ih protocols superclass
  | setSuperclass _ type superclass ih => exact .setSuperclass ih type superclass
  | writePointer _ address value ih => exact .writePointer ih address value

/-- The calls of a run are one run of steps. -/
theorem Reaches.performs (run : first.Reaches last) (fits : first.Fits) :
    ∃ effects, first.Performs effects last := by
  have hWorks {α : Type} {action : Build α} {builder : Builder} {effects : List Effect}
      (prior : first.Performs effects builder) (works : Build.Works 0 action Build.anything) :
      ∃ effects, first.Performs effects (builder.after action) := by
    obtain ⟨more, step, -⟩ :=
      (works.ensures_fills (prior.continues fits).fits (Nat.zero_le _)).after
    exact ⟨effects ++ more, prior.trans step⟩
  induction run with
  | refl => exact ⟨[], .refl⟩
  | protocol _ incorporated ih =>
      obtain ⟨effects, prior⟩ := ih
      obtain ⟨more, step, -⟩ :=
        (Build.appends_protocol incorporated (prior.continues fits).fits).performs
      exact ⟨effects ++ more, prior.trans step⟩
  | type _ superclass declared ih =>
      exact ih.elim fun _ prior => hWorks prior (Build.works_type _ _)
  | object _ type ih => exact ih.elim fun _ prior => hWorks prior (Build.works_object _)
  | composition _ protocols superclass ih =>
      exact ih.elim fun _ prior => hWorks prior (Build.works_composition _ _)
  | setSuperclass _ type superclass ih =>
      exact ih.elim fun _ prior => hWorks prior (Build.works_setSuperclass _ _)
  | writePointer _ address value ih =>
      exact ih.elim fun _ prior => hWorks prior (Build.works_writePointer _ (Nat.zero_le _))

theorem Reaches.continues (run : first.Reaches last) (fits : first.Fits) :
    first.Continues last := by
  obtain ⟨effects, performs⟩ := run.performs fits
  exact performs.continues fits

theorem fits_start (layout : Layout) (base : Address) : (start layout base).Fits :=
  ⟨rfl, Nat.two_pow_pos 64, Nat.le_of_lt base.toNat_lt⟩

end Builder

end Conformance
