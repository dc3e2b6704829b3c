import Conformance.Proofs.Builder.Steps
/-! Effects of laying out structures. Whatever is asked of a builder, it does three things: it
appends a zeroed block, it writes over bytes that are laid out, and it records the list of a
protocol. A run keeps a log of them, from which it can be told what it leaves alone. -/
namespace Conformance

namespace Builder

/-- What every call leaves of a builder. -/
structure Continues (before after : Builder) : Prop where
  layout : after.layout = before.layout
  base : after.base = before.base
  finish_le : before.finish ≤ after.finish
  fits : after.Fits

variable {builder first second third : Builder}

theorem Fits.continues (fits : builder.Fits) : builder.Continues builder :=
  ⟨rfl, rfl, Nat.le_refl _, fits⟩

theorem Continues.trans (left : first.Continues second) (right : second.Continues third) :
    first.Continues third :=
  ⟨right.layout.trans left.layout, right.base.trans left.base,
    Nat.le_trans left.finish_le right.finish_le, right.fits⟩

/-- The builder that an operation leaves, whether it succeeds or fails. -/
def after {α : Type} (builder : Builder) (action : Build α) : Builder :=
  match action.run builder with
  | .ok _ after => after
  | .error _ after => after

/-- The result of an operation that succeeds. -/
def result? {α : Type} (builder : Builder) (action : Build α) : Option α :=
  match action.run builder with
  | .ok result _ => some result
  | .error _ _ => none

end Builder

namespace Build

variable {α : Type} {action : Build α} {builder : Builder} {post : α → Builder → Prop}
  {fail : Builder → Prop}

theorem ensures_iff_result : Ensures action builder post fail ↔
    (∀ result, builder.result? action = some result → post result (builder.after action)) ∧
      (builder.result? action = none → fail (builder.after action)) := by
  unfold Ensures Builder.result? Builder.after
  cases action.run builder <;> simp

theorem Ensures.of_run (ensures : Ensures action builder post fail) {result : α}
    (hResult : builder.result? action = some result) : post result (builder.after action) :=
  (ensures_iff_result.mp ensures).1 result hResult

/-- What holds however an operation ends holds of the builder that it leaves. -/
theorem Ensures.after {left : Builder → Prop}
    (ensures : Ensures action builder (fun _ after => left after) left) :
    left (builder.after action) := by
  unfold Ensures at ensures
  unfold Builder.after
  split at ensures <;> simp_all

end Build

/-- A block that was handed out. -/
structure Block where
  address : Address
  /-- The number of bytes that were asked for. -/
  size : UInt64
  /-- The number of bytes that were appended. -/
  length : Nat
deriving DecidableEq, Repr

namespace Block

/-- The position after a block. -/
def finish (block : Block) : Nat := block.address.toNat + block.length

/-- Blocks lie one after the other, from a position to another one. -/
def Tile (start : Nat) : List Block → Nat → Prop
  | [], finish => start = finish
  | block :: rest, finish => block.address.toNat = start ∧ Tile block.finish rest finish

variable {blocks : List Block} {block : Block} {start middle stop : Nat}

theorem Tile.concat (tile : Tile start blocks middle) (hBlock : block.address.toNat = middle) :
    Tile start (blocks ++ [block]) block.finish := by
  induction blocks generalizing start with
  | nil => exact ⟨hBlock.trans tile.symm, rfl⟩
  | cons other rest ih => exact ⟨tile.1, ih tile.2⟩

theorem Tile.bounds (tile : Tile start blocks stop) :
    start ≤ stop ∧ ∀ block ∈ blocks, start ≤ block.address.toNat ∧ block.finish ≤ stop := by
  induction blocks generalizing start with
  | nil => exact ⟨Nat.le_of_eq tile, fun _ h => nomatch h⟩
  | cons first rest ih =>
      obtain ⟨hStart, tile⟩ := tile
      obtain ⟨hStop, hRest⟩ := ih tile
      have hFinish : start ≤ first.finish := hStart ▸ Nat.le_add_right _ _
      refine ⟨Nat.le_trans hFinish hStop, List.forall_mem_cons.mpr ⟨⟨?_, hStop⟩, ?_⟩⟩
      · exact Nat.le_of_eq hStart.symm
      · exact fun block hBlock => (hRest block hBlock).imp_left (Nat.le_trans hFinish)

/-- Blocks that lie one after the other have no position in common. -/
theorem Tile.pairwise (tile : Tile start blocks stop) :
    blocks.Pairwise fun earlier later => earlier.finish ≤ later.address.toNat := by
  induction blocks generalizing start with
  | nil => exact .nil
  | cons first rest ih =>
      obtain ⟨-, tile⟩ := tile
      exact .cons (fun block hBlock => (tile.bounds.2 block hBlock).1) (ih tile)

/-- Some block ends where the last one ends. -/
theorem Tile.exists_finish (tile : Tile start blocks stop) (hStart : start < stop) :
    ∃ block ∈ blocks, block.finish = stop := by
  induction blocks generalizing start with
  | nil => exact absurd tile (Nat.ne_of_lt hStart)
  | cons first rest ih =>
      obtain ⟨-, tile⟩ := tile
      obtain hLast | hMore := Nat.eq_or_lt_of_le tile.bounds.1
      · exact ⟨first, List.mem_cons_self, hLast⟩
      · obtain ⟨block, hBlock, hFinish⟩ := ih tile hMore
        exact ⟨block, List.mem_cons_of_mem _ hBlock, hFinish⟩

end Block

/-- What one step does to a builder. -/
inductive Effect where
  /-- A block is appended. -/
  | append (block : Block)
  /-- Bytes are written over others, from an address on. -/
  | overwrite (address : Address) (bytes : List UInt8)
  /-- The list that a protocol incorporates is recorded. -/
  | record (protocol list : Address)
deriving DecidableEq, Repr

namespace Effect

/-- The block that is appended. -/
def block? : Effect → Option Block
  | append block => some block
  | _ => none

/-- The protocol and the list that are recorded. -/
def entry? : Effect → Option (Address × Address)
  | record protocol list => some (protocol, list)
  | _ => none

/-- The effect is on what lies at a position or after it. -/
def Beyond (floor : Nat) : Effect → Prop
  | append _ => True
  | overwrite address _ => floor ≤ address.toNat
  | record protocol _ => floor ≤ protocol.toNat

/-- The effect is on bytes only. -/
def Fresh (floor : Nat) (effect : Effect) : Prop := effect.Beyond floor ∧ effect.entry? = none

/-- The blocks that a log tells of. -/
def blocks (effects : List Effect) : List Block := effects.filterMap block?

/-- The entries that a log tells of, with later ones first. -/
def entries (effects : List Effect) : List (Address × Address) :=
  (effects.filterMap entry?).reverse

variable {effects : List Effect} {effect : Effect} {floor lower : Nat}

theorem Beyond.mono (beyond : effect.Beyond floor) (hFloor : lower ≤ floor) :
    effect.Beyond lower := by
  cases effect with
  | append => trivial
  | overwrite => exact Nat.le_trans hFloor beyond
  | record => exact Nat.le_trans hFloor beyond

theorem Fresh.mono (fresh : effect.Fresh floor) (hFloor : lower ≤ floor) : effect.Fresh lower :=
  ⟨fresh.1.mono hFloor, fresh.2⟩

theorem entries_of_fresh (fresh : ∀ effect ∈ effects, effect.Fresh floor) :
    entries effects = [] := by
  unfold entries
  rw [List.reverse_eq_nil_iff, List.filterMap_eq_nil_iff]
  exact fun effect hEffect => (fresh effect hEffect).2

theorem le_of_mem_entries (beyond : ∀ effect ∈ effects, effect.Beyond floor)
    {entry : Address × Address} (hEntry : entry ∈ entries effects) : floor ≤ entry.1.toNat := by
  obtain ⟨effect, hEffect, hSome⟩ := List.mem_filterMap.mp (List.mem_reverse.mp hEntry)
  have hBeyond := beyond effect hEffect
  cases effect with
  | append | overwrite => cases hSome
  | record => exact Option.some.inj hSome ▸ hBeyond

end Effect

namespace Builder

/-- One step of a builder, with its effect. A list is recorded for a protocol that is laid out. -/
inductive Step (before : Builder) : Effect → Builder → Prop where
  | append {size : UInt64} {address : Address}
      (hAddress : before.result? (Build.allocate size) = some address) :
      Step before
        (.append ⟨address, size,
          (before.after (Build.allocate size)).bytes.size - before.bytes.size⟩)
        (before.after (Build.allocate size))
  | overwrite {address : Address} {bytes : List UInt8}
      (hDone : before.result? (Build.write address bytes) = some ()) :
      Step before (.overwrite address bytes) (before.after (Build.write address bytes))
  | record {protocol list : Address} (hLaid : protocol.toNat < before.finish) :
      Step before (.record protocol list)
        { before with nestedLists := (protocol, list) :: before.nestedLists }

/-- The steps of a builder, with a log of their effects. -/
inductive Performs (first : Builder) : List Effect → Builder → Prop where
  | refl : Performs first [] first
  | step {effects : List Effect} {effect : Effect} {middle last : Builder}
      (prior : Performs first effects middle) (step : middle.Step effect last) :
      Performs first (effects ++ [effect]) last

variable {before after first middle last : Builder} {effect : Effect} {effects more : List Effect}
  {floor : Nat}

theorem byte?_eq_none_of_lt {builder : Builder} {position : Nat}
    (hLow : position < builder.base.toNat) : builder.byte? position = none :=
  if_neg (Nat.not_le.mpr hLow)

/-- What is kept of the bytes that were laid out is the same. -/
theorem Grows.byte?_eq {kept : Nat → Prop} {position : Nat} (grows : Grows kept first last)
    (hKept : kept position) (hPosition : position < first.finish) :
    last.byte? position = first.byte? position := by
  by_cases hLow : position < first.base.toNat
  · rw [byte?_eq_none_of_lt hLow, byte?_eq_none_of_lt (grows.base ▸ hLow)]
  · cases hByte : first.byte? position with
    | some byte => exact grows.bytes position byte hKept hByte
    | none =>
        unfold byte? at hByte
        unfold finish at hPosition
        rw [if_pos (Nat.not_lt.mp hLow), Array.getElem?_eq_none_iff] at hByte
        omega

theorem Step.continues (step : before.Step effect after) (fits : before.Fits) :
    before.Continues after := by
  cases step with
  | append hAddress =>
      obtain ⟨grows, hFits, -⟩ := (Build.ensures_allocate_of_fits _ fits).of_run hAddress
      exact ⟨grows.layout, grows.base, grows.finish_le, hFits⟩
  | @overwrite address bytes hDone =>
      obtain ⟨grows, hFinish, -⟩ := (Build.ensures_write address bytes).of_run hDone
      have hSize : (before.after (Build.write address bytes)).bytes.size = before.bytes.size := by
        unfold finish at hFinish
        rw [grows.base] at hFinish
        omega
      exact ⟨grows.layout, grows.base, grows.finish_le, hSize ▸ fits.size_aligned,
        hSize ▸ fits.size_lt, hFinish ▸ fits.finish_le⟩
  | record hLaid =>
      exact ⟨rfl, rfl, Nat.le_refl _, fits.size_aligned, fits.size_lt, fits.finish_le⟩

/-- Where the bytes end after a step: after the block that it appends, or where they ended
before. -/
theorem Step.finish (step : before.Step effect after) (fits : before.Fits) :
    match effect.block? with
    | some block => block.address.toNat = before.finish ∧ block.finish = after.finish ∧
        (block.size.toNat ≤ 2 ^ 63 → max block.size.toNat 64 ≤ block.length)
    | none => after.finish = before.finish := by
  cases step with
  | append hAddress =>
      obtain ⟨grows, -, hStart, -, hRoom⟩ :=
        (Build.ensures_allocate_of_fits _ fits).of_run hAddress
      have hGrown := grows.finish_le
      unfold Builder.finish at hStart hGrown hRoom
      rw [grows.base] at hGrown hRoom
      refine ⟨hStart, ?_, fun hSmall => ?_⟩
      · unfold Block.finish Builder.finish
        rw [hStart, grows.base]
        dsimp only
        omega
      · have hLarge := hRoom hSmall
        dsimp only
        omega
  | overwrite hDone => exact ((Build.ensures_write _ _).of_run hDone).2.1
  | record => rfl

/-- A step keeps the bytes before a position if its effect is not before it. -/
theorem Step.byte?_eq (step : before.Step effect after) (fits : before.Fits)
    (beyond : effect.Beyond floor) (hFloor : floor ≤ before.finish) {position : Nat}
    (hPosition : position < floor) : after.byte? position = before.byte? position := by
  cases step with
  | append hAddress =>
      obtain ⟨grows, -⟩ := (Build.ensures_allocate_of_fits _ fits).of_run hAddress
      exact grows.byte?_eq trivial (by omega)
  | overwrite hDone =>
      obtain ⟨grows, -⟩ := (Build.ensures_write _ _).of_run hDone
      exact grows.byte?_eq (Or.inl (Nat.lt_of_lt_of_le hPosition beyond)) (by omega)
  | record => rfl

theorem Step.nestedLists (step : before.Step effect after) (fits : before.Fits) :
    after.nestedLists = effect.entry?.toList ++ before.nestedLists := by
  cases step with
  | append hAddress =>
      exact ((Build.ensures_allocate_of_fits _ fits).of_run hAddress).1.nestedLists
  | overwrite hDone => exact ((Build.ensures_write _ _).of_run hDone).1.nestedLists
  | record => rfl

theorem Step.lt_finish (step : before.Step effect after) {entry : Address × Address}
    (hEntry : effect.entry? = some entry) : entry.1.toNat < before.finish := by
  cases step with
  | append | overwrite => cases hEntry
  | record hLaid => exact Option.some.inj hEntry ▸ hLaid

namespace Performs

theorem single (step : first.Step effect last) : first.Performs [effect] last :=
  .step .refl step

theorem trans (left : first.Performs effects middle) (right : middle.Performs more last) :
    first.Performs (effects ++ more) last := by
  induction right with
  | refl => rwa [List.append_nil]
  | step prior step ih =>
      rw [← List.append_assoc]
      exact .step ih step

theorem continues (run : first.Performs effects last) (fits : first.Fits) :
    first.Continues last := by
  induction run with
  | refl => exact fits.continues
  | step prior step ih => exact ih.trans (step.continues ih.fits)

/-- The blocks of a run lie one after the other, from where the bytes ended to where they end. -/
theorem tile (run : first.Performs effects last) (fits : first.Fits) :
    Block.Tile first.finish (Effect.blocks effects) last.finish := by
  induction run with
  | refl => rfl
  | @step effects effect middle last prior step ih =>
      have hStep := step.finish (prior.continues fits).fits
      unfold Effect.blocks at ih ⊢
      rw [List.filterMap_append, List.filterMap_cons, List.filterMap_nil]
      cases hBlock : effect.block? with
      | some block =>
          rw [hBlock] at hStep
          obtain ⟨hStart, hFinish, -⟩ := hStep
          exact hFinish ▸ ih.concat hStart
      | none =>
          rw [hBlock] at hStep
          rw [List.append_nil]
          exact hStep ▸ ih

/-- A block has room for what was asked for, unless its size goes round the address space. -/
theorem room (run : first.Performs effects last) (fits : first.Fits) :
    ∀ block ∈ Effect.blocks effects, block.size.toNat ≤ 2 ^ 63 →
      max block.size.toNat 64 ≤ block.length := by
  induction run with
  | refl => exact fun _ h => nomatch h
  | @step effects effect middle last prior step ih =>
      have hStep := step.finish (prior.continues fits).fits
      intro block hBlock
      unfold Effect.blocks at ih hBlock
      rw [List.filterMap_append, List.mem_append] at hBlock
      obtain hOld | hNew := hBlock
      · exact ih block hOld
      · obtain ⟨other, hOther, hSome⟩ := List.mem_filterMap.mp hNew
        obtain rfl := List.mem_singleton.mp hOther
        rw [hSome] at hStep
        exact hStep.2.2

/-- A run keeps the bytes before a position if no effect is before it. -/
theorem byte?_eq (run : first.Performs effects last) (fits : first.Fits)
    (beyond : ∀ effect ∈ effects, effect.Beyond floor) (hFloor : floor ≤ first.finish)
    {position : Nat} (hPosition : position < floor) :
    last.byte? position = first.byte? position := by
  induction run with
  | refl => rfl
  | step prior step ih =>
      have continues := prior.continues fits
      rw [step.byte?_eq continues.fits (beyond _ (by simp))
        (Nat.le_trans hFloor continues.finish_le) hPosition]
      exact ih fun effect hEffect => beyond effect (List.mem_append_left _ hEffect)

/-- The recorded lists are those of the log, in front of those from before. -/
theorem nestedLists (run : first.Performs effects last) (fits : first.Fits) :
    last.nestedLists = Effect.entries effects ++ first.nestedLists := by
  induction run with
  | refl => rfl
  | @step effects effect middle last prior step ih =>
      rw [step.nestedLists (prior.continues fits).fits, ih]
      unfold Effect.entries
      rw [List.filterMap_append, List.reverse_append, List.append_assoc]
      cases effect <;> rfl

/-- Lists are recorded only for what is laid out. -/
theorem recorded (run : first.Performs effects last) (fits : first.Fits)
    (hFirst : ∀ entry ∈ first.nestedLists, entry.1.toNat < first.finish) :
    ∀ entry ∈ last.nestedLists, entry.1.toNat < last.finish := by
  induction run with
  | refl => exact hFirst
  | @step effects effect middle last prior step ih =>
      have continues := prior.continues fits
      intro entry hEntry
      refine Nat.lt_of_lt_of_le ?_ (step.continues continues.fits).finish_le
      rw [step.nestedLists continues.fits, List.mem_append, Option.mem_toList] at hEntry
      exact hEntry.elim step.lt_finish (ih entry)

end Performs

/-- A builder comes from another one by effects on bytes from a position on, and by no others. -/
def Fills (floor : Nat) (first last : Builder) : Prop :=
  ∃ effects, first.Performs effects last ∧ ∀ effect ∈ effects, effect.Fresh floor

namespace Fills

theorem refl (floor : Nat) (builder : Builder) : builder.Fills floor builder :=
  ⟨[], .refl, fun _ h => nomatch h⟩

theorem trans (left : first.Fills floor middle) (right : middle.Fills floor last) :
    first.Fills floor last := by
  obtain ⟨effects, leftRun, leftFresh⟩ := left
  obtain ⟨more, rightRun, rightFresh⟩ := right
  exact ⟨effects ++ more, leftRun.trans rightRun,
    List.forall_mem_append.mpr ⟨leftFresh, rightFresh⟩⟩

theorem mono {lower : Nat} (fills : first.Fills floor last) (hFloor : lower ≤ floor) :
    first.Fills lower last := by
  obtain ⟨effects, run, fresh⟩ := fills
  exact ⟨effects, run, fun effect hEffect => (fresh effect hEffect).mono hFloor⟩

theorem single (step : first.Step effect last) (fresh : effect.Fresh floor) :
    first.Fills floor last :=
  ⟨[effect], .single step, fun _ h => List.mem_singleton.mp h ▸ fresh⟩

theorem exists_beyond (fills : first.Fills floor last) :
    ∃ effects, first.Performs effects last ∧ ∀ effect ∈ effects, effect.Beyond floor := by
  obtain ⟨effects, run, fresh⟩ := fills
  exact ⟨effects, run, fun effect hEffect => (fresh effect hEffect).1⟩

theorem continues (fills : first.Fills floor last) (fits : first.Fits) :
    first.Continues last := by
  obtain ⟨effects, run, -⟩ := fills
  exact run.continues fits

theorem byte?_eq (fills : first.Fills floor last) (fits : first.Fits)
    (hFloor : floor ≤ first.finish) {position : Nat} (hPosition : position < floor) :
    last.byte? position = first.byte? position := by
  obtain ⟨effects, run, beyond⟩ := fills.exists_beyond
  exact run.byte?_eq fits beyond hFloor hPosition

theorem nestedLists (fills : first.Fills floor last) (fits : first.Fits) :
    last.nestedLists = first.nestedLists := by
  obtain ⟨effects, run, fresh⟩ := fills
  rw [run.nestedLists fits, Effect.entries_of_fresh fresh, List.nil_append]

end Fills

end Builder

end Conformance
