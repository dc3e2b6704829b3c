import Conformance.Proofs.Bounds
import Conformance.Proofs.Exhaustion
import Conformance.Proofs.Extension
/-! Queries with looser bounds. A query that may go further, or that reads a memory that holds more,
looks at other records first and can run out of them before it comes to a match that the other query
has found; as long as it does not, it finds a match as well. A query that may only follow more
superclasses does the same as before up to a match, so it keeps the match whatever the budget. -/
namespace Conformance

/-- A bookkeeping has as many records left as another one, where this is asked for. -/
def Trace.Keeps (lockstep : Prop) (after before : Trace) : Prop :=
  lockstep → after.recordsLeft = before.recordsLeft

/-- A yes is still a yes, unless two queries are not in lockstep and the second one has run out of
records. -/
def Verdict.Keeps (lockstep : Prop) (after before : Verdict) : Prop :=
  before.conforms = true →
    after.conforms = true ∨ ¬ lockstep ∧ .budgetExhausted ∈ after.anomalies

theorem Verdict.keeps_of_no {lockstep : Prop} {after before : Verdict}
    (hNo : before.conforms = false) : after.Keeps lockstep before :=
  fun h => Bool.noConfusion (hNo.symm.trans h)

namespace Inspector

/-- One inspector with its memory goes wherever another one goes with its own. In lockstep both have
inspected equally many records whenever the one that goes less far has found a match. -/
structure Outreaches (lockstep : Prop) (far near : Inspector) (larger smaller : Reader) :
    Prop where
  memory : (far.metadata larger).Extends (near.metadata smaller)
  reach : near.limits.reach.Within far.limits.reach
  start : (Trace.start far.limits).Keeps lockstep (.start near.limits)
  search : ∀ (target type : Address) (after before : Trace), after.Keeps lockstep before →
    let found := (near.searchAncestry target type before).run smaller
    let sought := (far.searchAncestry target type after).run larger
    found.1 = true → sought.1 = true ∧ sought.2.Keeps lockstep found.2 ∨
      ¬ lockstep ∧ .budgetExhausted ∈ sought.2.anomalies

theorem recordsLeft_meetsConstraint (inspector : Inspector) (reader : Reader) (type : Address)
    (position : Nat) (trace : Trace) :
    ((inspector.meetsConstraint type position trace).run reader).2.recordsLeft =
      trace.recordsLeft := by
  rw [run_meetsConstraint]
  cases (inspector.metadata reader).pointer? position with
  | none => rfl
  | some superclass =>
      have inherits := @recordsLeft_inheritsFrom inspector reader type superclass trace
      dsimp only
      split_ifs <;> first | rfl | exact inherits

namespace Outreaches

variable {lockstep : Prop} {far near : Inspector} {larger smaller : Reader}
  (outreaches : far.Outreaches lockstep near larger smaller)

include outreaches

theorem ascends {hops : Nat} {type ancestor : Address} (hHops : hops ≤ near.limits.superclassHops)
    (ascent : (near.metadata smaller).Ascends hops type ancestor) :
    hops ≤ far.limits.superclassHops ∧ (far.metadata larger).Ascends hops type ancestor :=
  ⟨hHops.trans (Nat.cast_le.mp outreaches.reach.hops), outreaches.memory.ascends ascent⟩

theorem heads {encoding : CompositionLayout} {composition : Address} {header : CompositionHeader}
    (heads : near.Heads smaller encoding composition header) :
    far.Heads larger encoding composition header := by
  have hWord (position : Nat) (word : UInt64)
      (h : (near.metadata smaller).word? position = some word) :
      (far.metadata larger).word? position = some word := by
    unfold Metadata.word? at h ⊢
    rw [outreaches.memory.layout]
    exact Probe.run_fetch_of_extends outreaches.memory.reader h
  have hHalf (position : Nat) (half : UInt32)
      (h : (near.metadata smaller).half? position = some half) :
      (far.metadata larger).half? position = some half := by
    unfold Metadata.half? at h ⊢
    rw [outreaches.memory.layout]
    exact Probe.run_fetch_of_extends outreaches.memory.reader h
  obtain ⟨⟨word, hKind, hExistential⟩, hFlags, ⟨count, hCount, hHeader⟩, hBound⟩ := heads
  exact ⟨⟨word, hWord _ _ hKind, hExistential⟩, hHalf _ _ hFlags,
    ⟨count, hHalf _ _ hCount, hHeader⟩, hBound.trans (Nat.cast_le.mp outreaches.reach.entries)⟩

theorem meetsSuperclass {type : Address} {position : Nat}
    (met : near.MeetsSuperclass smaller type position) :
    far.MeetsSuperclass larger type position := by
  obtain ⟨superclass, hSuperclass, hAncestor, hRoom⟩ := met
  refine ⟨superclass, outreaches.memory.pointer? hSuperclass, hAncestor.imp_right ?_, ?_⟩
  · rintro ⟨hops, hHops, ascent⟩
    exact ⟨hops, outreaches.ascends hHops ascent⟩
  · have hLayout : far.layout = near.layout := outreaches.memory.layout
    rwa [hLayout]

theorem keeps_meetsProtocols (encoding : CompositionLayout) (type : Address)
    (remaining position : Nat) {after before : Trace} (keeps : after.Keeps lockstep before) :
    ((far.meetsProtocols encoding type remaining position after).run larger).Keeps lockstep
      ((near.meetsProtocols encoding type remaining position before).run smaller) := by
  have hLayout : far.layout = near.layout := outreaches.memory.layout
  induction remaining generalizing position after before with
  | zero => exact fun _ => Or.inl rfl
  | succ remaining ih =>
      rw [run_meetsProtocols_succ, run_meetsProtocols_succ, hLayout]
      cases hReference : (near.metadata smaller).pointer? position with
      | none => exact Verdict.keeps_of_no rfl
      | some reference =>
          rw [outreaches.memory.pointer? hReference]
          dsimp only
          generalize reference &&& encoding.protocolMask = target
          have search := outreaches.search target type after before keeps
          dsimp only at search
          generalize (near.searchAncestry target type before).run smaller = found at search ⊢
          generalize (far.searchAncestry target type after).run larger = sought at search ⊢
          split_ifs with hNull hSought hFound hFound
          · exact Verdict.keeps_of_no rfl
          · have hGoesOn : sought.2.Keeps lockstep found.2 := fun hLockstep =>
              (search hFound).elim (fun h => h.2 hLockstep) fun h => absurd hLockstep h.1
            exact ih _ hGoesOn
          · exact Verdict.keeps_of_no rfl
          · exact fun _ => Or.inr ((search hFound).resolve_left fun h => hSought h.1)
          · exact Verdict.keeps_of_no rfl

theorem keeps_requirementsVerdict (encoding : CompositionLayout) (header : CompositionHeader)
    (composition type : Address) :
    (far.requirementsVerdict larger encoding header composition type).Keeps lockstep
      (near.requirementsVerdict smaller encoding header composition type) := by
  have hLayout : far.layout = near.layout := outreaches.memory.layout
  unfold requirementsVerdict
  dsimp only
  split_ifs with hSuperclass hSought hFound hFound
  · refine hLayout ▸ outreaches.keeps_meetsProtocols encoding type _ _ ?_
    intro hLockstep
    rw [recordsLeft_meetsConstraint, recordsLeft_meetsConstraint]
    exact outreaches.start hLockstep
  · exact Verdict.keeps_of_no rfl
  · -- A constraint that is met is met as well by the inspector that goes further.
    refine absurd ((far.meetsConstraint_iff larger _ _ _).1.mpr ?_) hSought
    exact outreaches.meetsSuperclass ((near.meetsConstraint_iff smaller _ _ _).1.mp hFound)
  · exact Verdict.keeps_of_no rfl
  · exact outreaches.keeps_meetsProtocols encoding type _ _ outreaches.start

theorem keeps_searchAncestry (target type : Address) :
    let found := (near.searchAncestry target type (.start near.limits)).run smaller
    let sought := (far.searchAncestry target type (.start far.limits)).run larger
    (sought.2.finish sought.1).Keeps lockstep (found.2.finish found.1) := by
  intro found sought hFound
  exact (outreaches.search target type _ _ outreaches.start hFound).imp_left And.left

/-- A query that conforms for one inspector conforms for every other one that goes further. -/
theorem keeps_query (query : Query) :
    ((query.probe far).run larger).Keeps lockstep ((query.probe near).run smaller) := by
  cases query with
  | ofObject object protocol =>
      unfold Query.probe
      dsimp only
      rw [run_verdict, run_verdict]
      split_ifs with hNull
      · exact Verdict.keeps_of_no rfl
      · cases hType : (near.metadata smaller).objectType? object with
        | none => exact Verdict.keeps_of_no rfl
        | some type =>
            rw [outreaches.memory.objectType? hType]
            dsimp only
            split_ifs
            · exact Verdict.keeps_of_no rfl
            · exact outreaches.keeps_searchAncestry protocol type
  | ofType type protocol =>
      unfold Query.probe
      dsimp only
      rw [run_typeVerdict, run_typeVerdict]
      split_ifs with hNull
      · exact Verdict.keeps_of_no rfl
      · exact outreaches.keeps_searchAncestry protocol type
  | ofComposition object composition =>
      unfold Query.probe
      have hLayout : far.layout = near.layout := outreaches.memory.layout
      dsimp only
      rw [run_compositionVerdict, run_compositionVerdict, hLayout]
      split_ifs with hNull
      · exact Verdict.keeps_of_no rfl
      · cases near.layout.composition with
        | none => exact Verdict.keeps_of_no rfl
        | some encoding =>
            dsimp only
            cases hHeader : (near.readHeader encoding composition).run smaller with
            | error reason => exact Verdict.keeps_of_no rfl
            | ok header =>
                rw [readHeader_ok_iff.mpr (outreaches.heads (readHeader_ok_iff.mp hHeader))]
                dsimp only
                split_ifs with hEmpty
                · exact fun _ => Or.inl rfl
                · cases hType : (near.metadata smaller).objectType? object with
                  | none => exact Verdict.keeps_of_no rfl
                  | some type =>
                      rw [outreaches.memory.objectType? hType]
                      dsimp only
                      split_ifs
                      · exact Verdict.keeps_of_no rfl
                      · exact outreaches.keeps_requirementsVerdict encoding header composition type

end Outreaches

/-- An inspector that has not run out of records finds whatever is declared, so it finds what
another one has found by a shorter reach in a smaller memory. -/
theorem outreaches_of_extends {far near : Inspector} {larger smaller : Reader}
    (memory : (far.metadata larger).Extends (near.metadata smaller))
    (reach : near.limits.reach.Within far.limits.reach) :
    far.Outreaches False near larger smaller := by
  refine ⟨memory, reach, nofun, fun target type after before _ => ?_⟩
  intro found sought hFound
  have declared := (near.searchAncestry_decides smaller target type before).1 hFound
  by_cases hSought : sought.1 = true
  · exact Or.inl ⟨hSought, nofun⟩
  · refine Or.inr ⟨not_false, ?_⟩
    by_contra hBudget
    exact (far.searchAncestry_decides larger target type after).2 hBudget
      (Bool.eq_false_iff.mpr hSought) (memory.typeConforms reach declared)

section MoreHops

/-- The inspector with another bound on the superclass pointers that are followed. -/
def withHops (inspector : Inspector) (hops : Nat) : Inspector :=
  { inspector with limits := inspector.limits.withSuperclassHops hops }

variable (inspector : Inspector) (reader : Reader)

theorem opensLike_withHops (hops : Nat) : (inspector.withHops hops).OpensLike inspector :=
  ⟨rfl, rfl, rfl⟩

theorem lineageFrom_withHops (hops hopsLeft : Nat) (marker : Marker) (type : Address) :
    (inspector.withHops hops).lineageFrom reader hopsLeft marker type =
      inspector.lineageFrom reader hopsLeft marker type := by
  induction hopsLeft generalizing marker type with
  | zero =>
      unfold lineageFrom
      rfl
  | succ hopsLeft ih =>
      unfold lineageFrom
      simp only [ih]
      rfl

theorem start_types_lineageFrom (hopsLeft : Nat) (marker : Marker) (type : Address) :
    [type] <+: (inspector.lineageFrom reader hopsLeft marker type).types := by
  fun_cases inspector.lineageFrom reader hopsLeft marker type with
  | _ => exact List.prefix_append [type] _

/-- With more hops a climb visits the same types first. -/
theorem types_lineageFrom_le {hopsLeft more : Nat} (hMore : hopsLeft ≤ more) (marker : Marker)
    (type : Address) :
    (inspector.lineageFrom reader hopsLeft marker type).types <+:
      (inspector.lineageFrom reader more marker type).types := by
  fun_induction inspector.lineageFrom reader hopsLeft marker type generalizing more with
  | case5 marker type superclass hSuperclass hNonnull hopsLeft hMarked ih =>
      obtain ⟨left, rfl⟩ := Nat.exists_eq_add_of_le' hMore
      have hGoesOn : inspector.lineageFrom reader (left + (hopsLeft + 1)) marker type =
          (inspector.lineageFrom reader (left + hopsLeft) (marker.advance superclass)
            superclass).after type := by
        conv_lhs => unfold lineageFrom
        simp only [hSuperclass, if_neg hNonnull, if_neg hMarked]
        rfl
      rw [hGoesOn, Lineage.types_after, Lineage.types_after]
      exact List.cons_prefix_cons.mpr ⟨rfl, ih (Nat.le_add_left _ _)⟩
  -- Otherwise the climb with fewer hops ends at its first type.
  | _ => exact inspector.start_types_lineageFrom reader more _ _

/-- A search that has found the target does so with more hops as well, and inspects no more
records. -/
theorem searchAncestry_withHops {hops : Nat} (hHops : inspector.limits.superclassHops ≤ hops)
    (target type : Address) (trace : Trace) :
    let found := (inspector.searchAncestry target type trace).run reader
    let sought := ((inspector.withHops hops).searchAncestry target type trace).run reader
    found.1 = true → sought.1 = true ∧ sought.2.recordsLeft = found.2.recordsLeft := by
  have hVisit : (inspector.withHops hops).visitType reader target =
      inspector.visitType reader target := by
    unfold visitType
    rw [(inspector.opensLike_withHops hops).searchType]
  obtain ⟨rest, hTypes⟩ :=
    inspector.types_lineageFrom_le reader hHops (.start type) type
  rw [run_searchAncestry, run_searchAncestry, hVisit]
  unfold Lineage.visit lineage
  rw [lineageFrom_withHops, show (inspector.withHops hops).limits.superclassHops = hops from rfl,
    ← hTypes, visitEach_append]
  simp only [Trace.recordsLeft_flag?]
  intro hFound
  cases hVisited : visitEach (inspector.visitType reader target)
    (inspector.lineageFrom reader inspector.limits.superclassHops (.start type) type).types
    ⟨.absent, trace⟩ with
  | done after =>
      rw [hVisited] at hFound
      exact ⟨hFound, rfl⟩
  | yield after =>
      have hAbsent := visitEach_yield_finding rfl hVisited
      rw [hVisited] at hFound
      exact absurd ((beq_iff_eq.mp hFound).symm.trans hAbsent) (by decide)

/-- What a search finds, and how many records it inspects, does not depend on the anomalies that
were met before it. -/
theorem searchAncestry_of_recordsLeft (target type : Address) {first second : Trace}
    (hLeft : second.recordsLeft = first.recordsLeft) :
    ((inspector.searchAncestry target type second).run reader).1 =
        ((inspector.searchAncestry target type first).run reader).1 ∧
      ((inspector.searchAncestry target type second).run reader).2.recordsLeft =
        ((inspector.searchAncestry target type first).run reader).2.recordsLeft := by
  have hFresh (trace : Trace) :
      trace = Trace.join ⟨.none, trace.recordsLeft⟩ trace.anomalies 0 := by
    simp [Trace.join]
  have hJoin (trace : Trace) := inspector.run_searchAncestry_join reader target type
    ⟨.none, trace.recordsLeft⟩ trace.anomalies 0 (Or.inl rfl)
  rw [hFresh first, hFresh second, hJoin, hJoin, hLeft]
  exact ⟨rfl, rfl⟩

/-- The search that may follow more superclasses goes through the same lists, in the same order,
until it comes to the match. -/
theorem outreaches_withHops {hops : Nat} (hHops : inspector.limits.superclassHops ≤ hops) :
    (inspector.withHops hops).Outreaches True inspector reader reader := by
  refine ⟨⟨rfl, .refl reader⟩, Limits.reach_within hHops le_rfl le_rfl, fun _ => rfl, ?_⟩
  intro target type after before keeps found sought hFound
  obtain ⟨hSame, hLeft⟩ :=
    inspector.searchAncestry_of_recordsLeft reader target type (keeps trivial)
  obtain ⟨hSought, hSoughtLeft⟩ :=
    inspector.searchAncestry_withHops reader hHops target type after (hSame.trans hFound)
  exact Or.inl ⟨hSought, fun _ => hSoughtLeft.trans hLeft⟩

end MoreHops

/-- A query that conforms still does if more superclass pointers may be followed, whatever the
budget of records. It still does under bounds that are looser in every respect, unless the records
run out. -/
theorem conforms_of_looser (inspector : Inspector) (reader : Reader) (query : Query)
    (hConforms : ((query.probe inspector).run reader).conforms = true) :
    (∀ hops, inspector.limits.superclassHops ≤ hops →
      ((query.probe (inspector.withHops hops)).run reader).conforms = true) ∧
    ∀ looser : Limits, inspector.limits.superclassHops ≤ looser.superclassHops →
      inspector.limits.effectiveDepth ≤ looser.effectiveDepth →
      inspector.limits.listEntries ≤ looser.listEntries →
      .budgetExhausted ∉ ((query.probe ⟨inspector.layout, looser⟩).run reader).anomalies →
      ((query.probe ⟨inspector.layout, looser⟩).run reader).conforms = true := by
  constructor
  · intro hops hHops
    have kept := (inspector.outreaches_withHops reader hHops).keeps_query query hConforms
    exact kept.resolve_right fun h => h.1 trivial
  · intro looser hHops hDepth hEntries hBudget
    have outreaches : Outreaches False ⟨inspector.layout, looser⟩ inspector reader reader :=
      outreaches_of_extends ⟨rfl, .refl reader⟩ (Limits.reach_within hHops hDepth hEntries)
    exact (outreaches.keeps_query query hConforms).resolve_right fun h => hBudget h.2

end Inspector

/-- The composition of a superclass and two protocols, under bounds that just suffice for it, and
under looser ones. -/
theorem conforms_of_looser_composed :
    let inspector : Inspector := ⟨Runtime.compact64.layout, ⟨1, 1, 2, 3⟩⟩
    let query : Query := .ofComposition 0x10 0x100
    ((query.probe inspector).run composedMemory).conforms = true ∧
      ((query.probe (inspector.withHops 5)).run composedMemory).conforms = true ∧
      ((query.probe ⟨inspector.layout, ⟨5, 40, 9, 3⟩⟩).run composedMemory).conforms = true := by
  intro inspector query
  have hConforms : ((query.probe inspector).run composedMemory).conforms = true := by
    decide +kernel
  obtain ⟨hHops, hLooser⟩ := inspector.conforms_of_looser composedMemory query hConforms
  refine ⟨hConforms, hHops 5 (by decide), ?_⟩
  exact hLooser ⟨5, 40, 9, 3⟩ (by decide) (by decide) (by decide) (by decide +kernel)

end Conformance
