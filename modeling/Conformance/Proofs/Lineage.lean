import Conformance.Proofs.Path
/-! The types that an ancestry is made of. Where the chain of superclasses is cut off depends on
memory and bounds alone, so climbing it is visiting the types of a list one after the other. The
marker on the chain is harmless: when the chain meets it, every type that can be reached has been
visited. -/
namespace Conformance

/-- The part of a superclass chain that is visited. -/
structure Lineage where
  /-- The types before the last one, in the order of the chain. -/
  earlier : List Address
  last : Address
  /-- Why the chain was given up, if its end was not a null superclass. -/
  reason : Option Anomaly

/-- All types that are visited. -/
def Lineage.types (lineage : Lineage) : List Address := lineage.earlier ++ [lineage.last]

/-- The lineage that continues another type. -/
def Lineage.after (type : Address) (lineage : Lineage) : Lineage :=
  { lineage with earlier := type :: lineage.earlier }

@[simp] theorem Lineage.types_after (type : Address) (lineage : Lineage) :
    (lineage.after type).types = type :: lineage.types := rfl

/-- Visits the types of a list until the visitor is done. -/
def visitEach {σ : Type} (visit : Address → σ → ForInStep σ) : List Address → σ → ForInStep σ
  | [], state => .yield state
  | type :: rest, state =>
      match visit type state with
      | .done state => .done state
      | .yield state => visitEach visit rest state

theorem visitEach_append {σ : Type} (visit : Address → σ → ForInStep σ)
    (first second : List Address) (state : σ) :
    visitEach visit (first ++ second) state =
      match visitEach visit first state with
      | .done state => .done state
      | .yield state => visitEach visit second state := by
  induction first generalizing state with
  | nil => rfl
  | cons type rest ih =>
      rw [List.cons_append, visitEach, visitEach]
      cases visit type state with
      | done state => rfl
      | yield state => exact ih state

/-- Visits a lineage. The reason for which the chain was given up is not reported if the visitor is
done before the last type. -/
def Lineage.visit {σ : Type} (lineage : Lineage) (visit : Address → σ → ForInStep σ)
    (state : σ) : σ × Option Anomaly :=
  ((visitEach visit lineage.types state).value,
    match visitEach visit lineage.earlier state with
    | .done _ => none
    | .yield _ => lineage.reason)

@[simp] theorem Lineage.visit_singleton {σ : Type} (visit : Address → σ → ForInStep σ)
    (type : Address) (reason : Option Anomaly) (state : σ) :
    Lineage.visit ⟨[], type, reason⟩ visit state = ((visit type state).value, reason) := by
  simp only [Lineage.visit, Lineage.types, List.nil_append, visitEach]
  cases visit type state <;> rfl

theorem Lineage.visit_after {σ : Type} (lineage : Lineage) (visit : Address → σ → ForInStep σ)
    (type : Address) (state : σ) :
    (lineage.after type).visit visit state =
      match visit type state with
      | .done state => (state, none)
      | .yield state => lineage.visit visit state := by
  have hTypes : visitEach visit (lineage.after type).types state =
      visitEach visit (type :: lineage.types) state := rfl
  have hEarlier : visitEach visit (lineage.after type).earlier state =
      visitEach visit (type :: lineage.earlier) state := rfl
  rw [Lineage.visit, hTypes, hEarlier, visitEach, visitEach]
  cases visit type state <;> rfl

namespace Inspector

variable (inspector : Inspector) (reader : Reader)

/-- The types that a climb visits from a type on, if its visitor lets it go on. -/
def lineageFrom : (hopsLeft : Nat) → Marker → (type : Address) → Lineage
  | hopsLeft, marker, type =>
      match (inspector.metadata reader).superclass? type with
      | none => ⟨[], type, some .invalidRead⟩
      | some superclass =>
          if superclass = 0 then ⟨[], type, none⟩
          else
            match hopsLeft with
            | 0 => ⟨[], type, some .hopLimit⟩
            | hopsLeft + 1 =>
                if superclass = marker.type then ⟨[], type, some .cycle⟩
                else
                  (lineageFrom hopsLeft (marker.advance superclass) superclass).after type

/-- The types that are visited as the ancestry of a type. -/
def lineage (type : Address) : Lineage :=
  inspector.lineageFrom reader inspector.limits.superclassHops (.start type) type

theorem run_climb {σ : Type} (visit : Address → σ → Probe (ForInStep σ)) (hopsLeft : Nat)
    (marker : Marker) (type : Address) (state : σ) :
    (inspector.climb visit hopsLeft marker type state).run reader =
      (inspector.lineageFrom reader hopsLeft marker type).visit
        (fun type state => (visit type state).run reader) state := by
  induction hopsLeft generalizing marker type state with
  | zero =>
      unfold climb lineageFrom
      simp only [Probe.run_bind, Metadata.superclass?, Metadata.field?, metadata]
      cases (inspector.layout.follow type inspector.layout.superclass).run reader with
      | none => simp
      | some superclass =>
          dsimp only
          split_ifs <;> simp
  | succ hopsLeft ih =>
      unfold climb lineageFrom
      simp only [Probe.run_bind, Metadata.superclass?, Metadata.field?, metadata]
      cases (inspector.layout.follow type inspector.layout.superclass).run reader with
      | none => simp
      | some superclass =>
          dsimp only
          split_ifs
          · simp
          · simp
          · simp only [Probe.run_bind, Lineage.visit_after]
            cases (visit type state).run reader with
            | done state => rfl
            | yield state => exact ih _ _ state

theorem run_visitAncestry {σ : Type} (visit : Address → σ → Probe (ForInStep σ)) (type : Address)
    (state : σ) :
    (inspector.visitAncestry visit type state).run reader =
      (inspector.lineage reader type).visit (fun type state => (visit type state).run reader)
        state :=
  inspector.run_climb reader visit _ _ type state

variable {inspector reader}

theorem ascends_of_mem_types {hopsLeft : Nat} {marker : Marker} {type visited : Address}
    (hVisited : visited ∈ (inspector.lineageFrom reader hopsLeft marker type).types) :
    ∃ hops ≤ hopsLeft, (inspector.metadata reader).Ascends hops type visited := by
  fun_induction inspector.lineageFrom reader hopsLeft marker type with
  | case5 marker type superclass hSuperclass hNonnull hopsLeft _ ih =>
      rcases List.mem_cons.mp hVisited with rfl | hLater
      · exact ⟨0, Nat.zero_le _, .zero visited⟩
      · obtain ⟨hops, hHops, ascent⟩ := ih hLater
        exact ⟨hops + 1, Nat.succ_le_succ hHops, .succ hSuperclass hNonnull ascent⟩
  | _ =>
      obtain rfl := List.mem_singleton.mp hVisited
      exact ⟨0, Nat.zero_le _, .zero visited⟩

end Inspector

namespace Metadata

/-- Types whose superclasses are all readable and, where they are not null, among them again. -/
def Closed (metadata : Metadata) (types : List Address) : Prop :=
  ∀ type ∈ types, ∃ superclass, metadata.superclass? type = some superclass ∧
    (superclass = 0 ∨ superclass ∈ types)

theorem Closed.mem_of_ascends {metadata : Metadata} {types : List Address} {type ancestor : Address}
    {hops : Nat} (closed : metadata.Closed types) (ascent : metadata.Ascends hops type ancestor)
    (hType : type ∈ types) : ancestor ∈ types := by
  induction ascent with
  | zero => exact hType
  | succ first hNonnull _ ih =>
      obtain ⟨superclass, hSuperclass, hNull | hMem⟩ := closed _ hType
      · rw [hSuperclass] at first
        exact absurd ((Option.some.inj first).symm.trans hNull) hNonnull
      · rw [hSuperclass] at first
        exact ih (Option.some.inj first ▸ hMem)

end Metadata

namespace Inspector

variable {inspector : Inspector} {reader : Reader}

variable (inspector reader) in
/-- What a climb has passed when it reaches a type: the superclass of each type passed has been
passed as well or is the type reached, and the marker lies on one of them. -/
structure Trail (passed : List Address) (marker : Marker) (type : Address) : Prop where
  marked : marker.type ∈ type :: passed
  closed : ∀ earlier ∈ passed, ∃ superclass,
    (inspector.metadata reader).superclass? earlier = some superclass ∧
      superclass ∈ type :: passed

theorem Trail.start (type : Address) : inspector.Trail reader [] (.start type) type :=
  ⟨List.mem_singleton.mpr rfl, fun _ h => absurd h List.not_mem_nil⟩

theorem Trail.advance {passed : List Address} {marker : Marker} {type superclass : Address}
    (trail : inspector.Trail reader passed marker type)
    (hSuperclass : (inspector.metadata reader).superclass? type = some superclass) :
    inspector.Trail reader (type :: passed) (marker.advance superclass) superclass := by
  constructor
  · unfold Marker.advance
    split
    · exact List.mem_cons_self
    · exact List.mem_cons_of_mem _ trail.marked
  · intro earlier hEarlier
    rcases List.mem_cons.mp hEarlier with rfl | hPassed
    · exact ⟨superclass, hSuperclass, List.mem_cons_self⟩
    · obtain ⟨next, hNext, hMem⟩ := trail.closed earlier hPassed
      exact ⟨next, hNext, List.mem_cons_of_mem _ hMem⟩

/-- Where the superclass of the type reached is marked, nothing is left to be passed. -/
theorem Trail.closed_of_marked {passed : List Address} {marker : Marker} {type : Address}
    (trail : inspector.Trail reader passed marker type)
    (hSuperclass : (inspector.metadata reader).superclass? type = some marker.type) :
    (inspector.metadata reader).Closed (type :: passed) := by
  intro visited hVisited
  rcases List.mem_cons.mp hVisited with rfl | hPassed
  · exact ⟨marker.type, hSuperclass, Or.inr trail.marked⟩
  · obtain ⟨next, hNext, hMem⟩ := trail.closed visited hPassed
    exact ⟨next, hNext, Or.inr hMem⟩

/-- Every type within the hops is visited or was passed before. -/
theorem Trail.mem_of_ascends {passed : List Address} {marker : Marker} {type ancestor : Address}
    {hops hopsLeft : Nat} (trail : inspector.Trail reader passed marker type)
    (ascent : (inspector.metadata reader).Ascends hops type ancestor) (hHops : hops ≤ hopsLeft) :
    ancestor ∈ passed ∨ ancestor ∈ (inspector.lineageFrom reader hopsLeft marker type).types := by
  fun_induction inspector.lineageFrom reader hopsLeft marker type generalizing passed hops with
  | case1 hopsLeft marker type hUnreadable =>
      cases ascent with
      | zero => exact Or.inr (List.mem_singleton.mpr rfl)
      | succ first _ _ =>
          rw [hUnreadable] at first
          cases first
  | case2 hopsLeft marker type hSuperclass =>
      cases ascent with
      | zero => exact Or.inr (List.mem_singleton.mpr rfl)
      | succ first hNonnull _ =>
          rw [hSuperclass] at first
          exact absurd (Option.some.inj first).symm hNonnull
  | case3 marker type superclass _ _ =>
      obtain rfl := Nat.le_zero.mp hHops
      cases ascent
      exact Or.inr (List.mem_singleton.mpr rfl)
  | case4 marker type hopsLeft hSuperclass =>
      have closed := trail.closed_of_marked hSuperclass
      rcases List.mem_cons.mp (closed.mem_of_ascends ascent List.mem_cons_self) with rfl | hPassed
      · exact Or.inr (List.mem_singleton.mpr rfl)
      · exact Or.inl hPassed
  | case5 marker type superclass hSuperclass _ hopsLeft _ ih =>
      cases ascent with
      | zero => exact Or.inr List.mem_cons_self
      | succ first _ ascent =>
          obtain rfl := Option.some.inj (first.symm.trans hSuperclass)
          rcases ih (trail.advance hSuperclass) ascent (Nat.le_of_succ_le_succ hHops) with h | h
          · rcases List.mem_cons.mp h with rfl | hPassed
            · exact Or.inr List.mem_cons_self
            · exact Or.inl hPassed
          · exact Or.inr (List.mem_cons_of_mem _ h)

/-- A climb that was given up for no reason, or because the chain goes round in a circle, has met
every type there is. -/
theorem Trail.closed_of_reason {passed : List Address} {marker : Marker} {type : Address}
    {hopsLeft : Nat} (trail : inspector.Trail reader passed marker type)
    (hReason : ∀ reason ∈ (inspector.lineageFrom reader hopsLeft marker type).reason,
      reason = .cycle) :
    (inspector.metadata reader).Closed
      ((inspector.lineageFrom reader hopsLeft marker type).types ++ passed) := by
  fun_induction inspector.lineageFrom reader hopsLeft marker type generalizing passed with
  | case1 | case3 => exact absurd (hReason _ rfl) (by decide)
  | case2 hopsLeft marker type hSuperclass =>
      intro visited hVisited
      rcases List.mem_cons.mp hVisited with rfl | hPassed
      · exact ⟨0, hSuperclass, Or.inl rfl⟩
      · obtain ⟨superclass, hNext, hMem⟩ := trail.closed visited hPassed
        exact ⟨superclass, hNext, Or.inr hMem⟩
  | case4 marker type hopsLeft hSuperclass => exact trail.closed_of_marked hSuperclass
  | case5 marker type superclass hSuperclass _ hopsLeft _ ih =>
      have closed := ih (trail.advance hSuperclass) hReason
      have hSame (rest : Lineage) (visited : Address) :
          visited ∈ rest.types ++ type :: passed ↔
            visited ∈ (rest.after type).types ++ passed := by
        simp only [Lineage.types_after, List.mem_append, List.mem_cons]
        rw [or_assoc]
        exact or_left_comm
      intro visited hVisited
      obtain ⟨next, hNext, hMem⟩ := closed visited ((hSame _ visited).mpr hVisited)
      exact ⟨next, hNext, hMem.imp_right (hSame _ next).mp⟩

/-- The lineage of a type consists of the types within the hops. -/
theorem mem_lineage_iff {type ancestor : Address} :
    ancestor ∈ (inspector.lineage reader type).types ↔
      ∃ hops ≤ inspector.limits.superclassHops,
        (inspector.metadata reader).Ascends hops type ancestor := by
  constructor
  · exact ascends_of_mem_types
  · intro h
    obtain ⟨hops, hHops, ascent⟩ := h
    rcases (Trail.start type).mem_of_ascends ascent hHops with h | h
    · exact absurd h List.not_mem_nil
    · exact h

end Inspector

end Conformance
