/-! Ordered lists seen from one place. What passes a test comes before what fails it, so the
elements next to the place tell about all others; memories look at these only. -/
namespace Conformance

variable {α : Type} {items : List α} {order : α → α → Prop}

/-- An element is the last one to pass a test if all before it pass and none after it does. -/
theorem getLast?_takeWhile_of_pairwise {test : α → Bool} {item : α}
    (hOrder : items.Pairwise order) (hItem : item ∈ items) (hTest : test item = true)
    (hBefore : ∀ other ∈ items, order other item → test other = true)
    (hAfter : ∀ other ∈ items, order item other → test other = false) :
    (items.takeWhile test).getLast? = some item := by
  obtain ⟨earlier, later, rfl⟩ := List.append_of_mem hItem
  obtain ⟨-, hRest, hEarlier⟩ := List.pairwise_append.mp hOrder
  have hPass : ∀ other ∈ earlier, test other = true := fun other hOther =>
    hBefore other (List.mem_append_left _ hOther) (hEarlier other hOther item List.mem_cons_self)
  have hFail : later.takeWhile test = [] := by
    cases later with
    | nil => rfl
    | cons next rest =>
        have hNext :=
          hAfter next (by simp) ((List.pairwise_cons.mp hRest).1 next List.mem_cons_self)
        exact List.takeWhile_cons_of_neg (by simp [hNext])
  rw [List.takeWhile_append_of_pos hPass, List.takeWhile_cons_of_pos hTest, hFail]
  simp

/-- What holds of the last element holds of all, if it is inherited from later to earlier ones. -/
theorem forall_of_getLast? {holds : α → Prop} (hOrder : items.Pairwise order)
    (hLast : ∀ last, items.getLast? = some last → holds last)
    (hEarlier : ∀ first second, order first second → holds second → holds first) :
    ∀ item ∈ items, holds item := by
  intro item hItem
  cases hEnd : items.getLast? with
  | none =>
      rw [List.getLast?_eq_none_iff.mp hEnd] at hItem
      cases hItem
  | some last =>
      obtain ⟨earlier, rfl⟩ := List.getLast?_eq_some_iff.mp hEnd
      rcases List.mem_append.mp hItem with hFirst | hHere
      · have hBefore := (List.pairwise_append.mp hOrder).2.2 item hFirst last (by simp)
        exact hEarlier item last hBefore (hLast last hEnd)
      · rw [List.mem_singleton.mp hHere]
        exact hLast last hEnd

/-- What holds of the first element holds of all, if it is inherited from earlier to later ones. -/
theorem forall_of_head? {holds : α → Prop} (hOrder : items.Pairwise order)
    (hHead : ∀ head, items.head? = some head → holds head)
    (hLater : ∀ first second, order first second → holds first → holds second) :
    ∀ item ∈ items, holds item := by
  cases items with
  | nil => exact fun _ hItem => nomatch hItem
  | cons head rest =>
      refine List.forall_mem_cons.mpr ⟨hHead head rfl, fun item hItem => ?_⟩
      exact hLater head item ((List.pairwise_cons.mp hOrder).1 item hItem) (hHead head rfl)

end Conformance
