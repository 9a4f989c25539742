import Mathlib.Data.List.Basic

namespace MemoGraph

variable {α β : Type}

theorem countP_mem_comm [DecidableEq α] {left right : List α} (leftUnique : left.Nodup)
    (rightUnique : right.Nodup) : left.countP (· ∈ right) = right.countP (· ∈ left) := by
  rw [List.countP_eq_length_filter, List.countP_eq_length_filter]
  refine ((List.perm_ext_iff_of_nodup (leftUnique.filter _) (rightUnique.filter _)).mpr ?_).length_eq
  intro item
  simp [and_comm]

theorem countP_split {items : List α} {all first second : α → Bool}
    (split : ∀ item, all item = (first item || second item))
    (apart : ∀ item, first item = true → second item = false) :
    items.countP all = items.countP first + items.countP second := by
  induction items with
  | nil => rfl
  | cons item rest ih =>
      rw [List.countP_cons, List.countP_cons, List.countP_cons, ih, split item]
      cases holds : first item with
      | true =>
          rw [apart item holds]
          simp only [Bool.or_false, if_true, Bool.false_eq_true, if_false]
          omega
      | false =>
          simp only [Bool.false_or, Bool.false_eq_true, if_false]
          omega

theorem count_flatMap_of_indicator [DecidableEq β] {items : List α}
    {lists : α → List β} {target : β} (holds : α → Bool)
    (each : ∀ item ∈ items, (lists item).count target = if holds item then 1 else 0) :
    (items.flatMap lists).count target = items.countP holds := by
  induction items with
  | nil => rfl
  | cons item rest ih =>
      rw [List.flatMap_cons, List.count_append, each item List.mem_cons_self,
        ih fun other member => each other (List.mem_cons_of_mem item member), List.countP_cons]
      omega

theorem countP_lt_countP {items : List α} {fewer more : α → Bool}
    (implies : ∀ item ∈ items, fewer item = true → more item = true) {lost : α}
    (member : lost ∈ items) (passed : more lost = true) (failed : fewer lost = false) :
    items.countP fewer < items.countP more := by
  obtain ⟨front, back, rfl⟩ := List.append_of_mem member
  have frontFewer : front.countP fewer ≤ front.countP more :=
    List.countP_mono_left fun item inFront =>
      implies item (List.mem_append_left _ inFront)
  have backFewer : back.countP fewer ≤ back.countP more :=
    List.countP_mono_left fun item inBack =>
      implies item (List.mem_append_right _ (List.mem_cons_of_mem lost inBack))
  rw [List.countP_append, List.countP_append, List.countP_cons, List.countP_cons, passed, failed]
  simp only [Bool.false_eq_true, if_false, if_true]
  omega

end MemoGraph
