import Mathlib.Algebra.Ring.Nat
import Mathlib.Data.List.Nodup
import MemoGraph.Proofs.Groups

namespace MemoGraph.Grouping

/-! A record is the list of its groups and nothing else.

The groups are not empty and have no key in common. They determine the record,
and whatever is read from the record is read from them.
-/

variable {κ : Type} {grouping : Grouping κ} {index : Nat} {group : List κ}

theorem mark_in_range {start length stop : Nat} {marks : List Nat} (cuts : Cuts start length marks)
    (found : marks[index]? = some stop) : begins start marks index < stop ∧ stop ≤ length := by
  induction marks generalizing start index with
  | nil => simp at found
  | cons mark marks ih =>
      cases index with
      | zero =>
          obtain rfl : mark = stop := by simpa using found
          exact ⟨cuts.1, cuts.2.start_le⟩
      | succ index =>
          rw [List.getElem?_cons_succ] at found
          rw [begins_cons found]
          exact ih cuts.2 found

theorem start_in_range {stop : Nat} (found : grouping.ends[index]? = some stop) :
    grouping.start index < stop ∧ stop ≤ grouping.keys.length := by
  rw [← begins_ends found]
  exact mark_in_range grouping.cuts found

theorem start?_eq {stop : Nat} (found : grouping.ends[index]? = some stop) :
    grouping.start? index = some (grouping.start index) := by
  cases index with
  | zero => rfl
  | succ index =>
      obtain ⟨previous, isPrevious⟩ := exists_previous found
      rw [start?, start_succ, isPrevious]
      rfl

/-- All positions that are used to look up a group exist. -/
theorem readGroup?_eq (grouping : Grouping κ) (index : Nat) :
    grouping.readGroup? index = some (grouping.group? index) := by
  unfold readGroup? group?
  cases found : grouping.ends[index]? with
  | none => rfl
  | some stop =>
      obtain ⟨later, inside⟩ := start_in_range found
      have sliced : slice? grouping.keys (grouping.start index) stop =
          some ((grouping.keys.drop (grouping.start index)).take (stop - grouping.start index)) :=
        if_pos ⟨Nat.le_of_lt later, inside⟩
      simp only [start?_eq found, Option.bind_eq_bind, Option.bind_some, sliced]
      rfl

theorem ne_nil_of_mem_groups (member : group ∈ grouping.groups) : group ≠ [] := by
  obtain ⟨index, found⟩ := List.mem_iff_getElem?.mp member
  rw [getElem?_groups] at found
  obtain ⟨stop, isStop, rfl⟩ := Option.map_eq_some_iff.mp found
  obtain ⟨later, inside⟩ := start_in_range isStop
  refine List.ne_nil_of_length_pos ?_
  rw [List.length_take, List.length_drop]
  omega

theorem group?_eq_none_iff : grouping.group? index = none ↔ grouping.groupCount ≤ index := by
  rw [← getElem?_groups, List.getElem?_eq_none_iff, length_groups]

theorem filterMap_group? (grouping : Grouping κ) :
    (List.range grouping.groupCount).filterMap grouping.group? = grouping.groups := by
  have listed : (List.range grouping.groupCount).map grouping.group? = grouping.groups.map some := by
    refine List.ext_getElem (by simp [length_groups]) fun index _ bound => ?_
    rw [List.length_map] at bound
    rw [List.getElem_map, List.getElem_map, List.getElem_range, ← getElem?_groups,
      List.getElem?_eq_getElem bound]
  calc (List.range grouping.groupCount).filterMap grouping.group?
    _ = ((List.range grouping.groupCount).map grouping.group?).filterMap id := by
        rw [List.filterMap_map, Function.id_comp]
    _ = grouping.groups := by
        rw [listed, List.filterMap_map, Function.id_comp, List.filterMap_some]

theorem size_eq_sum (grouping : Grouping κ) :
    grouping.size = (grouping.groups.map List.length).sum := by
  rw [← List.length_flatten, flatten_groups]
  rfl

theorem mem_iff_exists_group {key : κ} :
    key ∈ grouping ↔ ∃ group ∈ grouping.groups, key ∈ group := by
  rw [← List.mem_flatten, flatten_groups]
  exact Iff.rfl

theorem isEmpty_iff_groups : grouping.isEmpty = true ↔ grouping.groups = [] := by
  constructor
  · intro empty
    refine List.eq_nil_iff_forall_not_mem.mpr fun group member => ?_
    obtain ⟨key, inGroup⟩ := List.exists_mem_of_ne_nil group (ne_nil_of_mem_groups member)
    have recorded : key ∈ grouping.keys := mem_iff_exists_group.mpr ⟨group, member, inGroup⟩
    rw [List.isEmpty_iff.mp empty] at recorded
    exact List.not_mem_nil recorded
  · intro none
    have noKeys : grouping.keys = [] := by
      rw [← flatten_groups, none]
      rfl
    exact List.isEmpty_iff.mpr noKeys

/-- The marks are found again from the runs they cut. -/
theorem marks_of_runs {start : Nat} {left right : List κ} {marks others : List Nat}
    (leftCuts : Cuts start (start + left.length) marks)
    (rightCuts : Cuts start (start + right.length) others)
    (same : runs start left marks = runs start right others) : marks = others := by
  induction marks generalizing start left right others with
  | nil =>
      cases others with
      | nil => rfl
      | cons other others => cases same
  | cons mark marks ih =>
      cases others with
      | nil => cases same
      | cons other others =>
          obtain ⟨sameFirst, sameRest⟩ := List.cons.inj same
          have leftInside : mark ≤ start + left.length := leftCuts.2.start_le
          have rightInside : other ≤ start + right.length := rightCuts.2.start_le
          have leftLater := leftCuts.1
          have rightLater := rightCuts.1
          obtain rfl : mark = other := by
            have sameLength := congrArg List.length sameFirst
            rw [List.length_take, List.length_take] at sameLength
            omega
          have leftRest : mark + (left.drop (mark - start)).length = start + left.length := by
            rw [List.length_drop]
            omega
          have rightRest : mark + (right.drop (mark - start)).length = start + right.length := by
            rw [List.length_drop]
            omega
          exact congrArg (mark :: ·)
            (ih (leftRest ▸ leftCuts.2) (rightRest ▸ rightCuts.2) sameRest)

theorem groups_injective : Function.Injective (groups : Grouping κ → List (List κ)) := by
  intro left right same
  have keys : left.keys = right.keys := by
    rw [← flatten_groups left, same, flatten_groups]
  have ends : left.ends = right.ends :=
    marks_of_runs (by rw [Nat.zero_add]; exact left.cuts) (by rw [Nat.zero_add]; exact right.cuts)
      same
  cases left
  cases right
  cases keys
  cases ends
  rfl

section Requests

variable [DecidableEq κ]

/-- Comparing marks and keys is comparing the groups. -/
theorem same_iff {left right : Grouping κ} :
    left.same right = true ↔ left.groups = right.groups := by
  unfold same
  rw [Bool.and_eq_true, beq_iff_eq, beq_iff_eq]
  constructor
  · rintro ⟨ends, keys⟩
    unfold groups
    rw [ends, keys]
  · intro groups
    rw [groups_injective groups]
    exact ⟨rfl, rfl⟩

/-- Non-empty groups without a common key are recorded as they are. -/
theorem groups_ofRequests_of_disjoint {requests : List (List κ)}
    (nonempty : ∀ group ∈ requests, group ≠ []) (unique : requests.flatten.Nodup) :
    (ofRequests requests).groups = requests := by
  induction requests using List.reverseRecOn with
  | nil => rfl
  | append_singleton requests last ih =>
      rw [List.flatten_concat] at unique
      obtain ⟨uniqueBefore, uniqueLast, apart⟩ := List.nodup_append.mp unique
      have before : (ofRequests requests).groups = requests :=
        ih (fun group member => nonempty group (List.mem_append_left [last] member)) uniqueBefore
      have keys : (ofRequests requests).keys = requests.flatten := by
        rw [← flatten_groups, before]
      have added : additions (ofRequests requests).keys last = last := by
        rw [keys]
        exact additions_of_new uniqueLast fun key inLast inBefore => apart key inBefore key inLast rfl
      rw [ofRequests_concat, groups_push, added, before,
        if_neg (nonempty last List.mem_concat_self)]

theorem ofRequests_groups (grouping : Grouping κ) : ofRequests grouping.groups = grouping := by
  refine groups_injective (groups_ofRequests_of_disjoint (fun _ => ne_nil_of_mem_groups) ?_)
  rw [flatten_groups]
  exact grouping.unique

theorem keys_ofRequests (requests : List (List κ)) :
    (ofRequests requests).keys = distinct requests.flatten := by
  induction requests using List.reverseRecOn with
  | nil => rfl
  | append_singleton requests last ih =>
      have recorded : ∀ key, key ∈ (ofRequests requests).keys ↔ key ∈ requests.flatten :=
        fun _ => mem_ofRequests
      rw [ofRequests_concat, keys_push, additions_congr recorded, ih, List.flatten_concat]
      exact (additions_append [] requests.flatten last).symm

end Requests

/-- Everything that can be read from a record, read from a list of disjoint
non-empty groups. -/
structure Shows (grouping : Grouping κ) (groups : List (List κ)) : Prop where
  groups_eq : grouping.groups = groups
  nonempty : ∀ group ∈ groups, group ≠ []
  nodup : ∀ group ∈ groups, group.Nodup
  disjoint : groups.Pairwise List.Disjoint
  keys_eq : grouping.keys = groups.flatten
  keys_nodup : grouping.keys.Nodup
  groupCount_eq : grouping.groupCount = groups.length
  group?_eq : ∀ index, grouping.group? index = groups[index]?
  group?_none : ∀ index, grouping.group? index = none ↔ grouping.groupCount ≤ index
  in_range : ∀ index, grouping.readGroup? index = some groups[index]?
  one_by_one : (List.range grouping.groupCount).filterMap grouping.group? = groups
  size_eq : grouping.size = (groups.map List.length).sum
  isEmpty_iff : grouping.isEmpty = true ↔ groups = []
  mem_iff : ∀ key, key ∈ grouping ↔ ∃ group ∈ groups, key ∈ group

theorem shows_groups (grouping : Grouping κ) : grouping.Shows grouping.groups := by
  have unique : grouping.groups.flatten.Nodup := by
    rw [flatten_groups]
    exact grouping.unique
  obtain ⟨nodup, disjoint⟩ := List.nodup_flatten.mp unique
  exact {
    groups_eq := rfl
    nonempty := fun _ => ne_nil_of_mem_groups
    nodup := nodup
    disjoint := disjoint
    keys_eq := (flatten_groups grouping).symm
    keys_nodup := grouping.unique
    groupCount_eq := (length_groups grouping).symm
    group?_eq := fun index => (getElem?_groups grouping index).symm
    group?_none := fun _ => group?_eq_none_iff
    in_range := fun index => by rw [readGroup?_eq, getElem?_groups]
    one_by_one := filterMap_group? grouping
    size_eq := size_eq_sum grouping
    isEmpty_iff := isEmpty_iff_groups
    mem_iff := fun _ => mem_iff_exists_group }

variable [DecidableEq κ]

/-- The record of any requests is a list of disjoint non-empty groups: every
request with the keys that were not requested before it, each once, as far as
there are any. Records are the same exactly if these lists are, and the record
of the groups of a record is that record. -/
theorem ofRequests_isListOfGroups (requests : List (List κ)) :
    (ofRequests requests).Shows
        ((requests.mapIdx fun index requested =>
          requested.eraseDups.filter (· ∉ (requests.take index).flatten)).filter (· ≠ [])) ∧
      (ofRequests requests).keys = requests.flatten.eraseDups ∧
      (∀ others : List (List κ), (ofRequests requests).same (ofRequests others) = true ↔
        (ofRequests requests).groups = (ofRequests others).groups) ∧
      (∀ others : List (List κ), ofRequests requests = ofRequests others ↔
        (ofRequests requests).groups = (ofRequests others).groups) ∧
      ofRequests (ofRequests requests).groups = ofRequests requests := by
  have recorded : (ofRequests requests).groups =
      (requests.mapIdx fun index requested =>
        requested.eraseDups.filter (· ∉ (requests.take index).flatten)).filter (· ≠ []) := by
    rw [groups_ofRequests]
    simp only [← distinct_eq_eraseDups]
    rfl
  refine ⟨recorded ▸ shows_groups _, ?_, fun _ => same_iff, fun _ => groups_injective.eq_iff.symm,
    ofRequests_groups _⟩
  rw [keys_ofRequests, distinct_eq_eraseDups]

example : (ofRequests [[1, 2, 1], [2, 3], [], [3]]).groups = [[1, 2], [3]] := by decide

end MemoGraph.Grouping
