import Mathlib.Data.List.Basic
import Mathlib.Data.List.Induction
import MemoGraph.Grouping

namespace MemoGraph.Grouping

variable {κ : Type} {grouping : Grouping κ} {index : Nat} {group : List κ}

/-- Where a run starts, given where the first one does. -/
def begins (start : Nat) (marks : List Nat) : Nat → Nat
  | 0 => start
  | index + 1 => marks[index]?.getD start

theorem begins_succ (start : Nat) (marks : List Nat) (index : Nat) :
    begins start marks (index + 1) = marks[index]?.getD start := rfl

theorem start_succ (grouping : Grouping κ) (index : Nat) :
    grouping.start (index + 1) = grouping.ends[index]?.getD grouping.size := rfl

theorem le_begins {start length : Nat} {marks : List Nat} (cuts : Cuts start length marks)
    (index : Nat) : start ≤ begins start marks index := by
  induction marks generalizing start index with
  | nil => cases index <;> exact Nat.le_refl _
  | cons mark marks ih =>
      cases index with
      | zero => exact Nat.le_refl _
      | succ index =>
          cases index with
          | zero => exact Nat.le_of_lt cuts.1
          | succ index =>
              have later := ih cuts.2 (index + 1)
              rw [begins_succ] at later
              rw [begins_succ, List.getElem?_cons_succ]
              cases found : marks[index]? with
              | none => exact Nat.le_refl _
              | some stop =>
                  rw [found] at later
                  exact Nat.le_trans (Nat.le_of_lt cuts.1) later

theorem exists_previous {marks : List Nat} {stop : Nat} (found : marks[index + 1]? = some stop) :
    ∃ mark, marks[index]? = some mark := by
  have inside := (List.getElem?_eq_some_iff.mp found).1
  exact ⟨_, List.getElem?_eq_getElem (Nat.lt_of_succ_lt inside)⟩

theorem begins_cons {start mark stop : Nat} {marks : List Nat} (found : marks[index]? = some stop) :
    begins start (mark :: marks) (index + 1) = begins mark marks index := by
  cases index with
  | zero => rfl
  | succ index =>
      obtain ⟨previous, isPrevious⟩ := exists_previous found
      rw [begins_succ, begins_succ, List.getElem?_cons_succ, isPrevious]
      rfl

theorem begins_ends {stop : Nat} (found : grouping.ends[index]? = some stop) :
    begins 0 grouping.ends index = grouping.start index := by
  cases index with
  | zero => rfl
  | succ index =>
      obtain ⟨previous, isPrevious⟩ := exists_previous found
      rw [begins_succ, start_succ, isPrevious]
      rfl

theorem getElem?_runs {start : Nat} {keys : List κ} {marks : List Nat}
    (cuts : Cuts start (start + keys.length) marks) (index : Nat) :
    (runs start keys marks)[index]? = marks[index]?.map fun stop =>
      (keys.drop (begins start marks index - start)).take (stop - begins start marks index) := by
  induction marks generalizing start keys index with
  | nil => rfl
  | cons mark marks ih =>
      cases index with
      | zero => simp [runs, begins]
      | succ index =>
          have rest : mark + (keys.drop (mark - start)).length = start + keys.length := by
            have inside : mark ≤ start + keys.length := cuts.2.start_le
            have later := cuts.1
            rw [List.length_drop]
            omega
          rw [runs, List.getElem?_cons_succ, List.getElem?_cons_succ, ih (rest ▸ cuts.2)]
          cases found : marks[index]? with
          | none => rfl
          | some stop =>
              have reached := le_begins cuts.2 index
              have later := cuts.1
              rw [begins_cons found, Option.map_some, Option.map_some, List.drop_drop]
              congr 3
              omega

theorem getElem?_groups (grouping : Grouping κ) (index : Nat) :
    grouping.groups[index]? = grouping.group? index := by
  unfold groups group?
  rw [getElem?_runs (by rw [Nat.zero_add]; exact grouping.cuts)]
  cases found : grouping.ends[index]? with
  | none => rfl
  | some stop =>
      rw [begins_ends found]
      rfl

theorem length_groups (grouping : Grouping κ) : grouping.groups.length = grouping.groupCount := by
  have counted : ∀ (start : Nat) (keys : List κ) (marks : List Nat),
      (runs start keys marks).length = marks.length := by
    intro start keys marks
    induction marks generalizing start keys with
    | nil => rfl
    | cons mark marks ih => exact congrArg (· + 1) (ih mark _)
  exact counted 0 grouping.keys grouping.ends

theorem drop_groups (found : grouping.group? index = some group) :
    grouping.groups.drop index = group :: grouping.groups.drop (index + 1) := by
  rw [← getElem?_groups] at found
  obtain ⟨inside, isGroup⟩ := List.getElem?_eq_some_iff.mp found
  rw [List.drop_eq_getElem_cons inside, isGroup]

theorem drop_groups_of_last (last : grouping.group? index = none) :
    grouping.groups.drop index = [] := by
  rw [← getElem?_groups, List.getElem?_eq_none_iff] at last
  exact List.drop_eq_nil_of_le last

theorem nodup_of_group? (found : grouping.group? index = some group) : group.Nodup := by
  obtain ⟨stop, _, rfl⟩ := Option.map_eq_some_iff.mp found
  exact (grouping.unique.sublist (List.drop_sublist _ _)).sublist (List.take_sublist _ _)

theorem mem_of_group? (found : grouping.group? index = some group) {key : κ}
    (member : key ∈ group) : key ∈ grouping := by
  obtain ⟨stop, _, rfl⟩ := Option.map_eq_some_iff.mp found
  exact List.mem_of_mem_drop (List.mem_of_mem_take member)

theorem exists_group?_of_mem {key : κ} (member : key ∈ grouping) :
    ∃ index group, grouping.group? index = some group ∧ key ∈ group := by
  have listed : key ∈ grouping.groups.flatten := by
    rw [flatten_groups]
    exact member
  obtain ⟨group, isGroup, inGroup⟩ := List.mem_flatten.mp listed
  obtain ⟨index, found⟩ := List.mem_iff_getElem?.mp isGroup
  exact ⟨index, group, getElem?_groups grouping index ▸ found, inGroup⟩

theorem lt_of_group? {bound : Nat} (last : grouping.group? bound = none)
    (found : grouping.group? index = some group) : index < bound := by
  by_contra beyond
  unfold group? at last found
  obtain ⟨stop, isStop, _⟩ := Option.map_eq_some_iff.mp found
  have inside := (List.getElem?_eq_some_iff.mp isStop).1
  rw [List.getElem?_eq_getElem (by omega)] at last
  cases last

section Requests

variable {κ : Type} [DecidableEq κ]

theorem ofRequests_concat (requests : List (List κ)) (requested : List κ) :
    ofRequests (requests ++ [requested]) = (ofRequests requests).push requested :=
  List.foldl_concat ..

theorem mem_ofRequests {requests : List (List κ)} {key : κ} :
    key ∈ ofRequests requests ↔ key ∈ requests.flatten := by
  induction requests using List.reverseRecOn with
  | nil => exact Iff.rfl
  | append_singleton requests requested ih =>
      rw [ofRequests_concat, mem_push, ih, List.flatten_concat, List.mem_append]

/-- What of a group was not requested before it. -/
def fresh (requests : List (List κ)) (index : Nat) (requested : List κ) : List κ :=
  (distinct requested).filter (· ∉ (requests.take index).flatten)

theorem mapIdx_fresh_concat (requests : List (List κ)) (requested : List κ) :
    (requests ++ [requested]).mapIdx (fresh (requests ++ [requested])) =
      requests.mapIdx (fresh requests) ++ [additions requests.flatten requested] := by
  have earlier : requests.mapIdx (fresh (requests ++ [requested])) =
      requests.mapIdx (fresh requests) := by
    refine List.ext_getElem (by simp) fun index bound _ => ?_
    rw [List.length_mapIdx] at bound
    simp only [List.getElem_mapIdx, fresh, List.take_append_of_le_length (Nat.le_of_lt bound)]
  rw [List.mapIdx_concat, earlier, additions_eq_filter]
  simp only [fresh, List.take_left']

/-- Every group is left without what was requested before it, and is dropped if
nothing of it is left. -/
theorem groups_ofRequests (requests : List (List κ)) :
    (ofRequests requests).groups = (requests.mapIdx (fresh requests)).filter (· ≠ []) := by
  induction requests using List.reverseRecOn with
  | nil => rfl
  | append_singleton requests requested ih =>
      have added : additions (ofRequests requests).keys requested =
          additions requests.flatten requested :=
        additions_congr (fun key => mem_ofRequests) requested
      rw [ofRequests_concat, groups_push, mapIdx_fresh_concat, List.filter_append, ← ih, added]
      by_cases nothing : additions requests.flatten requested = [] <;> simp [nothing]

end Requests
end MemoGraph.Grouping
