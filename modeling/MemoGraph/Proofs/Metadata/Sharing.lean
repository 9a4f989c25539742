import MemoGraph.Metadata.Walk

namespace MemoGraph.SharedSet

/-! Sharing does not show.

A named set is expanded only where it is met first. Where it is met again, it is
not one of the sets still being expanded, for those are larger than what is
nested in them; so its items are listed already.
-/

variable {α : Type}

/-- Every named set that the set is made of is what the store has under its name. -/
inductive StoredIn (store : Nat → SharedSet α) : SharedSet α → Prop where
  | node {name : Option Nat} {own : List α} {nested : List (SharedSet α)}
      (stored : ∀ address, name = some address → store address = .node name own nested)
      (inner : ∀ set ∈ nested, StoredIn store set) :
      StoredIn store (.node name own nested)

variable {store : Nat → SharedSet α} {set : SharedSet α}

theorem StoredIn.stored {address : Nat} (stored : set.StoredIn store)
    (named : set.name = some address) : store address = set := by
  cases stored with
  | node stored _ => exact stored address named

theorem StoredIn.inner (stored : set.StoredIn store) :
    ∀ inner ∈ set.nested, inner.StoredIn store := by
  cases stored with
  | node _ inner => exact inner

theorem induction {motive : SharedSet α → Prop}
    (node : ∀ name own nested, (∀ set ∈ nested, motive set) → motive (.node name own nested)) :
    ∀ set, motive set
  | .node name own nested => node name own nested fun set _ => induction node set

theorem steps_lt_of_mem {sets : List (SharedSet α)} (member : set ∈ sets) :
    set.steps < stepsAll sets + 1 := by
  induction member with
  | head => simp only [stepsAll]; omega
  | tail _ _ ih => simp only [stepsAll]; omega

variable [DecidableEq α]

mutual

/-- The items of the set, each at its first occurrence, by plain recursion: the
items of the nested sets in order, then its own. -/
def unshared : SharedSet α → List α
  | .node _ own nested => distinct (unsharedAll nested ++ own)

def unsharedAll : List (SharedSet α) → List α
  | [] => []
  | set :: sets => set.unshared ++ unsharedAll sets

end

theorem unsharedAll_eq (sets : List (SharedSet α)) : unsharedAll sets = sets.flatMap unshared := by
  induction sets with
  | nil => rfl
  | cons set sets ih => rw [unsharedAll, ih, List.flatMap_cons]

theorem unshared_eq (set : SharedSet α) :
    set.unshared = distinct (set.nested.flatMap unshared ++ set.own) := by
  obtain ⟨name, own, nested⟩ := set
  rw [unshared, unsharedAll_eq]
  rfl

theorem nodup_unshared (set : SharedSet α) : set.unshared.Nodup := by
  rw [unshared_eq]
  exact nodup_distinct _

section Walks

variable {flattening next : Flattening α}

omit [DecidableEq α] in
theorem Flattening.meet_true {name : Option Nat} (met : flattening.meet name = (next, true)) :
    next.items = flattening.items ∧ next.met = name.toList ++ flattening.met ∧
      (flattening.met.Nodup → next.met.Nodup) := by
  cases name with
  | none =>
      cases met
      exact ⟨rfl, rfl, id⟩
  | some address =>
      simp only [Flattening.meet] at met
      split at met
      · cases met
      · rename_i new
        cases met
        exact ⟨rfl, rfl, fun unique => List.nodup_cons.mpr ⟨new, unique⟩⟩

omit [DecidableEq α] in
theorem Flattening.mem_meet {name : Option Nat} (met : flattening.meet name = (next, true))
    {address : Nat} (inMet : address ∈ next.met) :
    address ∈ flattening.met ∨ name = some address := by
  obtain ⟨_, more, _⟩ := meet_true met
  rw [more, List.mem_append, Option.mem_toList] at inMet
  exact inMet.symm

omit [DecidableEq α] in
/-- When a walk starts, nothing is met. -/
theorem Flattening.meet_start (name : Option Nat) :
    Flattening.meet ({} : Flattening α) name = ((Flattening.meet {} name).1, true) := by
  cases name <;> rfl

omit [DecidableEq α] in
theorem Flattening.meet_false {name : Option Nat} (met : flattening.meet name = (next, false)) :
    next = flattening ∧ ∃ address ∈ flattening.met, name = some address := by
  cases name with
  | none => cases met
  | some address =>
      simp only [Flattening.meet] at met
      split at met <;> cases met
      exact ⟨rfl, address, ‹_›, rfl⟩

theorem expand_of_met (met : flattening.meet set.name = (next, false)) :
    expand flattening set = flattening := by
  obtain ⟨rfl, -⟩ := Flattening.meet_false met
  cases set with
  | node name own nested =>
      have met : next.meet name = (next, false) := met
      rw [expand, met]

theorem expand_of_new (new : flattening.meet set.name = (next, true)) :
    expand flattening set = (expandAll next set.nested).append set.own := by
  cases set with
  | node name own nested =>
      have new : flattening.meet name = (next, true) := new
      rw [expand, new]
      rfl

theorem finish_of_ended {walk : Walk α} (ended : walk.step = none) :
    walk.finish = walk.flattening := by
  rw [Walk.finish]
  split
  · rfl
  · rename_i next taken
    cases ended.symm.trans taken

theorem finish_of_step {walk after : Walk α} (stepped : walk.step = some after) :
    walk.finish = after.finish := by
  rw [Walk.finish]
  split
  · rename_i ended
    cases ended.symm.trans stepped
  · rename_i next taken
    cases taken.symm.trans stepped
    rfl

/-- What lies on the stack is expanded as by recursion, from where it stands. -/
theorem finish_frame (set : SharedSet α) : ∀ position outer flattening,
    Walk.finish ⟨(set, position) :: outer, flattening⟩ =
      Walk.finish ⟨outer, (expandAll flattening (set.nested.drop position)).append set.own⟩ := by
  induction set using induction with
  | node name own nested ih =>
      suffices frames : ∀ sets position outer flattening, nested.drop position = sets →
          Walk.finish ⟨(.node name own nested, position) :: outer, flattening⟩ =
            Walk.finish ⟨outer, (expandAll flattening sets).append own⟩ from
        fun position outer flattening => frames _ position outer flattening rfl
      intro sets
      induction sets with
      | nil =>
          intro position outer flattening nothing
          refine finish_of_step ?_
          have found : nested[position]? = none :=
            List.getElem?_eq_none (List.drop_eq_nil_iff.mp nothing)
          simp only [Walk.step, SharedSet.nested, found]
          rfl
      | cons set sets more =>
          intro position outer flattening left
          have found : nested[position]? = some set := by
            rw [← List.head?_drop, left, List.head?_cons]
          have rest : nested.drop (position + 1) = sets := by
            rw [← List.tail_drop, left, List.tail_cons]
          have member := List.mem_of_getElem? found
          rw [expandAll]
          cases met : flattening.meet set.name with
          | mk next new =>
              cases new with
              | false =>
                  rw [expand_of_met met, ← more _ outer flattening rest]
                  refine finish_of_step ?_
                  obtain ⟨rfl, -⟩ := Flattening.meet_false met
                  simp only [Walk.step, SharedSet.nested, found, met]
              | true =>
                  rw [expand_of_new met, ← more _ outer _ rest]
                  refine (finish_of_step ?_).trans (ih set member 0 _ next)
                  simp only [Walk.step, SharedSet.nested, found, met]

theorem walked_eq_toList (set : SharedSet α) : set.walked = set.toList := by
  rw [walked, Walk.start, finish_frame, toList, expand_of_new (Flattening.meet_start set.name),
    List.drop_zero, finish_of_ended rfl]

end Walks

section Expansions

def names (sets : List (SharedSet α)) : List Nat := sets.filterMap name

omit [DecidableEq α] in
theorem names_cons (set : SharedSet α) (sets : List (SharedSet α)) :
    names (set :: sets) = set.name.toList ++ names sets := by
  cases named : set.name <;> simp [names, named]

namespace Walk

variable {walk after : Walk α}

/-- The set whose own items the next step lists, if that is what it does. -/
def complete? (walk : Walk α) : Option (SharedSet α) :=
  match walk.stack with
  | [] => none
  | (set, position) :: _ => if position < set.nested.length then none else some set

/-- The sets that are expanded from here on, in the order of their completion. -/
def expanded (walk : Walk α) : List (SharedSet α) :=
  match _stepped : walk.step with
  | none => []
  | some next => walk.complete?.toList ++ expanded next
termination_by walk.remaining
decreasing_by exact remaining_step _stepped

theorem expanded_of_ended (ended : walk.step = none) : walk.expanded = [] := by
  rw [expanded]
  split
  · rfl
  · rename_i next taken
    cases ended.symm.trans taken

theorem expanded_of_step (stepped : walk.step = some after) :
    walk.expanded = walk.complete?.toList ++ after.expanded := by
  rw [expanded]
  split
  · rename_i ended
    cases ended.symm.trans stepped
  · rename_i next taken
    cases taken.symm.trans stepped
    rfl

/-- The names of the sets that are being expanded. -/
def underway (walk : Walk α) : List Nat := names (walk.stack.map Prod.fst)

theorem stack_of_ended (ended : walk.step = none) : walk.stack = [] := by
  obtain ⟨stack, flattening⟩ := walk
  cases stack with
  | nil => rfl
  | cons frame outer =>
      obtain ⟨set, position⟩ := frame
      simp only [step] at ended
      split at ended
      · cases ended
      · split at ended <;> cases ended

/-- A step completes a set, or what it meets is expanded next. -/
theorem step_cases (stepped : walk.step = some after) :
    (∃ set, walk.complete? = some set ∧ after.flattening.met = walk.flattening.met ∧
        walk.underway = set.name.toList ++ after.underway) ∨
      walk.complete? = none ∧ ∃ new, after.flattening.met = new ++ walk.flattening.met ∧
        (walk.flattening.met.Nodup → after.flattening.met.Nodup) ∧
        after.underway = new ++ walk.underway := by
  obtain ⟨stack, flattening⟩ := walk
  cases stack with
  | nil => cases stepped
  | cons frame outer =>
      obtain ⟨set, position⟩ := frame
      simp only [step] at stepped
      split at stepped
      · rename_i done
        cases stepped
        exact .inl ⟨set, if_neg (Nat.not_lt.mpr (List.getElem?_eq_none_iff.mp done)), rfl,
          names_cons ..⟩
      · rename_i inner found
        have left : position < set.nested.length := (List.getElem?_eq_some_iff.mp found).1
        refine .inr ⟨if_pos left, ?_⟩
        split at stepped
        · rename_i met isMet
          cases stepped
          obtain ⟨_, more, unique⟩ := Flattening.meet_true isMet
          exact ⟨inner.name.toList, more, unique, names_cons ..⟩
        · rename_i met isMet
          cases stepped
          obtain ⟨rfl, _⟩ := Flattening.meet_false isMet
          exact ⟨[], rfl, id, rfl⟩

/-- What is underway, and what is met from here on, is expanded once each. -/
theorem expanded_perm (walk : Walk α) :
    (names walk.expanded ++ walk.flattening.met).Perm (walk.underway ++ walk.finish.met) := by
  induction walk using finish.induct with
  | case1 walk ended =>
      have nothing : walk.underway = [] := by
        rw [underway, stack_of_ended ended]
        rfl
      rw [finish_of_ended ended, expanded_of_ended ended, nothing]
      exact .refl _
  | case2 walk after stepped ih =>
      rw [finish_of_step stepped, expanded_of_step stepped]
      rcases step_cases stepped with ⟨set, complete, met, underway⟩ | ⟨none, new, met, _, underway⟩
      · rw [complete, underway, ← met]
        show (names (set :: after.expanded) ++ _).Perm _
        rw [names_cons, List.append_assoc, List.append_assoc]
        exact ih.append_left set.name.toList
      · rw [met, underway] at ih
        rw [none]
        have moved : (names after.expanded ++ (new ++ walk.flattening.met)).Perm
            (new ++ (names after.expanded ++ walk.flattening.met)) := by
          rw [← List.append_assoc, ← List.append_assoc]
          exact List.perm_append_comm.append_right _
        rw [List.append_assoc] at ih
        exact (List.perm_append_left_iff new).mp (moved.symm.trans ih)

theorem nodup_met_finish (walk : Walk α) (unique : walk.flattening.met.Nodup) :
    walk.finish.met.Nodup := by
  induction walk using finish.induct with
  | case1 walk ended =>
      rw [finish_of_ended ended]
      exact unique
  | case2 walk after stepped ih =>
      rw [finish_of_step stepped]
      rcases step_cases stepped with ⟨_, _, met, _⟩ | ⟨_, _, _, fresh, _⟩
      · exact ih (met ▸ unique)
      · exact ih (fresh unique)

/-- A walk through a set expands no named set twice. -/
theorem nodup_names_expanded (set : SharedSet α) : (names (start set).expanded).Nodup := by
  obtain ⟨_, met, unique⟩ := Flattening.meet_true (Flattening.meet_start set.name)
  have opened : (start set).flattening.met = (start set).underway :=
    met.trans (names_cons set []).symm
  have perm := (start set).expanded_perm
  rw [opened] at perm
  have same := (List.perm_append_left_iff _).mp (List.perm_append_comm.trans perm)
  exact same.nodup_iff.mpr (nodup_met_finish _ (unique List.nodup_nil))

end Walk

end Expansions

section Completeness

/-- From one state of flattening to a later one, the items were listed, and so
were those of every set that was met on the way. -/
structure Lists (store : Nat → SharedSet α) (items : List α) (before after : Flattening α) :
    Prop where
  items_eq : after.items = before.items ++ additions before.items items
  met : ∀ address ∈ after.met, address ∈ before.met ∨
    ∀ item ∈ (store address).unshared, item ∈ after.items

/-- What was met and is smaller than the bound is listed. What is not may still
be open. -/
def Settled (store : Nat → SharedSet α) (bound : Nat) (flattening : Flattening α) : Prop :=
  ∀ address ∈ flattening.met, (store address).steps < bound →
    ∀ item ∈ (store address).unshared, item ∈ flattening.items

variable {before middle after : Flattening α} {items more : List α} {bound : Nat}

namespace Lists

theorem mem_items (lists : Lists store items before after) {item : α} :
    item ∈ after.items ↔ item ∈ before.items ∨ item ∈ items := by
  rw [lists.items_eq, List.mem_append, mem_additions]
  by_cases known : item ∈ before.items <;> simp [known]

theorem refl (flattening : Flattening α) : Lists store [] flattening flattening :=
  ⟨(List.append_nil _).symm, fun _ => .inl⟩

theorem trans (first : Lists store items before middle) (second : Lists store more middle after) :
    Lists store (items ++ more) before after := by
  constructor
  case items_eq =>
    rw [second.items_eq, first.items_eq]
    exact append_additions_append before.items items more
  case met =>
    intro address inMet
    obtain earlier | listed := second.met address inMet
    · refine (first.met address earlier).imp_right fun listed item inSet => ?_
      exact second.mem_items.mpr (.inl (listed item inSet))
    · exact .inr listed

theorem settled (lists : Lists store items before after) (settled : Settled store bound before) :
    Settled store bound after := by
  intro address inMet small item inSet
  obtain earlier | listed := lists.met address inMet
  · exact lists.mem_items.mpr (.inl (settled address earlier small item inSet))
  · exact listed item inSet

end Lists

theorem Settled.anti (settled : Settled store bound before) {smaller : Nat}
    (below : smaller ≤ bound) : Settled store smaller before :=
  fun address inMet small => settled address inMet (Nat.lt_of_lt_of_le small below)

/-- A set that is met is open, but no smaller set is. -/
theorem Settled.meet (settled : Settled store (set.steps + 1) before)
    (stored : set.StoredIn store) (met : before.meet set.name = (middle, true)) :
    Settled store set.steps middle := by
  obtain ⟨sameItems, _⟩ := Flattening.meet_true met
  intro address inMet small
  obtain earlier | named := Flattening.mem_meet met inMet
  · rw [sameItems]
    exact settled address earlier (Nat.lt_succ_of_lt small)
  · rw [stored.stored named] at small
    exact absurd small (Nat.lt_irrefl _)

theorem append_lists (flattening : Flattening α) (items : List α) :
    Lists store items flattening (flattening.append items) :=
  ⟨rfl, fun _ => .inl⟩

theorem expandAll_lists {sets : List (SharedSet α)} (small : ∀ set ∈ sets, set.steps < bound)
    (each : ∀ set ∈ sets, ∀ before, Settled store (set.steps + 1) before →
      Lists store set.unshared before (expand before set))
    (settled : Settled store bound before) :
    Lists store (unsharedAll sets) before (expandAll before sets) := by
  induction sets generalizing before with
  | nil => exact .refl before
  | cons set sets ih =>
      obtain ⟨smallSet, smallSets⟩ := List.forall_mem_cons.mp small
      obtain ⟨eachSet, eachSets⟩ := List.forall_mem_cons.mp each
      have first := eachSet before (settled.anti smallSet)
      exact first.trans (ih smallSets eachSets (first.settled settled))

theorem expand_lists (stored : set.StoredIn store) : ∀ before,
    Settled store (set.steps + 1) before →
      Lists store set.unshared before (expand before set) := by
  induction set using induction with
  | node name own nested ih =>
      intro before settled
      cases met : before.meet name with
      | mk next new =>
          cases new with
          | false =>
              -- A set that is still open would be larger than the one met.
              obtain ⟨rfl, address, inMet, named⟩ := Flattening.meet_false met
              have listed := settled address inMet (by rw [stored.stored named]; omega)
              rw [stored.stored named] at listed
              rw [expand_of_met met]
              refine ⟨?_, fun _ => .inl⟩
              rw [additions_of_subset listed, List.append_nil]
          | true =>
              obtain ⟨sameItems, _⟩ := Flattening.meet_true met
              have inner := expandAll_lists (fun _ => steps_lt_of_mem)
                (fun set member => ih set member (stored.inner set member))
                (settled.meet stored met)
              have listed := inner.trans (append_lists _ own)
              rw [expand_of_new met]
              constructor
              case items_eq =>
                rw [unshared, additions_distinct, ← sameItems]
                exact listed.items_eq
              case met =>
                intro address inMet
                obtain earlier | complete := listed.met address inMet
                · refine (Flattening.mem_meet met earlier).imp_right fun named item inSet => ?_
                  rw [stored.stored named] at inSet
                  exact listed.mem_items.mpr (.inr (mem_distinct.mp inSet))
                · exact .inr complete

theorem StoredIn.toList_eq (stored : set.StoredIn store) : set.toList = set.unshared := by
  have lists := expand_lists stored {} fun _ inMet => absurd inMet List.not_mem_nil
  exact lists.items_eq.trans (distinct_of_nodup set.nodup_unshared)

theorem StoredIn.walked_eq (stored : set.StoredIn store) : set.walked = set.unshared :=
  (walked_eq_toList set).trans stored.toList_eq

end Completeness

theorem isEmpty_iff (set : SharedSet α) : set.isEmpty = true ↔ set.unshared = [] := by
  induction set using induction with
  | node name own nested ih =>
      have nestedEmpty : ∀ sets : List (SharedSet α), (∀ set ∈ sets, set ∈ nested) →
          (allEmpty sets = true ↔ unsharedAll sets = []) := by
        intro sets within
        induction sets with
        | nil => exact ⟨fun _ => rfl, fun _ => rfl⟩
        | cons set sets rest =>
            obtain ⟨first, others⟩ := List.forall_mem_cons.mp within
            rw [allEmpty, unsharedAll, Bool.and_eq_true, List.append_eq_nil_iff, ih set first,
              rest others]
      rw [isEmpty, unshared, distinct_eq_nil, List.append_eq_nil_iff, Bool.and_eq_true,
        List.isEmpty_iff, nestedEmpty nested fun _ => id]
      exact and_comm

/-- Sets under the same name are the same set, so that a comparison can skip
them. -/
theorem agrees_eq {left right : SharedSet α} (leftStored : left.StoredIn store)
    (rightStored : right.StoredIn store) :
    left.agrees right = (left.unshared == right.unshared) := by
  rw [agrees, leftStored.walked_eq, rightStored.walked_eq]
  cases shortcut : left.same right with
  | false => rfl
  | true =>
      simp only [same, Bool.and_eq_true, beq_iff_eq, Option.isSome_iff_exists] at shortcut
      obtain ⟨⟨address, named⟩, sameName⟩ := shortcut
      have same : left = right :=
        (leftStored.stored named).symm.trans (rightStored.stored (sameName.symm.trans named))
      rw [same, beq_self_eq_true]
      rfl

end MemoGraph.SharedSet
