import MemoGraph.Metadata.Family
import MemoGraph.Proofs.Metadata.Sharing
import Mathlib.Data.List.Forall2

namespace MemoGraph.Metadata

variable {α δ ε : Type}

namespace Call

def items : Call α δ → List α
  | .add item => [item]
  | .addAll items => items
  | .propagate _ => []
  | .direct _ => []

/-- The dependency whose items are passed on, if the call names one. -/
def passedOn : Call α δ → List δ
  | .propagate dependency => [dependency]
  | _ => []

/-- The dependency whose items are for the value only, if the call names one. -/
def directOnly : Call α δ → List δ
  | .direct dependency => [dependency]
  | _ => []

/-- The same call, of dependencies that are related. -/
inductive Matches (related : δ → ε → Prop) : Call α δ → Call α ε → Prop where
  | add (item : α) : Matches related (.add item) (.add item)
  | addAll (items : List α) : Matches related (.addAll items) (.addAll items)
  | propagate {left : δ} {right : ε} (same : related left right) :
      Matches related (.propagate left) (.propagate right)
  | direct {left : δ} {right : ε} (same : related left right) :
      Matches related (.direct left) (.direct right)

end Call

/-- The sets that the builder keeps of the dependencies it is called with. -/
def contributions (dependencies : List (Metadata α)) : List (SharedSet α) :=
  (dependencies.map propagated).filter (!·.isEmpty)

theorem contributions_cons (dependency : Metadata α) (dependencies : List (Metadata α)) :
    contributions (dependency :: dependencies) =
      if dependency.propagated.isEmpty then contributions dependencies
      else dependency.propagated :: contributions dependencies := by
  cases empty : dependency.propagated.isEmpty <;> simp [contributions, empty]

theorem foldl_apply (calls : List (Call α (Metadata α))) (builder : Builder α) :
    calls.foldl Call.apply builder =
      { own := builder.own ++ calls.flatMap Call.items
        propagated := builder.propagated ++ contributions (calls.flatMap Call.passedOn)
        directOnly := builder.directOnly ++ contributions (calls.flatMap Call.directOnly) } := by
  induction calls generalizing builder with
  | nil => simp [contributions]
  | cons call calls ih =>
      rw [List.foldl_cons, ih]
      cases call with
      | add item => simp [Call.apply, Builder.add, Call.items, Call.passedOn, Call.directOnly]
      | addAll items => simp [Call.apply, Builder.addAll, Call.items, Call.passedOn, Call.directOnly]
      | propagate dependency =>
          cases empty : dependency.propagated.isEmpty <;>
            simp [Call.apply, Builder.addAndPropagate, Call.items, Call.passedOn, Call.directOnly,
              contributions, empty]
      | direct dependency =>
          cases empty : dependency.propagated.isEmpty <;>
            simp [Call.apply, Builder.addDirectOnly, Call.items, Call.passedOn, Call.directOnly,
              contributions, empty]

theorem compose_eq (name : Option Nat) (calls : List (Call α (Metadata α))) :
    compose name calls =
      { propagated :=
          .node name (calls.flatMap Call.items) (contributions (calls.flatMap Call.passedOn))
        directOnly := .node none [] (contributions (calls.flatMap Call.directOnly)) } := by
  rw [compose, foldl_apply]
  rfl

section Stores

variable {store : Nat → SharedSet α} {name : Option Nat} {calls : List (Call α (Metadata α))}

structure StoredIn (store : Nat → SharedSet α) (metadata : Metadata α) : Prop where
  propagated : metadata.propagated.StoredIn store
  directOnly : metadata.directOnly.StoredIn store

def Call.StoredIn (store : Nat → SharedSet α) : Call α (Metadata α) → Prop
  | .propagate dependency | .direct dependency => dependency.propagated.StoredIn store
  | .add _ | .addAll _ => True

/-- What the calls refer to is in the store, and what they build is there under
its name. -/
structure BuiltIn (store : Nat → SharedSet α) (name : Option Nat)
    (calls : List (Call α (Metadata α))) : Prop where
  dependencies : ∀ call ∈ calls, call.StoredIn store
  named : ∀ address, name = some address → store address = (compose name calls).propagated

theorem contributions_stored {dependencies : Call α (Metadata α) → List (Metadata α)}
    (stored : ∀ call ∈ calls, ∀ dependency ∈ dependencies call,
      dependency.propagated.StoredIn store) :
    ∀ set ∈ contributions (calls.flatMap dependencies), set.StoredIn store := by
  intro set contributed
  obtain ⟨dependency, member, rfl⟩ := List.mem_map.mp (List.mem_filter.mp contributed).1
  obtain ⟨call, inCalls, named⟩ := List.mem_flatMap.mp member
  exact stored call inCalls dependency named

theorem Call.StoredIn.passedOn {call : Call α (Metadata α)} (stored : call.StoredIn store) :
    ∀ dependency ∈ call.passedOn, dependency.propagated.StoredIn store := by
  cases call <;> simp_all [Call.passedOn, Call.StoredIn]

theorem Call.StoredIn.directOnly {call : Call α (Metadata α)} (stored : call.StoredIn store) :
    ∀ dependency ∈ call.directOnly, dependency.propagated.StoredIn store := by
  cases call <;> simp_all [Call.directOnly, Call.StoredIn]

theorem BuiltIn.storedIn (built : BuiltIn store name calls) :
    (compose name calls).StoredIn store := by
  have named := built.named
  rw [compose_eq] at named ⊢
  constructor
  case propagated =>
    exact .node named (contributions_stored fun call member => (built.dependencies call member).passedOn)
  case directOnly =>
    exact .node (fun _ unnamed => nomatch unnamed)
      (contributions_stored fun call member => (built.dependencies call member).directOnly)

end Stores

variable [DecidableEq α]

theorem contributions_unshared (dependencies : List (Metadata α)) :
    (contributions dependencies).flatMap SharedSet.unshared =
      dependencies.flatMap (·.propagated.unshared) := by
  induction dependencies with
  | nil => rfl
  | cons dependency dependencies ih =>
      rw [contributions_cons, List.flatMap_cons, ← ih]
      split
      · rename_i empty
        rw [dependency.propagated.isEmpty_iff.mp empty, List.nil_append]
      · rw [List.flatMap_cons]

theorem compose_propagated_unshared (name : Option Nat) (calls : List (Call α (Metadata α))) :
    (compose name calls).propagated.unshared =
      distinct ((calls.flatMap Call.passedOn).flatMap (·.propagated.unshared) ++
        calls.flatMap Call.items) := by
  rw [compose_eq, SharedSet.unshared, SharedSet.unsharedAll_eq, contributions_unshared]

theorem compose_directOnly_unshared (name : Option Nat) (calls : List (Call α (Metadata α))) :
    (compose name calls).directOnly.unshared =
      distinct ((calls.flatMap Call.directOnly).flatMap (·.propagated.unshared)) := by
  rw [compose_eq, SharedSet.unshared, SharedSet.unsharedAll_eq, contributions_unshared,
    List.append_nil]

section Replacements

variable {store : Nat → SharedSet α} {left right : Metadata α}

theorem agrees_iff (leftStored : left.StoredIn store) (rightStored : right.StoredIn store) :
    left.agrees right = true ↔
      left.propagated.unshared = right.propagated.unshared ∧
        left.directOnly.unshared = right.directOnly.unshared := by
  rw [agrees, SharedSet.agrees_eq leftStored.propagated rightStored.propagated,
    SharedSet.agrees_eq leftStored.directOnly rightStored.directOnly, Bool.and_eq_true,
    beq_iff_eq, beq_iff_eq]

namespace Call.Matches

omit [DecidableEq α] in
theorem items_eq {related : δ → ε → Prop} {one : Call α δ} {two : Call α ε}
    (same : Matches related one two) : one.items = two.items := by
  cases same <;> rfl

/-- The dependencies of calls that agree have the same items to propagate. -/
theorem unshared_eq {one two : Call α (Metadata α)}
    (same : Matches (fun left right => left.propagated.agrees right.propagated) one two)
    (oneStored : one.StoredIn store) (twoStored : two.StoredIn store) :
    one.passedOn.flatMap (·.propagated.unshared) = two.passedOn.flatMap (·.propagated.unshared) ∧
      one.directOnly.flatMap (·.propagated.unshared) =
        two.directOnly.flatMap (·.propagated.unshared) := by
  cases same with
  | add item => exact ⟨rfl, rfl⟩
  | addAll items => exact ⟨rfl, rfl⟩
  | propagate same =>
      rw [SharedSet.agrees_eq oneStored twoStored, beq_iff_eq] at same
      exact ⟨congrArg (· ++ []) same, rfl⟩
  | direct same =>
      rw [SharedSet.agrees_eq oneStored twoStored, beq_iff_eq] at same
      exact ⟨rfl, congrArg (· ++ []) same⟩

end Call.Matches

/-- The same calls with dependencies that propagate the same items. -/
def Replaced (calls replaced : List (Call α (Metadata α))) : Prop :=
  List.Forall₂ (Call.Matches fun left right => left.propagated.agrees right.propagated)
    calls replaced

namespace Replaced

variable {calls replaced : List (Call α (Metadata α))}

theorem unshared_eq (same : Replaced calls replaced)
    (stored : ∀ call ∈ calls, call.StoredIn store)
    (restored : ∀ call ∈ replaced, call.StoredIn store) :
    calls.flatMap Call.items = replaced.flatMap Call.items ∧
      (calls.flatMap Call.passedOn).flatMap (·.propagated.unshared) =
        (replaced.flatMap Call.passedOn).flatMap (·.propagated.unshared) ∧
      (calls.flatMap Call.directOnly).flatMap (·.propagated.unshared) =
        (replaced.flatMap Call.directOnly).flatMap (·.propagated.unshared) := by
  induction same with
  | nil => exact ⟨rfl, rfl, rfl⟩
  | cons head _ ih =>
      obtain ⟨first, stored⟩ := List.forall_mem_cons.mp stored
      obtain ⟨second, restored⟩ := List.forall_mem_cons.mp restored
      obtain ⟨items, passedOn, directOnly⟩ := ih stored restored
      obtain ⟨headPassedOn, headDirectOnly⟩ := head.unshared_eq first second
      simp only [List.flatMap_cons, List.flatMap_append, head.items_eq, items, headPassedOn,
        passedOn, headDirectOnly, directOnly, and_self]

theorem agrees {name other : Option Nat} (same : Replaced calls replaced)
    (built : BuiltIn store name calls) (rebuilt : BuiltIn store other replaced) :
    (compose name calls).agrees (compose other replaced) = true := by
  obtain ⟨items, passedOn, directOnly⟩ :=
    same.unshared_eq built.dependencies rebuilt.dependencies
  rw [agrees_iff built.storedIn rebuilt.storedIn]
  simp only [compose_propagated_unshared, compose_directOnly_unshared, items, passedOn,
    directOnly, and_self]

end Replaced

end Replacements

section Walks

variable {store : Nat → SharedSet α} {set : SharedSet α} {name : Option Nat}
  {calls : List (Call α (Metadata α))}

theorem nested_walked (stored : set.StoredIn store) :
    set.walked = distinct (set.nested.flatMap SharedSet.walked ++ set.own) := by
  have dependencies : set.nested.flatMap SharedSet.walked = set.nested.flatMap SharedSet.unshared :=
    List.flatMap_congr fun inner member => (stored.inner inner member).walked_eq
  rw [stored.walked_eq, SharedSet.unshared_eq, dependencies]

theorem BuiltIn.walked (built : BuiltIn store name calls) :
    (compose name calls).propagated.walked =
      distinct ((calls.flatMap Call.passedOn).flatMap (·.propagated.walked) ++
        calls.flatMap Call.items) := by
  have dependencies : (calls.flatMap Call.passedOn).flatMap (·.propagated.walked) =
      (calls.flatMap Call.passedOn).flatMap (·.propagated.unshared) := by
    refine List.flatMap_congr fun dependency member => ?_
    obtain ⟨call, inCalls, passedOn⟩ := List.mem_flatMap.mp member
    exact ((built.dependencies call inCalls).passedOn dependency passedOn).walked_eq
  rw [built.storedIn.propagated.walked_eq, compose_propagated_unshared, dependencies]

/-- Sharing does not show. The walk with its stack lists what plain recursion
lists, whatever is shared, though it expands no named set twice; a set lists what
its dependencies list and then its own items, and can as well be built from other
dependencies that list the same. -/
theorem sharing_unobservable :
    (∀ set : SharedSet α, set.StoredIn store →
      set.walked = set.unshared ∧ set.toList = set.unshared ∧
        set.walked = distinct (set.nested.flatMap SharedSet.walked ++ set.own) ∧
        (SharedSet.names (SharedSet.Walk.start set).expanded).Nodup ∧
        ∀ other : SharedSet α, other.StoredIn store → set.agrees other = (set == other)) ∧
    (∀ name calls, BuiltIn store name calls →
      (compose name calls).propagated.walked =
        distinct ((calls.flatMap Call.passedOn).flatMap (·.propagated.walked) ++
          calls.flatMap Call.items)) ∧
    ∀ name calls other replaced, BuiltIn store name calls → BuiltIn store other replaced →
      Replaced calls replaced → (compose name calls).agrees (compose other replaced) = true := by
  refine ⟨?sets, fun name calls built => built.walked, ?replaced⟩
  case sets =>
    intro set stored
    refine ⟨stored.walked_eq, stored.toList_eq, nested_walked stored,
      SharedSet.Walk.nodup_names_expanded set, fun other otherStored => ?_⟩
    rw [SharedSet.agrees_eq stored otherStored, ← stored.toList_eq, ← otherStored.toList_eq]
    rfl
  case replaced =>
    intro name calls other replaced built rebuilt same
    exact same.agrees built rebuilt

/-- A set that is nested twice is met twice and listed once. -/
theorem sharing_unobservable_twice :
    (SharedSet.node none [2] [.node (some 0) [1] [], .node (some 0) [1] []]).walked = [1, 2] ∧
      (compose none [.propagate ⟨.node (some 0) [1] [], .empty⟩, .add 2,
        .propagate ⟨.node (some 0) [1] [], .empty⟩]).agrees
          (compose none [.propagate ⟨.node none [] [.node (some 0) [1] []], .empty⟩, .add 2,
            .propagate ⟨.node (some 0) [1] [], .empty⟩]) = true := by
  have shared : SharedSet.StoredIn (fun _ => .node (some 0) [1] []) (.node (some 0) [1] []) :=
    .node (fun _ _ => rfl) (by simp)
  have wrapped : SharedSet.StoredIn (fun _ => .node (some 0) [1] [])
      (.node none [] [.node (some 0) [1] []]) :=
    .node (fun _ unnamed => nomatch unnamed) (by simpa using shared)
  have stored : SharedSet.StoredIn (fun _ => .node (some 0) [1] [])
      (.node none [2] [.node (some 0) [1] [], .node (some 0) [1] []]) :=
    .node (fun _ unnamed => nomatch unnamed) (by simpa using shared)
  have built : BuiltIn (fun _ => .node (some 0) [1] []) none
      [.propagate ⟨.node (some 0) [1] [], .empty⟩, .add 2,
        .propagate ⟨.node (some 0) [1] [], .empty⟩] :=
    ⟨by simpa [Call.StoredIn] using shared, fun _ unnamed => nomatch unnamed⟩
  have rebuilt : BuiltIn (fun _ => .node (some 0) [1] []) none
      [.propagate ⟨.node none [] [.node (some 0) [1] []], .empty⟩, .add 2,
        .propagate ⟨.node (some 0) [1] [], .empty⟩] :=
    ⟨by simpa [Call.StoredIn] using ⟨wrapped, shared⟩, fun _ unnamed => nomatch unnamed⟩
  have sharing := @sharing_unobservable Nat _ fun _ => .node (some 0) [1] []
  constructor
  · rw [(sharing.1 _ stored).1]
    decide
  · refine sharing.2.2 _ _ _ _ built rebuilt (.cons (.propagate ?_) (.cons (.add 2)
      (.cons (.propagate ?_) .nil)))
    · rw [(sharing.1 _ shared).2.2.2.2 _ wrapped]
      decide
    · rw [(sharing.1 _ shared).2.2.2.2 _ shared]
      decide

end Walks

end MemoGraph.Metadata
