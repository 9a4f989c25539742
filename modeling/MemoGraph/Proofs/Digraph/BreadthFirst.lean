import MemoGraph.Proofs.Digraph.Renaming
import MemoGraph.Proofs.Digraph.ShortestCycles

namespace MemoGraph.BreadthFirst

open MemoGraph.Digraph (Edge Frontier advance)
open LowLinks (exists_write)

section Search

variable {α : Type} [Key α] {targets? : Nat → Option (List Nat)} {name? : Nat → Option α}
  {next : α → List α} {size start source place : Nat} {first vertex : α}
  {path : List α} {pending : List (List α)} {search : Search} {frontier later : Frontier α}

/-- Places have names, and lead where these lead. -/
structure Named (targets? : Nat → Option (List Nat)) (name? : Nat → Option α) (next : α → List α)
    (size : Nat) : Prop where
  bound : ∀ place vertex, name? place = some vertex → place < size
  unique : ∀ left right vertex, name? left = some vertex → name? right = some vertex → left = right
  targets : ∀ place vertex, name? place = some vertex → ∃ targets, targets? place = some targets ∧
    List.Forall₂ (fun target other => name? target = some other) targets (next vertex)

/-- The names on the way that a table gives from the start to a place, the latest
first. -/
inductive Leads (name? : Nat → Option α) (start : Nat) (parent : Array (Option Nat)) :
    Nat → List α → Prop
  | start {vertex : α} (named : name? start = some vertex) : Leads name? start parent start [vertex]
  | onward {source place : Nat} {vertex : α} {path : List α}
      (leads : Leads name? start parent source path) (entry : parent[place]? = some (some source))
      (away : place ≠ start) (named : name? place = some vertex) :
      Leads name? start parent place (vertex :: path)

/-- What is in the table stays. -/
def Grows (before after : Array (Option Nat)) : Prop :=
  ∀ place source : Nat, before[place]? = some (some source) → after[place]? = some (some source)

omit [Key α] in
theorem Leads.grows {before after : Array (Option Nat)} (leads : Leads name? start before place path)
    (grows : Grows before after) : Leads name? start after place path := by
  induction leads with
  | start named => exact .start named
  | onward _ entry away named ih => exact .onward ih (grows _ _ entry) away named

omit [Key α] in
/-- The way back is found, and never comes by a place that was not come to. -/
theorem Leads.wayBack {parent : Array (Option Nat)} (leads : Leads name? start parent place path)
    {bound : Nat} (room : path.length ≤ bound) :
    wayBack name? parent start bound place = some path := by
  induction leads generalizing bound with
  | start named =>
      cases bound with
      | zero => cases room
      | succ bound => simp [BreadthFirst.wayBack, named]
  | onward _ entry away named ih =>
      cases bound with
      | zero => cases room
      | succ bound =>
          simp [BreadthFirst.wayBack, named, away, entry, ih (Nat.le_of_succ_le_succ room)]

/-- The queue and the table stand for the paths that are left of this level,
followed by those of the next one. -/
structure Represents (name? : Nat → Option α) (size start : Nat) (search : Search)
    (pending : List (List α)) (frontier : Frontier α) : Prop where
  size : search.parent.size = size
  queue : List.Forall₂ (Leads name? start search.parent) search.queue
    (pending ++ frontier.paths.reverse)
  seen : ∀ place vertex, name? place = some vertex →
    (vertex ∈ frontier.seen ↔ ∃ source, search.parent[place]? = some (some source))

namespace Represents

theorem new (named : name? start = some first) :
    Represents name? size start (.new size start) [] { paths := [[first]] } where
  size := Array.size_replicate
  queue := .cons (.start named) .nil
  seen place vertex _ := by
    refine iff_of_false Std.TreeSet.not_mem_emptyc ?_
    rintro ⟨source, entry⟩
    have found := (Array.getElem?_replicate ..).symm.trans entry
    split at found <;> cases found

theorem next_level (represents : Represents name? size start search [] frontier) :
    Represents name? size start search frontier.paths.reverse { frontier with paths := [] } :=
  { represents with queue := by simpa using represents.queue }

theorem drop {queue : List Nat}
    (represents : Represents name? size start search (path :: pending) frontier)
    (queued : search.queue = source :: queue) :
    Leads name? start search.parent source path ∧
      Represents name? size start { search with queue } pending frontier := by
  have whole := represents.queue
  rw [queued, List.cons_append] at whole
  cases whole with
  | cons leads rest => exact ⟨leads, { represents with queue := rest }⟩

variable (represents : Represents name? size start search pending frontier)
  (names : Named targets? name? next size)
include represents names

theorem exists_visit (leads : Leads name? start search.parent source path)
    (named : name? place = some vertex) (away : place ≠ start) :
    ∃ after, search.visit source place = some after ∧ Grows search.parent after.parent ∧
      Represents name? size start after pending (frontier.prolong path vertex) := by
  have bound : place < search.parent.size := represents.size.symm ▸ names.bound place vertex named
  have known := represents.seen place vertex named
  have inserted : ∀ other, other ∈ frontier.seen.insert vertex ↔
      other = vertex ∨ other ∈ frontier.seen := by
    intro other
    rw [Std.TreeSet.mem_insert, Std.LawfulEqCmp.compare_eq_iff_eq, eq_comm]
  unfold Frontier.prolong
  cases entry : search.parent[place] with
  | some earlier =>
      have found : search.parent[place]? = some (some earlier) := by
        rw [Array.getElem?_eq_getElem bound, entry]
      refine ⟨search, by simp [Search.visit, found], fun _ _ => id, ?_⟩
      rw [if_pos (Std.TreeSet.mem_iff_contains.mp (known.mpr ⟨earlier, found⟩))]
      exact represents
  | none =>
      have found : search.parent[place]? = some none := by
        rw [Array.getElem?_eq_getElem bound, entry]
      obtain ⟨parent, written, sameSize, lookup⟩ := exists_write bound (some source)
      have grows : Grows search.parent parent := by
        intro other from? isEntry
        rw [lookup, if_neg, isEntry]
        rintro rfl
        rw [found] at isEntry
        cases isEntry
      have fresh : ¬ frontier.seen.contains vertex := by
        intro seen
        obtain ⟨earlier, isEntry⟩ := known.mp (Std.TreeSet.mem_iff_contains.mpr seen)
        rw [found] at isEntry
        cases isEntry
      refine ⟨{ parent, queue := search.queue ++ [place] }, by simp [Search.visit, found, written],
        grows, ?_⟩
      rw [if_neg fresh]
      constructor
      case size => exact sameSize.trans represents.size
      case queue =>
        have old := represents.queue.imp fun _ _ leads => leads.grows grows
        have new : Leads name? start parent place (vertex :: path) :=
          .onward (leads.grows grows) (by rw [lookup, if_pos rfl]) away named
        simpa using List.rel_append old (.cons new .nil)
      case seen =>
        intro other otherVertex otherNamed
        rw [inserted, represents.seen other otherVertex otherNamed]
        simp only [lookup]
        by_cases same : other = place
        · subst same
          have equal : otherVertex = vertex := Option.some.inj (otherNamed.symm.trans named)
          simp [equal]
        · have different : otherVertex ≠ vertex := by
            rintro rfl
            exact same (names.unique other place otherVertex otherNamed named)
          simp [same, different]

/-- An edge back to the start is found, and until then the table only grows. -/
theorem exists_follow_closed (isStart : name? start = some first)
    (leads : Leads name? start search.parent source path) {targets : List Nat} {offers : List α}
    (offered : List.Forall₂ (fun target other => name? target = some other) targets offers)
    (back : first ∈ offers) :
    ∃ after, Search.follow start source targets search = some (after, true) ∧
      Grows search.parent after.parent := by
  induction offered generalizing search frontier with
  | nil => cases back
  | @cons target other targets offers named rest ih =>
      unfold Search.follow
      by_cases closes : target = start
      · exact ⟨search, if_pos closes, fun _ _ => id⟩
      · have later : first ∈ offers := by
          refine (List.mem_cons.mp back).resolve_left ?_
          rintro rfl
          exact closes (names.unique target start first named isStart)
        obtain ⟨middle, visited, grows, represents⟩ :=
          represents.exists_visit names leads named closes
        obtain ⟨after, followed, growsAfter⟩ := ih represents (leads.grows grows) later
        exact ⟨after, by simp [closes, visited, followed], fun _ _ => growsAfter _ _ ∘ grows _ _⟩

theorem exists_follow (isStart : name? start = some first)
    (leads : Leads name? start search.parent source path) {targets : List Nat} {offers : List α}
    (offered : List.Forall₂ (fun target other => name? target = some other) targets offers)
    (leaves : first ∉ offers) :
    ∃ after, Search.follow start source targets search = some (after, false) ∧
      Represents name? size start after pending (offers.foldl (Frontier.prolong path) frontier) := by
  induction offered generalizing search frontier with
  | nil => exact ⟨search, rfl, represents⟩
  | @cons target other targets offers named rest ih =>
      obtain ⟨different, leaves⟩ := not_or.mp (List.mem_cons.not.mp leaves)
      have away : target ≠ start := by
        rintro rfl
        exact different (Option.some.inj (isStart.symm.trans named))
      obtain ⟨middle, visited, grows, represents⟩ := represents.exists_visit names leads named away
      obtain ⟨after, followed, represents⟩ := ih represents (leads.grows grows) leaves
      exact ⟨after, by simp [Search.follow, away, visited, followed], represents⟩

end Represents

omit [Key α] in
theorem Leads.exists_head {parent : Array (Option Nat)} (leads : Leads name? start parent place path) :
    ∃ vertex rest, path = vertex :: rest ∧ name? place = some vertex := by
  cases leads with
  | start named => exact ⟨_, _, rfl, named⟩
  | onward _ _ _ named => exact ⟨_, _, rfl, named⟩

section Close

variable {queue targets : List Nat} {after : Search} (queued : search.queue = source :: queue)
  (found : targets? source = some targets)
include queued found

theorem close_of_closed
    (followed : Search.follow start source targets { search with queue } = some (after, true)) :
    close targets? start search = some (after, source) := by
  rw [close]
  split
  · rename_i nothing
    cases queued.symm.trans nothing
  · rename_i other others isQueue
    obtain ⟨rfl, rfl⟩ := List.cons.inj (queued.symm.trans isQueue)
    simp only [found, Option.bind_eq_bind, Option.bind_some]
    split <;> simp_all

theorem close_of_followed
    (followed : Search.follow start source targets { search with queue } = some (after, false)) :
    close targets? start search = close targets? start after := by
  rw [close]
  split
  · rename_i nothing
    cases queued.symm.trans nothing
  · rename_i other others isQueue
    obtain ⟨rfl, rfl⟩ := List.cons.inj (queued.symm.trans isQueue)
    simp only [found, Option.bind_eq_bind, Option.bind_some]
    split <;> simp_all

end Close

variable (names : Named targets? name? next size) (isStart : name? start = some first)
include names isStart

/-- On a level that some edge closes the search stops at the first path with such
an edge. -/
theorem exists_close_of_error {closed : List α}
    (represents : Represents name? size start search pending frontier)
    (advanced : advance next first pending frontier = .error closed) :
    ∃ after place, close targets? start search = some (after, place) ∧
      Leads name? start after.parent place closed := by
  induction pending generalizing search frontier with
  | nil => cases advanced
  | cons path pending ih =>
      obtain ⟨source, queue, _, _, queued⟩ := List.forall₂_cons_right_iff.mp represents.queue
      obtain ⟨leads, dropped⟩ := represents.drop queued
      obtain ⟨vertex, rest, rfl, named⟩ := leads.exists_head
      obtain ⟨targets, found, offered⟩ := names.targets source vertex named
      rw [advance] at advanced
      split at advanced
      · rename_i back
        cases advanced
        obtain ⟨after, followed, grows⟩ :=
          dropped.exists_follow_closed names isStart leads offered back
        exact ⟨after, source, close_of_closed queued found followed, leads.grows grows⟩
      · rename_i leaves
        obtain ⟨after, followed, onward⟩ := dropped.exists_follow names isStart leads offered leaves
        rw [close_of_followed queued found followed]
        exact ih onward advanced

theorem exists_close_of_ok (represents : Represents name? size start search pending frontier)
    (advanced : advance next first pending frontier = .ok later) :
    ∃ after, close targets? start search = close targets? start after ∧
      Represents name? size start after [] later := by
  induction pending generalizing search frontier with
  | nil =>
      cases advanced
      exact ⟨search, rfl, represents⟩
  | cons path pending ih =>
      obtain ⟨source, queue, _, _, queued⟩ := List.forall₂_cons_right_iff.mp represents.queue
      obtain ⟨leads, dropped⟩ := represents.drop queued
      obtain ⟨vertex, rest, rfl, named⟩ := leads.exists_head
      obtain ⟨targets, found, offered⟩ := names.targets source vertex named
      rw [advance] at advanced
      split at advanced
      · cases advanced
      · rename_i leaves
        obtain ⟨after, followed, onward⟩ := dropped.exists_follow names isStart leads offered leaves
        rw [close_of_followed queued found followed]
        exact ih onward advanced

/-- The search comes to the path that the search level by level comes to. -/
theorem exists_close {levels : Nat} (represents : Represents name? size start search [] frontier)
    (found : Digraph.search next first levels frontier = some path) :
    ∃ after place, close targets? start search = some (after, place) ∧
      Leads name? start after.parent place path := by
  induction levels generalizing search frontier with
  | zero => cases found
  | succ levels ih =>
      rw [Digraph.search] at found
      split at found
      · rename_i closed advanced
        cases found
        exact exists_close_of_error names isStart represents.next_level advanced
      · rename_i later advanced
        obtain ⟨after, same, onward⟩ := exists_close_of_ok names isStart represents.next_level advanced
        rw [same]
        split at found
        · cases found
        · exact ih onward found

end Search

section Places

variable {κ : Type} {graph : Array (List Nat)} {keys : List κ} {component : List Nat}
  {place vertex : Nat} {key : κ}

theorem key?_eq_some_iff : key? keys component place = some key ↔
    ∃ vertex, component[place]? = some vertex ∧ keys[vertex]? = some key := by
  simp [key?, Option.bind_eq_some_iff]

theorem mem_keysOf_iff : key ∈ keysOf keys component ↔
    ∃ place, key? keys component place = some key := by
  rw [mem_keysOf]
  constructor
  · rintro ⟨vertex, member, named⟩
    obtain ⟨place, listed⟩ := List.mem_iff_getElem?.mp member
    exact ⟨place, key?_eq_some_iff.mpr ⟨vertex, listed, named⟩⟩
  · rintro ⟨place, isKey⟩
    obtain ⟨vertex, listed, named⟩ := key?_eq_some_iff.mp isKey
    exact ⟨vertex, List.mem_of_getElem? listed, named⟩

theorem places_eq_some_iff (distinct : component.Nodup) :
    (places component)[vertex]? = some place ↔ component[place]? = some vertex := by
  have found : ∀ place, component[place]? = some vertex → (places component)[vertex]? = some place := by
    intro place listed
    refine Std.TreeMap.getElem?_ofList_of_mem Std.ReflCmp.compare_self ?_
      (List.mem_zipIdx_iff_getElem?.mpr listed)
    have apart : (component.zipIdx.map Prod.fst).Nodup := by rwa [List.zipIdx_map_fst]
    exact (List.pairwise_map.mp apart).imp fun different equal =>
      different (Std.LawfulEqCmp.compare_eq_iff_eq.mp equal)
  constructor
  · intro isPlace
    by_cases member : vertex ∈ component
    · obtain ⟨other, listed⟩ := List.mem_iff_getElem?.mp member
      rwa [← Option.some.inj ((found other listed).symm.trans isPlace)]
    · have missing : (places component)[vertex]? = none := by
        refine Std.TreeMap.getElem?_ofList_of_contains_eq_false ?_
        rw [List.zipIdx_map_fst]
        simpa using member
      rw [missing] at isPlace
      cases isPlace
  · exact found place

/-- The places that edges lead to have the keys of those of their ends that are
members. -/
theorem forall₂_places [DecidableEq κ] (unique : keys.Nodup) (distinct : component.Nodup)
    {successors : List Nat} (inside : ∀ target ∈ successors, target < keys.length) :
    List.Forall₂ (fun target key => key? keys component target = some key)
      (successors.filterMap fun vertex => (places component)[vertex]?)
      ((keysOf keys successors).filter (· ∈ keysOf keys component)) := by
  induction successors with
  | nil => exact .nil
  | cons vertex successors ih =>
      obtain ⟨bound, inside⟩ := List.forall_mem_cons.mp inside
      have named := List.getElem?_eq_getElem bound
      have rest := ih inside
      have split : keysOf keys (vertex :: successors) = keys[vertex] :: keysOf keys successors :=
        List.filterMap_cons_some named
      rw [split, List.filter_cons]
      cases isPlace : (places component)[vertex]? with
      | none =>
          have outside : keys[vertex] ∉ keysOf keys component := by
            rw [mem_keysOf]
            rintro ⟨other, member, same⟩
            rw [key_injective unique same named] at member
            obtain ⟨place, listed⟩ := List.mem_iff_getElem?.mp member
            rw [(places_eq_some_iff distinct).mpr listed] at isPlace
            cases isPlace
          rw [List.filterMap_cons_none isPlace, if_neg fun member => outside (of_decide_eq_true member)]
          exact rest
      | some place =>
          have listed := (places_eq_some_iff distinct).mp isPlace
          have isMember : keys[vertex] ∈ keysOf keys component :=
            mem_keysOf.mpr ⟨vertex, List.mem_of_getElem? listed, named⟩
          rw [List.filterMap_cons_some isPlace, if_pos (decide_eq_true isMember)]
          exact .cons (key?_eq_some_iff.mpr ⟨vertex, listed, named⟩) rest

end Places

section Description

variable {κ : Type} {graph : Array (List Nat)} {keys : List κ} {component : List Nat}
  {place vertex levels : Nat} {key : κ}

/-- A component with a cycle, of a graph whose edges are in range and whose
vertices have keys. -/
structure Knot (graph : Array (List Nat)) (keys : List κ) (component : List Nat) : Prop where
  inRange : ∀ successors ∈ graph, ∀ target ∈ successors, target < graph.size
  length : keys.length = graph.size
  unique : keys.Nodup
  listed : ∃ components, LowLinks.cyclicComponents graph = some components ∧ component ∈ components

namespace Knot

variable (knot : Knot graph keys component)
include knot

theorem closed : (Digraph.ofSuccessors graph).Closed := Digraph.closed_ofSuccessors knot.inRange

theorem mem_cyclicComponents : component ∈ (Digraph.ofSuccessors graph).cyclicComponents := by
  obtain ⟨components, found, listed⟩ := knot.listed
  rw [LowLinks.cyclicComponents_eq knot.closed] at found
  exact Option.some.inj found ▸ listed

theorem distinct : component.Nodup :=
  (List.nodup_flatten.mp (Digraph.nodup_cyclicComponents knot.closed)).1 _ knot.mem_cyclicComponents

theorem inside (member : vertex ∈ component) : vertex < graph.size :=
  List.mem_range.mp (Digraph.mem_cyclicComponents knot.closed knot.mem_cyclicComponents member).1

theorem exists_key? (bound : place < component.length) :
    ∃ key, key? keys component place = some key := by
  have named := List.getElem?_eq_getElem (knot.length ▸ knot.inside (List.getElem_mem bound))
  exact ⟨_, key?_eq_some_iff.mpr ⟨_, List.getElem?_eq_getElem bound, named⟩⟩

/-- The members are the keys that are connected with any of them. -/
theorem mem_keysOf_iff_connected [DecidableEq κ] (member : key ∈ keysOf keys component) (other : κ) :
    other ∈ keysOf keys component ↔ (Digraph.ofKeys keys graph).Connected key other := by
  obtain ⟨vertex, isMember, named⟩ := mem_keysOf.mp member
  have whole := (Digraph.mem_cyclicComponents knot.closed knot.mem_cyclicComponents isMember).2.2
  rw [connected_ofKeys knot.unique knot.length knot.closed named, mem_keysOf]
  simp only [whole]

theorem onCycle [DecidableEq κ] (member : key ∈ keysOf keys component) :
    (Digraph.ofKeys keys graph).OnCycle key := by
  obtain ⟨vertex, isMember, named⟩ := mem_keysOf.mp member
  exact onCycle_ofKeys knot.unique knot.length knot.closed named
    (Digraph.mem_cyclicComponents knot.closed knot.mem_cyclicComponents isMember).2.1

variable [Key κ]

/-- Places have the keys of the members for names, and lead where these do inside
the component. -/
theorem named : Named (targets? graph component) (key? keys component)
    ((Digraph.ofKeys keys graph).inside (keysOf keys component)) component.length := by
  constructor
  case bound =>
    intro place key isKey
    obtain ⟨vertex, listed, _⟩ := key?_eq_some_iff.mp isKey
    exact (List.getElem?_eq_some_iff.mp listed).1
  case unique =>
    intro left right key isLeft isRight
    obtain ⟨vertex, listed, named⟩ := key?_eq_some_iff.mp isLeft
    obtain ⟨other, listedOther, namedOther⟩ := key?_eq_some_iff.mp isRight
    rw [key_injective knot.unique namedOther named] at listedOther
    exact (places_eq_some_iff knot.distinct).mpr listed |>.symm.trans
      ((places_eq_some_iff knot.distinct).mpr listedOther) |> Option.some.inj
  case targets =>
    intro place key isKey
    obtain ⟨vertex, listed, named⟩ := key?_eq_some_iff.mp isKey
    have bound := knot.inside (List.mem_of_getElem? listed)
    have found := Array.getElem?_eq_getElem bound
    refine ⟨graph[vertex].filterMap fun vertex => (places component)[vertex]?,
      by simp [targets?, listed, found], ?_⟩
    rw [Digraph.inside_eq, next_ofKeys knot.unique named]
    simp only [Digraph.ofSuccessors, found, Option.getD_some]
    refine forall₂_places knot.unique knot.distinct fun target edge => ?_
    exact knot.length ▸ knot.inRange _ (Array.getElem_mem bound) target edge

/-- The search among the members finds a shortest circle, along members only. -/
theorem exists_search (member : key ∈ keysOf keys component) :
    ∃ path, Digraph.search ((Digraph.ofKeys keys graph).inside (keysOf keys component)) key
        (keysOf keys component).length { paths := [[key]] } = some path ∧
      ShortestCircle (Edge (Digraph.ofKeys keys graph).next) key path.reverse ∧
      ∀ other ∈ path, other ∈ keysOf keys component :=
  Digraph.exists_search (knot.mem_keysOf_iff_connected member) (knot.onCycle member)

end Knot

theorem length_le_of_keysOf {path : List κ} (unique : path.Nodup)
    (inside : ∀ key ∈ path, key ∈ keysOf keys component) : path.length ≤ component.length :=
  (unique.subperm inside).length_le.trans (List.length_filterMap_le ..)

theorem exists_describe
    (each : ∀ place < component.length, ∃ cycle, cycleFrom graph keys component place = some cycle) :
    ∃ cycles, describe graph keys component = some cycles ∧ cycles.length = component.length ∧
      ∀ place < component.length, cycles[place]? = cycleFrom graph keys component place := by
  let cycle place := (cycleFrom graph keys component place).getD []
  have isCycle : ∀ place < component.length,
      cycleFrom graph keys component place = some (cycle place) := by
    intro place bound
    obtain ⟨found, isFound⟩ := each place bound
    simp [cycle, isFound]
  refine ⟨(List.range component.length).map cycle, ?_, by simp, fun place bound => ?_⟩
  · exact LowLinks.mapM_eq_some_map fun place listed => isCycle place (List.mem_range.mp listed)
  · rw [isCycle place bound]
    simp [bound]

variable [Key κ] {next : κ → List κ} {path : List κ}

theorem cycleFrom_eq (names : Named (targets? graph component) (key? keys component) next
      component.length) (isStart : key? keys component place = some key)
    (found : Digraph.search next key levels { paths := [[key]] } = some path)
    (room : path.length ≤ component.length) :
    cycleFrom graph keys component place = some path.reverse := by
  obtain ⟨after, closing, closed, leads⟩ := exists_close names isStart (.new isStart) found
  simp [cycleFrom, closed, leads.wayBack room]

/-- Whatever graph of keys the places stand for, what is described is what the search
level by level finds there. -/
theorem Knot.exists_describe (knot : Knot graph keys component)
    (names : Named (targets? graph component) (key? keys component) next component.length)
    (each : ∀ key ∈ keysOf keys component, ∃ path,
      Digraph.search next key levels { paths := [[key]] } = some path ∧ path.Nodup ∧
        ∀ other ∈ path, other ∈ keysOf keys component) :
    ∃ cycles, describe graph keys component = some cycles ∧ cycles.length = component.length ∧
      ∀ place key path, key? keys component place = some key →
        Digraph.search next key levels { paths := [[key]] } = some path →
          cycles[place]? = some path.reverse := by
  have found : ∀ place key path, key? keys component place = some key →
      Digraph.search next key levels { paths := [[key]] } = some path →
        cycleFrom graph keys component place = some path.reverse := by
    intro place key path isKey isPath
    obtain ⟨other, isOther, unique, inside⟩ := each key (mem_keysOf_iff.mpr ⟨place, isKey⟩)
    rw [isPath] at isOther
    cases isOther
    exact cycleFrom_eq names isKey isPath (length_le_of_keysOf unique inside)
  obtain ⟨cycles, described, length, lookup⟩ := BreadthFirst.exists_describe fun place bound => by
    obtain ⟨key, isKey⟩ := knot.exists_key? bound
    obtain ⟨path, isPath, _⟩ := each key (mem_keysOf_iff.mpr ⟨place, isKey⟩)
    exact ⟨path.reverse, found place key path isKey isPath⟩
  refine ⟨cycles, described, length, fun place key path isKey isPath => ?_⟩
  rw [lookup place (names.bound place key isKey), found place key path isKey isPath]

theorem Knot.searches (knot : Knot graph keys component) : ∀ key ∈ keysOf keys component,
    ∃ path, Digraph.search ((Digraph.ofKeys keys graph).inside (keysOf keys component)) key
        (keysOf keys component).length { paths := [[key]] } = some path ∧ path.Nodup ∧
      ∀ other ∈ path, other ∈ keysOf keys component := by
  intro key member
  obtain ⟨path, found, shortest, inside⟩ := knot.exists_search member
  exact ⟨path, found, List.nodup_reverse.mp shortest.unique, inside⟩

/-- The cycles that are described are those that the search level by level finds. -/
theorem Knot.describe_eq (knot : Knot graph keys component) : describe graph keys component =
    some ((keysOf keys component).map
      ((Digraph.ofKeys keys graph).shortestCycle (keysOf keys component))) := by
  obtain ⟨cycles, described, length, lookup⟩ := knot.exists_describe knot.named knot.searches
  rw [described]
  refine congrArg some (List.ext_getElem? fun place => ?_)
  have named := getElem?_keysOf (fun vertex member => knot.length ▸ knot.inside member) place
  rw [List.getElem?_map, named]
  by_cases bound : place < component.length
  · obtain ⟨key, isKey⟩ := knot.exists_key? bound
    obtain ⟨path, found, _⟩ := knot.searches key (mem_keysOf_iff.mpr ⟨place, isKey⟩)
    rw [lookup place key path isKey found, isKey, Option.map_some, Digraph.shortestCycle_eq found]
  · have none : key? keys component place = none := by
      simp [key?, List.getElem?_eq_none (Nat.le_of_not_lt bound)]
    rw [none, List.getElem?_eq_none (length ▸ Nat.le_of_not_lt bound)]
    rfl

/-- For edges in range and vertices with different keys, every member of a component
with a cycle is described, in the order of the members and without an access out of
range. What is found for a member is a circle of the graph that starts with its key,
comes by no key twice, stays among the members and is not longer than any other
circle from there; the search level by level finds the same. It depends on nothing
but the keys of the members and where the edges of each lead among them: not on how
vertices are numbered, nor on the order in which members are listed. -/
theorem describe_shortest (knot : Knot graph keys component) :
    ∃ cycles, describe graph keys component = some cycles ∧ cycles.length = component.length ∧
      (∀ place < component.length, ∃ key cycle, key? keys component place = some key ∧
        cycles[place]? = some cycle ∧
        ShortestCircle (Edge (Digraph.ofKeys keys graph).next) key cycle ∧
        (∀ other ∈ cycle, other ∈ keysOf keys component) ∧
        (Digraph.ofKeys keys graph).shortestCycle (keysOf keys component) key = cycle) ∧
      ∀ (otherGraph : Array (List Nat)) (otherKeys : List κ) (otherComponent : List Nat),
        Knot otherGraph otherKeys otherComponent →
        (∀ key, key ∈ keysOf keys component ↔ key ∈ keysOf otherKeys otherComponent) →
        (∀ key ∈ keysOf keys component,
          ((Digraph.ofKeys keys graph).next key).filter (· ∈ keysOf keys component) =
            ((Digraph.ofKeys otherKeys otherGraph).next key).filter
              (· ∈ keysOf otherKeys otherComponent)) →
        ∃ others, describe otherGraph otherKeys otherComponent = some others ∧
          ∀ place otherPlace key, key? keys component place = some key →
            key? otherKeys otherComponent otherPlace = some key →
              cycles[place]? = others[otherPlace]? := by
  have each := knot.searches
  obtain ⟨cycles, described, length, lookup⟩ := knot.exists_describe knot.named each
  refine ⟨cycles, described, length, fun place bound => ?_, ?_⟩
  · obtain ⟨key, isKey⟩ := knot.exists_key? bound
    obtain ⟨path, found, shortest, inside⟩ := knot.exists_search (mem_keysOf_iff.mpr ⟨place, isKey⟩)
    exact ⟨key, path.reverse, isKey, lookup place key path isKey found, shortest,
      fun other member => inside other (List.mem_reverse.mp member), Digraph.shortestCycle_eq found⟩
  · intro otherGraph otherKeys otherComponent otherKnot same alike
    have names : Named (targets? otherGraph otherComponent) (key? otherKeys otherComponent)
        ((Digraph.ofKeys keys graph).inside (keysOf keys component)) otherComponent.length := by
      refine { otherKnot.named with targets := fun place key isKey => ?_ }
      have member := (same key).mpr (mem_keysOf_iff.mpr ⟨place, isKey⟩)
      rw [Digraph.inside_eq, alike key member, ← Digraph.inside_eq]
      exact otherKnot.named.targets place key isKey
    simp only [same] at each
    obtain ⟨others, described, _, lookupOther⟩ := otherKnot.exists_describe names each
    refine ⟨others, described, fun place otherPlace key isKey isOther => ?_⟩
    obtain ⟨path, found, _⟩ := each key (mem_keysOf_iff.mpr ⟨otherPlace, isOther⟩)
    rw [lookup place key path isKey found, lookupOther otherPlace key path isOther found]

/-- Two circles that share an edge, in a larger graph and with other numbers in a
graph of their own. -/
theorem describe_shortest_overlapping :
    Knot #[[1, 3], [2], [0, 1], [4], [3, 4], [0]] [10, 20, 30, 40, 50, 60] [0, 1, 2] ∧
      Knot #[[1, 2], [2], [0]] [30, 10, 20] [0, 1, 2] ∧
      ∃ cycles others,
        describe #[[1, 3], [2], [0, 1], [4], [3, 4], [0]] [10, 20, 30, 40, 50, 60] [0, 1, 2] =
          some cycles ∧
        describe #[[1, 2], [2], [0]] [30, 10, 20] [0, 1, 2] = some others ∧
        cycles[2]? = some [30, 20] ∧ others[0]? = some [30, 20] := by
  have knot : Knot #[[1, 3], [2], [0, 1], [4], [3, 4], [0]] [10, 20, 30, 40, 50, 60] [0, 1, 2] :=
    { inRange := by decide
      length := rfl
      unique := by decide
      listed := ⟨_, LowLinks.cyclicComponents_eq (Digraph.closed_ofSuccessors (by decide)),
        by decide +kernel⟩ }
  have renumbered : Knot #[[1, 2], [2], [0]] [30, 10, 20] [0, 1, 2] :=
    { inRange := by decide
      length := rfl
      unique := by decide
      listed := ⟨_, LowLinks.cyclicComponents_eq (Digraph.closed_ofSuccessors (by decide)),
        by decide +kernel⟩ }
  obtain ⟨cycles, described, _, each, alike⟩ := describe_shortest knot
  obtain ⟨others, describedOther, same⟩ := alike _ _ _ renumbered (fun key => by
    show key ∈ [10, 20, 30] ↔ key ∈ [30, 10, 20]
    simp only [List.mem_cons, List.not_mem_nil, or_false]
    omega) (by decide)
  have third : cycles[2]? = some [30, 20] := by
    obtain ⟨key, cycle, isKey, found, _, _, isCycle⟩ := each 2 (by decide)
    cases isKey
    rw [found, ← isCycle]
    decide +kernel
  exact ⟨knot, renumbered, cycles, others, described, describedOther, third,
    (same 2 0 30 rfl rfl).symm.trans third⟩

end Description

end MemoGraph.BreadthFirst
