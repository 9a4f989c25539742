import MemoGraph.Digraph.BreadthFirst
import MemoGraph.Proofs.Digraph.CyclicComponents
import MemoGraph.Proofs.Digraph.ShortestCycles

namespace MemoGraph

theorem DepthFirst.deterministic {α : Type} {next : α → List α}
    {starts before after finished afterOther finishedOther : List α}
    (traversal : DepthFirst next starts before after finished)
    (other : DepthFirst next starts before afterOther finishedOther) :
    afterOther = after ∧ finishedOther = finished := by
  induction traversal generalizing afterOther finishedOther with
  | done =>
      cases other
      exact ⟨rfl, rfl⟩
  | skip known _ ih =>
      cases other with
      | skip _ rest => exact ih rest
      | visit unknown => exact absurd known unknown
  | visit unknown _ _ insideEqual restEqual =>
      cases other with
      | skip known => exact absurd known unknown
      | visit _ inside rest =>
          obtain ⟨rfl, rfl⟩ := insideEqual inside
          obtain ⟨rfl, rfl⟩ := restEqual rest
          exact ⟨rfl, rfl⟩

namespace BreadthFirst

open MemoGraph.Digraph (Edge)

section Names

variable {κ : Type} {graph : Array (List Nat)} {keys : List κ} {component : List Nat}
  {source target : Nat} {left right : κ}

def keysOf (keys : List κ) (vertices : List Nat) : List κ := vertices.filterMap (keys[·]?)

theorem mem_keysOf {vertices : List Nat} {key : κ} :
    key ∈ keysOf keys vertices ↔ ∃ vertex ∈ vertices, keys[vertex]? = some key := List.mem_filterMap

theorem key_injective (unique : keys.Nodup) (isSource : keys[source]? = some left)
    (isTarget : keys[target]? = some left) : source = target := by
  obtain ⟨bound, rfl⟩ := List.getElem?_eq_some_iff.mp isSource
  obtain ⟨other, same⟩ := List.getElem?_eq_some_iff.mp isTarget
  exact ((unique.getElem_inj_iff).mp same).symm

theorem keysOf_cons (isSource : keys[source]? = some left) (vertices : List Nat) :
    keysOf keys (source :: vertices) = left :: keysOf keys vertices :=
  List.filterMap_cons_some isSource

theorem exists_key (inside : ∀ vertex ∈ component, vertex < keys.length) :
    ∀ vertex ∈ component, ∃ key, keys[vertex]? = some key :=
  fun vertex member => ⟨_, List.getElem?_eq_getElem (inside vertex member)⟩

/-- If all vertices have keys, none of them is left out. -/
theorem mapM_keys (inside : ∀ vertex ∈ component, vertex < keys.length) :
    component.mapM (keys[·]?) = some (keysOf keys component) := by
  induction component with
  | nil => rfl
  | cons vertex component ih =>
      obtain ⟨bound, inside⟩ := List.forall_mem_cons.mp inside
      have named := List.getElem?_eq_getElem bound
      rw [List.mapM_cons, named, ih inside, keysOf_cons named]
      rfl

theorem getElem?_keysOf (inside : ∀ vertex ∈ component, vertex < keys.length) (place : Nat) :
    (keysOf keys component)[place]? = key? keys component place := by
  induction component generalizing place with
  | nil => rfl
  | cons vertex component ih =>
      obtain ⟨bound, inside⟩ := List.forall_mem_cons.mp inside
      rw [keysOf_cons (List.getElem?_eq_getElem bound)]
      cases place with
      | zero => simp [key?, bound]
      | succ place => simpa [key?] using ih inside place

theorem keysOf_range (keys : List κ) : keysOf keys (List.range keys.length) = keys := by
  have named : (List.range keys.length).map (keys[·]?) = keys.map some :=
    List.ext_getElem (by simp) fun index left right => by simp
  calc keysOf keys (List.range keys.length)
      = ((List.range keys.length).map (keys[·]?)).filterMap id := by
        rw [List.filterMap_map]
        rfl
    _ = keys := by rw [named, List.filterMap_map, Function.id_comp, List.filterMap_some]

theorem key_mem_keysOf_iff (unique : keys.Nodup) (isSource : keys[source]? = some left)
    {vertices : List Nat} : left ∈ keysOf keys vertices ↔ source ∈ vertices := by
  rw [mem_keysOf]
  constructor
  · rintro ⟨vertex, member, isVertex⟩
    exact key_injective unique isVertex isSource ▸ member
  · exact fun member => ⟨source, member, isSource⟩

variable [DecidableEq κ]

theorem keysOf_filter_mem (unique : keys.Nodup) (order : List Nat) :
    keysOf keys (order.filter (· ∈ component)) =
      (keysOf keys order).filter (· ∈ keysOf keys component) := by
  induction order with
  | nil => rfl
  | cons vertex order ih =>
      cases named : keys[vertex]? with
      | none =>
          have dropped : keysOf keys (vertex :: order) = keysOf keys order :=
            List.filterMap_cons_none named
          rw [dropped, ← ih, List.filter_cons]
          split
          · exact List.filterMap_cons_none named
          · rfl
      | some key =>
          have member : key ∈ keysOf keys component ↔ vertex ∈ component :=
            key_mem_keysOf_iff unique named
          rw [keysOf_cons named, List.filter_cons, List.filter_cons]
          by_cases isMember : vertex ∈ component
          · simp [isMember, member.mpr isMember, keysOf_cons named, ih]
          · simp [isMember, member.not.mpr isMember, ih]

theorem next_ofKeys (unique : keys.Nodup) (isSource : keys[source]? = some left) :
    (Digraph.ofKeys keys graph).next left =
      keysOf keys ((Digraph.ofSuccessors graph).next source) := by
  obtain ⟨bound, rfl⟩ := List.getElem?_eq_some_iff.mp isSource
  show ((graph[keys.idxOf keys[source]]?).getD []).filterMap _ = _
  rw [unique.idxOf_getElem]
  rfl

theorem edge_ofKeys (unique : keys.Nodup) (isSource : keys[source]? = some left) :
    Edge (Digraph.ofKeys keys graph).next left right ↔
      ∃ target, Edge (Digraph.ofSuccessors graph).next source target ∧ keys[target]? = some right := by
  show right ∈ _ ↔ _
  rw [next_ofKeys unique isSource, mem_keysOf]

variable (unique : keys.Nodup) (length : keys.length = graph.size)
  (closed : (Digraph.ofSuccessors graph).Closed)
include unique length closed

omit unique [DecidableEq κ] in
theorem lt_of_reaches (bound : source < keys.length)
    (way : Walk.Reaches (Digraph.ofSuccessors graph).next source target) :
    target < keys.length := by
  rw [length] at bound ⊢
  exact List.mem_range.mp (closed.reaches (List.mem_range.mpr bound) way)

theorem reaches_ofKeys (isSource : keys[source]? = some left) :
    Walk.Reaches (Digraph.ofKeys keys graph).next left right ↔
      ∃ target, Walk.Reaches (Digraph.ofSuccessors graph).next source target ∧
        keys[target]? = some right := by
  constructor
  · intro way
    induction way with
    | refl => exact ⟨source, .refl, isSource⟩
    | tail _ edge ih =>
        obtain ⟨middle, way, isMiddle⟩ := ih
        obtain ⟨target, edge, isTarget⟩ := (edge_ofKeys unique isMiddle).mp edge
        exact ⟨target, way.tail edge, isTarget⟩
  · rintro ⟨target, way, isTarget⟩
    induction way generalizing right with
    | refl => exact Option.some.inj (isSource.symm.trans isTarget) ▸ .refl
    | @tail middle _ way edge ih =>
        have bound : source < keys.length := (List.getElem?_eq_some_iff.mp isSource).1
        have isMiddle := List.getElem?_eq_getElem (lt_of_reaches length closed bound way)
        exact (ih isMiddle).tail ((edge_ofKeys unique isMiddle).mpr ⟨_, edge, isTarget⟩)

theorem connected_ofKeys (isSource : keys[source]? = some left) :
    (Digraph.ofKeys keys graph).Connected left right ↔
      ∃ target, (Digraph.ofSuccessors graph).Connected source target ∧
        keys[target]? = some right := by
  constructor
  · rintro ⟨forth, back⟩
    obtain ⟨target, forth, isTarget⟩ := (reaches_ofKeys unique length closed isSource).mp forth
    obtain ⟨origin, back, isOrigin⟩ := (reaches_ofKeys unique length closed isTarget).mp back
    rw [key_injective unique isOrigin isSource] at back
    exact ⟨target, ⟨forth, back⟩, isTarget⟩
  · rintro ⟨target, ⟨forth, back⟩, isTarget⟩
    exact ⟨(reaches_ofKeys unique length closed isSource).mpr ⟨target, forth, isTarget⟩,
      (reaches_ofKeys unique length closed isTarget).mpr ⟨source, back, isSource⟩⟩

theorem onCycle_ofKeys (isSource : keys[source]? = some left)
    (cycle : (Digraph.ofSuccessors graph).OnCycle source) :
    (Digraph.ofKeys keys graph).OnCycle left := by
  obtain ⟨next, edge, back⟩ := Relation.TransGen.head'_iff.mp cycle
  have bound : source < keys.length := (List.getElem?_eq_some_iff.mp isSource).1
  have isNext := List.getElem?_eq_getElem (lt_of_reaches length closed bound (.single edge))
  exact .head' ((edge_ofKeys unique isSource).mpr ⟨next, edge, isNext⟩)
    ((reaches_ofKeys unique length closed isNext).mpr ⟨source, back, isSource⟩)

omit closed length in
theorem closed_ofKeys : (Digraph.ofKeys keys graph).Closed where
  unique := unique
  inside _ _ _ edge := by
    obtain ⟨_, _, named⟩ := mem_keysOf.mp edge
    exact List.mem_of_getElem? named

theorem depthFirst_ofKeys {starts before after finished : List Nat}
    (traversal : DepthFirst (Digraph.ofSuccessors graph).next starts before after finished)
    (inside : ∀ start ∈ starts, start < keys.length) :
    DepthFirst (Digraph.ofKeys keys graph).next (keysOf keys starts) (keysOf keys before)
      (keysOf keys after) (keysOf keys finished) := by
  induction traversal with
  | done => exact .done
  | skip known _ ih =>
      obtain ⟨bound, inside⟩ := List.forall_mem_cons.mp inside
      have named := List.getElem?_eq_getElem bound
      rw [keysOf_cons named]
      exact .skip ((key_mem_keysOf_iff unique named).mpr known) (ih inside)
  | @visit start starts before middle after inner outer unknown _ _ insideIh restIh =>
      obtain ⟨bound, inside⟩ := List.forall_mem_cons.mp inside
      have named := List.getElem?_eq_getElem bound
      have onward := insideIh fun target edge => lt_of_reaches length closed bound (.single edge)
      rw [← next_ofKeys unique named] at onward
      have split : ∀ left right : List Nat,
          keysOf keys (left ++ start :: right) = keysOf keys left ++ keys[start] :: keysOf keys right :=
        fun left right => by rw [keysOf, List.filterMap_append, ← keysOf, ← keysOf, keysOf_cons named]
      rw [split] at onward
      rw [keysOf_cons named, split]
      exact .visit ((key_mem_keysOf_iff unique named).not.mpr unknown) onward (restIh inside)

theorem closes_ofKeys {finished : List Nat} {components : List (List Nat)}
    (closes : (Digraph.ofSuccessors graph).Closes finished components)
    (inside : ∀ vertex ∈ finished, vertex < keys.length) :
    (Digraph.ofKeys keys graph).Closes (keysOf keys finished) (components.map (keysOf keys)) := by
  induction closes with
  | start => exact .start
  | @close vertex finished component components whole complete _ ih =>
      obtain ⟨bound, inside⟩ := List.forall_mem_cons.mp inside
      have named := List.getElem?_eq_getElem bound
      rw [keysOf_cons named]
      refine .close (fun key => ?_) (fun key member => ?_) (ih inside)
      · rw [connected_ofKeys unique length closed named, mem_keysOf]
        simp only [whole]
      · obtain ⟨other, isMember, isOther⟩ := mem_keysOf.mp member
        rw [← keysOf_cons named]
        exact mem_keysOf.mpr ⟨other, complete other isMember, isOther⟩
  | @pass vertex other finished components connected missing _ ih =>
      obtain ⟨bound, inside⟩ := List.forall_mem_cons.mp inside
      have named := List.getElem?_eq_getElem bound
      have isOther := List.getElem?_eq_getElem (lt_of_reaches length closed bound connected.1)
      rw [keysOf_cons named]
      refine .pass ((connected_ofKeys unique length closed named).mpr ⟨other, connected, isOther⟩) ?_
        (ih inside)
      rw [← keysOf_cons named]
      exact (key_mem_keysOf_iff unique isOther).not.mpr missing

end Names

section Components

variable {κ : Type} [Key κ] {graph : Array (List Nat)} {keys : List κ} (unique : keys.Nodup)
include unique

theorem isCyclic_ofKeys {component : List Nat} (inside : ∀ vertex ∈ component, vertex < keys.length) :
    (Digraph.ofKeys keys graph).isCyclic (keysOf keys component) =
      (Digraph.ofSuccessors graph).isCyclic component := by
  have named := exists_key inside
  match component with
  | [] => rfl
  | [vertex] =>
      obtain ⟨key, isKey⟩ := named vertex List.mem_cons_self
      rw [keysOf_cons isKey]
      simp only [keysOf, List.filterMap_nil, Digraph.isCyclic, next_ofKeys unique isKey]
      exact decide_eq_decide.mpr (key_mem_keysOf_iff unique isKey)
  | first :: second :: rest =>
      obtain ⟨key, isKey⟩ := named first List.mem_cons_self
      obtain ⟨other, isOther⟩ := named second (List.mem_cons_of_mem first List.mem_cons_self)
      rw [keysOf_cons isKey, keysOf_cons isOther]
      rfl

variable (length : keys.length = graph.size) (closed : (Digraph.ofSuccessors graph).Closed)
include length closed

theorem walk_ofKeys :
    (Digraph.ofKeys keys graph).walk.discovered.reverse =
        keysOf keys (Digraph.ofSuccessors graph).walk.discovered.reverse ∧
      (Digraph.ofKeys keys graph).walk.finished =
        keysOf keys (Digraph.ofSuccessors graph).walk.finished := by
  have renamed := depthFirst_ofKeys unique length closed (Digraph.depthFirst_walk closed)
    fun start isVertex => length.symm ▸ List.mem_range.mp isVertex
  have vertices : keysOf keys (Digraph.ofSuccessors graph).vertices =
      (Digraph.ofKeys keys graph).vertices := by
    show keysOf keys (List.range graph.size) = keys
    rw [← length, keysOf_range]
  rw [vertices] at renamed
  exact renamed.deterministic (Digraph.depthFirst_walk (closed_ofKeys unique))

/-- Whatever the vertices are called, the same components are found in the same order,
each with its members in the same order. -/
theorem cyclicComponents_ofKeys : (Digraph.ofKeys keys graph).cyclicComponents =
    (Digraph.ofSuccessors graph).cyclicComponents.map (keysOf keys) := by
  obtain ⟨components, trail, _⟩ := LowLinks.exists_cyclicComponents closed
  obtain ⟨discovered, finished⟩ := walk_ofKeys unique length closed
  have inside : ∀ vertex ∈ (Digraph.ofSuccessors graph).walk.finished, vertex < keys.length :=
    fun vertex member =>
      length.symm ▸ List.mem_range.mp (((Digraph.finished_spec closed).2.2 vertex).mp member)
  have closes := closes_ofKeys unique length closed trail.closes inside
  have listed : ∀ component ∈ components.map (keysOf keys), component =
      (Digraph.ofKeys keys graph).walk.discovered.reverse.filter (· ∈ component) := by
    intro component member
    obtain ⟨vertices, isComponent, rfl⟩ := List.mem_map.mp member
    rw [discovered, ← keysOf_filter_mem unique, ← trail.listed vertices isComponent]
  have cyclic : ∀ component ∈ components, ((Digraph.ofKeys keys graph).isCyclic ∘ keysOf keys) component =
      (Digraph.ofSuccessors graph).isCyclic component := fun component isComponent =>
    isCyclic_ofKeys unique fun vertex member =>
      inside vertex (trail.closes.mem_finished isComponent member)
  rw [Digraph.cyclicComponents_of_closes (closed_ofKeys unique) (finished ▸ closes) listed,
    Digraph.cyclicComponents_of_closes closed trail.closes trail.listed, List.filter_map,
    List.filter_congr cyclic, List.map_reverse]

end Components

end BreadthFirst

end MemoGraph
