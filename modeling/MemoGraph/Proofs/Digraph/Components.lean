import Mathlib.Data.Fintype.Order
import MemoGraph.Digraph.Components
import MemoGraph.Digraph.ShortestCycle
import MemoGraph.Proofs.Digraph.Walks

namespace MemoGraph.Digraph

open Walk (Reaches Leads Ordered Visited)

variable {α : Type}

/-- The edges of a graph lead to its vertices. -/
structure Closed (graph : Digraph α) : Prop where
  unique : graph.vertices.Nodup
  inside : ∀ vertex ∈ graph.vertices, ∀ target ∈ graph.next vertex, target ∈ graph.vertices

def OnCycle (graph : Digraph α) (vertex : α) : Prop :=
  Relation.TransGen (fun source target => target ∈ graph.next source) vertex vertex

def Connected (graph : Digraph α) (left right : α) : Prop :=
  Reaches graph.next left right ∧ Reaches graph.next right left

theorem Connected.symm {graph : Digraph α} {left right : α}
    (connected : graph.Connected left right) : graph.Connected right left :=
  And.symm connected

theorem Connected.trans {graph : Digraph α} {first second third : α}
    (left : graph.Connected first second) (right : graph.Connected second third) :
    graph.Connected first third :=
  ⟨Relation.ReflTransGen.trans left.1 right.1, Relation.ReflTransGen.trans right.2 left.2⟩

theorem Closed.reaches {graph : Digraph α} (closed : graph.Closed) {source target : α}
    (inside : source ∈ graph.vertices) (reaches : Reaches graph.next source target) :
    target ∈ graph.vertices := by
  induction reaches with
  | refl => exact inside
  | tail _ edge ih => exact closed.inside _ ih _ edge

variable [Key α] {graph : Digraph α}

theorem walk_spec (closed : graph.Closed) :
    ∃ order, Visited graph.next {} graph.vertices graph.walk order ∧
      ∀ vertex, vertex ∈ order ↔ vertex ∈ graph.vertices := by
  have room : ({} : Walk α).unseen graph.vertices ≤ graph.vertices.length := List.countP_le_length
  obtain ⟨order, visited⟩ := Walk.foldl_visit_spec graph.vertices
    (fun walk vertex inside room => Walk.visit_spec closed.inside inside room)
    (fun _ start => start) room
  refine ⟨order, visited, fun vertex => ⟨fun found => ?_, fun inside => ?_⟩⟩
  · obtain ⟨start, isStart, _, leads⟩ := visited.reached vertex found
    exact closed.reaches isStart leads.reaches
  · refine ((visited.seen vertex).mp (visited.starts vertex inside)).resolve_left ?_
    exact Std.TreeSet.not_mem_emptyc

/-- The components so far are whole, and the assigned vertices are their members. -/
structure Collected (graph : Digraph α) (collection : Collection α) : Prop where
  assigned : ∀ vertex, vertex ∈ collection.assigned ↔
    ∃ component ∈ collection.components, vertex ∈ component
  inside : ∀ component ∈ collection.components, ∀ vertex ∈ component, vertex ∈ graph.vertices
  whole : ∀ component ∈ collection.components, ∀ vertex ∈ component, ∀ other,
    other ∈ component ↔ graph.Connected vertex other
  unique : collection.components.flatten.Nodup

theorem Collected.empty : graph.Collected {} where
  assigned vertex := by
    simp only [List.not_mem_nil, false_and, exists_false, iff_false]
    exact Std.TreeSet.not_mem_emptyc
  inside := by simp
  whole := by simp
  unique := List.nodup_nil

theorem Collected.assigned_connected {collection : Collection α}
    (collected : graph.Collected collection) {vertex other : α}
    (assigned : vertex ∈ collection.assigned) (connected : graph.Connected vertex other) :
    other ∈ collection.assigned := by
  obtain ⟨component, listed, member⟩ := (collected.assigned vertex).mp assigned
  exact (collected.assigned other).mpr
    ⟨component, listed, (collected.whole component listed vertex member other).mpr connected⟩

/-- A walk against the edges from the latest vertex that is not assigned finds
its component. -/
theorem Collected.found_iff {collection : Collection α} (collected : graph.Collected collection)
    (closed : graph.Closed) {vertex : α} {earlier found : List α} {walk : Walk α}
    (inside : vertex ∈ graph.vertices) (free : vertex ∉ collection.assigned)
    (ordered : Ordered graph.next (vertex :: earlier))
    (covered : ∀ other ∈ graph.vertices, other ∉ collection.assigned → other ∈ vertex :: earlier)
    (visited : Visited graph.reverse.next { seen := collection.assigned } [vertex] walk found)
    (other : α) : other ∈ found ↔ graph.Connected vertex other := by
  have edge : ∀ source target, source ∈ graph.reverse.next target ↔
      source ∈ graph.vertices ∧ target ∈ graph.next source := by
    intro source target
    show source ∈ graph.vertices.filter _ ↔ _
    simp
  have back : ∀ other, Leads graph.reverse.next (· ∈ collection.assigned) vertex other →
      Reaches graph.next other vertex := by
    intro other leads
    induction leads with
    | refl => exact .refl
    | tail _ step ih => exact Relation.ReflTransGen.head ((edge _ _).mp step.1).2 ih
  constructor
  · intro member
    obtain ⟨start, isStart, _, leads⟩ := visited.reached other member
    rw [List.mem_singleton.mp isStart] at leads
    refine ⟨ordered.1 other (Relation.ReflTransGen.mono ?_ _ _ leads), back other leads⟩
    intro target source step
    obtain ⟨isVertex, isEdge⟩ := (edge source target).mp step.1
    exact ⟨isEdge, covered source isVertex step.2⟩
  · intro connected
    have start : vertex ∈ found :=
      ((visited.seen vertex).mp (visited.starts vertex (by simp))).resolve_left free
    refine visited.complete start ?_
    have way : ∀ middle, Reaches graph.next middle vertex → Reaches graph.next vertex middle →
        Leads graph.reverse.next (· ∈ collection.assigned) vertex middle := by
      intro middle forth
      induction forth using Relation.ReflTransGen.head_induction_on with
      | refl => exact fun _ => .refl
      | head isEdge rest ih =>
          intro reached
          rename_i source target
          refine (ih (reached.tail isEdge)).tail ⟨(edge _ _).mpr ⟨?_, isEdge⟩, fun assigned => ?_⟩
          · exact closed.reaches inside reached
          · exact free (collected.assigned_connected assigned
              ⟨Relation.ReflTransGen.head isEdge rest, reached⟩)
    exact way other connected.2 connected.1

theorem Collected.add {collection : Collection α} (collected : graph.Collected collection)
    (closed : graph.Closed) {vertex : α} {earlier : List α} (inside : vertex ∈ graph.vertices)
    (ordered : Ordered graph.next (vertex :: earlier))
    (covered : ∀ other ∈ graph.vertices, other ∉ collection.assigned → other ∈ vertex :: earlier) :
    graph.Collected (collection.add graph.reverse vertex) ∧
      vertex ∈ (collection.add graph.reverse vertex).assigned ∧
      ∀ other ∈ collection.assigned, other ∈ (collection.add graph.reverse vertex).assigned := by
  unfold Collection.add
  split
  · rename_i assigned
    exact ⟨collected, Std.TreeSet.contains_iff_mem.mp assigned, fun _ member => member⟩
  · rename_i free
    rw [Std.TreeSet.contains_iff_mem] at free
    have room : ({ seen := collection.assigned } : Walk α).unseen graph.reverse.vertices ≤
        graph.reverse.vertices.length := List.countP_le_length
    have backInside : ∀ vertex ∈ graph.reverse.vertices, ∀ target ∈ graph.reverse.next vertex,
        target ∈ graph.reverse.vertices := fun _ _ _ member => (List.mem_filter.mp member).1
    obtain ⟨found, visited⟩ := Walk.visit_spec backInside inside room
    have members := collected.found_iff closed inside free ordered covered visited
    obtain ⟨order, perm, discovered⟩ := visited.discovered
    rw [List.append_nil] at discovered
    have listed : ∀ other, other ∈ order ↔ graph.Connected vertex other :=
      fun other => perm.mem_iff.trans (members other)
    simp only [discovered]
    refine ⟨⟨fun other => ?_, ?_, ?_, ?_⟩, visited.starts vertex (by simp),
      fun other member => (visited.seen other).mpr (.inl member)⟩
    · rw [visited.seen, collected.assigned]
      simp [perm.mem_iff, or_comm]
    · rintro component isComponent other member
      rcases List.mem_cons.mp isComponent with rfl | earlier
      · exact closed.reaches inside ((listed other).mp member).1
      · exact collected.inside component earlier other member
    · rintro component isComponent other member third
      rcases List.mem_cons.mp isComponent with rfl | earlier
      · rw [listed]
        have connected := (listed other).mp member
        exact ⟨connected.symm.trans, connected.trans⟩
      · exact collected.whole component earlier other member third
    · rw [List.flatten_cons, List.nodup_append]
      refine ⟨perm.nodup_iff.mpr visited.unique, collected.unique, ?_⟩
      rintro other inOrder same inEarlier rfl
      obtain ⟨component, isComponent, member⟩ := List.mem_flatten.mp inEarlier
      exact visited.fresh other (perm.mem_iff.mp inOrder)
        ((collected.assigned other).mpr ⟨component, isComponent, member⟩)

theorem Collected.foldl_add {collection : Collection α} (collected : graph.Collected collection)
    (closed : graph.Closed) {order : List α} (inside : ∀ vertex ∈ order, vertex ∈ graph.vertices)
    (ordered : Ordered graph.next order)
    (covered : ∀ other ∈ graph.vertices, other ∉ collection.assigned → other ∈ order) :
    graph.Collected (order.foldl (Collection.add graph.reverse) collection) ∧
      ∀ vertex ∈ graph.vertices,
        vertex ∈ (order.foldl (Collection.add graph.reverse) collection).assigned := by
  induction order generalizing collection with
  | nil =>
      refine ⟨collected, fun vertex member => ?_⟩
      by_contra free
      exact List.not_mem_nil (covered vertex member free)
  | cons vertex earlier ih =>
      obtain ⟨added, assigned, kept⟩ :=
        collected.add closed (inside vertex List.mem_cons_self) ordered covered
      refine ih added (fun other member => inside other (List.mem_cons_of_mem vertex member))
        ordered.2 fun other member free => ?_
      rcases List.mem_cons.mp (covered other member fun old => free (kept other old)) with
        rfl | later
      · exact absurd assigned free
      · exact later

theorem finished_spec (closed : graph.Closed) :
    graph.walk.finished.Nodup ∧ Ordered graph.next graph.walk.finished ∧
      ∀ vertex, vertex ∈ graph.walk.finished ↔ vertex ∈ graph.vertices := by
  obtain ⟨order, visited, members⟩ := walk_spec closed
  have finished : graph.walk.finished = order := by
    rw [visited.finished]
    exact List.append_nil order
  have ordered := visited.ordered (fun _ none => (List.not_mem_nil none).elim) trivial
  exact ⟨finished ▸ visited.unique, ordered, finished ▸ members⟩

/-- The components are the classes of connected vertices. -/
theorem components_spec (closed : graph.Closed) :
    ∃ collection : Collection α, graph.Collected collection ∧
      collection.components = graph.components ∧
      ∀ vertex ∈ graph.vertices, vertex ∈ collection.assigned := by
  obtain ⟨_, ordered, members⟩ := finished_spec closed
  obtain ⟨collected, covers⟩ := Collected.empty.foldl_add closed
    (fun vertex member => (members vertex).mp member) ordered
    fun other member _ => (members other).mpr member
  exact ⟨_, collected, rfl, covers⟩

/-- A component is cyclic if one of its members is on a cycle, and then all of
them are. -/
theorem isCyclic_iff {component : List α} (unique : component.Nodup) {vertex : α}
    (member : vertex ∈ component)
    (whole : ∀ other, other ∈ component ↔ graph.Connected vertex other) :
    graph.isCyclic component = true ↔ graph.OnCycle vertex := by
  have back : ∀ other, other ∈ component → other ≠ vertex → graph.OnCycle vertex := by
    intro other isMember different
    obtain ⟨forth, back⟩ := (whole other).mp isMember
    obtain ⟨middle, edge, rest⟩ := (Relation.ReflTransGen.cases_head forth).resolve_left
      different.symm
    exact Relation.TransGen.trans_left (Relation.TransGen.head' edge rest) back
  match component, unique with
  | [single], _ =>
      rw [List.mem_singleton] at member
      subst member
      unfold isCyclic
      rw [decide_eq_true_eq]
      constructor
      · exact fun edge => .single edge
      · intro cycle
        obtain ⟨target, edge, rest⟩ := Relation.TransGen.head'_iff.mp cycle
        have same := (whole target).mpr ⟨.single edge, rest⟩
        rwa [List.mem_singleton.mp same] at edge
  | first :: second :: others, unique =>
      refine ⟨fun _ => ?_, fun _ => rfl⟩
      by_cases same : first = vertex
      · refine back second (by simp) ?_
        rintro rfl
        simp [same] at unique
      · exact back first (by simp) same

/-- Where every member of a list has an edge to a member, one is on a cycle. -/
theorem exists_onCycle {members : List α} (nonempty : members ≠ [])
    (onward : ∀ vertex ∈ members, ∃ target ∈ graph.next vertex, target ∈ members) :
    ∃ vertex ∈ members, graph.OnCycle vertex := by
  by_contra acyclic
  push Not at acyclic
  let before : members.toFinset → members.toFinset → Prop := fun target source =>
    Relation.TransGen (fun source target => target ∈ graph.next source) source.1 target.1
  have : IsTrans _ before := ⟨fun _ _ _ later earlier => earlier.trans later⟩
  have : Std.Irrefl before :=
    ⟨fun vertex cycle => acyclic vertex.1 (List.mem_toFinset.mp vertex.2) cycle⟩
  obtain ⟨first, member⟩ := List.exists_mem_of_ne_nil members nonempty
  obtain ⟨last, _, least⟩ := (Finite.wellFounded_of_trans_of_irrefl before).has_min Set.univ
    ⟨⟨first, List.mem_toFinset.mpr member⟩, trivial⟩
  obtain ⟨target, edge, inside⟩ := onward last.1 (List.mem_toFinset.mp last.2)
  exact least ⟨target, List.mem_toFinset.mpr inside⟩ trivial (.single edge)

theorem cyclicComponents_of_empty (nothing : graph.vertices = []) :
    graph.cyclicComponents = [] := by
  obtain ⟨vertices, next⟩ := graph
  cases nothing
  rfl

section Cyclic

variable (closed : graph.Closed)
include closed

theorem mem_discovered {vertex : α} :
    vertex ∈ graph.walk.discovered.reverse ↔ vertex ∈ graph.vertices := by
  obtain ⟨order, visited, members⟩ := walk_spec closed
  obtain ⟨discovered, perm, same⟩ := visited.discovered
  rw [List.mem_reverse, same, List.append_nil, perm.mem_iff, members]

theorem nodup_discovered : graph.walk.discovered.reverse.Nodup := by
  obtain ⟨order, visited, _⟩ := walk_spec closed
  obtain ⟨discovered, perm, same⟩ := visited.discovered
  rw [List.nodup_reverse, same, List.append_nil, perm.nodup_iff]
  exact visited.unique

/-- A member of a cyclic component is on a cycle, and the component is all that
it is connected with. -/
theorem mem_cyclicComponents {component : List α} (listed : component ∈ graph.cyclicComponents)
    {vertex : α} (member : vertex ∈ component) :
    vertex ∈ graph.vertices ∧ graph.OnCycle vertex ∧
      ∀ other, other ∈ component ↔ graph.Connected vertex other := by
  obtain ⟨collection, collected, same, _⟩ := components_spec closed
  obtain ⟨base, isBase, rfl⟩ := List.mem_map.mp listed
  obtain ⟨isComponent, cyclic⟩ := List.mem_filter.mp isBase
  rw [← same] at isComponent
  have members : ∀ other,
      other ∈ graph.walk.discovered.reverse.filter (· ∈ base) ↔ other ∈ base := by
    intro other
    rw [List.mem_filter, mem_discovered closed, decide_eq_true_eq]
    exact and_iff_right_of_imp (collected.inside base isComponent other)
  rw [members] at member
  have whole := collected.whole base isComponent vertex member
  have unique := (List.nodup_flatten.mp collected.unique).1 base isComponent
  exact ⟨collected.inside base isComponent vertex member,
    (isCyclic_iff unique member whole).mp cyclic, fun other => (members other).trans (whole other)⟩

/-- Whatever is on a cycle is in a cyclic component. -/
theorem exists_cyclicComponent {vertex : α} (inside : vertex ∈ graph.vertices)
    (cycle : graph.OnCycle vertex) : ∃ component ∈ graph.cyclicComponents, vertex ∈ component := by
  obtain ⟨collection, collected, same, covers⟩ := components_spec closed
  obtain ⟨base, isComponent, member⟩ := (collected.assigned vertex).mp (covers vertex inside)
  have whole := collected.whole base isComponent vertex member
  have unique := (List.nodup_flatten.mp collected.unique).1 base isComponent
  rw [same] at isComponent
  refine ⟨_, List.mem_map_of_mem (List.mem_filter.mpr
    ⟨isComponent, (isCyclic_iff unique member whole).mpr cycle⟩), ?_⟩
  exact List.mem_filter.mpr ⟨(mem_discovered closed).mpr inside, decide_eq_true member⟩

theorem nodup_cyclicComponents : graph.cyclicComponents.flatten.Nodup := by
  obtain ⟨collection, collected, same, _⟩ := components_spec closed
  have apart := (List.nodup_flatten.mp collected.unique).2
  rw [same] at apart
  rw [List.nodup_flatten]
  constructor
  · intro component listed
    obtain ⟨base, _, rfl⟩ := List.mem_map.mp listed
    exact (nodup_discovered closed).filter _
  · refine List.pairwise_map.mpr ((apart.filter _).imp fun disjoint vertex inFirst inSecond => ?_)
    exact disjoint (of_decide_eq_true (List.mem_filter.mp inFirst).2)
      (of_decide_eq_true (List.mem_filter.mp inSecond).2)

end Cyclic

section Congr

variable {other : Digraph α} (closed : graph.Closed) (closedOther : other.Closed)
  (next : graph.next = other.next)

include closed closedOther next in
/-- Which components are cyclic depends on the edges alone. -/
theorem exists_perm_cyclicComponent
    (inside : ∀ vertex, vertex ∈ graph.vertices → vertex ∈ other.vertices)
    {component : List α} (listed : component ∈ graph.cyclicComponents) {vertex : α}
    (member : vertex ∈ component) :
    ∃ members ∈ other.cyclicComponents, vertex ∈ members ∧ component.Perm members := by
  obtain ⟨isVertex, cycle, whole⟩ := mem_cyclicComponents closed listed member
  have cycleOther : other.OnCycle vertex := by
    unfold OnCycle
    rw [← next]
    exact cycle
  obtain ⟨members, listedOther, memberOther⟩ :=
    exists_cyclicComponent closedOther (inside vertex isVertex) cycleOther
  have wholeOther := (mem_cyclicComponents closedOther listedOther memberOther).2.2
  refine ⟨members, listedOther, memberOther, ?_⟩
  refine (List.perm_ext_iff_of_nodup ?_ ?_).mpr fun target => ?_
  · exact (List.nodup_flatten.mp (nodup_cyclicComponents closed)).1 component listed
  · exact (List.nodup_flatten.mp (nodup_cyclicComponents closedOther)).1 members listedOther
  · rw [whole, wholeOther]
    unfold Connected
    rw [next]

include next in
/-- A shortest cycle depends on the edges and on the members of the component. -/
theorem shortestCycle_congr {component members : List α} (perm : component.Perm members)
    (start : α) : graph.shortestCycle component start = other.shortestCycle members start := by
  have contains : (Std.TreeSet.ofList component).contains =
      (Std.TreeSet.ofList members).contains := by
    funext vertex
    rw [Std.TreeSet.contains_ofList, Std.TreeSet.contains_ofList]
    exact perm.contains_eq
  unfold shortestCycle
  simp only
  rw [next, contains, perm.length_eq]

end Congr

end MemoGraph.Digraph
