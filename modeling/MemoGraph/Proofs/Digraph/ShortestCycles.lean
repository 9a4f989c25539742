import MemoGraph.Proofs.Digraph.Circles
import MemoGraph.Proofs.Digraph.Components

namespace MemoGraph.Digraph

/-! The breadth-first search finds a shortest circle.

After each level, whatever is nearer to the start than the paths of the level
has been left in all directions without coming back to the start. So the first
edge that leads back closes a circle than which no other is shorter. The search
ends, as no path is longer than the component is large.
-/

variable {α : Type}

abbrev Edge (next : α → List α) (source target : α) : Prop := target ∈ next source

variable [Key α] {next : α → List α} {start vertex : α} {pending : List (List α)}
  {before middle after frontier : Frontier α}

/-- Where a path may go on to. -/
def targets (next : α → List α) (path : List α) : List α := (path.head?.map next).getD []

section Grown

/-- What prolonging paths as offered makes of a frontier. -/
structure Grown (offered : List α → α → Prop) (before after : Frontier α) : Prop where
  seen : ∀ vertex ∈ before.seen, vertex ∈ after.seen
  taken : ∀ path vertex, offered path vertex → vertex ∈ after.seen
  kept : ∀ path ∈ before.paths, path ∈ after.paths
  fresh : ∀ path ∈ after.paths, path ∈ before.paths ∨
    ∃ earlier vertex, path = vertex :: earlier ∧ offered earlier vertex ∧ vertex ∉ before.seen
  headed : ∀ vertex ∈ after.seen, vertex ∈ before.seen ∨ ∃ earlier, vertex :: earlier ∈ after.paths

theorem grown_prolong (path : List α) (frontier : Frontier α) (vertex : α) :
    Grown (fun earlier target => earlier = path ∧ target = vertex) frontier
      (frontier.prolong path vertex) := by
  unfold Frontier.prolong
  split
  · rename_i known
    have seen : vertex ∈ frontier.seen := Std.TreeSet.mem_iff_contains.mpr known
    constructor
    case taken =>
      rintro _ _ ⟨rfl, rfl⟩
      exact seen
    case fresh => exact fun _ listed => .inl listed
    case headed => exact fun _ member => .inl member
    all_goals exact fun _ member => member
  · rename_i unknown
    have unseen : vertex ∉ frontier.seen := fun seen =>
      unknown (Std.TreeSet.mem_iff_contains.mp seen)
    have inserted : ∀ other, other ∈ frontier.seen.insert vertex ↔
        other = vertex ∨ other ∈ frontier.seen := by
      intro other
      rw [Std.TreeSet.mem_insert, Std.LawfulEqCmp.compare_eq_iff_eq, eq_comm]
    constructor
    case seen => exact fun other member => (inserted other).mpr (.inr member)
    case taken =>
      rintro _ _ ⟨rfl, rfl⟩
      exact (inserted _).mpr (.inl rfl)
    case kept => exact fun _ listed => List.mem_cons_of_mem _ listed
    case fresh =>
      intro other listed
      rcases List.mem_cons.mp listed with rfl | old
      · exact .inr ⟨path, vertex, rfl, ⟨rfl, rfl⟩, unseen⟩
      · exact .inl old
    case headed =>
      intro other member
      rcases (inserted other).mp member with rfl | old
      · exact .inr ⟨path, List.mem_cons_self⟩
      · exact .inl old

theorem Grown.trans {first second offered : List α → α → Prop} (left : Grown first before middle)
    (right : Grown second middle after)
    (either : ∀ path vertex, offered path vertex ↔ first path vertex ∨ second path vertex) :
    Grown offered before after := by
  constructor
  case seen => exact fun vertex member => right.seen vertex (left.seen vertex member)
  case taken =>
    intro path vertex offer
    rcases (either path vertex).mp offer with early | late
    · exact right.seen vertex (left.taken path vertex early)
    · exact right.taken path vertex late
  case kept => exact fun path listed => right.kept path (left.kept path listed)
  case fresh =>
    intro path listed
    rcases right.fresh path listed with old | ⟨earlier, vertex, same, offer, unseen⟩
    · refine (left.fresh path old).imp_right ?_
      rintro ⟨earlier, vertex, same, offer, unseen⟩
      exact ⟨earlier, vertex, same, (either earlier vertex).mpr (.inl offer), unseen⟩
    · exact .inr ⟨earlier, vertex, same, (either earlier vertex).mpr (.inr offer),
        fun seen => unseen (left.seen vertex seen)⟩
  case headed =>
    intro vertex member
    rcases right.headed vertex member with early | late
    · refine (left.headed vertex early).imp_right ?_
      rintro ⟨earlier, listed⟩
      exact ⟨earlier, right.kept _ listed⟩
    · exact .inr late

theorem grown_foldl_prolong (path : List α) (offers : List α) (frontier : Frontier α) :
    Grown (fun earlier target => earlier = path ∧ target ∈ offers) frontier
      (offers.foldl (Frontier.prolong path) frontier) := by
  induction offers generalizing frontier with
  | nil =>
      exact ⟨fun _ => id, nofun, fun _ => id, fun _ listed => .inl listed,
        fun _ member => .inl member⟩
  | cons offer rest ih =>
      refine (grown_prolong path frontier offer).trans (ih _) fun earlier target => ?_
      rw [List.mem_cons, and_or_left]

/-- A level that no edge closes prolongs all its paths in all directions. -/
theorem grown_of_advance (advanced : advance next start pending before = .ok after) :
    Grown (fun path target => path ∈ pending ∧ target ∈ targets next path) before after ∧
      ∀ path ∈ pending, start ∉ targets next path := by
  induction pending generalizing before with
  | nil =>
      cases advanced
      exact ⟨⟨fun _ => id, nofun, fun _ => id, fun _ listed => .inl listed,
        fun _ member => .inl member⟩, nofun⟩
  | cons path rest ih =>
      rw [advance] at advanced
      split at advanced
      · cases advanced
      · rename_i leaves
        obtain ⟨grown, leave⟩ := ih advanced
        refine ⟨(grown_foldl_prolong path (targets next path) before).trans grown ?_, ?_⟩
        · intro earlier target
          rw [List.mem_cons, or_and_right]
          refine or_congr_left (and_congr_right ?_)
          rintro rfl
          rfl
        · intro other listed
          rcases List.mem_cons.mp listed with rfl | inRest
          · exact leaves
          · exact leave other inRest

theorem closes_of_advance {closed : List α}
    (advanced : advance next start pending before = .error closed) :
    closed ∈ pending ∧ start ∈ targets next closed := by
  induction pending generalizing before with
  | nil => cases advanced
  | cons path rest ih =>
      rw [advance] at advanced
      split at advanced
      · rename_i closes
        cases advanced
        exact ⟨List.mem_cons_self, closes⟩
      · exact (ih advanced).imp_left (List.mem_cons_of_mem path)

end Grown

section Level

/-- The vertex has no edge to the start, and all its edges were followed. -/
def Expanded (next : α → List α) (start : α) (seen : Std.TreeSet α) (vertex : α) : Prop :=
  start ∉ next vertex ∧ ∀ target ∈ next vertex, target ∈ seen

/-- How the search stands when it has come that many edges far. -/
structure Level (next : α → List α) (start : α) (distance : Nat) (frontier : Frontier α) :
    Prop where
  trail : ∀ path ∈ frontier.paths, Trail (Edge next) start path
  unique : ∀ path ∈ frontier.paths, path.Nodup
  length : ∀ path ∈ frontier.paths, path.length = distance + 1
  known : ∀ path ∈ frontier.paths, ∀ vertex ∈ path, vertex = start ∨ vertex ∈ frontier.seen
  headed : ∀ vertex, vertex = start ∨ vertex ∈ frontier.seen →
    Expanded next start frontier.seen vertex ∨ ∃ earlier, vertex :: earlier ∈ frontier.paths
  nearer : ∀ vertex earlier, Trail (Edge next) start (vertex :: earlier) →
    earlier.length < distance → Expanded next start frontier.seen vertex

theorem Level.first : Level next start 0 { paths := [[start]] } where
  trail path listed := by
    rw [List.mem_singleton.mp listed]
    exact .start
  unique path listed := by
    rw [List.mem_singleton.mp listed]
    exact List.nodup_singleton start
  length path listed := by
    rw [List.mem_singleton.mp listed]
    rfl
  known path listed vertex member := by
    rw [List.mem_singleton.mp listed] at member
    exact .inl (List.mem_singleton.mp member)
  headed vertex known := by
    refine .inr ⟨[], ?_⟩
    rw [known.resolve_right Std.TreeSet.not_mem_emptyc]
    exact List.mem_singleton.mpr rfl
  nearer vertex earlier _ shorter := absurd shorter (Nat.not_lt_zero _)

variable {distance : Nat} {members : List α}

theorem Level.advance (level : Level next start distance frontier)
    (advanced : advance next start frontier.paths.reverse { frontier with paths := [] } =
      .ok after) : Level next start (distance + 1) after := by
  obtain ⟨grown, leaves⟩ := grown_of_advance advanced
  simp only [List.mem_reverse] at grown leaves
  have expanded : ∀ vertex, vertex = start ∨ vertex ∈ frontier.seen →
      Expanded next start after.seen vertex := by
    intro vertex known
    rcases level.headed vertex known with ⟨leaves, followed⟩ | ⟨earlier, listed⟩
    · exact ⟨leaves, fun target edge => grown.seen target (followed target edge)⟩
    · exact ⟨leaves _ listed, fun target edge => grown.taken _ target ⟨listed, edge⟩⟩
  have prolonged : ∀ path ∈ after.paths, ∃ earlier vertex target, path = target :: vertex :: earlier ∧
      vertex :: earlier ∈ frontier.paths ∧ target ∈ next vertex ∧ target ∉ frontier.seen := by
    intro path listed
    obtain ⟨earlier, target, rfl, ⟨listed, edge⟩, unseen⟩ :=
      (grown.fresh path listed).resolve_left List.not_mem_nil
    cases earlier with
    | nil => cases edge
    | cons vertex earlier => exact ⟨earlier, vertex, target, rfl, listed, edge, unseen⟩
  constructor
  case trail =>
    intro path listed
    obtain ⟨earlier, vertex, target, rfl, old, edge, _⟩ := prolonged path listed
    exact (level.trail _ old).onward edge
  case unique =>
    intro path listed
    obtain ⟨earlier, vertex, target, rfl, old, edge, unseen⟩ := prolonged path listed
    refine List.nodup_cons.mpr ⟨fun repeated => ?_, level.unique _ old⟩
    rcases level.known _ old target repeated with rfl | seen
    · exact leaves _ old edge
    · exact unseen seen
  case length =>
    intro path listed
    obtain ⟨earlier, vertex, target, rfl, old, _⟩ := prolonged path listed
    rw [List.length_cons, level.length _ old]
  case known =>
    intro path listed other member
    obtain ⟨earlier, vertex, target, rfl, old, edge, _⟩ := prolonged path listed
    rcases List.mem_cons.mp member with rfl | inEarlier
    · exact .inr (grown.taken _ other ⟨old, edge⟩)
    · exact (level.known _ old other inEarlier).imp_right (grown.seen other)
  case headed =>
    rintro vertex (rfl | seen)
    · exact .inl (expanded vertex (.inl rfl))
    · exact (grown.headed vertex seen).imp_left fun old => expanded vertex (.inr old)
  case nearer =>
    intro vertex earlier trail near
    cases trail with
    | start => exact expanded start (.inl rfl)
    | onward trail edge =>
        have nearer := level.nearer _ _ trail (Nat.lt_of_succ_lt_succ near)
        exact expanded vertex (.inr (nearer.2 vertex edge))

/-- The first path that an edge closes makes a shortest circle. -/
theorem Level.shortest (level : Level next start distance frontier) {earlier : List α}
    (listed : vertex :: earlier ∈ frontier.paths) (back : start ∈ next vertex) :
    ShortestCircle (Edge next) start (vertex :: earlier).reverse := by
  obtain ⟨rest, reversed, circle⟩ := (level.trail _ listed).exists_circle back
  refine ⟨reversed ▸ circle, reversed ▸ rfl, List.nodup_reverse.mpr (level.unique _ listed), ?_⟩
  intro others other first
  obtain ⟨more, rfl⟩ := List.head?_eq_some_iff.mp first
  obtain ⟨last, path, reversed, trail, back⟩ := other.exists_trail
  have come := level.length _ listed
  have length := congrArg List.length reversed
  simp only [List.length_reverse, List.length_cons] at come length ⊢
  by_contra shorter
  have nearer := level.nearer last path trail (by omega)
  exact nearer.1 back

/-- When nothing is left to follow, nothing leads back to the start. -/
theorem Level.not_circle (level : Level next start distance frontier)
    (nothing : frontier.paths = []) {rest : List α} : ¬ Circle (Edge next) (start :: rest) := by
  intro circle
  have expanded : ∀ vertex, vertex = start ∨ vertex ∈ frontier.seen →
      Expanded next start frontier.seen vertex := by
    intro vertex known
    refine (level.headed vertex known).resolve_right ?_
    rw [nothing]
    exact fun ⟨_, listed⟩ => List.not_mem_nil listed
  obtain ⟨last, earlier, _, trail, back⟩ := circle.exists_trail
  have known : ∀ other ∈ last :: earlier, other = start ∨ other ∈ frontier.seen :=
    trail.forall_mem (.inl rfl) fun source target known edge =>
      .inr ((expanded source known).2 target edge)
  exact (expanded last (known last List.mem_cons_self)).1 back

/-- A search that has come so far finds a shortest circle if there is any. Paths
stay among the members, so there is no more need for levels than there are
members. -/
theorem search_spec (inside : start ∈ members)
    (closed : ∀ vertex, ∀ target ∈ next vertex, target ∈ members) {rest : List α}
    (circle : Circle (Edge next) (start :: rest)) {levels : Nat}
    (level : Level next start distance frontier) (nonempty : frontier.paths ≠ [])
    (room : members.length ≤ distance + levels) :
    ∃ path, search next start levels frontier = some path ∧
      ShortestCircle (Edge next) start path.reverse := by
  induction levels generalizing distance frontier with
  | zero =>
      obtain ⟨path, listed⟩ := List.exists_mem_of_ne_nil _ nonempty
      have stays := (level.trail path listed).forall_mem inside fun source target _ => closed source target
      have fits := ((level.unique path listed).subperm stays).length_le
      rw [level.length path listed] at fits
      omega
  | succ levels ih =>
      rw [search]
      cases advanced : advance next start frontier.paths.reverse { frontier with paths := [] } with
      | error path =>
          obtain ⟨listed, closes⟩ := closes_of_advance advanced
          rw [List.mem_reverse] at listed
          cases path with
          | nil => cases closes
          | cons vertex earlier => exact ⟨_, rfl, level.shortest listed closes⟩
      | ok after =>
          have onward := level.advance advanced
          cases paths : after.paths with
          | nil => exact absurd circle (onward.not_circle paths)
          | cons path others =>
              simp only [paths, List.isEmpty_cons, if_neg Bool.false_ne_true]
              exact ih onward (by simp [paths]) (by omega)

end Level

variable {graph : Digraph α} {component : List α}

/-- The edges that stay among the given vertices. -/
def inside (graph : Digraph α) (component : List α) (vertex : α) : List α :=
  (graph.next vertex).filter (Std.TreeSet.ofList component).contains

theorem inside_eq (graph : Digraph α) (component : List α) (vertex : α) :
    graph.inside component vertex = (graph.next vertex).filter (· ∈ component) := by
  unfold inside
  refine List.filter_congr fun target _ => ?_
  rw [Std.TreeSet.contains_ofList, List.contains_eq_mem]

omit [Key α] in
/-- A circle through a vertex stays among those connected with it. -/
theorem mem_of_circle (members : ∀ vertex, vertex ∈ component ↔ graph.Connected start vertex)
    {rest : List α} (circle : Circle (Edge graph.next) (start :: rest)) :
    ∀ vertex ∈ start :: rest, vertex ∈ component :=
  fun vertex isPassed => (members vertex).mpr (circle.connected isPassed)

/-- Among the vertices connected with one that is on a cycle, the search for it
finds a shortest circle. -/
theorem exists_search (members : ∀ vertex, vertex ∈ component ↔ graph.Connected start vertex)
    (cycle : graph.OnCycle start) :
    ∃ path, search (graph.inside component) start component.length { paths := [[start]] } = some path ∧
      ShortestCircle (Edge graph.next) start path.reverse ∧ ∀ vertex ∈ path, vertex ∈ component := by
  have edge_iff : ∀ source target, Edge (graph.inside component) source target ↔
      Edge graph.next source target ∧ target ∈ component := by
    intro source target
    show target ∈ graph.inside component source ↔ _
    rw [inside_eq, List.mem_filter, decide_eq_true_eq]
  have narrow : ∀ {rest : List α}, Circle (Edge graph.next) (start :: rest) →
      Circle (Edge (graph.inside component)) (start :: rest) := fun circle =>
    circle.imp_of_mem fun source _ target isPassed edge =>
      (edge_iff source target).mpr ⟨edge, mem_of_circle members circle target isPassed⟩
  obtain ⟨rest, circle⟩ := exists_circle cycle
  obtain ⟨path, found, shortest⟩ := search_spec ((members start).mpr ⟨.refl, .refl⟩)
    (fun source target edge => ((edge_iff source target).mp edge).2) (narrow circle) .first
    (List.cons_ne_nil _ _) (by rw [Nat.zero_add])
  have wide : ShortestCircle (Edge graph.next) start path.reverse := by
    refine { shortest with circle := ?circle, shortest := ?shortest }
    case circle =>
      exact shortest.circle.imp_of_mem fun source _ target _ edge =>
        ((edge_iff source target).mp edge).1
    case shortest =>
      intro others other first
      obtain ⟨more, rfl⟩ := List.head?_eq_some_iff.mp first
      exact shortest.shortest _ (narrow other) first
  refine ⟨path, found, wide, fun vertex member => ?_⟩
  obtain ⟨others, reversed⟩ := List.head?_eq_some_iff.mp wide.first
  have closing := wide.circle
  rw [reversed] at closing
  exact mem_of_circle members closing vertex (reversed ▸ List.mem_reverse.mpr member)

theorem shortestCycle_eq {path : List α}
    (found : search (graph.inside component) start component.length { paths := [[start]] } =
      some path) : graph.shortestCycle component start = path.reverse := by
  show ((search (graph.inside component) start component.length { paths := [[start]] }).map
    List.reverse).getD [start] = path.reverse
  rw [found]
  rfl

/-- What the search finds for a member of a component is a shortest circle, and
stays inside the component. -/
theorem shortestCycle_spec (closed : graph.Closed) (listed : component ∈ graph.cyclicComponents)
    (member : start ∈ component) :
    ShortestCircle (Edge graph.next) start (graph.shortestCycle component start) ∧
      ∀ vertex ∈ graph.shortestCycle component start, vertex ∈ component := by
  obtain ⟨_, cycle, members⟩ := mem_cyclicComponents closed listed member
  obtain ⟨path, found, shortest, stays⟩ := exists_search members cycle
  rw [shortestCycle_eq found]
  exact ⟨shortest, fun vertex isPassed => stays vertex (List.mem_reverse.mp isPassed)⟩

end MemoGraph.Digraph
