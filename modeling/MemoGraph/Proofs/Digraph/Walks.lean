import Mathlib.Logic.Relation
import MemoGraph.Digraph.Walk
import MemoGraph.Proofs.Counting

namespace MemoGraph.Walk

/-! What a depth-first walk discovers, and in which order it finishes.

A walk discovers exactly what its starts lead to over vertices that were not
seen before. For the order, only one fact is needed: what leads to a vertex
over vertices finished before it was discovered from it.
-/

variable {α : Type}

/-- There is a path of edges. -/
def Reaches (next : α → List α) : α → α → Prop :=
  Relation.ReflTransGen fun source target => target ∈ next source

/-- There is a path of edges that enters no vertex of the given kind. -/
def Leads (next : α → List α) (avoided : α → Prop) : α → α → Prop :=
  Relation.ReflTransGen fun source target => target ∈ next source ∧ ¬ avoided target

theorem Leads.reaches {next : α → List α} {avoided : α → Prop} {source target : α}
    (leads : Leads next avoided source target) : Reaches next source target :=
  Relation.ReflTransGen.mono (fun _ _ edge => edge.1) _ _ leads

theorem Leads.mono {next : α → List α} {avoided fewer : α → Prop} {source target : α}
    (leads : Leads next avoided source target) (less : ∀ vertex, fewer vertex → avoided vertex) :
    Leads next fewer source target :=
  Relation.ReflTransGen.mono
    (fun _ target edge => ⟨edge.1, fun excluded => edge.2 (less target excluded)⟩) _ _ leads

/-- A vertex of the list reaches whatever leads to it over the vertices after it. -/
def Ordered (next : α → List α) : List α → Prop
  | [] => True
  | vertex :: earlier =>
      (∀ source, Relation.ReflTransGen
        (fun target source => target ∈ next source ∧ source ∈ vertex :: earlier) vertex source →
          Reaches next vertex source) ∧
      Ordered next earlier

variable [Key α] {next : α → List α} {walk before middle after : Walk α}

/-- Every finished vertex is seen, and so is what its edges lead to. -/
def Finished (next : α → List α) (walk : Walk α) : Prop :=
  ∀ vertex ∈ walk.finished, vertex ∈ walk.seen ∧ ∀ target ∈ next vertex, target ∈ walk.seen

/-- What visiting the starts adds to a walk: the vertices `found`, the latest
finished first. -/
structure Visited (next : α → List α) (before : Walk α) (starts : List α) (after : Walk α)
    (found : List α) : Prop where
  finished : after.finished = found ++ before.finished
  discovered : ∃ order, order.Perm found ∧ after.discovered = order ++ before.discovered
  seen : ∀ vertex, vertex ∈ after.seen ↔ vertex ∈ before.seen ∨ vertex ∈ found
  fresh : ∀ vertex ∈ found, vertex ∉ before.seen
  unique : found.Nodup
  reached : ∀ vertex ∈ found, ∃ start ∈ starts,
    start ∉ before.seen ∧ Leads next (· ∈ before.seen) start vertex
  closed : ∀ vertex ∈ found, ∀ target ∈ next vertex, target ∈ after.seen
  starts : ∀ start ∈ starts, start ∈ after.seen
  ordered : Finished next before → Ordered next before.finished → Ordered next after.finished

theorem Visited.refl (walk : Walk α) : Visited next walk [] walk [] where
  finished := rfl
  discovered := ⟨[], .nil, rfl⟩
  seen vertex := by simp
  fresh := by simp
  unique := List.nodup_nil
  reached := by simp
  closed := by simp
  starts := by simp
  ordered _ ordered := ordered

theorem Visited.of_seen {vertex : α} (seen : vertex ∈ walk.seen) :
    Visited next walk [vertex] walk [] :=
  { Visited.refl walk with
    reached := by simp
    starts := fun start member => List.mem_singleton.mp member ▸ seen }

theorem Visited.finished_closed {starts found : List α}
    (visited : Visited next before starts after found) (finished : Finished next before) :
    Finished next after := by
  intro vertex member
  rw [visited.finished, List.mem_append] at member
  rcases member with isNew | old
  · exact ⟨(visited.seen vertex).mpr (.inr isNew), visited.closed vertex isNew⟩
  · obtain ⟨seen, closed⟩ := finished vertex old
    exact ⟨(visited.seen vertex).mpr (.inl seen),
      fun target edge => (visited.seen target).mpr (.inl (closed target edge))⟩

theorem Visited.append {starts more found others : List α}
    (left : Visited next before starts middle found)
    (right : Visited next middle more after others) :
    Visited next before (starts ++ more) after (others ++ found) := by
  have grown : ∀ vertex, vertex ∈ before.seen → vertex ∈ middle.seen :=
    fun vertex seen => (left.seen vertex).mpr (.inl seen)
  have kept : ∀ vertex, vertex ∈ middle.seen → vertex ∈ after.seen :=
    fun vertex seen => (right.seen vertex).mpr (.inl seen)
  constructor
  case finished => rw [right.finished, left.finished, List.append_assoc]
  case discovered =>
    obtain ⟨firstOrder, firstPerm, first⟩ := left.discovered
    obtain ⟨secondOrder, secondPerm, second⟩ := right.discovered
    exact ⟨secondOrder ++ firstOrder, secondPerm.append firstPerm,
      by rw [second, first, List.append_assoc]⟩
  case seen =>
    intro vertex
    rw [right.seen, left.seen, List.mem_append, or_assoc, or_comm (a := vertex ∈ others)]
  case fresh =>
    intro vertex member
    rcases List.mem_append.mp member with inOthers | inFound
    · exact fun seen => right.fresh vertex inOthers (grown vertex seen)
    · exact left.fresh vertex inFound
  case unique =>
    refine List.nodup_append.mpr ⟨right.unique, left.unique, ?_⟩
    rintro later inOthers earlier inFound rfl
    exact right.fresh later inOthers ((left.seen later).mpr (.inr inFound))
  case reached =>
    intro vertex member
    rcases List.mem_append.mp member with inOthers | inFound
    · obtain ⟨start, isStart, unseen, leads⟩ := right.reached vertex inOthers
      exact ⟨start, List.mem_append_right _ isStart, fun seen => unseen (grown start seen),
        leads.mono grown⟩
    · obtain ⟨start, isStart, unseen, leads⟩ := left.reached vertex inFound
      exact ⟨start, List.mem_append_left _ isStart, unseen, leads⟩
  case closed =>
    intro vertex member target edge
    rcases List.mem_append.mp member with inOthers | inFound
    · exact right.closed vertex inOthers target edge
    · exact kept target (left.closed vertex inFound target edge)
  case starts =>
    intro start member
    rcases List.mem_append.mp member with isFirst | isSecond
    · exact kept start (left.starts start isFirst)
    · exact right.starts start isSecond
  case ordered =>
    exact fun finished ordered =>
      right.ordered (left.finished_closed finished) (left.ordered finished ordered)

theorem Visited.complete {starts found : List α}
    (visited : Visited next before starts after found) {start vertex : α} (isFound : start ∈ found)
    (leads : Leads next (· ∈ before.seen) start vertex) : vertex ∈ found := by
  induction leads with
  | refl => exact isFound
  | tail _ edge ih =>
      have seen := visited.closed _ ih _ edge.1
      exact ((visited.seen _).mp seen).resolve_left edge.2

theorem mem_discover {walk : Walk α} {vertex other : α} :
    other ∈ (walk.discover vertex).seen ↔ other = vertex ∨ other ∈ walk.seen := by
  show other ∈ walk.seen.insert vertex ↔ _
  rw [Std.TreeSet.mem_insert, Std.LawfulEqCmp.compare_eq_iff_eq, eq_comm]

/-- A vertex is visited once all that its edges lead to is. -/
theorem Visited.of_successors {vertex : α} {found : List α} (unseen : vertex ∉ before.seen)
    (visited : Visited next (before.discover vertex) (next vertex) middle found) :
    Visited next before [vertex] (middle.finish vertex) (vertex :: found) := by
  have kept : ∀ other, other ∈ middle.seen ↔
      other ∈ before.seen ∨ other = vertex ∨ other ∈ found := by
    intro other
    rw [visited.seen, mem_discover]
    tauto
  have fresh : ∀ other ∈ found, other ≠ vertex ∧ other ∉ before.seen := by
    intro other member
    exact not_or.mp (mem_discover.not.mp (visited.fresh other member))
  have leads : ∀ other ∈ found, Leads next (· ∈ before.seen) vertex other := by
    intro other member
    obtain ⟨start, isStart, startUnseen, path⟩ := visited.reached other member
    have outside := (not_or.mp (mem_discover.not.mp startUnseen)).2
    exact Relation.ReflTransGen.head ⟨isStart, outside⟩
      (path.mono fun _ seen => mem_discover.mpr (.inr seen))
  constructor
  case finished => exact congrArg (vertex :: ·) visited.finished
  case discovered =>
    obtain ⟨order, perm, discovered⟩ := visited.discovered
    refine ⟨order ++ [vertex], (List.perm_append_singleton vertex order).trans (perm.cons vertex),
      ?_⟩
    show middle.discovered = _
    rw [discovered, List.append_assoc]
    rfl
  case seen =>
    intro other
    show other ∈ middle.seen ↔ _
    rw [kept, List.mem_cons]
  case fresh =>
    rintro other (isVertex | member)
    · exact unseen
    · exact (fresh other ‹_›).2
  case unique =>
    exact List.nodup_cons.mpr ⟨fun member => (fresh vertex member).1 rfl, visited.unique⟩
  case reached =>
    intro other member
    refine ⟨vertex, List.mem_singleton_self vertex, unseen, ?_⟩
    rcases List.mem_cons.mp member with rfl | inFound
    · exact .refl
    · exact leads other inFound
  case closed =>
    intro other member target edge
    show target ∈ middle.seen
    rcases List.mem_cons.mp member with rfl | inFound
    · exact visited.starts target edge
    · exact visited.closed other inFound target edge
  case starts =>
    intro start member
    rw [List.mem_singleton.mp member]
    exact (kept vertex).mpr (.inr (.inl rfl))
  case ordered =>
    intro finished ordered
    have opened : Finished next (before.discover vertex) := fun other member =>
      ⟨mem_discover.mpr (.inr (finished other member).1),
        fun target edge => mem_discover.mpr (.inr ((finished other member).2 target edge))⟩
    refine ⟨fun source path => ?_, visited.ordered opened ordered⟩
    have inside : source ∈ vertex :: found := by
      induction path with
      | refl => exact List.mem_cons_self
      | tail _ edge ih =>
          rename_i target source _
          obtain ⟨isEdge, isFinished⟩ := edge
          rw [visited.finished] at isFinished
          rcases List.mem_cons.mp isFinished with rfl | rest
          · exact List.mem_cons_self
          · rcases List.mem_append.mp rest with inFound | old
            · exact List.mem_cons_of_mem vertex inFound
            · have seen := (finished source old).2 target isEdge
              rcases List.mem_cons.mp ih with rfl | inFound
              · exact absurd seen unseen
              · exact absurd seen (fresh target inFound).2
    rcases List.mem_cons.mp inside with rfl | inFound
    · exact .refl
    · exact (leads source inFound).reaches

section Bound

variable {vertices : List α} {bound : Nat}

def unseen (walk : Walk α) (vertices : List α) : Nat :=
  vertices.countP fun vertex => decide (vertex ∉ walk.seen)

theorem Visited.unseen_le {starts found : List α}
    (visited : Visited next before starts after found) :
    after.unseen vertices ≤ before.unseen vertices := by
  refine List.countP_mono_left fun vertex _ unseen => ?_
  simp only [decide_eq_true_eq] at unseen ⊢
  exact fun seen => unseen ((visited.seen vertex).mpr (.inl seen))

theorem unseen_discover {vertex : α} (member : vertex ∈ vertices) (unseen : vertex ∉ walk.seen) :
    (walk.discover vertex).unseen vertices < walk.unseen vertices := by
  refine countP_lt_countP (fun other _ stillUnseen => ?_) member (decide_eq_true unseen) ?_
  · exact decide_eq_true fun seen => of_decide_eq_true stillUnseen (mem_discover.mpr (.inr seen))
  · exact decide_eq_false fun stillUnseen => stillUnseen (mem_discover.mpr (.inl rfl))

theorem foldl_visit_spec (starts : List α)
    (each : ∀ walk : Walk α, ∀ vertex ∈ vertices, walk.unseen vertices ≤ bound →
      ∃ found, Visited next walk [vertex] (visit next bound walk vertex) found)
    (inside : ∀ start ∈ starts, start ∈ vertices) (room : walk.unseen vertices ≤ bound) :
    ∃ found, Visited next walk starts (starts.foldl (visit next bound) walk) found := by
  induction starts generalizing walk with
  | nil => exact ⟨[], .refl walk⟩
  | cons start rest ih =>
      obtain ⟨first, visited⟩ := each walk start (inside start List.mem_cons_self) room
      obtain ⟨others, later⟩ :=
        ih (fun other member => inside other (List.mem_cons_of_mem start member))
          (Nat.le_trans visited.unseen_le room)
      exact ⟨others ++ first, visited.append later⟩

/-- A bound on the vertices that are not seen is bound enough. -/
theorem visit_spec (closed : ∀ vertex ∈ vertices, ∀ target ∈ next vertex, target ∈ vertices)
    {vertex : α} (inside : vertex ∈ vertices) (room : walk.unseen vertices ≤ bound) :
    ∃ found, Visited next walk [vertex] (visit next bound walk vertex) found := by
  induction bound generalizing walk vertex with
  | zero =>
      have seen : vertex ∈ walk.seen := by
        have none : walk.unseen vertices = 0 := Nat.le_zero.mp room
        simpa using List.countP_eq_zero.mp none vertex inside
      exact ⟨[], .of_seen seen⟩
  | succ bound ih =>
      unfold visit
      split
      · rename_i seen
        exact ⟨[], .of_seen (Std.TreeSet.contains_iff_mem.mp seen)⟩
      · rename_i unseen
        rw [Std.TreeSet.contains_iff_mem] at unseen
        have less := unseen_discover inside unseen
        have enough : (walk.discover vertex).unseen vertices ≤ bound := by omega
        obtain ⟨found, visited⟩ := foldl_visit_spec (next vertex)
          (fun walk vertex member room => ih member room) (closed vertex inside) enough
        exact ⟨vertex :: found, .of_successors unseen visited⟩

end Bound

end MemoGraph.Walk
