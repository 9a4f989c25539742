import MemoGraph.Proofs.Digraph.Closings

namespace MemoGraph.Digraph

/-! Low links close components at the right time.

Vertices are compared by the order of their discovery. A vertex whose component
is not closed is open. Two facts carry everything: a vertex that is not finished
reaches all that was discovered after it, and an open vertex that is finished
reaches an open vertex that was discovered before it.
-/

open Walk (Reaches)

variable {α : Type} [DecidableEq α] {graph : Digraph α} {discovered before after finished : List α}
  {closed later : List (List α)} {vertex target : α} {number : Nat}

/-- The discovered vertices whose components are not closed. -/
def opened (discovered : List α) (closed : List (List α)) : List α :=
  discovered.filter (· ∉ closed.flatten)

theorem mem_opened :
    vertex ∈ opened discovered closed ↔ vertex ∈ discovered ∧ vertex ∉ closed.flatten := by
  simp [opened]

theorem opened_concat (free : vertex ∉ closed.flatten) :
    opened (discovered ++ [vertex]) closed = opened discovered closed ++ [vertex] := by
  rw [opened, List.filter_append]
  exact congrArg _ (List.filter_eq_self.mpr (by simpa using free))

/-- What is known of the vertices that were discovered and finished, and of the
components that were closed, the latest first. -/
structure Trail (graph : Digraph α) (discovered finished : List α) (closed : List (List α)) :
    Prop where
  unique : discovered.Nodup
  done : ∀ vertex ∈ finished, vertex ∈ discovered ∧
    ∀ target ∈ graph.next vertex, target ∈ discovered
  closes : graph.Closes finished closed
  listed : ∀ component ∈ closed, component = discovered.filter (· ∈ component)
  sealed : ∀ vertex ∈ closed.flatten, ∀ target ∈ graph.next vertex, target ∈ closed.flatten
  apart : closed.Pairwise fun later earlier =>
    ∀ vertex ∈ earlier, ∀ target ∈ later, ¬ Reaches graph.next vertex target
  back : ∀ vertex ∈ finished, vertex ∈ opened discovered closed →
    ∃ target ∈ opened discovered closed, discovered.idxOf target < discovered.idxOf vertex ∧
      Reaches graph.next vertex target
  forth : ∀ vertex ∈ discovered, vertex ∉ finished → ∀ target ∈ discovered,
    discovered.idxOf vertex ≤ discovered.idxOf target → Reaches graph.next vertex target

/-- The number is the low link of the vertex if its edges to the given vertices
were used, and all those of open vertices that were discovered later. -/
structure Link (graph : Digraph α) (discovered : List α) (closed : List (List α)) (vertex : α)
    (used : List α) (number : Nat) : Prop where
  le : number ≤ discovered.idxOf vertex
  reached : ∃ target ∈ opened discovered closed, discovered.idxOf target = number ∧
    Reaches graph.next vertex target
  least : ∀ target ∈ opened discovered closed,
    (target ∈ used ∨ ∃ source ∈ opened discovered closed,
      discovered.idxOf vertex < discovered.idxOf source ∧ target ∈ graph.next source) →
        number ≤ discovered.idxOf target

theorem idxOf_append (known : vertex ∈ before) (found : List α) :
    (before ++ found).idxOf vertex = before.idxOf vertex := List.idxOf_append_of_mem known

theorem length_le_idxOf (fresh : vertex ∉ before) (found : List α) :
    before.length ≤ (before ++ found).idxOf vertex := by
  rw [List.idxOf_append_of_notMem fresh]
  exact Nat.le_add_right _ _

theorem pairwise_idxOf (unique : discovered.Nodup) :
    discovered.Pairwise fun left right => discovered.idxOf left < discovered.idxOf right := by
  rw [List.pairwise_iff_getElem]
  intro i j hi hj less
  rwa [unique.idxOf_getElem i hi, unique.idxOf_getElem j hj]

theorem eq_of_sublist {left right : List α} (unique : discovered.Nodup)
    (isLeft : left.Sublist discovered) (isRight : right.Sublist discovered)
    (same : ∀ vertex, vertex ∈ left ↔ vertex ∈ right) : left = right := by
  have sorted := pairwise_idxOf unique
  refine List.Perm.eq_of_pairwise (fun first second _ _ less greater => ?_)
    (sorted.sublist isLeft) (sorted.sublist isRight)
    ((List.perm_ext_iff_of_nodup (unique.sublist isLeft) (unique.sublist isRight)).mpr same)
  exact absurd greater (Nat.lt_asymm less)

namespace Trail

variable (trail : graph.Trail discovered finished closed)
include trail

theorem mem_finished (shut : vertex ∈ closed.flatten) : vertex ∈ finished := by
  obtain ⟨component, listed, member⟩ := List.mem_flatten.mp shut
  exact trail.closes.mem_finished listed member

theorem sublist {component : List α} (listed : component ∈ closed) :
    component.Sublist discovered := by
  rw [trail.listed component listed]
  exact List.filter_sublist

theorem opened_of_unfinished (known : vertex ∈ discovered) (unfinished : vertex ∉ finished) :
    vertex ∈ opened discovered closed :=
  mem_opened.mpr ⟨known, fun shut => unfinished (trail.mem_finished shut)⟩

theorem reaches_closed (shut : vertex ∈ closed.flatten) (reaches : Reaches graph.next vertex target) :
    target ∈ closed.flatten := by
  induction reaches with
  | refl => exact shut
  | tail _ edge ih => exact trail.sealed _ ih _ edge

/-- An open vertex reaches one that is not finished. -/
theorem exists_unfinished (isOpen : vertex ∈ opened discovered closed) :
    ∃ target ∈ discovered, target ∉ finished ∧
      discovered.idxOf target ≤ discovered.idxOf vertex ∧ Reaches graph.next vertex target := by
  induction position : discovered.idxOf vertex using Nat.strong_induction_on generalizing vertex with
  | _ position ih =>
      by_cases done : vertex ∈ finished
      · obtain ⟨middle, isOpen, less, reaches⟩ := trail.back vertex done isOpen
        obtain ⟨target, known, unfinished, le, rest⟩ := ih _ (position ▸ less) isOpen rfl
        exact ⟨target, known, unfinished, by omega, reaches.trans rest⟩
      · exact ⟨vertex, (mem_opened.mp isOpen).1, done, position.le, .refl⟩

/-- Once every vertex is finished, the closed components are all that there are. -/
theorem mem_closed_iff (complete : ∀ vertex ∈ discovered, vertex ∈ finished) (component : List α) :
    component ∈ closed ↔ component.Sublist discovered ∧
      ∃ vertex ∈ discovered, ∀ other, other ∈ component ↔ graph.Connected vertex other := by
  constructor
  · intro listed
    obtain ⟨vertex, member, whole⟩ := trail.closes.exists_whole listed
    have known := (trail.done vertex (trail.closes.mem_finished listed member)).1
    exact ⟨trail.sublist listed, vertex, known, whole⟩
  · rintro ⟨sublist, vertex, known, whole⟩
    have shut : vertex ∈ closed.flatten := by
      by_contra free
      obtain ⟨target, isKnown, pending, _⟩ := trail.exists_unfinished (mem_opened.mpr ⟨known, free⟩)
      exact pending (complete target isKnown)
    obtain ⟨found, listed, member⟩ := List.mem_flatten.mp shut
    obtain ⟨source, _, wholeFound⟩ := trail.closes.exists_whole listed
    have connected := (wholeFound vertex).mp member
    have same : ∀ other, other ∈ component ↔ other ∈ found := fun other => by
      rw [whole, wholeFound]
      exact ⟨connected.trans, connected.symm.trans⟩
    exact eq_of_sublist trail.unique sublist (trail.sublist listed) same ▸ listed

theorem enter (fresh : vertex ∉ discovered)
    (led : ∀ source ∈ discovered, source ∉ finished → Reaches graph.next source vertex) :
    graph.Trail (discovered ++ [vertex]) finished closed := by
  have grown : ∀ {other}, other ∈ discovered → other ∈ discovered ++ [vertex] :=
    List.mem_append_left _
  constructor
  case unique =>
    exact (List.perm_append_singleton vertex discovered).nodup_iff.mpr
      (List.nodup_cons.mpr ⟨fresh, trail.unique⟩)
  case done =>
    intro other done
    obtain ⟨known, edges⟩ := trail.done other done
    exact ⟨grown known, fun target edge => grown (edges target edge)⟩
  case closes => exact trail.closes
  case listed =>
    intro component listed
    have outside : vertex ∉ component := fun member =>
      fresh (trail.done vertex (trail.closes.mem_finished listed member)).1
    rw [List.filter_append, ← trail.listed component listed]
    simp [outside]
  case sealed => exact trail.sealed
  case apart => exact trail.apart
  case back =>
    intro other done isOpen
    have known := (trail.done other done).1
    obtain ⟨target, openTarget, less, reaches⟩ :=
      trail.back other done (mem_opened.mpr ⟨known, (mem_opened.mp isOpen).2⟩)
    obtain ⟨knownTarget, free⟩ := mem_opened.mp openTarget
    refine ⟨target, mem_opened.mpr ⟨grown knownTarget, free⟩, ?_, reaches⟩
    rwa [idxOf_append knownTarget, idxOf_append known]
  case forth =>
    intro source known unfinished target knownTarget le
    rcases List.mem_append.mp known with old | isNew
    · rw [idxOf_append old] at le
      rcases List.mem_append.mp knownTarget with oldTarget | newTarget
      · rw [idxOf_append oldTarget] at le
        exact trail.forth source old unfinished target oldTarget le
      · rw [List.mem_singleton.mp newTarget]
        exact led source old unfinished
    · rw [List.mem_singleton.mp isNew] at le ⊢
      rcases List.mem_append.mp knownTarget with oldTarget | newTarget
      · have less := List.idxOf_lt_length_of_mem oldTarget
        have far := length_le_idxOf fresh [vertex]
        rw [idxOf_append oldTarget] at le
        omega
      · rw [List.mem_singleton.mp newTarget]
        exact .refl

/-- A vertex is finished whose low link shows that its component goes further back. -/
theorem pass (known : vertex ∈ discovered) (unfinished : vertex ∉ finished)
    (edges : ∀ target ∈ graph.next vertex, target ∈ discovered)
    (link : graph.Link discovered closed vertex (graph.next vertex) number)
    (less : number < discovered.idxOf vertex) :
    graph.Trail discovered (vertex :: finished) closed := by
  obtain ⟨target, isOpen, isNumber, reaches⟩ := link.reached
  obtain ⟨ancestor, knownAncestor, pending, le, further⟩ := trail.exists_unfinished isOpen
  have before : discovered.idxOf ancestor < discovered.idxOf vertex := by omega
  have connected : graph.Connected vertex ancestor :=
    ⟨reaches.trans further, trail.forth ancestor knownAncestor pending vertex known before.le⟩
  have missing : ancestor ∉ vertex :: finished := by
    rintro member
    rcases List.mem_cons.mp member with rfl | done
    · exact Nat.lt_irrefl _ before
    · exact pending done
  refine { trail with
    done := ?_, closes := .pass connected missing trail.closes, back := ?_, forth := ?_ }
  · intro other member
    rcases List.mem_cons.mp member with rfl | done
    · exact ⟨known, edges⟩
    · exact trail.done other done
  · intro other member isOther
    rcases List.mem_cons.mp member with rfl | done
    · exact ⟨target, isOpen, isNumber ▸ less, reaches⟩
    · exact trail.back other done isOther
  · exact fun source isKnown pending =>
      trail.forth source isKnown fun done => pending (List.mem_cons_of_mem vertex done)

end Trail

section Close

variable {below above : List α} (trail : graph.Trail discovered finished closed)
  (split : opened discovered closed = below ++ vertex :: above)
include trail split

theorem Trail.opened_sorted : (below ++ vertex :: above).Pairwise fun left right =>
    discovered.idxOf left < discovered.idxOf right :=
  split ▸ (pairwise_idxOf trail.unique).filter _

/-- What is open from a vertex on was discovered no sooner. -/
theorem Trail.mem_segment (other : α) : other ∈ vertex :: above ↔
    other ∈ opened discovered closed ∧ discovered.idxOf vertex ≤ discovered.idxOf other := by
  obtain ⟨_, sorted, less⟩ := List.pairwise_append.mp (trail.opened_sorted split)
  rw [split]
  constructor
  · intro member
    refine ⟨List.mem_append_right _ member, ?_⟩
    rcases List.mem_cons.mp member with rfl | isAbove
    · exact Nat.le_refl _
    · exact ((List.pairwise_cons.mp sorted).1 other isAbove).le
  · rintro ⟨member, le⟩
    refine (List.mem_append.mp member).resolve_left fun isBelow => ?_
    exact Nat.not_lt.mpr le (less other isBelow vertex List.mem_cons_self)

theorem Trail.not_mem_segment : ∀ other ∈ below, other ∉ vertex :: above :=
  fun other isBelow member => Nat.lt_irrefl _
    ((List.pairwise_append.mp (trail.opened_sorted split)).2.2 other isBelow other member)

theorem Trail.filter_segment : discovered.filter (· ∈ vertex :: above) = vertex :: above := by
  have outside := trail.not_mem_segment split
  calc discovered.filter (· ∈ vertex :: above)
      = (opened discovered closed).filter (· ∈ vertex :: above) := by
        rw [opened, List.filter_filter]
        refine List.filter_congr fun other _ => ?_
        have free := fun member => (mem_opened.mp ((trail.mem_segment split other).mp member).1).2
        by_cases member : other ∈ vertex :: above
        · simp [member, free member]
        · simp [member]
    _ = vertex :: above := by
        rw [split, List.filter_append, List.filter_eq_nil_iff.mpr (by simpa using outside),
          List.filter_eq_self.mpr fun other member => decide_eq_true member, List.nil_append]

theorem Trail.opened_close : opened discovered ((vertex :: above) :: closed) = below := by
  have outside := trail.not_mem_segment split
  calc opened discovered ((vertex :: above) :: closed)
      = (opened discovered closed).filter (· ∉ vertex :: above) := by
        rw [opened, opened, List.filter_filter]
        refine List.filter_congr fun other _ => ?_
        simp only [List.flatten_cons, List.mem_append, not_or, Bool.decide_and]
    _ = below := by
        rw [split, List.filter_append, List.filter_eq_self.mpr fun other isBelow =>
            decide_eq_true (outside other isBelow),
          List.filter_eq_nil_iff.mpr fun other member => by
            rw [decide_eq_true_eq, not_not]
            exact member, List.append_nil]

variable (unfinished : vertex ∉ finished)
  (edges : ∀ target ∈ graph.next vertex, target ∈ discovered)
  (top : ∀ other ∈ discovered, other ∉ finished →
    discovered.idxOf other ≤ discovered.idxOf vertex)
  (link : graph.Link discovered closed vertex (graph.next vertex) (discovered.idxOf vertex))

include unfinished edges top link

omit split in
/-- No edge leads from what is open from the vertex on to what was open before. -/
theorem Trail.onward {source : α} (isOpen : source ∈ opened discovered closed)
    (le : discovered.idxOf vertex ≤ discovered.idxOf source) :
    ∀ target ∈ graph.next source, target ∈ closed.flatten ∨
      (target ∈ opened discovered closed ∧
        discovered.idxOf vertex ≤ discovered.idxOf target) := by
  intro target edge
  by_cases shut : target ∈ closed.flatten
  · exact .inl shut
  · have known := (mem_opened.mp isOpen).1
    refine .inr ?_
    by_cases same : source = vertex
    · subst same
      have openTarget := mem_opened.mpr ⟨edges target edge, shut⟩
      exact ⟨openTarget, link.least target openTarget (.inl edge)⟩
    · have less : discovered.idxOf vertex < discovered.idxOf source :=
        Nat.lt_of_le_of_ne le fun equal => same ((List.idxOf_inj known).mp equal.symm)
      have done : source ∈ finished := by
        by_contra pending
        exact Nat.not_lt.mpr (top source known pending) less
      have openTarget := mem_opened.mpr ⟨(trail.done source done).2 target edge, shut⟩
      exact ⟨openTarget, link.least target openTarget (.inr ⟨source, isOpen, less, edge⟩)⟩

omit split in
theorem Trail.reaches_segment {source target : α} (isOpen : source ∈ opened discovered closed)
    (le : discovered.idxOf vertex ≤ discovered.idxOf source)
    (reaches : Reaches graph.next source target) : target ∈ closed.flatten ∨
      (target ∈ opened discovered closed ∧
        discovered.idxOf vertex ≤ discovered.idxOf target) := by
  induction reaches with
  | refl => exact .inr ⟨isOpen, le⟩
  | tail _ edge ih =>
      rcases ih with shut | ⟨openMiddle, leMiddle⟩
      · exact .inl (trail.sealed _ shut _ edge)
      · exact trail.onward unfinished edges top link openMiddle leMiddle _ edge

omit split in
theorem Trail.returns {source : α} (isOpen : source ∈ opened discovered closed)
    (le : discovered.idxOf vertex ≤ discovered.idxOf source) :
    Reaches graph.next source vertex := by
  induction position : discovered.idxOf source using Nat.strong_induction_on generalizing source with
  | _ position ih =>
      have known := (mem_opened.mp isOpen).1
      by_cases done : source ∈ finished
      · obtain ⟨target, openTarget, less, reaches⟩ := trail.back source done isOpen
        rcases trail.reaches_segment unfinished edges top link isOpen le reaches with
          shut | ⟨_, leTarget⟩
        · exact absurd shut (mem_opened.mp openTarget).2
        · exact reaches.trans (ih _ (position ▸ less) openTarget leTarget rfl)
      · have equal := Nat.le_antisymm (top source known done) le
        rw [(List.idxOf_inj known).mp equal]
        exact .refl

/-- What is open from the vertex on is its component. -/
theorem Trail.mem_segment_iff (known : vertex ∈ discovered) (other : α) :
    other ∈ vertex :: above ↔ graph.Connected vertex other := by
  have isOpen := trail.opened_of_unfinished known unfinished
  rw [trail.mem_segment split]
  constructor
  · rintro ⟨openOther, le⟩
    exact ⟨trail.forth vertex known unfinished other (mem_opened.mp openOther).1 le,
      trail.returns unfinished edges top link openOther le⟩
  · rintro ⟨forth, back⟩
    refine (trail.reaches_segment unfinished edges top link isOpen (Nat.le_refl _) forth).resolve_left
      fun shut => ?_
    exact (mem_opened.mp isOpen).2 (trail.reaches_closed shut back)

/-- A vertex is finished whose low link shows that its component does not go
further back, and the component is closed. -/
theorem Trail.close (known : vertex ∈ discovered) :
    graph.Trail discovered (vertex :: finished) ((vertex :: above) :: closed) := by
  have whole := trail.mem_segment_iff split unfinished edges top link known
  have shut : ∀ {other : α}, other ∈ ((vertex :: above) :: closed).flatten ↔
      other ∈ vertex :: above ∨ other ∈ closed.flatten := by
    intro other
    rw [List.flatten_cons, List.mem_append]
  have done : ∀ other ∈ vertex :: above, other ∈ vertex :: finished := by
    intro other member
    obtain ⟨isOpen, le⟩ := (trail.mem_segment split other).mp member
    have isKnown := (mem_opened.mp isOpen).1
    by_cases pending : other ∈ finished
    · exact List.mem_cons_of_mem vertex pending
    · have equal := Nat.le_antisymm (top other isKnown pending) le
      rw [(List.idxOf_inj isKnown).mp equal]
      exact List.mem_cons_self
  have free : ∀ other ∈ vertex :: above, other ∉ closed.flatten := fun other member =>
    (mem_opened.mp ((trail.mem_segment split other).mp member).1).2
  constructor
  case unique => exact trail.unique
  case done =>
    intro other member
    rcases List.mem_cons.mp member with rfl | old
    · exact ⟨known, edges⟩
    · exact trail.done other old
  case closes => exact .close whole done trail.closes
  case listed =>
    intro component listed
    rcases List.mem_cons.mp listed with rfl | old
    · exact (trail.filter_segment split).symm
    · exact trail.listed component old
  case sealed =>
    intro other member target edge
    rw [shut] at member ⊢
    rcases member with isNew | old
    · obtain ⟨isOpen, le⟩ := (trail.mem_segment split other).mp isNew
      -- By the low link, no edge out of the segment ends further back in what is open.
      rcases trail.onward unfinished edges top link isOpen le target edge with old | ahead
      · exact .inr old
      · exact .inl ((trail.mem_segment split target).mpr ahead)
    · exact .inr (trail.sealed other old target edge)
  case apart =>
    refine List.pairwise_cons.mpr ⟨fun component listed source member target isNew reaches => ?_,
      trail.apart⟩
    have old := List.mem_flatten.mpr ⟨component, listed, member⟩
    exact free target isNew (trail.reaches_closed old reaches)
  case back =>
    intro other member isOther
    rw [trail.opened_close split] at isOther ⊢
    have openOther : other ∈ opened discovered closed := by
      rw [split]
      exact List.mem_append_left _ isOther
    have outside := trail.not_mem_segment split other isOther
    have old : other ∈ finished := (List.mem_cons.mp member).resolve_left fun same =>
      outside (same ▸ List.mem_cons_self)
    obtain ⟨target, openTarget, less, reaches⟩ := trail.back other old openOther
    refine ⟨target, ?_, less, reaches⟩
    have isTarget := openTarget
    rw [split] at isTarget
    -- A way back from below the segment cannot lead into it, as it leads further down.
    refine (List.mem_append.mp isTarget).resolve_right fun inside => outside ?_
    have le := ((trail.mem_segment split target).mp inside).2
    exact (trail.mem_segment split other).mpr ⟨openOther, by omega⟩
  case forth =>
    exact fun source isKnown pending =>
      trail.forth source isKnown fun old => pending (List.mem_cons_of_mem vertex old)

end Close

/-- More was discovered and closed, but nothing was closed that had been open. -/
structure Grows (before : List α) (closed : List (List α)) (after : List α)
    (later : List (List α)) : Prop where
  discovered : before <+: after
  opened : ∀ vertex ∈ before, vertex ∈ opened after later ↔ vertex ∈ opened before closed

/-- What becomes of the closed components when a vertex with the given low link is
finished. -/
structure Leaves (discovered : List α) (closed : List (List α)) (vertex : α) (number : Nat)
    (later : List (List α)) : Prop where
  shrinks : ∀ other ∈ opened discovered later, other ∈ opened discovered closed
  keeps : ∀ other ∈ opened discovered closed,
    discovered.idxOf other < discovered.idxOf vertex → other ∈ opened discovered later
  kept : number < discovered.idxOf vertex → later = closed

theorem Leaves.pass : Leaves discovered closed vertex number closed :=
  ⟨fun _ isOpen => isOpen, fun _ isOpen _ => isOpen, fun _ => rfl⟩

theorem Leaves.close {below above : List α} (trail : graph.Trail discovered finished closed)
    (split : opened discovered closed = below ++ vertex :: above) :
    Leaves discovered closed vertex (discovered.idxOf vertex) ((vertex :: above) :: closed) := by
  refine ⟨fun other isOpen => ?_, fun other isOpen less => ?_,
    fun less => absurd less (Nat.lt_irrefl _)⟩
  · rw [trail.opened_close split] at isOpen
    rw [split]
    exact List.mem_append_left _ isOpen
  · rw [trail.opened_close split]
    have member := isOpen
    rw [split] at member
    refine (List.mem_append.mp member).resolve_right fun inside => ?_
    exact Nat.not_lt.mpr ((trail.mem_segment split other).mp inside).2 less

theorem Grows.refl (discovered : List α) (closed : List (List α)) :
    Grows discovered closed discovered closed := ⟨List.prefix_rfl, fun _ _ => .rfl⟩

theorem Grows.trans {middle : List α} {between : List (List α)}
    (left : Grows before closed middle between) (right : Grows middle between after later) :
    Grows before closed after later :=
  ⟨left.discovered.trans right.discovered, fun vertex known =>
    (right.opened vertex (left.discovered.subset known)).trans (left.opened vertex known)⟩

theorem Grows.enter (discovered : List α) (closed : List (List α)) (vertex : α) :
    Grows discovered closed (discovered ++ [vertex]) closed := by
  refine ⟨List.prefix_append _ _, fun other known => ?_⟩
  simp [mem_opened, known]

theorem Grows.idxOf (grows : Grows before closed after later) (known : vertex ∈ before) :
    after.idxOf vertex = before.idxOf vertex := by
  obtain ⟨found, rfl⟩ := grows.discovered
  exact idxOf_append known found

theorem Grows.length_le_idxOf (grows : Grows before closed after later) (fresh : vertex ∉ before) :
    before.length ≤ after.idxOf vertex := by
  obtain ⟨found, rfl⟩ := grows.discovered
  exact Digraph.length_le_idxOf fresh found

theorem Grows.leave {between : List (List α)} (grows : Grows before closed after between)
    (fresh : vertex ∉ before) (leaves : Leaves after between vertex number later) :
    Grows before closed after later := by
  refine ⟨grows.discovered, fun other known => ?_⟩
  rw [← grows.opened other known]
  refine ⟨leaves.shrinks other, fun isOpen => leaves.keeps other isOpen ?_⟩
  rw [grows.idxOf known]
  exact Nat.lt_of_lt_of_le (List.idxOf_lt_length_of_mem known) (grows.length_le_idxOf fresh)

namespace Link

variable {used : List α}

theorem enter (fresh : vertex ∉ discovered) (free : vertex ∉ closed.flatten) :
    graph.Link (discovered ++ [vertex]) closed vertex [] discovered.length := by
  have own : (discovered ++ [vertex]).idxOf vertex = discovered.length := by
    simp [List.idxOf_append_of_notMem fresh]
  refine ⟨own.ge, ⟨vertex, mem_opened.mpr ⟨by simp, free⟩, own, .refl⟩, ?_⟩
  rintro target _ (used | ⟨source, isOpen, less, _⟩)
  · cases used
  · have within := List.idxOf_lt_length_of_mem (mem_opened.mp isOpen).1
    rw [List.length_append, List.length_singleton] at within
    omega

/-- An edge leads to a vertex that was discovered before. -/
theorem skip (link : graph.Link discovered closed vertex used number)
    (edge : target ∈ graph.next vertex) :
    graph.Link discovered closed vertex (used ++ [target])
      (if target ∈ opened discovered closed then min number (discovered.idxOf target)
        else number) := by
  have others : ∀ other ∈ opened discovered closed,
      (other ∈ used ++ [target] ∨ ∃ source ∈ opened discovered closed,
        discovered.idxOf vertex < discovered.idxOf source ∧ other ∈ graph.next source) →
      number ≤ discovered.idxOf other ∨ other = target := by
    rintro other isOpen (member | further)
    · rcases List.mem_append.mp member with old | isNew
      · exact .inl (link.least other isOpen (.inl old))
      · exact .inr (List.mem_singleton.mp isNew)
    · exact .inl (link.least other isOpen (.inr further))
  split
  · rename_i isOpen
    refine ⟨Nat.le_trans (Nat.min_le_left _ _) link.le, ?_, fun other openOther reason => ?_⟩
    · rcases Nat.le_total number (discovered.idxOf target) with le | le
      · rw [Nat.min_eq_left le]
        exact link.reached
      · rw [Nat.min_eq_right le]
        exact ⟨target, isOpen, rfl, .single edge⟩
    · rcases others other openOther reason with le | rfl
      · exact Nat.le_trans (Nat.min_le_left _ _) le
      · exact Nat.min_le_right _ _
  · rename_i shut
    refine ⟨link.le, link.reached, fun other openOther reason => ?_⟩
    exact (others other openOther reason).resolve_right fun same => shut (same ▸ openOther)

/-- An edge led to a vertex that was discovered then and is finished now. If the
component of that vertex is closed, `between` are the components closed before. -/
theorem visit {between : List (List α)} {reached : Nat}
    (link : graph.Link before closed vertex used number) (known : vertex ∈ before)
    (edge : target ∈ graph.next vertex) (fresh : target ∉ before)
    (first : ∀ other ∈ after, other ∉ before → after.idxOf target ≤ after.idxOf other)
    (inner : graph.Link after between target (graph.next target) reached)
    (grows : Grows before closed after later) (leaves : Leaves after between target reached later) :
    graph.Link after later vertex (used ++ [target]) (min number reached) := by
  have own := grows.idxOf known
  have less : ∀ other, other ∉ before → number < after.idxOf other := by
    intro other isNew
    have within := List.idxOf_lt_length_of_mem known
    have far := grows.length_le_idxOf isNew
    have le := link.le
    omega
  refine ⟨?_, ?_, ?_⟩
  · rw [own]
    exact Nat.le_trans (Nat.min_le_left _ _) link.le
  · rcases Nat.lt_or_ge reached number with lower | le
    · obtain ⟨other, isOpen, isNumber, reaches⟩ := inner.reached
      have further : reached < after.idxOf target := Nat.lt_trans lower (less target fresh)
      rw [Nat.min_eq_right (Nat.le_of_lt lower), leaves.kept further]
      exact ⟨other, isOpen, isNumber, Relation.ReflTransGen.head edge reaches⟩
    · obtain ⟨other, isOpen, isNumber, reaches⟩ := link.reached
      have knownOther := (mem_opened.mp isOpen).1
      rw [Nat.min_eq_left le]
      exact ⟨other, (grows.opened other knownOther).mpr isOpen,
        (grows.idxOf knownOther).trans isNumber, reaches⟩
  · rintro other isOpen reason
    by_cases isKnown : other ∈ before
    · rw [grows.idxOf isKnown]
      have openBefore := (grows.opened other isKnown).mp isOpen
      rcases reason with member | ⟨source, openSource, later', step⟩
      · rcases List.mem_append.mp member with old | isTarget
        · exact Nat.le_trans (Nat.min_le_left _ _) (link.least other openBefore (.inl old))
        · exact absurd (List.mem_singleton.mp isTarget ▸ isKnown) fresh
      · by_cases knownSource : source ∈ before
        · rw [own, grows.idxOf knownSource] at later'
          exact Nat.le_trans (Nat.min_le_left _ _) (link.least other openBefore
            (.inr ⟨source, (grows.opened source knownSource).mp openSource, later', step⟩))
        · rw [← grows.idxOf isKnown]
          refine Nat.le_trans (Nat.min_le_right _ _) (inner.least other (leaves.shrinks other isOpen) ?_)
          have isSource := (mem_opened.mp openSource).1
          by_cases same : source = target
          · exact .inl (same ▸ step)
          · refine .inr ⟨source, leaves.shrinks source openSource, ?_, step⟩
            exact Nat.lt_of_le_of_ne (first source isSource knownSource) fun equal =>
              same ((List.idxOf_inj isSource).mp equal.symm)
    · exact Nat.le_trans (Nat.min_le_left _ _) (less other isKnown).le

end Link

end MemoGraph.Digraph
