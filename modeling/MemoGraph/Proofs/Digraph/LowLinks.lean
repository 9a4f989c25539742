import MemoGraph.Digraph.LowLinks
import MemoGraph.Proofs.Digraph.Trails

namespace MemoGraph.LowLinks

open MemoGraph.Digraph (opened mem_opened Grows Leaves)

variable {graph : Array (List Nat)} {search after : Search} {discovered finished : List Nat}
  {closed : List (List Nat)} {vertex number : Nat} {calls : List Frame}

section Operations

theorem exists_write {α : Type} {items : Array α} {index : Nat} (bound : index < items.size)
    (item : α) : ∃ after, write? items index item = some after ∧ after.size = items.size ∧
      ∀ other, after[other]? = if other = index then some item else items[other]? := by
  refine ⟨_, dif_pos bound, Array.size_set bound, fun other => ?_⟩
  rw [Array.getElem?_set]
  simp only [eq_comm]

/-- Nothing but low links differs. -/
structure Relinked (search after : Search) : Prop where
  rest : after = { search with low := after.low }
  size : after.low.size = search.low.size

theorem Relinked.refl (search : Search) : Relinked search search := ⟨rfl, rfl⟩

theorem exists_lower (bound : vertex < search.low.size) (number : Nat) :
    ∃ after, search.lower vertex number = some after ∧ Relinked search after ∧
      ∀ other, after.low[other]? =
        if other = vertex then search.low[other]?.map (min · number) else search.low[other]? := by
  have found := Array.getElem?_eq_getElem bound
  obtain ⟨low, written, size, lookup⟩ := exists_write bound (min search.low[vertex] number)
  refine ⟨{ search with low }, ?_, ⟨rfl, size⟩, fun other => ?_⟩
  · simp [Search.lower, found, written]
  · rw [lookup]
    split
    · rename_i same
      rw [same, found, Option.map_some]
    · rfl

theorem exists_meet {target : Nat} {onStack : Bool} (bound : vertex < search.low.size)
    (found : search.onStack[target]? = some onStack) (number : Nat) :
    ∃ after, search.meet vertex target number = some after ∧ Relinked search after ∧
      ∀ other, after.low[other]? = if onStack = true ∧ other = vertex
        then search.low[other]?.map (min · number) else search.low[other]? := by
  cases onStack with
  | false => exact ⟨search, by simp [Search.meet, found], .refl search, by simp⟩
  | true =>
      obtain ⟨after, lowered, relinked, low⟩ := exists_lower bound number
      exact ⟨after, by simp [Search.meet, found, lowered], relinked, by simpa using low⟩

theorem exists_inherit (bound : ∀ frame ∈ calls.head?, frame.1 < search.low.size) (number : Nat) :
    ∃ after, search.inherit number calls = some after ∧ Relinked search after ∧
      ∀ other, after.low[other]? = if some other = calls.head?.map Prod.fst
        then search.low[other]?.map (min · number) else search.low[other]? := by
  cases calls with
  | nil => exact ⟨search, rfl, .refl search, by simp⟩
  | cons frame rest =>
      obtain ⟨after, lowered, relinked, low⟩ := exists_lower (bound frame rfl) number
      exact ⟨after, lowered, relinked, by simpa using low⟩

theorem exists_popTo {onStack : Array Bool} {above : List Nat} (outside : vertex ∉ above)
    (bound : ∀ other ∈ above ++ [vertex], other < onStack.size) (below : List Nat) :
    ∃ after, popTo vertex (above ++ vertex :: below) onStack =
        some (above ++ [vertex], below, after) ∧ after.size = onStack.size ∧
      ∀ other, after[other]? =
        if other ∈ above ++ [vertex] then some false else onStack[other]? := by
  induction above generalizing onStack with
  | nil =>
      obtain ⟨after, written, size, lookup⟩ := exists_write (bound vertex (by simp)) false
      exact ⟨after, by simp [popTo, written], size, by simpa using lookup⟩
  | cons top above ih =>
      obtain ⟨different, outside⟩ := not_or.mp (List.mem_cons.not.mp outside)
      obtain ⟨middle, written, size, lookup⟩ := exists_write (bound top (by simp)) false
      obtain ⟨after, popped, sizeAfter, lookupAfter⟩ := ih outside fun other member => by
        rw [size]
        exact bound other (List.mem_cons_of_mem top member)
      refine ⟨after, ?_, sizeAfter.trans size, fun other => ?_⟩
      · simp [popTo, written, popped, Ne.symm different]
      · rw [lookupAfter, lookup]
        by_cases member : other ∈ above ++ [vertex]
        · simp [member]
        · by_cases same : other = top <;> simp_all

theorem mapM_eq_some_map {α β : Type} {items : List α} {image? : α → Option β} {image : α → β}
    (each : ∀ item ∈ items, image? item = some (image item)) :
    items.mapM image? = some (items.map image) := by
  induction items with
  | nil => rfl
  | cons first rest ih =>
      obtain ⟨applied, each⟩ := List.forall_mem_cons.mp each
      rw [List.mapM_cons, applied, ih each]
      rfl

theorem sort_reverse {members : List Nat} (numberOf : Nat → Nat)
    (numbered : ∀ member ∈ members, search.index[member]? = some (some (numberOf member)))
    (sorted : members.Pairwise fun left right => numberOf left < numberOf right) :
    search.sort members.reverse = some members := by
  have each : ∀ member ∈ members, search.numbered? member = some (numberOf member, member) :=
    fun member isMember => by simp [Search.numbered?, numbered member isMember]
  have distinct : ∀ {first second}, first ∈ members → second ∈ members →
      numberOf first = numberOf second → first = second := by
    intro first second isFirst isSecond
    refine List.inj_on_of_nodup_map ?_ isFirst isSecond
    exact List.pairwise_map.mpr (sorted.imp Nat.ne_of_lt)
  have ordered : (members.reverse.map fun member => (numberOf member, member)).mergeSort
      (fun left right => left.1 ≤ right.1) = members.map fun member => (numberOf member, member) := by
    refine List.Perm.eq_of_pairwise ?_ (List.pairwise_mergeSort (by simp; omega) (by simp; omega) _)
      (List.pairwise_map.mpr (sorted.imp fun less => decide_eq_true less.le))
      ((List.mergeSort_perm _ _).trans (members.reverse_perm.map _))
    intro left right isLeft isRight le ge
    rw [List.mem_mergeSort, List.mem_map] at isLeft
    obtain ⟨first, isFirst, rfl⟩ := isLeft
    obtain ⟨second, isSecond, rfl⟩ := List.mem_map.mp isRight
    rw [distinct (List.mem_reverse.mp isFirst) isSecond
      (Nat.le_antisymm (of_decide_eq_true le) (of_decide_eq_true ge))]
  unfold Search.sort
  rw [mapM_eq_some_map fun member isMember => each member (List.mem_reverse.mp isMember)]
  show some (List.map Prod.snd _) = some members
  rw [ordered, List.map_map]
  exact congrArg some (List.map_id' members)

end Operations

/-- The search stands where the walk does, low links apart. -/
structure Represents (graph : Array (List Nat)) (search : Search) (discovered : List Nat)
    (closed : List (List Nat)) : Prop where
  inside : ∀ vertex ∈ discovered, vertex < graph.size
  index : ∀ vertex < graph.size, search.index[vertex]? =
    some (if vertex ∈ discovered then some (discovered.idxOf vertex) else none)
  low : search.low.size = graph.size
  onStack : ∀ vertex < graph.size, search.onStack[vertex]? =
    some (decide (vertex ∈ opened discovered closed))
  stack : search.stack = (opened discovered closed).reverse
  count : search.count = discovered.length
  components : search.components = closed.filter (Digraph.ofSuccessors graph).isCyclic

namespace Represents

theorem new (graph : Array (List Nat)) : Represents graph (.new graph.size) [] [] where
  inside := by simp
  index vertex bound := by simp [Search.new, bound]
  low := by simp [Search.new]
  onStack vertex bound := by simp [Search.new, bound, opened]
  stack := rfl
  count := rfl
  components := rfl

variable (represents : Represents graph search discovered closed)
include represents

theorem relink (relinked : Relinked search after) : Represents graph after discovered closed := by
  obtain ⟨rest, size⟩ := relinked
  generalize after.low = low at rest size
  subst rest
  exact { represents with low := size.trans represents.low }

theorem exists_enter (bound : vertex < graph.size) (fresh : vertex ∉ discovered)
    (free : vertex ∉ closed.flatten) :
    ∃ after, search.enter vertex = some after ∧
      Represents graph after (discovered ++ [vertex]) closed ∧
      ∀ other, after.low[other]? =
        if other = vertex then some discovered.length else search.low[other]? := by
  obtain ⟨indexBound, _⟩ := Array.getElem?_eq_some_iff.mp (represents.index vertex bound)
  obtain ⟨stackBound, _⟩ := Array.getElem?_eq_some_iff.mp (represents.onStack vertex bound)
  obtain ⟨index, wroteIndex, _, isIndex⟩ := exists_write indexBound (some search.count)
  obtain ⟨low, wroteLow, size, isLow⟩ :=
    exists_write (represents.low.symm ▸ bound : vertex < search.low.size) search.count
  obtain ⟨onStack, wroteStack, _, isOnStack⟩ := exists_write stackBound true
  have own : (discovered ++ [vertex]).idxOf vertex = discovered.length := by
    simp [List.idxOf_append_of_notMem fresh]
  have grown : opened (discovered ++ [vertex]) closed = opened discovered closed ++ [vertex] :=
    Digraph.opened_concat free
  refine ⟨_, by simp [Search.enter, wroteIndex, wroteLow, wroteStack]; rfl, ?_, fun other => ?_⟩
  · constructor
    case inside =>
      intro other member
      rcases List.mem_append.mp member with old | isNew
      · exact represents.inside other old
      · exact List.mem_singleton.mp isNew ▸ bound
    case index =>
      intro other otherBound
      rw [isIndex, represents.count]
      by_cases same : other = vertex
      · simp [same, own]
      · by_cases known : other ∈ discovered
        · simp [same, known, represents.index other otherBound, Digraph.idxOf_append known]
        · simp [same, known, represents.index other otherBound]
    case low => exact size.trans represents.low
    case onStack =>
      intro other otherBound
      rw [isOnStack, grown, represents.onStack other otherBound]
      by_cases same : other = vertex <;> simp [same]
    case stack => rw [grown, List.reverse_concat, represents.stack]
    case count => rw [List.length_append, represents.count]; rfl
    case components => exact represents.components
  · rw [isLow, represents.count]

theorem exists_close {below above : List Nat}
    (trail : (Digraph.ofSuccessors graph).Trail discovered finished closed)
    (split : opened discovered closed = below ++ vertex :: above) :
    ∃ after, search.close vertex ((Digraph.ofSuccessors graph).next vertex) = some after ∧
      Represents graph after discovered ((vertex :: above) :: closed) ∧ after.low = search.low := by
  have sorted := trail.opened_sorted split
  have left := trail.opened_close split
  have members : ∀ other ∈ vertex :: above, other ∈ discovered ∧ other < graph.size := by
    intro other member
    have known := (mem_opened.mp ((trail.mem_segment split other).mp member).1).1
    exact ⟨known, represents.inside other known⟩
  have outside : vertex ∉ above.reverse := by
    intro member
    have less := (List.pairwise_cons.mp (List.pairwise_append.mp sorted).2.1).1 vertex
      (List.mem_reverse.mp member)
    exact Nat.lt_irrefl _ less
  have taken : ∀ other, other ∈ above.reverse ++ [vertex] ↔ other ∈ vertex :: above := by
    simp [or_comm]
  obtain ⟨onStack, popped, _, isOnStack⟩ := exists_popTo outside (fun other member => by
    have bound := (members other ((taken other).mp member)).2
    exact (Array.getElem?_eq_some_iff.mp (represents.onStack other bound)).1) below.reverse
  have stack : search.stack = above.reverse ++ vertex :: below.reverse := by
    rw [represents.stack, split]
    simp
  have ordered : search.sort (above.reverse ++ [vertex]) = some (vertex :: above) := by
    rw [← List.reverse_cons]
    refine sort_reverse discovered.idxOf (fun other member => ?_)
      (List.pairwise_append.mp sorted).2.1
    obtain ⟨known, bound⟩ := members other member
    rw [represents.index other bound, if_pos known]
  have cyclic : (Digraph.ofSuccessors graph).isCyclic (vertex :: above) =
      decide (1 < (above.reverse ++ [vertex]).length ∨
        vertex ∈ (Digraph.ofSuccessors graph).next vertex) := by
    cases above <;> simp [Digraph.isCyclic]
  have closes : ∃ components, search.close vertex ((Digraph.ofSuccessors graph).next vertex) =
      some { search with stack := below.reverse, onStack, components } ∧
        components = ((vertex :: above) :: closed).filter (Digraph.ofSuccessors graph).isCyclic := by
    rw [List.filter_cons, cyclic, ← represents.components]
    simp only [Search.close, stack, popped, bind, pure, Option.bind_some, decide_eq_true_eq]
    split
    · exact ⟨_, congrArg (Option.bind · _) ordered, rfl⟩
    · exact ⟨_, rfl, rfl⟩
  obtain ⟨components, closes, isComponents⟩ := closes
  refine ⟨_, closes, ?_, rfl⟩
  constructor
  case inside => exact represents.inside
  case index => exact represents.index
  case low => exact represents.low
  case onStack =>
    intro other bound
    rw [isOnStack, represents.onStack other bound, left, split]
    simp only [taken, List.mem_append]
    have apart := trail.not_mem_segment split other
    by_cases member : other ∈ vertex :: above
    · have outside : other ∉ below := fun isBelow => apart isBelow member
      simp [member, outside]
    · simp [member]
  case stack => rw [left]
  case count => exact represents.count
  case components => exact isComponents

end Represents

section Drive

theorem drive_of_step {frame : Frame} {later : List Frame}
    (stepped : step graph search frame calls = some (after, later)) :
    drive graph search (frame :: calls) = drive graph after later := by
  rw [drive]
  split
  · rename_i stuck
    rw [stepped] at stuck
    cases stuck
  · rename_i taken
    rw [stepped] at taken
    cases taken
    rfl

variable {target : Nat} {used rest : List Nat} (bound : vertex < graph.size)
include bound

theorem getElem?_graph : graph[vertex]? = some ((Digraph.ofSuccessors graph).next vertex) := by
  simp [Digraph.ofSuccessors, bound]

theorem drive_of_enter (split : (Digraph.ofSuccessors graph).next vertex = used ++ target :: rest)
    (fresh : search.index[target]? = some none) (entered : search.enter target = some after) :
    drive graph search ((vertex, used.length) :: calls) =
      drive graph after ((target, 0) :: (vertex, used.length + 1) :: calls) := by
  have found : ((Digraph.ofSuccessors graph).next vertex)[used.length]? = some target := by
    simp [split]
  exact drive_of_step (by simp [step, getElem?_graph bound, found, fresh, entered])

theorem drive_of_meet {number : Nat}
    (split : (Digraph.ofSuccessors graph).next vertex = used ++ target :: rest)
    (known : search.index[target]? = some (some number))
    (met : search.meet vertex target number = some after) :
    drive graph search ((vertex, used.length) :: calls) =
      drive graph after ((vertex, used.length + 1) :: calls) := by
  have found : ((Digraph.ofSuccessors graph).next vertex)[used.length]? = some target := by
    simp [split]
  exact drive_of_step (by simp [step, getElem?_graph bound, found, known, met])

theorem drive_of_leave
    (left : search.leave vertex ((Digraph.ofSuccessors graph).next vertex) calls = some after) :
    drive graph search ((vertex, ((Digraph.ofSuccessors graph).next vertex).length) :: calls) =
      drive graph after calls :=
  drive_of_step (by simp [step, getElem?_graph bound, left])

end Drive

/-- The search has entered a vertex and used some of its edges. What was entered
before and is not left was discovered before the vertex. -/
structure At (graph : Array (List Nat)) (search : Search) (discovered finished : List Nat)
    (closed : List (List Nat)) (vertex : Nat) (used : List Nat) (number : Nat) : Prop where
  represents : Represents graph search discovered closed
  trail : (Digraph.ofSuccessors graph).Trail discovered finished closed
  known : vertex ∈ discovered
  unfinished : vertex ∉ finished
  top : ∀ other ∈ discovered, other ∉ finished →
    discovered.idxOf other ≤ discovered.idxOf vertex
  link : (Digraph.ofSuccessors graph).Link discovered closed vertex used number
  low : search.low[vertex]? = some number

namespace At

variable {before middle : List Nat} {later : List (List Nat)} {used : List Nat} {target : Nat}

theorem enter (represents : Represents graph search discovered closed)
    (trail : (Digraph.ofSuccessors graph).Trail discovered finished closed)
    (bound : vertex < graph.size) (fresh : vertex ∉ discovered)
    (led : ∀ source ∈ discovered, source ∉ finished →
      Walk.Reaches (Digraph.ofSuccessors graph).next source vertex) :
    ∃ after, search.enter vertex = some after ∧
      At graph after (discovered ++ [vertex]) finished closed vertex [] discovered.length ∧
      ∀ other ≠ vertex, after.low[other]? = search.low[other]? := by
  have unfinished : vertex ∉ finished := fun done => fresh (trail.done vertex done).1
  have free : vertex ∉ closed.flatten := fun shut => unfinished (trail.mem_finished shut)
  obtain ⟨after, entered, isAfter, low⟩ := represents.exists_enter bound fresh free
  refine ⟨after, entered, ?_, fun other different => by rw [low, if_neg different]⟩
  refine ⟨isAfter, trail.enter fresh led, by simp, unfinished, fun other member _ => ?_,
    .enter fresh free, by rw [low, if_pos rfl]⟩
  have within := List.idxOf_lt_length_of_mem member
  have far := Digraph.length_le_idxOf fresh [vertex]
  rw [List.length_append, List.length_singleton] at within
  omega

theorem meet (here : At graph search discovered finished closed vertex used number)
    (edge : target ∈ (Digraph.ofSuccessors graph).next vertex) (known : target ∈ discovered) :
    ∃ after least, search.meet vertex target (discovered.idxOf target) = some after ∧
      At graph after discovered finished closed vertex (used ++ [target]) least ∧
      ∀ other ≠ vertex, after.low[other]? = search.low[other]? := by
  have bound : vertex < search.low.size :=
    here.represents.low.symm ▸ here.represents.inside vertex here.known
  obtain ⟨after, met, relinked, low⟩ := exists_meet bound
    (here.represents.onStack target (here.represents.inside target known))
    (discovered.idxOf target)
  refine ⟨after, _, met, { here with
    represents := here.represents.relink relinked, link := here.link.skip edge, low := ?_ }, ?_⟩
  · rw [low, here.low]
    by_cases isOpen : target ∈ opened discovered closed <;> simp [isOpen]
  · intro other different
    rw [low, if_neg fun both => different both.2]

theorem leave (here : At graph search discovered finished closed vertex
      ((Digraph.ofSuccessors graph).next vertex) number)
    (edges : ∀ target ∈ (Digraph.ofSuccessors graph).next vertex, target ∈ discovered)
    (calls : List Frame) (parents : ∀ frame ∈ calls.head?, frame.1 ∈ discovered ∧ frame.1 ≠ vertex) :
    ∃ after later,
      search.leave vertex ((Digraph.ofSuccessors graph).next vertex) calls = some after ∧
      Represents graph after discovered later ∧
      (Digraph.ofSuccessors graph).Trail discovered (vertex :: finished) later ∧
      Leaves discovered closed vertex number later ∧
      ∀ other, after.low[other]? = if some other = calls.head?.map Prod.fst
        then search.low[other]?.map (min · number) else search.low[other]? := by
  obtain ⟨middle, inherited, relinked, low⟩ := exists_inherit
    (fun frame isParent => here.represents.low.symm ▸
      here.represents.inside frame.1 (parents frame isParent).1) number
  have represents := here.represents.relink relinked
  have own : middle.low[vertex]? = some number := by
    rw [low, if_neg, here.low]
    intro isParent
    obtain ⟨frame, isFrame, same⟩ := Option.map_eq_some_iff.mp isParent.symm
    exact (parents frame isFrame).2 same
  have index : middle.index[vertex]? = some (some (discovered.idxOf vertex)) := by
    rw [represents.index vertex (represents.inside vertex here.known), if_pos here.known]
  have left : search.leave vertex ((Digraph.ofSuccessors graph).next vertex) calls =
      if number = discovered.idxOf vertex
        then middle.close vertex ((Digraph.ofSuccessors graph).next vertex) else some middle := by
    simp [Search.leave, here.low, inherited, own, index]
  by_cases root : number = discovered.idxOf vertex
  · subst root
    obtain ⟨below, above, split⟩ :=
      List.append_of_mem (here.trail.opened_of_unfinished here.known here.unfinished)
    obtain ⟨after, closes, isAfter, sameLow⟩ := represents.exists_close here.trail split
    refine ⟨after, _, left.trans ((if_pos rfl).trans closes), isAfter,
      here.trail.close split here.unfinished edges here.top here.link here.known,
      .close here.trail split, ?_⟩
    rw [sameLow]
    exact low
  · have less := Nat.lt_of_le_of_ne here.link.le root
    exact ⟨middle, closed, left.trans (if_neg root), represents,
      here.trail.pass here.known here.unfinished edges here.link less, .pass, low⟩

/-- The search is back at the vertex after it entered another one over an edge,
dealt with all that is found from there, and left it. -/
theorem resume {start reached : Nat} {found inner : List Nat} {between : List (List Nat)}
    {deep left : Search} (here : At graph search before finished closed vertex used number)
    (edge : start ∈ (Digraph.ofSuccessors graph).next vertex) (unknown : start ∉ before)
    (perm : found.Perm inner)
    (isDeep : At graph deep (before ++ [start] ++ found) (inner ++ finished) between start
      ((Digraph.ofSuccessors graph).next start) reached)
    (grows : Grows before closed (before ++ [start] ++ found) later)
    (shut : Leaves (before ++ [start] ++ found) between start reached later)
    (represents : Represents graph left (before ++ [start] ++ found) later)
    (trail : (Digraph.ofSuccessors graph).Trail (before ++ [start] ++ found)
      (start :: (inner ++ finished)) later)
    (low : left.low[vertex]? = some (min number reached)) :
    At graph left (before ++ [start] ++ found) (start :: (inner ++ finished)) later vertex
      (used ++ [start]) (min number reached) := by
  have different : vertex ≠ start := fun same => unknown (same ▸ here.known)
  have own : (before ++ [start] ++ found).idxOf start = before.length := by
    rw [Digraph.idxOf_append (by simp)]
    simp [List.idxOf_append_of_notMem unknown]
  have fresh : ∀ other ∈ inner, other ∉ before := by
    intro other isInner isOld
    have apart := (List.nodup_append.mp isDeep.trail.unique).2.2
    exact apart other (List.mem_append_left _ isOld) other (perm.mem_iff.mpr isInner) rfl
  refine ⟨represents, trail, grows.discovered.subset here.known, ?_, ?_, ?_, low⟩
  · simp only [List.mem_cons, List.mem_append, not_or]
    exact ⟨different, fun isInner => fresh vertex isInner here.known, here.unfinished⟩
  · intro other member pending
    simp only [List.mem_cons, List.mem_append, not_or] at member pending
    rw [← perm.mem_iff] at pending
    have isOld : other ∈ before := by tauto
    rw [grows.idxOf isOld, grows.idxOf here.known]
    exact here.top other isOld pending.2.2
  · exact here.link.visit here.known edge unknown
      (fun other _ isNew => own ▸ grows.length_le_idxOf isNew) isDeep.link grows shut

end At

/-- The search goes on from a vertex depth first, and comes back to it with all of
its edges used. -/
theorem exists_drive (inside : (Digraph.ofSuccessors graph).Closed)
    {starts before after new : List Nat}
    (traversal : DepthFirst (Digraph.ofSuccessors graph).next starts before after new)
    {used : List Nat} (here : At graph search before finished closed vertex used number)
    (split : (Digraph.ofSuccessors graph).next vertex = used ++ starts) (calls : List Frame) :
    ∃ final later least,
      drive graph search ((vertex, used.length) :: calls) = drive graph final
        ((vertex, ((Digraph.ofSuccessors graph).next vertex).length) :: calls) ∧
      At graph final after (new ++ finished) later vertex
        ((Digraph.ofSuccessors graph).next vertex) least ∧
      Grows before closed after later ∧
      ∀ other ∈ before, other ≠ vertex → final.low[other]? = search.low[other]? := by
  induction traversal generalizing search finished closed vertex used number calls with
  | done =>
      rw [List.append_nil] at split
      rw [split]
      exact ⟨search, closed, number, rfl, here, .refl _ _, fun _ _ _ => rfl⟩
  | @skip start starts before after new known rest ih =>
      have edge : start ∈ (Digraph.ofSuccessors graph).next vertex := by simp [split]
      have bound := here.represents.inside vertex here.known
      have isKnown : search.index[start]? = some (some (before.idxOf start)) := by
        rw [here.represents.index start (here.represents.inside start known), if_pos known]
      obtain ⟨middle, least, met, there, low⟩ := here.meet edge known
      obtain ⟨final, later, least, driven, isFinal, grows, lows⟩ :=
        ih there (by simp [split]) calls
      refine ⟨final, later, least, ?_, isFinal, grows, fun other isOld different =>
        (lows other isOld different).trans (low other different)⟩
      rw [drive_of_meet bound split isKnown met, ← driven, List.length_append]
      rfl
  | @visit start starts before middle after inner outer unknown inwards _ ihInner ihOuter =>
      have edge : start ∈ (Digraph.ofSuccessors graph).next vertex := by simp [split]
      have bound := here.represents.inside vertex here.known
      have startBound : start < graph.size := List.mem_range.mp
        (inside.inside vertex (List.mem_range.mpr bound) start edge)
      have isUnknown : search.index[start]? = some none := by
        rw [here.represents.index start startBound, if_neg unknown]
      have led : ∀ source ∈ before, source ∉ finished →
          Walk.Reaches (Digraph.ofSuccessors graph).next source start :=
        fun source isOld pending => (here.trail.forth source isOld pending vertex here.known
          (here.top source isOld pending)).tail edge
      have different : vertex ≠ start := fun same => unknown (same ▸ here.known)
      obtain ⟨entered, enters, isEntered, lowEntered⟩ :=
        At.enter here.represents here.trail startBound unknown led
      obtain ⟨deep, between, reached, drivenIn, isDeep, growsIn, lowIn⟩ :=
        ihInner isEntered rfl ((vertex, used.length + 1) :: calls)
      have grown := (Grows.enter before closed start).trans growsIn
      obtain ⟨left, later, leaves, represents, trail, shut, lowLeft⟩ := isDeep.leave
        inwards.starts_discovered ((vertex, used.length + 1) :: calls) (by
          rintro frame ⟨⟩
          exact ⟨grown.discovered.subset here.known, different⟩)
      have grows := grown.leave unknown shut
      have sameLow : deep.low[vertex]? = some number := by
        rw [lowIn vertex (List.mem_append_left _ here.known) different,
          lowEntered vertex different, here.low]
      obtain ⟨found, rfl, perm⟩ := inwards.exists_found
      have there := here.resume edge unknown perm isDeep grows shut represents trail
        (by rw [lowLeft, sameLow]; simp)
      obtain ⟨final, last, least, driven, isFinal, growsOut, lows⟩ :=
        ihOuter there (by simp [split]) calls
      refine ⟨final, last, least, ?_, by simpa using isFinal, grows.trans growsOut, ?_⟩
      · rw [drive_of_enter bound split isUnknown enters]
        refine drivenIn.trans ((drive_of_leave startBound leaves).trans ?_)
        rw [← driven, List.length_append]
        rfl
      · intro other isOld distinct
        have notStart : other ≠ start := fun same => unknown (same ▸ isOld)
        rw [lows other (grows.discovered.subset isOld) distinct, lowLeft,
          if_neg (by simpa using distinct), lowIn other (List.mem_append_left _ isOld) notStart,
          lowEntered other notStart]

theorem exists_starts (inside : (Digraph.ofSuccessors graph).Closed)
    {starts before after new : List Nat}
    (traversal : DepthFirst (Digraph.ofSuccessors graph).next starts before after new)
    (within : ∀ start ∈ starts, start < graph.size)
    (represents : Represents graph search before closed)
    (trail : (Digraph.ofSuccessors graph).Trail before finished closed)
    (idle : ∀ vertex ∈ before, vertex ∈ finished) :
    ∃ final later, starts.foldlM (start graph) search = some final ∧
      Represents graph final after later ∧
      (Digraph.ofSuccessors graph).Trail after (new ++ finished) later := by
  induction traversal generalizing search finished closed with
  | done => exact ⟨search, closed, rfl, represents, trail⟩
  | @skip first starts before after new known rest ih =>
      have isKnown : search.index[first]? = some (some (before.idxOf first)) := by
        rw [represents.index first (represents.inside first known), if_pos known]
      have skips : start graph search first = some search := by simp [start, isKnown]
      obtain ⟨final, later, folded, isFinal⟩ :=
        ih (fun other member => within other (List.mem_cons_of_mem first member)) represents trail idle
      exact ⟨final, later, by rw [List.foldlM_cons, skips]; exact folded, isFinal⟩
  | @visit first starts before middle after inner outer unknown inwards rest _ ih =>
      have bound := within first List.mem_cons_self
      have isUnknown : search.index[first]? = some none := by
        rw [represents.index first bound, if_neg unknown]
      obtain ⟨entered, enters, isEntered, _⟩ := At.enter represents trail bound unknown
        fun source isOld pending => absurd (idle source isOld) pending
      obtain ⟨deep, between, reached, driven, isDeep, _⟩ :=
        exists_drive inside inwards isEntered rfl []
      obtain ⟨left, later, leaves, isLeft, trailLeft, _⟩ :=
        isDeep.leave inwards.starts_discovered [] (by simp)
      have starts : start graph search first = some left := by
        have ends := driven.trans (drive_of_leave bound leaves)
        rw [drive] at ends
        simpa [start, isUnknown, enters] using ends
      obtain ⟨found, rfl, perm⟩ := inwards.exists_found
      obtain ⟨final, last, folded, isFinal, trailFinal⟩ :=
        ih (fun other member => within other (List.mem_cons_of_mem first member)) isLeft trailLeft
          fun vertex member => by
            have all := idle vertex
            have new := perm.mem_iff (a := vertex)
            simp only [List.mem_append, List.mem_cons, List.not_mem_nil] at member all ⊢
            tauto
      exact ⟨final, last, by rw [List.foldlM_cons, starts]; exact folded, isFinal,
        by simpa using trailFinal⟩

end MemoGraph.LowLinks
