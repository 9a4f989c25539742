import Mathlib.Data.List.Chain
import Mathlib.Logic.Relation

namespace MemoGraph

variable {α : Type} {edge other : α → α → Prop} {start : α} {items rest : List α}

/-- Each item leads to the next one, and the last to the first. -/
def Circle (edge : α → α → Prop) : List α → Prop
  | [] => False
  | first :: rest => List.IsChain edge (first :: (rest ++ [first]))

/-- A circle from `start` on that passes nothing twice, and no circle from there
is shorter. -/
structure ShortestCircle (edge : α → α → Prop) (start : α) (items : List α) : Prop where
  circle : Circle edge items
  first : items.head? = some start
  unique : items.Nodup
  shortest : ∀ others, Circle edge others → others.head? = some start →
    items.length ≤ others.length

/-- A way from the start, the latest item first. -/
inductive Trail (edge : α → α → Prop) (start : α) : List α → Prop
  | start : Trail edge start [start]
  | onward {vertex target : α} {path : List α} (trail : Trail edge start (vertex :: path))
      (step : edge vertex target) : Trail edge start (target :: vertex :: path)

theorem trail_iff {path : List α} : Trail edge start path ↔
    path.IsChain (fun target source => edge source target) ∧ path.getLast? = some start := by
  constructor
  · intro trail
    induction trail with
    | start => exact ⟨.singleton start, rfl⟩
    | onward _ step ih =>
        exact ⟨.cons_cons step ih.1, (List.getLast?_cons_cons ..).trans ih.2⟩
  · rintro ⟨chain, last⟩
    induction chain with
    | nil => cases last
    | singleton vertex =>
        obtain rfl : vertex = start := Option.some.inj last
        exact .start
    | cons_cons step _ ih => exact .onward (ih ((List.getLast?_cons_cons ..).symm.trans last)) step

theorem Trail.forall_mem {path : List α} {holds : α → Prop} (trail : Trail edge start path)
    (first : holds start) (keep : ∀ source target, holds source → edge source target → holds target) :
    ∀ item ∈ path, holds item := by
  induction trail with
  | start => exact List.forall_mem_singleton.mpr first
  | onward _ step ih =>
      exact List.forall_mem_cons.mpr ⟨keep _ _ (ih _ List.mem_cons_self) step, ih⟩

theorem circle_iff_trail :
    Circle edge (start :: rest) ↔ Trail edge start (start :: (start :: rest).reverse) := by
  have reversed : start :: (start :: rest).reverse = (start :: (rest ++ [start])).reverse := by simp
  rw [trail_iff, reversed, List.isChain_reverse, List.getLast?_reverse]
  exact (and_iff_left rfl).symm

/-- A circle, walked from its start, is a trail whose last item leads back. -/
theorem Circle.exists_trail (circle : Circle edge (start :: rest)) :
    ∃ last earlier, (start :: rest).reverse = last :: earlier ∧
      Trail edge start (last :: earlier) ∧ edge last start := by
  have trail := circle_iff_trail.mp circle
  cases reversed : (start :: rest).reverse with
  | nil => simp at reversed
  | cons last earlier =>
      rw [reversed] at trail
      cases trail with
      | onward trail back => exact ⟨last, earlier, rfl, trail, back⟩

theorem Trail.exists_circle {last : α} {earlier : List α}
    (trail : Trail edge start (last :: earlier)) (back : edge last start) :
    ∃ rest, (last :: earlier).reverse = start :: rest ∧ Circle edge (start :: rest) := by
  obtain ⟨rest, reversed⟩ : ∃ rest, (last :: earlier).reverse = start :: rest := by
    rw [← List.head?_eq_some_iff, List.head?_reverse]
    exact (trail_iff.mp trail).2
  refine ⟨rest, reversed, circle_iff_trail.mpr ?_⟩
  rw [← reversed, List.reverse_reverse]
  exact trail.onward back

theorem Circle.imp_of_mem (circle : Circle edge items)
    (keep : ∀ item ∈ items, ∀ next ∈ items, edge item next → other item next) :
    Circle other items := by
  cases items with
  | nil => exact circle
  | cons first rest =>
      refine List.IsChain.imp_of_mem_imp (fun item next isItem isNext => ?_) circle
      have inside : ∀ {item}, item ∈ first :: (rest ++ [first]) → item ∈ first :: rest := by
        intro item member
        simpa [or_comm] using member
      exact keep item (inside isItem) next (inside isNext)

/-- Whatever is on a circle is reached from its first item, and leads back to it. -/
theorem Circle.connected (circle : Circle edge (start :: rest)) {item : α}
    (member : item ∈ start :: rest) :
    Relation.ReflTransGen edge start item ∧ Relation.ReflTransGen edge item start := by
  have reaches : (start :: (rest ++ [start])).Pairwise (Relation.ReflTransGen edge) :=
    (List.IsChain.imp (fun _ _ => .single) circle).pairwise
  obtain ⟨forth, back⟩ := List.pairwise_cons.mp reaches
  rcases List.mem_cons.mp member with rfl | inRest
  · exact ⟨.refl, .refl⟩
  · exact ⟨forth item (List.mem_append_left _ inRest),
      (List.pairwise_append.mp back).2.2 item inRest start (List.mem_singleton.mpr rfl)⟩

theorem exists_circle (cycle : Relation.TransGen edge start start) :
    ∃ rest, Circle edge (start :: rest) := by
  obtain ⟨next, step, back⟩ := Relation.TransGen.head'_iff.mp cycle
  obtain ⟨others, chain, last⟩ := List.exists_isChain_cons_of_relationReflTransGen back
  refine ⟨(next :: others).dropLast, ?_⟩
  show List.IsChain edge (start :: ((next :: others).dropLast ++ [start]))
  rw [← last, List.dropLast_append_getLast, last]
  exact .cons_cons step chain

end MemoGraph
