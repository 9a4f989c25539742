import MemoGraph.Proofs.Evaluator.Histories

namespace MemoGraph

/-- A time in the life of an evaluator: it is at rest, or it evaluates roots and
some of its keys are to be stepped next. -/
inductive Moment (κ ν φ : Type) [Key κ] where
  | rest (evaluator : Evaluator κ ν φ)
  | underway (registry : Registry κ ν φ) (roots : List κ) (evaluator : Evaluator κ ν φ)
      (now : Round κ ν φ × List κ)

namespace Moment

variable {κ ν φ : Type} [Key κ]

def graph : Moment κ ν φ → Graph κ ν φ
  | .rest evaluator => evaluator.graph
  | .underway _ _ _ now => now.1.graph

def version : Moment κ ν φ → Version
  | .rest evaluator => evaluator.version
  | .underway _ _ _ now => now.1.version

def log : Moment κ ν φ → Array (Signal κ φ)
  | .rest evaluator => evaluator.log
  | .underway _ _ _ now => now.1.log

def result? (moment : Moment κ ν φ) (key : κ) : Option (Result κ ν φ) := moment.graph.result? key

variable [BEq ν]

/-- What can happen next, unless the graph is pruned. An evaluation makes one
move, ends, or is cut short; in any case nothing else happens before it is over. -/
inductive Next : Moment κ ν φ → Moment κ ν φ → Prop
  | inject (evaluator : Evaluator κ ν φ) (key : κ) (value : ν) :
      Next (.rest evaluator) (.rest (evaluator.inject key value).1)
  | invalidate (evaluator : Evaluator κ ν φ) (keys : List κ) :
      Next (.rest evaluator) (.rest (evaluator.invalidate keys).1)
  | interrupt (evaluator : Evaluator κ ν φ) : Next (.rest evaluator) (.rest evaluator.interrupt)
  | begin (registry : Registry κ ν φ) (roots : List κ) (evaluator : Evaluator κ ν φ)
      {ready : List κ} (order : ready.Perm ((evaluator.opening roots).begin (distinct roots)).2) :
      Next (.rest evaluator) (.underway registry roots evaluator
        (((evaluator.opening roots).begin (distinct roots)).1, ready))
  | cached (registry : Registry κ ν φ) {roots : List κ} {evaluator : Evaluator κ ν φ}
      (nothing : ((evaluator.opening roots).begin (distinct roots)).2 = []) :
      Next (.rest evaluator) (.rest (evaluator.retryTransient.closeRound
        ((evaluator.opening roots).begin (distinct roots)).1 .complete))
  | move {registry : Registry κ ν φ} {roots : List κ} {evaluator : Evaluator κ ν φ}
      {now later : Round κ ν φ × List κ}
      (move : Round.Advance registry (distinct roots) now later) :
      Next (.underway registry roots evaluator now) (.underway registry roots evaluator later)
  | finish {registry : Registry κ ν φ} {roots : List κ} {evaluator : Evaluator κ ν φ}
      {last : Round κ ν φ} (going : last.interrupted = false)
      (finished : (last.breakDeadlock (distinct roots)).2 = []) :
      Next (.underway registry roots evaluator (last, []))
        (.rest (evaluator.retryTransient.closeRound
          (last.breakDeadlock (distinct roots)).1 .complete))
  | cut {registry : Registry κ ν φ} {roots : List κ} {evaluator : Evaluator κ ν φ}
      {now : Round κ ν φ × List κ} {halt : Round.Halt} (short : halt ≠ .complete) :
      Next (.underway registry roots evaluator now)
        (.rest (evaluator.retryTransient.closeRound now.1.rollBack halt))

/-- A time in the life of an evaluator that was new once. -/
def Reached : Moment κ ν φ → Prop
  | .rest evaluator => Evaluator.Reachable evaluator
  | .underway registry roots evaluator now =>
      Evaluator.Reachable evaluator ∧ Evaluator.ComesTo registry evaluator roots now

variable {before after : Moment κ ν φ} {evaluator : Evaluator κ ν φ}

theorem Reached.next (reached : before.Reached) (next : Next before after) : after.Reached := by
  cases next with
  | inject evaluator key value => exact Evaluator.Reachable.turn reached (.inject evaluator key value)
  | invalidate evaluator keys => exact Evaluator.Reachable.turn reached (.invalidate evaluator keys)
  | interrupt evaluator => exact Evaluator.Reachable.turn reached (.interrupt evaluator)
  | begin registry roots evaluator order => exact ⟨reached, _, order, .refl⟩
  | cached registry nothing =>
      exact Evaluator.Reachable.turn reached (.evaluate registry (.intro (.cached nothing)))
  | move move =>
      obtain ⟨reachable, ready, order, moves⟩ := reached
      exact ⟨reachable, ready, order, moves.tail move⟩
  | @finish registry roots evaluator last going finished =>
      obtain ⟨reachable, ready, order, moves⟩ := reached
      exact reachable.turn (.evaluate registry (.intro (.complete order moves going finished)))
  | @cut registry roots evaluator now halt short =>
      obtain ⟨reachable, ready, order, moves⟩ := reached
      exact reachable.turn (.evaluate registry (.intro (.cut order moves short)))

theorem next_of_evaluates {registry : Registry κ ν φ} {after : Evaluator κ ν φ} {roots : List κ}
    {answer : Except Evaluator.Stop (Results κ ν φ)}
    (evaluates : Evaluator.Evaluates registry evaluator roots after answer) :
    Relation.ReflTransGen Next (.rest evaluator) (.rest after) := by
  have moves : ∀ {now later : Round κ ν φ × List κ},
      Round.Advances registry (distinct roots) now later →
        Relation.ReflTransGen Next (.underway registry roots evaluator now)
          (.underway registry roots evaluator later) := by
    intro now later advances
    induction advances with
    | refl => exact .refl
    | tail _ move ih => exact ih.tail (.move move)
  obtain ⟨ends⟩ := evaluates
  cases ends with
  | cached nothing => exact .single (.cached registry nothing)
  | complete order advances going finished =>
      exact (Relation.ReflTransGen.head (.begin registry roots evaluator order)
        (moves advances)).tail (.finish going finished)
  | cut order advances short =>
      exact (Relation.ReflTransGen.head (.begin registry roots evaluator order)
        (moves advances)).tail (.cut short)

end Moment

end MemoGraph
