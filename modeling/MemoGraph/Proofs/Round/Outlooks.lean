import MemoGraph.Proofs.Computation.Strict
import MemoGraph.Proofs.Round.Establishing

namespace MemoGraph

/-- What is to become of a key as long as no other key gets a result. -/
inductive Outlook (κ β : Type) where
  | settles (result : β)
  /-- It has asked for what is recorded, and waits for the given keys. -/
  | waits (recorded : Grouping κ) (keys : List κ)

namespace Outlook

variable {κ α β : Type} {outlook : Outlook κ α} {change : α → β}

def map (change : α → β) : Outlook κ α → Outlook κ β
  | .settles result => .settles (change result)
  | .waits recorded keys => .waits recorded keys

theorem settles_of_map {result : β} (settles : outlook.map change = .settles result) :
    ∃ given, outlook = .settles given ∧ change given = result := by
  cases outlook with
  | settles given => cases settles; exact ⟨given, rfl, rfl⟩
  | waits => cases settles

theorem waits_of_map {recorded : Grouping κ} {keys : List κ}
    (waits : outlook.map change = .waits recorded keys) : outlook = .waits recorded keys := by
  cases outlook with
  | settles given => cases waits
  | waits => cases waits; rfl

end Outlook

/-- The node without the work on it and those who need it. -/
def Node.bare {κ ν φ : Type} (node : Node κ ν φ) : Node κ ν φ :=
  { node with dependents := [], work := none }

namespace Graph

/-! What the results in a graph decide about one further key.

Outlooks only become clearer: a key that has something to settle for with few
results settles for the same with more, and one that waits goes on to wait for
those of the same keys that still have no results.
-/

variable {κ ν φ : Type} [Key κ]

def lacks (graph : Graph κ ν φ) (key : κ) : Bool := (graph.result? key).isNone

/-- The outlook of a key that is computed. -/
def computing (registry : Registry κ ν φ) (graph : Graph κ ν φ) (key : κ) :
    Outlook κ (Result κ ν φ × Grouping κ) :=
  match registry.function? key with
  | none => .settles (.error (Round.unregistered registry key), .empty)
  | some function =>
      let (attempt, outcome) := Attempt.run graph.result? key (function 0) {}
      match attempt.verdict graph key outcome with
      | .commit result dependencies _ => .settles (result, dependencies)
      | .restart => .waits attempt.requested attempt.missing

variable [BEq ν]

/-- The node of a computed key, and whether it is to be attempted again. -/
def committing (version : Version) (node : Node κ ν φ) :
    Result κ ν φ × Grouping κ → Node κ ν φ × Bool
  | (result, dependencies) => (node.commit version result dependencies, Round.isTransient result)

/-- The outlook of a key of which some groups of dependencies are to be checked. -/
def checking (registry : Registry κ ν φ) (version : Version) (graph : Graph κ ν φ) (key : κ)
    (node : Node κ ν φ) : List (List κ) → Outlook κ (Node κ ν φ × Bool)
  | [] => .settles (node.revalidate version, false)
  | group :: rest =>
      match group.filter graph.lacks with
      | [] =>
          if group.any fun dependency =>
              node.lastEvaluated < (graph.nodeAt dependency).lastChanged then
            (graph.computing registry key).map (committing version node)
          else checking registry version graph key node rest
      | unsettled => .waits node.dependencies unsettled

/-- The outlook of a key that has the given node before it is taken up. -/
def outlook (registry : Registry κ ν φ) (version : Version) (graph : Graph κ ν φ) (key : κ)
    (node : Node κ ν φ) : Outlook κ (Node κ ν φ × Bool) :=
  match node.memo with
  | .dirty _ => graph.checking registry version key node node.dependencies.groups
  | _ => (graph.computing registry key).map (committing version node)

section Computing

omit [BEq ν]

variable {registry : Registry κ ν φ} {before after graph : Graph κ ν φ} {key : κ}

theorem lacks_eq (graph : Graph κ ν φ) (key : κ) :
    graph.lacks key = !(graph.nodeAt key).isSettled := by
  unfold lacks
  rw [result?_eq, Node.isSettled]
  cases (graph.nodeAt key).result? <;> rfl

/-- Whatever has a result has the same one later. -/
def Grows (before after : Graph κ ν φ) : Prop :=
  ∀ key result, before.result? key = some result → after.result? key = some result

theorem Extends.grows (extended : before.Extends after) : before.Grows after := by
  intro key result found
  rw [result?_eq] at found ⊢
  exact extended.result? found

theorem Grows.lacks (grows : before.Grows after) (key : κ) (lacks : after.lacks key = true) :
    before.lacks key = true := by
  unfold Graph.lacks at lacks ⊢
  cases found : before.result? key with
  | none => rfl
  | some result =>
      rw [grows key result found] at lacks
      cases lacks

theorem firstUnhandled?_congr {requested : Grouping κ} {handlers : List (κ × Handler φ)}
    (same : ∀ dependency ∈ requested, before.result? dependency = after.result? dependency) :
    firstUnhandled? before requested handlers = firstUnhandled? after requested handlers := by
  unfold firstUnhandled?
  have failures : ∀ dependency ∈ requested.keys,
      before.failure? dependency = after.failure? dependency := by
    intro dependency member
    unfold failure?
    rw [same dependency member]
  generalize requested.keys = keys at failures
  induction keys with
  | nil => rfl
  | cons first rest ih =>
      rw [List.findSome?_cons, List.findSome?_cons, failures first List.mem_cons_self,
        ih fun dependency member => failures dependency (List.mem_cons_of_mem first member)]

theorem verdict_congr {attempt : Attempt κ φ} (outcome : Outcome ν φ)
    (same : ∀ dependency ∈ attempt.requested,
      before.result? dependency = after.result? dependency) :
    attempt.verdict before key outcome = attempt.verdict after key outcome := by
  unfold Attempt.verdict Attempt.verdict.blame
  rw [firstUnhandled?_congr same]

/-- The blame falls on the first failure that no handler accepts. -/
theorem covered_of_handled {requested : Grouping κ} {handlers : List (κ × Handler φ)}
    (covered : Attempt.Covered graph.result? requested handlers) :
    firstUnhandled? graph requested handlers = none := by
  unfold firstUnhandled?
  refine List.findSome?_eq_none_iff.mpr fun dependency member => ?_
  unfold failure?
  cases found : graph.result? dependency with
  | none => rfl
  | some result =>
      cases result with
      | ok value => rfl
      | error failure => simp [covered dependency member failure found]

theorem verdict_of_missing {attempt : Attempt κ φ} (short : attempt.missing ≠ []) :
    attempt.verdict graph key (.refused .incomplete) = .restart := by
  obtain ⟨first, rest, missing⟩ := List.exists_cons_of_ne_nil short
  simp [Attempt.verdict, missing]

theorem verdict_of_unhandled {attempt : Attempt κ φ} {dependency : κ} {cause : Failure κ φ}
    (missing : attempt.missing = []) (short : attempt.isShort = true)
    (unhandled : firstUnhandled? graph attempt.requested attempt.handlers =
      some (dependency, cause)) :
    attempt.verdict graph key (.refused .incomplete) =
      .commit (.error (.dependency key dependency cause)) attempt.requested [] := by
  unfold Attempt.isShort at short
  rw [missing, List.isEmpty_nil, Bool.not_true, Bool.false_or] at short
  obtain ⟨first, found⟩ := Option.isSome_iff_exists.mp short
  simp [Attempt.verdict, Attempt.verdict.blame, missing, found, unhandled]

section Strict

variable (strict : registry.Strict) {function : Nat → Computation κ ν φ}
  (registered : registry.function? key = some function)
include strict registered

variable (graph) in
theorem restart_of_missing
    (short : (Attempt.run graph.result? key (function 0) {}).1.missing ≠ []) :
    (Attempt.run graph.result? key (function 0) {}).1.verdict graph key
      (Attempt.run graph.result? key (function 0) {}).2 = .restart := by
  have isShort : (Attempt.run graph.result? key (function 0) {}).1.isShort = true := by
    unfold Attempt.isShort
    simp [short]
  rw [Attempt.outcome_of_strict (strict.computation registered) rfl isShort]
  exact verdict_of_missing short

theorem resumes_of_grows (grows : before.Grows after) :
    Attempt.Resumes after.result? (Attempt.run before.result? key (function 0) {})
      (Attempt.run after.result? key (function 0) {}) :=
  Attempt.resumes_run (strict.computation registered) grows key

end Strict

theorem computing_of_run {function : Nat → Computation κ ν φ}
    (registered : registry.function? key = some function) :
    graph.computing registry key =
      match (Attempt.run graph.result? key (function 0) {}).1.verdict graph key
        (Attempt.run graph.result? key (function 0) {}).2 with
      | .commit result dependencies _ => .settles (result, dependencies)
      | .restart => .waits (Attempt.run graph.result? key (function 0) {}).1.requested
          (Attempt.run graph.result? key (function 0) {}).1.missing := by
  unfold computing
  rw [registered]

/-- What a key settles for does not change when there are more results. -/
theorem computing_settles (strict : registry.Strict) (grows : before.Grows after)
    {settled : Result κ ν φ × Grouping κ}
    (settles : before.computing registry key = .settles settled) :
    after.computing registry key = .settles settled := by
  cases registered : registry.function? key with
  | none =>
      unfold computing at settles ⊢
      rw [registered] at settles ⊢
      exact settles
  | some function =>
      have resumes := resumes_of_grows strict registered grows
      have faithful := Attempt.faithful_run before.result? key (function 0)
      have repeats := restart_of_missing before strict registered
      rw [computing_of_run registered] at settles ⊢
      generalize Attempt.run before.result? key (function 0) {} = first at *
      obtain ⟨attempt, outcome⟩ := first
      simp only at *
      have missing : attempt.missing = [] := by
        by_contra short
        rw [repeats short] at settles
        cases settles
      rw [resumes.same missing]
      have same : ∀ dependency ∈ attempt.requested,
          before.result? dependency = after.result? dependency := by
        intro dependency member
        cases found : before.result? dependency with
        | some result => exact (grows dependency result found).symm
        | none =>
            have listed := (faithful.mem_missing dependency).mpr ⟨member, found⟩
            rw [missing] at listed
            cases listed
      rw [← verdict_congr outcome same]
      exact settles

/-- What a key waits for shrinks as there are more results. -/
theorem computing_waits (strict : registry.Strict) (grows : before.Grows after)
    {recorded : Grouping κ} {keys : List κ}
    (waits : before.computing registry key = .waits recorded keys) :
    (∀ dependency ∈ keys, after.lacks dependency = false) ∨
      after.computing registry key = .waits recorded (keys.filter after.lacks) := by
  cases registered : registry.function? key with
  | none =>
      unfold computing at waits
      rw [registered] at waits
      cases waits
  | some function =>
      have resumes := resumes_of_grows strict registered grows
      have repeats := restart_of_missing after strict registered
      rw [computing_of_run registered] at waits ⊢
      generalize Attempt.run before.result? key (function 0) {} = first at *
      generalize Attempt.run after.result? key (function 0) {} = second at *
      cases verdict : first.1.verdict before key first.2 with
      | commit =>
          rw [verdict] at waits
          cases waits
      | restart =>
          rw [verdict] at waits
          cases waits
          rcases resumes.stopped (verdict_restart verdict) with
            ⟨requested, _, missing, _⟩ | ⟨settled, _⟩
          · have lacks : second.1.missing = first.1.missing.filter after.lacks := missing
            by_cases short : second.1.missing = []
            · left
              rw [short, eq_comm, List.filter_eq_nil_iff] at lacks
              exact fun dependency member => eq_false_of_ne_true (lacks dependency member)
            · right
              rw [repeats short, requested, lacks]
          · left
            intro dependency member
            unfold Graph.lacks
            rw [← Option.not_isSome, settled dependency member]
            rfl

end Computing

section Extends

omit [BEq ν]

variable {registry : Registry κ ν φ} {before after : Graph κ ν φ} {key : κ}

theorem extends_filter_lacks (extended : before.Extends after) {group : List κ} :
    group.filter after.lacks = (group.filter before.lacks).filter after.lacks := by
  rw [List.filter_filter]
  refine List.filter_congr fun dependency _ => ?_
  cases lacks : after.lacks dependency with
  | false => rfl
  | true => rw [extended.grows.lacks dependency lacks]; rfl

theorem any_changed_congr (extended : before.Extends after) {group : List κ} {since : Version}
    (settled : group.filter before.lacks = []) :
    (group.any fun dependency => since < (after.nodeAt dependency).lastChanged) =
      group.any fun dependency => since < (before.nodeAt dependency).lastChanged := by
  rw [List.filter_eq_nil_iff] at settled
  rw [Bool.eq_iff_iff, List.any_eq_true, List.any_eq_true]
  refine exists_congr fun dependency => and_congr_right fun member => ?_
  have present := settled dependency member
  rw [lacks_eq, Bool.not_eq_true, Bool.not_eq_false'] at present
  rw [(extended dependency present).lastChanged]

theorem map_computing_settles (strict : registry.Strict) (extended : before.Extends after)
    {change : Result κ ν φ × Grouping κ → Node κ ν φ × Bool} {settled : Node κ ν φ × Bool}
    (settles : (before.computing registry key).map change = .settles settled) :
    (after.computing registry key).map change = .settles settled := by
  obtain ⟨given, computed, rfl⟩ := Outlook.settles_of_map settles
  rw [computing_settles strict extended.grows computed]
  rfl

theorem map_computing_waits (strict : registry.Strict) (extended : before.Extends after)
    {change : Result κ ν φ × Grouping κ → Node κ ν φ × Bool} {recorded : Grouping κ}
    {keys : List κ} (waits : (before.computing registry key).map change = .waits recorded keys) :
    (∀ dependency ∈ keys, after.lacks dependency = false) ∨
      (after.computing registry key).map change = .waits recorded (keys.filter after.lacks) := by
  refine (computing_waits strict extended.grows (Outlook.waits_of_map waits)).imp_right fun still => ?_
  rw [still]
  rfl

end Extends

section Outlook

variable {registry : Registry κ ν φ} {before after : Graph κ ν φ} {key : κ} {version : Version}
  {node : Node κ ν φ}

theorem outlook_settles (strict : registry.Strict) (extended : before.Extends after)
    {settled : Node κ ν φ × Bool}
    (settles : before.outlook registry version key node = .settles settled) :
    after.outlook registry version key node = .settles settled := by
  unfold outlook at settles ⊢
  split at settles
  · generalize node.dependencies.groups = groups at settles ⊢
    induction groups with
    | nil => exact settles
    | cons group rest ih =>
        unfold checking at settles ⊢
        cases lacking : group.filter before.lacks with
        | cons => rw [lacking] at settles; cases settles
        | nil =>
            rw [extends_filter_lacks extended, lacking, any_changed_congr extended lacking]
            rw [lacking] at settles
            simp only [List.filter_nil] at settles ⊢
            split
            · rename_i changed
              rw [if_pos changed] at settles
              exact map_computing_settles strict extended settles
            · rename_i unchanged
              rw [if_neg unchanged] at settles
              exact ih settles
  · exact map_computing_settles strict extended settles

theorem outlook_waits (strict : registry.Strict) (extended : before.Extends after)
    {recorded : Grouping κ} {keys : List κ}
    (waits : before.outlook registry version key node = .waits recorded keys) :
    (∀ dependency ∈ keys, after.lacks dependency = false) ∨
      after.outlook registry version key node = .waits recorded (keys.filter after.lacks) := by
  unfold outlook at waits ⊢
  split at waits
  · generalize node.dependencies.groups = groups at waits ⊢
    induction groups with
    | nil => cases waits
    | cons group rest ih =>
        unfold checking at waits ⊢
        rw [extends_filter_lacks extended]
        cases lacking : group.filter before.lacks with
        | cons first others =>
            rw [lacking] at waits
            cases waits
            cases still : (first :: others).filter after.lacks with
            | nil =>
                left
                rw [List.filter_eq_nil_iff] at still
                exact fun dependency member => eq_false_of_ne_true (still dependency member)
            | cons => exact .inr rfl
        | nil =>
            rw [any_changed_congr extended lacking]
            rw [lacking] at waits
            simp only [List.filter_nil] at waits ⊢
            split
            · rename_i changed
              rw [if_pos changed] at waits
              exact map_computing_waits strict extended waits
            · rename_i unchanged
              rw [if_neg unchanged] at waits
              exact ih waits
  · exact map_computing_waits strict extended waits

end Outlook

end Graph

end MemoGraph
