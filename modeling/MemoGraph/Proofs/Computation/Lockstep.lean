import MemoGraph.Proofs.Computation.Strict

namespace MemoGraph

variable {κ ν φ : Type} [DecidableEq κ]

namespace Grouping

/-- The record goes on where the other one ends. -/
def Continues (before after : Grouping κ) : Prop := before.groups <+: after.groups

theorem continues_push (grouping : Grouping κ) (keys : List κ) :
    grouping.Continues (grouping.push keys) := by
  unfold Continues
  rw [groups_push]
  split
  · exact List.prefix_refl _
  · exact List.prefix_append ..

omit [DecidableEq κ] in
theorem Continues.getElem? {before after : Grouping κ} (continues : before.Continues after)
    {index : Nat} {group : List κ} (found : before.groups[index]? = some group) :
    after.groups[index]? = some group := by
  obtain ⟨rest, same⟩ := continues
  have inside := (List.getElem?_eq_some_iff.mp found).1
  rw [← same, List.getElem?_append_left inside, found]

omit [DecidableEq κ] in
theorem Continues.exists_group {before after : Grouping κ} (continues : before.Continues after)
    {key : κ} (member : key ∈ before) : ∃ index < before.groups.length, ∃ group,
      after.groups[index]? = some group ∧ key ∈ group := by
  have listed : key ∈ before.groups.flatten := by
    rw [flatten_groups]
    exact member
  obtain ⟨group, isGroup, inGroup⟩ := List.mem_flatten.mp listed
  obtain ⟨index, found⟩ := List.mem_iff_getElem?.mp isGroup
  exact ⟨index, (List.getElem?_eq_some_iff.mp found).1, group, continues.getElem? found, inGroup⟩

end Grouping

namespace Attempt

variable {attempt : Attempt κ φ} {results others : κ → Option (Result κ ν φ)}
  {computation : Computation κ ν φ} {key : κ}

theorem continues_run (results : κ → Option (Result κ ν φ)) (key : κ)
    (computation : Computation κ ν φ) (attempt : Attempt κ φ) :
    attempt.requested.Continues (Attempt.run results key computation attempt).1.requested := by
  induction computation generalizing attempt with
  | request keys handler resume ih =>
      have pushed := Grouping.continues_push attempt.requested keys
      have later := ih (attempt.request results keys handler).2
        (attempt.request results keys handler).1
      rw [request_requested] at later
      exact pushed.trans later
  | inspect resume ih => exact ih _ attempt
  | report severity message rest ih =>
      exact ih { attempt with events := attempt.events ++ [⟨severity, key, message⟩] }
  | interrupt rest ih => exact ih { attempt with interrupts := true }
  | finish outcome => exact List.prefix_refl _

/-- Runs that are given the same results for what both of them ask for are the same. -/
theorem run_eq_of_agree
    (agree : ∀ dependency, dependency ∈ (Attempt.run results key computation attempt).1.requested →
      dependency ∈ (Attempt.run others key computation attempt).1.requested →
        results dependency = others dependency) :
    Attempt.run results key computation attempt = Attempt.run others key computation attempt := by
  induction computation generalizing attempt with
  | request keys handler resume ih =>
      have asked : ∀ given : κ → Option (Result κ ν φ), ∀ dependency ∈ keys, dependency ∈
          (Attempt.run given key (.request keys handler resume) attempt).1.requested := by
        intro given dependency member
        have carried : dependency ∈ (attempt.request given keys handler).1.requested := by
          rw [request_requested]
          exact Grouping.mem_push.mpr (.inr member)
        unfold Attempt.run
        exact requested_run key dependency carried
      have same : attempt.request results keys handler = attempt.request others keys handler :=
        answerAll_congr handler fun dependency member =>
          agree dependency (asked results dependency member) (asked others dependency member)
      unfold Attempt.run at agree ⊢
      rw [← same] at agree ⊢
      exact ih _ agree
  | inspect resume ih => exact ih _ agree
  | report severity message rest ih => exact ih agree
  | interrupt rest ih => exact ih agree
  | finish outcome => rfl

/-- What a request misses are the keys without a result among those it adds. -/
theorem missing_answerAll (handler : Option (Handler φ)) (known : List κ) {keys : List κ}
    (listed : ∀ dependency ∈ attempt.missing, dependency ∈ known)
    (present : ∀ dependency ∈ known, dependency ∉ attempt.missing →
      (results dependency).isNone = false) :
    (answerAll results handler attempt keys).1.missing =
      attempt.missing ++ (additions known keys).filter fun dependency =>
        (results dependency).isNone := by
  induction keys generalizing attempt known with
  | nil => simp [answerAll, additions]
  | cons first rest ih =>
      have missing : (attempt.answer handler first (results first)).1.missing =
          if (results first).isNone && first ∉ attempt.missing then attempt.missing ++ [first]
          else attempt.missing := answer_missing handler first (results first)
      show (answerAll results handler (attempt.answer handler first (results first)).1
        rest).1.missing = _
      by_cases isKnown : first ∈ known
      · have nothing : ((results first).isNone && decide (first ∉ attempt.missing)) = false := by
          by_cases inMissing : first ∈ attempt.missing
          · simp [inMissing]
          · rw [present first isKnown inMissing]
            rfl
        rw [nothing, if_neg Bool.false_ne_true] at missing
        rw [additions, if_pos isKnown, ih known (missing ▸ listed) (missing ▸ present), missing]
      · have unlisted : first ∉ attempt.missing := fun inMissing => isKnown (listed first inMissing)
        rw [additions, if_neg isKnown]
        cases isNone : (results first).isNone with
        | true =>
            rw [isNone, decide_eq_true unlisted, Bool.and_self, if_pos rfl] at missing
            refine (ih (first :: known) ?_ ?_).trans ?_
            · intro dependency member
              rw [missing, List.mem_append, List.mem_singleton] at member
              exact List.mem_cons.mpr (member.symm.imp_right (listed dependency))
            · intro dependency member absent
              rw [missing, List.mem_append, List.mem_singleton, not_or] at absent
              exact present dependency ((List.mem_cons.mp member).resolve_left absent.2) absent.1
            · rw [missing, List.filter_cons, if_pos isNone, List.append_assoc]
              rfl
        | false =>
            rw [isNone, Bool.false_and, if_neg Bool.false_ne_true] at missing
            refine (ih (first :: known) ?_ ?_).trans ?_
            · rw [missing]
              exact fun dependency member => List.mem_cons_of_mem first (listed dependency member)
            · rw [missing]
              intro dependency member absent
              rcases List.mem_cons.mp member with rfl | isOld
              · exact isNone
              · exact present dependency isOld absent
            · rw [missing, List.filter_cons, isNone, if_neg Bool.false_ne_true]

theorem missing_request (handler : Option (Handler φ)) (keys : List κ)
    (available : attempt.isShort = false)
    (present : ∀ dependency ∈ attempt.requested, (results dependency).isNone = false) :
    (attempt.request results keys handler).1.missing =
      (additions attempt.requested.keys keys).filter fun dependency =>
        (results dependency).isNone := by
  have nothing : attempt.missing = [] := (isShort_eq_false_iff.mp available).1
  refine (missing_answerAll handler attempt.requested.keys ?_ ?_).trans ?_
  · intro dependency member
    rw [nothing] at member
    cases member
  · exact fun dependency member _ => present dependency member
  · rw [nothing]
    rfl

/-- A run that finds the same results up to a group, and then misses some of it,
waits for what it misses of that group. -/
theorem missing_run_of_group (strict : computation.Strict) (available : attempt.isShort = false)
    {index : Nat} {group : List κ} (early : attempt.requested.groups.length ≤ index)
    (found : (Attempt.run results key computation attempt).1.requested.groups[index]? = some group)
    (upheld : ∀ earlier < index, ∀ keys,
      (Attempt.run results key computation attempt).1.requested.groups[earlier]? = some keys →
        ∀ dependency ∈ keys, results dependency = others dependency ∧
          (others dependency).isNone = false)
    (short : ∃ dependency ∈ group, (others dependency).isNone = true) :
    (Attempt.run others key computation attempt).1.missing =
      group.filter fun dependency => (others dependency).isNone := by
  induction strict generalizing attempt with
  | @request keys handler rest _ ih =>
      have pushed : (attempt.request results keys handler).1.requested =
          attempt.requested.push keys := request_requested keys handler
      have continued : (attempt.requested.push keys).Continues (Attempt.run results key
          (.request keys handler fun answers => (rest answers).check) attempt).1.requested := by
        rw [← pushed]
        unfold Attempt.run
        exact continues_run results key _ _
      have agreed : ∀ record : Grouping κ, record.Continues (Attempt.run results key
          (.request keys handler fun answers => (rest answers).check) attempt).1.requested →
            record.groups.length ≤ index → ∀ dependency ∈ record,
              results dependency = others dependency ∧ (others dependency).isNone = false := by
        intro record continues short dependency member
        obtain ⟨earlier, inside, group, isGroup, inGroup⟩ := continues.exists_group member
        exact upheld earlier (Nat.lt_of_lt_of_le inside short) group isGroup dependency inGroup
      have asked : ∀ dependency ∈ keys, dependency ∈ attempt.requested.push keys :=
        fun dependency member => Grouping.mem_push.mpr (.inr member)
      by_cases later : (attempt.requested.push keys).groups.length ≤ index
      · -- Everything requested here stands before the group.
        have same : attempt.request results keys handler = attempt.request others keys handler :=
          answerAll_congr handler fun dependency member =>
            (agreed _ continued later dependency (asked dependency member)).1
        unfold Attempt.run at found upheld ⊢
        rw [← same]
        cases isShort : (attempt.request results keys handler).1.isShort with
        | true =>
            simp only [Computation.check, Attempt.run, isShort, if_true] at found
            rw [pushed] at found
            exact absurd (List.getElem?_eq_some_iff.mp found).1 (Nat.not_lt_of_le later)
        | false =>
            obtain ⟨missing, unhandled⟩ := isShort_eq_false_iff.mp isShort
            simp only [Computation.check, Attempt.run, isShort, Bool.false_eq_true, if_false]
              at found upheld ⊢
            exact ih _ (answered_of_available missing unhandled) isShort (pushed ▸ later) found upheld
      · -- What is requested here is the group.
        have groups := Grouping.groups_push attempt.requested keys
        have added : additions attempt.requested.keys keys ≠ [] := by
          intro nothing
          rw [groups, if_pos nothing] at later
          exact later early
        rw [if_neg added] at groups
        have last : attempt.requested.groups.length = index := by
          rw [groups, List.length_append, List.length_singleton] at later
          omega
        have isGroup : (attempt.requested.push keys).groups[index]? =
            some (additions attempt.requested.keys keys) := by
          rw [groups, ← last, List.getElem?_concat_length]
        rw [continued.getElem? isGroup, Option.some.injEq] at found
        have earlier := agreed attempt.requested
          ((Grouping.continues_push attempt.requested keys).trans continued) early
        have missing : (attempt.request others keys handler).1.missing =
            group.filter fun dependency => (others dependency).isNone := by
          rw [← found]
          exact missing_request handler keys available fun dependency member =>
            (earlier dependency member).2
        have isShort : (attempt.request others keys handler).1.isShort = true := by
          obtain ⟨dependency, member, isNone⟩ := short
          have some : (attempt.request others keys handler).1.missing ≠ [] := by
            rw [missing]
            exact List.ne_nil_of_mem (List.mem_filter.mpr ⟨member, isNone⟩)
          simp [Attempt.isShort, some]
        unfold Attempt.run
        simp only [Computation.check, Attempt.run, isShort, if_true]
        exact missing
  | inspect _ ih =>
      unfold Attempt.run at found upheld ⊢
      rw [available] at found upheld ⊢
      exact ih available early found upheld
  | report _ ih => exact ih available early found upheld
  | interrupt _ ih => exact ih available early found upheld
  | finish outcome =>
      have inside := (List.getElem?_eq_some_iff.mp found).1
      exact absurd inside (Nat.not_lt_of_le early)

end Attempt

end MemoGraph
