import MemoGraph.Proofs.Round.Stories

namespace MemoGraph

variable {κ ν φ : Type}

section Signals

variable [DecidableEq κ] {key other : κ} {signals more : List (Signal κ φ)}

/-- Whether the signal is a callback about the key. Rounds, cycles and events
have no key of their own. -/
def Signal.isAbout (key : κ) : Signal κ φ → Bool
  | .start other | .compute other _ | .restart other _ | .dirtyCheck other _ | .cutoff other _
  | .finish other _ | .invalidated other _ => decide (other = key)
  | .round _ | .cycle _ | .event _ => false

def Signal.isStart : Signal κ φ → Bool
  | .start _ => true
  | _ => false

/-- Whether a key that was started ends. -/
def Signal.isEnd : Signal κ φ → Bool
  | .finish _ .cacheHit => false
  | .finish _ _ => true
  | _ => false

def callbacks (key : κ) (signals : List (Signal κ φ)) : List (Signal κ φ) :=
  signals.filter (Signal.isAbout key)

theorem callbacks_self
    (about : ∀ signal ∈ signals, signal.isAbout key = true) : callbacks key signals = signals :=
  List.filter_eq_self.mpr about

@[simp] theorem callbacks_append :
    callbacks key (signals ++ more) = callbacks key signals ++ callbacks key more :=
  List.filter_append ..

theorem callbacks_cons_self {signal : Signal κ φ} (about : signal.isAbout key = true) :
    callbacks key (signal :: signals) = signal :: callbacks key signals :=
  List.filter_cons_of_pos about

theorem callbacks_cons_other {signal : Signal κ φ} (about : signal.isAbout key = false) :
    callbacks key (signal :: signals) = callbacks key signals :=
  List.filter_cons_of_neg (by simp [about])

/-- The callbacks of runs that were cut short, counted from the given one, with
what each of them missed. -/
def retried (key : κ) : Nat → List (List κ) → List (Signal κ φ)
  | _, [] => []
  | attempt, missing :: rest =>
      .compute key attempt :: .restart key missing :: retried key (attempt + 1) rest

omit [DecidableEq κ] in
theorem retried_append (attempt : Nat) (restarts others : List (List κ)) :
    (retried key attempt (restarts ++ others) : List (Signal κ φ)) =
      retried key attempt restarts ++ retried key (attempt + restarts.length) others := by
  induction restarts generalizing attempt with
  | nil => rfl
  | cons missing rest ih =>
      simp only [List.cons_append, retried, ih, List.length_cons]
      congr 4
      omega

omit [DecidableEq κ] in
theorem retried_balanced (attempt : Nat) (restarts : List (List κ)) :
    (retried key attempt restarts : List (Signal κ φ)).countP Signal.isStart = 0 ∧
      (retried key attempt restarts : List (Signal κ φ)).countP Signal.isEnd = 0 := by
  induction restarts generalizing attempt with
  | nil => exact ⟨rfl, rfl⟩
  | cons missing rest ih =>
      obtain ⟨starts, ends⟩ := ih (attempt + 1)
      simp [retried, Signal.isStart, Signal.isEnd, starts, ends]

end Signals

namespace Round

/-- The callbacks that come with a result. -/
inductive Closing (key : κ) : Result κ ν φ → List (Signal κ φ) → Prop
  | changed (value : ν) : Closing key (.ok value) [.cutoff key true, .finish key .changed]
  | unchanged (value : ν) : Closing key (.ok value) [.cutoff key false, .finish key .unchanged]
  | failed (failure : Failure κ φ) :
      Closing key (.error failure) [.finish key (.ofFailure failure)]

/-- The last callbacks of a key of whose function so many runs were cut short. -/
inductive Finale (registry : Registry κ ν φ) (key : κ) (tries : Nat) :
    Result κ ν φ → List (Signal κ φ) → Prop
  | ran {result : Result κ ν φ} {signals : List (Signal κ φ)}
      (registered : (registry.function? key).isSome = true)
      (closing : Closing key result signals) :
      Finale registry key tries result (.compute key tries :: signals)
  | unregistered (absent : registry.function? key = none) (first : tries = 0) :
      Finale registry key tries (.error (Round.unregistered registry key))
        [.finish key (.ofFailure (Round.unregistered registry key))]
  /-- What the last run asked for has failed since. -/
  | blamed (dependency : κ) (cause : Failure κ φ) (again : 0 < tries) :
      Finale registry key tries (.error (.dependency key dependency cause))
        [.finish key (.ofFailure (.dependency key dependency cause))]
  | stuck (path : List κ) :
      Finale registry key tries (.error (.cycle key path)) [.finish key .cycleDetected]

variable {registry : Registry κ ν φ} {key : κ} {signals : List (Signal κ φ)}

theorem isEnd_ofFailure (failure : Failure κ φ) :
    (Signal.finish key (.ofFailure failure)).isEnd = true := by
  rcases Ending.ofFailure_cases failure with ending | ending <;> rw [ending] <;> rfl

theorem Closing.balanced {result : Result κ ν φ} (closing : Closing key result signals) :
    signals.countP Signal.isStart = 0 ∧ signals.countP Signal.isEnd = 1 := by
  cases closing with
  | changed | unchanged => exact ⟨rfl, rfl⟩
  | failed failure => simp [Signal.isStart, isEnd_ofFailure]

theorem Finale.balanced {tries : Nat} {result : Result κ ν φ}
    (finale : Finale registry key tries result signals) :
    signals.countP Signal.isStart = 0 ∧ signals.countP Signal.isEnd = 1 := by
  cases finale with
  | ran _ closing =>
      obtain ⟨starts, ends⟩ := closing.balanced
      simp [Signal.isStart, Signal.isEnd, starts, ends]
  | unregistered | blamed => simp [Signal.isStart, isEnd_ofFailure]
  | stuck => exact ⟨rfl, rfl⟩

variable [Key κ]

/-- What a key that is computed was told before: that its dependencies changed,
if they had to be checked. -/
def checks (round : Round κ ν φ) (key : κ) : List (Signal κ φ) :=
  if round.graph.state? key = some .dirty then [.dirtyCheck key true] else []

/-- All callbacks about a key in a round that is not cut short, and the result
that the key has in the end. -/
inductive Lifecycle (registry : Registry κ ν φ) (roots : List κ) (round : Round κ ν φ) (key : κ) :
    Option (Result κ ν φ) → List (Signal κ φ) → Prop
  | aside (unwanted : key ∉ roots) :
      Lifecycle registry roots round key (round.graph.result? key) []
  | cached (wanted : key ∈ roots)
      (settled : round.graph.state? key = some .done ∨ round.graph.state? key = some .error) :
      Lifecycle registry roots round key (round.graph.result? key) [.finish key .cacheHit]
  | revalidated (dirty : round.graph.state? key = some .dirty) (result : Result κ ν φ) :
      Lifecycle registry roots round key (some result)
        [.start key, .dirtyCheck key false, .finish key .revalidated]
  /-- The key failed on a cycle while its dependencies were checked. -/
  | stuck (dirty : round.graph.state? key = some .dirty) (path : List κ) :
      Lifecycle registry roots round key (some (.error (.cycle key path)))
        [.start key, .finish key .cycleDetected]
  | computed {result : Result κ ν φ} {signals : List (Signal κ φ)}
      (unsettled : ¬ (round.graph.state? key = some .done ∨ round.graph.state? key = some .error))
      (restarts : List (List κ)) (lacking : ∀ missing ∈ restarts, missing ≠ [])
      (finale : Finale registry key restarts.length result signals) :
      Lifecycle registry roots round key (some result)
        (.start key :: (round.checks key ++ retried key 0 restarts ++ signals))

variable {roots : List κ} {round : Round κ ν φ} {told : List (Signal κ φ)}

/-- A key is started at most once, and it ends as often. -/
theorem Lifecycle.balanced {result : Option (Result κ ν φ)}
    (lifecycle : Lifecycle registry roots round key result told) :
    told.countP Signal.isStart ≤ 1 ∧
      told.countP Signal.isEnd = told.countP Signal.isStart := by
  cases lifecycle with
  | aside | cached => exact ⟨Nat.zero_le 1, rfl⟩
  | revalidated | stuck => exact ⟨Nat.le_refl 1, rfl⟩
  | computed _ restarts _ finale =>
      obtain ⟨starts, ends⟩ := finale.balanced
      obtain ⟨noStarts, noEnds⟩ := @retried_balanced κ φ key 0 restarts
      have checked : (round.checks key).countP Signal.isStart = 0 ∧
          (round.checks key).countP Signal.isEnd = 0 := by
        unfold checks
        split <;> exact ⟨rfl, rfl⟩
      simp only [List.countP_cons, List.countP_append, starts, ends, noStarts, noEnds, checked]
      simp [Signal.isStart, Signal.isEnd]

end Round

end MemoGraph
