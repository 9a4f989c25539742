import MemoGraph.Distinct

namespace MemoGraph

/-! The dependencies recorded for one evaluation, in the groups in which they
were requested.

All keys stand in one list in request order, and every group is a run of it.
The lists returned by `groups` are the meaning of a record.
-/

/-- The marks cut a list of the given length, read from `start` on, into
non-empty runs. -/
def Cuts (start length : Nat) : List Nat → Prop
  | [] => start = length
  | mark :: marks => start < mark ∧ Cuts mark length marks

theorem Cuts.snoc {start length : Nat} {marks : List Nat} (cuts : Cuts start length marks)
    {longer : Nat} (grown : length < longer) : Cuts start longer (marks ++ [longer]) := by
  induction marks generalizing start with
  | nil => exact ⟨Nat.lt_of_le_of_lt (Nat.le_of_eq cuts) grown, rfl⟩
  | cons mark marks ih => exact ⟨cuts.1, ih cuts.2⟩

theorem Cuts.start_le {start length : Nat} {marks : List Nat} (cuts : Cuts start length marks) :
    start ≤ length := by
  induction marks generalizing start with
  | nil => exact Nat.le_of_eq cuts
  | cons mark marks ih => exact Nat.le_trans (Nat.le_of_lt cuts.1) (ih cuts.2)

/-- Keys in request order, cut into groups. A key appears at most once over all
groups, and no group is empty. -/
structure Grouping (κ : Type) where
  /-- All keys, group after group. -/
  keys : List κ
  /-- For every group the number of keys up to its end. -/
  ends : List Nat
  unique : keys.Nodup
  cuts : Cuts 0 keys.length ends
deriving DecidableEq

namespace Grouping

variable {κ : Type}

/-- The record of an evaluation that requested nothing. -/
def empty : Grouping κ := ⟨[], [], List.nodup_nil, rfl⟩

instance : Inhabited (Grouping κ) := ⟨empty⟩

def size (grouping : Grouping κ) : Nat := grouping.keys.length

def isEmpty (grouping : Grouping κ) : Bool := grouping.keys.isEmpty

def groupCount (grouping : Grouping κ) : Nat := grouping.ends.length

instance : Membership κ (Grouping κ) := ⟨fun grouping key => key ∈ grouping.keys⟩

instance [DecidableEq κ] (grouping : Grouping κ) (key : κ) : Decidable (key ∈ grouping) :=
  inferInstanceAs (Decidable (key ∈ grouping.keys))

/-- Where the group with the given index starts. -/
def start (grouping : Grouping κ) : Nat → Nat
  | 0 => 0
  | index + 1 => grouping.ends[index]?.getD grouping.size

def group? (grouping : Grouping κ) (index : Nat) : Option (List κ) :=
  grouping.ends[index]?.map fun stop =>
    (grouping.keys.drop (grouping.start index)).take (stop - grouping.start index)

/-- The items from `start` on and before `stop`, if such a range exists. -/
def slice? (items : List κ) (start stop : Nat) : Option (List κ) :=
  if start ≤ stop ∧ stop ≤ items.length then some ((items.drop start).take (stop - start)) else none

/-- Where the group with the given index starts, if a mark says so. -/
def start? (grouping : Grouping κ) : Nat → Option Nat
  | 0 => some 0
  | index + 1 => grouping.ends[index]?

/-- Look up the group with the given index. The outer `none` is a mark or a
range that does not exist, the inner one is an index without a group. -/
def readGroup? (grouping : Grouping κ) (index : Nat) : Option (Option (List κ)) :=
  match grouping.ends[index]? with
  | none => some none
  | some stop => do
      let start ← grouping.start? index
      let group ← slice? grouping.keys start stop
      return some group

/-- The runs of `keys`, whose first key stands at `start`, up to each mark. -/
def runs (start : Nat) (keys : List κ) : List Nat → List (List κ)
  | [] => []
  | mark :: marks => keys.take (mark - start) :: runs mark (keys.drop (mark - start)) marks

/-- The groups in request order. -/
def groups (grouping : Grouping κ) : List (List κ) :=
  runs 0 grouping.keys grouping.ends

theorem flatten_runs {start : Nat} {keys : List κ} {marks : List Nat}
    (cuts : Cuts start (start + keys.length) marks) : (runs start keys marks).flatten = keys := by
  induction marks generalizing start keys with
  | nil =>
      have empty : keys.length = 0 := by
        have reached : start = start + keys.length := cuts
        omega
      rw [List.eq_nil_of_length_eq_zero empty]
      rfl
  | cons mark marks ih =>
      have inside : mark ≤ start + keys.length := cuts.2.start_le
      have rest : mark + (keys.drop (mark - start)).length = start + keys.length := by
        have later := cuts.1
        rw [List.length_drop]
        omega
      unfold runs
      rw [List.flatten_cons, ih (rest ▸ cuts.2), List.take_append_drop]

/-- A run that is appended with its own mark is read back, and the earlier runs
stay as they are. -/
theorem runs_append {start : Nat} {keys : List κ} {marks : List Nat}
    (cuts : Cuts start (start + keys.length) marks) (added : List κ) :
    runs start (keys ++ added) (marks ++ [start + (keys ++ added).length]) =
      runs start keys marks ++ [added] := by
  induction marks generalizing start keys with
  | nil =>
      have empty : keys.length = 0 := by
        have reached : start = start + keys.length := cuts
        omega
      rw [List.eq_nil_of_length_eq_zero empty]
      simp [runs]
  | cons mark marks ih =>
      have later := cuts.1
      have inside : mark ≤ start + keys.length := cuts.2.start_le
      have rest : mark + (keys.drop (mark - start)).length = start + keys.length := by
        rw [List.length_drop]
        omega
      have total : start + (keys ++ added).length =
          mark + (keys.drop (mark - start) ++ added).length := by
        rw [List.length_append, List.length_append]
        omega
      have short : mark - start ≤ keys.length := by omega
      rw [List.cons_append, runs, List.take_append_of_le_length short,
        List.drop_append_of_le_length short, total, ih (rest ▸ cuts.2)]
      rfl

@[simp] theorem flatten_groups (grouping : Grouping κ) : grouping.groups.flatten = grouping.keys :=
  flatten_runs (by rw [Nat.zero_add]; exact grouping.cuts)

variable [DecidableEq κ]

/-- Compare two records by their marks and their keys. -/
def same (left right : Grouping κ) : Bool :=
  left.ends == right.ends && left.keys == right.keys

/-- Append a group. Keys that are recorded already are dropped, and a group of
which nothing is left is not recorded. -/
def push (grouping : Grouping κ) (requested : List κ) : Grouping κ :=
  let added := additions grouping.keys requested
  if nonempty : added = [] then grouping
  else
    { keys := grouping.keys ++ added
      ends := grouping.ends ++ [(grouping.keys ++ added).length]
      unique := nodup_append_additions grouping.unique requested
      cuts := grouping.cuts.snoc (by
        have positive := List.length_pos_iff.mpr nonempty
        rw [List.length_append]
        omega) }

/-- The record of requesting the given lists one after another. -/
def ofRequests (requests : List (List κ)) : Grouping κ :=
  requests.foldl push empty

@[simp] theorem keys_push (grouping : Grouping κ) (requested : List κ) :
    (grouping.push requested).keys = grouping.keys ++ additions grouping.keys requested := by
  unfold push
  by_cases nothing : additions grouping.keys requested = [] <;> simp [nothing]

/-- Appending a group adds the keys that are new as one group, if there are
any. -/
theorem groups_push (grouping : Grouping κ) (requested : List κ) :
    (grouping.push requested).groups =
      if additions grouping.keys requested = [] then grouping.groups
      else grouping.groups ++ [additions grouping.keys requested] := by
  unfold push
  by_cases nothing : additions grouping.keys requested = []
  · simp only [nothing, ↓reduceDIte, ↓reduceIte]
  · simp only [nothing, ↓reduceDIte, ↓reduceIte]
    have cuts : Cuts 0 (0 + grouping.keys.length) grouping.ends := by
      rw [Nat.zero_add]
      exact grouping.cuts
    have appended := runs_append cuts (additions grouping.keys requested)
    rw [Nat.zero_add] at appended
    exact appended

theorem mem_push {grouping : Grouping κ} {requested : List κ} {key : κ} :
    key ∈ grouping.push requested ↔ key ∈ grouping ∨ key ∈ requested := by
  show key ∈ (grouping.push requested).keys ↔ key ∈ grouping.keys ∨ key ∈ requested
  rw [keys_push, List.mem_append, mem_additions]
  by_cases recorded : key ∈ grouping.keys <;> simp [recorded]

end Grouping

end MemoGraph
