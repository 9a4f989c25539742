namespace MemoGraph

variable {α : Type} [DecidableEq α]

/-- The items that are not in `known`, each at its first occurrence. -/
def additions (known : List α) : List α → List α
  | [] => []
  | item :: items =>
      if item ∈ known then additions known items
      else item :: additions (item :: known) items

/-- The items, each at its first occurrence. -/
def distinct (items : List α) : List α :=
  additions [] items

theorem mem_additions {known items : List α} {item : α} :
    item ∈ additions known items ↔ item ∈ items ∧ item ∉ known := by
  induction items generalizing known with
  | nil => simp [additions]
  | cons first rest ih =>
      unfold additions
      split
      · rename_i seen
        rw [ih, List.mem_cons]
        constructor
        · rintro ⟨inRest, unseen⟩
          exact ⟨.inr inRest, unseen⟩
        · rintro ⟨rfl | inRest, unseen⟩
          · exact absurd seen unseen
          · exact ⟨inRest, unseen⟩
      · rename_i unseen
        simp only [List.mem_cons, ih, not_or]
        constructor
        · rintro (rfl | ⟨inRest, _, notKnown⟩)
          · exact ⟨.inl rfl, unseen⟩
          · exact ⟨.inr inRest, notKnown⟩
        · rintro ⟨rfl | inRest, notKnown⟩
          · exact .inl rfl
          · by_cases same : item = first
            · exact .inl same
            · exact .inr ⟨inRest, same, notKnown⟩

theorem nodup_additions (known items : List α) : (additions known items).Nodup := by
  induction items generalizing known with
  | nil => exact List.nodup_nil
  | cons first rest ih =>
      unfold additions
      split
      · exact ih known
      · refine List.nodup_cons.mpr ⟨fun repeated => ?_, ih _⟩
        exact (mem_additions.mp repeated).2 List.mem_cons_self

theorem nodup_append_additions {known : List α} (unique : known.Nodup) (items : List α) :
    (known ++ additions known items).Nodup := by
  refine List.nodup_append.mpr ⟨unique, nodup_additions known items, ?_⟩
  intro old inKnown new inAdditions same
  exact (mem_additions.mp inAdditions).2 (same ▸ inKnown)

theorem mem_distinct {items : List α} {item : α} : item ∈ distinct items ↔ item ∈ items := by
  simp [distinct, mem_additions]

theorem nodup_distinct (items : List α) : (distinct items).Nodup :=
  nodup_additions [] items

theorem distinct_eq_nil {items : List α} : distinct items = [] ↔ items = [] := by
  simp only [List.eq_nil_iff_forall_not_mem, mem_distinct]

theorem additions_of_new {known items : List α} (unique : items.Nodup)
    (new : ∀ item ∈ items, item ∉ known) : additions known items = items := by
  induction items generalizing known with
  | nil => rfl
  | cons first rest ih =>
      obtain ⟨notAgain, uniqueRest⟩ := List.nodup_cons.mp unique
      have unseen := new first List.mem_cons_self
      rw [additions, if_neg unseen, ih uniqueRest]
      intro item inRest
      rw [List.mem_cons, not_or]
      refine ⟨?_, new item (List.mem_cons_of_mem first inRest)⟩
      rintro rfl
      exact notAgain inRest

theorem distinct_of_nodup {items : List α} (unique : items.Nodup) : distinct items = items :=
  additions_of_new unique fun _ _ => List.not_mem_nil

theorem distinct_cons (first : α) (rest : List α) :
    distinct (first :: rest) = first :: additions [first] rest := rfl

/-- What is known only takes items away. -/
theorem additions_eq_filter (known items : List α) :
    additions known items = (distinct items).filter (· ∉ known) := by
  induction items generalizing known with
  | nil => rfl
  | cons first rest ih =>
      rw [distinct_cons, ih [first], List.filter_cons, List.filter_filter]
      unfold additions
      split
      · rename_i seen
        rw [if_neg (by simpa using seen), ih known]
        refine List.filter_congr fun item _ => ?_
        by_cases same : item = first <;> simp [same, seen]
      · rename_i unseen
        rw [if_pos (by simpa using unseen), ih (first :: known)]
        refine congrArg (first :: ·) (List.filter_congr fun item _ => ?_)
        by_cases same : item = first <;> simp [same]

theorem additions_of_subset {known items : List α} (subset : ∀ item ∈ items, item ∈ known) :
    additions known items = [] := by
  refine List.eq_nil_iff_forall_not_mem.mpr fun item added => ?_
  obtain ⟨inItems, new⟩ := mem_additions.mp added
  exact new (subset item inItems)

theorem additions_distinct (known items : List α) :
    additions known (distinct items) = additions known items := by
  rw [additions_eq_filter, additions_eq_filter, distinct_of_nodup (nodup_distinct items)]

theorem additions_congr {known other : List α} (same : ∀ item, item ∈ known ↔ item ∈ other)
    (items : List α) : additions known items = additions other items := by
  simp only [additions_eq_filter, same]

theorem additions_cons (known : List α) (first : α) (rest : List α) :
    additions known (first :: rest) =
      if first ∈ known then additions known rest else first :: additions (first :: known) rest := rfl

theorem additions_append (known left right : List α) :
    additions known (left ++ right) = additions known left ++ additions (known ++ left) right := by
  induction left generalizing known with
  | nil =>
      rw [List.append_nil]
      rfl
  | cons first rest ih =>
      rw [List.cons_append, additions_cons, additions_cons]
      by_cases seen : first ∈ known
      · rw [if_pos seen, if_pos seen, ih]
        refine congrArg (additions known rest ++ ·) (additions_congr (fun item => ?_) right)
        by_cases same : item = first <;> simp [same, seen]
      · rw [if_neg seen, if_neg seen, ih, List.cons_append]
        refine congrArg (first :: additions (first :: known) rest ++ ·)
          (additions_congr (fun item => ?_) right)
        simp [or_left_comm]

theorem append_additions_append (known left right : List α) :
    known ++ additions known left ++ additions (known ++ additions known left) right =
      known ++ additions known (left ++ right) := by
  rw [additions_append, ← List.append_assoc]
  refine congrArg (known ++ additions known left ++ ·) (additions_congr (fun item => ?_) right)
  rw [List.mem_append, List.mem_append, mem_additions]
  by_cases seen : item ∈ known <;> simp [seen]

theorem additions_concat (known items : List α) (last : α) :
    additions known (items ++ [last]) =
      if last ∈ known ∨ last ∈ items then additions known items
      else additions known items ++ [last] := by
  induction items generalizing known with
  | nil => simp [additions]
  | cons first rest ih =>
      by_cases seen : first ∈ known
      · by_cases same : last = first
        · subst same
          simp [additions, seen, ih]
        · simp [additions, seen, ih, same]
      · by_cases same : last = first
        · subst same
          simp [additions, seen, ih]
        · simp only [List.cons_append, additions, if_neg seen, ih, List.mem_cons, same, false_or]
          split <;> simp

theorem distinct_concat (items : List α) (last : α) :
    distinct (items ++ [last]) =
      if last ∈ items then distinct items else distinct items ++ [last] := by
  simp [distinct, additions_concat]

theorem additions_filter (known items : List α) (keep : α → Bool) :
    additions known (items.filter keep) = (additions known items).filter keep := by
  induction items generalizing known with
  | nil => rfl
  | cons first rest ih =>
      rw [List.filter_cons, additions_cons]
      by_cases kept : keep first = true
      · rw [if_pos kept, additions_cons]
        by_cases seen : first ∈ known
        · rw [if_pos seen, if_pos seen, ih]
        · rw [if_neg seen, if_neg seen, List.filter_cons_of_pos kept, ih]
      · rw [if_neg kept]
        by_cases seen : first ∈ known
        · rw [if_pos seen, ih]
        · -- Whether `first` is known makes no difference, since it is filtered out.
          rw [if_neg seen, List.filter_cons_of_neg kept, ← ih, additions_eq_filter known,
            additions_eq_filter (first :: known)]
          refine List.filter_congr fun item isKept => ?_
          have other : item ≠ first := by
            rintro rfl
            exact kept (List.mem_filter.mp (mem_distinct.mp isKept)).2
          simp [other]

theorem distinct_eq_eraseDups (items : List α) : distinct items = items.eraseDups := by
  induction length : items.length using Nat.strongRecOn generalizing items with
  | ind bound ih =>
      cases items with
      | nil => rfl
      | cons first rest =>
          have shorter : (rest.filter fun item => !item == first).length < bound := by
            have atMost := List.length_filter_le (fun item => !item == first) rest
            rw [List.length_cons] at length
            omega
          rw [List.eraseDups_cons, ← ih _ shorter _ rfl, distinct_cons, additions_eq_filter]
          refine congrArg (first :: ·) ?_
          unfold distinct
          rw [additions_filter]
          refine List.filter_congr fun item _ => ?_
          by_cases again : item = first <;> simp [again]

end MemoGraph
