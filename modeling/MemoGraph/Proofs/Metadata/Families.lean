import MemoGraph.Proofs.Metadata.Composition
import Mathlib.Data.List.Induction
import Mathlib.Logic.Function.Basic
import Mathlib.Logic.Relation

namespace MemoGraph.Metadata

variable {α : Type}

namespace Call

def dependency? {δ : Type} : Call α δ → Option δ
  | .propagate dependency | .direct dependency => some dependency
  | .add _ | .addAll _ => none

/-- Resolving the positions leaves the three parts of the calls as they are, with
the dependencies for their positions. -/
theorem resolve_parts (earlier : List (Metadata α)) (calls : List (Call α Nat)) :
    (calls.filterMap (resolve earlier)).flatMap items = calls.flatMap items ∧
      (calls.filterMap (resolve earlier)).flatMap passedOn =
        (calls.flatMap passedOn).filterMap (earlier[·]?) ∧
      (calls.filterMap (resolve earlier)).flatMap directOnly =
        (calls.flatMap directOnly).filterMap (earlier[·]?) := by
  induction calls with
  | nil => exact ⟨rfl, rfl, rfl⟩
  | cons call calls ih =>
      cases call with
      | add item => simp [resolve, items, passedOn, directOnly, ih]
      | addAll items => simp [resolve, Call.items, passedOn, directOnly, ih]
      | propagate source =>
          cases found : earlier[source]? <;>
            simp [resolve, items, passedOn, directOnly, ih, found]
      | direct source =>
          cases found : earlier[source]? <;>
            simp [resolve, items, passedOn, directOnly, ih, found]

end Call

section Positions

variable (names : Nat → Nat) (recipes : List (List (Call α Nat)))

theorem family_concat (calls : List (Call α Nat)) :
    family names (recipes ++ [calls]) =
      family names recipes ++
        [compose (some (names (family names recipes).length))
          (calls.filterMap (Call.resolve (family names recipes)))] :=
  List.foldl_concat ..

theorem length_family : (family names recipes).length = recipes.length := by
  induction recipes using List.reverseRecOn with
  | nil => rfl
  | append_singleton recipes calls ih =>
      rw [family_concat, List.length_append, List.length_append, ih]
      rfl

/-- The calls that build the value at a position, with the dependencies in place. -/
def resolvedAt (position : Nat) (calls : List (Call α Nat)) : List (Call α (Metadata α)) :=
  calls.filterMap (Call.resolve ((family names recipes).take position))

theorem family_getElem? {position : Nat} {calls : List (Call α Nat)}
    (found : recipes[position]? = some calls) :
    (family names recipes)[position]? =
      some (compose (some (names position)) (resolvedAt names recipes position calls)) := by
  unfold resolvedAt
  induction recipes using List.reverseRecOn with
  | nil => cases found
  | append_singleton recipes last ih =>
      rw [family_concat]
      have within := length_family names recipes
      by_cases earlier : position < recipes.length
      · rw [List.getElem?_append_left earlier] at found
        rw [List.getElem?_append_left (within ▸ earlier), ih found,
          List.take_append_of_le_length (within ▸ Nat.le_of_lt earlier)]
      · obtain rfl : position = recipes.length := by
          have bound := (List.getElem?_eq_some_iff.mp found).1
          rw [List.length_append, List.length_singleton] at bound
          omega
        obtain rfl : last = calls := by simpa using found
        rw [← within, List.getElem?_concat_length, List.take_left]

variable {names recipes}

theorem exists_calls {position : Nat} {value : Metadata α}
    (found : (family names recipes)[position]? = some value) :
    ∃ calls, recipes[position]? = some calls ∧
      value = compose (some (names position)) (resolvedAt names recipes position calls) := by
  have bound := (List.getElem?_eq_some_iff.mp found).1
  rw [length_family] at bound
  have recipe := List.getElem?_eq_getElem bound
  rw [family_getElem? names recipes recipe] at found
  exact ⟨_, recipe, (Option.some.inj found).symm⟩

theorem exists_earlier {position source : Nat} {value : Metadata α} (before : source < position)
    (found : (family names recipes)[position]? = some value) :
    ∃ dependency, (family names recipes)[source]? = some dependency :=
  ⟨_, List.getElem?_eq_getElem (Nat.lt_trans before (List.getElem?_eq_some_iff.mp found).1)⟩

end Positions

section Stores

variable {names : Nat → Nat} (recipes : List (List (Call α Nat)))

theorem Call.storedIn_resolve {store : Nat → SharedSet α} {earlier : List (Metadata α)}
    (stored : ∀ dependency ∈ earlier, dependency.propagated.StoredIn store)
    {call : Call α Nat} {resolved : Call α (Metadata α)}
    (found : call.resolve earlier = some resolved) : resolved.StoredIn store := by
  cases call with
  | add item => cases found; trivial
  | addAll items => cases found; trivial
  | propagate source | direct source =>
      obtain ⟨dependency, inEarlier, rfl⟩ := Option.map_eq_some_iff.mp found
      exact stored dependency (List.mem_of_getElem? inEarlier)

variable (names) in
/-- Every value of the family under its name, where names tell positions apart. -/
noncomputable def storeOf (address : Nat) : SharedSet α :=
  ((family names recipes)[Function.invFun names address]?.map propagated).getD .empty

theorem storeOf_name (distinctNames : Function.Injective names) {position : Nat}
    {value : Metadata α} (found : (family names recipes)[position]? = some value) :
    storeOf names recipes (names position) = value.propagated := by
  have atPosition : Function.invFun names (names position) = position :=
    Function.leftInverse_invFun distinctNames position
  rw [storeOf, atPosition, found]
  rfl

theorem family_builtIn (distinctNames : Function.Injective names) : ∀ position calls,
    recipes[position]? = some calls →
      BuiltIn (storeOf names recipes) (some (names position))
        (resolvedAt names recipes position calls) := by
  intro position
  induction position using Nat.strongRecOn with
  | ind position ih =>
      intro calls found
      constructor
      case dependencies =>
        intro resolved member
        obtain ⟨call, -, resolves⟩ := List.mem_filterMap.mp member
        refine Call.storedIn_resolve (fun dependency earlier => ?_) resolves
        obtain ⟨source, within⟩ := List.mem_iff_getElem?.mp earlier
        rw [List.getElem?_take] at within
        split at within
        case isTrue before =>
          obtain ⟨others, recipe, rfl⟩ := exists_calls within
          exact (ih source before others recipe).storedIn.propagated
        case isFalse => cases within
      case named =>
        intro address named
        cases named
        exact storeOf_name recipes distinctNames (family_getElem? names recipes found)

theorem family_storedIn (distinctNames : Function.Injective names) :
    ∀ value ∈ family names recipes, value.StoredIn (storeOf names recipes) := by
  intro value member
  obtain ⟨position, found⟩ := List.mem_iff_getElem?.mp member
  obtain ⟨calls, recipe, rfl⟩ := exists_calls found
  exact (family_builtIn recipes distinctNames position calls recipe).storedIn

end Stores

section Lists

variable [DecidableEq α] {names : Nat → Nat} {recipes : List (List (Call α Nat))}
  {position : Nat} {calls : List (Call α Nat)} {value : Metadata α}

/-- What the values at the positions propagate, one list after another. -/
def inherited (values : List (Metadata α)) (positions : List Nat) : List α :=
  (positions.filterMap (values[·]?)).flatMap (·.propagated.toList)

theorem inherited_unshared {store : Nat → SharedSet α} {values : List (Metadata α)}
    (stored : ∀ value ∈ values, value.StoredIn store) (positions : List Nat) :
    inherited values positions =
      (positions.filterMap (values[·]?)).flatMap (·.propagated.unshared) := by
  refine List.flatMap_congr fun value member => ?_
  obtain ⟨source, -, found⟩ := List.mem_filterMap.mp member
  exact (stored value (List.mem_of_getElem? found)).propagated.toList_eq

theorem mem_inherited {values : List (Metadata α)} {positions : List Nat} {item : α} :
    item ∈ inherited (values.take position) positions ↔
      ∃ source ∈ positions, source < position ∧
        ∃ dependency, values[source]? = some dependency ∧
          item ∈ dependency.propagated.toList := by
  simp only [inherited, List.mem_flatMap, List.mem_filterMap, List.getElem?_take]
  constructor
  · rintro ⟨dependency, ⟨source, member, found⟩, inList⟩
    split at found
    case isTrue before => exact ⟨source, member, before, dependency, found, inList⟩
    case isFalse => cases found
  · rintro ⟨source, member, before, dependency, found, inList⟩
    exact ⟨dependency, ⟨source, member, (if_pos before).trans found⟩, inList⟩

theorem value_lists (distinctNames : Function.Injective names)
    (recipe : recipes[position]? = some calls)
    (found : (family names recipes)[position]? = some value) :
    value.propagated.toList =
        distinct (inherited ((family names recipes).take position) (calls.flatMap Call.passedOn) ++
          calls.flatMap Call.items) ∧
      value.directOnly.toList =
        distinct (inherited ((family names recipes).take position)
          (calls.flatMap Call.directOnly)) := by
  have stored := family_storedIn recipes distinctNames
  have valueStored := stored value (List.mem_of_getElem? found)
  have earlier : ∀ value ∈ (family names recipes).take position,
      value.StoredIn (storeOf names recipes) :=
    fun value member => stored value (List.mem_of_mem_take member)
  obtain ⟨items, passedOn, directOnly⟩ :=
    Call.resolve_parts ((family names recipes).take position) calls
  rw [valueStored.propagated.toList_eq, valueStored.directOnly.toList_eq,
    inherited_unshared earlier, inherited_unshared earlier, ← items, ← passedOn, ← directOnly]
  rw [family_getElem? names recipes recipe] at found
  cases found
  exact ⟨compose_propagated_unshared .., compose_directOnly_unshared ..⟩

/-- Direct items come after the propagated ones, where they are not there already. -/
theorem items_eq (distinctNames : Function.Injective names)
    (recipe : recipes[position]? = some calls)
    (found : (family names recipes)[position]? = some value) :
    value.items = value.propagated.toList ++
      (distinct (inherited ((family names recipes).take position)
        (calls.flatMap Call.directOnly))).filter (· ∉ value.propagated.toList) := by
  obtain ⟨propagated, directOnly⟩ := value_lists distinctNames recipe found
  have unique : value.propagated.toList.Nodup := propagated ▸ nodup_distinct _
  rw [items, directOnly, distinct, additions_append, List.nil_append, additions_distinct,
    additions_eq_filter value.propagated.toList]
  exact congrArg (· ++ _) (distinct_of_nodup unique)

end Lists

section Visibility

variable [DecidableEq α] {names : Nat → Nat} {recipes : List (List (Call α Nat))}

/-- The value at a position is built by a call that passes the source on. -/
def Propagates (recipes : List (List (Call α Nat))) (position source : Nat) : Prop :=
  source < position ∧ ∃ calls, recipes[position]? = some calls ∧ .propagate source ∈ calls

/-- The value at a position is built by a call that shows the source there only. -/
def Sees (recipes : List (List (Call α Nat))) (position source : Nat) : Prop :=
  source < position ∧ ∃ calls, recipes[position]? = some calls ∧ .direct source ∈ calls

def Owns (recipes : List (List (Call α Nat))) (position : Nat) (item : α) : Prop :=
  ∃ calls, recipes[position]? = some calls ∧ item ∈ calls.flatMap Call.items

omit [DecidableEq α] in
theorem mem_passedOn {calls : List (Call α Nat)} {source : Nat} :
    source ∈ calls.flatMap Call.passedOn ↔ .propagate source ∈ calls := by
  rw [List.mem_flatMap]
  constructor
  · rintro ⟨call, member, named⟩
    cases call <;> simp_all [Call.passedOn]
  · exact fun member => ⟨_, member, List.mem_singleton_self source⟩

omit [DecidableEq α] in
theorem mem_directOnly {calls : List (Call α Nat)} {source : Nat} :
    source ∈ calls.flatMap Call.directOnly ↔ .direct source ∈ calls := by
  rw [List.mem_flatMap]
  constructor
  · rintro ⟨call, member, named⟩
    cases call <;> simp_all [Call.directOnly]
  · exact fun member => ⟨_, member, List.mem_singleton_self source⟩

theorem mem_propagated (distinctNames : Function.Injective names) (item : α) :
    ∀ position value, (family names recipes)[position]? = some value →
      (item ∈ value.propagated.toList ↔
        ∃ source, Relation.ReflTransGen (Propagates recipes) position source ∧
          Owns recipes source item) := by
  intro position
  induction position using Nat.strongRecOn with
  | ind position ih =>
      intro value found
      obtain ⟨calls, recipe, -⟩ := exists_calls found
      rw [(value_lists distinctNames recipe found).1, mem_distinct, List.mem_append, mem_inherited]
      constructor
      · rintro (⟨source, named, before, dependency, inFamily, inList⟩ | own)
        · obtain ⟨origin, path, owned⟩ := (ih source before dependency inFamily).mp inList
          have edge : Propagates recipes position source :=
            ⟨before, calls, recipe, mem_passedOn.mp named⟩
          exact ⟨origin, .head edge path, owned⟩
        · exact ⟨position, .refl, calls, recipe, own⟩
      · rintro ⟨origin, path, owned⟩
        obtain rfl | ⟨source, edge, rest⟩ := path.cases_head
        · obtain ⟨others, same, own⟩ := owned
          cases recipe.symm.trans same
          exact .inr own
        · obtain ⟨before, others, same, named⟩ := edge
          cases recipe.symm.trans same
          obtain ⟨dependency, inFamily⟩ := exists_earlier before found
          exact .inl ⟨source, mem_passedOn.mpr named, before, dependency, inFamily,
            (ih source before dependency inFamily).mpr ⟨origin, rest, owned⟩⟩

/-- A value shows exactly what it should, given the calls that build it. -/
structure ShowsExactly (recipes : List (List (Call α Nat))) (values : List (Metadata α))
    (position : Nat) (calls : List (Call α Nat)) (value : Metadata α) : Prop where
  propagated : ∀ item, item ∈ value.propagated.toList ↔
    ∃ source, Relation.ReflTransGen (Propagates recipes) position source ∧
      Owns recipes source item
  items : ∀ item, item ∈ value.items ↔
    item ∈ value.propagated.toList ∨
      ∃ source dependency, Sees recipes position source ∧ values[source]? = some dependency ∧
        item ∈ dependency.propagated.toList
  order : value.items = value.propagated.toList ++
    (distinct (inherited (values.take position) (calls.flatMap Call.directOnly))).filter
      (· ∉ value.propagated.toList)
  unique : value.items.Nodup
  isEmpty : value.isEmpty = true ↔ value.items = []

theorem isEmpty_iff {store : Nat → SharedSet α} {value : Metadata α}
    (stored : value.StoredIn store) : value.isEmpty = true ↔ value.items = [] := by
  rw [isEmpty, items, Bool.and_eq_true, distinct_eq_nil, List.append_eq_nil_iff,
    SharedSet.isEmpty_iff, SharedSet.isEmpty_iff, stored.propagated.toList_eq,
    stored.directOnly.toList_eq]

theorem showsExactly (distinctNames : Function.Injective names) {position : Nat}
    {calls : List (Call α Nat)} {value : Metadata α} (recipe : recipes[position]? = some calls)
    (found : (family names recipes)[position]? = some value) :
    ShowsExactly recipes (family names recipes) position calls value := by
  have order := items_eq distinctNames recipe found
  constructor
  case propagated => exact fun item => mem_propagated distinctNames item position value found
  case items =>
    intro item
    rw [order, List.mem_append, List.mem_filter, decide_eq_true_eq, mem_distinct, mem_inherited]
    constructor
    · rintro (known | ⟨⟨source, named, before, dependency, inFamily, inList⟩, -⟩)
      · exact .inl known
      · exact .inr ⟨source, dependency, ⟨before, calls, recipe, mem_directOnly.mp named⟩, inFamily,
          inList⟩
    · rintro (known | ⟨source, dependency, ⟨before, others, same, named⟩, inFamily, inList⟩)
      · exact .inl known
      · cases recipe.symm.trans same
        by_cases known : item ∈ value.propagated.toList
        · exact .inl known
        · exact .inr ⟨⟨source, mem_directOnly.mpr named, before, dependency, inFamily, inList⟩,
            known⟩
  case order => exact order
  case unique => exact nodup_distinct _
  case isEmpty =>
    exact isEmpty_iff (family_storedIn recipes distinctNames value (List.mem_of_getElem? found))

end Visibility

section Rearrangements

variable {earlier : List (Metadata α)}

/-- Calls are put together differently, to the same effect. -/
inductive Rearrangement (earlier : List (Metadata α)) :
    List (Call α Nat) → List (Call α Nat) → Prop where
  /-- A dependency that propagates nothing is left out. -/
  | drop (before : List (Call α Nat)) {call : Call α Nat} (after : List (Call α Nat))
      {source : Nat} (named : call.dependency? = some source)
      (empty : ∀ dependency, earlier[source]? = some dependency →
        dependency.propagated.isEmpty = true) :
      Rearrangement earlier (before ++ call :: after) (before ++ after)
  /-- A call that adds items is moved past one that names a dependency. -/
  | move (before : List (Call α Nat)) {own dependent : Call α Nat} (after : List (Call α Nat))
      (adds : own.dependency? = none) {source : Nat}
      (named : dependent.dependency? = some source) :
      Rearrangement earlier (before ++ own :: dependent :: after)
        (before ++ dependent :: own :: after)

variable [DecidableEq α] {names otherNames : Nat → Nat} {recipes others : List (List (Call α Nat))}

omit [DecidableEq α] in
theorem items_of_dependency {δ : Type} {call : Call α δ} {dependency : δ}
    (named : call.dependency? = some dependency) : call.items = [] := by
  cases call with
  | add | addAll => cases named
  | propagate | direct => rfl

omit [DecidableEq α] in
theorem dependencies_of_own {δ : Type} {call : Call α δ} (adds : call.dependency? = none) :
    call.passedOn = [] ∧ call.directOnly = [] := by
  cases call with
  | add | addAll => exact ⟨rfl, rfl⟩
  | propagate | direct => cases adds

theorem inherited_append (left right : List Nat) :
    inherited earlier (left ++ right) = inherited earlier left ++ inherited earlier right := by
  rw [inherited, List.filterMap_append, List.flatMap_append]
  rfl

theorem inherited_nothing {source : Nat} (empty : ∀ dependency, earlier[source]? = some dependency →
    dependency.propagated.toList = []) : inherited earlier [source] = [] := by
  cases found : earlier[source]? with
  | none => simp [inherited, found]
  | some dependency => simp [inherited, found, empty dependency found]

/-- What the calls add to the three lists of the builder. -/
def parts (earlier : List (Metadata α)) (calls : List (Call α Nat)) : List α × List α × List α :=
  (calls.flatMap Call.items, inherited earlier (calls.flatMap Call.passedOn),
    inherited earlier (calls.flatMap Call.directOnly))

theorem parts_append (left right : List (Call α Nat)) :
    parts earlier (left ++ right) =
      ((parts earlier left).1 ++ (parts earlier right).1,
        (parts earlier left).2.1 ++ (parts earlier right).2.1,
        (parts earlier left).2.2 ++ (parts earlier right).2.2) := by
  simp only [parts, List.flatMap_append, inherited_append]

theorem parts_middle {one two : List (Call α Nat)} (same : parts earlier one = parts earlier two)
    (before after : List (Call α Nat)) :
    parts earlier (before ++ (one ++ after)) = parts earlier (before ++ (two ++ after)) := by
  rw [parts_append, parts_append one, same, ← parts_append two, ← parts_append]

theorem parts_nothing {call : Call α Nat} {source : Nat}
    (named : call.dependency? = some source)
    (empty : ∀ dependency, earlier[source]? = some dependency →
      dependency.propagated.toList = []) : parts earlier [call] = parts earlier [] := by
  have nothing := inherited_nothing empty
  cases call with
  | add | addAll => cases named
  | propagate | direct =>
      cases named
      simp only [parts, List.flatMap_cons, List.flatMap_nil, List.append_nil, Call.items,
        Call.passedOn, Call.directOnly, nothing]
      rfl

theorem parts_exchange {own dependent : Call α Nat} {source : Nat}
    (adds : own.dependency? = none) (named : dependent.dependency? = some source) :
    parts earlier [own, dependent] = parts earlier [dependent, own] := by
  obtain ⟨noPassedOn, noDirectOnly⟩ := dependencies_of_own adds
  simp only [parts, List.flatMap_cons, List.flatMap_nil, List.append_nil, noPassedOn,
    noDirectOnly, items_of_dependency named, List.nil_append]

theorem parts_rearranged {store : Nat → SharedSet α} {calls changed : List (Call α Nat)}
    (stored : ∀ value ∈ earlier, value.StoredIn store)
    (rearranged : Relation.EqvGen (Rearrangement earlier) calls changed) :
    parts earlier calls = parts earlier changed := by
  induction rearranged with
  | rel calls changed step =>
      cases step with
      | drop before after named empty =>
          refine parts_middle (parts_nothing named fun dependency found => ?_) before after
          rw [(stored dependency (List.mem_of_getElem? found)).propagated.toList_eq]
          exact (SharedSet.isEmpty_iff _).mp (empty dependency found)
      | move before after adds named => exact parts_middle (parts_exchange adds named) before after
  | refl calls => rfl
  | symm calls changed _ ih => exact ih.symm
  | trans calls between changed _ _ first second => exact first.trans second

theorem inherited_congr {left right : List (Metadata α)}
    (same : ∀ source : Nat, left[source]?.map (·.propagated.toList) =
      right[source]?.map (·.propagated.toList)) (positions : List Nat) :
    inherited left positions = inherited right positions := by
  have lists (values : List (Metadata α)) : inherited values positions =
      (positions.filterMap fun source => values[source]?.map (·.propagated.toList)).flatten := by
    rw [inherited, List.flatMap, List.map_filterMap]
  simp only [lists, same]

/-- Rearranged calls build values that list the same. The values before do so, by
induction. -/
theorem rearranged_lists (distinctNames : Function.Injective names)
    (otherDistinct : Function.Injective otherNames)
    (rearranged : ∀ position calls changed, recipes[position]? = some calls →
      others[position]? = some changed →
        Relation.EqvGen (Rearrangement ((family names recipes).take position)) calls changed) :
    ∀ (position : Nat) (value other : Metadata α),
      (family names recipes)[position]? = some value →
        (family otherNames others)[position]? = some other →
          value.propagated.toList = other.propagated.toList ∧
            value.directOnly.toList = other.directOnly.toList := by
  intro position
  induction position using Nat.strongRecOn with
  | ind position ih =>
      intro value other found otherFound
      obtain ⟨calls, recipe, -⟩ := exists_calls found
      obtain ⟨changed, otherRecipe, -⟩ := exists_calls otherFound
      have sameParts := parts_rearranged
        (fun value member => family_storedIn recipes distinctNames value
          (List.mem_of_mem_take member))
        (rearranged position calls changed recipe otherRecipe)
      have sameEarlier (source : Nat) :
          ((family names recipes).take position)[source]?.map (·.propagated.toList) =
            ((family otherNames others).take position)[source]?.map (·.propagated.toList) := by
        rw [List.getElem?_take, List.getElem?_take]
        split
        case isTrue before =>
          obtain ⟨dependency, inFamily⟩ := exists_earlier before found
          obtain ⟨otherDependency, inOther⟩ := exists_earlier before otherFound
          rw [inFamily, inOther, Option.map_some, Option.map_some,
            (ih source before dependency otherDependency inFamily inOther).1]
        case isFalse => rfl
      obtain ⟨propagated, directOnly⟩ := value_lists distinctNames recipe found
      obtain ⟨otherPropagated, otherDirectOnly⟩ := value_lists otherDistinct otherRecipe otherFound
      simp only [parts, Prod.mk.injEq, inherited_congr sameEarlier] at sameParts
      obtain ⟨items, passedOn, direct⟩ := sameParts
      rw [propagated, directOnly, otherPropagated, otherDirectOnly, inherited_congr sameEarlier,
        inherited_congr sameEarlier, items, passedOn, direct]
      exact ⟨rfl, rfl⟩

/-- Metadata shows what was propagated to it and nothing else, however the calls
that build it are arranged. -/
theorem family_showsExactly (distinctNames : Function.Injective names) :
    (∀ position calls, recipes[position]? = some calls →
      ∃ value, (family names recipes)[position]? = some value ∧
        ShowsExactly recipes (family names recipes) position calls value) ∧
    ∀ otherNames (others : List (List (Call α Nat))), Function.Injective otherNames →
      (∀ position calls changed, recipes[position]? = some calls →
        others[position]? = some changed →
          Relation.EqvGen (Rearrangement ((family names recipes).take position)) calls changed) →
      ∀ (position : Nat) (value other : Metadata α),
        (family names recipes)[position]? = some value →
          (family otherNames others)[position]? = some other →
            value.propagated.toList = other.propagated.toList ∧ value.items = other.items ∧
              value.isEmpty = other.isEmpty := by
  constructor
  · intro position calls recipe
    have found := family_getElem? names recipes recipe
    exact ⟨_, found, showsExactly distinctNames recipe found⟩
  · intro otherNames others otherDistinct rearranged position value other found otherFound
    obtain ⟨propagated, directOnly⟩ :=
      rearranged_lists distinctNames otherDistinct rearranged position value other found otherFound
    obtain ⟨calls, recipe, -⟩ := exists_calls found
    obtain ⟨changed, otherRecipe, -⟩ := exists_calls otherFound
    have sameItems : value.items = other.items := by
      rw [items, items, propagated, directOnly]
    refine ⟨propagated, sameItems, Bool.eq_iff_iff.mpr ?_⟩
    rw [(showsExactly distinctNames recipe found).isEmpty,
      (showsExactly otherDistinct otherRecipe otherFound).isEmpty, sameItems]

/-- An item that a dependency gets passed on is shown by a value that does not pass
it on, in whichever order the dependency was built. -/
theorem family_showsExactly_direct :
    ∃ value other : Metadata Nat,
      (family (fun position => position)
        [[.add 1], [.propagate 0, .add 2], [.direct 1]])[2]? = some value ∧
      (family (fun position => position + 1)
        [[.add 1], [.add 2, .propagate 0], [.direct 1]])[2]? = some other ∧
      1 ∈ value.items ∧ value.items = other.items := by
  obtain ⟨shown, sameLists⟩ := @family_showsExactly Nat _ (fun position => position)
    [[.add 1], [.propagate 0, .add 2], [.direct 1]] (fun _ _ same => same)
  obtain ⟨value, found, shows⟩ := shown 2 _ rfl
  obtain ⟨passing, inFamily, passes⟩ := shown 1 _ rfl
  have edge : Propagates [[.add 1], [.propagate 0, .add 2], [.direct 1]] 1 0 :=
    ⟨Nat.zero_lt_one, _, rfl, List.mem_cons_self⟩
  have owned : Owns [[.add 1], [.propagate 0, .add 2], [.direct 1]] 0 1 :=
    ⟨_, rfl, List.mem_cons_self⟩
  have sees : Sees [[.add 1], [.propagate 0, .add 2], [.direct 1]] 2 1 :=
    ⟨Nat.one_lt_two, _, rfl, List.mem_cons_self⟩
  have inItems := (shows.items 1).mpr (.inr ⟨1, passing, sees, inFamily,
    (passes.propagated 1).mpr ⟨0, .single edge, owned⟩⟩)
  have rearranged := sameLists (fun position => position + 1)
    [[.add 1], [.add 2, .propagate 0], [.direct 1]] (fun _ _ => Nat.succ.inj) ?_ 2 value _ found rfl
  · exact ⟨value, _, found, rfl, inItems, rearranged.2.1⟩
  · intro position calls changed recipe otherRecipe
    match position with
    | 0 | 2 =>
        cases recipe
        cases otherRecipe
        exact .refl _
    | 1 =>
        cases recipe
        cases otherRecipe
        exact .symm _ _ (.rel _ _ (.move [] [] rfl rfl))

end Rearrangements

end MemoGraph.Metadata
