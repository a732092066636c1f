import BitSchema.Encoding.Lowering
import BitSchema.Index.Check
import BitSchema.Proofs.ErrorFree
import BitSchema.Proofs.Word

/-!
# Indices

The indices that are assigned to the items of a message or enum, and what it means that the checker
has no error to report for those that are given.  Indices are assigned as natural numbers and then
cut to 32 bits, so they are only known to differ where there are no more items than such indices.
-/

namespace BitSchema

open List

/-! ## The least free index -/

/-- How many of the reserved numbers are at least `n`. -/
def reservedFrom (reserved : List Nat) (n : Nat) : Nat := reserved.countP (n ≤ ·)

section

variable {reserved : List Nat} {n fuel : Nat}

theorem reservedFrom_zero (reserved : List Nat) : reservedFrom reserved 0 = reserved.length := by
  simp [reservedFrom]

theorem reservedFrom_succ_le (reserved : List Nat) (n : Nat) :
    reservedFrom reserved (n + 1) ≤ reservedFrom reserved n := by
  refine countP_mono_left fun k _ above => ?_
  rw [decide_eq_true_iff] at above ⊢
  omega

theorem reservedFrom_succ_lt (mem : n ∈ reserved) :
    reservedFrom reserved (n + 1) < reservedFrom reserved n := by
  induction reserved with
  | nil => cases mem
  | cons k reserved ih =>
    have rest := reservedFrom_succ_le reserved n
    unfold reservedFrom at ih rest ⊢
    rw [countP_cons, countP_cons]
    simp only [decide_eq_true_iff]
    by_cases here : k = n
    · rw [if_neg (by omega), if_pos (by omega)]
      omega
    · have later := ih ((mem_cons.mp mem).resolve_left (Ne.symm here))
      split <;> split <;> omega

/-- With fuel for every reserved number from `n` on, the search ends at the least number that is
free.  Each step of it leaves one reserved number behind. -/
theorem leastFree_spec (enough : reservedFrom reserved n ≤ fuel) :
    n ≤ leastFree reserved fuel n ∧ leastFree reserved fuel n ∉ reserved ∧
      (∀ k, n ≤ k → k < leastFree reserved fuel n → k ∈ reserved) ∧
      leastFree reserved fuel n + reservedFrom reserved (leastFree reserved fuel n) ≤
        n + reservedFrom reserved n := by
  induction fuel generalizing n with
  | zero =>
    have free : n ∉ reserved := fun mem => by
      have := reservedFrom_succ_lt mem
      omega
    unfold leastFree
    exact ⟨le_refl _, free, fun k _ _ => by omega, le_refl _⟩
  | succ fuel ih =>
    unfold leastFree
    by_cases mem : n ∈ reserved
    · have less := reservedFrom_succ_lt mem
      obtain ⟨above, free, between, total⟩ := ih (n := n + 1) (by omega)
      rw [if_pos mem]
      refine ⟨by omega, free, fun k start below => ?_, by omega⟩
      by_cases first : k = n
      · rwa [first]
      · exact between k (by omega) below
    · rw [if_neg mem]
      exact ⟨le_refl _, mem, fun k _ _ => by omega, le_refl _⟩

end

/-! ## Assignment -/

section

variable {reserved : List Nat} {next : Nat} {items : List (Option UInt64)}

/-- All indices that can still be assigned are below this. -/
def assignLimit (reserved : List Nat) (next : Nat) (items : List (Option UInt64)) : Nat :=
  next + reservedFrom reserved next + items.count none

/-- The index that an item without one gets, and what is left for the others. -/
theorem assignLimit_none (reserved : List Nat) (next : Nat) (items : List (Option UInt64)) :
    next ≤ leastFree reserved reserved.length next ∧
      leastFree reserved reserved.length next ∉ reserved ∧
      leastFree reserved reserved.length next < assignLimit reserved next (none :: items) ∧
      assignLimit reserved (leastFree reserved reserved.length next + 1) items ≤
        assignLimit reserved next (none :: items) := by
  have enough : reservedFrom reserved next ≤ reserved.length := countP_le_length
  obtain ⟨above, free, -, total⟩ := leastFree_spec enough
  have fewer := reservedFrom_succ_le reserved (leastFree reserved reserved.length next)
  unfold assignLimit
  rw [count_cons_self]
  exact ⟨above, free, by omega, by omega⟩

/-- An assigned index is one that was given, or a free number from `next` on. -/
theorem mem_assignFrom {i : UInt32} (mem : i ∈ assignFrom reserved next items) :
    (∃ given, some given ∈ items ∧ i = given.toUInt32) ∨
      ∃ m, next ≤ m ∧ m ∉ reserved ∧ m < assignLimit reserved next items ∧ i = UInt32.ofNat m := by
  induction items generalizing next with
  | nil => cases mem
  | cons item items ih =>
    cases item with
    | some given =>
      rw [assignFrom] at mem
      rcases mem_cons.mp mem with same | mem
      · exact .inl ⟨given, mem_cons_self, same⟩
      · rcases ih mem with ⟨other, inside, same⟩ | ⟨m, above, free, below, same⟩
        · exact .inl ⟨other, mem_cons_of_mem _ inside, same⟩
        · refine .inr ⟨m, above, free, ?_, same⟩
          rwa [assignLimit, count_cons_of_ne (by simp)]
    | none =>
      obtain ⟨start, free, below, less⟩ := assignLimit_none reserved next items
      rw [assignFrom] at mem
      rcases mem_cons.mp mem with same | mem
      · exact .inr ⟨_, start, free, below, same⟩
      · rcases ih mem with ⟨other, inside, same⟩ | ⟨m, above, free, below, same⟩
        · exact .inl ⟨other, mem_cons_of_mem _ inside, same⟩
        · exact .inr ⟨m, by omega, free, by omega, same⟩

/-- A free number does not become one that was given when it is cut to 32 bits. -/
theorem ofNat_ne_given {m : Nat} {given : UInt64} (small : m < 2 ^ 32) (free : m ∉ reserved)
    (kept : given.toUInt32.toNat ∈ reserved) : UInt32.ofNat m ≠ given.toUInt32 := by
  intro same
  rw [← same, UInt32.toNat_ofNat_of_lt' small] at kept
  exact free kept

theorem nodup_assignFrom (few : assignLimit reserved next items ≤ 2 ^ 32)
    (distinct : (items.filterMap (·.map UInt64.toUInt32)).Nodup)
    (kept : ∀ given, some given ∈ items → given.toUInt32.toNat ∈ reserved) :
    (assignFrom reserved next items).Nodup := by
  induction items generalizing next with
  | nil => exact nodup_nil
  | cons item items ih =>
    have keptLater := fun given mem => kept given (mem_cons_of_mem _ mem)
    cases item with
    | some given =>
      have keptHere := kept given mem_cons_self
      simp only [filterMap_cons, Option.map_some, nodup_cons] at distinct
      rw [assignLimit, count_cons_of_ne (by simp)] at few
      rw [assignFrom, nodup_cons]
      refine ⟨fun mem => ?_, ih few distinct.2 keptLater⟩
      rcases mem_assignFrom mem with ⟨other, inside, same⟩ | ⟨m, -, free, below, same⟩
      · exact distinct.1 (mem_filterMap.mpr ⟨some other, inside, by rw [same]; rfl⟩)
      · exact ofNat_ne_given (below.trans_le few) free keptHere same.symm
    | none =>
      obtain ⟨-, free, below, less⟩ := assignLimit_none reserved next items
      have small := below.trans_le few
      rw [filterMap_cons_none rfl] at distinct
      rw [assignFrom, nodup_cons]
      refine ⟨fun mem => ?_, ih (less.trans few) distinct keptLater⟩
      rcases mem_assignFrom mem with ⟨other, inside, same⟩ | ⟨m, above, -, least, same⟩
      · exact ofNat_ne_given small free (keptLater other inside) same
      · have := congrArg UInt32.toNat same
        rw [UInt32.toNat_ofNat_of_lt' small,
          UInt32.toNat_ofNat_of_lt' (least.trans_le (less.trans few))] at this
        omega

end

theorem assignLimit_zero (items : List (Option UInt64)) :
    assignLimit (items.filterMap fun g => g.map (·.toUInt32.toNat)) 0 items = items.length := by
  rw [assignLimit, reservedFrom_zero, Nat.zero_add]
  induction items with
  | nil => rfl
  | cons item items ih =>
    cases item with
    | some given =>
      simp only [filterMap_cons, Option.map_some, length_cons]
      rw [count_cons_of_ne (by simp)]
      omega
    | none =>
      simp only [filterMap_cons, Option.map_none, length_cons]
      rw [count_cons_self]
      omega

theorem toUInt32_inj_of_le {a b : UInt64} (narrowA : a.toNat ≤ maxIndex)
    (narrowB : b.toNat ≤ maxIndex) (same : a.toUInt32 = b.toUInt32) : a = b := by
  have limit : maxIndex = 2 ^ 32 - 1 := rfl
  have cut := congrArg UInt32.toNat same
  rw [UInt64.toNat_toUInt32, UInt64.toNat_toUInt32] at cut
  apply UInt64.toNat_inj.mp
  omega

/-- Items that are given different indices in range, if any, end up with different indices. -/
theorem nodup_assignIndices {items : List (Option UInt64)} (few : items.length ≤ 2 ^ 32)
    (narrow : ∀ given, some given ∈ items → given.toNat ≤ maxIndex)
    (distinct : (items.filterMap id).Nodup) : (assignIndices items).Nodup := by
  have inRange : ∀ given ∈ items.filterMap id, given.toNat ≤ maxIndex := by
    intro given mem
    obtain ⟨item, mem, rfl⟩ := mem_filterMap.mp mem
    exact narrow given mem
  have cut : items.filterMap (·.map UInt64.toUInt32) =
      (items.filterMap id).map UInt64.toUInt32 := by
    rw [map_filterMap]
    rfl
  refine nodup_assignFrom ?_ ?_ fun given mem => mem_filterMap.mpr ⟨some given, mem, rfl⟩
  · rw [assignLimit_zero]
    exact few
  · rw [cut]
    exact List.Nodup.map_on
      (fun a memA b memB same => toUInt32_inj_of_le (inRange a memA) (inRange b memB) same) distinct

theorem length_assignIndices (items : List (Option UInt64)) :
    (assignIndices items).length = items.length := by
  have all : ∀ (reserved : List Nat) (next : Nat),
      (assignFrom reserved next items).length = items.length := by
    intro reserved next
    induction items generalizing next with
    | nil => rfl
    | cons item items ih => cases item <;> simp [assignFrom, ih]
  exact all _ 0

/-! ## Discriminants -/

/-- A discriminant is as wide as one of the tiers, and holds its value if any of them does. -/
theorem discriminantWidth_spec (n : Nat) :
    1 ≤ discriminantWidth n ∧ discriminantWidth n ≤ 64 ∧
      (n < 2 ^ discriminantWidth n ∨ discriminantWidth n = 64) := by
  unfold discriminantWidth
  cases found : discriminantTiers.find? (bitLength n ≤ ·) with
  | none => simp
  | some width =>
    have tier := mem_of_find?_eq_some found
    have fits := find?_some found
    rw [decide_eq_true_iff] at fits
    simp only [discriminantTiers, mem_cons, not_mem_nil, or_false] at tier
    rw [Option.getD_some]
    refine ⟨by omega, by omega, .inl (bitLength_le_iff.mp fits)⟩

theorem le_foldl_max (ns : List Nat) (start : Nat) :
    start ≤ ns.foldl max start ∧ ∀ n ∈ ns, n ≤ ns.foldl max start := by
  induction ns generalizing start with
  | nil => simp
  | cons first ns ih =>
    obtain ⟨low, rest⟩ := ih (max start first)
    rw [foldl_cons, forall_mem_cons]
    exact ⟨by omega, by omega, rest⟩

/-- The discriminant of an enum holds every index of it. -/
theorem discriminant_spec (indices : List UInt32) :
    (1 ≤ (Lowering.discriminant indices).wire.bits.toNat ∧
      (Lowering.discriminant indices).wire.bits.toNat ≤ 64) ∧
      ∀ i ∈ indices, i.toNat < 2 ^ (Lowering.discriminant indices).wire.bits.toNat := by
  unfold Lowering.discriminant Ir.WireFormat.ofBits
  dsimp only
  generalize large : (indices.map UInt32.toNat).foldl max (max indices.length 2 - 1) = largest
  obtain ⟨some, narrow, holds⟩ := discriminantWidth_spec largest
  rw [UInt32.toNat_ofNat_of_lt' (by change _ < 2 ^ 32; omega)]
  refine ⟨⟨some, narrow⟩, fun i mem => ?_⟩
  rcases holds with holds | whole
  · have below := (le_foldl_max _ (max indices.length 2 - 1)).2 i.toNat (mem_map_of_mem mem)
    rw [large] at below
    omega
  · rw [whole]
    exact i.toNat_lt.trans (by decide)

/-! ## Checks of names and indices -/

namespace IndexScope

/-- The items in a scope have names of their own, and indices of their own as far as they are given
any, all of them in range. -/
structure Apart (s : IndexScope) : Prop where
  names : (s.names.map (·.value)).Nodup
  indices : (s.indices.map (·.2.value)).Nodup
  narrow : ∀ entry ∈ s.indices, entry.2.value.toNat ≤ maxIndex

variable {s : IndexScope} {item : IndexedItem} {items : List IndexedItem}

/-- The scope with more items. -/
def extended (s : IndexScope) (items : List IndexedItem) : IndexScope :=
  { s with
    names := s.names ++ items.map (·.name)
    indices := s.indices ++ items.filterMap fun item => item.index.map (item.name, ·) }

theorem nameProblem?_of_errorFree (clean : ErrorFree (s.nameProblem? item.name).toList) :
    s.nameProblem? item.name = none ∧ item.name.value ∉ s.names.map (·.value) := by
  unfold nameProblem? at clean ⊢
  cases found : s.names.find? (·.value == item.name.value) with
  | some first =>
    rw [found] at clean
    exact (not_errorFree_of_code clean (show 3011 < 4000 by decide)).elim
  | none =>
    refine ⟨rfl, fun mem => ?_⟩
    obtain ⟨first, mem, same⟩ := mem_map.mp mem
    have := find?_eq_none.mp found first mem
    simp [same] at this

theorem indexProblem?_of_errorFree {index : Source.IntLit}
    (clean : ErrorFree (s.indexProblem? item.name index).toList) :
    s.indexProblem? item.name index = none ∧ index.value.toNat ≤ maxIndex ∧
      index.value ∉ s.indices.map (·.2.value) := by
  unfold indexProblem? at clean ⊢
  split at clean
  next wide => exact (not_errorFree_of_code clean (show 3010 < 4000 by decide)).elim
  next narrow =>
    cases found : s.indices.find? (·.2.value == index.value) with
    | some first =>
      rw [found] at clean
      exact (not_errorFree_of_code clean (show 3009 < 4000 by decide)).elim
    | none =>
      refine ⟨by rw [if_neg narrow]; rfl, Nat.le_of_not_lt narrow, fun mem => ?_⟩
      obtain ⟨first, mem, same⟩ := mem_map.mp mem
      have := find?_eq_none.mp found first mem
      simp [same] at this

theorem extended_nil (s : IndexScope) : s.extended [] = s := by simp [extended]

theorem extended_cons (s : IndexScope) (item : IndexedItem) (items : List IndexedItem) :
    s.extended (item :: items) = (s.extended [item]).extended items := by
  cases index : item.index with
  | none | some i => simp [extended, index]

theorem Apart.extend (apart : s.Apart) (named : item.name.value ∉ s.names.map (·.value))
    (given : ∀ index ∈ item.index, index.value.toNat ≤ maxIndex ∧
      index.value ∉ s.indices.map (·.2.value)) : (s.extended [item]).Apart := by
  have names : ((s.extended [item]).names.map (·.value)).Nodup := by
    rw [extended, map_append, nodup_append]
    refine ⟨apart.names, by simp, fun a mem b last same => named ?_⟩
    rw [map_singleton, map_singleton, mem_singleton] at last
    rwa [← last, ← same]
  cases index : item.index with
  | none =>
    have same : (s.extended [item]).indices = s.indices := by simp [extended, index]
    exact ⟨names, same ▸ apart.indices, same ▸ apart.narrow⟩
  | some i =>
    obtain ⟨narrow, fresh⟩ := given i index
    have more : (s.extended [item]).indices = s.indices ++ [(item.name, i)] := by
      simp [extended, index]
    refine ⟨names, ?_, ?_⟩
    · rw [more, map_append, nodup_append]
      refine ⟨apart.indices, by simp, fun a mem b last same => fresh ?_⟩
      rw [map_singleton, mem_singleton] at last
      rwa [← last, ← same]
    · rw [more]
      intro entry mem
      rcases mem_append.mp mem with mem | last
      · exact apart.narrow entry mem
      · rw [mem_singleton.mp last]
        exact narrow

/-- An item without errors is entered, and the scope stays as it should be. -/
theorem Apart.add (apart : s.Apart) (clean : ErrorFree (s.add item).2) :
    (s.add item).1 = s.extended [item] ∧ (s.extended [item]).Apart := by
  unfold IndexScope.add at clean ⊢
  cases index : item.index with
  | none =>
    simp only [index] at clean
    obtain ⟨noName, named⟩ := nameProblem?_of_errorFree clean
    refine ⟨by simp [noName, extended, index], apart.extend named ?_⟩
    rw [index]
    exact nofun
  | some i =>
    have both : ErrorFree ((s.nameProblem? item.name).toList ++
        (s.indexProblem? item.name i).toList) := by
      simp only [index] at clean
      cases problem : s.indexProblem? item.name i with
      | none | some p => simpa [problem] using clean
    rw [errorFree_append] at both
    obtain ⟨noName, named⟩ := nameProblem?_of_errorFree both.1
    obtain ⟨noIndex, narrow, fresh⟩ := indexProblem?_of_errorFree both.2
    refine ⟨by simp [noName, noIndex, extended, index], apart.extend named ?_⟩
    rw [index]
    intro other same
    cases same
    exact ⟨narrow, fresh⟩

theorem Apart.addAll (apart : s.Apart) (clean : ErrorFree (s.addAll items)) :
    (s.extended items).Apart := by
  induction items generalizing s with
  | nil =>
    rw [extended_nil]
    exact apart
  | cons item items ih =>
    rw [IndexScope.addAll, errorFree_append] at clean
    obtain ⟨next, apart⟩ := apart.add clean.1
    rw [extended_cons]
    refine ih apart ?_
    rw [← next]
    exact clean.2

theorem apart_empty (kind container : String) : Apart ⟨kind, container, [], []⟩ :=
  ⟨nodup_nil, nodup_nil, nofun⟩

end IndexScope

namespace IndexScope

/-- Items without errors: they have different names, and different indices in range as far as they
are given any. -/
theorem items_of_addAll {kind container : String} {items : List IndexedItem}
    (clean : ErrorFree (addAll ⟨kind, container, [], []⟩ items)) :
    (items.map (·.name.value)).Nodup ∧
      ((items.map fun item => item.index.map (·.value)).filterMap id).Nodup ∧
      ∀ given, some given ∈ items.map (fun item => item.index.map (·.value)) →
        given.toNat ≤ maxIndex := by
  have apart := (apart_empty kind container).addAll clean
  have indices : (items.map fun item => item.index.map (·.value)).filterMap id =
      ((extended ⟨kind, container, [], []⟩ items).indices.map (·.2.value)) := by
    simp only [extended, nil_append, filterMap_map, map_filterMap]
    refine filterMap_congr fun item _ => ?_
    cases index : item.index <;> simp [index]
  refine ⟨?_, ?_, fun given mem => ?_⟩
  · simpa [extended, Function.comp_def] using apart.names
  · rw [indices]
    exact apart.indices
  · have inside : given ∈ (items.map fun item => item.index.map (·.value)).filterMap id :=
      mem_filterMap.mpr ⟨some given, mem, rfl⟩
    rw [indices] at inside
    obtain ⟨entry, entered, rfl⟩ := mem_map.mp inside
    exact apart.narrow entry entered

end IndexScope

/-- An enum without errors: its variants have different names, and different indices in range as far
as they are given any. -/
theorem variants_of_checkEnumIndices {e : Source.Enum} (clean : ErrorFree (checkEnumIndices e)) :
    (e.variants.map (·.name.value)).Nodup ∧
      ((e.variants.map fun v => v.index.map (·.value)).filterMap id).Nodup ∧
      ∀ given, some given ∈ e.variants.map (fun v => v.index.map (·.value)) →
        given.toNat ≤ maxIndex := by
  have items := IndexScope.items_of_addAll clean
  rwa [map_map, map_map] at items

/-! ## Members of a message -/

/-- What is checked of the type that a member declares. -/
def checkDeclared : Source.Member → List Diagnostic
  | .field _ => []
  | .message m => checkMessageIndices m
  | .enum e => checkEnumIndices e

/-- Fields are reported apart from the types that are declared between them. -/
theorem perm_checkMemberIndices (s : IndexScope) (members : List Source.Member) :
    (checkMemberIndices s members).Perm
      (s.addAll ((members.filterMap Source.Member.field?).map fun f => ⟨f.name, f.index⟩) ++
        members.flatMap checkDeclared) := by
  induction members generalizing s with
  | nil => simp [checkMemberIndices, IndexScope.addAll]
  | cons member members ih =>
    cases member with
    | field f =>
      simp only [checkMemberIndices, filterMap_cons, Source.Member.field?, map_cons,
        IndexScope.addAll, flatMap_cons, checkDeclared, nil_append, append_assoc]
      exact (ih _).append_left _
    | message m | enum e =>
      simp only [checkMemberIndices, filterMap_cons, Source.Member.field?,
        flatMap_cons, checkDeclared]
      exact ((ih s).append_left _).trans (perm_append_comm_assoc _ _ _)

theorem errorFree_checkMemberIndices {s : IndexScope} {members : List Source.Member} :
    ErrorFree (checkMemberIndices s members) ↔
      ErrorFree (s.addAll ((members.filterMap Source.Member.field?).map fun f =>
        ⟨f.name, f.index⟩)) ∧ ∀ m ∈ members, ErrorFree (checkDeclared m) := by
  have apart := perm_checkMemberIndices s members
  rw [← errorFree_flatMap, ← errorFree_append]
  exact ⟨fun clean => clean.perm apart, fun clean => clean.perm apart.symm⟩

/-- A message without errors: its fields have different names, and different indices in range as far
as they are given any. -/
theorem fields_of_checkMemberIndices {kind container : String} {members : List Source.Member}
    (clean : ErrorFree (checkMemberIndices ⟨kind, container, [], []⟩ members)) :
    ((members.filterMap Source.Member.field?).map (·.name.value)).Nodup ∧
      (((members.filterMap Source.Member.field?).map fun f => f.index.map (·.value)).filterMap
        id).Nodup ∧
      ∀ given, some given ∈ (members.filterMap Source.Member.field?).map
        (fun f => f.index.map (·.value)) → given.toNat ≤ maxIndex := by
  have items := IndexScope.items_of_addAll (errorFree_checkMemberIndices.mp clean).1
  rwa [map_map, map_map] at items

end BitSchema
