import BitSchema.Proofs.LoweredSchemas
import BitSchema.Proofs.SourceDeclarations

/-!
# Assigned indices

The fields of a message and the variants of an enum are numbered.  What is given an index keeps it,
and what is given none gets the least number that is still free (`Assigned`).

The assignment runs through the items once and never goes back.  It can do so because at each item
all numbers below the next one are taken (`Taken`), either by an item that is given its index, early
or late, or by one that was assigned its index before.

Indices have 32 bits.  They are enough for a source that is read: its declarations stand side by
side in it, and it has fewer octets than there are indices.
-/

namespace BitSchema

open List

/-! ## The next index -/

/-- How far an assignment has come: `done` are the indices so far, and every number below `next` is
among them or reserved. -/
structure Taken (reserved : List Nat) (next : Nat) (done : List UInt32) : Prop where
  below : ∀ k < next, k ∈ reserved ∨ ∃ i ∈ done, i.toNat = k
  done : ∀ i ∈ done, i.toNat < next ∨ i.toNat ∈ reserved

namespace Taken

variable {reserved : List Nat} {next : Nat} {done : List UInt32}

theorem start (reserved : List Nat) : Taken reserved 0 [] :=
  ⟨fun k below => absurd below (Nat.not_lt_zero k), by simp⟩

section

variable (taken : Taken reserved next done)

include taken

/-- An item that is given its index. -/
theorem given {i : UInt32} (kept : i.toNat ∈ reserved) :
    Taken reserved next (done ++ [i]) where
  below k below := by
    rcases taken.below k below with isReserved | ⟨j, mem, same⟩
    · exact .inl isReserved
    · exact .inr ⟨j, mem_append_left _ mem, same⟩
  done := by
    rw [forall_mem_append, forall_mem_singleton]
    exact ⟨taken.done, .inr kept⟩

/-- The least free number from `next` on is the least free number at all. -/
theorem isLeast :
    IsLeast {k | k ∉ reserved ∧ ∀ i ∈ done, i.toNat ≠ k}
      (leastFree reserved reserved.length next) := by
  have enough : reservedFrom reserved next ≤ reserved.length := countP_le_length
  obtain ⟨above, free, between, -⟩ := leastFree_spec enough
  refine ⟨⟨free, fun i mem same => ?_⟩, fun k isFree => ?_⟩
  · rcases taken.done i mem with below | isReserved
    · omega
    · exact free (same ▸ isReserved)
  · by_contra less
    by_cases early : k < next
    · rcases taken.below k early with isReserved | ⟨i, mem, same⟩
      · exact isFree.1 isReserved
      · exact isFree.2 i mem same
    · exact isFree.1 (between k (Nat.le_of_not_lt early) (Nat.lt_of_not_le less))

/-- An item that gets the least free number. -/
theorem free (small : leastFree reserved reserved.length next < 2 ^ 32) :
    Taken reserved (leastFree reserved reserved.length next + 1)
      (done ++ [UInt32.ofNat (leastFree reserved reserved.length next)]) where
  below k below := by
    rcases Nat.lt_succ_iff_lt_or_eq.mp below with less | rfl
    · by_cases isReserved : k ∈ reserved
      · exact .inl isReserved
      · by_contra notTaken
        refine absurd (taken.isLeast.2 ⟨isReserved, fun i mem same => notTaken (.inr ?_)⟩)
          (Nat.not_le_of_lt less)
        exact ⟨i, mem_append_left _ mem, same⟩
    · exact .inr ⟨_, by simp, UInt32.toNat_ofNat_of_lt' small⟩
  done := by
    have enough : reservedFrom reserved next ≤ reserved.length := countP_le_length
    obtain ⟨above, -⟩ := leastFree_spec enough
    rw [forall_mem_append, forall_mem_singleton, UInt32.toNat_ofNat_of_lt' small]
    refine ⟨fun i mem => ?_, .inl (Nat.lt_succ_self _)⟩
    exact (taken.done i mem).imp_left fun below => by omega

end

end Taken

/-! ## Whole assignments -/

/-- Indices of items, some of which are given one.  Those that are given stay, and an item without
one has the least number that no item is given, and that no earlier item has. -/
structure Assigned (given : List (Option UInt64)) (indices : List UInt32) : Prop where
  length : indices.length = given.length
  distinct : indices.Nodup
  kept : ∀ (n : Nat) (g : UInt64) (i : UInt32), given[n]? = some (some g) → indices[n]? = some i →
    i.toNat = g.toNat
  least : ∀ (n : Nat) (i : UInt32), given[n]? = some none → indices[n]? = some i →
    IsLeast {k | (∀ g, some g ∈ given → g.toNat ≠ k) ∧ ∀ j ∈ indices.take n, j.toNat ≠ k} i.toNat
  below : ∀ (n : Nat) (i : UInt32), given[n]? = some none → indices[n]? = some i →
    i.toNat < given.length

section

variable {reserved : List Nat} {next n : Nat} {done : List UInt32} {items : List (Option UInt64)}
  {i : UInt32}

theorem assignFrom_given {g : UInt64} (item : items[n]? = some (some g))
    (index : (assignFrom reserved next items)[n]? = some i) : i = g.toUInt32 := by
  induction items generalizing next n with
  | nil => simp at item
  | cons first items ih =>
    cases n with
    | zero =>
      rw [getElem?_cons_zero, Option.some_inj] at item
      subst item
      rw [assignFrom, getElem?_cons_zero, Option.some_inj] at index
      exact index.symm
    | succ n =>
      cases first <;> exact ih item index

/-- By induction on the items: what comes before an item is `done` and the indices that were
assigned on the way to it. -/
theorem assignFrom_free (taken : Taken reserved next done)
    (few : assignLimit reserved next items ≤ 2 ^ 32)
    (kept : ∀ g, some g ∈ items → g.toUInt32.toNat ∈ reserved) (item : items[n]? = some none)
    (index : (assignFrom reserved next items)[n]? = some i) :
    IsLeast {k | k ∉ reserved ∧
        ∀ j ∈ done ++ (assignFrom reserved next items).take n, j.toNat ≠ k} i.toNat ∧
      i.toNat < assignLimit reserved next items := by
  induction items generalizing next n done with
  | nil => simp at item
  | cons first items ih =>
    have keptLater := fun g mem => kept g (mem_cons_of_mem _ mem)
    cases first with
    | some g =>
      rw [assignLimit, count_cons_of_ne (by simp)] at few ⊢
      cases n with
      | zero => simp at item
      | succ n =>
        have later := ih (taken.given (kept g mem_cons_self)) few keptLater item index
        rwa [append_assoc] at later
    | none =>
      obtain ⟨-, -, below, less⟩ := assignLimit_none reserved next items
      have small := below.trans_le few
      cases n with
      | zero =>
        rw [assignFrom, getElem?_cons_zero, Option.some_inj] at index
        rw [← index, UInt32.toNat_ofNat_of_lt' small, take_zero, append_nil]
        exact ⟨taken.isLeast, below⟩
      | succ n =>
        have later := ih (taken.free small) (less.trans few) keptLater item index
        rw [append_assoc] at later
        exact ⟨later.1, later.2.trans_le less⟩

end

/-- Items that are given different indices in range, if any, are assigned the least indices. -/
theorem assigned_assignIndices {given : List (Option UInt64)} (few : given.length ≤ 2 ^ 32)
    (narrow : ∀ g, some g ∈ given → g.toNat ≤ maxIndex) (distinct : (given.filterMap id).Nodup) :
    Assigned given (assignIndices given) := by
  have whole : ∀ g, some g ∈ given → g.toUInt32.toNat = g.toNat := by
    intro g mem
    have limit : maxIndex = 2 ^ 32 - 1 := rfl
    have inRange := narrow g mem
    rw [UInt64.toNat_toUInt32, Nat.mod_eq_of_lt (by omega)]
  have isReserved : ∀ k, k ∈ given.filterMap (fun g => g.map (·.toUInt32.toNat)) ↔
      ∃ g, some g ∈ given ∧ g.toNat = k := by
    intro k
    rw [mem_filterMap]
    constructor
    · rintro ⟨item, mem, same⟩
      obtain ⟨g, rfl, cut⟩ := Option.map_eq_some_iff.mp same
      exact ⟨g, mem, (whole g mem).symm.trans cut⟩
    · rintro ⟨g, mem, same⟩
      exact ⟨some g, mem, by rw [Option.map_some, whole g mem, same]⟩
  have reach := fun n i (item : given[n]? = some none)
      (index : (assignIndices given)[n]? = some i) =>
    assignFrom_free (.start _) (by rwa [assignLimit_zero])
      (fun g mem => (isReserved _).mpr ⟨g, mem, (whole g mem).symm⟩) item index
  refine ⟨length_assignIndices given, nodup_assignIndices few narrow distinct, ?_, ?_, ?_⟩
  · intro n g i item index
    rw [assignFrom_given item index]
    exact whole g (mem_of_getElem? item)
  · intro n i item index
    have least := (reach n i item index).1
    simp only [isReserved, nil_append, not_exists, not_and] at least
    exact least
  · intro n i item index
    have below := (reach n i item index).2
    rwa [assignLimit_zero] at below

/-! ## Lowered fields and variants -/

/-- The indices of a source that is read.  Fields and variants stand in the order of the source, and
their indices are assigned as `Assigned` says, in every message and enum without errors. -/
theorem assigned_of_parse {file : String} {source : ByteArray} {schema : Source.Schema}
    (ok : Source.Schema.parse file source = .ok schema) (table : SymbolTable)
    (scope : Descriptor) :
    (∀ m ∈ schema.allMessages, ErrorFree (checkMessageIndices m) →
      ∀ lowered, Lowering.message table scope m = .ok lowered →
        lowered.fields.map (·.name) = m.fields.map (·.name.value) ∧
        Assigned (m.fields.map fun f => f.index.map (·.value)) (lowered.fields.map (·.index))) ∧
    ∀ e ∈ schema.allEnums, ErrorFree (checkEnumIndices e) →
      ∀ lowered, Lowering.enum table scope e = .ok lowered →
        lowered.variants.map (·.name) = e.variants.map (·.name.value) ∧
        Assigned (e.variants.map fun v => v.index.map (·.value))
          (lowered.variants.map (·.index)) := by
  constructor
  · intro m mem clean lowered lowers
    have made := Lowering.message_ok lowers
    have few := Source.fields_of_parse ok m mem
    obtain ⟨span, doc, name, members⟩ := m
    rw [checkMessageIndices] at clean
    obtain ⟨-, distinct, narrow⟩ := fields_of_checkMemberIndices clean
    rw [made.indices]
    exact ⟨made.names, assigned_assignIndices (by rwa [length_map]) narrow distinct⟩
  · intro e mem clean lowered lowers
    have made := Lowering.enum_ok lowers
    obtain ⟨-, distinct, narrow⟩ := variants_of_checkEnumIndices clean
    rw [made.indices]
    refine ⟨made.names, assigned_assignIndices ?_ narrow distinct⟩
    rw [length_map]
    exact Source.indexable_of_parse ok e mem

/-- A message and an enum with given indices among others; the first field has to leave out an index
that is given after it. -/
def numberedSource : ByteArray :=
  "package a; message M \x7b u8 a; 0: u8 b; u8 c; ".toUTF8 ++
    "enum E \x7b 1: A; B; C; \x7d 2: u8 d; u8 e; \x7d".toUTF8

theorem assigned_of_parse_numbered :
    ∃ schema, Source.Schema.parse "m" numberedSource = .ok schema ∧
      (∃ m ∈ schema.allMessages, ErrorFree (checkMessageIndices m) ∧
        ∃ lowered, Lowering.message {} {} m = .ok lowered ∧
          lowered.fields.map (·.index) = [1, 0, 3, 2, 4] ∧
          Assigned (m.fields.map fun f => f.index.map (·.value)) (lowered.fields.map (·.index))) ∧
      ∃ e ∈ schema.allEnums, ErrorFree (checkEnumIndices e) ∧
        ∃ lowered, Lowering.enum {} {} e = .ok lowered ∧
          lowered.variants.map (·.index) = [1, 0, 2] ∧
          Assigned (e.variants.map fun v => v.index.map (·.value))
            (lowered.variants.map (·.index)) := by
  have run : ∃ schema ∈ (Source.Schema.parse "m" numberedSource).toOption,
      (∃ m ∈ schema.allMessages, (∀ d ∈ checkMessageIndices m, d.isError = false) ∧
        ∃ lowered ∈ (Lowering.message {} {} m).toOption,
          lowered.fields.map (·.index) = [1, 0, 3, 2, 4]) ∧
      ∃ e ∈ schema.allEnums, (∀ d ∈ checkEnumIndices e, d.isError = false) ∧
        ∃ lowered ∈ (Lowering.enum {} {} e).toOption,
          lowered.variants.map (·.index) = [1, 0, 2] := by
    decide +kernel
  obtain ⟨schema, read, ⟨m, mem, clean, lowered, lowers, indices⟩,
    e, mem', clean', lowered', lowers', indices'⟩ := run
  have ok := toOption_eq_some_iff.mp read
  obtain ⟨messages, enums⟩ := assigned_of_parse ok {} {}
  have lowers := toOption_eq_some_iff.mp lowers
  have lowers' := toOption_eq_some_iff.mp lowers'
  exact ⟨schema, ok, ⟨m, mem, clean, lowered, lowers, indices, (messages m mem clean _ lowers).2⟩,
    e, mem', clean', lowered', lowers', indices', (enums e mem' clean' _ lowers').2⟩

end BitSchema
