import Mathlib
import BitSchema.Symbol.Table

/-!
# Symbol tables

A symbol table that is only ever given new names is a list of symbols with different full names.
`Records` says which types and packages these are; the types are in the order in which they came,
and a package may be named more than once, since only its first mention is stored.
-/

namespace BitSchema

open List

theorem find?_of_nodup {α : Type} {key : α → String} {as : List α}
    (distinct : (as.map key).Nodup) {a : α} (mem : a ∈ as) :
    as.find? (key · == key a) = some a := by
  obtain ⟨b, found⟩ : ∃ b, as.find? (key · == key a) = some b := by
    rw [← Option.isSome_iff_exists, find?_isSome]
    exact ⟨a, mem, by simp⟩
  have same : key b = key a := by simpa using find?_some found
  rw [found, inj_on_of_nodup_map distinct (mem_of_find?_eq_some found) mem same]

namespace SymbolTable

/-- The table has these symbols under their full names, and every name once. -/
def Holds (t : SymbolTable) (ss : List Symbol) : Prop :=
  t.entries = ss.map (fun s => (s.fullName, s)) ∧ (ss.map Symbol.fullName).Nodup

variable {t : SymbolTable} {ss : List Symbol} {s : Symbol} {name : String}

theorem holds_empty : Holds {} [] := ⟨rfl, nodup_nil⟩

section

variable (holds : t.Holds ss)

include holds

theorem Holds.get? (name : String) : t.get? name = ss.find? (·.fullName == name) := by
  rw [SymbolTable.get?, holds.1, find?_map, Option.map_map]
  exact Option.map_id'

theorem Holds.mem_of_get? (found : t.get? name = some s) : s ∈ ss ∧ s.fullName = name := by
  rw [holds.get?] at found
  exact ⟨mem_of_find?_eq_some found, by simpa using find?_some found⟩

theorem Holds.get?_of_mem (mem : s ∈ ss) : t.get? s.fullName = some s := by
  rw [holds.get?]
  exact find?_of_nodup holds.2 mem

theorem Holds.not_mem_of_get? (missed : t.get? name = none) : name ∉ ss.map Symbol.fullName := by
  rw [holds.get?, find?_eq_none] at missed
  intro mem
  obtain ⟨s, inside, same⟩ := mem_map.mp mem
  exact missed s inside (by simpa using same)

theorem Holds.insert (new : t.get? s.fullName = none) : (t.insert s).Holds (ss ++ [s]) := by
  have fresh := holds.not_mem_of_get? new
  refine ⟨?_, ?_⟩
  · simp [SymbolTable.insert, new, holds.1]
  · rw [map_append, map_singleton, ← concat_eq_append]
    exact holds.2.concat fresh

end

end SymbolTable

/-! ## Types and packages -/

/-- Types and packages of which no two claim one full name; only a package may come again. -/
structure Compatible (types : List Symbol) (packages : List PackageName) : Prop where
  distinct : (types.map Symbol.fullName).Nodup
  apart : ∀ s ∈ types, ∀ p ∈ packages, s.fullName ≠ (Descriptor.ofPackage p).text

theorem Compatible.of_append {ts us : List Symbol} {ps qs : List PackageName}
    (all : Compatible (ts ++ us) (ps ++ qs)) : Compatible ts ps where
  distinct := by
    have distinct := all.distinct
    rw [map_append] at distinct
    exact (nodup_append.mp distinct).1
  apart s mem p inside :=
    all.apart s (mem_append_left _ mem) p (mem_append_left _ inside)

/-- Symbols that are these types, in this order, and these packages. -/
structure Listed (ss types : List Symbol) (packages : List PackageName) : Prop where
  types : ss.filter (fun s => s.kind ≠ .package) = types
  known : ∀ s ∈ ss, s.kind = .package → ∃ p ∈ packages, s.descriptor = .ofPackage p
  there : ∀ p ∈ packages, ∃ s ∈ ss, s.kind = .package ∧ s.fullName = (Descriptor.ofPackage p).text

namespace Listed

variable {ss ts : List Symbol} {ps : List PackageName} {s : Symbol} {p : PackageName}

section

variable (listed : Listed ss ts ps)

include listed

theorem mem_types : s ∈ ts ↔ s ∈ ss ∧ s.kind ≠ .package := by
  rw [← listed.types, mem_filter, decide_eq_true_iff]

theorem addType (type : s.kind ≠ .package) :
    Listed (ss ++ [s]) (ts ++ [s]) ps where
  types := by
    rw [filter_append, listed.types]
    simp [type]
  known := by
    rw [forall_mem_append]
    exact ⟨listed.known, by simp [type]⟩
  there q mem := by
    obtain ⟨t, inside, same⟩ := listed.there q mem
    exact ⟨t, mem_append_left _ inside, same⟩

theorem addPackage (package : s.kind = .package)
    (descriptor : s.descriptor = .ofPackage p) : Listed (ss ++ [s]) ts (ps ++ [p]) where
  types := by
    rw [filter_append, listed.types]
    simp [package]
  known := by
    rw [forall_mem_append]
    refine ⟨fun t mem isPackage => ?_, ?_⟩
    · obtain ⟨q, inside, same⟩ := listed.known t mem isPackage
      exact ⟨q, mem_append_left _ inside, same⟩
    · rw [forall_mem_singleton]
      exact fun _ => ⟨p, by simp, descriptor⟩
  there := by
    rw [forall_mem_append]
    refine ⟨fun q mem => ?_, ?_⟩
    · obtain ⟨t, inside, same⟩ := listed.there q mem
      exact ⟨t, mem_append_left _ inside, same⟩
    · rw [forall_mem_singleton]
      exact ⟨s, by simp, package, by rw [Symbol.fullName, descriptor]⟩

/-- A package that is there already. -/
theorem addKnown (mem : s ∈ ss) (package : s.kind = .package)
    (same : s.fullName = (Descriptor.ofPackage p).text) : Listed ss ts (ps ++ [p]) where
  types := listed.types
  known t mem isPackage := by
    obtain ⟨q, inside, same⟩ := listed.known t mem isPackage
    exact ⟨q, mem_append_left _ inside, same⟩
  there := by
    rw [forall_mem_append, forall_mem_singleton]
    exact ⟨listed.there, s, mem, package, same⟩

end

end Listed

namespace SymbolTable

/-- The table has these types and packages, and nothing else. -/
def Records (t : SymbolTable) (types : List Symbol) (packages : List PackageName) : Prop :=
  ∃ ss, t.Holds ss ∧ Listed ss types packages

variable {t : SymbolTable} {ts : List Symbol} {ps : List PackageName} {s s' : Symbol}
  {name : String}

theorem records_empty : Records {} [] [] :=
  ⟨[], holds_empty, ⟨rfl, by simp, by simp⟩⟩

theorem Holds.eq_of_fullName {ss : List Symbol} (holds : t.Holds ss) (mem : s ∈ ss)
    (mem' : s' ∈ ss) (same : s.fullName = s'.fullName) : s = s' :=
  inj_on_of_nodup_map holds.2 mem mem' same

section

variable (records : t.Records ts ps)

include records

theorem Records.compatible : Compatible ts ps := by
  obtain ⟨ss, holds, listed⟩ := records
  refine ⟨?_, fun s mem p inside same => ?_⟩
  · rw [← listed.types]
    exact holds.2.sublist (filter_sublist.map _)
  · obtain ⟨package, there, isPackage, isName⟩ := listed.there p inside
    obtain ⟨type, notPackage⟩ := listed.mem_types.mp mem
    rw [holds.eq_of_fullName type there (same.trans isName.symm)] at notPackage
    exact notPackage isPackage

theorem Records.get?_type :
    t.get? name = some s ∧ s.kind ≠ .package ↔ s ∈ ts ∧ s.fullName = name := by
  obtain ⟨ss, holds, listed⟩ := records
  rw [listed.mem_types]
  constructor
  · rintro ⟨found, type⟩
    obtain ⟨mem, same⟩ := holds.mem_of_get? found
    exact ⟨⟨mem, type⟩, same⟩
  · rintro ⟨⟨mem, type⟩, rfl⟩
    exact ⟨holds.get?_of_mem mem, type⟩

theorem Records.package_of_get? (found : t.get? name = some s) (package : s.kind = .package) :
    ∃ p ∈ ps, s.descriptor = .ofPackage p ∧ (Descriptor.ofPackage p).text = name := by
  obtain ⟨ss, holds, listed⟩ := records
  obtain ⟨mem, same⟩ := holds.mem_of_get? found
  obtain ⟨p, inside, descriptor⟩ := listed.known s mem package
  exact ⟨p, inside, descriptor, by rw [← same, Symbol.fullName, descriptor]⟩

theorem Records.get?_package {p : PackageName} (mem : p ∈ ps) :
    ∃ s, t.get? (Descriptor.ofPackage p).text = some s ∧ s.kind = .package := by
  obtain ⟨ss, holds, listed⟩ := records
  obtain ⟨s, inside, package, same⟩ := listed.there p mem
  exact ⟨s, same ▸ holds.get?_of_mem inside, package⟩

theorem Records.get?_eq_none_iff :
    t.get? name = none ↔ (∀ s ∈ ts, s.fullName ≠ name) ∧
      ∀ p ∈ ps, (Descriptor.ofPackage p).text ≠ name := by
  constructor
  · intro missed
    refine ⟨fun s mem same => ?_, fun p mem same => ?_⟩
    · rw [(records.get?_type.mpr ⟨mem, same⟩).1] at missed
      cases missed
    · obtain ⟨s, found, -⟩ := records.get?_package mem
      rw [same, missed] at found
      cases found
  · rintro ⟨noType, noPackage⟩
    cases found : t.get? name with
    | none => rfl
    | some s =>
      by_cases package : s.kind = .package
      · obtain ⟨p, mem, -, same⟩ := records.package_of_get? found package
        exact absurd same (noPackage p mem)
      · obtain ⟨mem, same⟩ := records.get?_type.mp ⟨found, package⟩
        exact absurd same (noType s mem)

theorem Records.insertType (new : t.get? s.fullName = none)
    (type : s.kind ≠ .package) : (t.insert s).Records (ts ++ [s]) ps := by
  obtain ⟨ss, holds, listed⟩ := records
  exact ⟨ss ++ [s], holds.insert new, listed.addType type⟩

theorem Records.insertPackage (new : t.get? s.fullName = none)
    (package : s.kind = .package) {p : PackageName} (descriptor : s.descriptor = .ofPackage p) :
    (t.insert s).Records ts (ps ++ [p]) := by
  obtain ⟨ss, holds, listed⟩ := records
  exact ⟨ss ++ [s], holds.insert new, listed.addPackage package descriptor⟩

theorem Records.knownPackage {p : PackageName}
    (found : t.get? (Descriptor.ofPackage p).text = some s) (package : s.kind = .package) :
    t.Records ts (ps ++ [p]) := by
  obtain ⟨ss, holds, listed⟩ := records
  obtain ⟨mem, same⟩ := holds.mem_of_get? found
  exact ⟨ss, holds, listed.addKnown mem package same⟩

end

end SymbolTable

end BitSchema
