import BitSchema.Proofs.Definitions

/-!
# Looking up definitions

A search follows a descriptor from its package through the messages around a definition, and takes
the first definition of the right name at each step.  So it ends at a definition that has this very
descriptor only if every definition stands where its own descriptor says, and no two of them have
the same one.
-/

namespace BitSchema.Ir

open List

/-! ## Places -/

/-- The definitions stand in a package inside the messages of a path.  Each of them has the
descriptor of this place, and so has all that is declared inside. -/
inductive Placed (package : String) : List String → List Message → List Enum → Prop where
  | intro {path : List String} {ms : List Message} {es : List Enum}
      (messages : ∀ m ∈ ms, m.absent = false ∧ m.descriptor = ⟨package, path, m.name⟩)
      (enums : ∀ e ∈ es, e.absent = false ∧ e.descriptor = ⟨package, path, e.name⟩)
      (inner : ∀ m ∈ ms, Placed package (path ++ [m.name]) m.messages m.enums) :
      Placed package path ms es

namespace Placed

variable {package : String} {path : List String} {ms ms' : List Message} {es es' : List Enum}

theorem nil : Placed package path [] [] := .intro (by simp) (by simp) (by simp)

theorem append (first : Placed package path ms es) (second : Placed package path ms' es') :
    Placed package path (ms ++ ms') (es ++ es') := by
  obtain ⟨messages, enums, inner⟩ := first
  obtain ⟨messages', enums', inner'⟩ := second
  exact .intro (forall_mem_append.mpr ⟨messages, messages'⟩)
    (forall_mem_append.mpr ⟨enums, enums'⟩) (forall_mem_append.mpr ⟨inner, inner'⟩)

theorem ofEnum {e : Enum} (present : e.absent = false)
    (here : e.descriptor = ⟨package, path, e.name⟩) : Placed package path [] [e] :=
  .intro (by simp) (by simpa using ⟨present, here⟩) (by simp)

theorem ofMessage {m : Message} (present : m.absent = false)
    (here : m.descriptor = ⟨package, path, m.name⟩)
    (inner : Placed package (path ++ [m.name]) m.messages m.enums) : Placed package path [m] [] :=
  .intro (by simpa using ⟨present, here⟩) (by simp) (by simpa using inner)

end Placed

/-! ## Messages and enums in order -/

theorem sublist_flatMap {α β : Type} {f : α → List β} {as : List α} {a : α} (mem : a ∈ as) :
    (f a).Sublist (as.flatMap f) := by
  rw [flatMap_def]
  exact sublist_flatten_of_mem (mem_map_of_mem mem)

theorem sublist_familyOf (ms : List Message) : ms.Sublist (familyOf ms) := by
  induction ms with
  | nil => exact List.Sublist.refl _
  | cons m ms ih =>
    rw [familyOf, m.family_eq, cons_append]
    exact (ih.trans (sublist_append_right _ _)).cons_cons m

/-- Definitions of one place have names of their own if their descriptors are different. -/
theorem nodup_names {α : Type} {as : List α} {descriptor : α → Descriptor} {name : α → String}
    {package : String} {path : List String}
    (placed : ∀ a ∈ as, descriptor a = ⟨package, path, name a⟩)
    (distinct : (as.map descriptor).Nodup) : (as.map name).Nodup := by
  have same : as.map descriptor = (as.map name).map fun n => (⟨package, path, n⟩ : Descriptor) := by
    rw [map_map]
    exact map_congr_left placed
  rw [same] at distinct
  exact distinct.of_map

/-! ## Searches -/

section

variable {package : String} {path : List String} {ms : List Message} {es : List Enum}

section

variable (placed : Placed package path ms es)

include placed

theorem Placed.search_message
    (distinct : ((familyOf ms).map (·.descriptor)).Nodup) {m : Message} (mem : m ∈ ms) :
    search (·.absent) (·.name == m.name) ms = .ok (some m) := by
  obtain ⟨messages, -, -⟩ := placed
  have names : (ms.map (·.name)).Nodup := by
    refine nodup_names (fun m inside => (messages m inside).2) ?_
    exact distinct.sublist ((sublist_familyOf ms).map _)
  exact search_of_nodup (fun m inside => (messages m inside).1) names (by simp) mem

theorem Placed.search_enum (distinct : (es.map (·.descriptor)).Nodup) {e : Enum} (mem : e ∈ es) :
    search (·.absent) (·.name == e.name) es = .ok (some e) := by
  obtain ⟨-, enums, -⟩ := placed
  have names := nodup_names (fun e inside => (enums e inside).2) distinct
  exact search_of_nodup (fun e inside => (enums e inside).1) names (by simp) mem

/-- The names around a message lead to it, and what is declared in it has its place there. -/
theorem Placed.findMessageAt
    (distinct : ((familyOf ms).map (·.descriptor)).Nodup) {m : Message} (mem : m ∈ familyOf ms) :
    ∃ below, m.descriptor = ⟨package, path ++ below, m.name⟩ ∧
      Schema.findMessageAt ms (below ++ [m.name]) = .ok (some m) ∧
      Placed package (path ++ below ++ [m.name]) m.messages m.enums := by
  induction placed with
  | @intro path ms es messages enums inner ih =>
    obtain ⟨top, inside, mem⟩ := mem_familyOf.mp mem
    have first := (Placed.intro messages enums inner).search_message distinct inside
    rw [top.family_eq] at mem
    rcases mem_cons.mp mem with rfl | mem
    · refine ⟨[], ?_, first, ?_⟩
      · rw [append_nil]
        exact (messages m inside).2
      · rw [append_nil]
        exact inner m inside
    · have part : (familyOf top.messages).Sublist (familyOf ms) := by
        have whole : top.family.Sublist (familyOf ms) := familyOf_eq ms ▸ sublist_flatMap inside
        refine List.Sublist.trans ?_ whole
        rw [top.family_eq]
        exact sublist_cons_self _ _
      obtain ⟨below, here, found, placed⟩ :=
        ih top inside (distinct.sublist (part.map _)) mem
      refine ⟨top.name :: below, ?_, ?_, ?_⟩
      · simpa using here
      · rw [cons_append, Schema.findMessageAt, Search.andThen_eq_some_iff]
        · exact ⟨top, first, found⟩
        · simp
      · simpa using placed

end

end

/-! ## Schemas -/

namespace Schema

/-- Every definition is filed under its own descriptor, and no other is. -/
structure Filed (s : Schema) : Prop where
  paths : (s.packages.map (·.path)).Nodup
  packages : ∀ p ∈ s.packages, p.absent = false ∧ Placed p.path [] p.messages p.enums
  messages : (s.allMessages.map (·.descriptor)).Nodup
  enums : (s.allEnums.map (·.descriptor)).Nodup

namespace Filed

variable {s : Schema} {p : Package}

theorem findPackage (filed : s.Filed) (mem : p ∈ s.packages) :
    s.findPackage p.path = .ok (some p) :=
  search_of_nodup (fun q inside => (filed.packages q inside).1) filed.paths (by simp) mem

theorem findMessageAt (filed : s.Filed) (mem : p ∈ s.packages) {m : Message}
    (inside : m ∈ familyOf p.messages) :
    ∃ path, m.descriptor = ⟨p.path, path, m.name⟩ ∧
      Schema.findMessageAt p.messages (path ++ [m.name]) = .ok (some m) ∧
      Placed p.path (path ++ [m.name]) m.messages m.enums := by
  have part : (familyOf p.messages).Sublist s.allMessages :=
    sublist_flatMap (f := fun p : Package => familyOf p.messages) mem
  exact (filed.packages p mem).2.findMessageAt (filed.messages.sublist (part.map _)) inside

theorem findMessage (filed : s.Filed) {m : Message} (mem : m ∈ s.allMessages) :
    s.findMessage m.descriptor = .ok (some m) := by
  obtain ⟨p, package, inside⟩ := mem_flatMap.mp mem
  obtain ⟨path, here, found, -⟩ := filed.findMessageAt package inside
  rw [here]
  exact Search.andThen_eq_some_iff.mpr ⟨p, filed.findPackage package, found⟩

/-- An enum stands at the top of its package or in a message that can be found. -/
theorem findEnum (filed : s.Filed) {e : Enum} (mem : e ∈ s.allEnums) :
    s.findEnum e.descriptor = .ok (some e) := by
  obtain ⟨p, package, inside⟩ := mem_flatMap.mp mem
  have part : (p.enums ++ (familyOf p.messages).flatMap (·.enums)).Sublist s.allEnums :=
    sublist_flatMap (f := fun p : Package => p.enums ++ (familyOf p.messages).flatMap (·.enums))
      package
  have distinct := filed.enums.sublist (part.map (·.descriptor))
  rw [map_append, nodup_append] at distinct
  obtain ⟨-, placed⟩ := filed.packages p package
  rcases mem_append.mp inside with top | nested
  · have found := placed.search_enum distinct.1 top
    obtain ⟨-, enums, -⟩ := placed
    rw [(enums e top).2]
    refine Search.andThen_eq_some_iff.mpr ⟨p, filed.findPackage package, ?_⟩
    exact Search.andThen_eq_some_iff.mpr ⟨p.enums, rfl, found⟩
  · obtain ⟨m, message, member⟩ := mem_flatMap.mp nested
    obtain ⟨path, -, outer, placed⟩ := filed.findMessageAt package message
    have few : (m.enums.map (·.descriptor)).Nodup :=
      distinct.2.1.sublist ((sublist_flatMap message).map _)
    have found := placed.search_enum few member
    obtain ⟨-, enums, -⟩ := placed
    rw [(enums e member).2]
    refine Search.andThen_eq_some_iff.mpr ⟨p, filed.findPackage package, ?_⟩
    refine Search.andThen_eq_some_iff.mpr ⟨m.enums, ?_, found⟩
    rw [enumsAt, Search.andThen_eq_some_iff]
    · exact ⟨m, outer, rfl⟩
    · simp

end Filed

end Schema

end BitSchema.Ir
