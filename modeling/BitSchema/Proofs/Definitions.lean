import Mathlib
import BitSchema.Ir.Schema

/-!
# The definitions of a schema

All messages and enums that a schema declares, at any depth, and all encodings it gives to fields
and payloads, at every level.  Whatever a search by a full name finds is among them, so a condition
on these lists is a condition on everything the codec can come upon.
-/

namespace BitSchema.Ir

open List

/-! ## Levels of an encoding -/

mutual
/-- An encoding and all encodings inside it, the outermost first. -/
def Encoding.levels : Encoding → List Encoding
  | ⟨wire, native, transforms, paddingBits⟩ =>
    ⟨wire, native, transforms, paddingBits⟩ :: native.parts
/-- The encodings inside a type: of its elements, keys and values. -/
def NativeType.parts : NativeType → List Encoding
  | ⟨_, _, _, element, key, value, _⟩ => partLevels element ++ partLevels key ++ partLevels value
def partLevels : Option Encoding → List Encoding
  | none => []
  | some e => e.levels
end

theorem Encoding.levels_eq (e : Encoding) : e.levels = e :: e.native.parts := by
  rcases e with ⟨wire, native, transforms, paddingBits⟩
  rfl

theorem NativeType.parts_eq (n : NativeType) :
    n.parts = partLevels n.element ++ partLevels n.key ++ partLevels n.value := by
  rcases n with ⟨kind, bits, signed, element, key, value, descriptor⟩
  rfl

@[simp] theorem partLevels_none : partLevels none = [] := rfl

@[simp] theorem partLevels_some (e : Encoding) : partLevels (some e) = e.levels := rfl

theorem Encoding.self_mem_levels (e : Encoding) : e ∈ e.levels := by
  rw [e.levels_eq]
  exact mem_cons_self

section

variable {e inner : Encoding}

theorem Encoding.levels_element (part : e.native.element = some inner) :
    inner.levels ⊆ e.levels := by
  intro x mem
  rw [e.levels_eq, NativeType.parts_eq, part]
  simp [mem]

theorem Encoding.levels_key (part : e.native.key = some inner) : inner.levels ⊆ e.levels := by
  intro x mem
  rw [e.levels_eq, NativeType.parts_eq, part]
  simp [mem]

theorem Encoding.levels_value (part : e.native.value = some inner) : inner.levels ⊆ e.levels := by
  intro x mem
  rw [e.levels_eq, NativeType.parts_eq, part]
  simp [mem]

end

/-! ## Messages and enums at any depth -/

mutual
/-- A message and all messages declared in it. -/
def Message.family : Message → List Message
  | ⟨descriptor, name, fields, messages, enums, doc, absent⟩ =>
    ⟨descriptor, name, fields, messages, enums, doc, absent⟩ :: familyOf messages
def familyOf : List Message → List Message
  | [] => []
  | m :: ms => m.family ++ familyOf ms
end

theorem Message.family_eq (m : Message) : m.family = m :: familyOf m.messages := by
  rcases m with ⟨descriptor, name, fields, messages, enums, doc, absent⟩
  rfl

theorem familyOf_eq (ms : List Message) : familyOf ms = ms.flatMap Message.family := by
  induction ms with
  | nil => rw [familyOf, flatMap_nil]
  | cons m ms ih => rw [familyOf, flatMap_cons, ih]

theorem mem_familyOf {m : Message} {ms : List Message} :
    m ∈ familyOf ms ↔ ∃ top ∈ ms, m ∈ top.family := by
  rw [familyOf_eq, mem_flatMap]

-- By induction on messages: the definitions of a message are itself, its enums and those below it.
mutual
theorem length_definitionsIn : ∀ m : Message,
    m.family.length + (m.family.flatMap (·.enums)).length ≤ Schema.definitionsIn m
  | ⟨descriptor, name, fields, messages, enums, doc, absent⟩ => by
    have inner := length_definitionsInAll messages
    rw [Message.family, Schema.definitionsIn, length_cons, flatMap_cons, length_append]
    dsimp only
    omega
theorem length_definitionsInAll : ∀ ms : List Message,
    (familyOf ms).length + ((familyOf ms).flatMap (·.enums)).length ≤ Schema.definitionsInAll ms
  | [] => by simp [familyOf]
  | m :: ms => by
    have first := length_definitionsIn m
    have rest := length_definitionsInAll ms
    rw [familyOf, Schema.definitionsInAll, length_append, flatMap_append, length_append]
    omega
end

namespace Schema

/-- The messages of a schema at any depth. -/
def allMessages (s : Schema) : List Message := s.packages.flatMap fun p => familyOf p.messages

/-- The enums of a schema at any depth. -/
def allEnums (s : Schema) : List Enum :=
  s.packages.flatMap fun p => p.enums ++ (familyOf p.messages).flatMap (·.enums)

/-- The encodings of fields and payloads, at every level. -/
def encodings (s : Schema) : List Encoding :=
  (s.allMessages.flatMap fun m => m.fields.flatMap fun f => f.encoding.levels) ++
    s.allEnums.flatMap fun e => e.variants.flatMap fun v =>
      partLevels (v.field.map Field.encoding)

theorem length_definitions (s : Schema) :
    s.allMessages.length + s.allEnums.length ≤ s.definitionCount := by
  unfold allMessages allEnums definitionCount
  induction s.packages with
  | nil => simp
  | cons p ps ih =>
    have first := length_definitionsInAll p.messages
    rw [flatMap_cons, flatMap_cons, foldr_cons, length_append, length_append, length_append]
    omega

end Schema

/-! ## Searches -/

/-- What a search finds is the first entry that is wanted, and no entry up to it is absent. -/
theorem search_eq_some_iff {α : Type} {absent wanted : α → Bool} {as : List α} {a : α} :
    search absent wanted as = .ok (some a) ↔
      ∃ before after, as = before ++ a :: after ∧
        (∀ b ∈ before, absent b = false ∧ wanted b = false) ∧ absent a = false ∧
        wanted a = true := by
  induction as with
  | nil => simp [search]
  | cons first as ih =>
    simp only [search]
    constructor
    · intro found
      split at found
      next => cases found
      next present =>
        split at found
        next hit =>
          cases found
          exact ⟨[], as, rfl, by simp, by simpa using present, hit⟩
        next miss =>
          obtain ⟨before, after, rfl, misses, rest⟩ := ih.mp found
          refine ⟨first :: before, after, rfl, ?_, rest⟩
          simpa [present, miss] using misses
    · rintro ⟨before, after, eq, misses, present, hit⟩
      cases before with
      | nil =>
        cases eq
        simp [present, hit]
      | cons b before =>
        cases eq
        have ⟨here, later⟩ := forall_mem_cons.mp misses
        rw [if_neg (by simp [here.1]), if_neg (by simp [here.2])]
        exact ih.mpr ⟨before, after, rfl, later, present, hit⟩

theorem mem_of_search {α : Type} {absent wanted : α → Bool} {as : List α} {a : α}
    (found : search absent wanted as = .ok (some a)) : a ∈ as := by
  obtain ⟨before, after, rfl, -⟩ := search_eq_some_iff.mp found
  simp

/-- Where entries have keys of their own, a search by key finds the entry. -/
theorem search_of_nodup {α κ : Type} {absent wanted : α → Bool} {key : α → κ} {as : List α} {a : α}
    (present : ∀ b ∈ as, absent b = false) (distinct : (as.map key).Nodup)
    (byKey : ∀ b ∈ as, wanted b = true ↔ key b = key a) (mem : a ∈ as) :
    search absent wanted as = .ok (some a) := by
  obtain ⟨before, after, rfl⟩ := append_of_mem mem
  rw [map_append, map_cons, nodup_append] at distinct
  refine search_eq_some_iff.mpr ⟨before, after, rfl, fun b earlier => ?_, present a mem, ?_⟩
  · have inside := mem_append_left (a :: after) earlier
    have other : key b ≠ key a :=
      distinct.2.2 _ (mem_map_of_mem earlier) _ mem_cons_self
    refine ⟨present b inside, ?_⟩
    rwa [← Bool.not_eq_true, byKey b inside]
  · exact (byKey a mem).mpr rfl

theorem search_eq_none {α : Type} {absent wanted : α → Bool} {as : List α}
    (present : ∀ a ∈ as, absent a = false) (unwanted : ∀ a ∈ as, wanted a = false) :
    search absent wanted as = .ok none := by
  induction as with
  | nil => rfl
  | cons a as ih =>
    rw [forall_mem_cons] at present unwanted
    rw [search, if_neg (by simp [present.1]), if_neg (by simp [unwanted.1])]
    exact ih present.2 unwanted.2

/-- A search by a key that occurs once does not depend on the order. -/
theorem search_perm {α κ : Type} {absent wanted : α → Bool} {key : α → κ} {k : κ} {as bs : List α}
    (same : as.Perm bs) (present : ∀ a ∈ as, absent a = false) (distinct : (as.map key).Nodup)
    (byKey : ∀ a, wanted a = true ↔ key a = k) :
    search absent wanted as = search absent wanted bs := by
  have present' : ∀ b ∈ bs, absent b = false := fun b mem => present b (same.mem_iff.mpr mem)
  by_cases known : ∃ a ∈ as, key a = k
  · obtain ⟨a, mem, rfl⟩ := known
    rw [search_of_nodup present distinct (fun b _ => byKey b) mem]
    have distinct' := (same.map key).nodup_iff.mp distinct
    exact (search_of_nodup present' distinct' (fun b _ => byKey b) (same.mem_iff.mp mem)).symm
  · have other : ∀ a ∈ as, wanted a = false := by
      intro a mem
      rw [← Bool.not_eq_true, byKey]
      exact fun same => known ⟨a, mem, same⟩
    rw [search_eq_none present other]
    exact (search_eq_none present' fun b mem => other b (same.mem_iff.mpr mem)).symm

theorem Search.andThen_eq_some_iff {α β : Type} {found : Search α} {next : α → Search β} {b : β} :
    found.andThen next = .ok (some b) ↔ ∃ a, found = .ok (some a) ∧ next a = .ok (some b) := by
  rcases found with fault | _ | a <;> simp [Search.andThen]

theorem Search.join_toOption_eq_some_iff {α : Type} {found : Search α} {a : α} :
    found.toOption.join = some a ↔ found = .ok (some a) := by
  rcases found with fault | _ | b <;> simp [Except.toOption]

namespace Schema

theorem mem_familyOf_of_findMessageAt {ms : List Message} {path : List String} {m : Message}
    (found : findMessageAt ms path = .ok (some m)) : m ∈ familyOf ms := by
  induction path generalizing ms with
  | nil => simp [findMessageAt] at found
  | cons name rest ih =>
    cases rest with
    | nil =>
      refine mem_familyOf.mpr ⟨m, mem_of_search found, ?_⟩
      rw [m.family_eq]
      exact mem_cons_self
    | cons next rest =>
      rw [findMessageAt, Search.andThen_eq_some_iff] at found
      · obtain ⟨outer, first, later⟩ := found
        refine mem_familyOf.mpr ⟨outer, mem_of_search first, ?_⟩
        rw [outer.family_eq]
        exact mem_cons_of_mem _ (ih later)
      · simp

variable {s : Schema} {d : Descriptor}

theorem mem_allMessages {m : Message} (found : s.findMessage d = .ok (some m)) :
    m ∈ s.allMessages := by
  obtain ⟨p, package, found⟩ := Search.andThen_eq_some_iff.mp found
  have mem := mem_of_search package
  exact mem_flatMap.mpr ⟨p, mem, mem_familyOf_of_findMessageAt found⟩

theorem mem_allEnums {e : Enum} (found : s.findEnum d = .ok (some e)) : e ∈ s.allEnums := by
  obtain ⟨p, package, found⟩ := Search.andThen_eq_some_iff.mp found
  obtain ⟨enums, beside, found⟩ := Search.andThen_eq_some_iff.mp found
  refine mem_flatMap.mpr ⟨p, mem_of_search package, ?_⟩
  have mem := mem_of_search found
  unfold enumsAt at beside
  split at beside
  next =>
    cases beside
    exact mem_append_left _ mem
  next =>
    obtain ⟨m, outer, eq⟩ := Search.andThen_eq_some_iff.mp beside
    cases eq
    exact mem_append_right _ (mem_flatMap.mpr ⟨m, mem_familyOf_of_findMessageAt outer, mem⟩)

theorem mem_encodings {e : Encoding} :
    e ∈ s.encodings ↔ (∃ m ∈ s.allMessages, ∃ f ∈ m.fields, e ∈ f.encoding.levels) ∨
      ∃ en ∈ s.allEnums, ∃ v ∈ en.variants, ∃ f, v.field = some f ∧ e ∈ f.encoding.levels := by
  have payload : ∀ v : Variant, e ∈ partLevels (v.field.map Field.encoding) ↔
      ∃ f, v.field = some f ∧ e ∈ f.encoding.levels := by
    intro v
    cases v.field <;> simp
  simp only [encodings, mem_append, mem_flatMap, payload]

theorem levels_field_subset {m : Message} {f : Field} (found : s.findMessage d = .ok (some m))
    (mem : f ∈ m.fields) : f.encoding.levels ⊆ s.encodings := fun _ level =>
  mem_encodings.mpr (.inl ⟨m, mem_allMessages found, f, mem, level⟩)

theorem levels_payload_subset {en : Enum} {v : Variant} {f : Field}
    (found : s.findEnum d = .ok (some en)) (mem : v ∈ en.variants) (field : v.field = some f) :
    f.encoding.levels ⊆ s.encodings := fun _ level =>
  mem_encodings.mpr (.inr ⟨en, mem_allEnums found, v, mem, f, field, level⟩)

end Schema

end BitSchema.Ir
