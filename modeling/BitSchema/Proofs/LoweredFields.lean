import BitSchema.Proofs.Definitions
import BitSchema.Proofs.FieldSites
import BitSchema.Proofs.LoweredParts
import BitSchema.Proofs.ParsedSources

/-!
# Where the definitions of a schema come from

Lowering leaves nothing out and adds nothing: every message and enum of a schema, at any depth, is
what one declaration of the sources is lowered to in the scope it stands in.  Every list of it is
there, none of its entries is absent, and the encodings are those of the fields in the sources.
-/

namespace BitSchema

open List
open Ir (Encoding familyOf)
open Source (FieldSite)

/-! ## Definitions that are built from fields -/

/-- A field is there, with the encoding of one of these in the sources. -/
structure FieldBuilt (table : SymbolTable) (sites : List FieldSite) (f : Ir.Field) : Prop where
  present : f.absent = false
  encoding : ∃ s ∈ sites, Lowering.fieldEncoding table s.scope s.field = .ok f.encoding

structure VariantBuilt (table : SymbolTable) (sites : List FieldSite) (v : Ir.Variant) : Prop where
  present : v.absent = false
  payload : ∀ f ∈ v.field, FieldBuilt table sites f

structure EnumBuilt (table : SymbolTable) (sites : List FieldSite) (e : Ir.Enum) : Prop where
  present : e.absent = false
  listed : e.variants? = some e.variants
  variants : ∀ v ∈ e.variants, VariantBuilt table sites v
  discriminant : ∃ indices, e.discriminant = Lowering.discriminant indices

structure MessageBuilt (table : SymbolTable) (sites : List FieldSite) (m : Ir.Message) : Prop where
  present : m.absent = false
  listed : m.fields? = some m.fields
  fields : ∀ f ∈ m.fields, FieldBuilt table sites f

section

variable {table : SymbolTable} {sites more : List FieldSite}

theorem FieldBuilt.mono {f : Ir.Field} (built : FieldBuilt table sites f) (subset : sites ⊆ more) :
    FieldBuilt table more f := by
  obtain ⟨s, mem, encoding⟩ := built.encoding
  exact ⟨built.present, s, subset mem, encoding⟩

theorem VariantBuilt.mono {v : Ir.Variant} (built : VariantBuilt table sites v)
    (subset : sites ⊆ more) : VariantBuilt table more v :=
  ⟨built.present, fun f mem => (built.payload f mem).mono subset⟩

theorem EnumBuilt.mono {e : Ir.Enum} (built : EnumBuilt table sites e) (subset : sites ⊆ more) :
    EnumBuilt table more e :=
  { built with variants := fun v mem => (built.variants v mem).mono subset }

theorem MessageBuilt.mono {m : Ir.Message} (built : MessageBuilt table sites m)
    (subset : sites ⊆ more) : MessageBuilt table more m :=
  { built with fields := fun f mem => (built.fields f mem).mono subset }

end

namespace Source

/-- The messages and enums that are declared side by side. -/
structure Block where
  messages : List Message
  enums : List Enum

def Message.block (m : Message) : Block := ⟨m.messages, m.enums⟩

def Item.member? : Item → Option Member
  | .message m => some (.message m)
  | .enum e => some (.enum e)
  | _ => none

/-- What a file declares at the top, as a message would. -/
def Schema.members (s : Schema) : List Member := s.items.filterMap Item.member?

theorem Schema.messages_eq (s : Schema) : s.members.filterMap Member.message? = s.messages := by
  rw [members, filterMap_filterMap, messages]
  exact congrArg (List.filterMap · s.items) (funext fun item => by cases item <;> rfl)

theorem Schema.enums_eq (s : Schema) : s.members.filterMap Member.enum? = s.enums := by
  rw [members, filterMap_filterMap, enums]
  exact congrArg (List.filterMap · s.items) (funext fun item => by cases item <;> rfl)

end Source

/-! ## Declarations -/

namespace Lowering

variable {table : SymbolTable} {scope : Descriptor} {given : List UInt32}
  {members : List Source.Member} {lowered : Members}

variable {owner : Descriptor}

theorem memberEncoding_ok {what member : String} {f : Source.Field} {enc : Encoding}
    (ok : memberEncoding table what owner member f = .ok enc) :
    fieldEncoding table owner.scope f = .ok enc := by
  unfold memberEncoding at ok
  split at ok
  next inner found =>
    cases ok
    exact found
  next => cases ok
  next => cases ok

theorem variant_ok {v : Source.Variant} {index : UInt32} {lowered : Ir.Variant}
    (ok : variant table owner v index = .ok lowered) :
    lowered.name = v.name.value ∧ lowered.index = index ∧
      VariantBuilt table (v.field?.toList.map (⟨owner.scope, ·⟩)) lowered := by
  unfold variant at ok
  unfold Source.Variant.field? Source.Variant.name
  cases content : v.content with
  | unit name =>
    simp only [content] at ok
    cases ok
    exact ⟨rfl, rfl, rfl, by simp⟩
  | typed source =>
    simp only [content] at ok
    obtain ⟨enc, encoding, eq⟩ := bind_ok_iff.mp ok
    cases eq
    refine ⟨rfl, rfl, rfl, fun f field => ?_⟩
    cases field
    exact ⟨rfl, ⟨owner.scope, source⟩, mem_singleton_self _, memberEncoding_ok encoding⟩

/-- The enum that a declaration is lowered to. -/
structure EnumFrom (table : SymbolTable) (scope : Descriptor) (e : Source.Enum)
    (lowered : Ir.Enum) : Prop extends EnumBuilt table (e.sites scope) lowered where
  name : lowered.name = e.name.value
  descriptor : lowered.descriptor = (scope.child e.name.value).toIr
  width : lowered.discriminant =
    Lowering.discriminant (assignIndices (e.variants.map fun v => v.index.map (·.value)))
  names : lowered.variants.map (·.name) = e.variants.map (·.name.value)
  indices : lowered.variants.map (·.index) =
    assignIndices (e.variants.map fun v => v.index.map (·.value))

theorem enum_ok {e : Source.Enum} {lowered : Ir.Enum} (ok : enum table scope e = .ok lowered) :
    EnumFrom table scope e lowered := by
  unfold enum at ok
  obtain ⟨variants, all, eq⟩ := bind_ok_iff.mp ok
  cases eq
  generalize numbered : assignIndices (e.variants.map fun v => v.index.map (·.value)) = indices
    at all
  have count : e.variants.length = indices.length := by
    rw [← numbered, length_assignIndices, length_map]
  have each := mapM_ok all
  have names := map_eq_of_forall₂ (each.imp fun p v ok => (variant_ok ok).1.symm)
  have assigned := map_eq_of_forall₂ (each.imp fun p v ok => (variant_ok ok).2.1.symm)
  refine ⟨⟨rfl, rfl, fun v mem => ?_, indices, rfl⟩, rfl, rfl,
    congrArg Lowering.discriminant numbered.symm, ?_, ?_⟩
  · obtain ⟨p, source, lowers⟩ := exists_of_forall₂ each mem
    refine (variant_ok lowers).2.2.mono fun s site => ?_
    obtain ⟨f, field, rfl⟩ := mem_map.mp site
    refine mem_map.mpr ⟨f, mem_filterMap.mpr ⟨p.1, (of_mem_zip source).1, ?_⟩, rfl⟩
    exact Option.mem_toList.mp field
  · have firsts := congrArg (List.map (·.name.value)) (map_fst_zip count.le)
    rw [map_map] at firsts
    exact names.symm.trans firsts
  · rw [numbered]
    exact assigned.symm.trans (map_snd_zip count.ge)

/-- What members are lowered to, one after the other; the indices are those of the fields. -/
inductive Yields (table : SymbolTable) (scope : Descriptor) :
    List UInt32 → List Source.Member → Members → Prop where
  | nil {indices : List UInt32} : Yields table scope indices [] {}
  | field {indices : List UInt32} {f : Source.Field} {enc : Encoding}
      {members : List Source.Member} {rest : Members}
      (encodes : fieldEncoding table scope f = .ok enc)
      (later : Yields table scope indices.tail members rest) :
      Yields table scope indices (.field f :: members)
        { rest with fields := { name := f.name.value, index := indices.head?.getD 0,
                                encoding := enc, doc := f.doc.getD "" } :: rest.fields }
  | message {indices : List UInt32} {m : Source.Message} {first : Ir.Message}
      {members : List Source.Member} {rest : Members} (lowers : message table scope m = .ok first)
      (later : Yields table scope indices members rest) :
      Yields table scope indices (.message m :: members)
        { rest with messages := first :: rest.messages }
  | enum {indices : List UInt32} {e : Source.Enum} {first : Ir.Enum}
      {members : List Source.Member} {rest : Members} (lowers : enum table scope e = .ok first)
      (later : Yields table scope indices members rest) :
      Yields table scope indices (.enum e :: members) { rest with enums := first :: rest.enums }

theorem yields_of_lowerMembers (ok : lowerMembers table owner given members = .ok lowered) :
    Yields table owner.scope given members lowered := by
  induction members generalizing given lowered with
  | nil =>
    rw [lowerMembers] at ok
    cases ok
    exact .nil
  | cons member members ih =>
    cases member with
    | field f =>
      rw [lowerMembers] at ok
      obtain ⟨enc, encodes, ok⟩ := bind_ok_iff.mp ok
      obtain ⟨rest, others, eq⟩ := bind_ok_iff.mp ok
      cases eq
      exact .field (memberEncoding_ok encodes) (ih others)
    | message m =>
      rw [lowerMembers] at ok
      obtain ⟨first, lowers, ok⟩ := bind_ok_iff.mp ok
      obtain ⟨rest, others, eq⟩ := bind_ok_iff.mp ok
      cases eq
      exact .message lowers (ih others)
    | enum e =>
      rw [lowerMembers] at ok
      obtain ⟨first, lowers, ok⟩ := bind_ok_iff.mp ok
      obtain ⟨rest, others, eq⟩ := bind_ok_iff.mp ok
      cases eq
      exact .enum lowers (ih others)

/-- The items of a file are lowered as the members of a message without fields. -/
theorem yields_of_items {is : List Source.Item} (ok : items table scope is = .ok lowered) :
    Yields table scope [] (is.filterMap Source.Item.member?) lowered := by
  induction is generalizing lowered with
  | nil =>
    rw [items] at ok
    cases ok
    exact .nil
  | cons item is ih =>
    cases item with
    | message m =>
      rw [items] at ok
      obtain ⟨first, lowers, ok⟩ := bind_ok_iff.mp ok
      obtain ⟨rest, others, eq⟩ := bind_ok_iff.mp ok
      cases eq
      exact .message lowers (ih others)
    | enum e =>
      rw [items] at ok
      obtain ⟨first, lowers, ok⟩ := bind_ok_iff.mp ok
      obtain ⟨rest, others, eq⟩ := bind_ok_iff.mp ok
      cases eq
      exact .enum lowers (ih others)
    | package p | inclusion i =>
      rw [items] at ok
      · exact ih ok
      all_goals simp

/-- The definitions that a block is lowered to, in the same order. -/
structure LowersTo (table : SymbolTable) (scope : Descriptor) (b : Source.Block)
    (ms : List Ir.Message) (es : List Ir.Enum) : Prop where
  messages : List.Forall₂ (fun m l => message table scope m = .ok l) b.messages ms
  enums : List.Forall₂ (fun e l => enum table scope e = .ok l) b.enums es

namespace Yields

section

variable (yields : Yields table scope given members lowered)

include yields

theorem block :
    LowersTo table scope
      ⟨members.filterMap Source.Member.message?, members.filterMap Source.Member.enum?⟩
      lowered.messages lowered.enums := by
  induction yields with
  | nil => exact ⟨.nil, .nil⟩
  | field _ _ ih => exact ⟨ih.messages, ih.enums⟩
  | message lowers _ ih => exact ⟨.cons lowers ih.messages, ih.enums⟩
  | enum lowers _ ih => exact ⟨ih.messages, .cons lowers ih.enums⟩

theorem fields :
    List.Forall₂ (fun source f => f.name = source.name.value ∧ FieldBuilt table [⟨scope, source⟩] f)
      (members.filterMap Source.Member.field?) lowered.fields := by
  induction yields with
  | nil => exact .nil
  | field encodes _ ih => exact .cons ⟨rfl, rfl, _, mem_singleton_self _, encodes⟩ ih
  | message _ _ ih | enum _ _ ih => exact ih

theorem indices (count : given.length = (members.filterMap Source.Member.field?).length) :
    lowered.fields.map (·.index) = given := by
  induction yields with
  | nil => exact (length_eq_zero_iff.mp count).symm
  | field _ _ ih =>
    obtain ⟨index, given, rfl⟩ := exists_cons_of_length_eq_add_one count
    exact congrArg (index :: ·) (ih (Nat.succ_inj.mp count))
  | message _ _ ih | enum _ _ ih => exact ih count

end

end Yields

/-- The message that a declaration is lowered to. -/
structure MessageFrom (table : SymbolTable) (scope : Descriptor) (m : Source.Message)
    (lowered : Ir.Message) : Prop extends MessageBuilt table (m.sites scope) lowered where
  name : lowered.name = m.name.value
  descriptor : lowered.descriptor = (scope.child m.name.value).toIr
  names : lowered.fields.map (·.name) = m.fields.map (·.name.value)
  indices : lowered.fields.map (·.index) =
    assignIndices (m.fields.map fun f => f.index.map (·.value))
  block : LowersTo table (scope.child m.name.value).scope m.block lowered.messages lowered.enums

theorem message_ok {m : Source.Message} {lowered : Ir.Message}
    (ok : message table scope m = .ok lowered) : MessageFrom table scope m lowered := by
  obtain ⟨span, doc, name, members⟩ := m
  rw [message] at ok
  obtain ⟨inner, lowers, eq⟩ := bind_ok_iff.mp ok
  cases eq
  have yields := yields_of_lowerMembers lowers
  have names := map_eq_of_forall₂ (yields.fields.imp fun source f same => same.1.symm)
  refine ⟨⟨rfl, rfl, fun f mem => ?_⟩, rfl, rfl, names.symm, yields.indices ?_, yields.block⟩
  · obtain ⟨source, declared, -, built⟩ := exists_of_forall₂ yields.fields mem
    refine built.mono (cons_subset.mpr ⟨?_, nil_subset _⟩)
    rw [Source.Message.sites]
    exact mem_append_left _ (mem_map_of_mem declared)
  · rw [fieldIndices, length_assignIndices, length_map]

end Lowering

/-! ## Origins -/

/-- A declaration that stands in a scope, at the top of one of the files or inside messages. -/
inductive Source.Declared (files : List Source.Schema) : Descriptor → Source.Member → Prop where
  | top {file : Source.Schema} {p : PackageName} {d : Source.Member} (mem : file ∈ files)
      (package : filePackage? file = some p) (inside : d ∈ file.members) :
      Declared files (Descriptor.ofPackage p) d
  | inner {scope : Descriptor} {m : Source.Message} {d : Source.Member}
      (outer : Declared files scope (.message m)) (inside : d ∈ m.members) :
      Declared files (scope.child m.name.value).scope d

namespace Source

variable {files : List Schema} {scope : Descriptor} {d : Member}

variable {ms : List Member}

theorem mem_of_message? {m : Message} (mem : m ∈ ms.filterMap Member.message?) :
    .message m ∈ ms := by
  obtain ⟨d, inside, isMessage⟩ := mem_filterMap.mp mem
  cases d <;> cases isMessage
  exact inside

theorem mem_of_enum? {e : Enum} (mem : e ∈ ms.filterMap Member.enum?) : .enum e ∈ ms := by
  obtain ⟨d, inside, isEnum⟩ := mem_filterMap.mp mem
  cases d <;> cases isEnum
  exact inside

theorem sites_subset_sitesIn (mem : d ∈ ms) : d.sites scope ⊆ sitesIn scope ms := by
  induction ms with
  | nil => cases mem
  | cons m ms ih =>
    rw [sitesIn]
    rcases mem_cons.mp mem with rfl | mem
    · exact subset_append_left _ _
    · exact List.Subset.trans (ih mem) (subset_append_right _ _)

/-- What stands in a declaration is among the fields of the files. -/
theorem Declared.sites (declared : Declared files scope d) :
    d.sites scope ⊆ files.flatMap Schema.sites := by
  induction declared with
  | @top file p d mem package inside =>
    intro s site
    refine mem_flatMap.mpr ⟨file, mem, ?_⟩
    rw [Schema.sites, package]
    obtain ⟨item, top, same⟩ := mem_filterMap.mp inside
    refine mem_flatMap.mpr ⟨item, top, ?_⟩
    cases item <;> cases same <;> rwa [Member.sites] at site
  | @inner scope m d _ inside ih =>
    obtain ⟨span, doc, name, members⟩ := m
    rw [Member.sites, Message.sites] at ih
    exact fun s site => ih (mem_append_right _ (sites_subset_sitesIn inside site))

end Source

theorem Ir.forall_familyOf {P : Ir.Message → Prop} (step : ∀ m, P m → ∀ x ∈ m.messages, P x) :
    ∀ ms : List Ir.Message, (∀ m ∈ ms, P m) → ∀ m ∈ familyOf ms, P m
  | [], _ => by simp [familyOf]
  | ⟨descriptor, name, fields, messages, enums, doc, absent⟩ :: ms, all => by
    obtain ⟨here, later⟩ := forall_mem_cons.mp all
    rw [familyOf, Message.family]
    exact forall_mem_append.mpr ⟨forall_mem_cons.mpr
      ⟨here, forall_familyOf step messages (step _ here)⟩, forall_familyOf step ms later⟩

namespace Lowering

variable {table : SymbolTable} {files : List Source.Schema} {schema : Ir.Schema}

/-- What a package holds at the top is lowered from what its files declare there. -/
theorem origins_of_pack {parts : List (String × Members)}
    (all : List.Forall₂ (fun file made => part table file = .ok made) files parts)
    (path : String) :
    (∀ l ∈ (pack parts path).messages, ∃ scope m,
      Source.Declared files scope (.message m) ∧ message table scope m = .ok l) ∧
    ∀ l ∈ (pack parts path).enums, ∃ scope e,
      Source.Declared files scope (.enum e) ∧ enum table scope e = .ok l := by
  have made : ∀ {made : String × Members}, made ∈ parts.filter (·.1 == path) →
      ∃ file ∈ files, ∃ p, filePackage? file = some p ∧
        Yields table (Descriptor.ofPackage p) [] file.members made.2 := by
    intro made mem
    obtain ⟨file, isFile, ok⟩ := exists_of_forall₂ all (mem_of_mem_filter mem)
    obtain ⟨p, package, ms, lowers, rfl⟩ := part_ok ok
    exact ⟨file, isFile, p, package, yields_of_items lowers⟩
  constructor
  · intro l mem
    obtain ⟨part, inside, mem⟩ := mem_flatMap.mp mem
    obtain ⟨file, isFile, p, package, yields⟩ := made inside
    obtain ⟨m, declared, ok⟩ := exists_of_forall₂ yields.block.messages mem
    exact ⟨_, m, .top isFile package (Source.mem_of_message? declared), ok⟩
  · intro l mem
    obtain ⟨part, inside, mem⟩ := mem_flatMap.mp mem
    obtain ⟨file, isFile, p, package, yields⟩ := made inside
    obtain ⟨e, declared, ok⟩ := exists_of_forall₂ yields.block.enums mem
    exact ⟨_, e, .top isFile package (Source.mem_of_enum? declared), ok⟩

/-- Every definition of a schema is lowered from a declaration in the files. -/
theorem origins_of_lower (ok : lower table files = .ok schema) :
    (∀ l ∈ schema.allMessages, ∃ scope m,
      Source.Declared files scope (.message m) ∧ MessageFrom table scope m l) ∧
    ∀ l ∈ schema.allEnums, ∃ scope e,
      Source.Declared files scope (.enum e) ∧ EnumFrom table scope e l := by
  obtain ⟨-, parts, lowered, merged⟩ := merged_of_lower ok
  have top := origins_of_pack (mapM_ok lowered)
  have messages : ∀ p ∈ schema.packages, ∀ l ∈ familyOf p.messages, ∃ scope m,
      Source.Declared files scope (.message m) ∧ MessageFrom table scope m l := by
    intro p mem
    rw [merged.each p mem]
    refine Ir.forall_familyOf ?_ _ fun l inside => ?_
    · rintro l ⟨scope, m, declared, made⟩ x inside
      obtain ⟨m', declared', ok⟩ := exists_of_forall₂ made.block.messages inside
      exact ⟨_, m', .inner declared (Source.mem_of_message? declared'), message_ok ok⟩
    · obtain ⟨scope, m, declared, ok⟩ := (top p.path).1 l inside
      exact ⟨scope, m, declared, message_ok ok⟩
  constructor
  · intro l mem
    obtain ⟨p, package, mem⟩ := mem_flatMap.mp mem
    exact messages p package l mem
  · intro l mem
    obtain ⟨p, package, mem⟩ := mem_flatMap.mp mem
    rcases mem_append.mp mem with mem | mem
    · rw [merged.each p package] at mem
      obtain ⟨scope, e, declared, ok⟩ := (top p.path).2 l mem
      exact ⟨scope, e, declared, enum_ok ok⟩
    · obtain ⟨m, family, mem⟩ := mem_flatMap.mp mem
      obtain ⟨scope, m, declared, made⟩ := messages p package m family
      obtain ⟨e, declared', ok⟩ := exists_of_forall₂ made.block.enums mem
      exact ⟨_, e, .inner declared (Source.mem_of_enum? declared'), enum_ok ok⟩

end Lowering

/-! ## Schemas -/

/-- All of these messages and enums, and those declared in them, are built from the sources. -/
structure AllBuilt (table : SymbolTable) (sites : List FieldSite) (ms : List Ir.Message)
    (es : List Ir.Enum) : Prop where
  messages : ∀ m ∈ familyOf ms, MessageBuilt table sites m
  enums : ∀ e ∈ es ++ (familyOf ms).flatMap (·.enums), EnumBuilt table sites e

/-- A package with both its lists, all of it built from the sources. -/
structure PackageBuilt (table : SymbolTable) (sites : List FieldSite) (p : Ir.Package) : Prop where
  present : p.absent = false
  messages : p.messages? = some p.messages
  enums : p.enums? = some p.enums
  all : AllBuilt table sites p.messages p.enums

/-- A schema that is built from the sources as a whole. -/
structure SchemaBuilt (table : SymbolTable) (sites : List FieldSite) (schema : Ir.Schema) :
    Prop where
  listed : schema.packages? = some schema.packages
  packages : ∀ p ∈ schema.packages, PackageBuilt table sites p

section

variable {table : SymbolTable} {sites : List FieldSite} {schema : Ir.Schema}

/-- A schema is built from the files that it was lowered from. -/
theorem schemaBuilt_of_lower {files : List Source.Schema} (ok : lower table files = .ok schema) :
    SchemaBuilt table (files.flatMap Source.Schema.sites) schema := by
  obtain ⟨messages, enums⟩ := Lowering.origins_of_lower ok
  obtain ⟨-, parts, -, merged⟩ := Lowering.merged_of_lower ok
  have listed : schema.packages? = some schema.packages := by
    obtain ⟨packages, -, eq⟩ := bind_ok_iff.mp ok
    cases eq
    rfl
  refine ⟨listed, fun p mem => ⟨?_, ?_, ?_, fun l inside => ?_, fun l inside => ?_⟩⟩
  · rw [merged.each p mem]
    rfl
  · rw [merged.each p mem]
    rfl
  · rw [merged.each p mem]
    rfl
  · obtain ⟨scope, m, declared, made⟩ := messages l (mem_flatMap.mpr ⟨p, mem, inside⟩)
    have sites := declared.sites
    rw [Source.Member.sites] at sites
    exact made.toMessageBuilt.mono sites
  · obtain ⟨scope, e, declared, made⟩ := enums l (mem_flatMap.mpr ⟨p, mem, inside⟩)
    have sites := declared.sites
    rw [Source.Member.sites] at sites
    exact made.toEnumBuilt.mono sites

section

variable (built : SchemaBuilt table sites schema)

include built

theorem SchemaBuilt.message {m : Ir.Message}
    (mem : m ∈ schema.allMessages) : MessageBuilt table sites m := by
  obtain ⟨p, package, inside⟩ := mem_flatMap.mp mem
  exact (built.packages p package).all.messages m inside

theorem SchemaBuilt.enum {e : Ir.Enum} (mem : e ∈ schema.allEnums) : EnumBuilt table sites e := by
  obtain ⟨p, package, inside⟩ := mem_flatMap.mp mem
  exact (built.packages p package).all.enums e inside

/-- Every encoding of a schema is a level of the encoding of a field in the sources. -/
theorem SchemaBuilt.origin {e : Encoding} (mem : e ∈ schema.encodings) :
    ∃ s ∈ sites, ∃ enc,
      Lowering.fieldEncoding table s.scope s.field = .ok enc ∧ e ∈ enc.levels := by
  rcases Ir.Schema.mem_encodings.mp mem with
    ⟨m, message, f, field, level⟩ | ⟨en, enum, v, variant, f, field, level⟩
  · obtain ⟨s, site, encoding⟩ := ((built.message message).fields f field).encoding
    exact ⟨s, site, f.encoding, encoding, level⟩
  · have inner := (built.enum enum).variants v variant
    obtain ⟨s, site, encoding⟩ := (inner.payload f field).encoding
    exact ⟨s, site, f.encoding, encoding, level⟩

end

end

end BitSchema
