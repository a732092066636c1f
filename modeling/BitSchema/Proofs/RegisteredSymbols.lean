import BitSchema.Proofs.CompiledSchemas
import BitSchema.Proofs.DeclaredTypes

/-!
# Registered symbols

What the symbol table holds after all files of a compilation have been registered.  If there was no
error, its types are those that the files declare, at any depth and each under its own full name,
and its packages are those of the files with all packages around them.

Full names are texts with dots in them, so that a type inside a message could be mistaken for a type
of another package.  This is ruled out by what holds of the files together: whatever stands before a
dot of the full name of a type is a package or a message of its own.
-/

namespace BitSchema

open List

/-! ## Files in order -/

namespace Compilation

/-- The sources of the files that were parsed. -/
def schemasOf (files : List LoadedFile) : List Source.Schema := files.filterMap (·.schema)

/-- The types that files declare. -/
def typesIn (files : List LoadedFile) : List Symbol :=
  (schemasOf files).flatMap Source.Schema.types

/-- The packages that files declare, and those around them. -/
def packagesIn (files : List LoadedFile) : List PackageName :=
  (schemasOf files).flatMap Source.Schema.packages

section

variable {policy : RedefinitionPolicy} {symbols : SymbolTable} {file : LoadedFile}
  {files : List LoadedFile} {schema : Source.Schema}

theorem registerAll_none (unparsed : file.schema = none) :
    registerAll policy symbols (file :: files) = registerAll policy symbols files := by
  rw [registerAll, unparsed]

theorem registerAll_some (parsed : file.schema = some schema) :
    registerAll policy symbols (file :: files) =
      ((match (register policy symbols schema).1 with
        | none => []
        | some m => [⟨file, schema, { m with deps := file.includes.map (·.target) }⟩]) ++
          (registerAll policy (register policy symbols schema).2.1 files).1,
        (registerAll policy (register policy symbols schema).2.1 files).2.1,
        (register policy symbols schema).2.2 ++
          (registerAll policy (register policy symbols schema).2.1 files).2.2) := by
  rw [registerAll, parsed]
  dsimp only
  cases (register policy symbols schema).1 <;> rfl

/-- Registering files reports an error exactly if one of them is not in order, or if two of them
claim one name. -/
theorem registerAll_spec (files : List LoadedFile) {ts : List Symbol} {ps : List PackageName}
    (records : symbols.Records ts ps) :
    (ErrorFree (registerAll .refuse symbols files).2.2 ↔
        (∀ schema ∈ schemasOf files, schema.Orderly) ∧
          Compatible (ts ++ typesIn files) (ps ++ packagesIn files)) ∧
      (ErrorFree (registerAll .refuse symbols files).2.2 →
        (registerAll .refuse symbols files).2.1.Records (ts ++ typesIn files)
          (ps ++ packagesIn files) ∧
        (registerAll .refuse symbols files).2.2 = (typesIn files).flatMap Symbol.shadowing) := by
  induction files generalizing symbols ts ps with
  | nil =>
    have none : ErrorFree (registerAll .refuse symbols []).2.2 := errorFree_nil
    simp only [typesIn, packagesIn, schemasOf, filterMap_nil, flatMap_nil, append_nil]
    exact ⟨⟨fun _ => ⟨nofun, records.compatible⟩, fun _ => none⟩, fun _ => ⟨records, rfl⟩⟩
  | cons file files ih =>
    cases parsed : file.schema with
    | none =>
      have same : schemasOf (file :: files) = schemasOf files := by
        rw [schemasOf, filterMap_cons_none parsed]
        rfl
      rw [registerAll_none parsed, typesIn, packagesIn, same]
      exact ih records
    | some schema =>
      have more : schemasOf (file :: files) = schema :: schemasOf files := by
        rw [schemasOf, filterMap_cons_some parsed]
        rfl
      obtain ⟨accepts, entered⟩ := register_spec schema records
      rw [registerAll_some parsed, typesIn, packagesIn, more, flatMap_cons, flatMap_cons,
        ← append_assoc, ← append_assoc, errorFree_append, forall_mem_cons]
      dsimp only
      constructor
      · constructor
        · rintro ⟨here, later⟩
          obtain ⟨orderly, -⟩ := accepts.mp here
          obtain ⟨others, all⟩ := (ih (entered here).1).1.mp later
          exact ⟨⟨orderly, others⟩, all⟩
        · rintro ⟨⟨orderly, others⟩, all⟩
          have here := accepts.mpr ⟨orderly, all.of_append⟩
          exact ⟨here, (ih (entered here).1).1.mpr ⟨others, all⟩⟩
      · rintro ⟨here, later⟩
        obtain ⟨middle, reported⟩ := entered here
        obtain ⟨last, reported'⟩ := (ih middle).2 later
        exact ⟨last, by rw [reported, reported', flatMap_append]; rfl⟩

/-! ## Declarations of files -/

/-- The types that files declare, each in the package of its file. -/
def declaredTypes (files : List LoadedFile) : List Symbol :=
  files.flatMap fun file => file.schema.elim [] fun schema =>
    (filePackage? schema).elim [] fun p => schema.declared.map (·.symbol p file.path)

/-- A package of one of the files, or one around it. -/
def DeclaredPackage (files : List LoadedFile) (p : PackageName) : Prop :=
  p.segments ≠ [] ∧ ∃ file ∈ files, ∃ schema q, file.schema = some schema ∧
    filePackage? schema = some q ∧ p.segments <+: q.segments

theorem mem_packagesIn {p : PackageName} : p ∈ packagesIn files ↔ DeclaredPackage files p := by
  rw [packagesIn, mem_flatMap]
  constructor
  · rintro ⟨schema, mem, inside⟩
    obtain ⟨file, loaded, parsed⟩ := mem_filterMap.mp mem
    cases package : filePackage? schema with
    | none => simp [Source.Schema.packages, package] at inside
    | some q =>
      rw [Source.Schema.packages_eq package, PackageName.mem_ancestry] at inside
      exact ⟨inside.1, file, loaded, schema, q, parsed, package, inside.2⟩
  · rintro ⟨some, file, loaded, schema, q, parsed, package, around⟩
    refine ⟨schema, mem_filterMap.mpr ⟨file, loaded, parsed⟩, ?_⟩
    rw [Source.Schema.packages_eq package, PackageName.mem_ancestry]
    exact ⟨some, around⟩

theorem types_of_parsed (parsed : Loading.Parsed file) (isSchema : file.schema = some schema) :
    schema.types = (filePackage? schema).elim [] fun p =>
      schema.declared.map (·.symbol p file.path) := by
  obtain ⟨source, ok⟩ := parsed schema isSchema
  rw [Source.Schema.types]
  cases package : filePackage? schema with
  | none => rfl
  | some p =>
    change schema.symbols p = _
    rw [Source.Schema.symbols_eq (Source.isPart_of_parse ok), file_of_parse ok]
    rfl

theorem typesIn_eq (parsed : ∀ file ∈ files, Loading.Parsed file) :
    typesIn files = declaredTypes files := by
  induction files with
  | nil => rfl
  | cons file files ih =>
    rw [forall_mem_cons] at parsed
    rw [declaredTypes, flatMap_cons, typesIn, schemasOf]
    cases isSchema : file.schema with
    | none =>
      rw [filterMap_cons_none isSchema]
      exact ih parsed.2
    | some schema =>
      rw [filterMap_cons_some isSchema, flatMap_cons, types_of_parsed parsed.1 isSchema]
      exact congrArg _ (ih parsed.2)

theorem mem_declaredTypes {s : Symbol} :
    s ∈ declaredTypes files ↔ ∃ file ∈ files, ∃ schema p, file.schema = some schema ∧
      filePackage? schema = some p ∧ ∃ d ∈ schema.declared, d.symbol p file.path = s := by
  rw [declaredTypes, mem_flatMap]
  refine exists_congr fun file => and_congr_right fun _ => ?_
  cases file.schema with
  | none => simp
  | some schema =>
    cases package : filePackage? schema with
    | none | some p => simp [package]

/-- Files that were all registered: each has a package, and a module with the paths of the files
that it includes. -/
structure Modules (files : List LoadedFile) (registered : List Registered) : Prop where
  files : registered.map (·.file) = files
  schema : ∀ r ∈ registered, r.file.schema = some r.schema
  package : ∀ r ∈ registered, (filePackage? r.schema).isSome
  path : ∀ r ∈ registered, r.module.path = r.file.path
  deps : ∀ r ∈ registered, r.module.deps = r.file.includes.map (·.target)

theorem modules_registerAll (parsed : ∀ file ∈ files, Loading.Parsed file)
    (complete : ∀ file ∈ files, file.schema.isSome)
    (clean : ErrorFree (registerAll policy symbols files).2.2) :
    Modules files (registerAll policy symbols files).1 := by
  induction files generalizing symbols with
  | nil => constructor <;> simp [registerAll]
  | cons file files ih =>
    rw [forall_mem_cons] at parsed complete
    obtain ⟨schema, isSchema⟩ := Option.isSome_iff_exists.mp complete.1
    obtain ⟨source, ok⟩ := parsed.1 schema isSchema
    rw [registerAll_some isSchema] at clean ⊢
    obtain ⟨here, later⟩ := errorFree_append.mp clean
    obtain ⟨package, m, isModule, path⟩ := register_module here
    rw [file_of_parse ok] at path
    have others := ih parsed.2 complete.2 later
    simp only [isModule, singleton_append]
    constructor
    · rw [map_cons, others.files]
    · exact forall_mem_cons.mpr ⟨isSchema, others.schema⟩
    · exact forall_mem_cons.mpr ⟨package, others.package⟩
    · exact forall_mem_cons.mpr ⟨path, others.path⟩
    · exact forall_mem_cons.mpr ⟨rfl, others.deps⟩

variable {registered : List Registered}

/-- Files that are registered without errors are modules. -/
theorem modules_of_registerAll {table : SymbolTable} {problems : List Diagnostic}
    (parsed : ∀ file ∈ files, Loading.Parsed file) (complete : ∀ file ∈ files, file.schema.isSome)
    (run : registerAll policy symbols files = (registered, table, problems))
    (clean : ErrorFree problems) : Modules files registered := by
  have modules : ErrorFree (registerAll policy symbols files).2.2 → _ :=
    modules_registerAll parsed complete
  rw [run] at modules
  exact modules clean

theorem Modules.schemas (modules : Modules files registered) :
    schemasOf files = registered.map (·.schema) := by
  rw [← modules.files, schemasOf, filterMap_map]
  exact filterMap_eq_map_iff_forall_eq_some.mpr modules.schema

end

end Compilation

/-! ## Scopes -/

/-- The parts of a full name. -/
def Descriptor.parts (d : Descriptor) : List String := d.package.segments ++ d.path ++ [d.name]

theorem Symbol.fullName_eq (s : Symbol) : s.fullName = joinName s.descriptor.parts := rfl

theorem Descriptor.text_ofPackage (p : PackageName) : (ofPackage p).text = joinName p.segments := by
  simp [text, ofPackage]

/-- A type that has a name, in a package that has one. -/
structure Symbol.Proper (s : Symbol) : Prop where
  type : s.kind ≠ .package
  named : s.descriptor.name ≠ ""
  segments : s.descriptor.package.segments ≠ [] ∧
    ∀ segment ∈ s.descriptor.package.segments, segment ≠ ""

/-- Types and packages that make a hierarchy of names: with each of them, the packages and messages
around it are there too. -/
structure Hierarchy (types : List Symbol) (packages : List PackageName) : Prop
    extends Compatible types packages where
  type : ∀ s ∈ types, s.kind ≠ .package
  parts : ∀ s ∈ types, ∀ part ∈ s.descriptor.parts, IsPart part
  package : ∀ s ∈ types, s.descriptor.package ∈ packages
  message : ∀ s ∈ types, s.descriptor.path ≠ [] → ∃ m ∈ types, m.kind = .message ∧
    m.descriptor.package = s.descriptor.package ∧
    m.descriptor.path ++ [m.descriptor.name] = s.descriptor.path
  segments : ∀ p ∈ packages, p.segments ≠ [] ∧ ∀ segment ∈ p.segments, IsPart segment
  around : ∀ p ∈ packages, ∀ k, 0 < k → (⟨p.segments.take k⟩ : PackageName) ∈ packages

namespace Hierarchy

variable {ts : List Symbol} {ps : List PackageName} {s : Symbol} {p : PackageName}

theorem proper (hierarchy : Hierarchy ts ps) (mem : s ∈ ts) : s.Proper where
  type := hierarchy.type s mem
  named := (hierarchy.parts s mem _ (by simp [Descriptor.parts])).some
  segments := by
    obtain ⟨some, areParts⟩ := hierarchy.segments _ (hierarchy.package s mem)
    exact ⟨some, fun segment inside => (areParts segment inside).some⟩

theorem joinName_segments (hierarchy : Hierarchy ts ps) (mem : p ∈ ps) :
    joinName p.segments = p.text :=
  joinName_of_ne_empty fun segment inside => ((hierarchy.segments p mem).2 segment inside).some

/-- All messages around a type are there, not only the innermost. -/
theorem outer_message (hierarchy : Hierarchy ts ps) (mem : s ∈ ts) {k : Nat} (some : 0 < k)
    (short : k ≤ s.descriptor.path.length) : ∃ m ∈ ts, m.kind = .message ∧
      m.descriptor.package = s.descriptor.package ∧
      m.descriptor.path ++ [m.descriptor.name] = s.descriptor.path.take k := by
  -- by induction on the depth of the type, from the message right around it outwards
  induction depth : s.descriptor.path.length generalizing s with
  | zero => omega
  | succ n ih =>
    have inside : s.descriptor.path ≠ [] := ne_nil_of_length_pos (by omega)
    obtain ⟨m, isType, isMessage, package, path⟩ := hierarchy.message s mem inside
    rcases Nat.eq_or_lt_of_le short with innermost | further
    · refine ⟨m, isType, isMessage, package, ?_⟩
      rw [innermost, take_length, path]
    · have length : m.descriptor.path.length = n := by
        have same := congrArg List.length path
        rw [length_append, length_singleton, depth] at same
        omega
      have shorter : k ≤ m.descriptor.path.length := by omega
      obtain ⟨m', isType', isMessage', package', path'⟩ := ih isType shorter length
      refine ⟨m', isType', isMessage', package'.trans package, ?_⟩
      rw [path', ← path, take_append_of_le_length shorter]

end Hierarchy

namespace Compilation

variable {files : List LoadedFile} {registered : List Registered} {table : SymbolTable}
  {problems : List Diagnostic}

section

variable (parsed : ∀ file ∈ files, Loading.Parsed file)

include parsed

/-- The names of a declared type and of the messages around it were read from a source. -/
theorem isPart_of_declaredTypes {s : Symbol} (mem : s ∈ declaredTypes files) :
    ∀ name ∈ s.descriptor.path ++ [s.descriptor.name], IsPart name := by
  obtain ⟨file, inside, source, p, isSource, -, d, declared, rfl⟩ := mem_declaredTypes.mp mem
  obtain ⟨text, ok⟩ := parsed file inside source isSource
  intro name among
  rcases (source.within d declared).names name among with outside | named
  · cases outside
  · exact Source.isPart_of_parse ok name named

theorem hierarchy_of_compatible (compatible : Compatible (typesIn files) (packagesIn files)) :
    Hierarchy (declaredTypes files) (packagesIn files) := by
  rw [typesIn_eq parsed] at compatible
  have valid : ∀ file ∈ files, ∀ schema p, file.schema = some schema →
      filePackage? schema = some p → p ∈ packagesIn files := by
    intro file mem schema p isSchema package
    exact mem_packagesIn.mpr ⟨(isValid_of_filePackage? package).some, file, mem, schema, p,
      isSchema, package, prefix_rfl⟩
  refine { compatible with
    type := ?_, parts := ?_, package := ?_, message := ?_, segments := ?_, around := ?_ }
  · intro s mem
    obtain ⟨file, -, schema, p, -, -, d, declared, rfl⟩ := mem_declaredTypes.mp mem
    exact (schema.within d declared).type
  · intro s mem part inside
    rw [Descriptor.parts, append_assoc] at inside
    rcases mem_append.mp inside with segment | name
    · obtain ⟨file, -, schema, p, -, package, d, -, rfl⟩ := mem_declaredTypes.mp mem
      exact (isValid_of_filePackage? package).isPart part segment
    · exact isPart_of_declaredTypes parsed mem part name
  · intro s mem
    obtain ⟨file, loaded, schema, p, isSchema, package, d, -, rfl⟩ := mem_declaredTypes.mp mem
    exact valid file loaded schema p isSchema package
  · intro s mem nested
    obtain ⟨file, loaded, schema, p, isSchema, package, d, declared, rfl⟩ :=
      mem_declaredTypes.mp mem
    rcases (schema.within d declared).around with direct | ⟨m, declared', isMessage, names⟩
    · exact absurd direct nested
    · exact ⟨m.symbol p file.path, mem_declaredTypes.mpr ⟨file, loaded, schema, p, isSchema,
        package, m, declared', rfl⟩, isMessage, rfl, names⟩
  · intro p mem
    obtain ⟨some, file, -, schema, q, -, package, around⟩ := mem_packagesIn.mp mem
    exact ⟨some, fun segment inside =>
      (isValid_of_filePackage? package).isPart segment (around.subset inside)⟩
  · intro p mem k positive
    obtain ⟨some, file, loaded, schema, q, isSchema, package, around⟩ := mem_packagesIn.mp mem
    have long := length_pos_of_ne_nil some
    refine mem_packagesIn.mpr ⟨ne_nil_of_length_pos ?_, file, loaded, schema, q, isSchema,
      package, ( take_prefix k p.segments).trans around⟩
    rw [length_take]
    omega

/-- What files register without an error. -/
theorem records_of_registerAll (run : registerAll .refuse {} files = (registered, table, problems))
    (clean : ErrorFree problems) :
    table.Records (declaredTypes files) (packagesIn files) ∧
      Hierarchy (declaredTypes files) (packagesIn files) := by
  have specified := registerAll_spec files SymbolTable.records_empty
  rw [run] at specified
  obtain ⟨accepts, entered⟩ := specified
  obtain ⟨records, -⟩ := entered clean
  simp only [nil_append] at accepts records
  rw [← typesIn_eq parsed]
  exact ⟨records, typesIn_eq parsed ▸ hierarchy_of_compatible parsed (accepts.mp clean).2⟩

end

end Compilation

/-! ## The symbol table -/

open Compilation

/-- The table has what the files declare.  Its types are theirs, each under its own full name; its
packages are theirs with all packages around them; and what stands before a dot in the full name of
a type is in it too, as a package or as a message. -/
structure SymbolTable.Represents (t : SymbolTable) (files : List LoadedFile) : Prop where
  distinct : (t.entries.map Prod.fst).Nodup
  types : t.entries.filter (fun e => e.2.kind ≠ .package) =
    (declaredTypes files).map fun s => (joinName s.descriptor.parts, s)
  package : ∀ e ∈ t.entries, e.2.kind = .package →
    ∃ p, DeclaredPackage files p ∧ e.1 = p.text ∧ e.2.descriptor = .ofPackage p
  packages : ∀ p, DeclaredPackage files p →
    ∃ s, (p.text, s) ∈ t.entries ∧ s.kind = .package ∧ s.descriptor = .ofPackage p
  apart : ∀ s ∈ declaredTypes files, ∀ p, DeclaredPackage files p → s.fullName ≠ p.text
  enclosing : ∀ s ∈ declaredTypes files, ∀ front back, s.fullName = front ++ "." ++ back →
    ∃ k outer, 0 < k ∧ front = joinName (s.descriptor.parts.take k) ∧
      t.get? front = some outer ∧
      outer.kind = if k ≤ s.descriptor.package.segments.length then .package else .message

section

variable {t : SymbolTable} {s : Symbol} {ts : List Symbol} {ps : List PackageName}

/-- A package of the hierarchy has its own entry. -/
theorem SymbolTable.Records.entry_package (records : t.Records ts ps) (hierarchy : Hierarchy ts ps)
    {p : PackageName} (mem : p ∈ ps) :
    ∃ s, t.get? (joinName p.segments) = some s ∧ s.kind = .package ∧
      s.descriptor = .ofPackage p := by
  obtain ⟨s, found, package⟩ := records.get?_package mem
  obtain ⟨q, mem', descriptor, same⟩ := records.package_of_get? found package
  rw [Descriptor.text_ofPackage] at found same
  rw [Descriptor.text_ofPackage] at same
  have equal := joinName_injective (hierarchy.segments q mem').2 (hierarchy.segments p mem).2 same
  cases p
  cases q
  cases equal
  exact ⟨s, found, package, descriptor⟩

/-- What stands before a dot in the full name of a type is a package or a message. -/
theorem SymbolTable.Records.enclosing (records : t.Records ts ps) (hierarchy : Hierarchy ts ps)
    (mem : s ∈ ts) {front back : String} (dot : s.fullName = front ++ "." ++ back) :
    ∃ k outer, 0 < k ∧ front = joinName (s.descriptor.parts.take k) ∧
      t.get? front = some outer ∧
      outer.kind = if k ≤ s.descriptor.package.segments.length then .package else .message := by
  obtain ⟨k, positive, short, rfl⟩ := joinName_take_of_dot (hierarchy.parts s mem) dot
  by_cases inPackage : k ≤ s.descriptor.package.segments.length
  · have around := hierarchy.around _ (hierarchy.package s mem) k positive
    obtain ⟨outer, found, package, -⟩ := records.entry_package hierarchy around
    refine ⟨k, outer, positive, rfl, ?_, by rw [package, if_pos inPackage]⟩
    rw [← found, Descriptor.parts, append_assoc, take_append_of_le_length inPackage]
  · rw [Descriptor.parts, length_append, length_append, length_singleton] at short
    obtain ⟨m, isType, isMessage, package, path⟩ := hierarchy.outer_message mem
      (show 0 < k - s.descriptor.package.segments.length by omega) (by omega)
    have name : s.descriptor.parts.take k = m.descriptor.parts := by
      rw [Descriptor.parts, Descriptor.parts, append_assoc, append_assoc, package, path,
        take_append, take_of_length_le (by omega), take_append_of_le_length (by omega)]
    refine ⟨k, m, positive, rfl, ?_, by rw [isMessage, if_neg inPackage]⟩
    rw [name]
    exact (records.get?_type.mpr ⟨isType, rfl⟩).1

end

/-- Files that are registered without an error are represented by the table. -/
theorem represents_of_registerAll {files : List LoadedFile} {registered : List Registered}
    {table : SymbolTable} {problems : List Diagnostic}
    (parsed : ∀ file ∈ files, Loading.Parsed file)
    (run : registerAll .refuse {} files = (registered, table, problems))
    (clean : ErrorFree problems) : table.Represents files := by
  obtain ⟨records, hierarchy⟩ := records_of_registerAll parsed run clean
  obtain ⟨ss, holds, listed⟩ := id records
  have entries : table.entries = ss.map fun s => (s.fullName, s) := holds.1
  constructor
  · rw [entries, map_map]
    exact holds.2
  · rw [entries, filter_map, ← listed.types]
    rfl
  · intro e mem package
    rw [entries] at mem
    obtain ⟨s, inside, rfl⟩ := mem_map.mp mem
    obtain ⟨p, isPackage, descriptor⟩ := listed.known s inside package
    refine ⟨p, mem_packagesIn.mp isPackage, ?_, descriptor⟩
    rw [← hierarchy.joinName_segments isPackage, ← Descriptor.text_ofPackage, ← descriptor]
    rfl
  · intro p declared
    have isPackage := mem_packagesIn.mpr declared
    obtain ⟨s, found, package, descriptor⟩ := records.entry_package hierarchy isPackage
    obtain ⟨inside, named⟩ := holds.mem_of_get? found
    refine ⟨s, ?_, package, descriptor⟩
    rw [entries, ← hierarchy.joinName_segments isPackage, ← named]
    exact mem_map.mpr ⟨s, inside, rfl⟩
  · intro s mem p declared
    have isPackage := mem_packagesIn.mpr declared
    rw [← hierarchy.joinName_segments isPackage, ← Descriptor.text_ofPackage]
    exact hierarchy.apart s mem p isPackage
  · intro s mem front back dot
    exact records.enclosing hierarchy mem dot

/-- A file of a package, and one of a package in it that has an enum inside two messages. -/
def innerImporter : Importer where
  fileCount := 2
  resolve path := .ok (if path == Octets.ofString "use" then "use" else "inner")
  read path := .ok (if path == "use" then
      "package a; include \"inner\"; message Use \x7b []b.Outer.Inner items; \x7d".toUTF8
    else "package a.b; message Outer \x7b message Inner \x7b ".toUTF8 ++
      "enum Kind \x7b On; Off; \x7d Kind kind; \x7d \x7d".toUTF8)

theorem represents_inner :
    ∃ registered table problems,
      registerAll .refuse {} (load innerImporter ["use"]).files = (registered, table, problems) ∧
      ErrorFree problems ∧ table.Represents (load innerImporter ["use"]).files ∧
      table.entries.map (fun e => (e.1, e.2.kind)) = [("a", .package), ("a.Use", .message),
        ("a.b", .package), ("a.b.Outer", .message), ("a.b.Outer.Inner", .message),
        ("a.b.Outer.Inner.Kind", .enum)] := by
  have clean : ∀ d ∈ (registerAll .refuse {} (load innerImporter ["use"]).files).2.2,
      d.isError = false := by
    decide +kernel
  refine ⟨_, _, _, rfl, clean, ?_, by decide +kernel⟩
  exact represents_of_registerAll (parsed_load innerImporter ["use"]) rfl clean

end BitSchema
