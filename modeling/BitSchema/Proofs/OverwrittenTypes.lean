import BitSchema.Proofs.CompilePhases
import BitSchema.Proofs.FirstDeclarations

/-!
# Overwritten types

If types may be declared again, the symbol table keeps the last declaration of each name, in the
order in which the files were loaded.  The schema keeps all of them, in the order in which the files
depend on each other, and a search in it takes the first of each name on its way.

So a definition that is found by the descriptor of a symbol need not be the one that the symbol is
of, and inside a message that is declared again it may not be found at all.
-/

namespace BitSchema

open List

/-! ## The last of a name -/

namespace SymbolTable

variable {t : SymbolTable} {s : Symbol} {ts : List Symbol}

theorem get?_insert (t : SymbolTable) (s : Symbol) (name : String) :
    (t.insert s).get? name = if name = s.fullName then some s else t.get? name := by
  unfold insert
  split
  next taken =>
    have keeps : ((·.1 == name) ∘ fun e : String × Symbol =>
        if e.1 == s.fullName then (e.1, s) else e) = (·.1 == name) := by
      funext e
      by_cases same : (e.1 == s.fullName) = true
      · rw [Function.comp_apply, if_pos same]
      · rw [Function.comp_apply, if_neg same]
    rw [get?, find?_map, keeps]
    split
    next here =>
      subst here
      obtain ⟨previous, known⟩ := Option.isSome_iff_exists.mp taken
      obtain ⟨e, found, -⟩ := Option.map_eq_some_iff.mp known
      have same := find?_some found
      rw [found, Option.map_some, if_pos same]
      rfl
    next other =>
      rw [get?]
      cases found : t.entries.find? (·.1 == name) with
      | none => rfl
      | some e =>
        have same := find?_some found
        rw [Option.map_some, if_neg (by simpa [eq_of_beq same] using other)]
  next free =>
    have none : t.get? s.fullName = none := by simpa using free
    rw [get?, find?_append]
    split
    next here =>
      subst here
      rw [Option.map_eq_none_iff.mp none]
      simp
    next other =>
      have miss : [(s.fullName, s)].find? (·.1 == name) = Option.none := by
        simpa using Ne.symm other
      rw [miss, Option.or_none]
      rfl

/-- The types of the table are the last of their names. -/
def Latest (t : SymbolTable) (types : List Symbol) : Prop :=
  ∀ name s, t.get? name = some s ∧ s.kind ≠ .package ↔
    types.reverse.find? (·.fullName == name) = some s

theorem latest_empty : Latest {} [] := by
  intro name s
  simp [get?]

theorem Latest.insertType (latest : t.Latest ts) (type : s.kind ≠ .package) :
    (t.insert s).Latest (ts ++ [s]) := by
  intro name other
  rw [get?_insert, reverse_append, reverse_singleton, singleton_append, find?_cons]
  by_cases same : name = s.fullName
  · subst same
    simp only [if_true, beq_self_eq_true, Option.some.injEq]
    exact ⟨fun found => found.1, fun is => ⟨is, is ▸ type⟩⟩
  · have differs : (s.fullName == name) = false := by simpa using Ne.symm same
    rw [if_neg same, differs]
    exact latest name other

theorem Latest.insertPackage (latest : t.Latest ts) (new : t.get? s.fullName = none)
    (package : s.kind = .package) : (t.insert s).Latest ts := by
  intro name other
  rw [get?_insert, ← latest]
  split
  next here =>
    rw [here, new]
    refine iff_of_false ?_ (by simp)
    rintro ⟨is, type⟩
    exact type (Option.some.inj is ▸ package)
  next => rfl

end SymbolTable

namespace Registration

variable {file : String} {span : Span} {r r' r₁ r₂ : Registration} {as bs : List Symbol}

/-- What a step enters that takes the place of what is there. -/
structure Overwrites (r r' : Registration) (types : List Symbol) : Prop where
  before : ErrorFree r'.diagnostics → ErrorFree r.diagnostics
  latest : ∀ {ts}, r.symbols.Latest ts → ErrorFree r'.diagnostics → r'.symbols.Latest (ts ++ types)

theorem Overwrites.refl (r : Registration) : Overwrites r r [] :=
  ⟨id, fun latest _ => by rwa [append_nil]⟩

theorem Overwrites.trans (first : Overwrites r r₁ as) (second : Overwrites r₁ r₂ bs) :
    Overwrites r r₂ (as ++ bs) where
  before clean := first.before (second.before clean)
  latest latest clean := by
    rw [← append_assoc]
    exact second.latest (first.latest latest (second.before clean)) clean

theorem overwrites_of_failed (failed : ¬ ErrorFree r'.diagnostics) : Overwrites r r' as :=
  ⟨fun clean => absurd clean failed, fun _ clean => absurd clean failed⟩

theorem overwrites_report (r : Registration) (span : Span) (problem : Problem) :
    Overwrites r (r.report span problem) [] where
  before clean := (errorFree_append.mp clean).1
  latest latest _ := by rwa [append_nil]

theorem overwrites_ite {holds : Prop} [Decidable holds] (first : Overwrites r r₁ as)
    (second : Overwrites r r₂ as) : Overwrites r (if holds then r₁ else r₂) as := by
  split
  · exact first
  · exact second

theorem overwrites_enterType (r : Registration) (d : Descriptor) {kind : TypeKind}
    (type : kind ≠ .package) (span : Span) :
    Overwrites r (r.enterType file .overwrite d kind span).1 [⟨d, kind, file, span⟩] := by
  have warned : Overwrites r (if (Source.Scalar.ofName? d.name).isSome = true then
      r.report span (.shadowsBuiltin d.name) else r) [] :=
    overwrites_ite (overwrites_report r _ _) (.refl r)
  unfold enterType
  dsimp only
  generalize (if (Source.Scalar.ofName? d.name).isSome = true then
    r.report span (.shadowsBuiltin d.name) else r) = r' at warned
  have entered : Overwrites r' { r' with symbols := r'.symbols.insert ⟨d, kind, file, span⟩ }
      [⟨d, kind, file, span⟩] := ⟨id, fun latest _ => latest.insertType type⟩
  split
  next => exact warned.trans entered
  next =>
    split
    next => exact overwrites_of_failed (not_errorFree_report (by simp [Problem.code]))
    next => exact warned.trans entered

theorem tracks_overwrites : Tracks file .overwrite Overwrites where
  refl := .refl
  trans := .trans
  type := overwrites_enterType
  noted _ _ entered := ⟨entered.before, entered.latest⟩

theorem overwrites_enterItems (file : String) (package : Source.Package) (scope : Descriptor)
    (seen : Bool) (items : List Source.Item) (r : Registration) :
    Overwrites r (enterItems file .overwrite package scope seen items r)
      (items.flatMap (Source.Item.symbols file scope)) := by
  have placed : ∀ (r : Registration) (seen : Bool) (kind : String) (span package : Span),
      Overwrites r (r.misplaced seen kind span package) [] :=
    fun r seen kind span package => overwrites_ite (.refl r) (overwrites_report r _ _)
  induction items generalizing seen r with
  | nil => exact .refl r
  | cons item items ih =>
    rw [flatMap_cons]
    cases item with
    | package p =>
      rw [enterItems]
      exact (overwrites_ite (.refl r) (overwrites_report r _ _)).trans (ih _ _)
    | inclusion i =>
      rw [enterItems]
      exact (placed r _ _ _ _).trans (ih _ _)
    | message m =>
      rw [enterItems]
      exact (placed r _ _ _ _).trans ((tracks_overwrites.enterMessage m scope _).trans (ih _ _))
    | enum e =>
      rw [enterItems]
      exact (placed r _ _ _ _).trans ((tracks_overwrites.enterEnum scope _ e).trans (ih _ _))

theorem overwrites_foldl (file : String) (span : Span) (ps : List PackageName)
    (r : Registration) : Overwrites r (ps.foldl (enterPackage file span) r) [] := by
  induction ps generalizing r with
  | nil => exact .refl r
  | cons p ps ih =>
    have entered : Overwrites r (enterPackage file span r p) [] := by
      unfold enterPackage
      dsimp only
      split
      next => exact overwrites_ite (.refl r) (overwrites_report r _ _)
      next new =>
        refine ⟨id, fun latest _ => ?_⟩
        rw [append_nil]
        exact latest.insertPackage new rfl
    exact entered.trans (ih _)

end Registration

namespace Compilation

variable {symbols : SymbolTable} {ts : List Symbol}

theorem latest_register {file : Source.Schema} (latest : symbols.Latest ts)
    (clean : ErrorFree (register .overwrite symbols file).2.2) :
    (register .overwrite symbols file).2.1.Latest (ts ++ file.types) := by
  unfold register at clean ⊢
  split at clean
  next => exact (not_errorFree_of_code clean (by simp [Problem.code])).elim
  next package declared =>
    split at clean
    next => exact (not_errorFree_of_code clean (by simp [Problem.code])).elim
    next p valid =>
      rw [Source.Schema.types_eq (filePackage?_eq declared valid)]
      have opened :=
        Registration.overwrites_foldl file.span.file package.span p.ancestry { symbols }
      exact (opened.trans (Registration.overwrites_enterItems _ _ _ _ _ _)).latest latest clean

/-- After all files the table has the last type of each name. -/
theorem latest_registerAll {files : List LoadedFile} (latest : symbols.Latest ts)
    (clean : ErrorFree (registerAll .overwrite symbols files).2.2) :
    (registerAll .overwrite symbols files).2.1.Latest (ts ++ typesIn files) := by
  induction files generalizing symbols ts with
  | nil => rwa [typesIn, schemasOf, filterMap_nil, flatMap_nil, append_nil]
  | cons file files ih =>
    cases parsed : file.schema with
    | none =>
      rw [registerAll_none parsed] at clean ⊢
      rw [typesIn, schemasOf, filterMap_cons_none parsed]
      exact ih latest clean
    | some schema =>
      rw [registerAll_some parsed] at clean ⊢
      obtain ⟨here, later⟩ := errorFree_append.mp clean
      rw [typesIn, schemasOf, filterMap_cons_some parsed, flatMap_cons, ← append_assoc]
      exact ih (latest_register latest here) later

end Compilation

/-! ## Types at the top -/

namespace Source

/-- What is declared in a message has the names of the message before its own. -/
theorem Message.path_declared (m : Message) (path : List String) : ∀ d ∈ m.declared path,
    d = ⟨path, m.name, .message⟩ ∨ path ++ [m.name.value] <+: d.path := by
  induction m using Message.induct generalizing path with
  | step span doc name members ih =>
    rw [Message.declared, forall_mem_cons]
    refine ⟨.inl rfl, fun d mem => .inr ?_⟩
    generalize path ++ [name.value] = path at mem
    induction members with
    | nil => cases mem
    | cons member members rest =>
      rcases mem_append.mp mem with here | later
      · cases member with
        | field f => cases here
        | message m =>
          rcases ih m mem_cons_self path d here with rfl | below
          · exact prefix_rfl
          · exact (prefix_append _ _).trans below
        | enum e =>
          cases mem_singleton.mp here
          exact prefix_rfl
      · exact rest (fun m mem => ih m (mem_cons_of_mem _ mem)) later

/-- A type that is declared outside of all messages is an item of the file. -/
theorem Schema.top_of_declared {s : Schema} {d : DeclaredType} (mem : d ∈ s.declared)
    (top : d.path = []) :
    (∃ m ∈ s.messages, d = ⟨[], m.name, .message⟩) ∨ ∃ e ∈ s.enums, d = ⟨[], e.name, .enum⟩ := by
  obtain ⟨item, inside, declared⟩ := mem_flatMap.mp mem
  cases item with
  | package | inclusion => simp [Item.declared] at declared
  | message m =>
    refine .inl ⟨m, mem_filterMap.mpr ⟨_, inside, rfl⟩, ?_⟩
    refine (m.path_declared [] d declared).resolve_right fun below => ?_
    simp [top] at below
  | enum e =>
    exact .inr ⟨e, mem_filterMap.mpr ⟨_, inside, rfl⟩, mem_singleton.mp declared⟩

end Source

/-! ## Compiled schemas -/

open Compilation

section

variable {loaded : List LoadedFile} {files : List Registered} {table : SymbolTable}
  {schema : Ir.Schema} {s : Symbol}

/-- If there is a declaration to come to, a search comes to what it is lowered to. -/
theorem found_of_finds {α β : Type} {lowers : α → Except LowerError β} {as : List α} {p : α → Bool}
    {found : Ir.Search β} {a : α} (finds : Finds lowers (as.find? p) found) (mem : a ∈ as)
    (isOne : p a = true) :
    ∃ first b, p first = true ∧ lowers first = .ok b ∧ found = .ok (some b) := by
  obtain ⟨first, isFirst⟩ := Option.isSome_iff_exists.mp (find?_isSome.mpr ⟨a, mem, isOne⟩)
  rw [isFirst] at finds
  obtain ⟨b, lowered, found⟩ := finds
  exact ⟨first, b, find?_some isFirst, lowered, found⟩

variable (parsed : ∀ file ∈ loaded, Loading.Parsed file)
  (perm : (orderedSchemas files).Perm (schemasOf loaded))
  (ok : lower table (orderedSchemas files) = .ok schema) (mem : s ∈ declaredTypes loaded)
include parsed perm ok mem

/-- A search by the descriptor of a declared type comes to the first declaration on its way. -/
theorem finds_of_declared :
    Finds (Lowering.message table ⟨s.descriptor.package, s.descriptor.path, ""⟩)
        (Source.firstMessage (orderedSchemas files) s.descriptor)
        (schema.findMessage s.descriptor.toIr) ∧
      Finds (Lowering.enum table ⟨s.descriptor.package, s.descriptor.path, ""⟩)
        (Source.firstEnum (orderedSchemas files) s.descriptor)
        (schema.findEnum s.descriptor.toIr) := by
  have named : ∀ name ∈ s.descriptor.path, name ≠ "" := fun name inside =>
    (isPart_of_declaredTypes parsed mem name (mem_append_left _ inside)).some
  obtain ⟨file, inside, source, p, isSource, package, d, -, rfl⟩ := mem_declaredTypes.mp mem
  have among : source ∈ orderedSchemas files :=
    perm.mem_iff.mpr (mem_filterMap.mpr ⟨file, inside, isSource⟩)
  exact ⟨Lowering.finds_message ok among package named, Lowering.finds_enum ok among package named⟩

/-- Outside of all messages there is always a declaration to come to. -/
theorem defines_top (top : s.descriptor.path = []) : schema.Defines s.kind s.descriptor.toIr := by
  obtain ⟨message, enum⟩ := finds_of_declared parsed perm ok mem
  obtain ⟨file, inside, source, p, isSource, package, d, declared, rfl⟩ :=
    mem_declaredTypes.mp mem
  have among : source ∈ (orderedSchemas files).filter (filePackage? · = some p) := by
    refine mem_filter.mpr ⟨perm.mem_iff.mpr ?_, by simpa using package⟩
    exact mem_filterMap.mpr ⟨file, inside, isSource⟩
  rcases Source.Schema.top_of_declared declared top with ⟨m, isItem, rfl⟩ | ⟨e, isItem, rfl⟩
  · obtain ⟨first, lowered, same, lowers, found⟩ :=
      found_of_finds message (mem_flatMap.mpr ⟨source, among, isItem⟩) (beq_self_eq_true _)
    refine ⟨lowered, found, ?_⟩
    rw [(Lowering.message_ok lowers).descriptor, eq_of_beq same]
    rfl
  · obtain ⟨first, lowered, same, lowers, found⟩ :=
      found_of_finds enum (mem_flatMap.mpr ⟨source, among, isItem⟩) (beq_self_eq_true _)
    refine ⟨lowered, found, ?_⟩
    rw [(Lowering.enum_ok lowers).descriptor, eq_of_beq same]
    rfl

end

/-- Where types may be declared again, the symbol table has the last declaration of each name, but a
search in the schema comes to the first one on its way, if there is one.  Encodings refer to types
of the table, and outside of all messages these are always found. -/
theorem overwritten_of_compile {importer : Importer} {entries : List String} {schema : Ir.Schema}
    (compiled : (compile importer .overwrite entries).schema = some schema) :
    ∃ files table problems,
      registerAll .overwrite {} (load importer entries).files = (files, table, problems) ∧
      table.Latest (declaredTypes (load importer entries).files) ∧
      (∀ s ∈ declaredTypes (load importer entries).files,
        Finds (Lowering.message table ⟨s.descriptor.package, s.descriptor.path, ""⟩)
          (Source.firstMessage (orderedSchemas files) s.descriptor)
          (schema.findMessage s.descriptor.toIr) ∧
        Finds (Lowering.enum table ⟨s.descriptor.package, s.descriptor.path, ""⟩)
          (Source.firstEnum (orderedSchemas files) s.descriptor)
          (schema.findEnum s.descriptor.toIr) ∧
        (s.descriptor.path = [] → schema.Defines s.kind s.descriptor.toIr)) ∧
      ∀ e ∈ schema.encodings, Resolved table e := by
  rcases run : registerAll .overwrite {} (load importer entries).files with
    ⟨files, table, problems⟩
  refine ⟨files, table, problems, rfl, ?_⟩
  have parsed := parsed_load importer entries
  cases ends_compile run with
  | failed _ none | unlinked _ _ none | notLowered _ _ _ none => cases none.symm.trans compiled
  | lowered clean linked ok isSchema =>
      obtain rfl := Option.some.inj (isSchema.symm.trans compiled)
      obtain ⟨modules, -⟩ := modules_of_checks run clean
      have perm : (orderedSchemas files).Perm (schemasOf (load importer entries).files) := by
        rw [modules.schemas]
        exact ordered_perm (nodup_files modules) modules.path linked
      refine ⟨?_, fun s mem => ?_, fun e mem => ?_⟩
      · have registered := (errorFree_append.mp (errorFree_append.mp clean).1).2
        have latest : ErrorFree (registerAll .overwrite {} (load importer entries).files).2.2 → _ :=
          latest_registerAll SymbolTable.latest_empty
        rw [run, nil_append, typesIn_eq parsed] at latest
        exact latest registered
      · obtain ⟨message, enum⟩ := finds_of_declared parsed perm ok mem
        exact ⟨message, enum, defines_top parsed perm ok mem⟩
      · exact (schemaBuilt_of_lower ok).resolved mem

/-- A file that declares two messages again, the second one with a message inside. -/
def againImporter : Importer where
  fileCount := 1
  resolve _ := .ok "again"
  read _ := .ok ("package p; message Foo \x7b u8 x; \x7d message Foo \x7b u16 y; \x7d ".toUTF8 ++
    "message Outer \x7b u8 a; \x7d message Outer \x7b message Inner \x7b u8 b; \x7d ".toUTF8 ++
    "Inner inner; \x7d".toUTF8)

/-- The table has the second `Foo`, and the search comes to the first; `Outer.Inner` is referred to,
and the search does not find it. -/
theorem overwritten_not_found :
    ∃ schema ∈ (compile againImporter .overwrite ["again"]).schema,
      (∃ s ∈ (registerAll .overwrite {} (load againImporter ["again"]).files).2.1.get? "p.Foo",
        ∃ first ∈ Source.firstMessage (orderedSchemas
          (registerAll .overwrite {} (load againImporter ["again"]).files).1) s.descriptor,
          first.name.span ≠ s.span) ∧
      (∃ m ∈ schema.message? ⟨"p", [], "Foo"⟩, m.fields.map (·.name) = ["x"]) ∧
      ∃ e ∈ schema.encodings, e.native.descriptor = some ⟨"p", ["Outer"], "Inner"⟩ ∧
        schema.message? ⟨"p", ["Outer"], "Inner"⟩ = none := by
  decide +kernel

theorem overwritten_of_compile_again :
    ∃ schema, (compile againImporter .overwrite ["again"]).schema = some schema ∧
      ∃ files table problems s,
        registerAll .overwrite {} (load againImporter ["again"]).files = (files, table, problems) ∧
        table.get? "p.Foo" = some s ∧ s.kind = .message ∧
        (declaredTypes (load againImporter ["again"]).files).reverse.find?
          (·.fullName == "p.Foo") = some s ∧
        Finds (Lowering.message table ⟨s.descriptor.package, s.descriptor.path, ""⟩)
          (Source.firstMessage (orderedSchemas files) s.descriptor)
          (schema.findMessage s.descriptor.toIr) ∧
        schema.Defines .message ⟨"p", [], "Foo"⟩ ∧
        ∃ e ∈ schema.encodings, e.native.kind = .message ∧ Resolved table e := by
  have run : ∃ schema ∈ (compile againImporter .overwrite ["again"]).schema,
      ∃ e ∈ schema.encodings, e.native.kind = .message := by
    decide +kernel
  have last : ∃ s ∈ (declaredTypes (load againImporter ["again"]).files).reverse.find?
      (·.fullName == "p.Foo"), s.kind = .message ∧ s.descriptor = ⟨⟨["p"]⟩, [], "Foo"⟩ := by
    decide +kernel
  obtain ⟨schema, compiled, e, encoding, kind⟩ := run
  obtain ⟨s, isLast, message, descriptor⟩ := last
  obtain ⟨files, table, problems, registered, latest, finds, resolved⟩ :=
    overwritten_of_compile compiled
  have declared : s ∈ declaredTypes (load againImporter ["again"]).files :=
    mem_reverse.mp (mem_of_find?_eq_some isLast)
  obtain ⟨found, -, defines⟩ := finds s declared
  have defined := defines (by rw [descriptor])
  rw [message, descriptor] at defined
  exact ⟨schema, compiled, files, table, problems, s, registered, ((latest _ s).mpr isLast).1,
    message, isLast, found, defined, e, encoding, kind, resolved e encoding⟩

end BitSchema
