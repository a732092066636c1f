import BitSchema.Proofs.ErrorFree
import BitSchema.Proofs.FullNames
import BitSchema.Proofs.Outcome
import BitSchema.Proofs.SymbolTables
import BitSchema.Symbol.Registration

/-!
# Registered types

A source declares messages and enums at any depth, each with a descriptor of its own, in a package
that has other packages around it.  Registering it enters exactly these into the symbol table.  It
reports an error exactly if its declarations are out of place, or if a type has the full name of
another type or of a package; what else it reports are types with the names of built-in ones.
-/

namespace BitSchema

open List

attribute [local simp] Problem.code

/-! ## Declared types -/

namespace Source

def Enum.symbol (file : String) (scope : Descriptor) (e : Enum) : Symbol :=
  ⟨scope.child e.name.value, .enum, file, e.name.span⟩

mutual
/-- A message and all types declared in it, in the order of the source. -/
def Message.symbols (file : String) (scope : Descriptor) : Message → List Symbol
  | ⟨_, _, name, members⟩ =>
    ⟨scope.child name.value, .message, file, name.span⟩ ::
      symbolsIn file (scope.child name.value).scope members
def symbolsIn (file : String) (scope : Descriptor) : List Member → List Symbol
  | [] => []
  | m :: ms => m.symbols file scope ++ symbolsIn file scope ms
def Member.symbols (file : String) (scope : Descriptor) : Member → List Symbol
  | .field _ => []
  | .message m => m.symbols file scope
  | .enum e => [e.symbol file scope]
end

def Item.symbols (file : String) (scope : Descriptor) : Item → List Symbol
  | .message m => m.symbols file scope
  | .enum e => [e.symbol file scope]
  | _ => []

/-- The types that a file declares in its package. -/
def Schema.symbols (s : Schema) (p : PackageName) : List Symbol :=
  s.items.flatMap (Item.symbols s.span.file (Descriptor.ofPackage p))

/-- The types of a file that has a valid package. -/
def Schema.types (s : Schema) : List Symbol := (filePackage? s).elim [] s.symbols

/-- The package of a file and those around it. -/
def Schema.packages (s : Schema) : List PackageName := (filePackage? s).elim [] (·.ancestry)

variable {s : Schema} {p : PackageName}

theorem Schema.types_eq (package : filePackage? s = some p) : s.types = s.symbols p := by
  rw [types, package]
  rfl

theorem Schema.packages_eq (package : filePackage? s = some p) : s.packages = p.ancestry := by
  rw [packages, package]
  rfl

end Source

/-- What is said of a type that has the name of a built-in one. -/
def Symbol.shadowing (s : Symbol) : List Diagnostic :=
  if (Source.Scalar.ofName? s.descriptor.name).isSome then
    [⟨s.span, .shadowsBuiltin s.descriptor.name⟩]
  else []

/-! ## Steps of a registration -/

namespace Registration

variable {file : String} {scope d : Descriptor} {span : Span} {r r' r₁ r₂ : Registration}
  {as bs : List Symbol} {ps qs : List PackageName} {ok ok' : Prop}

/-- A relation between registrations before and after some types were entered.  It holds of steps
that enter one type, and has nothing to do with what the module declares. -/
structure Tracks (file : String) (policy : RedefinitionPolicy)
    (R : Registration → Registration → List Symbol → Prop) : Prop where
  refl : ∀ r, R r r []
  trans : ∀ {r r₁ r₂ as bs}, R r r₁ as → R r₁ r₂ bs → R r r₂ (as ++ bs)
  type : ∀ r d {kind}, kind ≠ .package → ∀ span,
    R r (r.enterType file policy d kind span).1 [⟨d, kind, file, span⟩]
  noted : ∀ {r r' : Registration} {as} messages enums, R r r' as →
    R r { r' with messages := messages, enums := enums } as

section

variable {policy : RedefinitionPolicy} {R : Registration → Registration → List Symbol → Prop}

theorem Tracks.enterEnum (tracks : Tracks file policy R) (scope : Descriptor) (r : Registration)
    (e : Source.Enum) :
    R r (enterEnum file policy scope r e) [e.symbol file scope] := by
  have entered : R r (r.enterType file policy (scope.child e.name.value) .enum e.name.span).1
      [e.symbol file scope] := tracks.type r _ (by decide) _
  unfold Registration.enterEnum
  dsimp only
  split
  next r' eq =>
    rw [eq] at entered
    exact tracks.noted _ _ entered
  next r' eq =>
    rw [eq] at entered
    exact entered

/-- Entering a message enters all types declared in it. -/
theorem Tracks.enterMessage (tracks : Tracks file policy R) (m : Source.Message)
    (scope : Descriptor) (r : Registration) :
    R r (enterMessage file policy scope r m) (m.symbols file scope) := by
  induction m using Source.Message.induct generalizing scope r with
  | step span doc name members ih =>
    have below (scope : Descriptor) (r : Registration) :
        R r (enterMembers file policy scope r members) (Source.symbolsIn file scope members) := by
      induction members generalizing r with
      | nil => exact tracks.refl r
      | cons member members rest =>
        rw [enterMembers, Source.symbolsIn]
        refine tracks.trans ?_ (rest (fun m mem => ih m (mem_cons_of_mem _ mem)) _)
        cases member with
        | field f => exact tracks.refl r
        | message m => exact ih m mem_cons_self scope r
        | enum e => exact tracks.enterEnum scope r e
    have entered : R r (r.enterType file policy (scope.child name.value) .message name.span).1
        [⟨scope.child name.value, .message, file, name.span⟩] := tracks.type r _ (by decide) _
    rw [Registration.enterMessage, Source.Message.symbols]
    split
    next r' eq =>
      rw [eq] at entered
      exact tracks.trans (tracks.noted _ _ entered) (below _ _)
    next r' eq =>
      rw [eq] at entered
      exact tracks.trans entered (below _ _)

end

/-- What a step enters.  It is free of errors exactly if `ok` holds and the names are not taken, and
then it reports only the types that shadow built-in ones. -/
structure Enters (r r' : Registration) (ok : Prop) (types : List Symbol)
    (packages : List PackageName) : Prop where
  before : ErrorFree r'.diagnostics → ErrorFree r.diagnostics
  accepts : ∀ {ts ps}, r.symbols.Records ts ps → ErrorFree r.diagnostics →
    (ErrorFree r'.diagnostics ↔ ok ∧ Compatible (ts ++ types) (ps ++ packages))
  records : ∀ {ts ps}, r.symbols.Records ts ps → ErrorFree r'.diagnostics →
    r'.symbols.Records (ts ++ types) (ps ++ packages)
  reports : ErrorFree r'.diagnostics →
    r'.diagnostics = r.diagnostics ++ types.flatMap Symbol.shadowing

theorem Enters.refl (r : Registration) : Enters r r True [] [] where
  before := id
  accepts records clean := by
    rw [append_nil, append_nil]
    exact ⟨fun _ => ⟨trivial, records.compatible⟩, fun _ => clean⟩
  records records _ := by rwa [append_nil, append_nil]
  reports _ := by simp

theorem Enters.trans (first : Enters r r₁ ok as ps) (second : Enters r₁ r₂ ok' bs qs) :
    Enters r r₂ (ok ∧ ok') (as ++ bs) (ps ++ qs) where
  before clean := first.before (second.before clean)
  accepts {ts us} records clean := by
    rw [← append_assoc, ← append_assoc]
    constructor
    · intro last
      have middle := second.before last
      obtain ⟨here, -⟩ := (first.accepts records clean).mp middle
      obtain ⟨later, all⟩ := (second.accepts (first.records records middle) middle).mp last
      exact ⟨⟨here, later⟩, all⟩
    · rintro ⟨⟨here, later⟩, all⟩
      have middle := (first.accepts records clean).mpr ⟨here, all.of_append⟩
      exact (second.accepts (first.records records middle) middle).mpr ⟨later, all⟩
  records records clean := by
    rw [← append_assoc, ← append_assoc]
    exact second.records (first.records records (second.before clean)) clean
  reports clean := by
    rw [second.reports clean, first.reports (second.before clean), flatMap_append, append_assoc]

theorem Enters.congr (enters : Enters r r' ok as ps) (same : ok ↔ ok') : Enters r r' ok' as ps where
  before := enters.before
  accepts records clean := by
    rw [← same]
    exact enters.accepts records clean
  records := enters.records
  reports := enters.reports

theorem Enters.andThen (first : Enters r r₁ True as ps) (second : Enters r₁ r₂ ok bs qs) :
    Enters r r₂ ok (as ++ bs) (ps ++ qs) :=
  (first.trans second).congr (iff_of_eq (true_and ok))

variable {problem : Problem} {s : Symbol}

theorem not_errorFree_report (error : problem.code < 4000) :
    ¬ ErrorFree (r.report span problem).diagnostics := by
  intro clean
  simp only [report, errorFree_append] at clean
  exact not_errorFree_of_code clean.2 error

/-- A step that fails, and has a reason to. -/
theorem enters_of_failed (failed : ¬ ErrorFree r'.diagnostics)
    (reason : ∀ {ts us}, r.symbols.Records ts us → ok → ¬ Compatible (ts ++ as) (us ++ ps)) :
    Enters r r' ok as ps where
  before clean := absurd clean failed
  accepts records _ :=
    ⟨fun clean => absurd clean failed, fun ⟨here, all⟩ => absurd all (reason records here)⟩
  records _ clean := absurd clean failed
  reports clean := absurd clean failed

theorem errorFree_shadowing (s : Symbol) : ErrorFree s.shadowing := by
  unfold Symbol.shadowing
  split
  · exact errorFree_singleton.mpr (by simp)
  · exact errorFree_nil

/-! ### Types -/

theorem enters_insert (new : r.symbols.get? s.fullName = none) (type : s.kind ≠ .package) :
    Enters r { r with symbols := r.symbols.insert s, diagnostics := r.diagnostics ++ s.shadowing }
      True [s] [] where
  before clean := (errorFree_append.mp clean).1
  accepts records clean := by
    rw [append_nil]
    refine ⟨fun _ => ⟨trivial, (records.insertType new type).compatible⟩, fun _ => ?_⟩
    exact errorFree_append.mpr ⟨clean, errorFree_shadowing s⟩
  records records _ := by
    rw [append_nil]
    exact records.insertType new type
  reports _ := by rw [flatMap_singleton]

/-- The name of a symbol in the table is taken. -/
theorem conflict_of_get? {previous : Symbol} {ts : List Symbol} {us : List PackageName}
    (records : r.symbols.Records ts us) (found : r.symbols.get? s.fullName = some previous) :
    ¬ Compatible (ts ++ [s]) (us ++ []) := by
  intro all
  by_cases package : previous.kind = .package
  · obtain ⟨p, mem, -, same⟩ := records.package_of_get? found package
    exact all.apart s (by simp) p (mem_append_left _ mem) same.symm
  · obtain ⟨mem, same⟩ := records.get?_type.mp ⟨found, package⟩
    have distinct := all.distinct
    rw [map_append, map_singleton, ← same] at distinct
    exact disjoint_of_nodup_append distinct (mem_map_of_mem mem) mem_cons_self

/-- A type is entered unless its name is taken. -/
theorem enters_enterType (r : Registration) (d : Descriptor) {kind : TypeKind}
    (type : kind ≠ .package) (span : Span) :
    Enters r (r.enterType file .refuse d kind span).1 True [⟨d, kind, file, span⟩] [] := by
  have warned : (if (Source.Scalar.ofName? d.name).isSome = true
      then r.report span (.shadowsBuiltin d.name) else r) =
      { r with diagnostics := r.diagnostics ++ (Symbol.mk d kind file span).shadowing } := by
    unfold Symbol.shadowing
    split
    · rfl
    · rw [append_nil]
  unfold enterType
  dsimp only
  rw [warned]
  split
  next new => exact enters_insert new type
  next previous found =>
    have taken := fun {ts us} (records : r.symbols.Records ts us) (_ : True) =>
      conflict_of_get? records found
    split
    next => exact enters_of_failed (not_errorFree_report (by simp)) taken
    next => exact enters_of_failed (not_errorFree_report (by simp)) taken

theorem tracks_enters :
    Tracks file .refuse fun r r' types => Enters r r' True types [] where
  refl := .refl
  trans first second := first.andThen second
  type := enters_enterType
  noted _ _ entered := ⟨entered.before, entered.accepts, entered.records, entered.reports⟩

/-! ### Items -/

/-- All declarations stand behind the package declaration, and there is no other one. -/
def InPlace (package : Source.Package) : Bool → List Source.Item → Prop
  | _, [] => True
  | _, .package p :: items => p.span = package.span ∧ InPlace package true items
  | seen, _ :: items => seen = true ∧ InPlace package seen items

/-- A check that reports a problem if it fails. -/
theorem enters_check (error : problem.code < 4000) {holds : Prop} [Decidable holds] :
    Enters r (if holds then r else r.report span problem) holds [] [] := by
  split
  next here => exact (Enters.refl r).congr (by simp [here])
  next not => exact enters_of_failed (not_errorFree_report error) fun _ here => absurd here not

/-- The declarations of a file enter the types they declare. -/
theorem enters_enterItems (file : String) (package : Source.Package) (scope : Descriptor)
    (seen : Bool) (items : List Source.Item) (r : Registration) :
    Enters r (enterItems file .refuse package scope seen items r) (InPlace package seen items)
      (items.flatMap (Source.Item.symbols file scope)) [] := by
  have placed : ∀ (r : Registration) (seen : Bool) (kind : String) (span package : Span),
      Enters r (r.misplaced seen kind span package) (seen = true) [] [] :=
    fun r seen kind span package => enters_check (by simp)
  induction items generalizing seen r with
  | nil => exact .refl r
  | cons item items ih =>
    rw [flatMap_cons]
    cases item with
    | package p =>
      rw [enterItems]
      exact (enters_check (by simp)).trans (ih _ _)
    | inclusion i =>
      rw [enterItems]
      exact (placed r _ _ _ _).trans (ih _ _)
    | message m =>
      rw [enterItems]
      exact (placed r _ _ _ _).trans ((tracks_enters.enterMessage m scope _).andThen (ih _ _))
    | enum e =>
      rw [enterItems]
      exact (placed r _ _ _ _).trans ((tracks_enters.enterEnum scope _ e).andThen (ih _ _))

/-! ### Packages -/

theorem enters_enterPackage (span : Span) (r : Registration) (p : PackageName) :
    Enters r (enterPackage file span r p) True [] [p] := by
  unfold enterPackage
  dsimp only
  split
  next previous found =>
    split
    next package =>
      refine ⟨id, fun records clean => ?_, fun records _ => ?_, fun _ => by simp⟩
      · rw [append_nil]
        have known := records.knownPackage found package
        exact ⟨fun _ => ⟨trivial, known.compatible⟩, fun _ => clean⟩
      · rw [append_nil]
        exact records.knownPackage found package
    next type =>
      refine enters_of_failed (not_errorFree_report (by simp)) ?_
      intro ts us records _ all
      obtain ⟨mem, same⟩ := records.get?_type.mp ⟨found, type⟩
      exact all.apart previous (mem_append_left _ mem) p (by simp) same
  next new =>
    refine ⟨id, fun records clean => ?_, fun records _ => ?_, fun _ => by simp⟩
    · rw [append_nil]
      have entered := records.insertPackage new rfl rfl
      exact ⟨fun _ => ⟨trivial, entered.compatible⟩, fun _ => clean⟩
    · rw [append_nil]
      exact records.insertPackage new rfl rfl

theorem enters_foldl (file : String) (span : Span) (ps : List PackageName) (r : Registration) :
    Enters r (ps.foldl (enterPackage file span) r) True [] ps := by
  induction ps generalizing r with
  | nil => exact .refl r
  | cons p ps ih => exact (enters_enterPackage span r p).andThen (ih _)

end Registration

/-! ## Packages -/

namespace PackageName

theorem mem_ancestry {p q : PackageName} :
    q ∈ p.ancestry ↔ q.segments ≠ [] ∧ q.segments <+: p.segments := by
  constructor
  · intro mem
    obtain ⟨i, short, rfl⟩ := mem_map.mp mem
    refine ⟨?_, take_prefix _ _⟩
    have long := mem_range.mp short
    exact ne_nil_of_length_pos (by rw [length_take]; omega)
  · rintro ⟨some, inside⟩
    have long := length_pos_of_ne_nil some
    have short := inside.length_le
    refine mem_map.mpr ⟨q.segments.length - 1, mem_range.mpr (by omega), ?_⟩
    rw [Nat.sub_add_cancel long, ← prefix_iff_eq_take.mp inside]

end PackageName

/-! ## Files -/

variable {file : Source.Schema} {p : PackageName} {symbols : SymbolTable}

theorem isValid_of_filePackage? (package : filePackage? file = some p) : p.IsValid := by
  obtain ⟨declared, -, valid⟩ := Option.bind_eq_some_iff.mp package
  obtain ⟨same, some, valid⟩ := PackageName.ofSegments_ok_iff.mp (toOption_eq_some_iff.mp valid)
  rw [same] at some valid
  exact PackageName.isValid_iff.mpr ⟨some, valid⟩

/-- A file with a valid package and all declarations in their places. -/
def Source.Schema.Orderly (file : Schema) : Prop :=
  ∃ package p, file.package? = some package ∧ PackageName.ofSegments package.names = .ok p ∧
    Registration.InPlace package false file.items

theorem filePackage?_eq {package : Source.Package} (declared : file.package? = some package)
    (valid : PackageName.ofSegments package.names = .ok p) : filePackage? file = some p := by
  simp [filePackage?, declared, valid, Except.toOption]

/-- Registering a file reports an error exactly if the file is not in order, or if it declares a
name that is taken. -/
theorem register_spec (file : Source.Schema) {ts : List Symbol} {ps : List PackageName}
    (records : symbols.Records ts ps) :
    (ErrorFree (register .refuse symbols file).2.2 ↔
        file.Orderly ∧ Compatible (ts ++ file.types) (ps ++ file.packages)) ∧
      (ErrorFree (register .refuse symbols file).2.2 →
        (register .refuse symbols file).2.1.Records (ts ++ file.types) (ps ++ file.packages) ∧
        (register .refuse symbols file).2.2 = file.types.flatMap Symbol.shadowing) := by
  unfold register
  split
  next none =>
    have failed : ¬ ErrorFree [⟨file.span, .missingPackage⟩] := fun clean =>
      not_errorFree_of_code clean (by simp)
    refine ⟨⟨fun clean => absurd clean failed, ?_⟩, fun clean => absurd clean failed⟩
    rintro ⟨⟨package, p, declared, -⟩, -⟩
    cases none.symm.trans declared
  next package declared =>
    split
    next cause invalid =>
      have failed : ¬ ErrorFree [⟨package.span, .badPackageName package.text cause⟩] :=
        fun clean => not_errorFree_of_code clean (by simp)
      refine ⟨⟨fun clean => absurd clean failed, ?_⟩, fun clean => absurd clean failed⟩
      rintro ⟨⟨package', p, declared', valid, -⟩, -⟩
      cases declared.symm.trans declared'
      cases invalid.symm.trans valid
    next p valid =>
      have isPackage := filePackage?_eq declared valid
      rw [Source.Schema.types_eq isPackage, Source.Schema.packages_eq isPackage]
      have opened :=
        Registration.enters_foldl file.span.file package.span p.ancestry { symbols }
      have entered := opened.andThen (Registration.enters_enterItems file.span.file package
        (Descriptor.ofPackage p) false file.items _)
      rw [append_nil] at entered
      have orderly : file.Orderly ↔ Registration.InPlace package false file.items := by
        constructor
        · rintro ⟨package', p', declared', -, inPlace⟩
          cases declared.symm.trans declared'
          exact inPlace
        · exact fun inPlace => ⟨package, p, declared, valid, inPlace⟩
      rw [orderly]
      refine ⟨entered.accepts records errorFree_nil, fun clean => ?_⟩
      exact ⟨entered.records records clean, entered.reports clean⟩

/-- A file that is registered without an error, under any policy, has a package and a module. -/
theorem register_module {policy : RedefinitionPolicy}
    (clean : ErrorFree (register policy symbols file).2.2) :
    (filePackage? file).isSome ∧
      ∃ m, (register policy symbols file).1 = some m ∧ m.path = file.span.file := by
  unfold register at clean ⊢
  split at clean
  next => exact (not_errorFree_of_code clean (by simp)).elim
  next package declared =>
    split at clean
    next => exact (not_errorFree_of_code clean (by simp)).elim
    next p valid =>
      rw [filePackage?_eq declared valid]
      exact ⟨rfl, _, rfl, rfl⟩

end BitSchema
