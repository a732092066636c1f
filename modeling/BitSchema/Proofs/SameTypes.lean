import BitSchema.Compilation.Basic
import BitSchema.Proofs.FieldSites
import BitSchema.Proofs.SymbolTables

/-!
# Tables with the same types

Checks and lowering ask a symbol table only for the types that references stand for.  So two tables
that answer this question alike lead to the same diagnostics and the same definitions, even if they
know their packages from different files.
-/

namespace BitSchema

open List
open Lowering (lowerMembers)

/-- Every reference stands for the same type in both tables, or for none in both. -/
def SameTypes (t t' : SymbolTable) : Prop :=
  ∀ scope r, t.resolveType scope r = t'.resolveType scope r

namespace SameTypes

variable {t t' : SymbolTable}

/-! ## Checks -/

section

variable (same : SameTypes t t')

include same

theorem ofType (scope : Descriptor) (type : Source.TypeExpr) :
    Resolution.ofType t scope type = Resolution.ofType t' scope type := by
  induction type with
  | scalar => rfl
  | named span absolute path name =>
    simp only [Resolution.ofType, Resolution.ofReference, same scope]
  | array span element ih => exact ih
  | map span key value ihKey ihValue =>
    rw [Resolution.ofType, Resolution.ofType, ihKey, ihValue]

theorem resolveReferences (file : Source.Schema) :
    resolveReferences t file = resolveReferences t' file := by
  rw [resolveReferences_eq, resolveReferences_eq]
  exact congrArg _ (List.map_congr_left fun s _ => same.ofType s.scope s.field.type)

theorem native? (scope : Descriptor) (type : Source.TypeExpr) :
    EncodingCheck.native? t scope type = EncodingCheck.native? t' scope type := by
  cases type with
  | scalar | array | map => rfl
  | named span absolute path name => simp only [EncodingCheck.native?, same scope]

theorem mapKeys (scope : Descriptor) (type : Source.TypeExpr) :
    EncodingCheck.mapKeys t scope type = EncodingCheck.mapKeys t' scope type := by
  induction type with
  | scalar | named => rfl
  | array span element ih => exact ih
  | map span key value ihKey ihValue =>
    rw [EncodingCheck.mapKeys, EncodingCheck.mapKeys, same.native?, ihKey, ihValue]

theorem checkEncodings (file : Source.Schema) : checkEncodings t file = checkEncodings t' file := by
  rw [checkEncodings_eq, checkEncodings_eq]
  refine List.flatMap_congr fun s _ => ?_
  simp only [EncodingCheck.checkSite, EncodingCheck.checkField, same.mapKeys, same.native?]

/-- The same is reported of a file. -/
theorem analyze (r : Compilation.Registered) :
    Compilation.analyze t r = Compilation.analyze t' r := by
  rw [Compilation.analyze, Compilation.analyze, same.resolveReferences, same.checkEncodings]

/-! ## Lowering -/

theorem typeEncoding (scope : Descriptor) (type : Source.TypeExpr) :
    Lowering.typeEncoding t scope type = Lowering.typeEncoding t' scope type := by
  induction type with
  | scalar => rfl
  | named span absolute path name =>
    simp only [Lowering.typeEncoding, Lowering.referenceEncoding, same scope]
  | array span element ih => rw [Lowering.typeEncoding, Lowering.typeEncoding, ih]
  | map span key value ihKey ihValue =>
    rw [Lowering.typeEncoding, Lowering.typeEncoding, ihKey, ihValue]

theorem memberEncoding (what member : String) (owner : Descriptor) (f : Source.Field) :
    Lowering.memberEncoding t what owner member f =
      Lowering.memberEncoding t' what owner member f := by
  simp only [Lowering.memberEncoding, Lowering.fieldEncoding, same.typeEncoding]

theorem enum (scope : Descriptor) (e : Source.Enum) :
    Lowering.enum t scope e = Lowering.enum t' scope e := by
  have variant : Lowering.variant t = Lowering.variant t' := by
    funext owner v index
    simp only [Lowering.variant, same.memberEncoding]
  rw [Lowering.enum, Lowering.enum, variant]

end

theorem message (same : SameTypes t t') (m : Source.Message) (scope : Descriptor) :
    Lowering.message t scope m = Lowering.message t' scope m := by
  induction m using Source.Message.induct generalizing scope with
  | step span doc name members ih =>
    have below (owner : Descriptor) (indices : List UInt32) :
        lowerMembers t owner indices members = lowerMembers t' owner indices members := by
      induction members generalizing indices with
      | nil => rfl
      | cons member members rest =>
        have others := rest fun m mem => ih m (mem_cons_of_mem _ mem)
        cases member with
        | field f => rw [lowerMembers, lowerMembers, same.memberEncoding, others]
        | message m => rw [lowerMembers, lowerMembers, ih m mem_cons_self, others]
        | enum e => rw [lowerMembers, lowerMembers, same.enum, others]
    rw [Lowering.message, Lowering.message, below]

theorem items (same : SameTypes t t') (scope : Descriptor) (is : List Source.Item) :
    Lowering.items t scope is = Lowering.items t' scope is := by
  induction is with
  | nil => rfl
  | cons item is ih =>
    cases item with
    | package | inclusion => exact ih
    | message m => rw [Lowering.items, Lowering.items, same.message, ih]
    | enum e => rw [Lowering.items, Lowering.items, same.enum, ih]

theorem packages (same : SameTypes t t') (done : List Ir.Package) (files : List Source.Schema) :
    Lowering.packages t done files = Lowering.packages t' done files := by
  induction files generalizing done with
  | nil => rfl
  | cons file files ih =>
    rw [Lowering.packages, Lowering.packages]
    simp only [same.items, ih]

/-- Files are lowered to the same schema. -/
theorem lower (same : SameTypes t t') (files : List Source.Schema) :
    lower t files = lower t' files := by
  rw [BitSchema.lower, BitSchema.lower, same.packages]

end SameTypes

/-! ## Tables of the same declarations -/

/-- A symbol as far as a reference is concerned: the type, or nothing but that it is a package. -/
def Symbol.type? (s : Symbol) : Option Symbol := if s.kind = .package then none else some s

theorem SymbolTable.resolveType_eq (t : SymbolTable) (scope : Descriptor) (r : Reference) :
    t.resolveType scope r =
      match (candidates scope r).findSome? fun name => (t.get? name).map Symbol.type? with
      | none => .error (.unresolved r scope)
      | some none => .error (.notType r)
      | some (some s) => .ok s := by
  have hit : (candidates scope r).findSome? (fun name => (t.get? name).map Symbol.type?) =
      (t.resolve? scope r).map Symbol.type? := List.map_findSome?.symm
  rw [hit, resolveType]
  cases t.resolve? scope r with
  | none => rfl
  | some s =>
    by_cases package : s.kind = .package
    · simp [Symbol.type?, package]
    · simp [Symbol.type?, package]

/-- Tables with the same types and packages agree, in whatever order these were entered. -/
theorem SymbolTable.Records.sameTypes {t t' : SymbolTable} {ts ts' : List Symbol}
    {ps ps' : List PackageName} (records : t.Records ts ps) (records' : t'.Records ts' ps')
    (types : ∀ s, s ∈ ts ↔ s ∈ ts') (packages : ∀ p, p ∈ ps ↔ p ∈ ps') : SameTypes t t' := by
  have answers : ∀ name, (t.get? name).map Symbol.type? = (t'.get? name).map Symbol.type? := by
    intro name
    cases found : t.get? name with
    | none =>
      rw [records.get?_eq_none_iff] at found
      have missed : t'.get? name = none := records'.get?_eq_none_iff.mpr
        ⟨fun s mem => found.1 s ((types s).mpr mem), fun p mem => found.2 p ((packages p).mpr mem)⟩
      rw [missed]
    | some s =>
      by_cases package : s.kind = .package
      · obtain ⟨p, mem, -, rfl⟩ := records.package_of_get? found package
        obtain ⟨s', found', package'⟩ := records'.get?_package ((packages p).mp mem)
        simp [found', Symbol.type?, package, package']
      · obtain ⟨mem, named⟩ := records.get?_type.mp ⟨found, package⟩
        rw [(records'.get?_type.mpr ⟨(types s).mp mem, named⟩).1]
  intro scope r
  rw [resolveType_eq, resolveType_eq]
  simp only [answers]

end BitSchema
