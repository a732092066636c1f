import BitSchema.Encoding.Check
import BitSchema.Proofs.Indices
import BitSchema.Proofs.Outcome
import BitSchema.Symbol.References

/-!
# Fields in their scopes

Resolving references, checking encodings and lowering all walk through the same declarations and
come to every field with the same scope.  Here the walk is made once: `sites` lists the fields of a
source with their scopes.  What the first two report is what they report of these fields in order,
and a source can be lowered if and only if the types of these fields can be resolved.
-/

namespace BitSchema

open List

namespace Source

/-- A field, or the value of a variant, and the scope that its type is looked up in. -/
structure FieldSite where
  scope : Descriptor
  field : Field

def Enum.sites (scope : Descriptor) (e : Enum) : List FieldSite :=
  (e.variants.filterMap Variant.field?).map (⟨(scope.child e.name.value).scope, ·⟩)

mutual
/-- The fields of a message, then those of the types declared in it. -/
def Message.sites (scope : Descriptor) : Message → List FieldSite
  | ⟨_, _, name, members⟩ =>
    (members.filterMap Member.field?).map (⟨(scope.child name.value).scope, ·⟩) ++
      sitesIn (scope.child name.value).scope members
def sitesIn (scope : Descriptor) : List Member → List FieldSite
  | [] => []
  | m :: ms => m.sites scope ++ sitesIn scope ms
def Member.sites (scope : Descriptor) : Member → List FieldSite
  | .field _ => []
  | .message m => m.sites scope
  | .enum e => e.sites scope
end

def Item.sites (scope : Descriptor) : Item → List FieldSite
  | .message m => m.sites scope
  | .enum e => e.sites scope
  | _ => []

/-- The fields of a file that has a valid package. -/
def Schema.sites (s : Schema) : List FieldSite :=
  (filePackage? s).elim [] fun p => s.items.flatMap (Item.sites (Descriptor.ofPackage p))

end Source

open Source (FieldSite)

/-! ## References -/

namespace Resolution

@[ext] theorem ext {a b : Resolution} (symbols : a.symbols = b.symbols)
    (diagnostics : a.diagnostics = b.diagnostics) : a = b := by
  cases a
  cases b
  cases symbols
  cases diagnostics
  rfl

@[simp] theorem symbols_append (a b : Resolution) : (a ++ b).symbols = a.symbols ++ b.symbols := rfl

@[simp] theorem diagnostics_append (a b : Resolution) :
    (a ++ b).diagnostics = a.diagnostics ++ b.diagnostics := rfl

theorem join_eq (rs : List Resolution) :
    join rs = ⟨rs.flatMap (·.symbols), rs.flatMap (·.diagnostics)⟩ := by
  have started : ∀ r : Resolution, rs.foldl (· ++ ·) r =
      ⟨r.symbols ++ rs.flatMap (·.symbols), r.diagnostics ++ rs.flatMap (·.diagnostics)⟩ := by
    induction rs with
    | nil => simp
    | cons a as ih =>
      intro r
      rw [foldl_cons, ih]
      simp
  rw [join, started]
  rfl

theorem join_append (as bs : List Resolution) : join (as ++ bs) = join as ++ join bs := by
  rw [join_eq, join_eq, join_eq]
  ext1 <;> simp

theorem join_flatMap {α : Type} (f : α → List Resolution) (as : List α) :
    join (as.flatMap f) = join (as.map fun a => join (f a)) := by
  simp [join_eq, flatMap_assoc, flatMap_map]

/-- What the reference in a field leads to. -/
def ofSite (table : SymbolTable) (s : FieldSite) : Resolution := ofType table s.scope s.field.type

variable {table : SymbolTable}

theorem ofEnum_eq (scope : Descriptor) (e : Source.Enum) :
    ofEnum table scope e = join ((e.sites scope).map (ofSite table)) := by
  rw [ofEnum, Source.Enum.sites, map_map, map_filterMap]
  rfl

theorem ofMessage_eq (m : Source.Message) (scope : Descriptor) :
    ofMessage table scope m = join ((m.sites scope).map (ofSite table)) := by
  induction m using Source.Message.induct generalizing scope with
  | step span doc name members ih =>
    rw [ofMessage, Source.Message.sites, map_append, join_append, map_map]
    refine congrArg (join _ ++ ·) ?_
    induction members with
    | nil => rfl
    | cons member members rest =>
      rw [ofMembers, Source.sitesIn, map_append, join_append,
        rest fun m mem => ih m (mem_cons_of_mem _ mem)]
      cases member with
      | field f => rfl
      | message m => rw [ofMember, Source.Member.sites, ih m mem_cons_self]
      | enum e => rw [ofMember, Source.Member.sites, ofEnum_eq]

theorem ofItem_eq (item : Source.Item) (scope : Descriptor) :
    ofItem table scope item = join ((item.sites scope).map (ofSite table)) := by
  cases item with
  | package | inclusion => rfl
  | message m => exact ofMessage_eq m scope
  | enum e => exact ofEnum_eq scope e

end Resolution

/-- References are resolved field by field. -/
theorem resolveReferences_eq (table : SymbolTable) (file : Source.Schema) :
    resolveReferences table file = Resolution.join (file.sites.map (Resolution.ofSite table)) := by
  rw [resolveReferences, Source.Schema.sites]
  cases filePackage? file with
  | none => rfl
  | some p =>
    dsimp only [Option.elim]
    rw [map_flatMap, Resolution.join_flatMap]
    exact congrArg _ (map_congr_left fun item _ => Resolution.ofItem_eq item _)

/-! ## Encodings -/

namespace EncodingCheck

variable {table : SymbolTable}

/-- What is wrong with the encoding of a field. -/
def checkSite (table : SymbolTable) (s : FieldSite) : List Diagnostic :=
  checkField table s.scope s.field

theorem checkEnum_eq (scope : Descriptor) (e : Source.Enum) :
    checkEnum table scope e = (e.sites scope).flatMap (checkSite table) := by
  rw [checkEnum, Source.Enum.sites, flatMap_map]
  rfl

theorem checkMessage_eq (m : Source.Message) (scope : Descriptor) :
    checkMessage table scope m = (m.sites scope).flatMap (checkSite table) := by
  induction m using Source.Message.induct generalizing scope with
  | step span doc name members ih =>
    rw [checkMessage, Source.Message.sites, flatMap_append, flatMap_map]
    refine congrArg (_ ++ ·) ?_
    induction members with
    | nil => rfl
    | cons member members rest =>
      rw [checkMembers, Source.sitesIn, flatMap_append,
        rest fun m mem => ih m (mem_cons_of_mem _ mem)]
      cases member with
      | field f => rfl
      | message m => rw [checkMember, Source.Member.sites, ih m mem_cons_self]
      | enum e => rw [checkMember, Source.Member.sites, checkEnum_eq]

end EncodingCheck

/-- Encodings are checked field by field. -/
theorem checkEncodings_eq (table : SymbolTable) (file : Source.Schema) :
    checkEncodings table file = file.sites.flatMap (EncodingCheck.checkSite table) := by
  rw [checkEncodings, Source.Schema.sites]
  cases filePackage? file with
  | none => rfl
  | some p =>
    dsimp only [Option.elim]
    rw [flatMap_assoc]
    refine flatMap_congr fun item _ => ?_
    cases item with
    | package | inclusion => rfl
    | message m => exact EncodingCheck.checkMessage_eq m _
    | enum e => exact EncodingCheck.checkEnum_eq _ e

/-! ## Lowering -/

/-- A declaration could not be lowered because of a reference in it. -/
def LowerError.IsReference (e : LowerError) : Prop := ∀ file, e ≠ .noPackage file

namespace Lowering

variable {table : SymbolTable}

/-- The type of a field can be resolved. -/
def Encodable (table : SymbolTable) (s : FieldSite) : Prop :=
  ∃ enc, fieldEncoding table s.scope s.field = .ok enc

theorem exists_bind_pure_iff {ε α β : Type} {x : Except ε α} {f : α → β} :
    (∃ b, (x >>= fun a => pure (f a)) = .ok b) ↔ ∃ a, x = .ok a := by
  cases x with
  | error e => exact iff_of_false (by simp [bind, Except.bind]) (by simp)
  | ok a => exact iff_of_true ⟨f a, rfl⟩ ⟨a, rfl⟩

/-- A declaration can be lowered exactly on this condition; if not, a reference is in the way. -/
structure Lowers {α : Type} (x : Except LowerError α) (can : Prop) : Prop where
  iff : (∃ a, x = .ok a) ↔ can
  onReference : ∀ e, x = .error e → e.IsReference

namespace Lowers

variable {α β γ : Type} {p q : Prop} {x : Except LowerError α} {y : Except LowerError β}

theorem ok (a : α) (holds : p) : Lowers (.ok a) p := ⟨iff_of_true ⟨a, rfl⟩ holds, by rintro e ⟨⟩⟩

theorem congr (lowers : Lowers x p) (same : p ↔ q) : Lowers x q :=
  ⟨lowers.iff.trans same, lowers.onReference⟩

theorem bind (first : Lowers x p) {f : α → Except LowerError β} (rest : ∀ a, Lowers (f a) q) :
    Lowers (x >>= f) (p ∧ q) := by
  cases x with
  | ok a => exact (rest a).congr (iff_and_self.mpr fun _ => first.iff.mp ⟨a, rfl⟩)
  | error e =>
    have cannot : ¬ p := fun can => by simpa using first.iff.mpr can
    refine ⟨iff_of_false (by simp [Bind.bind, Except.bind]) fun can => cannot can.1, ?_⟩
    rintro _ ⟨⟩
    exact first.onReference e rfl

theorem map (lowers : Lowers x p) {f : α → β} : Lowers (x >>= fun a => pure (f a)) p :=
  (lowers.bind fun a => .ok (f a) trivial).congr (by simp)

theorem both (first : Lowers x p) (second : Lowers y q) {f : α → β → γ} :
    Lowers (x >>= fun a => y >>= fun b => pure (f a b)) (p ∧ q) :=
  first.bind fun _ => second.map

theorem mapM {f : α → Except LowerError β} {can : α → Prop} {as : List α}
    (each : ∀ a ∈ as, Lowers (f a) (can a)) : Lowers (as.mapM f) (∀ a ∈ as, can a) := by
  induction as with
  | nil => exact .ok [] (forall_mem_nil _)
  | cons a as ih =>
    obtain ⟨here, others⟩ := forall_mem_cons.mp each
    rw [mapM_cons, forall_mem_cons]
    exact here.both (ih others)

end Lowers

theorem lowers_memberEncoding (what : String) (owner : Descriptor) (member : String)
    (f : Source.Field) :
    Lowers (memberEncoding table what owner member f) (Encodable table ⟨owner.scope, f⟩) := by
  rw [Encodable, memberEncoding]
  split
  next enc found => exact .ok enc ⟨enc, found⟩
  next broken => exact ⟨by simp [broken], by rintro e ⟨⟩ file ⟨⟩⟩
  next broken => exact ⟨by simp [broken], by rintro e ⟨⟩ file ⟨⟩⟩

theorem lowers_variant (owner : Descriptor) (v : Source.Variant) (index : UInt32) :
    Lowers (variant table owner v index) (∀ f ∈ v.field?, Encodable table ⟨owner.scope, f⟩) := by
  rw [variant, Source.Variant.field?]
  cases v.content with
  | unit name => exact .ok _ (by simp)
  | typed f => exact ((lowers_memberEncoding _ owner _ f).congr (by simp)).map

theorem lowers_enum (scope : Descriptor) (e : Source.Enum) :
    Lowers (enum table scope e) (∀ s ∈ e.sites scope, Encodable table s) := by
  unfold enum
  dsimp only
  generalize indexed : assignIndices (e.variants.map fun v => v.index.map (·.value)) = indices
  have all : (e.variants.zip indices).map Prod.fst = e.variants :=
    map_fst_zip (by rw [← indexed, length_assignIndices, length_map])
  refine ((Lowers.mapM fun pair _ => lowers_variant _ pair.1 pair.2).congr ?_).map
  rw [Source.Enum.sites, forall_mem_map]
  constructor
  · intro each f mem
    obtain ⟨v, inside, isField⟩ := mem_filterMap.mp mem
    rw [← all] at inside
    obtain ⟨pair, paired, rfl⟩ := mem_map.mp inside
    exact each pair paired f isField
  · intro encodable pair mem f isField
    exact encodable f (mem_filterMap.mpr ⟨pair.1, (of_mem_zip mem).1, isField⟩)

theorem lowers_message (m : Source.Message) (scope : Descriptor) :
    Lowers (message table scope m) (∀ s ∈ m.sites scope, Encodable table s) := by
  induction m using Source.Message.induct generalizing scope with
  | step span doc name members ih =>
    rw [Source.Message.sites, forall_mem_append, forall_mem_map, message]
    refine Lowers.map ?_
    generalize scope.child name.value = owner, fieldIndices members = indices
    induction members generalizing indices with
    | nil => exact .ok _ ⟨forall_mem_nil _, forall_mem_nil _⟩
    | cons member members rest =>
      have others := rest fun m mem => ih m (mem_cons_of_mem _ mem)
      rw [Source.sitesIn, forall_mem_append]
      cases member with
      | field f =>
        change Lowers _ ((∀ g ∈ f :: members.filterMap Source.Member.field?, _) ∧ _)
        rw [forall_mem_cons, lowerMembers, Source.Member.sites]
        exact ((lowers_memberEncoding "field" owner f.name.value f).both
          (others indices.tail)).congr (by simp [and_assoc])
      | message m => exact ((ih m mem_cons_self _).both (others indices)).congr and_left_comm
      | enum e => exact ((lowers_enum _ e).both (others indices)).congr and_left_comm

theorem lowers_items (scope : Descriptor) (is : List Source.Item) : Lowers (items table scope is)
    (∀ s ∈ is.flatMap (Source.Item.sites scope), Encodable table s) := by
  induction is with
  | nil => exact .ok _ (forall_mem_nil _)
  | cons item is ih =>
    rw [flatMap_cons, forall_mem_append]
    cases item with
    | package | inclusion => exact ih.congr (by simp [Source.Item.sites])
    | message m => exact (lowers_message m scope).both ih
    | enum e => exact (lowers_enum scope e).both ih

/-- There is an encoding if and only if the references can be resolved. -/
theorem exists_typeEncoding_iff {scope : Descriptor} {type : Source.TypeExpr} :
    (∃ enc, typeEncoding table scope type = .ok enc) ↔
      ErrorFree (Resolution.ofType table scope type).diagnostics := by
  induction type with
  | scalar span s => exact iff_of_true ⟨_, rfl⟩ errorFree_nil
  | named span absolute path name =>
    rw [typeEncoding, referenceEncoding, Resolution.ofType, Resolution.ofReference]
    cases Reference.ofParts absolute (path.map (·.value)) name.value with
    | error cause =>
      refine iff_of_false (by simp [Except.mapError, bind, Except.bind]) fun clean => ?_
      exact not_errorFree_of_code clean (by simp [Problem.code])
    | ok r =>
      cases resolved : table.resolveType scope r with
      | ok s =>
        exact iff_of_true
          ⟨_, by simp only [Except.mapError, bind, Except.bind, resolved]; rfl⟩
          (by simp [resolved])
      | error cause =>
        refine iff_of_false (by simp [Except.mapError, bind, Except.bind, resolved]) ?_
        cases cause <;> simp only [resolved] <;>
          exact fun clean => not_errorFree_of_code clean (by simp [Problem.code])
  | array span element ih =>
    rw [typeEncoding, Resolution.ofType, ← ih]
    exact exists_bind_pure_iff
  | map span key value ihKey ihValue =>
    rw [typeEncoding, Resolution.ofType, Resolution.diagnostics_append, errorFree_append,
      ← ihKey, ← ihValue]
    cases typeEncoding table scope key with
    | error cause => exact iff_of_false (by simp [bind, Except.bind]) (by simp)
    | ok enc => exact exists_bind_pure_iff.trans (by simp)

theorem encodable_iff_ofSite {s : FieldSite} :
    Encodable table s ↔ ErrorFree (Resolution.ofSite table s).diagnostics := by
  rw [Resolution.ofSite, ← exists_typeEncoding_iff, Encodable, fieldEncoding]
  cases typeEncoding table s.scope s.field.type with
  | error cause => simp [bind, Except.bind]
  | ok enc =>
    refine iff_of_true ?_ ⟨enc, rfl⟩
    by_cases embedded : enc.wire.kind = .embedded
    · exact ⟨enc, if_pos embedded⟩
    · exact ⟨_, if_neg embedded⟩

theorem lowers_packages {files : List Source.Schema} (done : List Ir.Package)
    (packaged : ∀ file ∈ files, (filePackage? file).isSome) : Lowers (packages table done files)
      (∀ file ∈ files, ∀ s ∈ file.sites, Encodable table s) := by
  induction files generalizing done with
  | nil => exact .ok done (forall_mem_nil _)
  | cons file files ih =>
    rw [forall_mem_cons] at packaged ⊢
    obtain ⟨p, package⟩ := Option.isSome_iff_exists.mp packaged.1
    rw [packages, Source.Schema.sites, package]
    exact (lowers_items _ _).bind fun ms => ih (merge done p.text ms) packaged.2

end Lowering

/-- Files with packages of their own can be lowered if and only if all their references can be
resolved. -/
theorem lowers_lower {table : SymbolTable} {files : List Source.Schema}
    (packaged : ∀ file ∈ files, (filePackage? file).isSome) : Lowering.Lowers (lower table files)
      (∀ file ∈ files, ErrorFree (resolveReferences table file).diagnostics) := by
  refine ((Lowering.lowers_packages [] packaged).congr ?_).map
  refine forall₂_congr fun file _ => ?_
  rw [resolveReferences_eq, Resolution.join_eq, errorFree_flatMap, forall_mem_map]
  exact forall₂_congr fun s _ => Lowering.encodable_iff_ofSite

end BitSchema
