import BitSchema.Compilation.Basic
import BitSchema.Proofs.FieldSites
import BitSchema.Proofs.LoadedFiles
import BitSchema.Proofs.Registration

/-!
# Findings

What loading, registration and the checks of a file report are findings about the schemas.  Linking
and lowering have codes of their own, so a diagnostic with one of these comes from nowhere else.
-/

namespace BitSchema

open List

/-- A problem that is neither one of linking nor one of lowering. -/
def Problem.IsFinding (p : Problem) : Prop := p.code ≠ 3020 ∧ p.code ≠ 3021

attribute [local simp] Problem.IsFinding Problem.code

/-- All that is reported are findings. -/
def Findings (ds : List Diagnostic) : Prop := ∀ d ∈ ds, d.problem.IsFinding

@[simp] theorem findings_nil : Findings [] := forall_mem_nil _

@[simp] theorem findings_append {ds es : List Diagnostic} :
    Findings (ds ++ es) ↔ Findings ds ∧ Findings es := forall_mem_append

@[simp] theorem findings_cons {d : Diagnostic} {ds : List Diagnostic} :
    Findings (d :: ds) ↔ d.problem.IsFinding ∧ Findings ds := forall_mem_cons

theorem findings_flatMap {α : Type} {f : α → List Diagnostic} {as : List α}
    (each : ∀ a ∈ as, Findings (f a)) : Findings (as.flatMap f) := by
  intro d mem
  obtain ⟨a, inside, found⟩ := mem_flatMap.mp mem
  exact each a inside d found

/-! ## Loading -/

namespace Loading

variable {importer : Importer}

theorem isFinding_badSource (e : Source.ParseError) : (Problem.badSource e).IsFinding := by
  have low := code_badSource e
  unfold Problem.IsFinding
  omega

theorem findings_resolveIncludes (done : List ResolvedInclude) (nodes : List Source.Inclusion) :
    Findings (resolveIncludes importer done nodes).2 := by
  induction nodes generalizing done with
  | nil => exact findings_nil
  | cons node nodes ih =>
    rw [resolveIncludes]
    split
    next => exact findings_cons.mpr ⟨by simp, ih done⟩
    next =>
      split
      next => exact findings_cons.mpr ⟨by simp, ih done⟩
      next => exact ih _

theorem findings_loadFile (path : String) : Findings (loadFile importer path).2.1 := by
  unfold loadFile
  split
  next => simp
  next =>
    dsimp only
    split
    next e _ => exact findings_cons.mpr ⟨isFinding_badSource e, findings_nil⟩
    next => exact findings_resolveIncludes [] _

theorem findings_resolveEntries (entries : List String) :
    Findings (resolveEntries importer entries).2 := by
  induction entries with
  | nil => exact findings_nil
  | cons entry entries ih =>
    rw [resolveEntries]
    dsimp only
    split
    next => exact ih
    next => exact findings_cons.mpr ⟨by simp, ih⟩

end Loading

/-- Loading reports findings only. -/
theorem findings_load (importer : Importer) (entries : List String) :
    Findings (load importer entries).diagnostics := by
  obtain ⟨paths, same, -⟩ := load_eq_ofPaths importer entries
  rw [same]
  exact findings_append.mpr ⟨Loading.findings_resolveEntries entries,
    findings_flatMap fun path _ => Loading.findings_loadFile path⟩

/-! ## Registration -/

namespace Registration

variable {file : String} {policy : RedefinitionPolicy} {scope : Descriptor} {r : Registration}

theorem findings_report {span : Span} {problem : Problem} (before : Findings r.diagnostics)
    (finding : problem.IsFinding) : Findings (r.report span problem).diagnostics :=
  findings_append.mpr ⟨before, findings_cons.mpr ⟨finding, findings_nil⟩⟩

theorem findings_enterPackage {span : Span} (p : PackageName) (before : Findings r.diagnostics) :
    Findings (enterPackage file span r p).diagnostics := by
  unfold enterPackage
  dsimp only
  split
  next =>
    split
    next => exact before
    next => exact findings_report before (by simp)
  next => exact before

theorem findings_enterType {d : Descriptor} {kind : TypeKind} {span : Span}
    (before : Findings r.diagnostics) :
    Findings (enterType file policy r d kind span).1.diagnostics := by
  have shadowed : Findings (if (Source.Scalar.ofName? d.name).isSome then
      r.report span (.shadowsBuiltin d.name) else r).diagnostics := by
    split
    next => exact findings_report before (by simp)
    next => exact before
  unfold enterType
  dsimp only
  split
  next => exact shadowed
  next =>
    split
    next => exact findings_report shadowed (by simp)
    next =>
      split
      next => exact shadowed
      next => exact findings_report shadowed (by simp)

theorem tracks_findings : Tracks file policy fun r r' _ =>
    Findings r.diagnostics → Findings r'.diagnostics where
  refl _ := id
  trans first second before := second (first before)
  type _ _ _ _ _ := findings_enterType
  noted _ _ entered := entered

theorem findings_misplaced {seen : Bool} {kind : String} {span package : Span}
    (before : Findings r.diagnostics) :
    Findings (r.misplaced seen kind span package).diagnostics := by
  unfold misplaced
  split
  next => exact before
  next => exact findings_report before (by simp)

theorem findings_enterItems {package : Source.Package} (seen : Bool) (items : List Source.Item)
    (before : Findings r.diagnostics) :
    Findings (enterItems file policy package scope seen items r).diagnostics := by
  induction items generalizing seen r with
  | nil => exact before
  | cons item items ih =>
    cases item with
    | package p =>
      rw [enterItems]
      refine ih true ?_
      split
      next => exact before
      next => exact findings_report before (by simp)
    | inclusion i =>
      rw [enterItems]
      exact ih seen (findings_misplaced before)
    | message m =>
      rw [enterItems]
      exact ih seen (tracks_findings.enterMessage m scope _ (findings_misplaced before))
    | enum e =>
      rw [enterItems]
      exact ih seen (tracks_findings.enterEnum scope _ e (findings_misplaced before))

theorem findings_foldl {span : Span} (ps : List PackageName) (before : Findings r.diagnostics) :
    Findings (ps.foldl (enterPackage file span) r).diagnostics := by
  induction ps generalizing r with
  | nil => exact before
  | cons p ps ih => exact ih (findings_enterPackage p before)

end Registration

/-- Registration reports findings only. -/
theorem findings_register (policy : RedefinitionPolicy) (symbols : SymbolTable)
    (file : Source.Schema) : Findings (register policy symbols file).2.2 := by
  unfold register
  split
  next => simp
  next package _ =>
    split
    next => simp
    next p _ =>
      exact Registration.findings_enterItems false file.items
        (Registration.findings_foldl p.ancestry findings_nil)

theorem Compilation.findings_registerAll (policy : RedefinitionPolicy) (symbols : SymbolTable)
    (files : List LoadedFile) : Findings (registerAll policy symbols files).2.2 := by
  induction files generalizing symbols with
  | nil => exact findings_nil
  | cons file files ih =>
    rw [registerAll]
    split
    next => exact ih symbols
    next schema _ =>
      have here := findings_register policy symbols schema
      dsimp only
      split
      next => exact findings_append.mpr ⟨here, ih _⟩
      next => exact findings_append.mpr ⟨here, ih _⟩

/-! ## References -/

namespace Resolution

variable {table : SymbolTable} {scope : Descriptor}

theorem findings_ofType (type : Source.TypeExpr) :
    Findings (ofType table scope type).diagnostics := by
  induction type with
  | scalar span s => exact findings_nil
  | named span absolute path name =>
    rw [ofType, ofReference]
    split
    next => simp [problem]
    next =>
      split
      next => simp [problem]
      next => simp [problem]
      next => exact findings_nil
  | array span element ih => exact ih
  | map span key value ihKey ihValue => exact findings_append.mpr ⟨ihKey, ihValue⟩

end Resolution

theorem findings_resolveReferences (table : SymbolTable) (file : Source.Schema) :
    Findings (resolveReferences table file).diagnostics := by
  rw [resolveReferences_eq, Resolution.join_eq]
  refine findings_flatMap fun r mem => ?_
  obtain ⟨s, -, rfl⟩ := mem_map.mp mem
  exact Resolution.findings_ofType s.field.type

/-! ## Indices -/

theorem IndexScope.findings_add (s : IndexScope) (item : IndexedItem) :
    Findings (s.add item).2 := by
  have names : Findings (s.nameProblem? item.name).toList := by
    intro d mem
    obtain ⟨first, -, rfl⟩ := Option.map_eq_some_iff.mp (Option.mem_toList.mp mem)
    simp
  unfold add
  dsimp only
  split
  next => exact names
  next index _ =>
    split
    next p found =>
      refine findings_append.mpr ⟨names, findings_cons.mpr ⟨?_, findings_nil⟩⟩
      unfold indexProblem? at found
      split at found
      next =>
        cases found
        simp
      next =>
        obtain ⟨first, -, rfl⟩ := Option.map_eq_some_iff.mp found
        simp
    next => exact names

theorem IndexScope.findings_addAll (s : IndexScope) (items : List IndexedItem) :
    Findings (s.addAll items) := by
  induction items generalizing s with
  | nil => exact findings_nil
  | cons item items ih => exact findings_append.mpr ⟨s.findings_add item, ih _⟩

theorem findings_checkMessageIndices (m : Source.Message) : Findings (checkMessageIndices m) := by
  induction m using Source.Message.induct with
  | step span doc name members ih =>
    rw [checkMessageIndices]
    generalize IndexScope.mk "field" name.value [] [] = s
    induction members generalizing s with
    | nil => exact findings_nil
    | cons member members rest =>
      have others := rest fun m mem => ih m (mem_cons_of_mem _ mem)
      cases member with
      | field f => exact findings_append.mpr ⟨s.findings_add _, others _⟩
      | message m => exact findings_append.mpr ⟨ih m mem_cons_self, others s⟩
      | enum e => exact findings_append.mpr ⟨IndexScope.findings_addAll _ _, others s⟩

theorem findings_checkIndices (file : Source.Schema) : Findings (checkIndices file) := by
  refine findings_flatMap fun item _ => ?_
  cases item with
  | package | inclusion => exact findings_nil
  | message m => exact findings_checkMessageIndices m
  | enum e => exact IndexScope.findings_addAll _ _

/-! ## Encodings -/

namespace EncodingCheck

variable {table : SymbolTable} {scope : Descriptor} {native : Ir.NativeType} {a : Applied}

theorem findings_mapKeys (type : Source.TypeExpr) : Findings (mapKeys table scope type) := by
  induction type with
  | scalar | named => exact findings_nil
  | array span element ih => exact ih
  | map span key value ihKey ihValue =>
    rw [mapKeys]
    refine findings_append.mpr ⟨findings_append.mpr ⟨?_, ihKey⟩, ihValue⟩
    split
    next =>
      split
      next => exact findings_nil
      next => simp
    next => exact findings_nil

theorem findings_meanings (ds : List Source.Directive) : Findings (meanings ds).2 := by
  induction ds with
  | nil => exact findings_nil
  | cons d ds ih =>
    rw [meanings]
    dsimp only
    split
    next => exact ih
    next p bad =>
      refine findings_cons.mpr ⟨?_, ih⟩
      unfold Directive.ofSource at bad
      split at bad
      next => cases bad
      next =>
        split at bad
        next =>
          cases bad
          simp
        next =>
          cases bad
          simp

theorem findings_inapplicable : Findings [inapplicable a native] := by
  simp [inapplicable]

theorem findings_bitsRange (n : UInt64) (limit : Nat) : Findings (bitsRange a n limit) := by
  unfold bitsRange
  split
  next => simp
  next => exact findings_nil

theorem findings_checkBits (hasFixedPoint : Bool) (n : UInt64) :
    Findings (checkBits native hasFixedPoint a n) := by
  unfold checkBits
  split
  next => exact findings_bitsRange n _
  next => exact findings_bitsRange n _
  next =>
    split
    next => exact findings_bitsRange n _
    next =>
      split
      next => simp
      next => exact findings_nil
  next => exact findings_inapplicable

theorem findings_repetition (earlier : List Applied) : Findings (repetition earlier a) := by
  unfold repetition
  split
  next => exact findings_nil
  next => split <;> simp

theorem findings_checkDirective (hasFixedPoint quantized : Bool) :
    Findings (checkDirective native hasFixedPoint quantized a) := by
  have requires : ∀ applies : Bool, Findings (if applies then [] else [inapplicable a native]) := by
    intro applies
    split
    next => exact findings_nil
    next => exact findings_inapplicable
  unfold checkDirective
  dsimp only
  split
  next n _ => exact findings_checkBits hasFixedPoint n
  next => exact requires _
  next => exact requires _
  next => exact requires _
  next =>
    split
    next => exact findings_inapplicable
    next =>
      split
      next => simp
      next => exact findings_nil
  next n _ => exact findings_bitsRange n _

theorem findings_checkDirectives (hasFixedPoint : Bool) (earlier applied : List Applied) :
    Findings (checkDirectives native hasFixedPoint earlier applied) := by
  induction applied generalizing earlier with
  | nil => exact findings_nil
  | cons a applied ih =>
    rw [checkDirectives]
    exact findings_append.mpr ⟨findings_append.mpr ⟨findings_repetition earlier,
      findings_checkDirective hasFixedPoint _⟩, ih _⟩

theorem findings_checkField (f : Source.Field) : Findings (checkField table scope f) := by
  unfold checkField
  refine findings_append.mpr ⟨findings_append.mpr ⟨findings_mapKeys f.type,
    findings_meanings f.directives⟩, ?_⟩
  split
  next => exact findings_nil
  next =>
    split
    next => exact findings_nil
    next native _ =>
      unfold checkApplied
      split
      next =>
        intro d mem
        obtain ⟨a, -, rfl⟩ := mem_map.mp mem
        simp [inapplicable]
      next => exact findings_checkDirectives _ [] _

end EncodingCheck

theorem findings_checkEncodings (table : SymbolTable) (file : Source.Schema) :
    Findings (checkEncodings table file) := by
  rw [checkEncodings_eq]
  exact findings_flatMap fun s _ => EncodingCheck.findings_checkField s.field

/-! ## Files -/

/-- The checks of a file report findings only. -/
theorem Compilation.findings_analyze (table : SymbolTable) (r : Registered) :
    Findings (analyze table r) := by
  refine findings_append.mpr ⟨findings_append.mpr ⟨findings_append.mpr
    ⟨findings_resolveReferences table r.schema, findings_checkIndices r.schema⟩,
    findings_checkEncodings table r.schema⟩, ?_⟩
  intro d mem
  obtain ⟨i, -, rfl⟩ := mem_map.mp mem
  simp

end BitSchema
