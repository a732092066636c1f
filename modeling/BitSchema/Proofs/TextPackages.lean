import BitSchema.Plugin.TextFiles
import BitSchema.Proofs.CleanPaths
import BitSchema.Proofs.DeepTypes

/-!
# Files of packages

The text plugin writes one file for each package of a compiled schema.  The dots of a package become
slashes, so that the dot of the ending is the only one in the name of a file: the files have names
that differ, and none stands where another needs a directory (`TextFiles.ofDocument_of_compile`).
-/

namespace BitSchema

open List

theorem checkOutputPath_of_elements {path : String} (plain : '\\' ∉ path.toList)
    (parts : ∀ part ∈ Path.elements path, part ≠ "" ∧ part ≠ "." ∧ part ≠ "..") :
    checkOutputPath path = .ok () := by
  have some : path ≠ "" := by
    rintro rfl
    exact (parts "" (by decide)).1 rfl
  have relative : Path.isAbsolute path = false := by
    rw [Bool.eq_false_iff]
    intro absolute
    obtain ⟨chars, same⟩ := head?_eq_some_iff.mp (beq_iff_eq.mp absolute)
    have front : path = "" ++ "/" ++ String.ofList chars := by simp [← String.toList_inj, same]
    refine (parts "" ?_).1 rfl
    rw [front, Path.elements_append]
    exact mem_cons_self
  have none : (Path.elements path).findSome? outputPartFault? = none :=
    findSome?_eq_none_iff.mpr fun part mem => by simp [outputPartFault?, parts part mem]
  simp [checkOutputPath, outputPathFault?, some, relative, plain, none]

namespace TextFiles

/-! ## Names of files -/

section

variable {p q : PackageName}

theorem toList_fileName (path : String) : (fileName path).toList =
    path.toList.map (fun c => if c = '.' then '/' else c) ++ ['.', 't', 'x', 't'] := by
  simp [fileName]

theorem map_of_dotless {s : String} (dotless : '.' ∉ s.toList) :
    s.toList.map (fun c => if c = '.' then '/' else c) = s.toList := by
  refine (map_congr_left fun c mem => if_neg ?_).trans (map_id _)
  rintro rfl
  exact dotless mem

/-- The parts of a file name are the segments of the package, so they start with letters. -/
theorem head_of_elements {segments : List String} (some : segments ≠ [])
    (valid : ∀ segment ∈ segments, PackageName.isSegment segment = true) {part : String}
    (mem : part ∈ Path.elements (fileName (".".intercalate segments))) :
    ∃ c ∈ part.toList.head?, c.isLower := by
  induction segments with
  | nil => exact absurd rfl some
  | cons first rest ih =>
    obtain ⟨here, later⟩ := forall_mem_cons.mp valid
    obtain ⟨c, cs, chars, letter, -⟩ := PackageName.isSegment_iff.mp here
    have slashless : '/' ∉ first.toList := PackageName.not_mem_of_isSegment here (by decide)
    have dotless := (PackageName.isPart_of_isSegment here).dotless
    have heads : ∀ back : String, ∃ c ∈ (first ++ back).toList.head?, c.isLower := fun back =>
      ⟨c, by simp [chars], letter⟩
    cases rest with
    | nil =>
      have alone : fileName (".".intercalate [first]) = "/".intercalate [first ++ ".txt"] := by
        simp [← String.toList_inj, toList_fileName, map_of_dotless dotless]
      rw [alone, Path.elements_joined (by simpa using slashless) (by simp)] at mem
      exact mem_singleton.mp mem ▸ heads ".txt"
    | cons next rest =>
      have front : fileName (".".intercalate (first :: next :: rest)) =
          "/".intercalate [first] ++ "/" ++ fileName (".".intercalate (next :: rest)) := by
        simp [← String.toList_inj, toList_fileName, map_of_dotless dotless]
      rw [front, Path.elements_append, Path.elements_joined (by simpa using slashless) (by simp),
        singleton_append, mem_cons] at mem
      rcases mem with rfl | mem
      · simpa using heads ""
      · exact ih (by simp) later mem

/-- Only what can stand in segments stands in the name of a package, apart from dots. -/
theorem not_mem_text (valid : p.IsValid) {c : Char} (dot : c ≠ '.')
    (other : (PackageName.isSmall c || PackageName.isDigit c || c == '_') = false) :
    c ∉ p.text.toList := by
  intro mem
  obtain ⟨segment, among, inside⟩ := Path.mem_intercalate (by simpa using dot) mem
  have isSegment := (PackageName.isValid_iff.mp valid).2 segment among
  exact PackageName.not_mem_of_isSegment isSegment other inside

theorem checkOutputPath_fileName (valid : p.IsValid) :
    checkOutputPath (fileName p.text) = .ok () := by
  obtain ⟨some, segments⟩ := PackageName.isValid_iff.mp valid
  refine checkOutputPath_of_elements ?_ fun part mem => ?_
  · have plain := not_mem_text valid (c := '\\') (by decide) (by decide)
    simp only [toList_fileName, mem_append, mem_map]
    rintro (⟨c, mem, same⟩ | mem)
    · split at same
      · cases same
      · exact plain (same ▸ mem)
    · revert mem
      decide
  · obtain ⟨c, first, letter⟩ := head_of_elements some segments mem
    refine ⟨?_, ?_, ?_⟩
    · rintro rfl
      cases first
    · rintro rfl
      cases first
      cases letter
    · rintro rfl
      cases first
      cases letter

/-- Packages that differ have different file names. -/
theorem fileName_injective (valid : p.IsValid) (valid' : q.IsValid)
    (same : fileName p.text = fileName q.text) : p.text = q.text := by
  have back : ∀ {p : PackageName}, p.IsValid → (p.text.toList.map fun c =>
      if c = '.' then '/' else c).map (fun c => if c = '/' then '.' else c) = p.text.toList := by
    intro p valid
    rw [map_map]
    refine (map_congr_left fun c mem => ?_).trans (map_id _)
    have other : c ≠ '/' := by
      rintro rfl
      exact not_mem_text valid (by decide) (by decide) mem
    by_cases dot : c = '.' <;> simp [dot, other]
  have chars := congrArg String.toList same
  rw [toList_fileName, toList_fileName, append_cancel_right_eq] at chars
  rw [← String.toList_inj, ← back valid, ← back valid', chars]

/-- No file stands where another needs a directory: the first dot of a file name starts its
ending. -/
theorem fileName_not_above (path path' : String) :
    ¬ (fileName path ++ "/").toList <+: (fileName path').toList := by
  rintro ⟨rest, same⟩
  have dotless : ∀ path : String, '.' ∉ path.toList.map fun c => if c = '.' then '/' else c := by
    intro path mem
    obtain ⟨c, -, same⟩ := mem_map.mp mem
    split at same <;> simp_all
  rw [String.toList_append, toList_fileName, toList_fileName, append_assoc, append_assoc] at same
  have ends := (append_cons_inj_of_notMem (dotless path') (by decide)).mp same.symm
  simp at ends

end

/-! ## Contents -/

/-- The file of a package. -/
def file (p : Ir.Package) : String × String :=
  (fileName p.path, Ir.Schema.listing { packages? := some [p] })

theorem ofPackages_eq {ps : List Ir.Package} (named : ∀ p ∈ ps, p.path ≠ "")
    (distinct : (ps.map fun p => fileName p.path).Nodup) : ofPackages ps = .ok ⟨ps.map file⟩ := by
  induction ps using List.reverseRecOn with
  | nil => rfl
  | append_singleton ps p ih =>
    rw [map_append, map_singleton, nodup_append] at distinct
    obtain ⟨before, -, fresh⟩ := distinct
    have kept : (ps.map file).filter (·.1 != fileName p.path) = ps.map file := by
      rw [filter_eq_self, forall_mem_map]
      intro q mem
      simpa [file] using fresh _ (mem_map_of_mem mem)
    have first := ih (fun q mem => named q (mem_append_left _ mem)) before
    unfold ofPackages at first ⊢
    rw [foldlM_append, first]
    simp [named p, Bind.bind, Except.bind, Response.insert, kept, file, pure, Except.pure]

theorem join_listings (schema : Ir.Schema) :
    String.join (schema.packages.map fun p => (file p).2) = schema.listing := by
  rw [Ir.Schema.listing]
  induction schema.packages with
  | nil => rfl
  | cons p ps ih =>
    have alone : (file p).2 = String.join ((Ir.Listing.packageLines p).map (· ++ "\n")) := by
      simp [file, Ir.Schema.listing, Ir.Schema.packages]
    rw [map_cons, String.join_cons, ih, alone, flatMap_cons, map_append, String.join_append]

end TextFiles

/-! ## Compiled schemas -/

section

variable {importer : Importer} {policy : RedefinitionPolicy} {entries : List String}
  {schema : Ir.Schema}

open TextFiles

/-- The packages of a compiled schema have names of their own. -/
theorem packages_of_compile (compiled : (compile importer policy entries).schema = some schema) :
    (schema.packages.map (·.path)).Nodup ∧
      ∀ p ∈ schema.packages, ∃ name : PackageName, name.IsValid ∧ name.text = p.path := by
  obtain ⟨table, files, ok, -⟩ := lower_of_compile compiled
  obtain ⟨-, parts, lowered, merged⟩ := Lowering.merged_of_lower ok
  refine ⟨merged.distinct, fun p mem => ?_⟩
  have path := (merged.paths p.path).mp (mem_map_of_mem mem)
  obtain ⟨part, among, same⟩ := mem_map.mp path
  obtain ⟨source, -, ok⟩ := exists_of_forall₂ (mapM_ok lowered) among
  obtain ⟨name, package, ms, -, rfl⟩ := Lowering.part_ok ok
  exact ⟨name, isValid_of_filePackage? package, same⟩

/-- The text plugin writes a file for each package of a compiled schema, if the schema is not too
deep for a document.  The files have different names that an output may have, none of them a
directory of another, and their contents are in a row the listing of the schema.  The document of a
deeper schema cannot be read. -/
theorem TextFiles.ofDocument_of_compile
    (compiled : (compile importer policy entries).schema = some schema)
    (some : schema.packages ≠ []) :
    (schema.toJson.nesting ≤ Json.depthLimit →
      ∃ text r, schema.encode = .ok text ∧ ofDocument (Octets.ofString text) = .ok r ∧
        r.files = schema.packages.map (fun p =>
          (fileName p.path, Ir.Schema.listing { packages? := .some [p] })) ∧
        (r.files.map Prod.fst).Nodup ∧ (∀ f ∈ r.files, checkOutputPath f.1 = .ok ()) ∧
        (∀ f ∈ r.files, ∀ g ∈ r.files, ¬ (f.1 ++ "/").toList <+: g.1.toList) ∧
        String.join (r.files.map Prod.snd) = schema.listing) ∧
    (Json.depthLimit < schema.toJson.nesting →
      ofDocument (Octets.ofString schema.document) = .error .undecodable) := by
  have read := Ir.Schema.ofDocument?_document (legible_of_compile compiled)
  obtain ⟨distinct, valid⟩ := packages_of_compile compiled
  have named : ∀ p ∈ schema.packages, p.path ≠ "" := by
    intro p mem
    obtain ⟨name, valid, same⟩ := valid p mem
    rw [← same, ← valid.joinName]
    exact joinName_ne_empty valid.isPart valid.some
  have names : (schema.packages.map fun p => fileName p.path).Nodup := by
    rw [List.Nodup, pairwise_map] at distinct ⊢
    refine distinct.imp_of_mem fun left right differ same => differ ?_
    obtain ⟨name, isValid, path⟩ := valid _ left
    obtain ⟨name', isValid', path'⟩ := valid _ right
    rw [← path, ← path'] at same ⊢
    exact fileName_injective isValid isValid' same
  refine ⟨fun shallow => ?_, fun deep => by rw [ofDocument, read, if_neg (by omega)]⟩
  refine ⟨_, ⟨schema.packages.map file⟩, schema.encode_eq_ok.mpr ⟨shallow, rfl⟩, ?_, rfl, ?_, ?_,
    fun f mem g mem' => ?_, ?_⟩
  · simp [ofDocument, read, shallow, ofSchema, some, ofPackages_eq named names]
  · simpa [file, Function.comp_def] using names
  · refine forall_mem_map.mpr fun p mem => ?_
    obtain ⟨name, isValid, path⟩ := valid p mem
    rw [file, ← path]
    exact checkOutputPath_fileName isValid
  · obtain ⟨p, -, rfl⟩ := mem_map.mp mem
    obtain ⟨q, -, rfl⟩ := mem_map.mp mem'
    exact fileName_not_above p.path q.path
  · simpa [Function.comp_def] using join_listings schema

end

theorem TextFiles.ofDocument_of_compile_atlas :
    ∃ schema, (compile atlasImporter .refuse ["atlas"]).schema = some schema ∧
      ∃ text r, schema.encode = .ok text ∧ ofDocument (Octets.ofString text) = .ok r ∧
        r.files.map Prod.fst = ["geo/v1.txt"] ∧
        String.join (r.files.map Prod.snd) = schema.listing := by
  have run : ∃ schema ∈ (compile atlasImporter .refuse ["atlas"]).schema,
      schema.packages.map (·.path) = ["geo.v1"] ∧ schema.toJson.nesting ≤ Json.depthLimit := by
    decide +kernel
  obtain ⟨schema, compiled, paths, shallow⟩ := run
  have some : schema.packages ≠ [] := by
    intro none
    simp [none] at paths
  obtain ⟨text, r, encoded, written, files, -, -, -, joined⟩ :=
    (ofDocument_of_compile compiled some).1 shallow
  refine ⟨schema, compiled, text, r, encoded, written, ?_, joined⟩
  have names : r.files.map Prod.fst = (schema.packages.map (·.path)).map fileName := by
    simp [files, Function.comp_def]
  rw [names, paths]
  decide +kernel

/-- Five thousand arrays are compiled, but their document has no files. -/
theorem TextFiles.arrays_without_files :
    ∃ schema, (compile (ArraySource.importer 5000) .refuse ["arrays"]).schema = some schema ∧
      schema.packages ≠ [] ∧
      ofDocument (Octets.ofString schema.document) = .error .undecodable := by
  obtain ⟨schema, compiled, levels⟩ := ArraySource.exists_schema (n := 5000) (by decide)
  refine ⟨schema, compiled, fun none => ?_, ?_⟩
  · obtain ⟨table, files, ok, -⟩ := lower_of_compile compiled
    have listed := (schemaBuilt_of_lower ok).listed
    obtain ⟨packages⟩ := schema
    rw [none] at listed
    cases listed
    exact absurd levels (by decide)
  · rw [ofDocument, Ir.Schema.ofDocument?_document (legible_of_compile compiled), if_neg]
    rw [Json.depthLimit]
    omega

end BitSchema
