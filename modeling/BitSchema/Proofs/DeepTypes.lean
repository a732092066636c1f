import BitSchema.Proofs.CompilePhases
import BitSchema.Proofs.CompiledDocuments
import BitSchema.Proofs.WrittenSources

/-!
# Deep types

Nothing in a compilation bounds how deep a type is.  A field whose type is an array of arrays, any
number of times, is compiled, and each array adds two levels to the document of the schema.  So
there are compiled schemas whose documents are too deep to be written or read.
-/

namespace BitSchema

open List
open Source (TypeExpr Phrase)

/-! ## Levels of documents -/

namespace Ir

open Json (nesting_lt_array nesting_lt_object)

theorem Encoding.nesting_element (wire : WireFormat) (element : Encoding) :
    element.toJson.nesting + 2 ≤ (Encoding.toJson
      { wire, native := { kind := .array, element := some element } }).nesting := by
  have inner : element.toJson.nesting <
      (NativeType.toJson { kind := .array, element := some element }).nesting := by
    rw [NativeType.toJson]
    exact nesting_lt_object "element" (by simp [partMember])
  refine Nat.succ_le_of_lt (Nat.lt_of_le_of_lt inner ?_)
  rw [Encoding.toJson]
  exact nesting_lt_object "native" (by simp)

theorem nesting_listOrNull {α : Type} {xs? : Option (List α)} {x : α} (toJson : α → Json)
    (mem : x ∈ xs?.getD []) :
    (toJson x).nesting < (listOrNull (xs?.map (·.map toJson))).nesting := by
  cases xs? with
  | none => cases mem
  | some xs => exact nesting_lt_array (mem_map_of_mem mem)

theorem Field.nesting_encoding (f : Field) : f.encoding.toJson.nesting + 1 ≤ f.toJson.nesting :=
  nesting_lt_object "encoding" (by simp)

theorem Message.nesting_field {m : Message} {f : Field} (mem : f ∈ m.fields) :
    f.toJson.nesting + 2 ≤ m.toJson.nesting := by
  obtain ⟨descriptor, name, fields?, messages, enums, doc, absent⟩ := m
  refine Nat.succ_le_of_lt (Nat.lt_of_le_of_lt (nesting_listOrNull Field.toJson mem) ?_)
  rw [Message.toJson]
  exact nesting_lt_object "fields" (by simp)

theorem Package.nesting_message {p : Package} {m : Message} (mem : m ∈ p.messages) :
    m.toJson.nesting + 2 ≤ p.toJson.nesting :=
  Nat.succ_le_of_lt (Nat.lt_of_le_of_lt (nesting_listOrNull Message.toJson mem)
    (nesting_lt_object "messages" (by simp)))

theorem Schema.nesting_package {s : Schema} {p : Package} (mem : p ∈ s.packages) :
    p.toJson.nesting + 2 ≤ s.toJson.nesting :=
  Nat.succ_le_of_lt (Nat.lt_of_le_of_lt (nesting_listOrNull Package.toJson mem)
    (nesting_lt_object "packages" (by simp)))

end Ir

/-! ## Compiling one file -/

section

open Compilation

theorem link_single {r : Registered} (alone : r.module.deps = [])
    (path : r.module.path = r.file.path) :
    (graphOf [r]).link = .ok () ∧ orderedSchemas [r] = [r.schema] := by
  simp [graphOf, ModuleGraph.add, ModuleGraph.contains, ModuleGraph.module?, orderedSchemas,
    ModuleGraph.link, ModuleGraph.missing?, alone, List.findSome?, ModuleGraph.walk,
    ModuleGraph.order, ModuleGraph.paths, ModuleGraph.visit, ModuleGraph.size, path, Bind.bind,
    Except.bind, pure, Except.pure]

/-- A file that includes nothing and has no problems is lowered. -/
theorem schema_compile_single {importer : Importer} {policy : RedefinitionPolicy}
    {entries : List String} {path : String} {source : Option ByteArray} {file : Source.Schema}
    {m : Module} {table : SymbolTable} {lowered : Ir.Schema}
    (files : (load importer entries).files = [⟨path, source, some file, []⟩])
    (loaded : (load importer entries).diagnostics = [])
    (registered : register policy {} file = (some m, table, [])) (same : m.path = path)
    (checked : (resolveReferences table file).diagnostics = [] ∧ checkIndices file = [] ∧
      checkEncodings table file = [])
    (ok : lower table [file] = .ok lowered) :
    (compile importer policy entries).schema = some lowered := by
  obtain ⟨r, run, clean, linked, ordered⟩ : ∃ r,
      registerAll policy {} (load importer entries).files = ([r], table, []) ∧
        analyze table r = [] ∧ (graphOf [r]).link = .ok () ∧ orderedSchemas [r] = [file] := by
    refine ⟨⟨⟨path, source, some file, []⟩, file, { m with deps := [] }⟩, ?_, ?_, ?_⟩
    · rw [files]
      simp [registerAll, registered]
    · simp [analyze, checked, unusedIncludes]
    · exact link_single rfl same
  cases ends_compile run with
  | failed dirty => simp [loaded, clean] at dirty
  | unlinked _ broken => cases broken.symm.trans linked
  | notLowered _ _ broken =>
    rw [ordered] at broken
    cases broken.symm.trans ok
  | lowered _ _ result isSchema =>
    rw [ordered] at result
    cases result.symm.trans ok
    exact isSchema

end

/-! ## Arrays of arrays -/

namespace ArraySource

open Token

/-- What stands before the type of the field. -/
def opening : List Char := "package a; message M \x7b".toList

/-- The innermost type, and what stands after it. -/
def closing : List Char := "u8 x; \x7d".toList

/-- The brackets of `n` arrays around a type. -/
def brackets (n : Nat) : List Char := (List.replicate n "[]".toList).flatten

/-- A message with a field whose type is `n` arrays deep. -/
def chars (n : Nat) : List Char := opening ++ (brackets n ++ closing)

def openingWords : List (Kind × String) :=
  [(.ident, "package"), (.ident, "a"), (.punct, ";"), (.ident, "message"), (.ident, "M"),
    (.punct, "\x7b")]

def closingWords : List (Kind × String) := [(.ident, "x"), (.punct, ";"), (.punct, "\x7d")]

/-- The words of a type that is `n` arrays deep. -/
def typeWords (n : Nat) : List (Kind × String) :=
  (List.replicate n [(.punct, "["), (.punct, "]")]).flatten ++ [(.ident, "u8")]

theorem takes_opening (rest : List Char) : Takes 10 (opening ++ rest) openingWords rest :=
  (takes_word (w := "package".toList) rfl (by decide)).trans <|
  (takes_blank (w := [' ']) rfl).trans <|
  (takes_word (w := ['a']) rfl (by decide)).trans <|
  (takes_word (w := [';']) rfl (by decide)).trans <|
  (takes_blank (w := [' ']) rfl).trans <|
  (takes_word (w := "message".toList) rfl (by decide)).trans <|
  (takes_blank (w := [' ']) rfl).trans <|
  (takes_word (w := ['M']) rfl (by decide)).trans <|
  (takes_blank (w := [' ']) rfl).trans <|
  takes_word (w := ['\x7b']) rfl (by decide)

theorem takes_closing : Takes 6 closing ((.ident, "u8") :: closingWords) [] :=
  (takes_word (w := "u8".toList) rfl (by decide)).trans <|
  (takes_blank (w := [' ']) rfl).trans <|
  (takes_word (w := ['x']) rfl (by decide)).trans <|
  (takes_word (w := [';']) rfl (by decide)).trans <|
  (takes_blank (w := [' ']) rfl).trans <|
  takes_word (w := ['\x7d']) rfl (by decide)

theorem takes_brackets (n : Nat) (rest : List Char) :
    Takes (2 * n) (brackets n ++ rest)
      (List.replicate n [(Kind.punct, "["), (Kind.punct, "]")]).flatten rest := by
  induction n with
  | zero => exact fun file fuel done p => ⟨done, p, rfl, (append_nil _).symm⟩
  | succ n ih =>
    have pair : Takes 2 ("[]".toList ++ (brackets n ++ rest)) [(.punct, "["), (.punct, "]")]
        (brackets n ++ rest) :=
      (takes_word (w := ['[']) rfl (by decide)).trans (takes_word (w := [']']) rfl (by decide))
    have step := pair.trans ih
    rw [← append_assoc] at step
    exact step

theorem length_chars (n : Nat) : (chars n).length = 2 * n + 29 := by
  have before : opening.length = 22 := rfl
  have after : closing.length = 7 := rfl
  have pairs : (brackets n).length = 2 * n := by simp [brackets, Nat.mul_comm]
  rw [chars, length_append, length_append, before, pairs, after]
  omega

theorem tokens_chars (file : String) (n : Nat) :
    ∃ ts last, tokens file (chars n) = .ok (ts ++ [last]) ∧
      ts.map word = openingWords ++ (typeWords n ++ closingWords) := by
  have takes := (takes_opening _).trans ((takes_brackets n _).trans takes_closing)
  -- A scan starts with a step for each character, and most words are longer than that.
  obtain ⟨done, p, scanned, same⟩ := takes file 13 [] {}
  have fuel : (chars n).length = 13 + (6 + 2 * n + 10) := by
    rw [length_chars]
    omega
  refine ⟨done.reverse.filter isKept, ⟨.eof, "", p.span file []⟩, ?_, ?_⟩
  · have ended : scan file (chars n) = .ok (⟨.eof, "", p.span file []⟩ :: done).reverse := by
      rw [scan, fuel]
      exact scanned
    rw [tokens, ended]
    simp [Except.map, isKept]
  · rw [typeWords, append_assoc]
    exact same

/-! ## Their declarations -/

open Source.Phrase (Parsed)

/-- The type is `n` arrays deep. -/
inductive Nested : Nat → TypeExpr → Prop where
  | scalar {span : Span} : Nested 0 (.scalar span .u8)
  | array {n : Nat} {span : Span} {element : TypeExpr} : Nested n element →
    Nested (n + 1) (.array span element)

theorem parsed_ident {t : Token} {name : String} (same : word t = (.ident, name)) :
    ∃ span, Parsed (.rule .ident) [t] [.ident ⟨span, name⟩] := by
  obtain ⟨kind, rfl⟩ := Prod.mk.inj same
  obtain ⟨span, parsed⟩ := Parsed.rule (r := .ident) (.token kind)
  exact ⟨span, parsed _ rfl⟩

theorem parsed_literal {t : Token} {kind : Kind} {text : String} (same : word t = (kind, text)) :
    Parsed (.literal text) [t] [.token t] :=
  .literal (Prod.mk.inj same).2

variable {ts : List Token} {type : TypeExpr}

theorem parsed_type (n : Nat) (same : ts.map word = typeWords n) :
    ∃ type, Parsed (.rule .typeExpr) ts [.typeExpr type] ∧ Nested n type := by
  induction n generalizing ts with
  | zero =>
    obtain ⟨t, rfl, named⟩ := map_eq_singleton_iff.mp same
    obtain ⟨place, ident⟩ := parsed_ident named
    obtain ⟨_, name⟩ := Parsed.rule (r := .typeName)
      ((Parsed.absent _).cons (ident.cons (Parsed.never _).last))
    obtain ⟨_, type⟩ := Parsed.rule (r := .typeExpr)
      ((name _ rfl).choice (p := .rule .typeName) (by simp))
    exact ⟨_, type _ rfl, .scalar⟩
  | succ n ih =>
    obtain ⟨first, _, rfl, opened, rest⟩ := map_eq_cons_iff.mp same
    obtain ⟨second, ts, rfl, closed, below⟩ := map_eq_cons_iff.mp rest
    obtain ⟨element, parsed, nested⟩ := ih below
    obtain ⟨span, type⟩ := Parsed.rule (r := .typeExpr) (.choice ((parsed_literal opened).cons
      ((parsed_literal closed).cons parsed.last)) mem_cons_self)
    exact ⟨_, type _ rfl, nested.array⟩

theorem parsed_package {package a ended : Token} (isPackage : word package = (.ident, "package"))
    (isName : word a = (.ident, "a")) (isEnd : word ended = (.punct, ";")) :
    ∃ span place, Parsed (.rule .decl) [package, a, ended]
      [.item (.package ⟨span, [⟨place, "a"⟩]⟩)] := by
  obtain ⟨_, name⟩ := parsed_ident isName
  obtain ⟨_, item⟩ := Parsed.rule (r := .package) ((parsed_literal isPackage).cons
    (name.cons ((Parsed.never _).cons (parsed_literal isEnd).last)))
  obtain ⟨_, decl⟩ := Parsed.rule (r := .decl)
    ((Parsed.never _).cons ((item _ rfl).choice (by simp)).last)
  exact ⟨_, _, decl _ rfl⟩

theorem parsed_field {x ended : Token} (parsed : Parsed (.rule .typeExpr) ts [.typeExpr type])
    (isName : word x = (.ident, "x")) (isEnd : word ended = (.punct, ";")) :
    ∃ span place, Parsed (.rule .member) (ts ++ [x, ended])
      [.member (.field ⟨span, none, none, type, ⟨place, "x"⟩, []⟩)] := by
  obtain ⟨_, name⟩ := parsed_ident isName
  obtain ⟨_, field⟩ := Parsed.rule (r := .field) ((Parsed.absent _).cons (parsed.cons
    (name.cons ((Parsed.absent _).cons (parsed_literal isEnd).last))))
  obtain ⟨_, member⟩ := Parsed.rule (r := .member)
    ((Parsed.never _).cons ((field _ rfl).choice (by simp)).last)
  exact ⟨_, _, member _ rfl⟩

theorem parsed_message {member : Source.Member} {message m opened closed : Token}
    (parsed : Parsed (.rule .member) ts [.member member])
    (isMessage : word message = (.ident, "message")) (isName : word m = (.ident, "M"))
    (isOpen : word opened = (.punct, "\x7b")) (isClosed : word closed = (.punct, "\x7d")) :
    ∃ span place, Parsed (.rule .decl) (message :: m :: opened :: (ts ++ [closed]))
      [.item (.message ⟨span, none, ⟨place, "M"⟩, [member]⟩)] := by
  obtain ⟨_, name⟩ := parsed_ident isName
  have only := parsed.again (.never _)
  rw [append_nil] at only
  obtain ⟨_, item⟩ := Parsed.rule (r := .message) ((parsed_literal isMessage).cons (name.cons
    ((parsed_literal isOpen).cons (only.cons (parsed_literal isClosed).last))))
  obtain ⟨_, decl⟩ := Parsed.rule (r := .decl)
    ((Parsed.never _).cons ((item _ rfl).choice (by simp)).last)
  exact ⟨_, _, decl _ rfl⟩

/-- The declarations of a package with a message whose only field has a type that is `n` arrays
deep. -/
inductive Declares (n : Nat) : List Source.Item → Prop where
  | intro {package a message m field x : Span} {type : TypeExpr} : Nested n type →
    Declares n [.package ⟨package, [⟨a, "a"⟩]⟩, .message ⟨message, none, ⟨m, "M"⟩,
      [.field ⟨field, none, none, type, ⟨x, "x"⟩, []⟩]⟩]

theorem parsed_items (n : Nat)
    (same : ts.map word = openingWords ++ (typeWords n ++ closingWords)) :
    ∃ items, Parsed (.rule .schema) ts [.items items] ∧ Declares n items := by
  obtain ⟨before, _, rfl, start, rest⟩ := map_eq_append_iff.mp same
  obtain ⟨inside, after, rfl, type, stop⟩ := map_eq_append_iff.mp rest
  simp only [openingWords, closingWords, map_eq_cons_iff, map_eq_nil_iff] at start stop
  obtain ⟨package, _, rfl, isPackage, a, _, rfl, isA, ended, _, rfl, isEnd, message, _, rfl,
    isMessage, m, _, rfl, isM, opened, _, rfl, isOpen, rfl⟩ := start
  obtain ⟨x, _, rfl, isX, ended', _, rfl, isEnd', closed, _, rfl, isClosed, rfl⟩ := stop
  obtain ⟨type, parsed, nested⟩ := parsed_type n type
  obtain ⟨_, _, member⟩ := parsed_field parsed isX isEnd'
  obtain ⟨_, _, second⟩ := parsed_message member isMessage isM isOpen isClosed
  obtain ⟨_, _, first⟩ := parsed_package isPackage isA isEnd
  obtain ⟨_, schema⟩ := Parsed.rule (r := .schema) (first.again (second.again (.never _)))
  have whole := schema _ rfl
  have tokens : [package, a, ended] ++
      (message :: m :: opened :: (inside ++ [x, ended'] ++ [closed]) ++ []) =
        [package, a, ended, message, m, opened] ++ (inside ++ [x, ended', closed]) := by
    simp
  rw [tokens] at whole
  exact ⟨_, whole, .intro nested⟩

theorem derive_chars (file : String) (n : Nat) :
    ∃ d items, Source.derive file (chars n) = .ok d ∧
      Phrase.ofDerivation d = .ok (.items items) ∧ Declares n items := by
  obtain ⟨ts, last, scanned, same⟩ := tokens_chars file n
  obtain ⟨items, ⟨trees, leaves, derives, means⟩, declares⟩ := parsed_items n same
  obtain ⟨others, last', split, lexemes, ended⟩ := lexemes_tokens scanned
  obtain ⟨rfl, rfl⟩ := append_singleton_inj.mp split
  obtain _ | ⟨means, ⟨⟩⟩ := means
  rw [Derivation.leavesAll_singleton] at leaves
  refine ⟨_, items, ?_, means, declares⟩
  rw [Derivation.derive_ok_iff scanned]
  exact Derivation.ofTokens_of_isFrom lexemes ended ⟨derives, leaves⟩

/-- The source as it is stored. -/
def source (n : Nat) : ByteArray := (String.ofList (chars n)).toUTF8

theorem size_source (n : Nat) : (source n).size ≤ 4 * (2 * n + 29) := by
  rw [← Octets.length_toList, ← length_chars]
  change (Octets.ofString (String.ofList (chars n))).length ≤ _
  rw [Octets.ofString_ofList, length_flatMap]
  have each : ∀ k ∈ (chars n).map fun c => (String.utf8EncodeChar c).length, k ≤ 4 := by
    intro k mem
    obtain ⟨c, -, rfl⟩ := mem_map.mp mem
    rw [String.length_utf8EncodeChar]
    exact c.utf8Size_le_four
  have sum := sum_le_card_nsmul _ 4 each
  rw [length_map, smul_eq_mul] at sum
  omega

theorem parse_source (file : String) {n : Nat} (short : n ≤ 2000000) :
    ∃ schema, Source.Schema.parse file (source n) = .ok schema ∧ schema.span.file = file ∧
      Declares n schema.items := by
  obtain ⟨d, items, derived, means, declares⟩ := derive_chars file n
  refine ⟨⟨⟨file, 0, (source n).size, 1, 1⟩, items⟩, ?_, rfl, declares⟩
  have size := size_source n
  have fits : ¬ Source.maxLength < (source n).size := by
    simp only [Source.maxLength, Nat.pow_eq]
    omega
  have read : Octets.chars? (source n).toList = some (chars n) := by
    have read := Octets.chars?_ofString (String.ofList (chars n))
    rw [String.toList_ofList] at read
    exact read
  rw [Source.Schema.parse, if_neg fits]
  simp [read, derived, Source.Schema.ofDerivation, means, Bind.bind, Except.bind, Except.mapError,
    pure, Except.pure]

/-! ## Their compilation -/

theorem Nested.ofType {n : Nat} (nested : Nested n type) (table : SymbolTable)
    (scope : Descriptor) : Resolution.ofType table scope type = {} := by
  induction nested with
  | scalar => rfl
  | array _ ih => exact ih

theorem Nested.mapKeys {n : Nat} (nested : Nested n type) (table : SymbolTable)
    (scope : Descriptor) : EncodingCheck.mapKeys table scope type = [] := by
  induction nested with
  | scalar => rfl
  | array _ ih => exact ih

variable {n : Nat} {schema : Source.Schema}

section

variable (declares : Declares n schema.items)

include declares

theorem Declares.filePackage? : filePackage? schema = some ⟨["a"]⟩ := by
  obtain ⟨span, items⟩ := schema
  obtain ⟨-⟩ := declares
  have name : PackageName.ofSegments ["a"] = .ok ⟨["a"]⟩ := by decide
  simp [BitSchema.filePackage?, Source.Schema.package?, List.findSome?, Source.Item.package?,
    Source.Package.names, name, Except.toOption]

theorem Declares.inclusions : schema.inclusions = [] := by
  obtain ⟨span, items⟩ := schema
  obtain ⟨-⟩ := declares
  rfl

theorem Declares.register (policy : RedefinitionPolicy) :
    ∃ m table, register policy {} schema = (some m, table, []) ∧ m.path = schema.span.file := by
  obtain ⟨span, items⟩ := schema
  obtain ⟨-⟩ := declares
  have name : PackageName.ofSegments ["a"] = .ok ⟨["a"]⟩ := by decide
  have builtin : Source.Scalar.ofName? "M" = none := by decide
  have package : joinName ["a", ""] = "a" := by decide
  have message : joinName ["a", "M"] = "a.M" := by decide
  simp [BitSchema.register, Source.Schema.package?, List.findSome?, Source.Item.package?,
    Source.Package.names, name, PackageName.ancestry, List.range, List.range.loop,
    Registration.enterPackage, Registration.enterItems, Registration.misplaced,
    Registration.enterMessage, Registration.enterType, Registration.enterMembers,
    Registration.enterMember, SymbolTable.get?, SymbolTable.insert, Symbol.fullName,
    Descriptor.text, Descriptor.child, Descriptor.ofPackage, builtin, package, message]

theorem Declares.checks (table : SymbolTable) :
    (resolveReferences table schema).diagnostics = [] ∧ checkIndices schema = [] ∧
      checkEncodings table schema = [] := by
  rw [resolveReferences, checkEncodings, declares.filePackage?]
  obtain ⟨span, items⟩ := schema
  obtain ⟨nested⟩ := declares
  refine ⟨?_, rfl, ?_⟩
  · simp [Resolution.join, Resolution.ofItem, Resolution.ofMessage, Resolution.ofFields,
      Resolution.ofMembers, Resolution.ofMember, Source.Member.field?, nested.ofType]
  · simp [EncodingCheck.checkMessage, EncodingCheck.checkMembers, EncodingCheck.checkMember,
      Source.Member.field?, EncodingCheck.checkField, EncodingCheck.meanings, nested.mapKeys]

end

theorem Nested.typeEncoding (nested : Nested n type) (table : SymbolTable) (scope : Descriptor) :
    ∃ e, Lowering.typeEncoding table scope type = .ok e ∧ 2 * n + 2 ≤ e.toJson.nesting ∧
      e.wire.kind ≠ .embedded := by
  induction nested with
  | scalar => exact ⟨_, rfl, by decide, by decide⟩
  | @array n span element _ ih =>
    obtain ⟨e, ok, deep, -⟩ := ih
    refine ⟨_, EncodingCheck.typeEncoding_array_ok.mpr ⟨e, ok, rfl⟩, ?_, ?_⟩
    · have step := Ir.Encoding.nesting_element (.lengthPrefixed defaultPrefixBits) e
      omega
    · simp [Ir.WireFormat.lengthPrefixed]

theorem Declares.lower (declares : Declares n schema.items) (table : SymbolTable) :
    ∃ lowered, lower table [schema] = .ok lowered ∧ ∃ p ∈ lowered.packages, ∃ m ∈ p.messages,
      ∃ f ∈ m.fields, 2 * n + 2 ≤ f.encoding.toJson.nesting := by
  rw [BitSchema.lower, Lowering.packages, declares.filePackage?]
  obtain ⟨span, items⟩ := schema
  obtain ⟨nested⟩ := declares
  obtain ⟨e, ok, deep, plain⟩ := nested.typeEncoding table
    ((Descriptor.ofPackage ⟨["a"]⟩).child "M").scope
  simp [Lowering.items, Lowering.message, Lowering.lowerMembers, Lowering.memberEncoding,
    Lowering.fieldEncoding, ok, plain, Bind.bind, Except.bind, pure, Except.pure, Lowering.packages,
    Lowering.merge, Ir.Schema.packages, Ir.Package.messages, Ir.Message.fields, deep]

/-- The source is all there is to read. -/
def importer (n : Nat) : Importer where
  fileCount := 1
  resolve _ := .ok "arrays"
  read _ := .ok (source n)

theorem load_importer (parsed : Source.Schema.parse "arrays" (source n) = .ok schema)
    (alone : schema.inclusions = []) :
    (load (importer n) ["arrays"]).files = [⟨"arrays", some (source n), some schema, []⟩] ∧
      (load (importer n) ["arrays"]).diagnostics = [] := by
  simp [load, Loading.resolveEntries, importer, Loading.drain, Loading.loadFile, parsed, alone,
    Loading.resolveIncludes, Loading.isLoaded]

/-- A type that is `n` arrays deep is compiled, to a schema of more than twice as many levels. -/
theorem exists_schema (short : n ≤ 2000000) :
    ∃ schema, (compile (importer n) .refuse ["arrays"]).schema = some schema ∧
      2 * n + 9 ≤ schema.toJson.nesting := by
  obtain ⟨file, parsed, path, declares⟩ := parse_source "arrays" short
  obtain ⟨files, loaded⟩ := load_importer parsed declares.inclusions
  obtain ⟨m, table, registered, same⟩ := declares.register .refuse
  obtain ⟨lowered, ok, p, package, m, message, f, field, deep⟩ := declares.lower table
  refine ⟨lowered, schema_compile_single files loaded registered (same.trans path)
    (declares.checks table) ok, ?_⟩
  have inField := f.nesting_encoding
  have inMessage := Ir.Message.nesting_field field
  have inPackage := Ir.Package.nesting_message message
  have inSchema := Ir.Schema.nesting_package package
  omega

end ArraySource

/-- Five thousand arrays are compiled, but the schema is too deep for a document. -/
theorem arrays_compiled_not_encoded :
    ∃ schema, (compile (ArraySource.importer 5000) .refuse ["arrays"]).schema = some schema ∧
      (∃ octet, schema.encode = .error (.wrong octet .depth)) ∧
      Ir.Schema.ofDocument? (Octets.ofString schema.document) = none := by
  obtain ⟨schema, compiled, levels⟩ := ArraySource.exists_schema (n := 5000) (by decide)
  have deep : Json.depthLimit < schema.toJson.nesting := by
    rw [Json.depthLimit]
    omega
  refine ⟨schema, compiled, Ir.Schema.encode_eq_error deep, ?_⟩
  rw [Ir.Schema.ofDocument?_document (legible_of_compile compiled), if_neg (by omega)]

end BitSchema
