import BitSchema.Proofs.LoweredDefinitions
import BitSchema.Proofs.MergedPackages

/-!
# First declarations

A search in a lowered schema goes by names, one level after the other, and takes the first of each
name.  The same search in the sources (`firstMessage`, `firstEnum`) comes to the declaration that
the definition was lowered from, whatever else has the name.
-/

namespace BitSchema

open List

/-! ## Blocks -/

namespace Source

/-- What is chosen in the block that names of messages lead to, through the first of each name. -/
def Block.pick {α : Type} (choose : Block → Option α) (b : Block) : List String → Option α
  | [] => choose b
  | outer :: path =>
    (b.messages.find? (·.name.value == outer)).bind fun m => m.block.pick choose path

/-- What files declare in a package at the top. -/
def packageBlock (files : List Schema) (p : PackageName) : Block :=
  let inside := files.filter (filePackage? · = some p)
  ⟨inside.flatMap (·.messages), inside.flatMap (·.enums)⟩

/-- The message that a full name leads to in files. -/
def firstMessage (files : List Schema) (d : Descriptor) : Option Message :=
  (packageBlock files d.package).pick (·.messages.find? (·.name.value == d.name)) d.path

/-- The enum that a full name leads to in files. -/
def firstEnum (files : List Schema) (d : Descriptor) : Option Enum :=
  (packageBlock files d.package).pick (·.enums.find? (·.name.value == d.name)) d.path

end Source

namespace Ir

/-- What is chosen among the definitions that names of messages lead to. -/
def pick {β : Type} (choose : List Message → List Enum → Search β) (ms : List Message)
    (es : List Enum) : List String → Search β
  | [] => choose ms es
  | outer :: path =>
    (search (·.absent) (·.name == outer) ms).andThen fun m => pick choose m.messages m.enums path

namespace Schema

theorem findMessageAt_cons (ms : List Message) (outer : String) {path : List String}
    (some : path ≠ []) : findMessageAt ms (outer :: path) =
      (search (·.absent) (·.name == outer) ms).andThen fun m => findMessageAt m.messages path := by
  cases path with
  | nil => exact absurd rfl some
  | cons name path => rw [findMessageAt]; simp

theorem findMessageAt_eq (ms : List Message) (es : List Enum) (path : List String)
    (name : String) : findMessageAt ms (path ++ [name]) =
      pick (fun ms _ => search (·.absent) (·.name == name) ms) ms es path := by
  induction path generalizing ms es with
  | nil => rfl
  | cons outer path ih =>
    rw [cons_append, findMessageAt_cons ms outer (by simp), pick]
    exact congrArg _ (funext fun m => ih m.messages m.enums)

theorem andThen_assoc {α β γ : Type} (found : Search α) (next : α → Search β)
    (last : β → Search γ) :
    (found.andThen next).andThen last = found.andThen fun a => (next a).andThen last := by
  rcases found with fault | _ | a <;> rfl

theorem search_enumsAt_eq (p : Package) (path : List String) (name : String) :
    (enumsAt p path).andThen (search (·.absent) (·.name == name)) =
      pick (fun _ es => search (·.absent) (·.name == name) es) p.messages p.enums path := by
  cases path with
  | nil => rfl
  | cons outer path =>
    rw [enumsAt, andThen_assoc]
    · generalize p.messages = ms
      generalize p.enums = es
      induction path generalizing outer ms es with
      | nil => rfl
      | cons next path ih =>
        rw [findMessageAt_cons ms outer (by simp), andThen_assoc, pick]
        exact congrArg _ (funext fun m => ih next m.messages m.enums)
    · simp

end Schema

end Ir

/-! ## Lowered blocks -/

/-- The search comes to what the declaration is lowered to, if there is one. -/
def Finds {α β : Type} (lowers : α → Except LowerError β) : Option α → Ir.Search β → Prop
  | none, found => found = .ok none
  | some a, found => ∃ b, lowers a = .ok b ∧ found = .ok (some b)

theorem finds_search {α β : Type} {lowers : α → Except LowerError β} {key : α → String}
    {absent : β → Bool} {key' : β → String} {as : List α} {bs : List β} {name : String}
    (all : List.Forall₂ (fun a b => lowers a = .ok b) as bs)
    (kept : ∀ {a b}, lowers a = .ok b → absent b = false ∧ key' b = key a) :
    Finds lowers (as.find? (key · == name)) (Ir.search absent (key' · == name) bs) := by
  induction all with
  | nil => rfl
  | @cons a b as bs first _ ih =>
    obtain ⟨present, same⟩ := kept first
    rw [find?_cons, Ir.search, present, same]
    cases key a == name with
    | true => exact ⟨b, first, rfl⟩
    | false => exact ih

theorem Finds.andThen {α β γ δ : Type} {lowers : α → Except LowerError β}
    {lowers' : γ → Except LowerError δ} {declared : Option α} {found : Ir.Search β}
    {next : α → Option γ} {next' : β → Ir.Search δ} (finds : Finds lowers declared found)
    (more : ∀ {a b}, declared = some a → lowers a = .ok b → Finds lowers' (next a) (next' b)) :
    Finds lowers' (declared.bind next) (found.andThen next') := by
  cases declared with
  | none =>
    rw [show found = .ok none from finds]
    rfl
  | some a =>
    obtain ⟨b, lowered, rfl⟩ := finds
    exact more rfl lowered

namespace Lowering

variable {table : SymbolTable} {scope : Descriptor}

theorem message_kept {m : Source.Message} {lowered : Ir.Message}
    (ok : message table scope m = .ok lowered) :
    lowered.absent = false ∧ lowered.name = m.name.value :=
  ⟨(message_ok ok).present, (message_ok ok).name⟩

theorem enum_kept {e : Source.Enum} {lowered : Ir.Enum} (ok : enum table scope e = .ok lowered) :
    lowered.absent = false ∧ lowered.name = e.name.value :=
  ⟨(enum_ok ok).present, (enum_ok ok).name⟩

/-- By induction on the path: each step goes into the first message of a name on both sides. -/
theorem finds_pick {α β : Type} (lowers : Descriptor → α → Except LowerError β)
    {choose : Source.Block → Option α} {choose' : List Ir.Message → List Ir.Enum → Ir.Search β}
    {p : PackageName} {path done : List String} {b : Source.Block} {ms : List Ir.Message}
    {es : List Ir.Enum}
    (chosen : ∀ {path b ms es}, LowersTo table ⟨p, path, ""⟩ b ms es →
      Finds (lowers ⟨p, path, ""⟩) (choose b) (choose' ms es))
    (named : ∀ name ∈ path, name ≠ "") (lowered : LowersTo table ⟨p, done, ""⟩ b ms es) :
    Finds (lowers ⟨p, done ++ path, ""⟩) (b.pick choose path) (Ir.pick choose' ms es path) := by
  induction path generalizing done b ms es with
  | nil =>
    rw [append_nil]
    exact chosen lowered
  | cons outer path ih =>
    obtain ⟨here, later⟩ := forall_mem_cons.mp named
    refine (finds_search lowered.messages message_kept).andThen ?_
    intro m l found ok
    have same := find?_some found
    have inner := (message_ok ok).block
    rw [eq_of_beq same, Descriptor.scope_child _ here] at inner
    have onward := ih later inner
    rwa [append_assoc, singleton_append] at onward

/-! ## Packages -/

theorem eq_of_text {p q : PackageName} (left : ∀ segment ∈ p.segments, IsPart segment)
    (right : ∀ segment ∈ q.segments, IsPart segment) (same : p.text = q.text) : p = q := by
  have segments := joinName_injective left right (by
    rwa [joinName_of_ne_empty fun part mem => (left part mem).some,
      joinName_of_ne_empty fun part mem => (right part mem).some])
  cases p
  cases q
  exact congrArg PackageName.mk segments

/-- A package holds what its files declare, file after file. -/
theorem lowersTo_pack {files : List Source.Schema} {parts : List (String × Members)}
    {p : PackageName} (valid : ∀ segment ∈ p.segments, IsPart segment)
    (all : List.Forall₂ (fun file part => Lowering.part table file = .ok part) files parts) :
    LowersTo table (Descriptor.ofPackage p) (Source.packageBlock files p)
      (pack parts p.text).messages (pack parts p.text).enums := by
  induction all with
  | nil => exact ⟨.nil, .nil⟩
  | @cons file made files parts first _ ih =>
    obtain ⟨q, package, ms, lowers, rfl⟩ := part_ok first
    by_cases same : q = p
    · subst same
      obtain ⟨messages, enums⟩ := (yields_of_items lowers).block
      rw [← Source.Schema.members] at messages enums
      rw [Source.Schema.messages_eq] at messages
      rw [Source.Schema.enums_eq] at enums
      have block : Source.packageBlock (file :: files) q =
          ⟨file.messages ++ (Source.packageBlock files q).messages,
            file.enums ++ (Source.packageBlock files q).enums⟩ := by
        simp [Source.packageBlock, package]
      have packed : (pack ((q.text, ms) :: parts) q.text).messages =
            ms.messages ++ (pack parts q.text).messages ∧
          (pack ((q.text, ms) :: parts) q.text).enums =
            ms.enums ++ (pack parts q.text).enums := by
        simp [pack, Ir.Package.messages, Ir.Package.enums]
      rw [block, packed.1, packed.2]
      exact ⟨rel_append messages ih.messages, rel_append enums ih.enums⟩
    · have other : q.text ≠ p.text := fun text =>
        same (eq_of_text (isValid_of_filePackage? package).isPart valid text)
      have block : Source.packageBlock (file :: files) p = Source.packageBlock files p := by
        simp [Source.packageBlock, package, same]
      have packed : pack ((q.text, ms) :: parts) p.text = pack parts p.text := by
        simp [pack, other]
      rw [block, packed]
      exact ih

theorem findPackage_of_merged {schema : Ir.Schema} {parts : List (String × Members)}
    {path : String} (merged : Merged schema.packages parts) (known : path ∈ parts.map Prod.fst) :
    schema.findPackage path = .ok (some (pack parts path)) := by
  obtain ⟨p, mem, rfl⟩ := mem_map.mp ((merged.paths path).mpr known)
  rw [← merged.each p mem]
  refine Ir.search_of_nodup (fun q inside => ?_) merged.distinct (fun q _ => beq_iff_eq) mem
  rw [merged.each q inside]
  rfl

/-! ## Searches by descriptors -/

section

variable {files : List Source.Schema} {schema : Ir.Schema} {file : Source.Schema} {d : Descriptor}

section

variable (ok : lower table files = .ok schema) (mem : file ∈ files)
  (package : filePackage? file = some d.package)

include ok mem package

theorem exists_package :
    ∃ p, schema.findPackage d.package.text = .ok (some p) ∧
      LowersTo table ⟨d.package, [], ""⟩ (Source.packageBlock files d.package) p.messages
        p.enums := by
  obtain ⟨-, parts, lowered, merged⟩ := merged_of_lower ok
  have all := mapM_ok lowered
  obtain ⟨made, among, here⟩ := exists_of_forall₂ all.flip mem
  obtain ⟨p, package', ms, -, rfl⟩ := part_ok here
  obtain rfl : p = d.package := Option.some.inj (package'.symm.trans package)
  exact ⟨_, findPackage_of_merged merged (mem_map_of_mem among),
    lowersTo_pack (isValid_of_filePackage? package).isPart all⟩

/-- A search for a message comes to the first declaration on its way. -/
theorem finds_message (named : ∀ name ∈ d.path, name ≠ "") :
    Finds (message table ⟨d.package, d.path, ""⟩) (Source.firstMessage files d)
      (schema.findMessage d.toIr) := by
  obtain ⟨p, found, lowered⟩ := exists_package ok mem package
  have inside : schema.findMessage d.toIr =
      Ir.Schema.findMessageAt p.messages (d.path ++ [d.name]) := by
    rw [Ir.Schema.findMessage, Descriptor.toIr, found]
    rfl
  rw [inside, Ir.Schema.findMessageAt_eq p.messages p.enums, Source.firstMessage]
  have chosen : ∀ {path b ms es}, LowersTo table ⟨d.package, path, ""⟩ b ms es →
      Finds (message table ⟨d.package, path, ""⟩) (b.messages.find? (·.name.value == d.name))
        (Ir.search (·.absent) (·.name == d.name) ms) := fun lowered =>
    finds_search lowered.messages message_kept
  have picked := finds_pick (message table) chosen named lowered
  rwa [nil_append] at picked

/-- A search for an enum comes to the first declaration on its way. -/
theorem finds_enum (named : ∀ name ∈ d.path, name ≠ "") :
    Finds (enum table ⟨d.package, d.path, ""⟩) (Source.firstEnum files d)
      (schema.findEnum d.toIr) := by
  obtain ⟨p, found, lowered⟩ := exists_package ok mem package
  have inside : schema.findEnum d.toIr = (Ir.Schema.enumsAt p d.path).andThen
      (Ir.search (·.absent) (·.name == d.name)) := by
    rw [Ir.Schema.findEnum, Descriptor.toIr, found]
    rfl
  rw [inside, Ir.Schema.search_enumsAt_eq, Source.firstEnum]
  have chosen : ∀ {path b ms es}, LowersTo table ⟨d.package, path, ""⟩ b ms es →
      Finds (enum table ⟨d.package, path, ""⟩) (b.enums.find? (·.name.value == d.name))
        (Ir.search (·.absent) (·.name == d.name) es) := fun lowered =>
    finds_search lowered.enums enum_kept
  have picked := finds_pick (enum table) chosen named lowered
  rwa [nil_append] at picked

end

end

end Lowering

end BitSchema
