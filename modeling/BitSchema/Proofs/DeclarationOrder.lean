import BitSchema.Proofs.Messages
import BitSchema.Proofs.Octets

/-!
# The order of declarations

Fields are written in the order of their indices, and variants are looked up by name or by index.
So two schemas that list the fields of their messages, or the variants of their enums, in different
orders have the same wire format: the codec does the same with both, on every value and on all data,
and also where it fails.
-/

namespace BitSchema

open List

namespace Ir

/-! ## Reordered schemas -/

/-- The enums differ by the order of their variants, each of which has a name and an index of its
own.  A null has neither, and a list that holds one is left as it is. -/
structure Enum.Reordered (e e' : Enum) : Prop where
  rest : { e with variants? := none } = { e' with variants? := none }
  variants : e.variants.Perm e'.variants
  present : e.variants = e'.variants ∨ ∀ v ∈ e.variants, v.absent = false
  names : (e.variants.map (·.name)).Nodup
  indices : (e.variants.map (·.index)).Nodup

/-- The messages differ by the order of their fields, each of which has an index of its own, and by
the order inside the definitions that they contain. -/
inductive Message.Reordered : Message → Message → Prop where
  | intro {m m' : Message}
      (rest : { m with fields? := none, messages := [], enums := [] } =
        { m' with fields? := none, messages := [], enums := [] })
      (fields : m.fields.Perm m'.fields) (indices : (m.fields.map (·.index)).Nodup)
      (messages : List.Forall₂ Message.Reordered m.messages m'.messages)
      (enums : List.Forall₂ Enum.Reordered m.enums m'.enums) : Message.Reordered m m'

structure Package.Reordered (p p' : Package) : Prop where
  path : p.path = p'.path
  absent : p.absent = p'.absent
  messages : List.Forall₂ Message.Reordered p.messages p'.messages
  enums : List.Forall₂ Enum.Reordered p.enums p'.enums

/-- The schemas differ only by the order of the fields inside messages and of the variants inside
enums. -/
def Schema.Reordered (s s' : Schema) : Prop :=
  List.Forall₂ Package.Reordered s.packages s'.packages

variable {e e' : Enum}

theorem Enum.Reordered.name (same : e.Reordered e') : e.name = e'.name :=
  (congrArg Enum.name same.rest :)

theorem Enum.Reordered.absent (same : e.Reordered e') : e.absent = e'.absent :=
  (congrArg Enum.absent same.rest :)

theorem Enum.Reordered.discriminant (same : e.Reordered e') : e.discriminant = e'.discriminant :=
  (congrArg Enum.discriminant same.rest :)

section

variable {m m' : Message}

section

variable (same : m.Reordered m')

include same

theorem Message.Reordered.name : m.name = m'.name := by
  cases same with
  | intro rest => exact (congrArg Message.name rest :)

theorem Message.Reordered.absent : m.absent = m'.absent := by
  cases same with
  | intro rest => exact (congrArg Message.absent rest :)

theorem Message.Reordered.messages : List.Forall₂ Message.Reordered m.messages m'.messages := by
  cases same with
  | intro _ _ _ messages => exact messages

theorem Message.Reordered.enums : List.Forall₂ Enum.Reordered m.enums m'.enums := by
  cases same with
  | intro _ _ _ _ enums => exact enums

end

end

/-! ## Searches -/

/-- Two searches end alike, with related definitions if they find any. -/
inductive Search.Alike {α : Type} (related : α → α → Prop) : Search α → Search α → Prop where
  | fault {fault : SearchFault} : Alike related (.error fault) (.error fault)
  | none : Alike related (.ok none) (.ok none)
  | some {a b : α} : related a b → Alike related (.ok (some a)) (.ok (some b))

section

variable {α β : Type} {related : α → α → Prop} {related' : β → β → Prop}

theorem Search.Alike.andThen {x y : Search α} {f g : α → Search β} (alike : Alike related x y)
    (next : ∀ a b, related a b → Alike related' (f a) (g b)) :
    Alike related' (x.andThen f) (y.andThen g) := by
  cases alike with
  | fault => exact .fault
  | none => exact .none
  | some pair => exact next _ _ pair

theorem alike_search {absent wanted : α → Bool} {as bs : List α}
    (all : List.Forall₂ related as bs) (same : ∀ a b, related a b → absent a = absent b)
    (same' : ∀ a b, related a b → wanted a = wanted b) :
    Search.Alike related (search absent wanted as) (search absent wanted bs) := by
  induction all with
  | nil => exact .none
  | @cons a b as bs pair _ ih =>
    rw [search, search, ← same a b pair, ← same' a b pair]
    split
    · exact .fault
    · split
      · exact .some pair
      · exact ih

end

namespace Schema

variable {s s' : Schema}

theorem alike_search_messages {ms ms' : List Message}
    (same : List.Forall₂ Message.Reordered ms ms') (name : String) :
    Search.Alike Message.Reordered (search (·.absent) (·.name == name) ms)
      (search (·.absent) (·.name == name) ms') := by
  apply alike_search same
  · exact fun m m' pair => pair.absent
  · intro m m' pair
    rw [pair.name]

theorem alike_findMessageAt {ms ms' : List Message}
    (same : List.Forall₂ Message.Reordered ms ms') (names : List String) :
    Search.Alike Message.Reordered (findMessageAt ms names) (findMessageAt ms' names) := by
  induction names generalizing ms ms' with
  | nil => exact .none
  | cons name names ih =>
    cases names with
    | nil => exact alike_search_messages same name
    | cons next names =>
      rw [findMessageAt, findMessageAt]
      · apply (alike_search_messages same name).andThen
        exact fun m m' pair => ih pair.messages
      · simp
      · simp

theorem alike_findPackage (same : s.Reordered s') (path : String) :
    Search.Alike Package.Reordered (s.findPackage path) (s'.findPackage path) := by
  apply alike_search same
  · exact fun p p' pair => pair.absent
  · intro p p' pair
    rw [pair.path]

theorem alike_findMessage (same : s.Reordered s') (d : Descriptor) :
    Search.Alike Message.Reordered (s.findMessage d) (s'.findMessage d) := by
  apply (alike_findPackage same d.package).andThen
  exact fun p p' pair => alike_findMessageAt pair.messages _

theorem alike_enumsAt {p p' : Package} (same : p.Reordered p') (path : List String) :
    Search.Alike (List.Forall₂ Enum.Reordered) (enumsAt p path) (enumsAt p' path) := by
  cases path with
  | nil => exact .some same.enums
  | cons name path =>
    rw [enumsAt, enumsAt]
    · apply (alike_findMessageAt same.messages _).andThen
      exact fun m m' pair => .some pair.enums
    · simp
    · simp

theorem alike_findEnum (same : s.Reordered s') (d : Descriptor) :
    Search.Alike Enum.Reordered (s.findEnum d) (s'.findEnum d) := by
  apply (alike_findPackage same d.package).andThen
  intro p p' pair
  apply (alike_enumsAt pair d.path).andThen
  intro es es' all
  apply alike_search all
  · exact fun e e' pair => pair.absent
  · intro e e' pair
    rw [pair.name]

/-! ## The number of definitions -/

mutual
theorem definitionsIn_reordered (m : Message) {m' : Message} (same : m.Reordered m') :
    definitionsIn m = definitionsIn m' := by
  obtain ⟨descriptor, name, fields, messages, enums, doc, absent⟩ := m
  obtain ⟨descriptor', name', fields', messages', enums', doc', absent'⟩ := m'
  rw [definitionsIn, definitionsIn, definitionsInAll_reordered messages same.messages,
    same.enums.length_eq]
theorem definitionsInAll_reordered (ms : List Message) {ms' : List Message}
    (same : List.Forall₂ Message.Reordered ms ms') :
    definitionsInAll ms = definitionsInAll ms' := by
  cases ms with
  | nil =>
    cases same
    rfl
  | cons m ms =>
    cases same with
    | cons first rest =>
      rw [definitionsInAll, definitionsInAll, definitionsIn_reordered m first,
        definitionsInAll_reordered ms rest]
end

theorem definitionCount_reordered (same : s.Reordered s') :
    s.definitionCount = s'.definitionCount := by
  unfold Reordered at same
  rw [definitionCount, definitionCount]
  generalize s.packages = ps, s'.packages = ps' at same ⊢
  induction same with
  | nil => rfl
  | cons pair _ ih =>
    rw [foldr_cons, foldr_cons, ih, definitionsInAll_reordered _ pair.messages,
      pair.enums.length_eq]

end Schema

end Ir

namespace Codec

open Ir (Encoding)

/-! ## Fields and variants -/

theorem pairwise_sortedFields (m : Ir.Message) :
    (sortedFields m).Pairwise fun a b => a.index ≤ b.index := by
  refine (pairwise_mergeSort ?_ ?_ m.fields).imp fun le => by simpa using le
  · intro a b c
    simpa using UInt32.le_trans
  · intro a b
    simpa using UInt32.le_total a.index b.index

/-- Where indices differ there is one way to sort by them, stable or not. -/
theorem eq_sortedFields {m : Ir.Message} {fs : List Ir.Field} (perm : fs.Perm m.fields)
    (sorted : fs.Pairwise fun a b => a.index ≤ b.index)
    (indices : (m.fields.map (·.index)).Nodup) : fs = sortedFields m := by
  refine List.Perm.eq_of_pairwise ?_ sorted (pairwise_sortedFields m)
    (perm.trans (sortedFields_perm m).symm)
  intro f f' mem mem' le ge
  have inside' : f' ∈ m.fields := (sortedFields_perm m).mem_iff.mp mem'
  exact inj_on_of_nodup_map indices (perm.mem_iff.mp mem) inside' (UInt32.le_antisymm le ge)

/-- Sorting by index forgets the order in which fields were declared. -/
theorem sortedFields_reordered {m m' : Ir.Message} (same : m.Reordered m') :
    sortedFields m = sortedFields m' := by
  obtain ⟨-, fields, indices, -, -⟩ := same
  exact (eq_sortedFields ((sortedFields_perm m').trans fields.symm) (pairwise_sortedFields m')
    indices).symm

/-- Where no variant is absent, the one of the lowest index is found. -/
theorem lowestVariant_spec {l : Ir.Variant} {vs : List Ir.Variant}
    (present : ∀ v ∈ vs, v.absent = false) :
    ∃ v ∈ l :: vs, lowestVariant (some l) vs = .ok (some v) ∧
      ∀ other ∈ l :: vs, v.index ≤ other.index := by
  induction vs generalizing l with
  | nil => exact ⟨l, mem_cons_self, rfl, by simp⟩
  | cons first vs ih =>
    obtain ⟨here, later⟩ := forall_mem_cons.mp present
    obtain ⟨v, mem, found, lowest⟩ := ih (l := if first.index < l.index then first else l) later
    obtain ⟨low, lower⟩ := forall_mem_cons.mp lowest
    refine ⟨v, ?_, ?_, ?_⟩
    · grind
    · rw [lowestVariant, if_neg (by simp [here])]
      exact found
    · grind

variable {e e' : Ir.Enum}

theorem zeroVariant_spec (present : ∀ v ∈ e.variants, v.absent = false)
    (nonempty : e.variants ≠ []) :
    ∃ v ∈ e.variants, zeroVariant e = .ok (some v) ∧
      ∀ other ∈ e.variants, v.index ≤ other.index := by
  rw [zeroVariant]
  obtain ⟨first, vs, eq⟩ := exists_cons_of_ne_nil nonempty
  rw [eq] at present ⊢
  obtain ⟨here, later⟩ := forall_mem_cons.mp present
  rw [lowestVariant, if_neg (by simp [here])]
  exact lowestVariant_spec later

/-- The zero variant is the one of the lowest index, wherever it stands. -/
theorem zeroVariant_reordered (same : e.Reordered e') : zeroVariant e = zeroVariant e' := by
  rcases same.present with unchanged | present
  · rw [zeroVariant, zeroVariant, unchanged]
  · by_cases none : e.variants = []
    · have none' : e'.variants = [] := (none ▸ same.variants).nil_eq.symm
      rw [zeroVariant, zeroVariant, none, none']
    · have none' : e'.variants ≠ [] := fun empty => none (empty ▸ same.variants).eq_nil
      have present' : ∀ v ∈ e'.variants, v.absent = false :=
        fun v mem => present v (same.variants.mem_iff.mpr mem)
      obtain ⟨v, mem, found, lowest⟩ := zeroVariant_spec present none
      obtain ⟨v', mem', found', lowest'⟩ := zeroVariant_spec present' none'
      have inside : v' ∈ e.variants := same.variants.mem_iff.mpr mem'
      have le := lowest v' inside
      have ge := lowest' v (same.variants.mem_iff.mp mem)
      rw [found, found', inj_on_of_nodup_map same.indices mem inside (UInt32.le_antisymm le ge)]

theorem toUInt64_injective {m n : UInt32} (same : m.toUInt64 = n.toUInt64) : m = n := by
  rw [← UInt32.toNat_inj, ← toUInt64_toNat, same, toUInt64_toNat]

theorem variantNamed_reordered (same : e.Reordered e') (name : Octets) :
    variantNamed e name = variantNamed e' name := by
  unfold variantNamed
  split
  · exact zeroVariant_reordered same
  · rcases same.present with unchanged | present
    · rw [unchanged]
    · have distinct : (e.variants.map fun v => Octets.ofString v.name).Nodup := by
        have mapped := same.names.map fun _ _ => Octets.ofString_inj.mp
        rwa [map_map] at mapped
      exact Ir.search_perm same.variants present distinct fun _ => beq_iff_eq

theorem search_index_reordered (same : e.Reordered e') (index : UInt64) :
    Ir.search (·.absent) (·.index.toUInt64 == index) e.variants =
      Ir.search (·.absent) (·.index.toUInt64 == index) e'.variants := by
  rcases same.present with unchanged | present
  · rw [unchanged]
  · have distinct : (e.variants.map (·.index.toUInt64)).Nodup := by
      have mapped := same.indices.map fun _ _ => toUInt64_injective
      rwa [map_map] at mapped
    exact Ir.search_perm same.variants present distinct fun _ => beq_iff_eq

/-! ## Encoding -/

section

variable {schema schema' : Ir.Schema} (same : schema.Reordered schema')
  (write : Encoding → Value → Value → Encoder)

theorem encodeMessage_reordered {m m' : Ir.Message} (same : m.Reordered m')
    (values bases : List (String × Value)) :
    encodeMessage write m values bases = encodeMessage write m' values bases := by
  have sorted := sortedFields_reordered same
  have name := same.name
  obtain ⟨-, fields, -, -, -⟩ := same
  rw [encodeMessage, encodeMessage, sorted, name, fields.any_eq]

include same

theorem encodeEnum_reordered (enc : Encoding) (d : Ir.Descriptor) (v : Value) :
    encodeEnum schema write enc d v = encodeEnum schema' write enc d v := by
  have alike := Ir.Schema.alike_findEnum same d
  rw [encodeEnum, encodeEnum]
  generalize schema.findEnum d = found, schema'.findEnum d = found' at alike ⊢
  cases alike with
  | fault | none => rfl
  | some pair =>
    simp only [variantNamed_reordered pair, pair.name, pair.discriminant]

theorem encodeBody_reordered (enc : Encoding) (v base : Value) :
    encodeBody schema write enc v base = encodeBody schema' write enc v base := by
  unfold encodeBody
  cases enc.native.kind with
  | message =>
    cases enc.native.descriptor with
    | none => rfl
    | some d =>
      have alike := Ir.Schema.alike_findMessage same d
      dsimp only
      generalize schema.findMessage d = found, schema'.findMessage d = found' at alike ⊢
      cases alike with
      | fault | none => rfl
      | some pair =>
        cases v.asFields? with
        | none => rfl
        | some values => exact encodeMessage_reordered write pair values _
  | enum =>
    cases enc.native.descriptor with
    | none => rfl
    | some d => exact encodeEnum_reordered same write enc d v
  | _ => rfl

end

/-- Values are written alike. -/
theorem encodeValue_reordered {schema schema' : Ir.Schema} (same : schema.Reordered schema')
    (fuel : Nat) : encodeValue schema fuel = encodeValue schema' fuel := by
  induction fuel with
  | zero => rfl
  | succ fuel ih =>
    funext enc v base
    rw [encodeValue, encodeValue, ih, encodeWith, encodeWith, encodeBody_reordered same]

/-! ## Decoding -/

section

variable {schema schema' : Ir.Schema} (same : schema.Reordered schema')
  (read : Encoding → Value → Decoder Value)

theorem decodeMessage_reordered {m m' : Ir.Message} (same : m.Reordered m')
    (bases : List (String × Value)) :
    decodeMessage read m bases = decodeMessage read m' bases := by
  have sorted := sortedFields_reordered same
  have name := same.name
  obtain ⟨-, fields, -, -, -⟩ := same
  rw [decodeMessage, decodeMessage, sorted, name, fields.any_eq]

include same

theorem decodeEnum_reordered (d : Ir.Descriptor) :
    decodeEnum schema read d = decodeEnum schema' read d := by
  have alike := Ir.Schema.alike_findEnum same d
  rw [decodeEnum, decodeEnum]
  generalize schema.findEnum d = found, schema'.findEnum d = found' at alike ⊢
  cases alike with
  | fault | none => rfl
  | some pair =>
    simp only [search_index_reordered pair, pair.name, pair.discriminant]

theorem decodeBody_reordered (enc : Encoding) (base : Value) :
    decodeBody schema read enc base = decodeBody schema' read enc base := by
  unfold decodeBody
  cases enc.native.kind with
  | message =>
    cases enc.native.descriptor with
    | none => rfl
    | some d =>
      have alike := Ir.Schema.alike_findMessage same d
      dsimp only
      generalize schema.findMessage d = found, schema'.findMessage d = found' at alike ⊢
      cases alike with
      | fault | none => rfl
      | some pair => exact decodeMessage_reordered read pair _
  | enum =>
    cases enc.native.descriptor with
    | none => rfl
    | some d => exact decodeEnum_reordered same read d
  | _ => rfl

end

/-- Values are read alike. -/
theorem decodeValue_reordered {schema schema' : Ir.Schema} (same : schema.Reordered schema')
    (fuel : Nat) : decodeValue schema fuel = decodeValue schema' fuel := by
  induction fuel with
  | zero => rfl
  | succ fuel ih =>
    funext enc base
    rw [decodeValue, decodeValue, ih, decodeWith, decodeWith, decodeBody_reordered same]

/-! ## Messages -/

/-- The order in which fields and variants are declared does not show on the wire.  Two schemas that
differ only by it write every message alike and read all data alike: with the same result or the
same fault, and leaving the same writer or the same reader. -/
theorem codec_reordered {schema schema' : Ir.Schema} (same : schema.Reordered schema')
    (d : Ir.Descriptor) (values bases : Fields) :
    (∀ w, outcome (encode schema d values bases) w = outcome (encode schema' d values bases) w) ∧
      ∀ r, outcome (decode schema d bases) r = outcome (decode schema' d bases) r := by
  have alike := Ir.Schema.alike_findMessage same d
  have count := Ir.Schema.definitionCount_reordered same
  have writes : encode schema d values bases = encode schema' d values bases := by
    rw [encode, encode, encodeFuel, encodeFuel, count, encodeValue_reordered same]
    generalize schema.findMessage d = found, schema'.findMessage d = found' at alike ⊢
    cases alike with
    | fault => rfl
    | none => rfl
    | some pair => exact encodeMessage_reordered _ pair values bases
  have reads : decode schema d bases = decode schema' d bases := by
    rw [decode, decode]
    generalize schema.findMessage d = found, schema'.findMessage d = found' at alike ⊢
    cases alike with
    | fault => rfl
    | none => rfl
    | some pair =>
        simp only [decodeFuel, count, decodeValue_reordered same, decodeMessage_reordered _ pair]
  exact ⟨fun w => by rw [writes], fun r => by rw [reads]⟩

/-- A message of two numbers and an enum, with the fields and the variants in either order. -/
def levelSchema (forward : Bool) : Ir.Schema :=
  let octet : Encoding := { wire := .ofBits 8, native := { kind := .int, bits := 8 } }
  let state : Encoding :=
    { wire := .embedded, native := { kind := .enum, descriptor := some ⟨"p", ["Level"], "State"⟩ } }
  let fields : List Ir.Field :=
    [{ name := "high", index := 7, encoding := octet }, { name := "low", encoding := octet },
      { name := "state", index := 3, encoding := state }]
  let variants : List Ir.Variant :=
    [{ name := "on", index := 2, field := some { encoding := octet } },
      { name := "off", index := 1 }]
  let states : Ir.Enum :=
    { name := "State", discriminant := octet
      variants? := some (if forward then variants else variants.reverse) }
  let level : Ir.Message :=
    { name := "Level", fields? := some (if forward then fields else fields.reverse)
      enums := [states] }
  { packages? := some [{ path := "p", messages? := some [level] }] }

theorem codec_reordered_level :
    (levelSchema true).Reordered (levelSchema false) ∧ ∀ values bases,
      (∀ w, outcome (encode (levelSchema true) ⟨"p", [], "Level"⟩ values bases) w =
        outcome (encode (levelSchema false) ⟨"p", [], "Level"⟩ values bases) w) ∧
      ∀ r, outcome (decode (levelSchema true) ⟨"p", [], "Level"⟩ bases) r =
        outcome (decode (levelSchema false) ⟨"p", [], "Level"⟩ bases) r := by
  have same : (levelSchema true).Reordered (levelSchema false) := by
    refine .cons ⟨rfl, rfl, .cons (.intro rfl ?_ (by decide) .nil (.cons ?_ .nil)) .nil, .nil⟩ .nil
    · exact (reverse_perm _).symm
    · exact ⟨rfl, (reverse_perm _).symm, .inr (by decide), by decide, by decide⟩
  exact ⟨same, fun values bases => codec_reordered same _ values bases⟩

end Codec

end BitSchema
