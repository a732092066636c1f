import BitSchema.Proofs.CheckedEncodings
import BitSchema.Proofs.DeclarationOrder

/-!
# Empty values

What an absent value is written as is read off its encoding alone: a number is zero, a collection
has no elements, an enum is its variant of the lowest index, and of a message all fields are absent.
So it can be written exactly if this comes to an end, every reference on the way leads to a
definition, and the codec accepts the transforms of every number.
-/

namespace BitSchema

open List

/-! ## Zero -/

theorem Word.fitsUnsigned_zero (bits : Nat) : Word.fitsUnsigned 0 bits = true := by
  simp [Word.fitsUnsigned]

theorem Word.fitsSigned_zero (bits : Nat) : Word.fitsSigned 0 bits = true := by
  simp [Word.fitsSigned]

namespace Codec

open Ir (Encoding Transform)

theorem loadNumber_null (native : Ir.NativeType) :
    loadNumber native .null = .ok (.zero (nativeDomain native)) := by
  cases domain : nativeDomain native with
  | unsigned =>
    exact (loadNumber_unsigned_iff domain).mpr ⟨0, rfl, rfl, Word.fitsUnsigned_zero _⟩
  | signed => exact (loadNumber_signed_iff domain).mpr ⟨0, rfl, rfl, Word.fitsSigned_zero _⟩
  | float =>
    rw [loadNumber, domain]
    rfl

theorem loadBaseline_null (enc : Encoding) :
    loadBaseline enc .null = .ok (.zero (nativeDomain enc.native)) := by
  unfold loadBaseline
  split
  · rw [loadNumber_null]
    rfl
  · rfl

/-- The codec accepts the transforms of a number one after the other. -/
def Accepted (enc : Encoding) : Prop :=
  enc.native.kind ∈ [.int, .float] → (domains enc.transforms (nativeDomain enc.native)).isOk = true

/-- What is left of a float after the transforms has the width of one. -/
def FloatWide (enc : Encoding) : Prop :=
  ∀ befores, domains enc.transforms (nativeDomain enc.native) = .ok (befores, .float) →
    enc.wire.bits = 32 ∨ enc.wire.bits = 64

section

variable {enc : Encoding} {w w' : BitWriter}

theorem fits_zero {d : Domain} {bits : Nat} (float : d = .float → bits = 32 ∨ bits = 64) :
    (Number.zero d).Fits bits := by
  cases d with
  | unsigned => exact Word.fitsUnsigned_zero bits
  | signed => exact Word.fitsSigned_zero bits
  | float => exact float rfl

theorem encodeNumber_null (laid : Laid enc) (wide : FloatWide enc)
    (kind : enc.native.kind ∈ [.int, .float]) (accepted : Accepted enc) (w : BitWriter) :
    ∃ w', Succeeds (encodeNumber enc .null .null) w () w' := by
  have accepted := accepted kind
  rcases ends : domains enc.transforms (nativeDomain enc.native) with cause | ⟨befores, last⟩
  · rw [ends] at accepted
    cases accepted
  obtain ⟨bases, ran⟩ := run_zero (fun _ => laid.fixedPoint) ends
  have ready : transformed enc .null .null = .ok (.zero last) :=
    transformed_ok_iff.mpr ⟨_, _, bases, loadNumber_null _, loadBaseline_null _, ran⟩
  have fits : (Number.zero last).Fits enc.wire.bits.toNat := by
    refine fits_zero fun float => ?_
    subst float
    exact (wide befores ends).imp (congrArg UInt32.toNat) (congrArg UInt32.toNat)
  have narrow := (laid.bits (by simp at kind ⊢; tauto)).2
  exact ⟨_, succeeds_encodeNumber.mpr ⟨_, ready, succeeds_writeNumber.mpr ⟨fits, narrow, rfl⟩⟩⟩

theorem accepted_of_encodeNumber {v base : Value}
    (ok : Succeeds (encodeNumber enc v base) w () w') : Accepted enc := by
  intro _
  obtain ⟨n, ready, -⟩ := succeeds_encodeNumber.mp ok
  obtain ⟨m, b, bases, loaded, baseline, ran⟩ := transformed_ok_iff.mp ready
  have domain := domain_of_loadNumber loaded
  obtain ⟨befores, ends⟩ :=
    domains_of_run ((domain_of_loadBaseline baseline).trans domain.symm) ran
  rw [← domain, ends]
  rfl

end

/-! ## What empty values hold -/

/-- The message or enum that an encoding refers to. -/
def referent (schema : Ir.Schema) (enc : Encoding) : Option (Ir.Message ⊕ Ir.Enum) :=
  if enc.native.kind = .message then (enc.native.descriptor.bind schema.message?).map .inl
  else if enc.native.kind = .enum then (enc.native.descriptor.bind schema.enum?).map .inr
  else none

/-- A reference leads to a definition. -/
def Refers (schema : Ir.Schema) (enc : Encoding) : Prop :=
  enc.native.kind ∈ [.message, .enum] → (referent schema enc).isSome

/-- The encodings by which the empty value of a message or enum is written: of all fields, or of the
payload of the variant with the lowest index. -/
def contents : Ir.Message ⊕ Ir.Enum → List Encoding
  | .inl m => m.fields.map (·.encoding)
  | .inr e => ((zeroVariant e).toOption.join.bind (·.field)).toList.map (·.encoding)

/-- The empty value of one encoding holds that of another. -/
def Unfolds (schema : Ir.Schema) (outer inner : Encoding) : Prop :=
  ∃ x ∈ referent schema outer, inner ∈ contents x

/-- No chain of empty values from here goes on for ever. -/
def Finite (schema : Ir.Schema) : Encoding → Prop :=
  Acc fun inner outer => Unfolds schema outer inner

section

variable {schema : Ir.Schema} {enc inner : Encoding}

variable {d : Ir.Descriptor} {m : Ir.Message} {e : Ir.Enum} {x : Ir.Message ⊕ Ir.Enum}

theorem referent_message (kind : enc.native.kind = .message)
    (descriptor : enc.native.descriptor = some d) (found : schema.findMessage d = .ok (some m)) :
    referent schema enc = some (.inl m) := by
  rw [referent, if_pos kind, descriptor, Option.bind_some, Ir.Schema.message?, found]
  rfl

theorem referent_enum (kind : enc.native.kind = .enum) (descriptor : enc.native.descriptor = some d)
    (found : schema.findEnum d = .ok (some e)) : referent schema enc = some (.inr e) := by
  rw [referent, if_neg (by simp [kind]), if_pos kind, descriptor, Option.bind_some,
    Ir.Schema.enum?, found]
  rfl

theorem findMessage_of_message? (there : schema.message? d = some m) :
    schema.findMessage d = .ok (some m) :=
  Ir.Search.join_toOption_eq_some_iff.mp there

/-- The referent of an encoding is found by its descriptor. -/
theorem referent_cases (refers : referent schema enc = some x) :
    (∃ d m, enc.native.kind = .message ∧ enc.native.descriptor = some d ∧
        schema.findMessage d = .ok (some m) ∧ x = .inl m) ∨
      ∃ d e, enc.native.kind = .enum ∧ enc.native.descriptor = some d ∧
        schema.findEnum d = .ok (some e) ∧ x = .inr e := by
  unfold referent at refers
  split at refers
  next kind =>
    obtain ⟨m, found, rfl⟩ := Option.map_eq_some_iff.mp refers
    obtain ⟨d, descriptor, found⟩ := Option.bind_eq_some_iff.mp found
    exact .inl ⟨d, m, kind, descriptor, findMessage_of_message? found, rfl⟩
  next =>
    split at refers
    next kind =>
      obtain ⟨e, found, rfl⟩ := Option.map_eq_some_iff.mp refers
      obtain ⟨d, descriptor, found⟩ := Option.bind_eq_some_iff.mp found
      exact .inr ⟨d, e, kind, descriptor, Ir.Search.join_toOption_eq_some_iff.mp found, rfl⟩
    next => cases refers

theorem mem_contents_enum :
    inner ∈ contents (.inr e) ↔ ∃ v f, zeroVariant e = .ok (some v) ∧ v.field = some f ∧
      f.encoding = inner := by
  rcases zero : zeroVariant e with fault | _ | v
  · simp [contents, zero, Except.toOption]
  · simp [contents, zero, Except.toOption]
  · simp [contents, zero, Except.toOption]

theorem contents_subset (refers : referent schema enc = some x) :
    contents x ⊆ schema.encodings := by
  intro e mem
  rcases referent_cases refers with ⟨d, m, -, -, found, rfl⟩ | ⟨d, en, -, -, found, rfl⟩
  · obtain ⟨f, field, rfl⟩ := mem_map.mp mem
    exact Ir.Schema.levels_field_subset found field f.encoding.self_mem_levels
  · obtain ⟨v, f, zero, field, rfl⟩ := mem_contents_enum.mp mem
    have variant : v ∈ en.variants := (mem_of_lowestVariant zero).resolve_right nofun
    exact Ir.Schema.levels_payload_subset found variant field f.encoding.self_mem_levels

end

/-! ## How deep empty values go -/

/-- The definitions at which a chain of empty values arrives. -/
def reached (schema : Ir.Schema) (enc : Encoding) : Set (Ir.Message ⊕ Ir.Enum) :=
  {x | ∃ inner, Relation.ReflTransGen (Unfolds schema) enc inner ∧ referent schema inner = some x}

/-- How many definitions an empty value can go through. -/
noncomputable def height (schema : Ir.Schema) (enc : Encoding) : Nat := (reached schema enc).ncard

section

variable {schema : Ir.Schema} {enc inner : Encoding}

section

variable (schema : Ir.Schema) (enc : Encoding)

theorem reached_subset :
    reached schema enc ⊆ {x | x ∈ schema.allMessages.map .inl ++ schema.allEnums.map .inr} := by
  rintro x ⟨inner, -, refers⟩
  rcases referent_cases refers with ⟨d, m, -, -, found, rfl⟩ | ⟨d, e, -, -, found, rfl⟩
  · exact mem_append_left _ (mem_map_of_mem (Ir.Schema.mem_allMessages found))
  · exact mem_append_right _ (mem_map_of_mem (Ir.Schema.mem_allEnums found))

theorem finite_reached : (reached schema enc).Finite :=
  (finite_toSet _).subset (reached_subset schema enc)

theorem height_le : height schema enc ≤ schema.definitionCount := by
  refine (ncard_le_length (reached_subset schema enc)).trans ?_
  rw [length_append, length_map, length_map]
  exact schema.length_definitions

end

/-- Where there is no way back, what an empty value holds is less deep. -/
theorem height_lt (acyclic : ¬ Relation.TransGen (Unfolds schema) inner inner)
    (step : Unfolds schema enc inner) : height schema inner < height schema enc := by
  obtain ⟨x, refers, inside⟩ := step
  have below : reached schema inner ⊆ reached schema enc := fun y ⟨last, path, refersTo⟩ =>
    ⟨last, Relation.ReflTransGen.head ⟨x, refers, inside⟩ path, refersTo⟩
  have mem : x ∈ reached schema enc := ⟨enc, .refl, refers⟩
  -- To come to the same definition again is to come to what it holds again.
  have fresh : x ∉ reached schema inner := fun ⟨last, path, again⟩ =>
    acyclic (Relation.TransGen.tail' path ⟨x, again, inside⟩)
  exact Set.ncard_lt_ncard ⟨below, fun back => fresh (back mem)⟩ (finite_reached schema enc)

theorem finite_of_acyclic (acyclic : ∀ e, ¬ Relation.TransGen (Unfolds schema) e e)
    (enc : Encoding) : Finite schema enc := by
  refine (measure (height schema)).wf.induction (C := Finite schema) enc fun enc ih => ?_
  exact Acc.intro enc fun inner step => ih inner (height_lt (acyclic inner) step)

/-- If what empty values hold always stands lower then there is no way back. -/
theorem acyclic_of_falling {schema : Ir.Schema} (level : Encoding → Nat)
    (falls : ∀ e ∈ schema.encodings, ∀ x ∈ referent schema e, ∀ inner ∈ contents x,
      level inner < level e) (e : Encoding) : ¬ Relation.TransGen (Unfolds schema) e e := by
  refine not_transGen_of_falling (· ∈ schema.encodings) level ?_ e
  rintro outer inner ⟨x, refers, inside⟩
  exact ⟨contents_subset refers inside, fun mem => falls outer mem x refers inner inside⟩

/-! ## Writing empty values -/

/-- The empty value of an encoding can be written as far as transforms and references are
concerned. -/
inductive Writable (schema : Ir.Schema) : Encoding → Prop where
  | intro {enc : Encoding} (here : Accepted enc ∧ Refers schema enc)
      (inner : ∀ e, Unfolds schema enc e → Writable schema e) : Writable schema enc

/-- An absent value can be written if all in it is finite, accepted and defined. -/
theorem writable_iff : Writable schema enc ↔ Finite schema enc ∧
    ∀ e, Relation.ReflTransGen (Unfolds schema) enc e → Accepted e ∧ Refers schema e := by
  constructor
  · intro writable
    induction writable with
    | @intro enc here inner ih =>
      refine ⟨Acc.intro enc fun e step => (ih e step).1, fun e path => ?_⟩
      rcases Relation.ReflTransGen.cases_head path with rfl | ⟨next, step, path⟩
      · exact here
      · exact (ih next step).2 e path
  · rintro ⟨finite, accepted⟩
    induction finite with
    | intro enc below ih =>
      refine .intro (accepted enc .refl) fun e step => ih e step fun last path => ?_
      exact accepted last (Relation.ReflTransGen.head step path)

variable {fuel : Nat}

/-- What is written as a reference is found. -/
theorem refers_of_encodeBody {recur : Encoding → Value → Value → Encoder} {v base : Value}
    {w w' : BitWriter} (ok : Succeeds (encodeBody schema recur enc v base) w () w') :
    Refers schema enc := by
  intro kind
  simp only [mem_cons, not_mem_nil, or_false] at kind
  rcases kind with kind | kind
  · obtain ⟨d, m, -, descriptor, found, -⟩ := (succeeds_encodeBody_message kind).mp ok
    rw [referent_message kind descriptor found]
    rfl
  · obtain ⟨d, descriptor, enum⟩ := (succeeds_encodeBody_enum kind).mp ok
    obtain ⟨e, -, -, -, -, found, -⟩ := succeeds_encodeEnum.mp enum
    rw [referent_enum kind descriptor found]
    rfl

theorem writable_of_encodes {base : Value} {w w' : BitWriter}
    (ok : Succeeds (encodeValue schema fuel enc .null base) w () w') : Writable schema enc := by
  induction fuel generalizing enc base w w' with
  | zero => exact (succeeds_fail.mp ok).elim
  | succ fuel ih =>
    obtain ⟨w₁, body, -⟩ := succeeds_encodeWith.mp ok
    refine .intro ⟨fun kind => ?_, refers_of_encodeBody body⟩ fun e step => ?_
    · have number : enc.native.kind = .int ∨ enc.native.kind = .float := by simpa using kind
      exact accepted_of_encodeNumber ((succeeds_encodeBody_number number).mp body) kind
    · obtain ⟨x, refers, inside⟩ := step
      rcases referent_cases refers with ⟨d, m, kind, descriptor, found, rfl⟩ |
        ⟨d, en, kind, descriptor, found, rfl⟩
      · obtain ⟨d', m', values, descriptor', found', empty, message⟩ :=
          (succeeds_encodeBody_message kind).mp body
        cases descriptor.symm.trans descriptor'
        cases found.symm.trans found'
        cases empty
        obtain ⟨f, field, rfl⟩ := mem_map.mp inside
        have sorted : f ∈ sortedFields m := (mergeSort_perm _ _).mem_iff.mpr field
        obtain ⟨-, fields⟩ := succeeds_encodeMessage.mp message
        obtain ⟨w₂, w₃, written⟩ := step_of_threaded fields sorted
        exact ih written
      · obtain ⟨d', descriptor', enum⟩ := (succeeds_encodeBody_enum kind).mp body
        cases descriptor.symm.trans descriptor'
        obtain ⟨en', name, payload, v, w₂, found', parts, zero, -, rest⟩ :=
          succeeds_encodeEnum.mp enum
        cases found.symm.trans found'
        cases parts
        obtain ⟨v', f, zero', field, rfl⟩ := mem_contents_enum.mp inside
        cases zero'.symm.trans zero
        simp only [field] at rest
        exact ih rest

/-- What the empty values of a schema ask for is there. -/
structure Furnished (schema : Ir.Schema) : Prop where
  laid : ∀ e ∈ schema.encodings, Laid e
  wide : ∀ e ∈ schema.encodings, FloatWide e
  fields : ∀ m ∈ schema.allMessages, m.fields.any (·.absent) = false
  indexed : ∀ e ∈ schema.allEnums, e.Indexed
  inhabited : ∀ e ∈ schema.allEnums, e.variants ≠ []

theorem exists_threaded {α σ : Type} {step : α → σ → σ → Prop} {as : List α}
    (steps : ∀ a ∈ as, ∀ s, ∃ s', step a s s') (s : σ) : ∃ s', Threaded step as s s' := by
  induction as generalizing s with
  | nil => exact ⟨s, rfl⟩
  | cons a as ih =>
    obtain ⟨here, later⟩ := forall_mem_cons.mp steps
    obtain ⟨s₁, first⟩ := here s
    obtain ⟨s₂, rest⟩ := ih later s₁
    exact ⟨s₂, s₁, first, rest⟩

theorem exists_writeLength (laid : Laid enc)
    (kind : enc.native.kind ∈ [.string, .bytes, .array, .map]) (w : BitWriter) :
    ∃ w', Succeeds (writeLength enc 0) w () w' :=
  ⟨_, succeeds_writeLength.mpr ⟨(laid.lengths kind).2, Nat.two_pow_pos _, rfl⟩⟩

section

variable {recur : Encoding → Value → Value → Encoder} {w : BitWriter}

theorem encodeMessage_empty {m : Ir.Message} (present : m.fields.any (·.absent) = false)
    (inner : ∀ e ∈ contents (.inl m), ∀ w, ∃ w', Succeeds (recur e .null .null) w () w')
    (w : BitWriter) : ∃ w', Succeeds (encodeMessage recur m [] []) w () w' := by
  have each : ∀ f ∈ sortedFields m, ∀ w, ∃ w', EncodesField recur [] [] f w w' := fun f mem =>
    inner f.encoding (mem_map_of_mem ((mergeSort_perm _ _).mem_iff.mp mem))
  obtain ⟨w', fields⟩ := exists_threaded each w
  exact ⟨w', succeeds_encodeMessage.mpr ⟨present, fields⟩⟩

theorem encodeEnum_empty {d : Ir.Descriptor} {e : Ir.Enum} (indexed : e.Indexed)
    (some : e.variants ≠ []) (found : schema.findEnum d = .ok (.some e))
    (inner : ∀ e' ∈ contents (.inr e), ∀ w, ∃ w', Succeeds (recur e' .null .null) w () w')
    (w : BitWriter) : ∃ w', Succeeds (encodeEnum schema recur enc d .null) w () w' := by
  obtain ⟨v, -, zero, -⟩ := zeroVariant_spec indexed.present some
  obtain ⟨w₁, index⟩ : ∃ w₁, Succeeds
      (Encoder.word v.index.toUInt64 e.discriminant.wire.bits.toNat) w () w₁ :=
    ⟨_, succeeds_word.mpr ⟨indexed.discriminant.2, rfl⟩⟩
  cases field : v.field with
  | none =>
    refine ⟨w₁, succeeds_encodeEnum.mpr ⟨e, [], .null, v, w₁, found, rfl, zero, index, ?_⟩⟩
    simp [field, Value.isNull]
  | some f =>
    obtain ⟨w', payload⟩ := inner f.encoding (mem_contents_enum.mpr ⟨v, f, zero, field, rfl⟩) w₁
    refine ⟨w', succeeds_encodeEnum.mpr ⟨e, [], .null, v, w₁, found, rfl, zero, index, ?_⟩⟩
    simp only [field]
    exact payload

end

/-- With as much fuel as there are definitions to go through, the empty value is written. -/
theorem encodes_of_writable (furnished : Furnished schema) (mem : enc ∈ schema.encodings)
    (writable : Writable schema enc) (enough : height schema enc < fuel) (w : BitWriter) :
    ∃ w', Succeeds (encodeValue schema fuel enc .null .null) w () w' := by
  induction fuel generalizing enc w with
  | zero => omega
  | succ fuel ih =>
    have laid := furnished.laid enc mem
    -- Whatever the empty value holds is written with one unit of fuel less.
    have inner : ∀ x ∈ referent schema enc, ∀ e ∈ contents x, ∀ w,
        ∃ w', Succeeds (encodeValue schema fuel e .null .null) w () w' := by
      intro x refers e inside w
      have step : Unfolds schema enc e := ⟨x, refers, inside⟩
      obtain ⟨-, below⟩ := writable
      have lower := height_lt (not_transGen_of_acc (writable_iff.mp (below e step)).1) step
      exact ih (contents_subset refers inside) (below e step) (by omega) w
    have body : ∃ w', Succeeds
        (encodeBody schema (encodeValue schema fuel) enc .null .null) w () w' := by
      cases kind : enc.native.kind with
      | bool =>
        have narrow := (laid.bits (by simp [kind])).2
        exact ⟨_, (succeeds_encodeBody_bool kind).mpr ⟨false, rfl, succeeds_word.mpr ⟨narrow, rfl⟩⟩⟩
      | int | float =>
        obtain ⟨⟨here, -⟩, -⟩ := writable
        obtain ⟨w', number⟩ :=
          encodeNumber_null laid (furnished.wide enc mem) (by simp [kind]) here w
        exact ⟨w', (succeeds_encodeBody_number (by simp [kind])).mpr number⟩
      | string =>
        obtain ⟨w', length⟩ := exists_writeLength laid (by simp [kind]) w
        exact ⟨_, (succeeds_encodeBody_string kind).mpr
          ⟨[], rfl, succeeds_writeOctets.mpr ⟨w', length, rfl⟩⟩⟩
      | bytes =>
        obtain ⟨w', length⟩ := exists_writeLength laid (by simp [kind]) w
        exact ⟨_, (succeeds_encodeBody_bytes kind).mpr
          ⟨[], rfl, succeeds_writeOctets.mpr ⟨w', length, rfl⟩⟩⟩
      | array =>
        obtain ⟨w', length⟩ := exists_writeLength laid (by simp [kind]) w
        exact ⟨w', (succeeds_encodeBody_array kind).mpr ⟨[], w', rfl, length, .inl ⟨rfl, rfl⟩⟩⟩
      | map =>
        obtain ⟨w', length⟩ := exists_writeLength laid (by simp [kind]) w
        exact ⟨w', (succeeds_encodeBody_map kind).mpr ⟨[], w', rfl, length, .inl ⟨rfl, rfl⟩⟩⟩
      | message =>
        obtain ⟨⟨-, refers⟩, -⟩ := writable
        obtain ⟨x, refers⟩ := Option.isSome_iff_exists.mp (refers (by simp [kind]))
        rcases referent_cases refers with ⟨d, m, -, descriptor, found, rfl⟩ | ⟨-, -, other, -⟩
        · have present := furnished.fields m (Ir.Schema.mem_allMessages found)
          obtain ⟨w', message⟩ := encodeMessage_empty present (inner _ refers) w
          exact ⟨w', (succeeds_encodeBody_message kind).mpr
            ⟨d, m, [], descriptor, found, rfl, message⟩⟩
        · cases kind.symm.trans other
      | enum =>
        obtain ⟨⟨-, refers⟩, -⟩ := writable
        obtain ⟨x, refers⟩ := Option.isSome_iff_exists.mp (refers (by simp [kind]))
        rcases referent_cases refers with ⟨-, -, other, -⟩ | ⟨d, e, -, descriptor, found, rfl⟩
        · cases kind.symm.trans other
        · have inside := Ir.Schema.mem_allEnums found
          obtain ⟨w', enum⟩ := encodeEnum_empty (furnished.indexed e inside)
            (furnished.inhabited e inside) found (inner _ refers) w
          exact ⟨w', (succeeds_encodeBody_enum kind).mpr ⟨d, descriptor, enum⟩⟩
      | other name =>
        have known := laid.kind
        simp [kind, Ir.NativeKind.known] at known
    obtain ⟨w₁, body⟩ := body
    exact ⟨_, succeeds_encodeWith.mpr ⟨w₁, body, rfl⟩⟩

/-- The empty message of a schema is written exactly if it ends, its references lead somewhere and
its transforms are accepted. -/
theorem marshal_empty (furnished : Furnished schema) {d : Ir.Descriptor} {m : Ir.Message}
    (found : schema.findMessage d = .ok (some m)) :
    (∃ data, marshal schema d [] = .ok data) ↔ Writable schema (embed d) := by
  have refers : referent schema (embed d) = some (.inl m) := referent_message rfl rfl found
  have run : (∃ data, marshal schema d [] = .ok data) ↔ ∃ w', Succeeds (encodeMessage
      (encodeValue schema (encodeFuel schema [])) m [] []) BitWriter.empty () w' := by
    simp only [marshal_ok_iff, encode, found]
    constructor
    · rintro ⟨data, w', ok, -⟩
      exact ⟨w', ok⟩
    · rintro ⟨w', ok⟩
      exact ⟨_, w', ok, rfl⟩
  rw [run]
  constructor
  · rintro ⟨w', ok⟩
    refine .intro ⟨fun kind => by simp [embed] at kind, fun _ => by rw [refers]; rfl⟩
      fun e step => ?_
    obtain ⟨x, refers', inside⟩ := step
    cases refers.symm.trans refers'
    obtain ⟨f, field, rfl⟩ := mem_map.mp inside
    obtain ⟨-, fields⟩ := succeeds_encodeMessage.mp ok
    obtain ⟨w₂, w₃, written⟩ :=
      step_of_threaded fields ((mergeSort_perm _ _).mem_iff.mpr field)
    exact writable_of_encodes written
  · rintro ⟨-, below⟩
    refine encodeMessage_empty (furnished.fields m (Ir.Schema.mem_allMessages found)) ?_ _
    intro e inside
    have few := height_le schema e
    refine encodes_of_writable furnished (contents_subset refers inside)
      (below e ⟨_, refers, inside⟩) ?_
    unfold encodeFuel
    have two : (Value.message []).depth + 1 = 2 := rfl
    rw [two]
    omega

end

end Codec

end BitSchema
