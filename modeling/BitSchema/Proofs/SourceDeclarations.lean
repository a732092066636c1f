import BitSchema.Proofs.SourceSpans

/-!
# Declarations of a source

The names of declared types are identifiers: a source that is parsed gives no type an empty name, or
a name with a dot in it.  And a source of bounded length has messages and enums of bounded size:
what they hold has spans of its own.
-/

namespace BitSchema.Source

open List

/-! ## Names of declared types -/

mutual
/-- The name of a message and of all types declared in it. -/
def Message.typeNames : Message → List String
  | ⟨_, _, name, members⟩ => name.value :: typeNamesIn members
def typeNamesIn : List Member → List String
  | [] => []
  | m :: ms => m.typeNames ++ typeNamesIn ms
def Member.typeNames : Member → List String
  | .field _ => []
  | .message m => m.typeNames
  | .enum e => [e.name.value]
end

def Item.typeNames : Item → List String
  | .message m => m.typeNames
  | .enum e => [e.name.value]
  | _ => []

/-- The names of the types that a source declares, at any depth. -/
def Schema.typeNames (s : Schema) : List String := s.items.flatMap Item.typeNames

theorem Message.spelling_of_typeNames (m : Message) {name : String} (mem : name ∈ m.typeNames) :
    ∃ i : Ident, i.value = name ∧ i.spelling ∈ m.spellings := by
  induction m using Message.induct with
  | step span doc own members ih =>
    rw [Message.typeNames, mem_cons] at mem
    rw [Message.spellings]
    rcases mem with rfl | mem
    · exact ⟨own, rfl, mem_cons_self⟩
    · refine Exists.imp (fun i => And.imp_right (mem_cons_of_mem _)) ?_
      induction members with
      | nil => cases mem
      | cons member members rest =>
        simp only [spellingsIn, mem_append]
        rcases mem_append.mp mem with here | later
        · refine Exists.imp (fun i => And.imp_right .inl) ?_
          cases member with
          | field f => cases here
          | message m => exact ih m mem_cons_self here
          | enum e => exact ⟨e.name, (mem_singleton.mp here).symm, mem_cons_self⟩
        · exact (rest (fun m mem => ih m (mem_cons_of_mem _ mem)) later).imp fun i =>
            And.imp_right .inr

variable {file : String} {source : ByteArray} {schema : Schema}

/-- No type of a source has an empty name or a name with a dot. -/
theorem isPart_of_parse (ok : Schema.parse file source = .ok schema) :
    ∀ name ∈ schema.typeNames, IsPart name := by
  obtain ⟨-, -, spelled⟩ := spelled_of_parse ok
  intro name mem
  obtain ⟨item, declared, mem⟩ := mem_flatMap.mp mem
  have named : ∃ i : Ident, i.value = name ∧ i.spelling ∈ item.spellings := by
    cases item with
    | message m => exact m.spelling_of_typeNames mem
    | enum e => exact ⟨e.name, (mem_singleton.mp mem).symm, mem_cons_self⟩
    | package p | inclusion i => cases mem
  obtain ⟨i, rfl, inside⟩ := named
  exact (spelled i.spelling (mem_flatMap.mpr ⟨item, declared, inside⟩)).2 rfl

/-! ## Sizes of declarations -/

mutual
/-- A message and those declared in it, at any depth. -/
def Message.allMessages : Message → List Message
  | ⟨span, doc, name, members⟩ => ⟨span, doc, name, members⟩ :: messagesIn members
def messagesIn : List Member → List Message
  | [] => []
  | m :: ms => m.allMessages ++ messagesIn ms
def Member.allMessages : Member → List Message
  | .message m => m.allMessages
  | _ => []
end

def Item.allMessages : Item → List Message
  | .message m => m.allMessages
  | _ => []

/-- The messages that a source declares, at any depth. -/
def Schema.allMessages (s : Schema) : List Message := s.items.flatMap Item.allMessages

/-- Nodes that are not empty take up room. -/
theorem Outline.NestedIn.length_le {lo hi : Nat} {os : List Outline} (nested : NestedIn lo hi os) :
    lo + os.length ≤ hi := by
  induction os generalizing lo with
  | nil => exact nestedIn_nil.mp nested
  | cons o os ih =>
    obtain ⟨after, inside, -, rest⟩ := nestedIn_cons.mp nested
    have := ih rest
    rw [length_cons]
    omega

/-- Declarations that are nested and end early enough. -/
structure EndBy (n : Nat) (ms : List Message) (es : List Enum) : Prop where
  messages : ∀ m ∈ ms, m.outline.Nested ∧ m.outline.span.stop ≤ n
  enums : ∀ e ∈ es, e.outline.Nested ∧ e.outline.span.stop ≤ n

theorem Message.endBy (m : Message) {n : Nat} (nested : m.outline.Nested)
    (within : m.outline.span.stop ≤ n) : EndBy n m.allMessages m.allEnums := by
  induction m using Message.induct with
  | step span doc name members ih =>
    have below := Outline.nested_iff.mp nested
    rw [Message.outline, Outline.children, Outline.nestedIn_cons] at below
    obtain ⟨-, -, -, below⟩ := below
    rw [Message.allMessages, Message.allEnums]
    suffices inner : EndBy n (messagesIn members) (enumsIn members) from
      ⟨forall_mem_cons.mpr ⟨⟨nested, within⟩, inner.messages⟩, inner.enums⟩
    clear nested
    generalize name.outline.span.stop = lo at below
    induction members generalizing lo with
    | nil => exact ⟨forall_mem_nil _, forall_mem_nil _⟩
    | cons member members others =>
      rw [outlineMembers, Outline.nestedIn_cons] at below
      obtain ⟨-, -, here, later⟩ := below
      have within' := later.le.trans within
      have rest := others (fun m mem => ih m (mem_cons_of_mem _ mem)) within _ later
      rw [messagesIn, enumsIn]
      cases member with
      | field f => exact rest
      | message m =>
        have first := ih m mem_cons_self here within'
        exact ⟨forall_mem_append.mpr ⟨first.messages, rest.messages⟩,
          forall_mem_append.mpr ⟨first.enums, rest.enums⟩⟩
      | enum e => exact ⟨rest.messages, forall_mem_cons.mpr ⟨⟨here, within'⟩, rest.enums⟩⟩

section

variable (ok : Schema.parse file source = .ok schema)

include ok

theorem endBy_of_parse : EndBy (2 ^ 24) schema.allMessages schema.allEnums := by
  obtain ⟨short, -⟩ := parse_ok ok
  obtain ⟨-, nested, -⟩ := placed_of_parse ok
  have each : ∀ item ∈ schema.items, EndBy (2 ^ 24) item.allMessages item.allEnums := by
    intro item mem
    obtain ⟨-, -, within, here⟩ := nested.forall _ (mem_map_of_mem mem)
    have within := within.trans short
    cases item with
    | package p | inclusion i => exact ⟨by simp [Item.allMessages], by simp [Item.allEnums]⟩
    | message m => exact m.endBy here within
    | enum e => exact ⟨by simp [Item.allMessages], forall_mem_singleton.mpr ⟨here, within⟩⟩
  refine ⟨fun m mem => ?_, fun e mem => ?_⟩
  · obtain ⟨item, inside, mem⟩ := mem_flatMap.mp mem
    exact (each item inside).messages m mem
  · obtain ⟨item, inside, mem⟩ := mem_flatMap.mp mem
    exact (each item inside).enums e mem

/-- The messages of a source have no more fields than there are indices: each of their members
takes up an octet of the source at least. -/
theorem fields_of_parse : ∀ m ∈ schema.allMessages, m.fields.length ≤ 2 ^ 32 := by
  intro m mem
  obtain ⟨nested, stop⟩ := (endBy_of_parse ok).messages m mem
  have few := (Outline.nested_iff.mp nested).length_le
  obtain ⟨span, doc, name, members⟩ := m
  have some : (members.filterMap Member.field?).length ≤ members.length :=
    length_filterMap_le _ _
  rw [Message.outline] at few stop
  simp only [Outline.span, Outline.children, length_cons, Phrase.outlineMembers_eq,
    length_map] at few stop
  change (members.filterMap Member.field?).length ≤ 2 ^ 32
  omega

/-- The enums of a source have no more variants than there are indices. -/
theorem indexable_of_parse : Indexable schema.allEnums := by
  intro e mem
  obtain ⟨nested, stop⟩ := (endBy_of_parse ok).enums e mem
  have few := (Outline.nested_iff.mp nested).length_le
  simp only [Enum.outline, Outline.span, Outline.children, length_cons, length_map] at few stop
  omega

end

end BitSchema.Source
