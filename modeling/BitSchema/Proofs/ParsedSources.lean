import BitSchema.Proofs.Outcome
import BitSchema.Source.Parse

/-!
# Parsed sources

What it takes for a source to be read, and the enums that it declares.
-/

namespace BitSchema.Source

/-- A source that is read is not too long, and its characters have a derivation. -/
theorem parse_ok {file : String} {source : ByteArray} {schema : Schema}
    (ok : Schema.parse file source = .ok schema) :
    source.size ≤ maxLength ∧ ∃ chars d, Octets.chars? source.toList = some chars ∧
      derive file chars = .ok d ∧
      Schema.ofDerivation ⟨file, 0, source.size, 1, 1⟩ d = .ok schema := by
  unfold Schema.parse at ok
  by_cases long : maxLength < source.size
  · rw [if_pos long] at ok
    cases ok
  · rw [if_neg long] at ok
    dsimp only at ok
    split at ok
    next => cases ok
    next chars found =>
      obtain ⟨d, derived, read⟩ := bind_ok_iff.mp ok
      exact ⟨Nat.le_of_not_lt long, chars, d, found, derived, mapError_ok_iff.mp read⟩

/-! ## Enums of a source -/

mutual
/-- The enums that a message declares, at any depth. -/
def Message.allEnums : Message → List Enum
  | ⟨_, _, _, members⟩ => enumsIn members
def enumsIn : List Member → List Enum
  | [] => []
  | m :: ms => m.allEnums ++ enumsIn ms
def Member.allEnums : Member → List Enum
  | .field _ => []
  | .message m => m.allEnums
  | .enum e => [e]
end

def Item.allEnums : Item → List Enum
  | .message m => m.allEnums
  | .enum e => [e]
  | _ => []

/-- The enums that a source declares, at any depth. -/
def Schema.allEnums (s : Schema) : List Enum := s.items.flatMap Item.allEnums

/-- None of these enums has more variants than there are indices. -/
def Indexable (es : List Enum) : Prop := ∀ e ∈ es, e.variants.length ≤ 2 ^ 32

end BitSchema.Source
