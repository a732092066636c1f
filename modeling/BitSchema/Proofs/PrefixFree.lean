import BitSchema.Proofs.Canonical
import BitSchema.Proofs.Termination

/-!
# Data with more data after it

The decoder looks only at the bits that it reads, apart from checks that enough of them are left.
So what it reads from some bytes it reads from longer ones that begin with them, and stops at the
same bit (`Stable`).  A whole message fills its bytes up to the last one, and so none of its proper
prefixes and none of its proper extensions is a whole message.
-/

namespace BitSchema

open List

/-! ## Readers of longer data -/

namespace BitReader

/-- The reader with more bytes after its own. -/
def extend (r : BitReader) (extra : Array UInt8) : BitReader := { r with bytes := r.bytes ++ extra }

/-- The reader stands among its bytes or at their end. -/
def Inside (r : BitReader) : Prop := r.position ≤ 8 * r.bytes.size

variable {r : BitReader} {n : Nat}

theorem Inside.unread_extend (inside : r.Inside) (extra : Array UInt8) :
    (r.extend extra).unread = r.unread ++ octetBits extra.toList := by
  have short : r.position ≤ (octetBits r.bytes.toList).length := by
    rw [length_octetBits, Array.length_toList]
    exact inside
  rw [unread, unread, extend, Array.toList_append, octetBits_append, drop_append_of_le_length short]

theorem Inside.take_unread_extend (inside : r.Inside) (extra : Array UInt8)
    (held : n ≤ r.unread.length) : (r.extend extra).unread.take n = r.unread.take n := by
  rw [inside.unread_extend, take_append_of_le_length held]

theorem Inside.advance (inside : r.Inside) (held : n ≤ r.unread.length) : (r.advance n).Inside := by
  have places : r.unread.length = 8 * r.bytes.size - r.position := r.remaining_eq.symm
  rw [Inside] at inside ⊢
  rw [position_advance, bytes_advance]
  omega

end BitReader

namespace Codec

open Ir (Encoding)
open Decoder (under ofRead)

/-! ## Stable steps -/

/-- A step that succeeds does the same if more bytes follow. -/
def Stable {α : Type} (x : Decoder α) : Prop :=
  ∀ r a r', r.Inside → Succeeds x r a r' →
    r'.Inside ∧ ∀ extra, Succeeds x (r.extend extra) a (r'.extend extra)

section

variable {α β : Type} {x : Decoder α}

theorem stable_pure (a : α) : Stable (pure a) := by
  intro r a' r' inside ok
  obtain ⟨rfl, rfl⟩ := succeeds_pure.mp ok
  exact ⟨inside, fun extra => succeeds_pure.mpr ⟨rfl, rfl⟩⟩

theorem stable_throw (fault : Fault) : Stable (throw fault : Decoder α) :=
  fun _ _ _ _ ok => (succeeds_throw.mp ok).elim

theorem Stable.bind (stable : Stable x) {f : α → Decoder β} (next : ∀ a, Stable (f a)) :
    Stable (x >>= f) := by
  intro r b r'' inside ok
  obtain ⟨a, r', first, second⟩ := succeeds_bind.mp ok
  obtain ⟨inside', first⟩ := stable r a r' inside first
  obtain ⟨inside'', second⟩ := next a r' b r'' inside' second
  exact ⟨inside'', fun extra => succeeds_bind.mpr ⟨a, _, first extra, second extra⟩⟩

theorem Stable.under (stable : Stable x) (step : Step) : Stable (under step x) := by
  intro r a r' inside ok
  obtain ⟨inside', more⟩ := stable r a r' inside (Decoder.succeeds_under.mp ok)
  exact ⟨inside', fun extra => Decoder.succeeds_under.mpr (more extra)⟩

end

/-! ## Words, counts and octets -/

theorem stable_readWord (n : UInt32) : Stable (readWord n) := by
  intro r v r' inside ok
  obtain ⟨narrow, held, rfl, rfl⟩ := succeeds_readWord.mp ok
  refine ⟨inside.advance held, fun extra => succeeds_readWord.mpr ⟨narrow, ?_, ?_, rfl⟩⟩
  · rw [inside.unread_extend, length_append]
    omega
  · rw [inside.take_unread_extend extra held]

/-- A count that the data can hold is one that longer data can hold. -/
theorem CountHeld.extend {element : Encoding} {n : Nat} {r : BitReader} (inside : r.Inside)
    (held : CountHeld element n r) (extra : Array UInt8) :
    CountHeld element n (r.extend extra) := by
  unfold CountHeld at held ⊢
  by_cases some : 0 < minEncodedBits element
  · rw [if_pos some] at held ⊢
    refine held.trans (Nat.div_le_div_right ?_)
    rw [inside.unread_extend, length_append]
    exact Nat.le_add_right _ _
  · rw [if_neg some] at held ⊢
    exact held

theorem stable_readCount (enc element : Encoding) : Stable (readCount enc element) := by
  intro r n r' inside ok
  obtain ⟨v, read, rfl, held⟩ := succeeds_readCount.mp ok
  obtain ⟨inside', more⟩ := stable_readWord _ r v r' inside read
  exact ⟨inside', fun extra =>
    succeeds_readCount.mpr ⟨v, more extra, rfl, held.extend inside' extra⟩⟩

theorem stable_readBytes (n : Nat) : Stable (ofRead (BitReader.readBytes n)) := by
  intro r octets r' inside ok
  obtain ⟨length, content, rfl⟩ := BitReader.succeeds_readBytes.mp (Decoder.succeeds_ofRead.mp ok)
  have held : 8 * n ≤ r.unread.length := by
    have lengths := congrArg List.length content
    rw [length_octetBits, length_take, length] at lengths
    omega
  refine ⟨inside.advance held, fun extra => ?_⟩
  rw [Decoder.succeeds_ofRead, BitReader.succeeds_readBytes, inside.take_unread_extend extra held]
  exact ⟨length, content, rfl⟩

theorem stable_skipPadding (n : Nat) : Stable (ofRead (BitReader.skipPadding n)) := by
  intro r u r' inside ok
  obtain ⟨zeros, rfl⟩ := BitReader.succeeds_skipPadding.mp (Decoder.succeeds_ofRead.mp ok)
  have held : n ≤ r.unread.length := by
    have lengths := congrArg List.length zeros
    rw [length_take, length_replicate] at lengths
    omega
  refine ⟨inside.advance held, fun extra => ?_⟩
  rw [Decoder.succeeds_ofRead, BitReader.succeeds_skipPadding, inside.take_unread_extend extra held]
  exact ⟨zeros, rfl⟩

/-! ## Values -/

theorem kept_stable : Kept (fun _ => True) fun _ => Stable where
  pure := stable_pure
  throw _ := stable_throw _
  bind stable next := stable.bind next
  under step stable := stable.under step
  word := stable_readWord
  count := stable_readCount
  bytes := stable_readBytes
  padding := stable_skipPadding

/-- Data after a value do not change what is read. -/
theorem stable_decodeValue (schema : Ir.Schema) (fuel : Nat) (enc : Encoding) (base : Value) :
    Stable (decodeValue schema fuel enc base) := by
  induction fuel generalizing enc base with
  | zero => exact stable_throw _
  | succ fuel ih => exact kept_stable.decodeWith ih ⟨fun _ _ => trivial, .inl ⟨trivial, trivial⟩⟩

/-! ## Whole messages -/

variable {schema : Ir.Schema} {d : Ir.Descriptor} {bases : Fields} {v : Value}

/-- More data also means more fuel, which changes no result. -/
theorem stable_decode : Stable (decode schema d bases) := by
  intro r v r' inside ok
  obtain ⟨inside', more⟩ := stable_decodeValue _ _ _ _ r v r' inside (succeeds_decode.mp ok)
  refine ⟨inside', fun extra => succeeds_decode.mpr (decodeValue_mono ?_ (more extra))⟩
  have longer : r.remaining ≤ (r.extend extra).remaining := by
    rw [BitReader.remaining_eq, BitReader.remaining_eq, inside.unread_extend, length_append]
    exact Nat.le_add_right _ _
  exact Nat.succ_le_succ (Nat.mul_le_mul_right _ (Nat.succ_le_succ longer))

/-- A whole message leaves less than a byte unread, so it is none with a byte more. -/
theorem unmarshal_append {data extra : Array UInt8} (ok : unmarshal schema d data = .ok v)
    (more : extra ≠ #[]) : ∃ fault, unmarshal schema d (data ++ extra) = .error fault := by
  obtain ⟨r, read, -⟩ := unmarshal_ok_iff.mp ok
  obtain ⟨inside, longer⟩ := stable_decode ⟨data, 0⟩ v r (Nat.zero_le _) read
  cases result : unmarshal schema d (data ++ extra) with
  | error fault => exact ⟨fault, rfl⟩
  | ok v' =>
    obtain ⟨r', read', few, -⟩ := unmarshal_ok_iff.mp result
    obtain ⟨-, rfl⟩ := (longer extra).unique read'
    have some : extra.toList ≠ [] := by simpa using more
    have count := length_pos_of_ne_nil some
    rw [inside.unread_extend, length_append, length_octetBits] at few
    omega

/-- Reading is stable under extension, and whole messages are free of prefixes: a message that is
read from some bytes is read the same, and up to the same bit, when more bytes follow; but if it
filled the bytes then no bytes that are cut off, and none that go on, are a whole message. -/
theorem decode_prefixFree (schema : Ir.Schema) (d : Ir.Descriptor) (bases : Fields)
    (data : Array UInt8) :
    (∀ v r extra, Succeeds (decode schema d bases) ⟨data, 0⟩ v r →
      Succeeds (decode schema d bases) ⟨data ++ extra, 0⟩ v ⟨data ++ extra, r.position⟩) ∧
    ∀ v, unmarshal schema d data = .ok v →
      (∀ kept cut, kept ++ cut = data → cut ≠ #[] →
        ∃ fault, unmarshal schema d kept = .error fault) ∧
      ∀ extra, extra ≠ #[] → ∃ fault, unmarshal schema d (data ++ extra) = .error fault := by
  constructor
  · intro v r extra read
    obtain ⟨-, longer⟩ := stable_decode ⟨data, 0⟩ v r (Nat.zero_le _) read
    obtain ⟨n, -, rfl⟩ := moves_decodeValue _ _ _ _ _ _ _ (succeeds_decode.mp read)
    exact longer extra
  · intro v ok
    refine ⟨?_, fun extra more => unmarshal_append ok more⟩
    rintro kept cut rfl more
    cases result : unmarshal schema d kept with
    | error fault => exact ⟨fault, rfl⟩
    | ok v' =>
        obtain ⟨fault, refused⟩ := unmarshal_append result more
        rw [refused] at ok
        cases ok

/-- Two signals, the first with a level, fill two bytes. -/
theorem decode_prefixFree_signals :
    ∃ v, unmarshal signalSchema ⟨"p", [], "Log"⟩ #[242, 2] = .ok v ∧
      (∃ fault, unmarshal signalSchema ⟨"p", [], "Log"⟩ #[242] = .error fault) ∧
      (∃ fault, unmarshal signalSchema ⟨"p", [], "Log"⟩ #[242, 2, 0] = .error fault) ∧
      ∃ r, Succeeds (decode signalSchema ⟨"p", [], "Log"⟩ []) ⟨#[242, 2], 0⟩ v r ∧
        Succeeds (decode signalSchema ⟨"p", [], "Log"⟩ []) ⟨#[242, 2, 7], 0⟩ v
          ⟨#[242, 2, 7], r.position⟩ := by
  have read : (unmarshal signalSchema ⟨"p", [], "Log"⟩ #[242, 2]).isOk = true := by decide +kernel
  cases ok : unmarshal signalSchema ⟨"p", [], "Log"⟩ #[242, 2] with
  | error fault =>
      rw [ok] at read
      cases read
  | ok v =>
      obtain ⟨r, decoded, -⟩ := unmarshal_ok_iff.mp ok
      obtain ⟨stable, whole⟩ := decode_prefixFree signalSchema ⟨"p", [], "Log"⟩ [] #[242, 2]
      obtain ⟨shorter, longer⟩ := whole v ok
      exact ⟨v, rfl, shorter #[242] #[2] rfl (by decide), longer #[0] (by decide), r, decoded,
        stable v r #[7] decoded⟩

end Codec

end BitSchema
