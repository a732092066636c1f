import BitSchema.Proofs.AssignedIndices
import BitSchema.Proofs.BitSequences
import BitSchema.Proofs.DecoderSteps

/-!
# Widths of discriminants

The discriminant of an enum is as wide as the least tier that holds every index of it, and as many
values as it has variants.  An index that fits is read back from where it was written, whatever was
written before and after it.
-/

namespace BitSchema

open List

/-! ## The least tier -/

/-- A value that fits any tier has the least one that it fits. -/
theorem isLeast_discriminantWidth {n : Nat} (small : n < 2 ^ 64) :
    IsLeast {width | width ∈ discriminantTiers ∧ n < 2 ^ width} (discriminantWidth n) := by
  have found : (discriminantTiers.find? (bitLength n ≤ ·)).isSome := by
    rw [find?_isSome]
    exact ⟨64, by decide, decide_eq_true (bitLength_le_iff.mpr small)⟩
  obtain ⟨width, found⟩ := Option.isSome_iff_exists.mp found
  rw [discriminantWidth, found, Option.getD_some]
  refine ⟨⟨mem_of_find?_eq_some found, ?_⟩, fun other fits => ?_⟩
  · have holds := find?_some found
    rwa [decide_eq_true_iff, bitLength_le_iff] at holds
  · -- The tiers ascend, so the first that fits is the least.
    obtain ⟨-, before, after, tiers, early⟩ := find?_eq_some_iff_append.mp found
    have ascending : discriminantTiers.Pairwise (· < ·) := by decide
    have mem := fits.1
    rw [tiers] at ascending mem
    rcases mem_append.mp mem with mem | mem
    · have wide := early other mem
      rw [Bool.not_eq_true', decide_eq_false_iff_not, bitLength_le_iff] at wide
      exact absurd fits.2 wide
    · rcases mem_cons.mp mem with same | mem
      · exact same.ge
      · exact ((pairwise_cons.mp (pairwise_append.mp ascending).2.1).1 other mem).le

theorem foldl_max_lt_iff {ns : List Nat} {start bound : Nat} :
    ns.foldl max start < bound ↔ start < bound ∧ ∀ n ∈ ns, n < bound := by
  induction ns generalizing start with
  | nil => simp
  | cons first ns ih =>
    rw [foldl_cons, ih, forall_mem_cons, max_lt_iff, and_assoc]

namespace Lowering

/-- The width of a discriminant before it is made a word. -/
theorem toNat_discriminant_bits (indices : List UInt32) :
    (discriminant indices).wire.bits.toNat =
      discriminantWidth ((indices.map UInt32.toNat).foldl max (max indices.length 2 - 1)) := by
  unfold discriminant Ir.WireFormat.ofBits
  dsimp only
  generalize (indices.map UInt32.toNat).foldl max (max indices.length 2 - 1) = largest
  obtain ⟨-, narrow, -⟩ := discriminantWidth_spec largest
  exact UInt32.toNat_ofNat_of_lt' (by change _ < 2 ^ 32; omega)

/-- A discriminant has the least tier that holds the indices and the number of the last variant. -/
theorem isLeast_discriminant {indices : List UInt32} (few : indices.length ≤ 2 ^ 32) :
    IsLeast {width | width ∈ [8, 16, 32, 64] ∧ indices.length - 1 < 2 ^ width ∧
        ∀ i ∈ indices, i.toNat < 2 ^ width} (discriminant indices).wire.bits.toNat := by
  rw [toNat_discriminant_bits]
  have small : (indices.map UInt32.toNat).foldl max (max indices.length 2 - 1) < 2 ^ 64 := by
    rw [foldl_max_lt_iff, forall_mem_map]
    exact ⟨by omega, fun i _ => i.toNat_lt.trans (by decide)⟩
  convert isLeast_discriminantWidth small using 1
  ext width
  rw [Set.mem_ofPred_eq, Set.mem_ofPred_eq, foldl_max_lt_iff, forall_mem_map]
  refine and_congr_right fun tier => and_congr_left fun _ => ?_
  -- One variant more or less changes nothing below the first tier.
  have wide : 2 ≤ 2 ^ width := Nat.le_self_pow (by rintro rfl; simp at tier) 2
  omega

/-- Indices below the number of variants do not widen a discriminant. -/
theorem discriminant_eq_discriminantBits {indices : List UInt32}
    (below : ∀ i ∈ indices, i.toNat < max indices.length 2) :
    (discriminant indices).wire.bits.toNat = discriminantBits indices.length := by
  rw [toNat_discriminant_bits, discriminantBits]
  congr 1
  refine Nat.le_antisymm (Nat.le_of_lt_succ ?_) (le_foldl_max _ _).1
  rw [foldl_max_lt_iff, forall_mem_map]
  refine ⟨Nat.lt_succ_self _, fun i mem => ?_⟩
  have := below i mem
  omega

end Lowering

/-! ## Reading back -/

namespace Codec

/-- A word that fits is read back from where it was written, whatever is written after it. -/
theorem readWord_word {v : UInt64} {n : UInt32} (narrow : n.toNat ≤ 64)
    (fits : v.toNat < 2 ^ n.toNat) {w : BitWriter} (sound : w.Sound)
    (after : List BitWriter.Op) :
    ∃ w', Succeeds (Encoder.word v n.toNat) w () w' ∧
      Succeeds (readWord n) ⟨(w'.runAll after).toBytes, w.length⟩ v
        ⟨(w'.runAll after).toBytes, w'.length⟩ := by
  have written := sound.bits_writeBits v.toNat n.toNat
  obtain ⟨last, bits⟩ := (sound.writeBits v.toNat n.toNat).runAll after
  refine ⟨w.writeBits v.toNat n.toNat, succeeds_word.mpr ⟨narrow, rfl⟩, ?_⟩
  generalize (w.writeBits v.toNat n.toNat).runAll after = final at last bits ⊢
  have next : ∃ rest, (⟨final.toBytes, w.length⟩ : BitReader).unread =
      bitsOf v.toNat n.toNat ++ rest := by
    rw [BitReader.unread, last.toBytes_eq_pack, octetBits_pack, bits, written, append_assoc,
      append_assoc, drop_left' w.length_bits]
    exact ⟨_, rfl⟩
  obtain ⟨rest, next⟩ := next
  have count : (w.writeBits v.toNat n.toNat).length = w.length + n.toNat := by
    rw [← BitWriter.length_bits, written, length_append, BitWriter.length_bits, length_bitsOf]
  rw [succeeds_readWord, next, length_append, take_left' (length_bitsOf _ _),
    length_bitsOf, valueOf_bitsOf, Nat.mod_eq_of_lt fits, UInt64.ofNat_toNat, count]
  exact ⟨narrow, Nat.le_add_right _ _, rfl, rfl⟩

end Codec

/-! ## Enums of a source -/

/-- A variant keeps the index that it is given. -/
theorem Assigned.kept_variant {e : Source.Enum} {lowered : Ir.Enum}
    (assigned : Assigned (e.variants.map fun v => v.index.map (·.value))
      (lowered.variants.map (·.index)))
    (names : lowered.variants.map (·.name) = e.variants.map (·.name.value)) :
    ∀ v ∈ e.variants, ∀ given ∈ v.index,
      ∃ l ∈ lowered.variants, l.name = v.name.value ∧ l.index.toNat = given.value.toNat := by
  intro v mem given isGiven
  obtain ⟨n, place⟩ := mem_iff_getElem?.mp mem
  have name := congrArg (·[n]?) names
  simp only [getElem?_map, place, Option.map_some] at name
  obtain ⟨l, found, name⟩ := Option.map_eq_some_iff.mp name
  refine ⟨l, mem_of_getElem? found, name, assigned.kept n given.value l.index ?_ ?_⟩
  · rw [getElem?_map, place, Option.map_some, Option.mem_def.mp isGiven, Option.map_some]
  · rw [getElem?_map, found, Option.map_some]

/-- The discriminant of an enum of a source without errors in its indices.  Variants keep the
indices they are given; the width is the least tier that holds every index and the number of
variants less one; every index is read back through it; and it depends on the number of variants
alone where all indices are below that number, or below two. -/
theorem discriminant_of_parse {file : String} {source : ByteArray} {schema : Source.Schema}
    (ok : Source.Schema.parse file source = .ok schema) {e : Source.Enum}
    (mem : e ∈ schema.allEnums) (clean : ErrorFree (checkEnumIndices e)) {table : SymbolTable}
    {scope : Descriptor} {lowered : Ir.Enum} (lowers : Lowering.enum table scope e = .ok lowered) :
    lowered.discriminant.wire.kind = .bits ∧ lowered.variants.length = e.variants.length ∧
    (∀ v ∈ e.variants, ∀ given ∈ v.index,
      ∃ l ∈ lowered.variants, l.name = v.name.value ∧ l.index.toNat = given.value.toNat) ∧
    IsLeast {width | width ∈ [8, 16, 32, 64] ∧ e.variants.length - 1 < 2 ^ width ∧
        ∀ l ∈ lowered.variants, l.index.toNat < 2 ^ width}
      lowered.discriminant.wire.bits.toNat ∧
    (∀ l ∈ lowered.variants, ∀ w : BitWriter, w.Sound → ∀ after : List BitWriter.Op,
      ∃ w', Succeeds (Codec.Encoder.word l.index.toUInt64 lowered.discriminant.wire.bits.toNat)
          w () w' ∧
        Succeeds (Codec.readWord lowered.discriminant.wire.bits)
          ⟨(w'.runAll after).toBytes, w.length⟩ l.index.toUInt64
          ⟨(w'.runAll after).toBytes, w'.length⟩) ∧
    ((∀ l ∈ lowered.variants, l.index.toNat < max e.variants.length 2) →
      lowered.discriminant.wire.bits.toNat = discriminantBits e.variants.length) := by
  have made := Lowering.enum_ok lowers
  have discriminant := made.width
  obtain ⟨-, distinct, narrow⟩ := variants_of_checkEnumIndices clean
  have few := Source.indexable_of_parse ok e mem
  have assigned := assigned_assignIndices (by rwa [length_map]) narrow distinct
  rw [← made.indices] at discriminant assigned
  have count : (lowered.variants.map (·.index)).length = e.variants.length := by
    rw [assigned.length, length_map]
  have least := Lowering.isLeast_discriminant (by rwa [count])
  obtain ⟨⟨-, word⟩, holds⟩ := discriminant_spec (lowered.variants.map (·.index))
  have plain := @Lowering.discriminant_eq_discriminantBits (lowered.variants.map (·.index))
  rw [← discriminant] at least word holds plain
  simp only [count, forall_mem_map] at least holds plain
  refine ⟨by rw [discriminant]; rfl, by rwa [length_map] at count,
    assigned.kept_variant made.names, least, fun l inside w sound after => ?_,
    plain⟩
  refine Codec.readWord_word word ?_ sound after
  rw [UInt32.toNat_toUInt64]
  exact holds l inside

/-- An enum inside a message whose second variant needs a second octet. -/
def sparseSource : ByteArray :=
  "package a; message M \x7b enum E \x7b A; 300: B; C; \x7d E e; \x7d".toUTF8

theorem discriminant_of_parse_sparse :
    ∃ schema, Source.Schema.parse "m" sparseSource = .ok schema ∧
      ∃ e ∈ schema.allEnums, ErrorFree (checkEnumIndices e) ∧
        ∃ lowered, Lowering.enum {} {} e = .ok lowered ∧
          lowered.variants.map (·.index) = [0, 300, 1] ∧
          lowered.discriminant.wire.bits.toNat = 16 ∧ discriminantBits e.variants.length = 8 ∧
          IsLeast {width | width ∈ [8, 16, 32, 64] ∧ e.variants.length - 1 < 2 ^ width ∧
              ∀ l ∈ lowered.variants, l.index.toNat < 2 ^ width}
            lowered.discriminant.wire.bits.toNat := by
  have run : ∃ schema ∈ (Source.Schema.parse "m" sparseSource).toOption,
      ∃ e ∈ schema.allEnums, (∀ d ∈ checkEnumIndices e, d.isError = false) ∧
        ∃ lowered ∈ (Lowering.enum {} {} e).toOption,
          lowered.variants.map (·.index) = [0, 300, 1] ∧
            lowered.discriminant.wire.bits.toNat = 16 ∧
            discriminantBits e.variants.length = 8 := by
    decide +kernel
  obtain ⟨schema, read, e, mem, clean, lowered, lowers, indices, width, bits⟩ := run
  have ok := toOption_eq_some_iff.mp read
  have lowers := toOption_eq_some_iff.mp lowers
  exact ⟨schema, ok, e, mem, clean, lowered, lowers, indices, width, bits,
    (discriminant_of_parse ok mem clean lowers).2.2.2.1⟩

end BitSchema
