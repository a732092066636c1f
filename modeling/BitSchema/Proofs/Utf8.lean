import BitSchema.Proofs.Octets

/-!
# Characters and their octets

Reading a text into pieces loses nothing: the octets of the pieces, one after the other, are the
text.  So the characters of a text that is UTF-8 encode to that text.  The other way around, the
octets of a string are read as its characters.
-/

namespace BitSchema.Octets

open List
open String (utf8EncodeChar)

/-- A text is encoded character by character. -/
theorem ofString_ofList (cs : List Char) :
    ofString (String.ofList cs) = cs.flatMap utf8EncodeChar := by
  rw [ofString, String.toUTF8_eq_toByteArray, String.toByteArray_ofList, ByteArray.toList,
    toList_loop]
  simp [List.utf8Encode]

/-! ## Single characters -/

theorem toNat_val_ofNat {n : Nat} (valid : n.isValidChar) : (Char.ofNat n).val.toNat = n := by
  have same := Char.toNat_ofNat n
  rw [if_pos valid] at same
  exact same

theorem ofNat_eq (a : UInt8) {n : Nat} (same : n = a.toNat) : UInt8.ofNat n = a := by
  rw [same, UInt8.ofNat_toNat]

variable {a b c : UInt8}

/-- An ASCII octet is the encoding of its character. -/
theorem encode_single (small : a < 0x80) : utf8EncodeChar (Char.ofNat a.toNat) = [a] := by
  simp only [UInt8.lt_iff_toNat_lt, UInt8.toNat_ofNat] at small
  rw [utf8EncodeChar, toNat_val_ofNat (.inl (by omega)), if_pos (by omega), UInt8.ofNat_toNat]

/-- Two octets that belong together are the encoding of their character. -/
theorem encode_pair (pair : isPair a b = true) : utf8EncodeChar (pairChar a b) = [a, b] := by
  simp only [isPair, isTail, Bool.and_eq_true, decide_eq_true_eq, UInt8.le_iff_toNat_le,
    UInt8.toNat_ofNat] at pair
  rw [utf8EncodeChar, pairChar, tailBits, toNat_val_ofNat (.inl (by omega)), if_neg (by omega),
    if_pos (by omega), ofNat_eq a (by omega), ofNat_eq b (by omega)]

/-- Three octets that belong together are the encoding of their character. -/
theorem encode_triple (triple : isTriple a b c = true) :
    utf8EncodeChar (tripleChar a b c) = [a, b, c] := by
  simp only [isTriple, isTail, Bool.and_eq_true, Bool.or_eq_true, bne_iff_ne, decide_eq_true_eq,
    UInt8.le_iff_toNat_le, UInt8.toNat_ofNat, ne_eq, ← UInt8.toNat_inj] at triple
  have valid : ((a.toNat % 16 * 64 + b.toNat % 64) * 64 + c.toNat % 64).isValidChar := by
    unfold Nat.isValidChar
    omega
  rw [utf8EncodeChar, tripleChar, tailBits, tailBits, toNat_val_ofNat valid, if_neg (by omega),
    if_neg (by omega), if_pos (by omega), ofNat_eq a (by omega), ofNat_eq b (by omega),
    ofNat_eq c (by omega)]

/-- Four octets that belong together are the encoding of their character. -/
theorem encode_quad {d : UInt8} (quad : isQuad a b c d = true) :
    utf8EncodeChar (quadChar a b c d) = [a, b, c, d] := by
  simp only [isQuad, isTail, Bool.and_eq_true, Bool.or_eq_true, bne_iff_ne, decide_eq_true_eq,
    UInt8.le_iff_toNat_le, UInt8.toNat_ofNat, ne_eq, ← UInt8.toNat_inj] at quad
  have valid : (((a.toNat % 8 * 64 + b.toNat % 64) * 64 + c.toNat % 64) * 64 +
      d.toNat % 64).isValidChar := by
    unfold Nat.isValidChar
    omega
  rw [utf8EncodeChar, quadChar, tailBits, tailBits, tailBits, toNat_val_ofNat valid,
    if_neg (by omega), if_neg (by omega), if_neg (by omega), ofNat_eq a (by omega),
    ofNat_eq b (by omega), ofNat_eq c (by omega), ofNat_eq d (by omega)]

/-! ## Texts -/

/-- The octets of a piece. -/
def Piece.octets : Piece → Octets
  | .char c => utf8EncodeChar c
  | .stray b => [b]

/-- The pieces keep every octet. -/
theorem octets_piecesAfter (done : List Piece) (text : Octets) :
    (piecesAfter done text).flatMap Piece.octets = done.reverse.flatMap Piece.octets ++ text := by
  fun_induction piecesAfter done text with
  | case1 done => simp
  | case2 done a =>
    split
    next small => simp [Piece.octets, encode_single small]
    next => simp [Piece.octets]
  | case3 done a b rest small ih => simp [ih, Piece.octets, encode_single small]
  | case4 done a b rest _ pair ih => simp [ih, Piece.octets, encode_pair pair]
  | case5 done a b _ _ c rest triple ih => simp [ih, Piece.octets, encode_triple triple]
  | case6 done a b _ _ c _ d rest quad ih => simp [ih, Piece.octets, encode_quad quad]
  | case7 done a b _ _ c _ d rest _ ih | case8 done a b _ _ c _ ih | case9 done a b _ _ ih =>
    simp [ih, Piece.octets]

/-- The characters of a text that is UTF-8 encode to that text. -/
theorem encode_chars {text : Octets} {chars : List Char} (found : text.chars? = some chars) :
    chars.flatMap utf8EncodeChar = text := by
  simp only [chars?, Option.ite_none_right_eq_some, Option.some.injEq] at found
  obtain ⟨all, rfl⟩ := found
  have same : ∀ piece ∈ text.pieces, utf8EncodeChar piece.toChar = piece.octets := by
    intro piece mem
    have isChar := all_eq_true.mp all piece mem
    cases piece with
    | char c => rfl
    | stray b => cases isChar
  calc (text.pieces.map Piece.toChar).flatMap utf8EncodeChar
      = text.pieces.flatMap fun piece => utf8EncodeChar piece.toChar := flatMap_map ..
    _ = text.pieces.flatMap Piece.octets := flatMap_congr same
    _ = text := octets_piecesAfter [] text

/-! ## Reading characters back -/

theorem piecesAfter_single (small : a < 0x80) (done : List Piece) (rest : Octets) :
    piecesAfter done (a :: rest) = piecesAfter (.char (Char.ofNat a.toNat) :: done) rest := by
  rw [piecesAfter.eq_def]
  cases rest with
  | nil => simp only [small, if_true, piecesAfter]
  | cons b rest => simp only [small, if_true]

theorem piecesAfter_pair (pair : isPair a b = true) (done : List Piece) (rest : Octets) :
    piecesAfter done (a :: b :: rest) = piecesAfter (.char (pairChar a b) :: done) rest := by
  have large : ¬a < 0x80 := by
    simp only [isPair, Bool.and_eq_true, decide_eq_true_eq, UInt8.le_iff_toNat_le] at pair
    rw [UInt8.lt_iff_toNat_lt]
    simp only [UInt8.toNat_ofNat] at *
    omega
  rw [piecesAfter.eq_def]
  simp only [large, pair, if_true, if_false]

theorem piecesAfter_triple (triple : isTriple a b c = true) (done : List Piece) (rest : Octets) :
    piecesAfter done (a :: b :: c :: rest) =
      piecesAfter (.char (tripleChar a b c) :: done) rest := by
  have large : ¬a < 0x80 ∧ isPair a b = false := by
    simp only [isTriple, Bool.and_eq_true, decide_eq_true_eq, UInt8.le_iff_toNat_le] at triple
    simp only [isPair, isTail, UInt8.lt_iff_toNat_lt, Bool.and_eq_false_iff,
      decide_eq_false_iff_not, UInt8.le_iff_toNat_le]
    simp only [UInt8.toNat_ofNat] at *
    omega
  rw [piecesAfter.eq_def]
  simp only [large, triple, if_true, if_false, Bool.false_eq_true]

theorem piecesAfter_quad {d : UInt8} (quad : isQuad a b c d = true) (done : List Piece)
    (rest : Octets) :
    piecesAfter done (a :: b :: c :: d :: rest) =
      piecesAfter (.char (quadChar a b c d) :: done) rest := by
  have large : ¬a < 0x80 ∧ isPair a b = false ∧ isTriple a b c = false := by
    simp only [isQuad, Bool.and_eq_true, decide_eq_true_eq, UInt8.le_iff_toNat_le] at quad
    simp only [isPair, isTriple, isTail, UInt8.lt_iff_toNat_lt, Bool.and_eq_false_iff,
      decide_eq_false_iff_not, UInt8.le_iff_toNat_le]
    simp only [UInt8.toNat_ofNat] at *
    omega
  rw [piecesAfter.eq_def]
  simp only [large, quad, if_true, if_false, Bool.false_eq_true]

/-- Reading the octets of a character gives that character. -/
theorem piecesAfter_encode (done : List Piece) (c : Char) (rest : Octets) :
    piecesAfter done (utf8EncodeChar c ++ rest) = piecesAfter (.char c :: done) rest := by
  have valid : c.val.toNat < 0xD800 ∨ 0xDFFF < c.val.toNat ∧ c.val.toNat < 0x110000 := c.valid
  have self : Char.ofNat c.val.toNat = c := Char.ofNat_toNat c
  have toNat : ∀ n < 256, (UInt8.ofNat n).toNat = n := fun n small => by simpa using small
  rw [utf8EncodeChar]
  generalize c.val.toNat = n at valid self
  -- The octets are those of the number, so the tests and the payloads are arithmetic.
  split
  next single =>
    have small : UInt8.ofNat n < 0x80 := by
      rw [UInt8.lt_iff_toNat_lt, toNat n (by omega)]
      simp only [UInt8.toNat_ofNat]
      omega
    rw [singleton_append, piecesAfter_single small, toNat n (by omega), self]
  next =>
  split
  next =>
    have pair : isPair (UInt8.ofNat (n / 64 % 32 + 192)) (UInt8.ofNat (n % 64 + 128)) = true := by
      simp only [isPair, isTail, Bool.and_eq_true, decide_eq_true_eq, UInt8.le_iff_toNat_le]
      rw [toNat _ (by omega), toNat _ (by omega)]
      simp only [UInt8.toNat_ofNat]
      omega
    rw [cons_append, singleton_append, piecesAfter_pair pair, pairChar, tailBits,
      toNat _ (by omega), toNat _ (by omega), ← self]
    congr 4
    omega
  next =>
  split
  next =>
    have triple : isTriple (UInt8.ofNat (n / 4096 % 16 + 224)) (UInt8.ofNat (n / 64 % 64 + 128))
        (UInt8.ofNat (n % 64 + 128)) = true := by
      simp only [isTriple, isTail, Bool.and_eq_true, Bool.or_eq_true, bne_iff_ne, ne_eq,
        decide_eq_true_eq, UInt8.le_iff_toNat_le, ← UInt8.toNat_inj]
      rw [toNat _ (by omega), toNat _ (by omega), toNat _ (by omega)]
      simp only [UInt8.toNat_ofNat]
      omega
    rw [cons_append, cons_append, singleton_append, piecesAfter_triple triple, tripleChar, tailBits,
      tailBits, toNat _ (by omega), toNat _ (by omega), toNat _ (by omega), ← self]
    congr 4
    omega
  next =>
    have quad : isQuad (UInt8.ofNat (n / 262144 % 8 + 240)) (UInt8.ofNat (n / 4096 % 64 + 128))
        (UInt8.ofNat (n / 64 % 64 + 128)) (UInt8.ofNat (n % 64 + 128)) = true := by
      simp only [isQuad, isTail, Bool.and_eq_true, Bool.or_eq_true, bne_iff_ne, ne_eq,
        decide_eq_true_eq, UInt8.le_iff_toNat_le, ← UInt8.toNat_inj]
      rw [toNat _ (by omega), toNat _ (by omega), toNat _ (by omega), toNat _ (by omega)]
      simp only [UInt8.toNat_ofNat]
      omega
    rw [cons_append, cons_append, cons_append, singleton_append,
      piecesAfter_quad quad, quadChar, tailBits, tailBits, tailBits, toNat _ (by omega),
      toNat _ (by omega), toNat _ (by omega), toNat _ (by omega), ← self]
    congr 4
    omega

/-- Encoded characters are taken apart into themselves. -/
theorem pieces_flatMap_encode (cs : List Char) :
    pieces (cs.flatMap utf8EncodeChar) = cs.map .char := by
  have after : ∀ done : List Piece,
      piecesAfter done (cs.flatMap utf8EncodeChar) = done.reverse ++ cs.map .char := by
    induction cs with
    | nil => simp [piecesAfter]
    | cons c cs ih =>
      intro done
      rw [flatMap_cons, piecesAfter_encode, ih]
      simp
  exact after []

theorem pieces_ofString (s : String) : pieces (ofString s) = s.toList.map .char := by
  rw [← pieces_flatMap_encode, ← ofString_ofList, String.ofList_toList]

/-- The characters of the octets of a string are those of the string. -/
theorem chars_ofString (s : String) : (ofString s).chars = s.toList := by
  rw [chars, pieces_ofString, map_map]
  exact map_id _

/-- A text is read back from its octets. -/
theorem chars?_ofString (s : String) : (ofString s).chars? = some s.toList := by
  have all : (pieces (ofString s)).all Piece.isChar = true := by
    rw [pieces_ofString, all_map]
    exact all_eq_true.mpr fun _ _ => rfl
  have same : (pieces (ofString s)).map Piece.toChar = s.toList := chars_ofString s
  rw [chars?, if_pos all, same]

/-- Octets that are text are those of the text. -/
theorem toString?_eq_some_iff {text : Octets} {s : String} :
    text.toString? = some s ↔ text = ofString s := by
  constructor
  · intro found
    obtain ⟨chars, decoded, rfl⟩ := Option.map_eq_some_iff.mp found
    rw [ofString_ofList, encode_chars decoded]
  · rintro rfl
    rw [toString?, chars?_ofString, Option.map_some, String.ofList_toList]

end BitSchema.Octets
