import Mathlib
import BitSchema.Text.Octets

/-!
# Octets

The octets of a string are its own, and a text has no more characters than octets.
-/

namespace BitSchema

open List

theorem toList_loop (bytes : ByteArray) (i : Nat) (done : List UInt8) :
    ByteArray.toList.loop bytes i done = done.reverse ++ bytes.data.toList.drop i := by
  fun_induction ByteArray.toList.loop bytes i done with
  | case1 i done inside ih =>
    have inside : i < bytes.data.toList.length := inside
    have octet : bytes.get! i = bytes.data.toList[i] := by
      rw [ByteArray.get!, getElem!_pos bytes.data i (by simpa using inside), Array.getElem_toList]
    rw [ih, reverse_cons, append_assoc, singleton_append, octet, ← drop_eq_getElem_cons inside]
  | case2 i done outside =>
    rw [drop_eq_nil_of_le (Nat.le_of_not_lt outside), append_nil]

/-- Texts have octets of their own. -/
theorem Octets.ofString_inj {s t : String} : Octets.ofString s = Octets.ofString t ↔ s = t := by
  have octets : ∀ u, Octets.ofString u = u.toByteArray.data.toList := fun u => toList_loop _ 0 []
  rw [octets, octets, Array.toList_inj, ← ByteArray.ext_iff, String.toByteArray_inj]

namespace Octets

theorem length_toList (bytes : ByteArray) : bytes.toList.length = bytes.size := by
  rw [ByteArray.toList, toList_loop]
  exact Array.length_toList

/-- No piece is empty. -/
theorem length_piecesAfter (done : List Piece) (text : Octets) :
    (piecesAfter done text).length ≤ done.length + text.length := by
  -- Each piece takes at least one octet.
  fun_induction piecesAfter done text <;> simp_all <;> omega

/-- A text has no more characters than octets. -/
theorem length_chars {text : Octets} {chars : List Char} (found : text.chars? = some chars) :
    chars.length ≤ text.length := by
  simp only [chars?, Option.ite_none_right_eq_some, Option.some.injEq] at found
  obtain ⟨-, rfl⟩ := found
  rw [length_map, pieces]
  simpa using length_piecesAfter [] text

end Octets

end BitSchema
