import BitSchema.File.Tree
import BitSchema.Import.Importer
import BitSchema.Proofs.CleanPaths
import BitSchema.Proofs.Utf8

/-!
# Paths octet by octet

An include path need not be UTF-8, so it is cleaned and joined with one character for each octet.
The characters that paths are taken apart at are single octets, and no octet of another character
looks like one of them.  A path that is text is therefore cleaned and joined as the text is
(`cleanOctets_ofString`, `joinOctets_ofString`).
-/

namespace BitSchema

open List

namespace Octets

open String (utf8EncodeChar)

/-! ## Octets as characters -/

theorem toNat_ofNat_small {n : Nat} (small : n < 256) : (Char.ofNat n).toNat = n :=
  toNat_val_ofNat (.inl (by omega))

/-- A text written octet by octet is read back. -/
theorem ofOctetwise_octetwise (text : Octets) : ofOctetwise text.octetwise = text := by
  have each : ∀ b : UInt8, UInt8.ofNat (Char.ofNat b.toNat).toNat = b := fun b => by
    rw [toNat_ofNat_small b.toNat_lt, UInt8.ofNat_toNat]
  rw [ofOctetwise, octetwise, String.toList_ofList, map_map]
  simp [Function.comp_def, each]

/-- A text of small characters is written back. -/
theorem octetwise_ofOctetwise {s : String} (small : ∀ c ∈ s.toList, c.toNat < 256) :
    (ofOctetwise s).octetwise = s := by
  have each : ∀ c ∈ s.toList, Char.ofNat (UInt8.ofNat c.toNat).toNat = c := fun c mem => by
    rw [UInt8.toNat_ofNat', Nat.mod_eq_of_lt (small c mem), Char.ofNat_toNat]
  rw [octetwise, ofOctetwise, map_map, ← String.toList_inj, String.toList_ofList]
  exact (map_congr_left each).trans (map_id' _)

theorem toNat_lt_of_mem_octetwise {text : Octets} {c : Char} (mem : c ∈ text.octetwise.toList) :
    c.toNat < 256 := by
  rw [octetwise, String.toList_ofList] at mem
  obtain ⟨b, -, rfl⟩ := mem_map.mp mem
  rw [toNat_ofNat_small b.toNat_lt]
  exact b.toNat_lt

/-! ## Spelled texts -/

/-- A character as the characters of its octets. -/
def spellChar (c : Char) : List Char := (utf8EncodeChar c).map fun b => Char.ofNat b.toNat

/-- A text as the characters of its octets. -/
def spell (s : String) : String := (ofString s).octetwise

theorem toList_spell (s : String) : (spell s).toList = s.toList.flatMap spellChar := by
  rw [spell, octetwise, String.toList_ofList, ← String.ofList_toList (s := s), ofString_ofList,
    map_flatMap, String.toList_ofList]
  rfl

/-- No two texts are spelled alike. -/
theorem spell_inj {s t : String} : spell s = spell t ↔ s = t := by
  refine ⟨fun same => ?_, congrArg spell⟩
  have octets := congrArg ofOctetwise same
  rwa [spell, spell, ofOctetwise_octetwise, ofOctetwise_octetwise, ofString_inj] at octets

/-- A character of ASCII is its own octet. -/
theorem spellChar_ascii {c : Char} (ascii : c.toNat < 128) : spellChar c = [c] := by
  have single : utf8EncodeChar c = [UInt8.ofNat c.toNat] := if_pos (Nat.le_of_lt_succ ascii)
  rw [spellChar, single, map_singleton, UInt8.toNat_ofNat', Nat.mod_eq_of_lt (by omega),
    Char.ofNat_toNat]

/-- A text of ASCII characters is spelled as it is. -/
theorem spell_of_ascii {s : String} (ascii : ∀ c ∈ s.toList, c.toNat < 128) : spell s = s := by
  rw [← String.toList_inj, toList_spell, flatMap_congr fun c mem => spellChar_ascii (ascii c mem),
    flatMap_singleton']

/-- No other text is spelled as a text of ASCII characters. -/
theorem spell_eq_iff {s t : String} (ascii : ∀ c ∈ t.toList, c.toNat < 128) :
    spell s = t ↔ s = t := by
  rw [← spell_inj (s := s), spell_of_ascii ascii]

/-- Only the ASCII characters are spelled with ASCII characters. -/
theorem le_of_mem_spellChar {c d : Char} (large : 128 ≤ c.toNat) (mem : d ∈ spellChar c) :
    128 ≤ d.toNat := by
  have octet : ∀ n, 128 ≤ n → n < 256 → 128 ≤ (UInt8.ofNat n).toNat := fun n least most => by
    rwa [UInt8.toNat_ofNat', Nat.mod_eq_of_lt most]
  have all : ∀ b ∈ utf8EncodeChar c, 128 ≤ b.toNat := by
    rw [Char.toNat] at large
    rw [utf8EncodeChar, if_neg (by omega)]
    generalize c.val.toNat = n
    split_ifs <;> simp only [forall_mem_cons, not_mem_nil, false_imp_iff, implies_true,
      and_true] <;> refine ⟨octet _ (by omega) (by omega), ?_⟩
    · exact octet _ (by omega) (by omega)
    · exact ⟨octet _ (by omega) (by omega), octet _ (by omega) (by omega)⟩
    · exact ⟨octet _ (by omega) (by omega), octet _ (by omega) (by omega),
        octet _ (by omega) (by omega)⟩
  obtain ⟨b, among, rfl⟩ := mem_map.mp mem
  rw [toNat_ofNat_small b.toNat_lt]
  exact all b among

/-- A character of ASCII stands in the spelling of no other. -/
theorem mem_spellChar_iff {a c : Char} (ascii : a.toNat < 128) : a ∈ spellChar c ↔ c = a := by
  by_cases small : c.toNat < 128
  · rw [spellChar_ascii small, mem_singleton, eq_comm]
  · refine iff_of_false (fun mem => ?_) (by rintro rfl; exact small ascii)
    have large := le_of_mem_spellChar (Nat.not_lt.mp small) mem
    omega

theorem spell_append (s t : String) : spell (s ++ t) = spell s ++ spell t := by
  simp [← String.toList_inj, toList_spell]

/-- A text can be split at an ASCII character before or after it is spelled. -/
theorem splitOn_spell {a : Char} (ascii : a.toNat < 128) (chars : List Char) :
    (chars.flatMap spellChar).splitOn a = (chars.splitOn a).map (·.flatMap spellChar) := by
  have join : ∀ pieces : List (List Char), ([a].intercalate pieces).flatMap spellChar =
      [a].intercalate (pieces.map (·.flatMap spellChar)) := by
    intro pieces
    induction pieces with
    | nil => rfl
    | cons piece pieces ih =>
      cases pieces with
      | nil => simp
      | cons next pieces =>
        rw [intercalate_cons_cons, flatMap_append, flatMap_append, ih,
          flatMap_singleton, spellChar_ascii ascii]
        exact intercalate_cons_cons.symm
  have apart : ∀ piece ∈ (chars.splitOn a).map (·.flatMap spellChar), a ∉ piece := by
    intro piece mem inside
    obtain ⟨plain, among, rfl⟩ := mem_map.mp mem
    obtain ⟨c, isIn, spelled⟩ := mem_flatMap.mp inside
    obtain rfl := (mem_spellChar_iff ascii).mp spelled
    exact (Path.spec_of_mem_splitOn among).1 isIn
  have split := splitOn_intercalate a apart (by simp [splitOn_ne_nil])
  rwa [← join, intercalate_splitOn] at split

end Octets

/-! ## Spelled paths -/

namespace Path

open Octets (spell spellChar spellChar_ascii spell_append spell_eq_iff spell_of_ascii toList_spell)

theorem spell_slash : spell "/" = "/" := spell_of_ascii (by simp)

theorem spell_eq_empty {s : String} : spell s = "" ↔ s = "" := spell_eq_iff (by simp)

theorem spell_eq_dot {s : String} : spell s = "." ↔ s = "." := spell_eq_iff (by simp)

theorem spell_eq_dots {s : String} : spell s = ".." ↔ s = ".." := spell_eq_iff (by simp)

/-- Slashes are where they were. -/
theorem elements_spell (s : String) : elements (spell s) = (elements s).map spell := by
  have spelled : ∀ chars : List Char,
      String.ofList (chars.flatMap spellChar) = spell (String.ofList chars) := by
    intro chars
    rw [← String.toList_inj, toList_spell, String.toList_ofList, String.toList_ofList]
  rw [elements, toList_spell, Octets.splitOn_spell (by decide), elements]
  simp [Function.comp_def, spelled]

theorem isAbsolute_spell (s : String) : isAbsolute (spell s) = isAbsolute s := by
  rw [isAbsolute, isAbsolute, toList_spell]
  cases s.toList with
  | nil => rfl
  | cons c rest =>
    by_cases ascii : c.toNat < 128
    · rw [flatMap_cons, spellChar_ascii ascii]
      rfl
    · cases spelled : spellChar c with
      | nil =>
        have length := String.length_utf8EncodeChar c
        rw [map_eq_nil_iff.mp spelled] at length
        exact absurd length (Nat.ne_of_lt c.utf8Size_pos)
      | cons d rest =>
        have large := @Octets.le_of_mem_spellChar c d (by omega) (by simp [spelled])
        have differs : ∀ c : Char, 128 ≤ c.toNat → c ≠ '/' := by rintro _ large rfl; simp at large
        simp [spelled, differs d large, differs c (by omega)]

/-- The elements `.` and `..` are spelled as they are. -/
theorem pushElement_spell (rooted : Bool) (done : List String) (e : String) :
    pushElement rooted (done.map spell) (spell e) = (pushElement rooted done e).map spell := by
  have up : spell ".." = ".." := spell_eq_dots.mpr rfl
  simp only [pushElement, spell_eq_empty, spell_eq_dot, spell_eq_dots]
  split
  next => rfl
  next =>
    split
    next =>
      cases done with
      | nil => cases rooted <;> simp [up]
      | cons top rest =>
        simp only [map_cons, spell_eq_dots]
        split <;> simp [up]
    next => rfl

theorem cleanElements_spell (s : String) :
    cleanElements (spell s) = (cleanElements s).map spell := by
  have push := @foldl_hom _ _ _ (List.map spell) (pushElement (isAbsolute s))
    (fun done e => pushElement (isAbsolute s) done (spell e)) (elements s) []
    (pushElement_spell (isAbsolute s))
  rw [cleanElements, cleanElements, isAbsolute_spell, elements_spell, foldl_map,
    map_reverse, ← push]
  rfl

theorem spell_intercalate (es : List String) :
    spell ("/".intercalate es) = "/".intercalate (es.map spell) := by
  induction es with
  | nil => exact spell_eq_empty.mpr rfl
  | cons e es ih =>
    cases es with
    | nil => simp
    | cons next es =>
      rw [String.intercalate_cons_cons, spell_append, spell_append, ih, spell_slash]
      exact String.intercalate_cons_cons.symm

/-- A path can be cleaned before or after it is spelled. -/
theorem clean_spell (s : String) : clean (spell s) = spell (clean s) := by
  rw [clean, clean, isAbsolute_spell, cleanElements_spell, ofElements, ofElements,
    ← spell_intercalate, isEmpty_map]
  split_ifs
  · rw [spell_append, spell_slash]
  · exact (spell_eq_dot.mpr rfl).symm
  · rfl

theorem isLocal_spell (s : String) : isLocal (spell s) = isLocal s := by
  rw [isLocal, isLocal, elements_spell, Bool.eq_iff_iff]
  simp [spell_eq_empty, spell_eq_dot, spell_eq_dots]

/-- Paths can be joined before or after they are spelled. -/
theorem join_spell (parts : List String) : join (parts.map spell) = spell (join parts) := by
  have kept : (parts.map spell).filter (· != "") = (parts.filter (· != "")).map spell := by
    rw [filter_map]
    congr 2
    funext part
    simp [bne, spell_eq_empty]
  rw [join, join, kept, isEmpty_map, ← spell_intercalate, clean_spell]
  split
  next => exact (spell_eq_empty.mpr rfl).symm
  next => rfl

/-! ## Extensions -/

section

variable {path : String} {front back : List Char}

/-- The extension starts at the last dot of the last element. -/
theorem ext_of_dot (last : (lastElement path).toList = front ++ '.' :: back)
    (plain : '.' ∉ back) : ext path = String.ofList ('.' :: back) := by
  have after : ((front ++ '.' :: back).reverse.takeWhile (· != '.')).reverse = back := by
    rw [reverse_append, reverse_cons, append_assoc, takeWhile_append_of_pos
      (by simpa using fun c mem => ne_of_mem_of_not_mem mem plain)]
    simp
  simp only [ext, last, after]
  rw [if_neg (by simp; omega)]

theorem ext_of_no_dot (plain : '.' ∉ (lastElement path).toList) : ext path = "" := by
  have all : (lastElement path).toList.reverse.takeWhile (· != '.') =
      (lastElement path).toList.reverse := by
    rw [takeWhile_eq_self_iff]
    simpa using fun c mem => ne_of_mem_of_not_mem mem plain
  simp only [ext, all, reverse_reverse, if_pos]

end

theorem lastElement_spell (s : String) : lastElement (spell s) = spell (lastElement s) := by
  rw [lastElement, lastElement, elements_spell, getLast?_map]
  cases (elements s).getLast? with
  | none => exact (spell_eq_empty.mpr rfl).symm
  | some last => rfl

theorem ext_spell (s : String) : ext (spell s) = spell (ext s) := by
  have dot : spellChar '.' = ['.'] := spellChar_ascii (by decide)
  have last : (lastElement (spell s)).toList =
      (lastElement s).toList.flatMap spellChar := by
    rw [lastElement_spell, toList_spell]
  have plain : ∀ chars : List Char, '.' ∉ chars → '.' ∉ chars.flatMap spellChar := by
    intro chars plain mem
    obtain ⟨c, among, spelled⟩ := mem_flatMap.mp mem
    rw [(Octets.mem_spellChar_iff (by decide)).mp spelled] at among
    exact plain among
  by_cases mem : '.' ∈ (lastElement s).toList
  · -- The part behind the last dot is spelled without a dot.
    obtain ⟨back, front, split, none⟩ := eq_append_cons_of_mem (mem_reverse.mpr mem)
    have split : (lastElement s).toList = front.reverse ++ '.' :: back.reverse := by
      rw [← reverse_inj, split]
      simp
    rw [split, flatMap_append, flatMap_cons, dot] at last
    rw [ext_of_dot split (by simpa using none), ext_of_dot last (plain _ (by simpa using none)),
      ← String.toList_inj, toList_spell]
    simp [dot]
  · rw [ext_of_no_dot mem, ext_of_no_dot (last ▸ plain _ mem)]
    exact (spell_eq_empty.mpr rfl).symm

/-- The extension of schema files is ASCII, so spelling neither makes nor hides it. -/
theorem ext_spell_eq_iff {s : String} :
    ext (spell s) = schemaExtension ↔ ext s = schemaExtension := by
  rw [ext_spell, spell_eq_iff (by simp [schemaExtension])]

/-! ## Octets of paths -/

/-- On octets that are text, cleaning is cleaning the text. -/
theorem cleanOctets_ofString (s : String) :
    cleanOctets (Octets.ofString s) = Octets.ofString (clean s) := by
  rw [cleanOctets, ← spell, clean_spell, spell, Octets.ofOctetwise_octetwise]

/-- On octets that are text, joining is joining the texts. -/
theorem joinOctets_ofString (s t : String) :
    joinOctets [Octets.ofString s, Octets.ofString t] = Octets.ofString (join [s, t]) := by
  have joined := congrArg Octets.ofOctetwise (join_spell [s, t])
  rwa [spell, Octets.ofOctetwise_octetwise] at joined

/-- Cleaning brings in no characters but slashes and dots. -/
theorem mem_of_mem_clean {path : String} {c : Char} (mem : c ∈ (clean path).toList) :
    c ∈ path.toList ∨ c = '/' ∨ c = '.' := by
  by_cases slash : c = '/'
  · exact .inr (.inl slash)
  have inElement : c ∈ ("/".intercalate (cleanElements path)).toList → c ∈ path.toList := by
    intro joined
    obtain ⟨e, among, inside⟩ := mem_intercalate (by simpa using slash) joined
    exact (spec_of_mem_elements (mem_of_mem_cleanElements among)).2 inside
  rw [clean, ofElements] at mem
  split_ifs at mem
  · rw [String.toList_append] at mem
    exact .inl (inElement ((mem_append.mp mem).resolve_left (by simpa using slash)))
  · exact .inr (.inr (by simpa using mem))
  · exact .inl (inElement mem)

/-- Octets are cleaned one character for each. -/
theorem octetwise_cleanOctets (path : Octets) :
    (cleanOctets path).octetwise = clean path.octetwise := by
  refine Octets.octetwise_ofOctetwise fun c mem => ?_
  rcases mem_of_mem_clean mem with written | rfl | rfl
  · exact Octets.toNat_lt_of_mem_octetwise written
  · decide
  · decide

end Path

/-- On octets that are text, the tree is asked for the path. -/
theorem FileTree.statOctets_ofString (t : FileTree) (path : String) :
    t.statOctets (Octets.ofString path) = t.stat path := by
  rw [statOctets, Octets.toString?_eq_some_iff.mpr rfl]

end BitSchema
