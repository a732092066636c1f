import BitSchema.Proofs.Lexemes
import BitSchema.Proofs.Utf8

/-!
# Spans of tokens

The tokens of a source stand in a row: each has octets of its own, and these come after the octets
of the tokens before it (`Token.InRow`).  The octets in the span of a token are those of its text.
-/

namespace BitSchema

open List
open String (utf8EncodeChar)

/-- The octets of a source that a span covers. -/
def Span.octets (s : Span) (source : Octets) : Octets := (source.drop s.start).take s.length

namespace Token

/-! ## Rows -/

/-- Tokens that are not empty, one after the other, between two offsets. -/
def InRow (lo hi : Nat) : List Token → Prop
  | [] => lo ≤ hi
  | t :: ts => lo ≤ t.span.start ∧ t.span.start < t.span.stop ∧ InRow t.span.stop hi ts

variable {lo hi : Nat} {p : Position} {cs : List Char} {all : List Token}

theorem InRow.le {ts : List Token} (row : InRow lo hi ts) : lo ≤ hi := by
  induction ts generalizing lo with
  | nil => exact row
  | cons t ts ih =>
    obtain ⟨after, some, rest⟩ := row
    have := ih rest
    omega

theorem InRow.mono {lo' : Nat} {ts : List Token} (row : InRow lo hi ts) (le : lo' ≤ lo) :
    InRow lo' hi ts := by
  cases ts with
  | nil => exact Nat.le_trans le row
  | cons t ts => exact ⟨Nat.le_trans le row.1, row.2⟩

theorem InRow.sublist {ts us : List Token} (row : InRow lo hi us) (some : ts.Sublist us) :
    InRow lo hi ts := by
  induction some generalizing lo with
  | slnil => exact row
  | cons t _ ih =>
    obtain ⟨after, inside, rest⟩ := row
    exact (ih rest).mono (by omega)
  | cons_cons t _ ih =>
    obtain ⟨after, inside, rest⟩ := row
    exact ⟨after, inside, ih rest⟩

theorem inRow_append {ts us : List Token} :
    InRow lo hi (ts ++ us) ↔ ∃ mid, InRow lo mid ts ∧ InRow mid hi us := by
  induction ts generalizing lo with
  | nil =>
    constructor
    · intro row
      exact ⟨lo, Nat.le_refl lo, row⟩
    · rintro ⟨mid, le, row⟩
      exact row.mono le
  | cons t ts ih =>
    rw [cons_append, InRow, ih]
    constructor
    · rintro ⟨after, inside, mid, row, rest⟩
      exact ⟨mid, ⟨after, inside, row⟩, rest⟩
    · rintro ⟨mid, ⟨after, inside, row⟩, rest⟩
      exact ⟨after, inside, mid, row, rest⟩

/-- A row reaches from the start of its first token to the end of its last. -/
theorem InRow.tight {t last : Token} {ts : List Token} (row : InRow lo hi (t :: ts))
    (ended : (t :: ts).getLast (cons_ne_nil t ts) = last) :
    t.span.start < last.span.stop ∧ last.span.stop ≤ hi ∧
      InRow t.span.start last.span.stop (t :: ts) := by
  induction ts generalizing t lo with
  | nil =>
    obtain ⟨-, inside, rest⟩ := row
    cases ended
    exact ⟨inside, rest, Nat.le_refl _, inside, Nat.le_refl _⟩
  | cons u us ih =>
    obtain ⟨-, inside, rest⟩ := row
    rw [getLast_cons (cons_ne_nil u us)] at ended
    obtain ⟨later, within, tight⟩ := ih rest ended
    have after : t.span.stop ≤ u.span.start := rest.1
    exact ⟨by omega, within, Nat.le_refl _, inside, tight.mono after⟩

/-! ## Scanned tokens -/

theorem offset_advance (p : Position) (cs : List Char) :
    (p.advance cs).offset = p.offset + (cs.flatMap utf8EncodeChar).length := by
  induction cs generalizing p with
  | nil => rfl
  | cons c cs ih =>
    have step : (p.step c).offset = p.offset + c.utf8Size := by
      unfold Position.step
      split <;> rfl
    have rest := ih (p.step c)
    rw [step] at rest
    rw [flatMap_cons, length_append, String.length_utf8EncodeChar, ← Nat.add_assoc]
    exact rest

theorem stop_span (p : Position) (file : String) (cs : List Char) :
    (p.span file cs).stop = (p.advance cs).offset := by
  rw [Span.stop, Position.span, offset_advance]
  dsimp only
  omega

theorem length_span (p : Position) (file : String) (cs : List Char) :
    (p.span file cs).length = (cs.flatMap utf8EncodeChar).length := by
  rw [Position.span, offset_advance]
  dsimp only
  omega

theorem Scanned.ne_nil {file : String} (scanned : Scanned file p cs all) : all ≠ [] := by
  cases scanned <;> simp

theorem encode_ne_nil (some : cs ≠ []) : 0 < (cs.flatMap utf8EncodeChar).length := by
  cases cs with
  | nil => exact absurd rfl some
  | cons c cs =>
    rw [flatMap_cons, length_append, String.length_utf8EncodeChar]
    have := c.utf8Size_pos
    omega

theorem Scanned.inRow {file : String} (scanned : Scanned file p cs all) :
    InRow p.offset (p.advance cs).offset all.dropLast := by
  induction scanned with
  | ended => exact Nat.le_refl _
  | @lexeme p cs kind n ts found rest ih =>
    obtain ⟨some, inside⟩ := lexeme_bounds found
    have taken : cs.take n ≠ [] := by
      intro none
      have length := congrArg List.length none
      rw [length_take_of_le inside] at length
      exact Nat.ne_of_gt some length
    have long := encode_ne_nil taken
    rw [dropLast_cons_of_ne_nil rest.ne_nil]
    refine ⟨Nat.le_refl _, ?_, ?_⟩
    · rw [stop_span, offset_advance]
      exact Nat.lt_add_of_pos_right long
    · have both : (p.advance (cs.take n)).advance (cs.drop n) = p.advance cs := by
        rw [Position.advance, Position.advance, ← foldl_append, take_append_drop]
        rfl
      rw [both] at ih
      rw [stop_span]
      exact ih

/-- The octets in the span of a token are those of its text. -/
theorem Scanned.octets {file : String} (scanned : Scanned file p cs all) {before : Octets}
    (place : before.length = p.offset) :
    ∀ t ∈ all, t.span.octets (before ++ cs.flatMap utf8EncodeChar) = Octets.ofString t.text := by
  induction scanned generalizing before with
  | @ended p =>
    rw [forall_mem_singleton, Span.octets, length_span]
    exact (Octets.ofString_ofList []).symm
  | @lexeme p cs kind n ts found rest ih =>
    have both : cs.flatMap utf8EncodeChar =
        (cs.take n).flatMap utf8EncodeChar ++ (cs.drop n).flatMap utf8EncodeChar := by
      rw [← flatMap_append, take_append_drop]
    rw [both, forall_mem_cons]
    refine ⟨?_, ?_⟩
    · rw [Octets.ofString_ofList, Span.octets, length_span, Position.span, ← place,
        drop_left, take_left]
    · rw [← append_assoc]
      apply ih
      rw [length_append, offset_advance, place]

/-! ## Tokens of a source -/

variable {file : String} {source : List Char} {ts : List Token} {last : Token}

/-- Tokens stand one after the other. -/
theorem inRow_tokens (ok : tokens file source = .ok (ts ++ [last])) :
    InRow 0 (source.flatMap utf8EncodeChar).length ts := by
  obtain ⟨all, ended, scanned, -, -, same⟩ := scanned_tokens ok
  obtain ⟨rfl, -⟩ := append_inj' same rfl
  have row := scanned.inRow
  rw [dropLast_concat, offset_advance, Nat.zero_add] at row
  exact row.sublist filter_sublist

/-- The text of a token stands at its span. -/
theorem octets_tokens (ok : tokens file source = .ok (ts ++ [last])) {t : Token} (mem : t ∈ ts) :
    t.span.octets (source.flatMap utf8EncodeChar) = Octets.ofString t.text := by
  obtain ⟨all, ended, scanned, -, -, same⟩ := scanned_tokens ok
  obtain ⟨rfl, -⟩ := append_inj' same rfl
  have start : ([] : Octets).length = ({} : Position).offset := rfl
  exact scanned.octets start t (mem_append_left _ (mem_filter.mp mem).1)

end Token

end BitSchema
