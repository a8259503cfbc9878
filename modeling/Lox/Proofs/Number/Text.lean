import Lox.Proofs.Binary64.Shortest
import Lox.Proofs.Number.Bits
import Lox.Proofs.Piece.Cut

set_option autoImplicit false

/-!
# Numbers as text

The text of a finite number is made of one piece, its digits, behind a minus if the number has a
sign. The digits are read back as the magnitude of the number. What is no finite number is written
as a word.

## Main definitions

* `Lox.Number.Finite` — neither infinite nor a pattern that is no number.
* `Lox.Number.pieces` — the pieces of the text of a number.

## Main results

* `Lox.Number.toList_display` — the pieces make up the text.
* `Lox.Number.separated_pieces` — the pieces are found again in front of a delimiter.
* `Lox.Number.ofDecimal_digits` — the digits of a finite number are read back as its magnitude.
-/

namespace Lox

namespace Number

/-! ## The pieces of a number -/

/-- Whether a number is finite. -/
def Finite (x : Number) : Prop :=
  x.magnitude < Binary64.infinity

instance (x : Number) : Decidable x.Finite :=
  inferInstanceAs (Decidable (x.magnitude < Binary64.infinity))

/-- The shortest decimal of the magnitude of a number. -/
def decimal (x : Number) : Decimal :=
  Binary64.shortest x.magnitude

/-- The last piece of the text of a number: digits, or a word if the number is not finite. -/
def body (x : Number) : Piece :=
  if Binary64.infinity < x.magnitude then .word ['N', 'a', 'N']
  else if x.magnitude = Binary64.infinity then .word ['I', 'n', 'f', 'i', 'n', 'i', 't', 'y']
  else .number x.decimal.whole x.decimal.fraction

/-- **The pieces of the text of a number**: a minus for the sign bit, except of what is no number,
and the digits or the word. -/
def pieces (x : Number) : List Piece :=
  if x.signBit = true ∧ x.magnitude ≤ Binary64.infinity then [.symbol .minus, x.body]
  else [x.body]

/-- The last piece of a finite number has its digits. -/
theorem body_of_finite {x : Number} (finite : x.Finite) :
    x.body = .number x.decimal.whole x.decimal.fraction := by
  rw [Finite] at finite
  rw [body, if_neg (by omega), if_neg (by omega)]

/-- A number that is not finite is written as a word. -/
theorem exists_body_eq_word {x : Number} (h : ¬x.Finite) :
    ∃ letters ∈ [['N', 'a', 'N'], ['I', 'n', 'f', 'i', 'n', 'i', 't', 'y']],
      x.body = .word letters := by
  rw [Finite] at h
  by_cases hnan : Binary64.infinity < x.magnitude
  · exact ⟨_, .head _, if_pos hnan⟩
  · refine ⟨_, .tail _ (.head _), ?_⟩
    rw [body, if_neg hnan, if_pos (by omega)]

/-- **The pieces of a number make up its text.** -/
theorem toList_display (x : Number) : x.display.toList = x.pieces.flatMap Piece.text := by
  have hdigits : (Piece.number x.decimal.whole x.decimal.fraction).text =
      (Binary64.shortest x.magnitude).text := (Decimal.text_eq _).symm
  by_cases hnan : Binary64.infinity < x.magnitude
  · have hle : ¬x.magnitude ≤ Binary64.infinity := by omega
    simp [display, text, pieces, body, hnan, hle, valueNames, Piece.text]
  · have hle : x.magnitude ≤ Binary64.infinity := by omega
    by_cases hinf : x.magnitude = Binary64.infinity
    · cases hsign : x.signBit <;>
        simp [display, text, pieces, body, hinf, hsign, valueNames, Piece.text, Symbol.text]
    · have hminus : (Piece.symbol .minus).text = ['-'] := rfl
      cases hsign : x.signBit <;>
        simp [display, text, pieces, body, hnan, hle, hinf, hsign, hdigits, hminus]

/-! ## Finding the pieces again -/

/-- The last piece of a number is well-formed. -/
theorem wellFormed_body (x : Number) : x.body.WellFormed := by
  by_cases finite : x.Finite
  · rw [body_of_finite finite]
    exact ⟨x.decimal.whole_ne_nil, fun _ => Decimal.isDigit_of_mem_whole,
      fun _ => Decimal.isDigit_of_mem_fraction⟩
  · obtain ⟨letters, hmem, hbody⟩ := exists_body_eq_word finite
    rw [hbody]
    simp only [List.mem_cons, List.not_mem_nil, or_false] at hmem
    obtain rfl | rfl := hmem <;> exact ⟨_, _, rfl, rfl, List.all_eq_true.mp rfl⟩

/-- The last piece of a number ends before a delimiter. -/
theorem ends_body (x : Number) {rest : List Char} (delimits : Piece.Delimits rest) :
    x.body.Ends rest := by
  by_cases finite : x.Finite
  · rw [body_of_finite finite]
    refine ⟨delimits.stops rfl rfl, fun _ hpoint => ?_⟩
    obtain h | h := delimits '.' hpoint <;> cases h
  · obtain ⟨letters, -, hbody⟩ := exists_body_eq_word finite
    rw [hbody]
    exact delimits.stops rfl rfl

/-- **The pieces of a number are found again in front of a delimiter.** -/
theorem separated_pieces (x : Number) {rest : List Char} (delimits : Piece.Delimits rest) :
    Piece.Separated x.pieces rest := by
  have hbody : Piece.Separated [x.body] rest := ⟨x.wellFormed_body, x.ends_body delimits, trivial⟩
  unfold pieces
  split
  · exact ⟨trivial, ⟨nofun, nofun⟩, hbody⟩
  · exact hbody

/-! ## Reading the digits -/

/-- **The digits of a finite number are read back as its magnitude.** -/
theorem ofDecimal_digits {x : Number} (finite : x.Finite) :
    ofDecimal (.ofDigits x.decimal.whole x.decimal.fraction) =
      Float.ofBits (UInt64.ofNat x.magnitude) := by
  have hnearest : Binary64.nearest x.decimal.coefficient (Nat.pow 10 x.decimal.places) =
      x.magnitude := Binary64.nearest_shortest (Nat.le_of_lt finite)
  rw [Decimal.ofDigits_whole_fraction, ofDecimal, hnearest]

/-- A number without a sign is its own magnitude. -/
theorem ofBits_magnitude {x : Number} (finite : x.Finite) (positive : x.signBit = false) :
    Float.ofBits (UInt64.ofNat x.magnitude) = x := by
  refine eq_of_toBits_eq (UInt64.toNat_inj.mp ?_)
  rw [toNat_toBits_ofBits (Nat.le_of_lt finite), toNat_toBits x, positive,
    if_neg Bool.false_ne_true, Nat.zero_add]

end Number

end Lox
