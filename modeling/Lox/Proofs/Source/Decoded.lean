import Lox.Proofs.Number.Nearest
import Lox.Proofs.Scan.Bytes
import Lox.Proofs.Source.Display

set_option autoImplicit false

/-!
# Numbers of source texts

A token with digits stands for the number nearest to the fraction that the digits spell, however many of
them there are. A fraction beyond the finite numbers gives infinity, one that is too small gives zero, and
nothing else gives either. A scan would put in zero for digits that cannot be read as a decimal, but there
are none: the text of each token with digits is that of a decimal.

## Main definitions

* `Lox.Number.Rounds` — what number a fraction is rounded to.

## Main results

* `Lox.Number.rounds_ofDecimal` — a decimal is rounded.
* `Lox.Number.ofDecimal_mono` — rounding keeps the order.
* `Lox.number_tokens_rounded` — the numbers of the tokens of a source text.
-/

namespace Lox

namespace Number

/-! ## Rounding decimals -/

/-- **What number a fraction that is not negative is rounded to.** -/
structure Rounds (x : Number) (q : ℚ) : Prop where
  /-- It is a number. -/
  number : x.isNaN = false
  /-- It has no sign. -/
  positive : x.signBit = false
  /-- It is nearest to the fraction unless this is too great for the finite numbers. -/
  nearest : q < 2 ^ 1024 - 2 ^ 970 → x.IsNearest q
  /-- It is infinite if and only if the fraction is too great for the finite numbers. -/
  infinite : x.isInf ↔ 2 ^ 1024 - 2 ^ 970 ≤ q
  /-- It is zero if and only if the fraction is too small for the other numbers. -/
  zero : x.toBits = 0 ↔ q ≤ 1 / 2 ^ 1075

/-- The magnitude of a number that is read from a decimal. -/
theorem magnitude_ofDecimal (d : Decimal) :
    (ofDecimal d).magnitude = Binary64.nearest d.coefficient (Nat.pow 10 d.places) := by
  have hle := Binary64.nearest_le_infinity d.coefficient (Nat.pow 10 d.places)
  rw [magnitude, ofDecimal, toNat_toBits_ofBits hle]
  refine Nat.mod_eq_of_lt (hle.trans_lt ?_)
  decide

/-- A number that is read from a decimal has no sign. -/
theorem factor_ofDecimal (d : Decimal) : (ofDecimal d).factor = 1 := by
  rw [factor, signBit_ofDecimal, if_neg Bool.false_ne_true]

/-- Where reading goes beyond a finite magnitude. -/
theorem magnitude_ofDecimal_le_iff {d : Decimal} {bits : Nat} (hbits : bits < Binary64.infinity) :
    (ofDecimal d).magnitude ≤ bits ↔ Binary64.AtMost bits d.value := by
  rw [magnitude_ofDecimal, Decimal.value_eq_div]
  exact Binary64.nearest_le_iff (Binary64.pow_ten_pos d.places) hbits

/-- **A decimal is rounded.** -/
theorem rounds_ofDecimal (d : Decimal) : (ofDecimal d).Rounds d.value := by
  have hle : (ofDecimal d).magnitude ≤ Binary64.infinity := by
    rw [magnitude_ofDecimal]
    exact Binary64.nearest_le_infinity _ _
  have hlast : (ofDecimal d).Finite ↔ d.value < 2 ^ 1024 - 2 ^ 970 := by
    rw [← Binary64.atMost_last_iff, ← magnitude_ofDecimal_le_iff (by decide), Finite]
    exact Nat.lt_iff_le_pred (by decide)
  refine ⟨?_, signBit_ofDecimal d, fun h => ?_, ?_, ?_⟩
  · exact Bool.eq_false_iff.mpr fun hnan => Nat.not_lt_of_le hle (isNaN_iff.mp hnan)
  · have finite := hlast.mpr h
    refine isNearest_of_mem_interval finite ?_ ?_
    · rw [factor_ofDecimal, one_mul]
      exact d.value_nonneg
    · rw [factor_ofDecimal, one_mul, Decimal.value_eq_div,
        ← Binary64.nearest_eq_iff (Binary64.pow_ten_pos d.places) finite, magnitude_ofDecimal]
  · rw [isInf_iff, ← not_lt, ← hlast, Finite, Nat.not_lt, hle.ge_iff_eq]
  · rw [← Binary64.atMost_zero_iff, ← magnitude_ofDecimal_le_iff (by decide), Nat.le_zero,
      ← UInt64.toNat_inj, toNat_toBits, signBit_ofDecimal, if_neg Bool.false_ne_true, Nat.zero_add]
    rfl

/-- **Rounding keeps the order**, infinity being greater than all finite numbers. -/
theorem ofDecimal_mono {c d : Decimal} (hle : c.value ≤ d.value) (finite : (ofDecimal d).Finite) :
    (ofDecimal c).Finite ∧ (ofDecimal c).value ≤ (ofDecimal d).value := by
  have hmagnitude : (ofDecimal c).magnitude ≤ (ofDecimal d).magnitude := by
    rw [magnitude_ofDecimal, magnitude_ofDecimal]
    rw [Decimal.value_eq_div, Decimal.value_eq_div] at hle
    exact Binary64.nearest_mono (Binary64.pow_ten_pos _) (Binary64.pow_ten_pos _) hle
  have finite' : (ofDecimal c).Finite := hmagnitude.trans_lt finite
  rw [value_eq_factor_mul finite, value_eq_factor_mul finite', factor_ofDecimal, factor_ofDecimal, one_mul,
    one_mul]
  exact ⟨finite', Binary64.value_strictMono.monotone hmagnitude⟩

end Number

/-! ## Tokens with digits -/

/-- Nothing but digits makes a token with digits. -/
theorem Piece.eq_number_of_token? {p : Piece} {line : Nat} {t : Token} (h : p.token? line = some t)
    (hkind : t.kind = .number) : ∃ whole fraction, p = number whole fraction := by
  obtain ⟨hp, -⟩ := token?_eq_some_iff.mp h
  rw [hkind] at hp
  cases p with
  | number whole fraction => exact ⟨whole, fraction, rfl⟩
  | word letters => obtain ⟨_, hword⟩ | hword := kind_of_word hp <;> cases hword
  | _ => cases hp

/-- **A token with digits** is written with digits and, if it has a fraction, a point and further digits. Its
text reads as their decimal, and it stands for the number that is read from this decimal. -/
theorem exists_digits_of_mem_lex {source : String} {t : Token} (ht : t ∈ (lex source).tokens)
    (hkind : t.kind = .number) :
    ∃ whole fraction : List Char,
      t.lexeme.toList = whole ++ (if fraction = [] then [] else '.' :: fraction) ∧ whole ≠ [] ∧
      (∀ c ∈ whole, c.isDigit) ∧ (∀ c ∈ fraction, c.isDigit) ∧
      Decimal.ofText? t.lexeme.toList = some (.ofDigits whole fraction) ∧
      t.literal = some (.number (.ofDecimal (.ofDigits whole fraction))) := by
  rw [lex, Lexed.tokens_ofPieces, List.mem_append, List.mem_singleton] at ht
  obtain ht | rfl := ht
  · obtain ⟨p, hp, line, htoken⟩ := Piece.exists_of_mem_tokens ht
    obtain ⟨whole, fraction, rfl⟩ := Piece.eq_number_of_token? htoken hkind
    have hread := Decimal.ofText?_text (Piece.wellFormed_of_mem_split hp)
    obtain ⟨hne, hwhole, hfraction⟩ := Piece.wellFormed_of_mem_split hp
    obtain ⟨hliteral, hlexeme, -⟩ := Piece.token?_eq_some_iff.mp htoken
    refine ⟨whole, fraction, ?_, hne, hwhole, hfraction, ?_, ?_⟩
    · rw [hlexeme, String.toList_ofList, Piece.text_number]
    · rw [hlexeme, String.toList_ofList, hread]
    · simp only [Piece.kind?, Option.some.injEq, Prod.mk.injEq] at hliteral
      exact hliteral.2.symm
  · cases hkind

/-- **The numbers of the tokens of a source text.** The tokens are those of a scan, which reads the text of a
token with digits as a decimal and puts in zero if it cannot be read. A token with digits is written with
digits and, if it has a fraction, a point and further digits. Its text can be read as a decimal, so that
nothing is ever put in, and the token stands for the number of this decimal. That is the number to which the
fraction that is written is rounded: the nearest one, infinity if the fraction is too great for the finite
numbers, and zero if it is too small for the others. Of the numbers of two such tokens, of one source text or
of two, that of the greater fraction is not smaller. -/
theorem number_tokens_rounded :
    (∀ source : String,
      (∀ replacement : Char, scan .utf8 replacement source = some (lex source)) ∧
      ∀ t ∈ (lex source).tokens, t.kind = .number →
        (∃ whole fraction : List Char,
          t.lexeme.toList = whole ++ (if fraction = [] then [] else '.' :: fraction) ∧ whole ≠ [] ∧
          (∀ c ∈ whole, c.isDigit) ∧ ∀ c ∈ fraction, c.isDigit) ∧
        (∃ d : Decimal, Decimal.ofText? t.lexeme.toList = some d ∧
          t.literal = some (.number (.ofDecimal d))) ∧
        ∃ x : Number, t.literal = some (.number x) ∧ x.Rounds (Decimal.written t.lexeme.toList)) ∧
    ∀ (first second : String), ∀ t ∈ (lex first).tokens, ∀ u ∈ (lex second).tokens, ∀ x y : Number,
      t.kind = .number → u.kind = .number → t.literal = some (.number x) → u.literal = some (.number y) →
      Decimal.written t.lexeme.toList ≤ Decimal.written u.lexeme.toList → y.isFinite →
      x.isFinite ∧ x.value ≤ y.value := by
  refine ⟨fun source => ⟨fun replacement => scan_eq_lex Coding.faithful_utf8 replacement source,
    fun t ht hkind => ?_⟩, fun first second t ht u hu x y htkind hukind hx hy hle finite => ?_⟩
  · obtain ⟨whole, fraction, hlexeme, hne, hwhole, hfraction, hread, hliteral⟩ :=
      exists_digits_of_mem_lex ht hkind
    refine ⟨⟨whole, fraction, hlexeme, hne, hwhole, hfraction⟩, ⟨_, hread, hliteral⟩, _, hliteral, ?_⟩
    rw [hlexeme, Decimal.written_digits hwhole]
    exact Number.rounds_ofDecimal _
  · obtain ⟨whole, fraction, hlexeme, -, hwhole, -, -, hliteral⟩ := exists_digits_of_mem_lex ht htkind
    obtain ⟨whole', fraction', hlexeme', -, hwhole', -, -, hliteral'⟩ := exists_digits_of_mem_lex hu hukind
    rw [hlexeme, hlexeme', Decimal.written_digits hwhole, Decimal.written_digits hwhole'] at hle
    rw [hliteral, Option.some_inj, Literal.number.injEq] at hx
    rw [hliteral', Option.some_inj, Literal.number.injEq] at hy
    subst hx hy
    rw [Number.isFinite_iff] at finite ⊢
    exact Number.ofDecimal_mono hle finite

/-- In the middle between two numbers the one with the even mantissa is chosen, and a tenth more is rounded to
the other one. -/
theorem number_tokens_rounded_middle :
    (∃ d, Decimal.ofText? "9007199254740993".toList = some d ∧
      Number.ofDecimal d = Float.ofBits 0x4340000000000000) ∧
    Number.IsNearest (Float.ofBits 0x4340000000000000) 9007199254740993 ∧
      Number.value (Float.ofBits 0x4340000000000000) ≤ Number.value (Float.ofBits 0x4340000000000001) := by
  have hmiddle : Piece.split "9007199254740993".toList = [.number "9007199254740993".toList []] := by
    decide +kernel
  have hmore : Piece.split "9007199254740993.1".toList = [.number "9007199254740993".toList ['1']] := by
    decide +kernel
  have heven : Number.ofDecimal (.ofDigits "9007199254740993".toList []) = Float.ofBits 0x4340000000000000 :=
    Number.eq_of_toBits_eq (by decide +kernel)
  have hodd : Number.ofDecimal (.ofDigits "9007199254740993".toList ['1']) = Float.ofBits 0x4340000000000001 :=
    Number.eq_of_toBits_eq (by decide +kernel)
  have ht : ⟨.number, "9007199254740993", some (.number (Float.ofBits 0x4340000000000000)), 1⟩ ∈
      (lex "9007199254740993").tokens := by
    rw [lex, hmiddle, ← heven]
    exact .head _
  have hu : ⟨.number, "9007199254740993.1", some (.number (Float.ofBits 0x4340000000000001)), 1⟩ ∈
      (lex "9007199254740993.1").tokens := by
    rw [lex, hmore, ← hodd]
    exact .head _
  have hwritten : Decimal.written "9007199254740993".toList = 9007199254740993 := by decide +kernel
  obtain ⟨-, ⟨d, hd, hliteral⟩, x, hx, rounds⟩ := (number_tokens_rounded.1 _).2 _ ht rfl
  refine ⟨⟨d, hd, ?_⟩, ?_, ?_⟩
  · rw [Option.some_inj, Literal.number.injEq] at hliteral
    exact hliteral.symm
  · obtain rfl : Float.ofBits 0x4340000000000000 = x := by
      rw [Option.some_inj, Literal.number.injEq] at hx
      exact hx
    rw [hwritten] at rounds
    exact rounds.nearest (by decide +kernel)
  · refine (number_tokens_rounded.2 _ _ _ ht _ hu _ _ rfl rfl rfl rfl ?_ (by decide +kernel)).2
    decide +kernel

end Lox
