import Lox.Proofs.Number.Value
import Lox.Proofs.Source.Meaning

set_option autoImplicit false

/-!
# The text of a number as a source text

The text of a finite number is an expression, and its value is the number again, to the last bit and
with its sign. The digits of the text are a single token, in front of which a minus stands for the sign
bit. A text therefore belongs to one number only, if it belongs to a number at all.

## Main results

* `Lox.Number.lex_display` — the tokens of the text of a finite number.
* `Lox.Number.evalSource_display` — the value of the text of a finite number.
* `Lox.Number.toList_display_of_finite` — what the text of a finite number is made of.
* `Lox.Number.eq_of_display_eq` — a text belongs to one number only.
* `Lox.Number.display_inverts_lex` — writing and reading numbers are inverse.
-/

namespace Lox

/-- The text of a number is made of its digits, with a point if any stand behind it. -/
theorem Piece.text_number (whole fraction : List Char) :
    (Piece.number whole fraction).text =
      whole ++ if fraction = [] then [] else '.' :: fraction := by
  cases fraction <;> rfl

namespace Number

/-! ## Reading the text of a number -/

/-- Splitting the text of a number gives its pieces. -/
theorem split_display (x : Number) : Piece.split x.display.toList = x.pieces := by
  have hend : Piece.Delimits [] := nofun
  have hsplit := Piece.split_append (x.separated_pieces hend)
  rw [List.append_nil] at hsplit
  rw [toList_display, hsplit, Piece.split, List.append_nil]

/-- The pieces of what is a number are a minus if it has a sign, and its digits or its word. -/
theorem pieces_of_le {x : Number} (h : x.magnitude ≤ Binary64.infinity) :
    x.pieces = (if x.signBit then [.symbol .minus] else []) ++ [x.body] := by
  rw [pieces]
  cases x.signBit with
  | true => exact if_pos ⟨rfl, h⟩
  | false => exact if_neg fun hsign => Bool.false_ne_true hsign.1

/-- The digits of a finite number are those of its magnitude. -/
theorem body_abs {x : Number} (finite : x.Finite) : x.abs.body = x.body := by
  rw [body, body, decimal, decimal, magnitude_abs finite]

/-- The digits of a finite number are the text of its magnitude. -/
theorem ofList_text_body {x : Number} (finite : x.Finite) :
    String.ofList x.body.text = x.abs.display := by
  have hpieces : x.abs.pieces = [x.body] := by
    rw [pieces_of_le (Nat.le_of_lt (finite_abs finite)), signBit_abs finite, body_abs finite]
    rfl
  refine String.toList_inj.mp ?_
  rw [String.toList_ofList, toList_display, hpieces, List.flatMap_singleton]

/-- The digits of a finite number are one token, which stands for the magnitude. -/
theorem token?_body {x : Number} (finite : x.Finite) (line : Nat) :
    x.body.token? line = some ⟨.number, x.abs.display, some (.number x.abs), line⟩ := by
  rw [Piece.token?_eq_some_iff, ofList_text_body finite]
  refine ⟨?_, rfl, rfl⟩
  rw [body_of_finite finite, Piece.kind?, ofDecimal_digits finite, abs]

/-- **The tokens of the text of a finite number** are a minus if the number has a sign, and the digits of
its magnitude. -/
theorem lex_display {x : Number} (finite : x.Finite) (log : Log) :
    log.lex x.display =
      ((if x.signBit then [⟨.symbol .minus, "-", none, 1⟩] else []) ++
        [⟨.number, x.abs.display, some (.number x.abs), 1⟩, .endOfInput 1], log) := by
  have hsplit : Piece.split x.display.toList = x.pieces := split_display x
  rw [pieces_of_le (Nat.le_of_lt finite)] at hsplit
  have hclean : x.body.cause? = none := by
    rw [body_of_finite finite]
    rfl
  have hbody : Piece.tokens 1 [x.body] = [⟨.number, x.abs.display, some (.number x.abs), 1⟩] := by
    rw [Piece.tokens, x.newlines_body, token?_body finite]
    rfl
  have hlines : Piece.lines [x.body] = 0 := by rw [Piece.lines_cons, x.newlines_body, Piece.lines_nil]
  rw [log.lex_of_clean hsplit, Piece.tokens_append, Piece.lines_append, hlines]
  · cases x.signBit with
    | true =>
      have hminus : Piece.lines [.symbol .minus] = 0 := by decide
      rw [if_pos rfl, hminus, hbody]
      rfl
    | false =>
      rw [if_neg Bool.false_ne_true, Piece.lines_nil, hbody]
      rfl
  · intro p hp
    rw [List.mem_append, List.mem_singleton] at hp
    obtain hp | rfl := hp
    · obtain ⟨-, rfl⟩ : x.signBit = true ∧ p = .symbol .minus := by simpa using hp
      rfl
    · exact hclean

/-- **The value of the text of a finite number** is the number. -/
theorem evalSource_display {x : Number} (finite : x.Finite) :
    evalSource x.display = .ok (.number x) := by
  have legible : (Expr.literal (.number x)).Legible := trivial
  obtain ⟨outcome, heval, same⟩ := legible.exists_evalSource_source finite trivial
  cases same
  exact heval

/-! ## The form of the text -/

/-- **The text of a finite number** has a minus if the number has a sign, digits, and a point with
further digits if there are any. -/
theorem toList_display_of_finite {x : Number} (finite : x.Finite) :
    x.display.toList = (if x.signBit then ['-'] else []) ++ x.decimal.whole ++
      (if x.decimal.fraction = [] then [] else '.' :: x.decimal.fraction) := by
  have hsign : (if x.signBit then [Piece.symbol .minus] else []).flatMap Piece.text =
      if x.signBit then ['-'] else [] := by cases x.signBit <;> rfl
  rw [toList_display, pieces_of_le (Nat.le_of_lt finite), List.flatMap_append, List.flatMap_singleton,
    body_of_finite finite, Piece.text_number, hsign, List.append_assoc]

/-! ## Texts tell numbers apart -/

/-- The last pieces of the texts of numbers tell their magnitudes apart, infinity included. -/
theorem magnitude_eq_of_body_eq {x y : Number} (hx : x.magnitude ≤ Binary64.infinity)
    (hy : y.magnitude ≤ Binary64.infinity) (h : x.body = y.body) : x.magnitude = y.magnitude := by
  by_cases finite : x.Finite
  · have finite' : y.Finite := by
      by_contra infinite
      obtain ⟨letters, -, hbody⟩ := exists_body_eq_word infinite
      rw [body_of_finite finite, hbody] at h
      cases h
    rw [body_of_finite finite, body_of_finite finite', Piece.number.injEq] at h
    have hread : Float.ofBits (UInt64.ofNat x.magnitude) = Float.ofBits (UInt64.ofNat y.magnitude) := by
      rw [← ofDecimal_digits finite, ← ofDecimal_digits finite', h.1, h.2]
    rw [← toNat_toBits_ofBits hx, hread, toNat_toBits_ofBits hy]
  · have infinite : ¬y.Finite := by
      intro finite'
      obtain ⟨letters, -, hbody⟩ := exists_body_eq_word finite
      rw [body_of_finite finite', hbody] at h
      cases h
    rw [Nat.le_antisymm hx (Nat.le_of_not_lt finite), Nat.le_antisymm hy (Nat.le_of_not_lt infinite)]

/-- **A text belongs to one number only**, be it finite or infinite. -/
theorem eq_of_display_eq {x y : Number} (hx : x.magnitude ≤ Binary64.infinity)
    (hy : y.magnitude ≤ Binary64.infinity) (h : x.display = y.display) : x = y := by
  have hpieces : x.pieces = y.pieces := by rw [← split_display, h, split_display]
  rw [pieces_of_le hx, pieces_of_le hy] at hpieces
  have hlength : [x.body].length = [y.body].length := by
    rw [List.length_singleton, List.length_singleton]
  obtain ⟨hminus, hbody⟩ := List.append_inj' hpieces hlength
  have hsign : x.signBit = y.signBit := by
    cases hx' : x.signBit <;> cases hy' : y.signBit <;> rw [hx', hy'] at hminus <;>
      first | rfl | cases hminus
  have hbits : x.toBits.toNat = y.toBits.toNat := by
    rw [toNat_toBits, toNat_toBits, hsign, magnitude_eq_of_body_eq hx hy (List.singleton_inj.mp hbody)]
  exact eq_of_toBits_eq (UInt64.toNat_inj.mp hbits)

/-! ## Writing and reading are inverse -/

/-- What is a number has a magnitude of at most infinity. -/
theorem magnitude_le_of_isNaN_eq_false {x : Number} (h : x.isNaN = false) :
    x.magnitude ≤ Binary64.infinity := by
  refine Nat.le_of_not_lt fun hlt => ?_
  rw [isNaN_iff.mpr hlt] at h
  cases h

/-- **Writing and reading numbers are inverse.** The text of a finite number has the number as its value,
to the last bit. It has a minus if and only if the number has a sign, at least one digit, and a point
with further digits if and only if the number is not whole; no character of it is at fault, and its
digits are one token, which stands for the magnitude of the number. Two numbers with different patterns,
finite or not, have different texts. -/
theorem display_inverts_lex :
    (∀ x : Number, x.isFinite →
      evalSource x.display = .ok (.number x) ∧
      (x.signBit = false → ∀ log : Log, log.lex x.display =
        ([⟨.number, x.display, some (.number x), 1⟩, .endOfInput 1], log)) ∧
      (x.signBit = true → x.display = "-" ++ x.abs.display ∧ ∀ log : Log, log.lex x.display =
        ([⟨.symbol .minus, "-", none, 1⟩, ⟨.number, x.abs.display, some (.number x.abs), 1⟩,
          .endOfInput 1], log)) ∧
      ∃ whole fraction : List Char,
        x.display.toList = (if x.signBit then ['-'] else []) ++ whole ++
          (if fraction = [] then [] else '.' :: fraction) ∧
        whole ≠ [] ∧ (∀ c ∈ whole ++ fraction, c.isDigit) ∧
        (fraction = [] ↔ ∃ k : ℤ, x.value = k)) ∧
    ∀ x y : Number, x.isNaN = false → y.isNaN = false → x.toBits ≠ y.toBits →
      x.display ≠ y.display := by
  refine ⟨fun x hx => ?_, fun x y hx hy hne h => hne (congrArg Float.toBits ?_)⟩
  · have finite : x.Finite := isFinite_iff.mp hx
    refine ⟨evalSource_display finite, fun positive log => ?_,
      fun negative => ⟨display_abs finite negative, fun log => ?_⟩, ?_⟩
    · rw [lex_display finite, positive, abs_of_positive finite positive]
      rfl
    · rw [lex_display finite, negative]
      rfl
    · refine ⟨x.decimal.whole, x.decimal.fraction, toList_display_of_finite finite,
        x.decimal.whole_ne_nil, fun c hc => ?_, fraction_eq_nil_iff finite⟩
      obtain hc | hc := List.mem_append.mp hc
      · exact Decimal.isDigit_of_mem_whole hc
      · exact Decimal.isDigit_of_mem_fraction hc
  · exact eq_of_display_eq (magnitude_le_of_isNaN_eq_false hx) (magnitude_le_of_isNaN_eq_false hy) h

/-- The number nearest to minus one tenth is read back, and the two zeros have different texts. -/
theorem display_inverts_lex_tenth_and_zeros :
    evalSource "-0.1" = .ok (.number (Float.ofBits 0xbfb999999999999a)) ∧
      display (Float.ofBits 0) ≠ display (Float.ofBits 0x8000000000000000) := by
  have hdisplay : display (Float.ofBits 0xbfb999999999999a) = "-0.1" := by decide +kernel
  refine ⟨hdisplay ▸ (display_inverts_lex.1 _ (by decide +kernel)).1, ?_⟩
  exact display_inverts_lex.2 _ _ (by decide +kernel) (by decide +kernel) (by decide +kernel)

end Number

end Lox
