import Lox.Proofs.Source.Scanned

set_option autoImplicit false

/-!
# Printing and reading back

An expression that can be spelled is read back from its source text if and only if it is shaped as
the grammar has it: no parentheses are printed to keep any other shape together. Expressions of
source texts are shaped, and all that they may hold and no source text can spell are infinite
numbers. A long enough run of digits stands for one, so that the law that what has been read can be
printed and read again has this one exception.

## Main results

* `Lox.Expr.Spellable.parseSource_source` — the expression that a shaped tree is read back as.
* `Lox.Expr.reads_back_iff_shaped` — which trees are read back, and on which lines their operators
  are then.
* `Lox.Expr.reads_back_iff_finite` — which expressions of source texts are read back.
-/

namespace Lox

/-! ## Pieces without a cause for a fault -/

/-- The pieces of a value give no cause for a fault. -/
theorem Value.cause?_eq_none (v : Value) : ∀ p ∈ v.pieces, p.cause? = none := by
  match v with
  | number x =>
    have hbody : x.body.cause? = none := by
      unfold Number.body
      split
      · rfl
      · split <;> rfl
    simp only [pieces, Number.pieces]
    split <;> simp [hbody]
  | string s => simp [pieces, Piece.cause?]
  | boolean true | boolean false | nil => simp [pieces, Piece.cause?]

namespace Expr

/-- The pieces of a tree give no cause for a fault. -/
theorem Legible.cause?_eq_none {e : Expr} (legible : e.Legible) :
    ∀ p ∈ e.pieces, p.cause? = none := by
  induction e with
  | literal v => exact v.cause?_eq_none
  | grouping inner ih => simpa [pieces, or_imp, forall_and] using ih legible
  | unary t operand ih =>
    obtain ⟨⟨ht, -⟩, hoperand⟩ := legible
    obtain ⟨s, -, hk⟩ := Token.isUnary_iff.mp ht
    simpa [pieces, Token.piece_of_symbol hk] using ih hoperand
  | binary left t right ihl ihr =>
    obtain ⟨hleft, ⟨ht, -⟩, hright⟩ := legible
    obtain ⟨op, hk⟩ := ht.exists_symbol
    simpa [pieces, Token.piece_of_symbol hk, or_imp, forall_and] using ⟨ihl hleft, ihr hright⟩

/-! ## Trees that are read back -/

/-- What can be spelled is proper. -/
theorem Spellable.proper {e : Expr} (spellable : e.Spellable) : e.Proper :=
  All.imp spellable (fun _ _ => trivial) (fun _ => And.left) (fun _ => And.left)

/-- **A shaped tree is read back** from its source text, with its operators on the lines on which they
are printed. -/
theorem Spellable.parseSource_source {e : Expr} (spellable : e.Spellable) (shaped : e.Shaped) :
    parseSource e.source = .ok (e.numbered 1) := by
  have same := (e.sameButLines_numbered 1).symm
  rw [parseSource_eq_ok_iff, spellable.legible.split_source]
  exact ⟨spellable.legible.cause?_eq_none, same.proper spellable.proper, same.shaped shaped,
    spellable.spells_numbered 1⟩

/-- **Which trees are read back, and on which lines.** A tree that can be spelled is read back from its
source text, up to the lines of its operators, if and only if it is shaped; and then each operator
stands on the line that the line feeds in the strings to its left lead to.

**Proof sketch.** Whatever is read is shaped, and shape does not depend on lines. A shaped tree is
read back as the same tree with its operators on their lines, and there is only one answer. -/
theorem reads_back_iff_shaped {e : Expr} (spellable : e.Spellable) :
    ((∃ e', parseSource e.source = .ok e' ∧ e'.SameButLines e) ↔ e.Shaped) ∧
      ∀ e', parseSource e.source = .ok e' → e'.SameButLines e →
        ∀ before t after, e'.yield = before ++ .operator t :: after →
          t.line = 1 + (before.map Item.newlines).sum := by
  have hshaped {e' : Expr} (h : parseSource e.source = .ok e') (same : e'.SameButLines e) :
      e.Shaped := by
    obtain ⟨-, -, shaped, -⟩ := parseSource_eq_ok_iff.mp h
    exact same.shaped shaped
  constructor
  · constructor
    · rintro ⟨e', h, same⟩
      exact hshaped h same
    · intro shaped
      exact ⟨_, spellable.parseSource_source shaped, e.sameButLines_numbered 1⟩
  · intro e' h same before t after hyield
    have hread := spellable.parseSource_source (hshaped h same)
    obtain rfl : e' = e.numbered 1 := Except.ok.inj (h.symm.trans hread)
    have hnumbered := e.numbered_yield 1
    rw [hyield] at hnumbered
    exact hnumbered.line_eq

/-- A sum of a string on two lines and a number is read back. -/
theorem reads_back_two_lines :
    let e := binary (literal (.string "a\nb")) (.ofKind (.symbol .plus) 7)
      (literal (.number (Number.ofDecimal ⟨25, 1⟩)))
    ∃ e', parseSource e.source = .ok e' ∧ e'.SameButLines e := by
  intro e
  have hplus : (Token.ofKind (.symbol .plus) 7).IsBinary ∧
      (Token.ofKind (.symbol .plus) 7).Canonical := by decide
  have hnumber : (Number.ofDecimal ⟨25, 1⟩).Finite := by decide +kernel
  have hstring : '"' ∉ "a\nb".toList := by decide
  have spellable : e.Spellable := ⟨hstring, hplus, hnumber, Number.signBit_ofDecimal _⟩
  exact (reads_back_iff_shaped spellable).1.mpr (by decide)

/-! ## Expressions of source texts -/

/-- **Digits are an expression**, whatever they stand for. -/
theorem parseSource_number {whole fraction : List Char}
    (wellFormed : (Piece.number whole fraction).WellFormed) :
    parseSource (String.ofList (Piece.number whole fraction).text) =
      .ok (literal (.number (Number.ofDecimal (.ofDigits whole fraction)))) := by
  have hends : (Piece.number whole fraction).Ends [] := ⟨nofun, fun _ => nofun⟩
  have hsplit := Piece.split_cons wellFormed hends
  rw [List.append_nil, Piece.split] at hsplit
  rw [parseSource_eq_ok_iff, String.toList_ofList, hsplit]
  refine ⟨by simp [Piece.cause?], trivial, trivial, spells_literal.mpr ⟨_, rfl, ?_⟩⟩
  exact .number (.inl rfl) rfl

/-- **Which expressions of source texts are read back**: those of which all numbers are finite. The
source text of any other is no expression at all.

**Proof sketch.** Such an expression is shaped, and made of canonical operators and of values without
a sign and without a quote. If its numbers are finite it can be spelled; if not, the text holds a word
that is not reserved, and no expression holds such a token. -/
theorem reads_back_iff_finite {source : String} {e : Expr} (h : parseSource source = .ok e) :
    ((∃ e', parseSource e.source = .ok e' ∧ e'.SameButLines e) ↔ e.Finite) ∧
      (¬e.Finite → ∀ e', parseSource e.source ≠ .ok e') := by
  have hall := all_of_parseSource h
  have legible : e.Legible := hall.imp (fun v hv => hv.quotable) (fun _ => id) (fun _ => id)
  obtain ⟨-, -, shaped, -⟩ := parseSource_eq_ok_iff.mp h
  refine ⟨⟨?_, fun finite => ?_⟩, fun infinite e' h' => ?_⟩
  · rintro ⟨e', h', -⟩
    exact legible.finite_of_parseSource h'
  · have spellable : e.Spellable := (hall.and finite).imp (fun v hv => hv.1.spellable hv.2)
      (fun _ => And.left) (fun _ => And.left)
    exact ⟨_, spellable.parseSource_source shaped, e.sameButLines_numbered 1⟩
  · exact infinite (legible.finite_of_parseSource h')

/-- The number `0.1` is read back. -/
theorem reads_back_tenth :
    let e := literal (.number (Number.ofDecimal (.ofDigits ['0'] ['1'])))
    ∃ e', parseSource e.source = .ok e' ∧ e'.SameButLines e := by
  intro e
  have wellFormed : (Piece.number ['0'] ['1']).WellFormed :=
    ⟨List.cons_ne_nil _ _, List.all_eq_true.mp rfl, List.all_eq_true.mp rfl⟩
  have finite : (Number.ofDecimal (.ofDigits ['0'] ['1'])).Finite := by decide +kernel
  exact (reads_back_iff_finite (parseSource_number wellFormed)).1.mpr finite

/-- **A one with 309 zeros is an expression that is not read back**: it stands for infinity. -/
theorem not_reads_back_huge :
    ∃ e, parseSource (String.ofList ('1' :: List.replicate 309 '0')) = .ok e ∧
      ∀ e', parseSource e.source ≠ .ok e' := by
  have wellFormed : (Piece.number ('1' :: List.replicate 309 '0') []).WellFormed := by
    refine ⟨List.cons_ne_nil _ _, fun d hd => ?_, nofun⟩
    obtain rfl | hd := List.mem_cons.mp hd
    · rfl
    · rw [List.eq_of_mem_replicate hd]
      rfl
  have infinite : ¬(Number.ofDecimal (.ofDigits ('1' :: List.replicate 309 '0') [])).Finite := by
    decide +kernel
  have legible (x : Number) : (literal (.number x)).Legible := trivial
  have hread := parseSource_number wellFormed
  rw [Piece.text, List.isEmpty_nil, if_pos rfl, List.append_nil] at hread
  exact ⟨_, hread, fun e' h => infinite ((legible _).finite_of_parseSource h)⟩

end Expr

end Lox
