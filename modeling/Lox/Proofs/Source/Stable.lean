import Lox.Proofs.Expr.Row
import Lox.Proofs.Source.RoundTrip

set_option autoImplicit false

/-!
# Printing is stable

A tree that is built by hand may have any shape. Its source text need not be read back as the same
tree, since no parentheses are printed to keep the shape together, but it is always read: as the
shaped tree with the same row. That tree is printed as the very same text, and so is read back as
itself.

## Main results

* `Lox.Expr.Spellable.exists_parseSource_source` — what can be spelled is read as a tree with the same
  row.
* `Lox.Expr.source_stable` — the source text of the tree that is read is the text that it is read from.
-/

namespace Lox

namespace Expr

/-- **What can be spelled is read** as a tree with the same row but for lines.

**Proof sketch.** The tokens of the source text are the row of the tree, numbered. They are also the
row of a shaped tree, which is the one that is read; and a row is determined by its tokens. -/
theorem Spellable.exists_parseSource_source {e : Expr} (spellable : e.Spellable) :
    ∃ e', parseSource e.source = .ok e' ∧ List.Forall₂ Item.SameButLine e.yield e'.yield := by
  have same := (e.sameButLines_numbered 1).symm
  have proper : (e.numbered 1).Proper := same.proper spellable.proper
  have spells := spellable.spells_numbered 1
  obtain ⟨e', proper', shaped', spells'⟩ := spells.exists_shaped proper
  have hrow : (e.numbered 1).yield = e'.yield := yield_eq_of_spells spells spells' proper proper'
  refine ⟨e', ?_, hrow ▸ same.yield⟩
  rw [parseSource_eq_ok_iff, spellable.legible.split_source]
  exact ⟨spellable.legible.cause?_eq_none, proper', shaped', spells'⟩

/-- **Printing is stable.** The source text of a tree of any shape that can be spelled is read as a tree
with the same row but for lines, and hence with equally many nodes of each kind. That tree is printed
as the same text and read back as itself, with its operators on the same lines. -/
theorem source_stable {e : Expr} (spellable : e.Spellable) :
    ∃ e', parseSource e.source = .ok e' ∧ List.Forall₂ Item.SameButLine e.yield e'.yield ∧
      (e'.size = e.size ∧ e'.groupings = e.groupings ∧ e'.unaries = e.unaries ∧
        e'.binaries = e.binaries) ∧
      e'.source = e.source ∧ parseSource e'.source = .ok e' := by
  obtain ⟨e', hparse, hrow⟩ := spellable.exists_parseSource_source
  obtain ⟨hsize, hgroupings, hunaries, hbinaries⟩ := counts_eq_of_row hrow
  have hsource : e'.source = e.source := (source_eq_of_row hrow).symm
  refine ⟨e', hparse, hrow, ⟨hsize.symm, hgroupings.symm, hunaries.symm, hbinaries.symm⟩, hsource, ?_⟩
  rw [hsource]
  exact hparse

/-- The sum of a string on two lines and a number, negated and multiplied by `nil` without any
parentheses, is printed stably. -/
theorem source_stable_misshaped :
    let sum := binary (literal (.string "a\nb")) (.ofKind (.symbol .plus) 7)
      (literal (.number (Number.ofDecimal ⟨25, 1⟩)))
    let e := binary (unary (.ofKind (.symbol .minus) 3) sum) (.ofKind (.symbol .star) 1) (literal .nil)
    ¬e.Shaped ∧ ∃ e', parseSource e.source = .ok e' ∧ e'.size = 6 ∧ e'.source = e.source ∧
      parseSource e'.source = .ok e' := by
  intro sum e
  have hplus : (Token.ofKind (.symbol .plus) 7).IsBinary ∧
      (Token.ofKind (.symbol .plus) 7).Canonical := by decide
  have hminus : (Token.ofKind (.symbol .minus) 3).IsUnary ∧
      (Token.ofKind (.symbol .minus) 3).Canonical := by decide
  have hstar : (Token.ofKind (.symbol .star) 1).IsBinary ∧
      (Token.ofKind (.symbol .star) 1).Canonical := by decide
  have hnumber : (Number.ofDecimal ⟨25, 1⟩).Finite := by decide +kernel
  have hstring : '"' ∉ "a\nb".toList := by decide
  have spellable : e.Spellable :=
    ⟨⟨hminus, hstring, hplus, hnumber, Number.signBit_ofDecimal _⟩, hstar, trivial⟩
  obtain ⟨e', hparse, -, ⟨hsize, -⟩, hsource, hagain⟩ := source_stable spellable
  exact ⟨by decide, e', hparse, hsize, hsource, hagain⟩

end Expr

end Lox
