import Lox.Proofs.Automaton
import Lox.Proofs.Expr.Lines

set_option autoImplicit false

/-!
# The row decides

Of a tree, the row of its values, operators and parentheses alone decides how the tree is printed,
how many nodes of each kind it has, and which tokens it is printed as. The tokens of a row decide the
row in turn, and every proper tree has a row that is read as some tree, shaped as it may be itself.
What is printed of one tree and read as another has thus everything but the structure in common.

## Main definitions

* `Lox.Item.SameButLine` — items that differ in nothing but the line of an operator.
* `Lox.Item.rowSource` — the source text of a row.
* `Lox.Expr.groupings`, `Lox.Expr.unaries`, `Lox.Expr.binaries` — nodes counted by kind.

## Main results

* `Lox.Expr.source_eq_of_row`, `Lox.Expr.size_eq_of_row` — trees with the same row are printed alike
  and have equally many nodes.
* `Lox.Expr.yield_eq_of_spells` — proper trees that are printed as the same tokens have the same row.
* `Lox.Expr.Spells.exists_shaped` — the tokens of every proper tree are those of a shaped one.
-/

namespace Lox

/-! ## Rows that differ in lines -/

/-- **Items that differ in nothing but the line of an operator.** -/
inductive Item.SameButLine : Item → Item → Prop
  | value (v : Value) : SameButLine (value v) (value v)
  | operator {s t : Token} (same : s.SameButLine t) : SameButLine (operator s) (operator t)
  | groupStart : SameButLine groupStart groupStart
  | groupEnd : SameButLine groupEnd groupEnd

/-- The rows of trees that differ in lines differ in lines. -/
theorem Expr.SameButLines.yield {e f : Expr} (same : e.SameButLines f) :
    List.Forall₂ Item.SameButLine e.yield f.yield := by
  induction same with
  | literal v => exact .cons (.value v) .nil
  | grouping _ ih => exact .cons .groupStart (List.rel_append ih (.cons .groupEnd .nil))
  | unary operator _ ih => exact .cons (.operator operator) ih
  | binary _ operator _ ihl ihr => exact List.rel_append ihl (.cons (.operator operator) ihr)

/-! ## The source text of a row -/

namespace Item

/-- **The source text of a row**, at a place where an operand is awaited or not. An operator that is
met where an operand is awaited stands directly in front of it, and any other stands between
spaces. -/
def rowSource : (awaitsOperand : Bool) → List Item → String
  | _, [] => ""
  | _, value v :: items => v.source ++ rowSource false items
  | true, operator t :: items => t.lexeme ++ rowSource true items
  | false, operator t :: items => " " ++ t.lexeme ++ " " ++ rowSource true items
  | _, groupStart :: items => "(" ++ rowSource true items
  | _, groupEnd :: items => ")" ++ rowSource false items

/-- Lines are not printed. -/
theorem rowSource_eq {items items' : List Item} (same : List.Forall₂ SameButLine items items')
    (awaitsOperand : Bool) : rowSource awaitsOperand items = rowSource awaitsOperand items' := by
  induction same generalizing awaitsOperand with
  | nil => rfl
  | cons item _ ih =>
    cases item with
    | value v => rw [rowSource, rowSource, ih]
    | operator same => cases awaitsOperand <;> rw [rowSource, rowSource, ih, same.2.1]
    | groupStart => rw [rowSource, rowSource, ih]
    | groupEnd => rw [rowSource, rowSource, ih]

end Item

namespace Expr

/-- The source text of a tree is printed where an operand is awaited, and no operand is awaited behind
it.

**Proof sketch.** Induction on the tree, with whatever stands behind it in the row. -/
theorem rowSource_yield_append (e : Expr) (items : List Item) :
    Item.rowSource true (e.yield ++ items) = e.source ++ Item.rowSource false items := by
  induction e generalizing items with
  | literal v => rfl
  | grouping inner ih => simp [yield, source, Item.rowSource, ih, String.append_assoc]
  | unary t operand ih => simp [yield, source, Item.rowSource, ih, String.append_assoc]
  | binary left t right ihl ihr =>
    simp [yield, source, Item.rowSource, ihl, ihr, String.append_assoc]

/-- **The source text of a tree** is that of its row. -/
theorem source_eq_rowSource (e : Expr) : e.source = Item.rowSource true e.yield := by
  have h := e.rowSource_yield_append []
  rw [List.append_nil] at h
  rw [h, Item.rowSource, String.append_empty]

/-- **Trees with the same row are printed alike.** -/
theorem source_eq_of_row {e f : Expr} (same : List.Forall₂ Item.SameButLine e.yield f.yield) :
    e.source = f.source := by
  rw [source_eq_rowSource, source_eq_rowSource, Item.rowSource_eq same]

/-! ## Nodes in a row -/

/-- How many groupings a tree has. -/
def groupings : Expr → Nat
  | literal _ => 0
  | grouping inner => inner.groupings + 1
  | unary _ operand => operand.groupings
  | binary left _ right => left.groupings + right.groupings

/-- How many unary operations a tree has. -/
def unaries : Expr → Nat
  | literal _ => 0
  | grouping inner => inner.unaries
  | unary _ operand => operand.unaries + 1
  | binary left _ right => left.unaries + right.unaries

/-- How many binary operations a tree has. -/
def binaries : Expr → Nat
  | literal _ => 0
  | grouping inner => inner.binaries
  | unary _ operand => operand.binaries
  | binary left _ right => left.binaries + right.binaries + 1

end Expr

namespace Item

/-- What an item counts for if values, operators and opened groups count for as much as is given. -/
def weight (forValue forOperator forGroup : Nat) : Item → Nat
  | value _ => forValue
  | operator _ => forOperator
  | groupStart => forGroup
  | groupEnd => 0

/-- Rows that differ in lines count for the same. -/
theorem map_weight_eq {items items' : List Item} (same : List.Forall₂ SameButLine items items')
    (a b c : Nat) : items.map (weight a b c) = items'.map (weight a b c) := by
  induction same with
  | nil => rfl
  | cons item _ ih =>
    rw [List.map_cons, List.map_cons, ih]
    cases item <;> rfl

end Item

namespace Expr

/-- A row holds the operators of all operations, opens all groups, and holds one value more than there
are binary operations. -/
theorem sum_weight_yield (e : Expr) (a b c : Nat) :
    (e.yield.map (Item.weight a b c)).sum =
      a * (e.binaries + 1) + b * (e.unaries + e.binaries) + c * e.groupings := by
  induction e with
  | literal v => simp [yield, Item.weight, groupings, unaries, binaries]
  | grouping inner ih =>
    simp only [yield, Item.weight, groupings, unaries, binaries, List.map_cons, List.map_append,
      List.map_nil, List.sum_cons, List.sum_append, List.sum_nil, ih]
    ring
  | unary t operand ih =>
    simp only [yield, Item.weight, groupings, unaries, binaries, List.map_cons, List.sum_cons, ih]
    ring
  | binary left t right ihl ihr =>
    simp only [yield, Item.weight, groupings, unaries, binaries, List.map_cons, List.map_append,
      List.sum_cons, List.sum_append, ihl, ihr]
    ring

/-- The nodes of a tree are its operations, its groups, and one literal more than there are binary
operations. -/
theorem size_eq (e : Expr) : e.size = e.groupings + e.unaries + 2 * e.binaries + 1 := by
  induction e with
  | literal v => rfl
  | grouping inner ih =>
    simp only [size, groupings, unaries, binaries, ih]
    omega
  | unary t operand ih =>
    simp only [size, groupings, unaries, binaries, ih]
    omega
  | binary left t right ihl ihr =>
    simp only [size, groupings, unaries, binaries, ihl, ihr]
    omega

/-- **Trees with the same row have equally many nodes of each kind.** -/
theorem counts_eq_of_row {e f : Expr} (same : List.Forall₂ Item.SameButLine e.yield f.yield) :
    e.size = f.size ∧ e.groupings = f.groupings ∧ e.unaries = f.unaries ∧
      e.binaries = f.binaries := by
  have hcount (a b c : Nat) := congrArg List.sum (Item.map_weight_eq same a b c)
  simp only [sum_weight_yield] at hcount
  have hvalues := hcount 1 0 0
  have hoperators := hcount 0 1 0
  have hgroups := hcount 0 0 1
  have hsize := e.size_eq
  have hsize' := f.size_eq
  exact ⟨by omega, by omega, by omega, by omega⟩

end Expr

/-! ## The row of given tokens -/

namespace Item

/-- Whether an operator of a row is an operator at all. -/
def Proper : Item → Prop
  | operator t => t.IsUnary ∨ t.IsBinary
  | _ => True

/-- The kinds of tokens that an item can stand for. -/
def Suits : Item → Kind → Prop
  | value _, k => k ∈ Kind.leaves
  | operator _, k => ∃ s : Symbol, k = .symbol s ∧ s ≠ .leftParen ∧ s ≠ .rightParen
  | groupStart, k => k = .symbol .leftParen
  | groupEnd, k => k = .symbol .rightParen

/-- The tokens that a proper item stands for are of its kinds. -/
theorem Spells.suits {i : Item} {t : Token} (spells : i.Spells t) (proper : i.Proper) :
    i.Suits t.kind := by
  cases i with
  | value v => exact Token.exists_denotes_iff.mp ⟨v, spells⟩
  | operator u =>
    obtain rfl : u = t := spells
    obtain h | h := proper
    · obtain ⟨s, hs, hk⟩ := Token.isUnary_iff.mp h
      simp only [List.mem_cons, List.not_mem_nil, or_false] at hs
      refine ⟨s, hk, ?_⟩
      rcases hs with rfl | rfl <;> decide
    · obtain ⟨op, hk⟩ := h.exists_symbol
      refine ⟨op.symbol, hk, ?_⟩
      cases op <;> decide
  | groupStart | groupEnd => exact spells

/-- **A token stands for one item at most.**

**Proof sketch.** Items of different sorts suit different kinds. Of the two items of one sort, values
are what the token stands for, operators are the token, and parentheses are all the same. -/
theorem Spells.eq {i j : Item} {t : Token} (hi : i.Spells t) (hj : j.Spells t) (properi : i.Proper)
    (properj : j.Proper) : i = j := by
  have suitsi := hi.suits properi
  have suitsj := hj.suits properj
  cases i with
  | value v =>
    cases j with
    | value w =>
      have hv := Token.value?_eq_some_iff.mpr hi
      have hw := Token.value?_eq_some_iff.mpr hj
      rw [Option.some_inj.mp (hv.symm.trans hw)]
    | operator u =>
      obtain ⟨s, hk, -⟩ := suitsj
      simp [Suits, Kind.leaves, hk] at suitsi
    | groupStart | groupEnd =>
      rw [suitsj] at suitsi
      simp [Suits, Kind.leaves] at suitsi
  | operator u =>
    obtain ⟨s, hk, hopen, hclose⟩ := suitsi
    cases j with
    | value w => simp [Suits, Kind.leaves, hk] at suitsj
    | operator u' => rw [show u = t from hi, show u' = t from hj]
    | groupStart => exact absurd (Kind.symbol.inj (hk.symm.trans suitsj)) hopen
    | groupEnd => exact absurd (Kind.symbol.inj (hk.symm.trans suitsj)) hclose
  | groupStart =>
    rw [suitsi] at suitsj
    cases j with
    | groupStart => rfl
    | value | operator | groupEnd => simp [Suits, Kind.leaves] at suitsj
  | groupEnd =>
    rw [suitsi] at suitsj
    cases j with
    | groupEnd => rfl
    | value | operator | groupStart => simp [Suits, Kind.leaves] at suitsj

/-- Tokens stand for one row at most. -/
theorem eq_of_forall₂_spells {items items' : List Item} {words : List Token}
    (h : List.Forall₂ Spells items words) (h' : List.Forall₂ Spells items' words)
    (proper : ∀ i ∈ items, i.Proper) (proper' : ∀ i ∈ items', i.Proper) : items = items' := by
  induction h generalizing items' with
  | nil =>
    cases h'
    rfl
  | cons hi _ ih =>
    cases h' with
    | cons hj hrest =>
      obtain ⟨properi, hproper⟩ := List.forall_mem_cons.mp proper
      obtain ⟨properj, hproper'⟩ := List.forall_mem_cons.mp proper'
      rw [hi.eq hj properi properj, ih hrest hproper hproper']

end Item

namespace Expr

/-- The row of a proper tree is proper. -/
theorem Proper.of_mem_yield {e : Expr} (proper : e.Proper) : ∀ i ∈ e.yield, i.Proper := by
  induction e with
  | literal v => simp [yield, Item.Proper]
  | grouping inner ih =>
    simpa [yield, or_imp, forall_and, Item.Proper] using ih proper
  | unary t operand ih =>
    simpa [yield, or_imp, forall_and, Item.Proper, proper.1] using ih proper.2
  | binary left t right ihl ihr =>
    obtain ⟨hleft, ht, hright⟩ := proper
    simpa [yield, or_imp, forall_and, Item.Proper, ht] using ⟨ihl hleft, ihr hright⟩

/-- **Proper trees that are printed as the same tokens have the same row.** -/
theorem yield_eq_of_spells {e f : Expr} {words : List Token} (he : e.Spells words)
    (hf : f.Spells words) (propere : e.Proper) (properf : f.Proper) : e.yield = f.yield :=
  Item.eq_of_forall₂_spells he hf propere.of_mem_yield properf.of_mem_yield

/-- **The automaton reads every proper row**, at any depth, as one operand.

**Proof sketch.** Induction on the tree, along its row. -/
theorem run_of_spells {e : Expr} (proper : e.Proper) {words : List Token} (spells : e.Spells words)
    (depth : Nat) :
    Automaton.run (.operand depth) words = .running (.operator depth) := by
  induction e generalizing words depth with
  | literal v =>
    obtain ⟨t, rfl, denotes⟩ := spells_literal.mp spells
    rw [Automaton.run, Automaton.step_leaf (Token.exists_denotes_iff.mp ⟨v, denotes⟩)]
    rfl
  | grouping inner ih =>
    obtain ⟨start, body, close, rfl, hs, hb, hc⟩ := spells_grouping.mp spells
    rw [Automaton.run, hs]
    refine (Automaton.run_append (ih proper hb (depth + 1)) [close]).trans ?_
    rw [Automaton.run, hc, Automaton.step_operator_succ rfl]
    rfl
  | unary t operand ih =>
    obtain ⟨body, rfl, hb⟩ := spells_unary.mp spells
    rw [Automaton.run, Automaton.step_unary proper.1]
    exact ih proper.2 hb depth
  | binary left t right ihl ihr =>
    obtain ⟨us, vs, rfl, hu, hv⟩ := spells_binary.mp spells
    obtain ⟨hleft, ht, hright⟩ := proper
    obtain ⟨op, hop⟩ := Option.isSome_iff_exists.mp ht
    rw [Automaton.run_append (ihl hleft hu depth), Automaton.run, Automaton.step_binary hop]
    exact ihr hright hv depth

/-- **The tokens of every proper tree are those of a shaped one.**

**Proof sketch.** The automaton accepts the tokens, so that they parse. -/
theorem Spells.exists_shaped {e : Expr} {words : List Token} (spells : e.Spells words)
    (proper : e.Proper) : ∃ f : Expr, f.Proper ∧ f.Shaped ∧ f.Spells words := by
  have hrun := run_of_spells proper spells 0
  have hwords := Automaton.ne_endOfInput_of_run_eq_running hrun
  obtain ⟨line, hterminated⟩ := Token.terminated_of_ne hwords
  have haccepted : Automaton.run Automaton.start (Token.terminated words) = .accepted := by
    rw [hterminated]
    exact (Automaton.run_append hrun [.endOfInput line]).trans rfl
  obtain ⟨f, hf⟩ := Automaton.run_terminated_eq_accepted_iff.mp haccepted
  have hself : Token.words words = words := by
    rw [Token.words, List.takeWhile_eq_self_iff]
    simpa using hwords
  rw [parse_eq_ok_iff, hself, read_eq_ok_iff] at hf
  exact ⟨f, hf⟩

end Expr

end Lox
