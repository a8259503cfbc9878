import Lox.Proofs.Cursor

set_option autoImplicit false

/-!
# The grammar of expressions

The grammar has one nonterminal for each level of precedence:

* `expression := equality`
* `equality := comparison (("!=" | "==") comparison)*`
* `comparison := term ((">" | ">=" | "<" | "<=") term)*`
* `term := factor (("-" | "+") factor)*`
* `factor := unary (("/" | "*") unary)*`
* `unary := ("!" | "-") unary | primary`
* `primary := NUMBER | STRING | "true" | "false" | "nil" | "(" expression ")"`

It is given twice: for rows of kinds, and for rows of tokens together with the tree that a
derivation assigns to them, in which every chain of operands is folded to the left.

## Main definitions

* `Lox.Nonterminal` — the nonterminals, with the operators of their chains.
* `Lox.Generates` — the rows of kinds that a nonterminal derives.
* `Lox.Derives` — the rows of tokens that a nonterminal derives, and their trees.

## Main results

* `Lox.generates_iff_exists_derives` — the two grammars derive the same rows.
* `Lox.derives_expression_iff` — the trees of derivations are those that are proper and shaped.
* `Lox.Log.parse_eq_some_iff_derives` — parsing finds exactly the trees of derivations.
-/

namespace Lox

/-! ## Nonterminals -/

/-- The nonterminals, from the loosest to the tightest. -/
inductive Nonterminal
  | expression | equality | comparison | term | factor | unary | primary
deriving DecidableEq, Repr

namespace Nonterminal

/-- The operators between the operands of a chain. Nonterminals without operators have no chains. -/
def operators : Nonterminal → List Symbol
  | equality => [.bangEqual, .equalEqual]
  | comparison => [.greater, .greaterEqual, .less, .lessEqual]
  | term => [.minus, .plus]
  | factor => [.slash, .star]
  | _ => []

/-- The next tighter nonterminal: what the operands of a chain are. -/
def next : Nonterminal → Nonterminal
  | expression => equality
  | equality => comparison
  | comparison => term
  | term => factor
  | factor => unary
  | unary | primary => primary

/-- How tightly the trees of a nonterminal bind at least. -/
def level : Nonterminal → Nat
  | expression => 0
  | equality => 1
  | comparison => 2
  | term => 3
  | factor => 4
  | unary | primary => Expr.tightest

end Nonterminal

/-! ## The two grammars -/

/-- **The grammar on kinds**: the rows of kinds that a nonterminal derives. -/
inductive Generates : Nonterminal → List Kind → Prop
  | expression {w : List Kind} (inner : Generates .equality w) : Generates .expression w
  | chain {n : Nonterminal} {w : List Kind} {rest : List (Symbol × List Kind)}
      (first : Generates n.next w) (operators : ∀ link ∈ rest, link.1 ∈ n.operators)
      (operands : ∀ link ∈ rest, Generates n.next link.2) (binary : n.operators ≠ []) :
      Generates n (w ++ rest.flatMap fun link => .symbol link.1 :: link.2)
  | operation {s : Symbol} {w : List Kind} (operator : s ∈ [Symbol.bang, Symbol.minus])
      (operand : Generates .unary w) : Generates .unary (.symbol s :: w)
  | unary {w : List Kind} (inner : Generates .primary w) : Generates .unary w
  | leaf {k : Kind} (kind : k ∈ Kind.leaves) : Generates .primary [k]
  | group {w : List Kind} (inner : Generates .expression w) :
      Generates .primary (.symbol .leftParen :: (w ++ [.symbol .rightParen]))

/-- A link of a chain: an operator and the operand behind it, with the tree of the operand. -/
structure Link where
  /-- The operator. -/
  operator : Token
  /-- The tokens of the operand. -/
  words : List Token
  /-- The tree of the operand. -/
  tree : Expr

/-- The tokens of a link. -/
def Link.row (link : Link) : List Token :=
  link.operator :: link.words

/-- The tree of a chain with one more link. -/
def Link.attach (left : Expr) (link : Link) : Expr :=
  .binary left link.operator link.tree

/-- **The grammar on tokens**: the rows of tokens that a nonterminal derives, and the tree that the
derivation assigns to the row. A chain is folded to the left. -/
inductive Derives : Nonterminal → List Token → Expr → Prop
  | expression {w : List Token} {e : Expr} (inner : Derives .equality w e) :
      Derives .expression w e
  | chain {n : Nonterminal} {w : List Token} {e : Expr} (rest : List Link)
      (first : Derives n.next w e)
      (operators : ∀ link ∈ rest, ∃ s ∈ n.operators, link.operator.kind = .symbol s)
      (operands : ∀ link ∈ rest, Derives n.next link.words link.tree) (binary : n.operators ≠ []) :
      Derives n (w ++ rest.flatMap Link.row) (rest.foldl Link.attach e)
  | operation {t : Token} {s : Symbol} {w : List Token} {e : Expr}
      (operator : s ∈ [Symbol.bang, Symbol.minus]) (kind : t.kind = .symbol s)
      (operand : Derives .unary w e) : Derives .unary (t :: w) (.unary t e)
  | unary {w : List Token} {e : Expr} (inner : Derives .primary w e) : Derives .unary w e
  | leaf {t : Token} {v : Value} (value : t.Denotes v) : Derives .primary [t] (.literal v)
  | group {start close : Token} {w : List Token} {e : Expr}
      (startKind : start.kind = .symbol .leftParen) (inner : Derives .expression w e)
      (closeKind : close.kind = .symbol .rightParen) :
      Derives .primary (start :: (w ++ [close])) (.grouping e)

namespace Nonterminal

/-- The operators of a chain are binary operators of its level. -/
theorem exists_binaryOp?_of_mem {n : Nonterminal} {s : Symbol} (h : s ∈ n.operators) :
    ∃ op, (Kind.symbol s).binaryOp? = some op ∧ op.precedence = n.level := by
  cases n <;> simp only [operators, List.mem_cons, List.not_mem_nil, or_false] at h
  · rcases h with rfl | rfl <;> exact ⟨_, rfl, rfl⟩
  · rcases h with rfl | rfl | rfl | rfl <;> exact ⟨_, rfl, rfl⟩
  · rcases h with rfl | rfl <;> exact ⟨_, rfl, rfl⟩
  · rcases h with rfl | rfl <;> exact ⟨_, rfl, rfl⟩

/-- The operands of a chain bind one level more tightly than the chain. -/
theorem level_next_of_operators {n : Nonterminal} (h : n.operators ≠ []) :
    n.next.level = n.level + 1 := by
  cases n <;> first | rfl | exact absurd rfl h

/-- The next nonterminal of one that is looser than another is one level tighter. -/
theorem level_next_of_lt {m n : Nonterminal} (h : n.level < m.level) :
    n.next.level = n.level + 1 ∧ n.next ≠ .primary := by
  cases n with
  | unary | primary => cases m <;> exact absurd h (by decide)
  | _ => exact ⟨rfl, by decide⟩

/-- No two nonterminals but the tightest ones have the same level. -/
theorem eq_of_level_eq {m n : Nonterminal} (hm : m ≠ .primary) (hn : n ≠ .primary)
    (h : n.level = m.level) : n = m := by
  cases m <;> cases n <;> first | rfl | contradiction

end Nonterminal

namespace BinaryOp

/-- The nonterminal whose chains an operator makes. -/
def nonterminal : BinaryOp → Nonterminal
  | equal | notEqual => .equality
  | greater | greaterEqual | less | lessEqual => .comparison
  | add | subtract => .term
  | multiply | divide => .factor

/-- An operator is one of those of its nonterminal. -/
theorem symbol_mem_operators (op : BinaryOp) : op.symbol ∈ op.nonterminal.operators := by
  cases op <;> decide

/-- The precedence of an operator is the level of its nonterminal. -/
theorem level_nonterminal (op : BinaryOp) : op.nonterminal.level = op.precedence := by
  cases op <;> rfl

end BinaryOp

/-! ## From derivations to shaped trees -/

namespace Derives

/-- What a derivation makes sure of: the tree is proper and shaped, binds at least as tightly as the
nonterminal, and has the derived row. -/
structure Assigns (n : Nonterminal) (w : List Token) (e : Expr) : Prop where
  /-- All operators stand in their position. -/
  proper : e.Proper
  /-- All operands bind tightly enough. -/
  shaped : e.Shaped
  /-- The tree binds at least as tightly as the nonterminal. -/
  level_le : n.level ≤ e.level
  /-- The tree has the derived row. -/
  spells : e.Spells w

/-- **Folding a chain to the left** keeps what its first operand makes sure of.

**Proof sketch.** Induction on the links. Each step puts the tree so far, which binds at least as
tightly as the chain, to the left of an operand that binds more tightly. -/
theorem Assigns.foldl {n : Nonterminal} {rest : List Link}
    (operators : ∀ link ∈ rest, ∃ s ∈ n.operators, link.operator.kind = .symbol s)
    (operands : ∀ link ∈ rest, Assigns n.next link.words link.tree) {w : List Token} {e : Expr}
    (h : Assigns n w e) :
    Assigns n (w ++ rest.flatMap Link.row) (rest.foldl Link.attach e) := by
  induction rest generalizing w e with
  | nil => simpa using h
  | cons link rest ih =>
    obtain ⟨t, vs, right⟩ := link
    obtain ⟨s, hs, hk⟩ := operators _ List.mem_cons_self
    have hright : Assigns n.next vs right := operands _ List.mem_cons_self
    obtain ⟨op, hop, hprec⟩ := Nonterminal.exists_binaryOp?_of_mem hs
    have hbinary : t.kind.binaryOp? = some op := (congrArg Kind.binaryOp? hk).trans hop
    have ht : t.precedence = n.level := by rw [Token.precedence_of_binaryOp? hbinary, hprec]
    have hnext : n.next.level = n.level + 1 :=
      Nonterminal.level_next_of_operators (List.ne_nil_of_mem hs)
    have hstep : Assigns n (w ++ t :: vs) (.binary e t right) := by
      refine ⟨⟨h.proper, ?_, hright.proper⟩, ⟨h.shaped, hright.shaped, ?_, ?_⟩, ?_, ?_⟩
      · simp [Token.IsBinary, hbinary]
      · rw [ht]
        exact h.level_le
      · have := hright.level_le
        omega
      · exact Nat.le_of_eq ht.symm
      · exact Expr.spells_binary.mpr ⟨w, vs, rfl, h.spells, hright.spells⟩
    have := ih (fun l hl => operators l (List.mem_cons_of_mem _ hl))
      (fun l hl => operands l (List.mem_cons_of_mem _ hl)) hstep
    simpa [Link.row, Link.attach] using this

/-- The tree of a derivation is proper and shaped and has the derived row. -/
theorem assigns {n : Nonterminal} {w : List Token} {e : Expr} (h : Derives n w e) :
    Assigns n w e := by
  induction h with
  | expression _ ih => exact ⟨ih.proper, ih.shaped, Nat.zero_le _, ih.spells⟩
  | chain _ _ operators _ binary ihfirst ihoperands =>
    have hnext := Nonterminal.level_next_of_operators binary
    have := ihfirst.level_le
    exact Assigns.foldl operators ihoperands
      ⟨ihfirst.proper, ihfirst.shaped, by omega, ihfirst.spells⟩
  | operation operator kind _ ih =>
    exact ⟨⟨Token.isUnary_iff.mpr ⟨_, operator, kind⟩, ih.proper⟩, ⟨ih.shaped, ih.level_le⟩,
      Nat.le_refl _, Expr.spells_unary.mpr ⟨_, rfl, ih.spells⟩⟩
  | unary _ ih => exact ⟨ih.proper, ih.shaped, ih.level_le, ih.spells⟩
  | leaf value => exact ⟨trivial, trivial, Nat.le_refl _, Expr.spells_literal.mpr ⟨_, rfl, value⟩⟩
  | group startKind _ closeKind ih =>
    exact ⟨ih.proper, ih.shaped, Nat.le_refl _,
      Expr.spells_grouping.mpr ⟨_, _, _, rfl, startKind, ih.spells, closeKind⟩⟩

/-! ## From shaped trees to derivations -/

/-- What a nonterminal derives, the next looser one does too. -/
theorem loosen {n : Nonterminal} {w : List Token} {e : Expr} (h : Derives n.next w e)
    (hn : n ≠ .primary) : Derives n w e := by
  have chain (binary : n.operators ≠ []) : Derives n w e := by
    have := Derives.chain [] h (by simp) (by simp) binary
    simpa using this
  cases n with
  | expression => exact .expression h
  | equality | comparison | term | factor => exact chain (by decide)
  | unary => exact .unary h
  | primary => exact absurd rfl hn

/-- What a nonterminal derives, all looser ones do too.

**Proof sketch.** Induction on the distance between the levels. -/
theorem loosen_of_level_le {m n : Nonterminal} {w : List Token} {e : Expr} (h : Derives m w e)
    (hm : m ≠ .primary) (hn : n ≠ .primary) (hle : n.level ≤ m.level) : Derives n w e := by
  induction hd : m.level - n.level generalizing n with
  | zero => rwa [Nonterminal.eq_of_level_eq hm hn (by omega)]
  | succ d ih =>
    obtain ⟨hlevel, hnext⟩ := Nonterminal.level_next_of_lt (m := m) (n := n) (by omega)
    exact (ih hnext (by omega) (by omega)).loosen hn

/-- A chain can be made one link longer. -/
theorem snoc {n : Nonterminal} {us vs : List Token} {t : Token} {left right : Expr} {s : Symbol}
    (hleft : Derives n us left) (hs : s ∈ n.operators) (hk : t.kind = .symbol s)
    (hright : Derives n.next vs right) : Derives n (us ++ t :: vs) (.binary left t right) := by
  cases hleft with
  | @chain _ w e rest first operators operands binary =>
    have := Derives.chain (rest ++ [⟨t, vs, right⟩]) first
      (List.forall_mem_append.mpr ⟨operators, by simpa using ⟨s, hs, hk⟩⟩)
      (List.forall_mem_append.mpr ⟨operands, by simpa using hright⟩) binary
    simpa [Link.row, Link.attach] using this
  | expression | operation | unary | leaf | group => cases hs

/-- **A proper and shaped tree is derived** by every nonterminal that binds no more tightly.

**Proof sketch.** Induction on the tree. Values and groups come from `primary`. A binary operation
is a chain of its operator's nonterminal: the left operand is a chain of this nonterminal, and the
right operand comes from the next one. -/
theorem of_shaped {e : Expr} (proper : e.Proper) (shaped : e.Shaped) {w : List Token}
    (spells : e.Spells w) {n : Nonterminal} (hn : n ≠ .primary) (hle : n.level ≤ e.level) :
    Derives n w e := by
  induction e generalizing w n with
  | literal v =>
    obtain ⟨t, rfl, hv⟩ := Expr.spells_literal.mp spells
    exact (Derives.unary (.leaf hv)).loosen_of_level_le (by decide) hn hle
  | grouping inner ih =>
    obtain ⟨start, body, close, rfl, hs, hb, hc⟩ := Expr.spells_grouping.mp spells
    have := ih proper shaped hb (n := .expression) (by decide) (Nat.zero_le _)
    exact (Derives.unary (.group hs this hc)).loosen_of_level_le (by decide) hn hle
  | unary t operand ih =>
    obtain ⟨body, rfl, hb⟩ := Expr.spells_unary.mp spells
    obtain ⟨s, hs, hk⟩ := Token.isUnary_iff.mp proper.1
    have := ih proper.2 shaped.1 hb (n := .unary) (by decide) shaped.2
    exact (Derives.operation hs hk this).loosen_of_level_le (by decide) hn hle
  | binary left t right ihl ihr =>
    obtain ⟨us, vs, rfl, hu, hv⟩ := Expr.spells_binary.mp spells
    obtain ⟨hproperl, ht, hproperr⟩ := proper
    obtain ⟨hshapedl, hshapedr, hl, hr⟩ := shaped
    obtain ⟨op, hop⟩ := Option.isSome_iff_exists.mp ht
    have hmem := op.symbol_mem_operators
    have hlevel : op.nonterminal.level = t.precedence := by
      rw [op.level_nonterminal, Token.precedence_of_binaryOp? hop]
    have hm : op.nonterminal ≠ .primary := by cases op <;> decide
    have hnext : op.nonterminal.next ≠ .primary := by cases op <;> decide
    have hnextLevel := Nonterminal.level_next_of_operators (List.ne_nil_of_mem hmem)
    have hleft := ihl hproperl hshapedl hu hm (by omega)
    have hright := ihr hproperr hshapedr hv hnext (by omega)
    have := hleft.snoc hmem (BinaryOp.eq_symbol_of_binaryOp? hop) hright
    exact this.loosen_of_level_le hm hn (Nat.le_trans hle (Nat.le_of_eq hlevel.symm))

end Derives

/-- The trees of derivations are the proper and shaped trees with the derived row. -/
theorem derives_expression_iff {w : List Token} {e : Expr} :
    Derives .expression w e ↔ e.Proper ∧ e.Shaped ∧ e.Spells w := by
  constructor
  · intro h
    exact ⟨h.assigns.proper, h.assigns.shaped, h.assigns.spells⟩
  · rintro ⟨proper, shaped, spells⟩
    exact .of_shaped proper shaped spells (by decide) (Nat.zero_le _)

/-! ## The two grammars derive the same rows -/

/-- The kinds of the links of a chain of tokens are the links of a chain of kinds. -/
theorem exists_links_of_tokens {n : Nonterminal} {rest : List Link}
    (operators : ∀ link ∈ rest, ∃ s ∈ n.operators, link.operator.kind = .symbol s)
    (operands : ∀ link ∈ rest, Generates n.next (link.words.map Token.kind)) :
    ∃ rest' : List (Symbol × List Kind),
      (rest.flatMap Link.row).map Token.kind = rest'.flatMap (fun l => .symbol l.1 :: l.2) ∧
      (∀ l ∈ rest', l.1 ∈ n.operators) ∧ ∀ l ∈ rest', Generates n.next l.2 := by
  induction rest with
  | nil => exact ⟨[], rfl, by simp, by simp⟩
  | cons link rest ih =>
    obtain ⟨hoperator, hoperators⟩ := List.forall_mem_cons.mp operators
    obtain ⟨hoperand, hoperands⟩ := List.forall_mem_cons.mp operands
    obtain ⟨s, hs, hk⟩ := hoperator
    obtain ⟨rest', hrow, hops, hgen⟩ := ih hoperators hoperands
    refine ⟨(s, link.words.map Token.kind) :: rest', ?_, ?_, ?_⟩
    · simp [Link.row, hk, ← hrow]
    · exact List.forall_mem_cons.mpr ⟨hs, hops⟩
    · exact List.forall_mem_cons.mpr ⟨hoperand, hgen⟩

/-- The kinds of derived tokens are derived. -/
theorem Derives.generates {n : Nonterminal} {w : List Token} {e : Expr} (h : Derives n w e) :
    Generates n (w.map Token.kind) := by
  induction h with
  | expression _ ih => exact .expression ih
  | chain _ _ operators _ binary ihfirst ihoperands =>
    obtain ⟨rest, hrow, hops, hgen⟩ := exists_links_of_tokens operators ihoperands
    rw [List.map_append, hrow]
    exact .chain ihfirst hops hgen binary
  | operation operator kind _ ih =>
    rw [List.map_cons, kind]
    exact .operation operator ih
  | unary _ ih => exact .unary ih
  | leaf value => exact .leaf (Token.exists_denotes_iff.mp ⟨_, value⟩)
  | group startKind _ closeKind ih =>
    simp only [List.map_cons, List.map_append, List.map_nil, startKind, closeKind]
    exact .group ih

/-- Tokens of the kinds of links are the links of a chain of tokens. -/
theorem exists_links_of_kinds {n : Nonterminal} {rest : List (Symbol × List Kind)}
    (operators : ∀ l ∈ rest, l.1 ∈ n.operators)
    (operands : ∀ l ∈ rest, ∀ w : List Token, w.map Token.kind = l.2 → ∃ e, Derives n.next w e)
    {w : List Token} (hw : w.map Token.kind = rest.flatMap fun l => .symbol l.1 :: l.2) :
    ∃ rest' : List Link, w = rest'.flatMap Link.row ∧
      (∀ link ∈ rest', ∃ s ∈ n.operators, link.operator.kind = .symbol s) ∧
      ∀ link ∈ rest', Derives n.next link.words link.tree := by
  induction rest generalizing w with
  | nil => exact ⟨[], by simpa using hw, by simp, by simp⟩
  | cons l rest ih =>
    obtain ⟨hoperator, hoperators⟩ := List.forall_mem_cons.mp operators
    obtain ⟨hoperand, hoperands⟩ := List.forall_mem_cons.mp operands
    rw [List.flatMap_cons, List.cons_append] at hw
    obtain ⟨t, ts, rfl, hk, hts⟩ := List.map_eq_cons_iff.mp hw
    obtain ⟨vs, us, rfl, hvs, hus⟩ := List.map_eq_append_iff.mp hts
    obtain ⟨e, he⟩ := hoperand vs hvs
    obtain ⟨rest', rfl, hops, hder⟩ := ih hoperators hoperands hus
    refine ⟨⟨t, vs, e⟩ :: rest', by simp [Link.row], ?_, ?_⟩
    · exact List.forall_mem_cons.mpr ⟨⟨_, hoperator, hk⟩, hops⟩
    · exact List.forall_mem_cons.mpr ⟨he, hder⟩

/-- Tokens of derived kinds are derived, with some tree. -/
theorem Generates.exists_derives {n : Nonterminal} {ks : List Kind} (h : Generates n ks)
    {w : List Token} (hw : w.map Token.kind = ks) : ∃ e, Derives n w e := by
  induction h generalizing w with
  | expression _ ih =>
    obtain ⟨e, he⟩ := ih hw
    exact ⟨e, .expression he⟩
  | chain _ operators _ binary ihfirst ihoperands =>
    obtain ⟨us, vs, rfl, hus, hvs⟩ := List.map_eq_append_iff.mp hw
    obtain ⟨e, he⟩ := ihfirst hus
    obtain ⟨rest, rfl, hops, hder⟩ :=
      exists_links_of_kinds operators (fun l hl w hw => ihoperands l hl hw) hvs
    exact ⟨_, .chain _ he hops hder binary⟩
  | operation operator _ ih =>
    obtain ⟨t, ts, rfl, hk, hts⟩ := List.map_eq_cons_iff.mp hw
    obtain ⟨e, he⟩ := ih hts
    exact ⟨_, .operation operator hk he⟩
  | unary _ ih =>
    obtain ⟨e, he⟩ := ih hw
    exact ⟨e, .unary he⟩
  | leaf kind =>
    obtain ⟨t, rfl, rfl⟩ := List.map_eq_singleton_iff.mp hw
    obtain ⟨v, hv⟩ := Token.exists_denotes_iff.mpr kind
    exact ⟨_, .leaf hv⟩
  | group _ ih =>
    obtain ⟨start, ts, rfl, hs, hts⟩ := List.map_eq_cons_iff.mp hw
    obtain ⟨body, cs, rfl, hb, hcs⟩ := List.map_eq_append_iff.mp hts
    obtain ⟨close, rfl, hc⟩ := List.map_eq_singleton_iff.mp hcs
    obtain ⟨e, he⟩ := ih hb
    exact ⟨_, .group hs he hc⟩

/-- A row of tokens has a tree if and only if its kinds are derived. -/
theorem generates_iff_exists_derives {n : Nonterminal} {w : List Token} :
    Generates n (w.map Token.kind) ↔ ∃ e, Derives n w e :=
  ⟨fun h => h.exists_derives rfl, fun ⟨_, h⟩ => h.generates⟩

/-! ## Parsing is derivation -/

/-- The trees of lists of tokens are the trees of derivations of their words. -/
theorem parse_eq_ok_iff_derives {tokens : List Token} {e : Expr} :
    parse tokens = .ok e ↔ Derives .expression (Token.words tokens) e := by
  rw [parse_eq_ok_iff, Expr.read_eq_ok_iff, derives_expression_iff]

/-- **Parsing is derivation in the grammar of expressions.** The words of a list of tokens are the
tokens before its first end of input. Parsing gives a tree if and only if the kinds of the words are
derived from `expression`; it is then the one tree that a derivation assigns to the words, the row
of the tree is the words one by one, and nothing is added to the log.

**Proof sketch.** Parsing, derivations and proper and shaped trees with the words as their row are
the same (`Expr.read_eq_ok_iff`, `derives_expression_iff`). As parsing has one answer at most, no
row has two trees. -/
theorem Log.parse_eq_some_iff_derives (log : Log) (tokens : List Token) :
    ((∃ e, (log.parse tokens).1 = some e) ↔
      Generates .expression ((Token.words tokens).map Token.kind)) ∧
    (∀ e, (log.parse tokens).1 = some e ↔ Derives .expression (Token.words tokens) e) ∧
    (∀ e e', Derives .expression (Token.words tokens) e →
      Derives .expression (Token.words tokens) e' → e = e') ∧
    ∀ e, (log.parse tokens).1 = some e →
      List.Forall₂ Item.Spells e.yield (Token.words tokens) ∧ (log.parse tokens).2 = log := by
  have hparse (e : Expr) :
      (log.parse tokens).1 = some e ↔ Derives .expression (Token.words tokens) e := by
    rw [parse_fst_eq_some_iff, parse_eq_ok_iff_derives]
  refine ⟨?_, hparse, ?_, ?_⟩
  · simp only [hparse, generates_iff_exists_derives]
  · intro e e' he he'
    have := ((hparse e).mpr he).symm.trans ((hparse e').mpr he')
    exact Option.some_inj.mp this
  · intro e he
    exact ⟨((hparse e).mp he).assigns.spells, parse_snd_of_fst_eq_some he⟩

end Lox
