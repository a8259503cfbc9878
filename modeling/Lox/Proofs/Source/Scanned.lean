import Lox.Proofs.Expr.Lines

set_option autoImplicit false

/-!
# What source texts can spell

The tokens of a source text are made from its pieces. Its symbols are therefore canonical, its
strings hold no quote and its numbers have no sign, and so it is with the expression that they make
up. Words that are not reserved have a token, but no expression holds one.

## Main definitions

* `Lox.Value.Scannable` — a value that a token can stand for.
* `Lox.Expr.Finite` — all numbers of a tree are finite.

## Main results

* `Lox.Expr.all_of_parseSource` — what all expressions of source texts are made of.
* `Lox.Expr.Legible.finite_of_parseSource` — the source text of a tree with an infinite number or
  with what is no number is no expression.
-/

namespace Lox

/-! ## Values of pieces -/

namespace Number

/-- A number that is read from a decimal has no sign. -/
theorem signBit_ofDecimal (d : Decimal) : (ofDecimal d).signBit = false := by
  have hle := Binary64.nearest_le_infinity d.coefficient (Nat.pow 10 d.places)
  rw [signBit, ofDecimal, toNat_toBits_ofBits hle, decide_eq_false_iff_not]
  simp only [signPattern, Binary64.infinity] at hle ⊢
  omega

end Number

namespace Value

/-- Whether a token of a source text can stand for a value: a number if its sign bit is clear, a string
if it holds no quote, and any other value. -/
def Scannable : Value → Prop
  | number x => x.signBit = false
  | string s => '"' ∉ s.toList
  | _ => True

/-- Whether a value is anything but an infinite number or what is no number. -/
def Finite : Value → Prop
  | number x => x.Finite
  | _ => True

/-- What a token can stand for holds no quote. -/
theorem Scannable.quotable {v : Value} (scannable : v.Scannable) : v.Quotable := by
  cases v with
  | string s => exact scannable
  | _ => trivial

/-- What a token can stand for can be spelled if it is finite. -/
theorem Scannable.spellable {v : Value} (scannable : v.Scannable) (finite : v.Finite) :
    v.Spellable := by
  cases v with
  | number x => exact ⟨finite, scannable⟩
  | string s => exact scannable
  | _ => trivial

end Value

namespace Piece

/-- Only digits stand for a number. -/
theorem eq_number_of_kind? {p : Piece} {k : Kind} {x : Number}
    (h : p.kind? = some (k, some (.number x))) :
    ∃ whole fraction, Number.ofDecimal (.ofDigits whole fraction) = x := by
  cases p with
  | number whole fraction =>
    simp only [kind?, Option.some.injEq, Prod.mk.injEq, Literal.number.injEq] at h
    exact ⟨whole, fraction, h.2⟩
  | _ => simp [kind?] at h

/-- Only a text in quotes stands for a string. -/
theorem eq_string_of_kind? {p : Piece} {k : Kind} {s : String}
    (h : p.kind? = some (k, some (.string s))) : p = string s.toList := by
  cases p with
  | string content =>
    simp only [kind?, Option.some.injEq, Prod.mk.injEq, Literal.string.injEq] at h
    rw [← h.2, String.toList_ofList]
  | _ => simp [kind?] at h

/-- The token of a well-formed piece stands for a value without a sign and without a quote. -/
theorem WellFormed.scannable {p : Piece} (wellFormed : p.WellFormed) {line : Nat} {t : Token}
    (ht : p.token? line = some t) {v : Value} (denotes : t.Denotes v) : v.Scannable := by
  obtain ⟨hkind, -⟩ := token?_eq_some_iff.mp ht
  cases denotes with
  | number _ hliteral =>
    rw [hliteral] at hkind
    obtain ⟨whole, fraction, rfl⟩ := eq_number_of_kind? hkind
    exact Number.signBit_ofDecimal _
  | string _ hliteral =>
    rw [hliteral] at hkind
    rw [eq_string_of_kind? hkind] at wellFormed
    exact wellFormed
  | _ => trivial

/-- The token of a piece is canonical if it is a symbol. -/
theorem canonical_of_symbol {p : Piece} {line : Nat} {t : Token} {s : Symbol}
    (ht : p.token? line = some t) (hs : t.kind = .symbol s) : t.Canonical := by
  cases p with
  | symbol r =>
    rw [token?_symbol] at ht
    cases ht
    exact ⟨rfl, rfl⟩
  | word letters =>
    obtain ⟨hkind, -⟩ := token?_eq_some_iff.mp ht
    rw [hs] at hkind
    obtain ⟨_, hword⟩ | hword := kind_of_word hkind <;> cases hword
  | number | string =>
    obtain ⟨hkind, -⟩ := token?_eq_some_iff.mp ht
    rw [hs] at hkind
    cases hkind
  | _ => cases ht

/-- A piece with a kind has a token of this kind in every row that it belongs to. -/
theorem exists_mem_tokens {p : Piece} {ps : List Piece} (hp : p ∈ ps) {k : Kind}
    {literal : Option Literal} (hk : p.kind? = some (k, literal)) (line : Nat) :
    ∃ t ∈ tokens line ps, t.kind = k := by
  induction ps generalizing line with
  | nil => cases hp
  | cons q ps ih =>
    obtain rfl | hp := List.mem_cons.mp hp
    · have htoken : p.token? (line + p.newlines) =
          some ⟨k, String.ofList p.text, literal, line + p.newlines⟩ :=
        token?_eq_some_iff.mpr ⟨hk, rfl, rfl⟩
      exact ⟨_, List.mem_append_left _ (Option.mem_toList.mpr htoken), rfl⟩
    · obtain ⟨t, ht, hkind⟩ := ih hp (line + q.newlines)
      exact ⟨t, List.mem_append_right _ ht, hkind⟩

end Piece

/-! ## Expressions of tokens -/

namespace Expr

/-- What follows of the parts of a tree from what is known of all its tokens. -/
theorem Spells.all {e : Expr} {words : List Token} (spells : e.Spells words) (proper : e.Proper)
    {known : Token → Prop} (hwords : ∀ t ∈ words, known t) {value : Value → Prop}
    {before between : Token → Prop} (hvalue : ∀ t v, known t → t.Denotes v → value v)
    (hbefore : ∀ t, known t → t.IsUnary → before t)
    (hbetween : ∀ t, known t → t.IsBinary → between t) : e.All value before between := by
  induction e generalizing words with
  | literal v =>
    obtain ⟨t, rfl, denotes⟩ := spells_literal.mp spells
    exact hvalue t v (hwords t (.head _)) denotes
  | grouping inner ih =>
    obtain ⟨start, body, close, rfl, -, hbody, -⟩ := spells_grouping.mp spells
    obtain ⟨-, hrest⟩ := List.forall_mem_cons.mp hwords
    exact ih hbody proper (List.forall_mem_append.mp hrest).1
  | unary t operand ih =>
    obtain ⟨body, rfl, hbody⟩ := spells_unary.mp spells
    obtain ⟨hknown, hrest⟩ := List.forall_mem_cons.mp hwords
    exact ⟨hbefore t hknown proper.1, ih hbody proper.2 hrest⟩
  | binary left t right ihl ihr =>
    obtain ⟨us, vs, rfl, hus, hvs⟩ := spells_binary.mp spells
    obtain ⟨hleft, ht, hright⟩ := proper
    obtain ⟨hknownl, hrest⟩ := List.forall_mem_append.mp hwords
    obtain ⟨hknown, hknownr⟩ := List.forall_mem_cons.mp hrest
    exact ⟨ihl hus hleft hknownl, hbetween t hknown ht, ihr hvs hright hknownr⟩

/-- No token of a tree is an identifier. -/
theorem Spells.kind_ne_identifier {e : Expr} {words : List Token} (spells : e.Spells words)
    (proper : e.Proper) {t : Token} (ht : t ∈ words) : t.kind ≠ .identifier := by
  have hsymbol {t : Token} {s : Symbol} (h : t.kind = .symbol s) : t.kind ≠ .identifier := by
    rw [h]
    exact nofun
  induction e generalizing words with
  | literal v =>
    obtain ⟨u, rfl, denotes⟩ := spells_literal.mp spells
    obtain rfl := List.mem_singleton.mp ht
    have hleaf := Token.exists_denotes_iff.mp ⟨v, denotes⟩
    intro hkind
    simp [hkind, Kind.leaves] at hleaf
  | grouping inner ih =>
    obtain ⟨start, body, close, rfl, hstart, hbody, hclose⟩ := spells_grouping.mp spells
    simp only [List.mem_cons, List.mem_append, List.not_mem_nil, or_false] at ht
    obtain rfl | ht | rfl := ht
    · exact hsymbol hstart
    · exact ih hbody proper ht
    · exact hsymbol hclose
  | unary u operand ih =>
    obtain ⟨body, rfl, hbody⟩ := spells_unary.mp spells
    obtain ⟨hu, hoperand⟩ := proper
    obtain rfl | ht := List.mem_cons.mp ht
    · obtain ⟨s, -, hs⟩ := Token.isUnary_iff.mp hu
      exact hsymbol hs
    · exact ih hbody hoperand ht
  | binary left u right ihl ihr =>
    obtain ⟨us, vs, rfl, hus, hvs⟩ := spells_binary.mp spells
    obtain ⟨hleft, hu, hright⟩ := proper
    simp only [List.mem_append, List.mem_cons] at ht
    obtain ht | rfl | ht := ht
    · exact ihl hus hleft ht
    · obtain ⟨op, hop⟩ := hu.exists_symbol
      exact hsymbol hop
    · exact ihr hvs hright ht

/-- Whether all numbers of a tree are finite. -/
def Finite (e : Expr) : Prop :=
  e.All Value.Finite (fun _ => True) (fun _ => True)

/-- **What all expressions of source texts are made of**: canonical operators of their position, and
values without a sign and without a quote. -/
theorem all_of_parseSource {source : String} {e : Expr} (h : parseSource source = .ok e) :
    e.All Value.Scannable (fun t => t.IsUnary ∧ t.Canonical)
      (fun t => t.IsBinary ∧ t.Canonical) := by
  obtain ⟨-, proper, -, spells⟩ := parseSource_eq_ok_iff.mp h
  have hwords : ∀ t ∈ Piece.tokens 1 (Piece.split source.toList),
      ∃ p : Piece, p.WellFormed ∧ ∃ line, p.token? line = some t := by
    intro t ht
    obtain ⟨p, hp, line, hpt⟩ := Piece.exists_of_mem_tokens ht
    exact ⟨p, Piece.wellFormed_of_mem_split hp, line, hpt⟩
  refine spells.all proper hwords ?_ ?_ ?_
  · rintro t v ⟨p, wellFormed, line, hpt⟩ denotes
    exact wellFormed.scannable hpt denotes
  · rintro t ⟨p, -, line, hpt⟩ hunary
    obtain ⟨s, -, hs⟩ := Token.isUnary_iff.mp hunary
    exact ⟨hunary, Piece.canonical_of_symbol hpt hs⟩
  · rintro t ⟨p, -, line, hpt⟩ hbinary
    obtain ⟨op, hop⟩ := hbinary.exists_symbol
    exact ⟨hbinary, Piece.canonical_of_symbol hpt hop⟩

/-- A tree whose printed words are all reserved has no infinite number, and nothing that is no
number: the words that stand for these are not reserved. -/
theorem finite_of_words {e : Expr}
    (h : ∀ letters, .word letters ∈ e.pieces → Kind.ofWord (String.ofList letters) ≠ .identifier) :
    e.Finite := by
  induction e with
  | literal v =>
    cases v with
    | number x =>
      by_contra finite
      obtain ⟨letters, hletters, hbody⟩ := x.exists_body_eq_word finite
      have hmem : .word letters ∈ x.pieces := by
        rw [← hbody, Number.pieces]
        split <;> simp
      have hkind : ∀ letters ∈ [['N', 'a', 'N'], ['I', 'n', 'f', 'i', 'n', 'i', 't', 'y']],
          Kind.ofWord (String.ofList letters) = .identifier := by decide
      exact h letters hmem (hkind letters hletters)
    | _ => trivial
  | grouping inner ih =>
    exact ih fun letters hmem => h letters (.tail _ (List.mem_append_left _ hmem))
  | unary t operand ih => exact ⟨trivial, ih fun letters hmem => h letters (.tail _ hmem)⟩
  | binary left t right ihl ihr =>
    refine ⟨ihl fun letters hmem => h letters (List.mem_append_left _ hmem), trivial,
      ihr fun letters hmem => h letters (List.mem_append_right _ ?_)⟩
    exact .tail _ (.tail _ (.tail _ hmem))

/-- **The source text of a tree with a number that is not finite is no expression**: the number is
printed as a word that is not reserved. -/
theorem Legible.finite_of_parseSource {e f : Expr} (legible : e.Legible)
    (h : parseSource e.source = .ok f) : e.Finite := by
  obtain ⟨-, proper, -, spells⟩ := parseSource_eq_ok_iff.mp h
  rw [legible.split_source] at spells
  refine finite_of_words fun letters hmem hkind => ?_
  have hword : (Piece.word letters).kind? = some (.identifier, none) := by
    rw [Piece.kind?, hkind]
  obtain ⟨t, ht, hidentifier⟩ := Piece.exists_mem_tokens hmem hword 1
  exact spells.kind_ne_identifier proper ht hidentifier

end Expr

end Lox
