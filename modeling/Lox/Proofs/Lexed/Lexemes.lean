import Lox.Proofs.Expr.Lines
import Lox.Proofs.Lexed.Munch

set_option autoImplicit false

/-!
# The texts of tokens

What a token is depends on nothing but its text. Written one after another with a space between each two,
the texts of the tokens of a source text therefore have the same tokens again: a space ends whatever
token stands in front of it, and it begins none.

## Main definitions

* `Lox.Piece.spaced` — a row of pieces with a space between each two.
* `Lox.Token.spaced` — the texts of tokens with a space between each two.

## Main results

* `Lox.Piece.Delimits.ends` — a token text ends in front of a space.
* `Lox.Piece.split_spaced` — token texts with spaces between them are found again.
* `Lox.Log.lex_spaced` — the texts of the tokens of a source text have the same tokens.
-/

namespace Lox

namespace Piece

/-! ## Spaces between token texts -/

/-- The text of a token ends in front of a delimiter. -/
theorem Delimits.ends {rest : List Char} (delimits : Delimits rest) {p : Piece} (token : p.isToken) :
    p.Ends rest := by
  have hne {c : Char} (hspace : c ≠ ' ') (hparen : c ≠ ')') : rest.head? ≠ some c := by
    intro hhead
    obtain h | h := delimits c hhead
    · exact hspace h
    · exact hparen h
  cases p with
  | symbol s => exact ⟨fun _ => hne (by decide) (by decide), fun _ => hne (by decide) (by decide)⟩
  | word letters => exact delimits.stops rfl rfl
  | number whole fraction =>
    exact ⟨delimits.stops rfl rfl, fun _ hpoint => absurd hpoint (hne (by decide) (by decide))⟩
  | string content => trivial
  | blank | comment | stray | openString => cases token

/-- A row of pieces with a space between each two. -/
def spaced (ps : List Piece) : List Piece :=
  ps.intersperse (.blank ' ')

/-- A row of at least two pieces has a space behind the first one. -/
theorem spaced_cons_cons (p q : Piece) (ps : List Piece) :
    spaced (p :: q :: ps) = p :: .blank ' ' :: spaced (q :: ps) :=
  List.intersperse_cons_cons

/-- The text of a spaced row is made of the texts of its pieces with spaces between them. -/
theorem flatMap_text_spaced (ps : List Piece) :
    (spaced ps).flatMap text = [' '].intercalate (ps.map text) := by
  induction ps with
  | nil => rfl
  | cons p ps ih =>
    cases ps with
    | nil => rfl
    | cons q ps =>
      rw [spaced_cons_cons, List.flatMap_cons, List.flatMap_cons, ih, List.map_cons, List.map_cons,
        List.map_cons, List.intercalate_cons_cons, List.append_assoc]
      rfl

/-- The token texts of a spaced row are those between which the spaces stand. -/
theorem filter_isToken_spaced {ps : List Piece} (tokens : ∀ p ∈ ps, p.isToken) :
    (spaced ps).filter isToken = ps := by
  induction ps with
  | nil => rfl
  | cons p ps ih =>
    obtain ⟨hp, hps⟩ := List.forall_mem_cons.mp tokens
    cases ps with
    | nil => exact List.filter_cons_of_pos hp
    | cons q ps =>
      rw [spaced_cons_cons, List.filter_cons_of_pos hp, List.filter_cons_of_neg Bool.false_ne_true,
        ih hps]

/-- **Token texts with spaces between them are separated.** -/
theorem separated_spaced {ps : List Piece} (tokens : ∀ p ∈ ps, p.isToken)
    (wellFormed : ∀ p ∈ ps, p.WellFormed) : Separated (spaced ps) [] := by
  induction ps with
  | nil => trivial
  | cons p ps ih =>
    obtain ⟨hp, hps⟩ := List.forall_mem_cons.mp tokens
    obtain ⟨hp', hps'⟩ := List.forall_mem_cons.mp wellFormed
    cases ps with
    | nil =>
      have hend : Delimits [] := nofun
      exact ⟨hp', hend.ends hp, trivial⟩
    | cons q ps =>
      have hspace : Delimits ((Piece.blank ' ' :: spaced (q :: ps)).flatMap text ++ []) := by
        intro c hc
        exact .inl (Option.some_inj.mp hc).symm
      rw [spaced_cons_cons]
      exact ⟨hp', hspace.ends hp, rfl, trivial, ih hps hps'⟩

/-- **Token texts with spaces between them are found again.** -/
theorem split_spaced {ps : List Piece} (tokens : ∀ p ∈ ps, p.isToken)
    (wellFormed : ∀ p ∈ ps, p.WellFormed) : split ([' '].intercalate (ps.map text)) = spaced ps := by
  have hsplit := split_append (separated_spaced tokens wellFormed)
  rw [List.append_nil, flatMap_text_spaced] at hsplit
  rw [hsplit, split, List.append_nil]

/-- A spaced row of token texts gives no cause for a fault. -/
theorem cause?_of_mem_spaced {ps : List Piece} (tokens : ∀ p ∈ ps, p.isToken) {q : Piece}
    (h : q ∈ spaced ps) : q.cause? = none := by
  induction ps with
  | nil => cases h
  | cons p ps ih =>
    obtain ⟨hp, hps⟩ := List.forall_mem_cons.mp tokens
    have hcause : p.cause? = none := by cases p <;> first | rfl | cases hp
    cases ps with
    | nil => rw [List.mem_singleton.mp h, hcause]
    | cons r ps =>
      rw [spaced_cons_cons, List.mem_cons, List.mem_cons] at h
      obtain rfl | rfl | h := h
      · exact hcause
      · rfl
      · exact ih hps h

/-! ## Tokens of the same pieces -/

/-- The tokens that one piece makes differ in nothing but their lines. -/
theorem Makes.sameButLine {p : Piece} {t u : Token} (ht : p.Makes t) (hu : p.Makes u) :
    t.SameButLine u := by
  have hkind := means_iff_kind?.mp ht.means
  rw [means_iff_kind?.mp hu.means, Option.some.injEq, Prod.mk.injEq] at hkind
  exact ⟨hkind.1.symm, ht.lexeme.trans hu.lexeme.symm, hkind.2.symm⟩

/-- The tokens that the same pieces make differ in nothing but their lines. -/
theorem forall₂_sameButLine {ps : List Piece} {ts us : List Token} (ht : List.Forall₂ Makes ps ts)
    (hu : List.Forall₂ Makes ps us) : List.Forall₂ Token.SameButLine ts us := by
  induction ht generalizing us with
  | nil =>
    cases hu
    exact .nil
  | cons ht _ ih =>
    cases hu with
    | cons hu hus => exact .cons (ht.sameButLine hu) (ih hus)

/-- The tokens that pieces make have the texts of the pieces. -/
theorem map_lexeme_of_makes {ps : List Piece} {ts : List Token} (h : List.Forall₂ Makes ps ts) :
    ts.map (·.lexeme.toList) = ps.map text := by
  induction h with
  | nil => rfl
  | cons hp _ ih => rw [List.map_cons, List.map_cons, ih, hp.lexeme, String.toList_ofList]

end Piece

/-! ## The tokens of the texts of tokens -/

/-- The texts of tokens with a space between each two. The end of the input has none. -/
def Token.spaced (tokens : List Token) : String :=
  " ".intercalate ((tokens.filter (·.kind != .endOfInput)).map lexeme)

/-- The tokens of a source text but for the end of the input are those of its pieces. -/
theorem filter_tokens_lex (source : String) :
    (lex source).tokens.filter (·.kind != .endOfInput) =
      Piece.tokens 1 (Piece.split source.toList) := by
  have hwords : ∀ t ∈ Piece.tokens 1 (Piece.split source.toList), (t.kind != .endOfInput) = true :=
    fun t ht => bne_iff_ne.mpr (Piece.ne_endOfInput_of_mem_tokens ht)
  rw [lex, Lexed.tokens_ofPieces, List.filter_append, List.filter_eq_self.mpr hwords]
  exact List.append_nil _

/-- The texts of the tokens of a source text are those of its token texts. -/
theorem toList_spaced_tokens_lex (source : String) :
    (Token.spaced (lex source).tokens).toList =
      [' '].intercalate (((Piece.split source.toList).filter Piece.isToken).map Piece.text) := by
  rw [Token.spaced, filter_tokens_lex, String.toList_intercalate, List.map_map,
    ← Piece.map_lexeme_of_makes (Piece.forall₂_makes_tokens 1 _)]
  rfl

/-- **The texts of the tokens of a source text have the same tokens.** Written with a space between each
two, they are without fault, and their tokens before the end of the input have the same kinds, texts and
literals in the same order.

**Proof sketch.** The texts are those of the pieces that are token texts. With spaces between them these
pieces are found again, so that the tokens of both texts are made by the same pieces, and what a piece
makes differs in lines at most. -/
theorem Log.lex_spaced (log log' : Log) (source : String) :
    ∃ words line, log'.lex (Token.spaced (log.lex source).1) = (words ++ [.endOfInput line], log') ∧
      List.Forall₂ Token.SameButLine ((log.lex source).1.filter (·.kind != .endOfInput)) words := by
  have htokens : ∀ p ∈ (Piece.split source.toList).filter Piece.isToken, p.isToken :=
    fun _ hp => (List.mem_filter.mp hp).2
  have wellFormed : ∀ p ∈ (Piece.split source.toList).filter Piece.isToken, p.WellFormed :=
    fun _ hp => Piece.wellFormed_of_mem_split (List.mem_filter.mp hp).1
  have hsplit : Piece.split (Token.spaced (Lox.lex source).tokens).toList =
      Piece.spaced ((Piece.split source.toList).filter Piece.isToken) := by
    rw [toList_spaced_tokens_lex, Piece.split_spaced htokens wellFormed]
  have hmakes := Piece.forall₂_makes_tokens 1 (Piece.split source.toList)
  have hmakes' := Piece.forall₂_makes_tokens 1
    (Piece.spaced ((Piece.split source.toList).filter Piece.isToken))
  rw [Piece.filter_isToken_spaced htokens] at hmakes'
  refine ⟨_, _, log'.lex_of_clean hsplit fun _ => Piece.cause?_of_mem_spaced htokens, ?_⟩
  show List.Forall₂ _ ((Lox.lex source).tokens.filter _) _
  rw [filter_tokens_lex]
  exact Piece.forall₂_sameButLine hmakes hmakes'

/-- Neither the comment nor the missing spaces matter. -/
example : Token.spaced (lex "a!=1.5// b\n\"c\"").tokens = "a != 1.5 \"c\"" := by
  decide +kernel

end Lox
