import Lox.Proofs.Piece.Cut

set_option autoImplicit false

/-!
# Every piece is the longest one

Where a piece of a text begins, it is the longest comment or token text that begins there. Only where
none begins, the piece is a blank, a quote that is never closed with all that follows it, or a single
character with which no token starts. This rule says nothing about how pieces are found, and yet it
leaves no choice: the pieces that follow it are those that splitting gives.

## Main definitions

* `Lox.Piece.Lexical` — comments and the texts of tokens.
* `Lox.Piece.Longest` — the longest comment or token text at the beginning of a text.
* `Lox.Piece.Munches` — the rows of pieces that follow the rule.

## Main results

* `Lox.Piece.Longest.ends` — what is longest is not continued by what follows it.
* `Lox.Piece.Longest.cut_eq` — the longest comment or token text is the one that is cut off.
* `Lox.Piece.munches_iff` — splitting a text gives the one row of pieces that follows the rule.
* `Lox.Piece.Munches.separated` — no piece of such a row is continued by what follows.
-/

namespace Lox

namespace Piece

/-! ## Comments and token texts -/

/-- Whether a piece is the text of a token. -/
def isToken : Piece → Bool
  | symbol _ | word _ | number _ _ | string _ => true
  | _ => false

/-- Whether a piece is a comment. -/
def isComment : Piece → Bool
  | comment _ => true
  | _ => false

/-- **Comments and token texts**, made as their kinds demand. -/
def Lexical (p : Piece) : Prop :=
  p.WellFormed ∧ (p.isToken ∨ p.isComment)

/-- **The longest comment or token text** at the beginning of a text. -/
structure Longest (p : Piece) (cs : List Char) : Prop where
  /-- The piece is a comment or a token text. -/
  lexical : p.Lexical
  /-- The text begins with the piece. -/
  begins : p.text <+: cs
  /-- No other comment or token text at the beginning of the text is longer. -/
  longest : ∀ q : Piece, q.Lexical → q.text <+: cs → q.text.length ≤ p.text.length

/-- Whether a character is no blank, and no comment or token text starts with it. -/
def StartsNothing (c : Char) : Prop :=
  ¬c.isWhitespace ∧ ∀ q : Piece, q.Lexical → q.text.head? ≠ some c

/-- **The rows of pieces of which each is the longest one.** A row makes up a text piece by piece: a
blank, the longest comment or token text, a character that starts none, or a quote that is never
closed and all that follows it. -/
inductive Munches : List Char → List Piece → Prop
  | nil : Munches [] []
  | blank {c : Char} {cs : List Char} {ps : List Piece} (space : c ∈ [' ', '\t', '\r', '\n'])
      (others : Munches cs ps) : Munches (c :: cs) (blank c :: ps)
  | longest {p : Piece} {rest : List Char} {ps : List Piece} (longest : p.Longest (p.text ++ rest))
      (others : Munches rest ps) : Munches (p.text ++ rest) (p :: ps)
  | stray {c : Char} {cs : List Char} {ps : List Piece} (nothing : StartsNothing c)
      (others : Munches cs ps) : Munches (c :: cs) (stray c :: ps)
  | openString {content : List Char} (unclosed : '"' ∉ content) :
      Munches ('"' :: content) [openString content]

/-! ## What is longest ends -/

/-- A text that does not stop at a class begins with a character of it. -/
theorem exists_cons_of_not_stops {p : Char → Bool} {rest : List Char} (h : ¬Stops p rest) :
    ∃ c cs, rest = c :: cs ∧ p c := by
  cases rest with
  | nil => exact absurd nofun h
  | cons c cs =>
    refine ⟨c, cs, rfl, ?_⟩
    by_contra hc
    refine h fun d hd => ?_
    obtain rfl : c = d := Option.some_inj.mp hd
    simpa using hc

/-- A symbol that does not end is continued by an equals sign, or to a comment by a second slash. -/
theorem exists_longer_symbol {s : Symbol} {rest : List Char} (h : ¬(symbol s).Ends rest) :
    ∃ q : Piece, q.Lexical ∧ q.text <+: (symbol s).text ++ rest ∧
      (symbol s).text.length < q.text.length := by
  obtain h | h := not_and_or.mp h
  · obtain ⟨hequal, hhead⟩ := Classical.not_imp.mp h
    obtain ⟨t, ht⟩ := Option.isSome_iff_exists.mp hequal
    obtain ⟨cs, rfl⟩ := List.head?_eq_some_iff.mp (not_not.mp hhead)
    exact ⟨symbol t, ⟨trivial, .inl rfl⟩, ⟨cs, by simp [text, text_of_withEqual? ht]⟩,
      by simp [text, text_of_withEqual? ht]⟩
  · obtain ⟨rfl, hhead⟩ := Classical.not_imp.mp h
    obtain ⟨cs, rfl⟩ := List.head?_eq_some_iff.mp (not_not.mp hhead)
    exact ⟨comment [], ⟨List.not_mem_nil, .inr rfl⟩, ⟨cs, rfl⟩, Nat.lt_succ_self 1⟩

/-- A number that does not end is continued by a digit, or by a point with a digit. -/
theorem exists_longer_number {whole fraction : List Char}
    (wellFormed : (number whole fraction).WellFormed) {rest : List Char}
    (h : ¬(number whole fraction).Ends rest) :
    ∃ q : Piece, q.Lexical ∧ q.text <+: (number whole fraction).text ++ rest ∧
      (number whole fraction).text.length < q.text.length := by
  obtain ⟨hne, hwhole, hfraction⟩ := wellFormed
  have snoc {ds : List Char} (hds : ∀ d ∈ ds, d.isDigit) {c : Char} (hc : c.isDigit) :
      ∀ d ∈ ds ++ [c], d.isDigit :=
    List.forall_mem_append.mpr ⟨hds, by simpa using hc⟩
  obtain h | h := not_and_or.mp h
  · obtain ⟨c, cs, rfl, hc⟩ := exists_cons_of_not_stops h
    cases fraction with
    | nil =>
      exact ⟨number (whole ++ [c]) [], ⟨⟨by simp, snoc hwhole hc, nofun⟩, .inl rfl⟩,
        ⟨cs, by simp [text]⟩, by simp [text]⟩
    | cons d ds =>
      exact ⟨number whole (d :: ds ++ [c]), ⟨⟨hne, hwhole, snoc hfraction hc⟩, .inl rfl⟩,
        ⟨cs, by simp [text]⟩, by simp [text]⟩
  · obtain ⟨hnil, hrest⟩ := Classical.not_imp.mp h
    obtain ⟨hpoint, hdigit⟩ := Classical.not_imp.mp hrest
    obtain ⟨cs, rfl⟩ := List.head?_eq_some_iff.mp hpoint
    obtain ⟨c, ds, rfl, hc⟩ := exists_cons_of_not_stops hdigit
    subst hnil
    exact ⟨number whole [c], ⟨⟨hne, hwhole, snoc hfraction hc⟩, .inl rfl⟩,
      ⟨ds, by simp [text]⟩, by simp [text]⟩

/-- **A comment or a token text that does not end is continued** to a longer one by what follows it.

**Proof sketch.** By the kind of the piece. A character that continues a comment, a word or the digits
of a number is added to it, an equals sign makes the longer symbol, a second slash begins a comment,
and a point with a digit begins the fraction of a number. A string is never continued. -/
theorem Lexical.exists_longer {p : Piece} (lexical : p.Lexical) {rest : List Char}
    (h : ¬p.Ends rest) :
    ∃ q : Piece, q.Lexical ∧ q.text <+: p.text ++ rest ∧ p.text.length < q.text.length := by
  obtain ⟨wellFormed, hkind⟩ := lexical
  cases p with
  | blank c | stray c | openString content => simp [isToken, isComment] at hkind
  | comment body =>
    obtain ⟨c, cs, rfl, hc⟩ := exists_cons_of_not_stops h
    have hbody : '\n' ∉ body ++ [c] := by
      have hne : '\n' ≠ c := (bne_iff_ne.mp hc).symm
      rw [List.mem_append, List.mem_singleton]
      exact not_or.mpr ⟨wellFormed, hne⟩
    exact ⟨comment (body ++ [c]), ⟨hbody, .inr rfl⟩, ⟨cs, by simp [text]⟩, by simp [text]⟩
  | symbol s => exact exists_longer_symbol h
  | word letters =>
    obtain ⟨c, cs, rfl, hc⟩ := exists_cons_of_not_stops h
    obtain ⟨d, ds, rfl, hd, hds⟩ := wellFormed
    have hword : ∀ e ∈ ds ++ [c], isWordChar e :=
      List.forall_mem_append.mpr ⟨hds, by simpa using hc⟩
    exact ⟨word (d :: (ds ++ [c])), ⟨⟨d, _, rfl, hd, hword⟩, .inl rfl⟩, ⟨cs, by simp [text]⟩,
      by simp [text]⟩
  | number whole fraction => exact exists_longer_number wellFormed h
  | string content => exact absurd trivial h

/-- What is longest is not continued by what follows it. -/
theorem Longest.ends {p : Piece} {rest : List Char} (longest : p.Longest (p.text ++ rest)) :
    p.Ends rest := by
  by_contra h
  obtain ⟨q, lexical, begins, hlt⟩ := longest.lexical.exists_longer h
  have hle := longest.longest q lexical begins
  omega

/-- **Where a comment or a token text begins, there is a longest one**, and it is at least as long.

**Proof sketch.** Induction on what is left of the text behind the piece: unless the piece is the
longest itself, there is a longer one that leaves less. -/
theorem Lexical.exists_longest {q : Piece} (lexical : q.Lexical) {cs : List Char}
    (begins : q.text <+: cs) : ∃ p : Piece, p.Longest cs ∧ q.text.length ≤ p.text.length := by
  induction hleft : cs.length - q.text.length using Nat.strong_induction_on generalizing q with
  | _ left ih =>
    by_cases longest : q.Longest cs
    · exact ⟨q, longest, Nat.le_refl _⟩
    · have hlonger : ∃ r : Piece, r.Lexical ∧ r.text <+: cs ∧ q.text.length < r.text.length := by
        by_contra hnone
        refine longest ⟨lexical, begins, fun r hr hbegins => ?_⟩
        by_contra hlt
        exact hnone ⟨r, hr, hbegins, Nat.lt_of_not_le hlt⟩
      obtain ⟨r, hr, hbegins, hlt⟩ := hlonger
      have hle := hbegins.length_le
      obtain ⟨p, hp, hrp⟩ := ih (cs.length - r.text.length) (by omega) hr hbegins rfl
      exact ⟨p, hp, by omega⟩

/-- **The longest comment or token text is the one that is cut off.** -/
theorem Longest.cut_eq {p : Piece} {c : Char} {cs : List Char} (longest : p.Longest (c :: cs)) :
    (cut c cs).1 = p := by
  obtain ⟨rest, hrest⟩ := longest.begins
  obtain ⟨d, ds, htext⟩ := longest.lexical.1.exists_text_eq_cons
  rw [← hrest] at longest
  have hcut := cut_of_ends htext longest.lexical.1 longest.ends
  rw [htext, List.cons_append] at hrest
  cases hrest
  rw [hcut]

/-- A piece that is cut off is the longest one, if it is a comment or a token text. -/
theorem longest_cut {c : Char} {cs : List Char} (h : (cut c cs).1.Lexical) :
    (cut c cs).1.Longest (c :: cs) := by
  have begins : (cut c cs).1.text <+: c :: cs := ⟨_, text_cut c cs⟩
  obtain ⟨p, longest, -⟩ := h.exists_longest begins
  rw [longest.cut_eq]
  exact longest

/-! ## Pieces that are neither comments nor token texts -/

/-- The first character of a cut piece is the first character of the text. -/
theorem head?_text_cut (c : Char) (cs : List Char) : (cut c cs).1.text.head? = some c := by
  obtain ⟨d, ds, htext⟩ := (wellFormed_cut c cs).exists_text_eq_cons
  have h := text_cut c cs
  rw [htext, List.cons_append] at h
  rw [htext, (List.cons.inj h).1]
  rfl

/-- The characters that are cut off as blanks. -/
theorem wellFormed_blank_iff {c : Char} : (blank c).WellFormed ↔ c ∈ [' ', '\t', '\r', '\n'] := by
  simp [Char.isWhitespace, WellFormed, or_assoc]

/-- A character begins a piece that is cut off as a stray one if and only if it starts nothing. -/
theorem wellFormed_stray_iff {c : Char} : (stray c).WellFormed ↔ StartsNothing c := by
  constructor
  · intro wellFormed
    refine ⟨wellFormed.1, fun q lexical hhead => ?_⟩
    obtain ⟨cs, htext⟩ := List.head?_eq_some_iff.mp hhead
    obtain ⟨p, longest, -⟩ := lexical.exists_longest (List.prefix_refl q.text)
    rw [htext] at longest
    have hcut : cut c cs = (stray c, cs) := cut_of_ends rfl wellFormed trivial
    have hp : stray c = p := by rw [← longest.cut_eq, hcut]
    obtain ⟨-, hkind⟩ := longest.lexical
    rw [← hp] at hkind
    simp [isToken, isComment] at hkind
  · rintro ⟨hspace, nothing⟩
    have hdigits : ¬(number [c] []).WellFormed := fun h => nothing _ ⟨h, .inl rfl⟩ rfl
    have hletters : ¬(word [c]).WellFormed := fun h => nothing _ ⟨h, .inl rfl⟩ rfl
    refine ⟨hspace, fun hdigit => ?_, fun hletter => ?_, ?_, ?_⟩
    · exact hdigits ⟨List.cons_ne_nil _ _, by simpa using hdigit, nofun⟩
    · exact hletters ⟨c, [], rfl, hletter, nofun⟩
    · rintro rfl
      exact nothing (string []) ⟨List.not_mem_nil, .inl rfl⟩ rfl
    · rw [Option.eq_none_iff_forall_not_mem]
      intro s hs
      refine nothing (symbol s) ⟨trivial, .inl rfl⟩ ?_
      rw [text, text_of_ofChar? hs]
      rfl

/-- Nothing is left behind a quote that is never closed. -/
theorem eq_nil_of_cut_eq_openString {c : Char} {cs content : List Char}
    (h : (cut c cs).1 = openString content) : (cut c cs).2 = [] := by
  have hquote := head?_text_cut c cs
  rw [h] at hquote
  obtain rfl : '"' = c := Option.some_inj.mp hquote
  rw [cut_quote] at h ⊢
  unfold cutString at h ⊢
  split
  · next heq => simp [heq] at h
  · rfl

/-! ## Splitting follows the rule -/

/-- **Splitting a text follows the rule.**

**Proof sketch.** Induction on the text. The first piece is well-formed, and a comment or a token text
that is cut off is the longest one. -/
theorem munches_split (cs : List Char) : Munches cs (split cs) := by
  fun_induction split cs with
  | case1 => exact .nil
  | case2 c cs ih =>
    have htext := text_cut c cs
    have wellFormed := wellFormed_cut c cs
    have longest : (cut c cs).1.Lexical → (cut c cs).1.Longest (c :: cs) := longest_cut
    have unclosed : ∀ content, (cut c cs).1 = openString content → (cut c cs).2 = [] :=
      fun _ => eq_nil_of_cut_eq_openString
    generalize cut c cs = answer at htext wellFormed longest unclosed ih ⊢
    obtain ⟨p, rest⟩ := answer
    rw [← htext] at longest ⊢
    cases p with
    | blank d => exact .blank (wellFormed_blank_iff.mp wellFormed) ih
    | stray d => exact .stray (wellFormed_stray_iff.mp wellFormed) ih
    | openString content =>
      obtain rfl : rest = [] := unclosed content rfl
      rw [List.append_nil, split]
      exact .openString wellFormed
    | comment | symbol | word | number | string =>
      exact .longest (longest ⟨wellFormed, by simp [isToken, isComment]⟩) ih

/-- A row that follows the rule is the one that splitting gives. -/
theorem Munches.eq_split {cs : List Char} {ps : List Piece} (h : Munches cs ps) :
    ps = split cs := by
  induction h with
  | nil => rw [split]
  | blank space _ ih =>
    rw [ih]
    exact (split_cons (wellFormed_blank_iff.mpr space) trivial).symm
  | longest longest _ ih => rw [split_cons longest.lexical.1 longest.ends, ih]
  | stray nothing _ ih =>
    rw [ih]
    exact (split_cons (wellFormed_stray_iff.mpr nothing) trivial).symm
  | @openString content unclosed =>
    have wellFormed : (Piece.openString content).WellFormed := unclosed
    have ends : (Piece.openString content).Ends [] := rfl
    have hsplit := split_cons wellFormed ends
    rw [List.append_nil, split] at hsplit
    exact hsplit.symm

/-- **Splitting a text gives the one row of pieces that follows the rule.** -/
theorem munches_iff {cs : List Char} {ps : List Piece} : Munches cs ps ↔ ps = split cs :=
  ⟨Munches.eq_split, fun h => h ▸ munches_split cs⟩

/-- A row that follows the rule makes up its text. -/
theorem Munches.flatMap_text {cs : List Char} {ps : List Piece} (h : Munches cs ps) :
    ps.flatMap text = cs := by
  rw [h.eq_split, flatMap_text_split]

/-- **A row that follows the rule is separated**: no piece of it is continued by what follows. -/
theorem Munches.separated {cs : List Char} {ps : List Piece} (h : Munches cs ps) :
    Separated ps [] := by
  induction h with
  | nil => trivial
  | blank space _ ih => exact ⟨wellFormed_blank_iff.mpr space, trivial, ih⟩
  | longest longest others ih =>
    refine ⟨longest.lexical.1, ?_, ih⟩
    rw [List.append_nil, others.flatMap_text]
    exact longest.ends
  | stray nothing _ ih => exact ⟨wellFormed_stray_iff.mpr nothing, trivial, ih⟩
  | openString unclosed => exact ⟨unclosed, rfl, trivial⟩

/-- A number has one point, `!=` is longer than `!`, and neither slashes between quotes nor a quote
behind slashes begin anything. -/
example : split "1.2.3!==\"//\"//\"".toList =
    [number ['1'] ['2'], symbol .dot, number ['3'] [], symbol .bangEqual, symbol .equal,
      string ['/', '/'], comment ['"']] := by
  decide +kernel

end Piece

end Lox
