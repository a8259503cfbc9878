import Lox.Proofs.Lexed.Cleared
import Lox.Proofs.Source.Lines

set_option autoImplicit false

/-!
# Texts joined at a line break

A line feed ends every piece in front of it but a quote that is still open. Two source texts with a line
feed between them therefore have the tokens of the one and those of the other, and so with the faults; all
that the second text keeps of the first one is that its lines are further down. Blanks and comments that
stand between the texts change nothing but the number of lines.

## Main definitions

* `Lox.Layout` — blanks, and comments with the line feeds behind them.
* `Lox.Token.movedDown`, `Lox.LexFault.movedDown` — tokens and faults some lines further down.

## Main results

* `Lox.Piece.Ends.line_feed` — what ends at the end of a text ends before a line feed.
* `Lox.Layout.exists_pieces` — layout is made of pieces that give neither tokens nor faults.
* `Lox.Piece.collect_movedDown` — what a row of pieces gives some lines further down.
* `Lox.Log.lex_joined` — the tokens and the faults of two texts with layout between them.
-/

namespace Lox

/-! ## Layout -/

/-- **Layout**: blanks, and comments, each with the line feed that ends it. -/
inductive Layout : List Char → Prop
  | nil : Layout []
  | blank {c : Char} {cs : List Char} (space : c ∈ [' ', '\t', '\r', '\n']) (others : Layout cs) :
      Layout (c :: cs)
  | comment {body cs : List Char} (line : '\n' ∉ body) (others : Layout cs) :
      Layout ('/' :: '/' :: body ++ '\n' :: cs)

/-! ## Lines further down -/

/-- A token some lines further down. -/
def Token.movedDown (lines : Nat) (t : Token) : Token :=
  { t with line := t.line + lines }

/-- A fault of the characters some lines further down. -/
def LexFault.movedDown (lines : Nat) (fault : LexFault) : LexFault :=
  { fault with line := fault.line + lines }

namespace Piece

/-! ## Pieces in front of a line feed -/

/-- A text that does not begin with a character of a class does not with a line feed behind it, unless
the line feed is one of the class. -/
theorem Stops.line_feed {p : Char → Bool} {rest : List Char} (hfeed : p '\n' = false)
    (stops : Stops p rest) (more : List Char) : Stops p (rest ++ '\n' :: more) := by
  cases rest with
  | nil =>
    intro c hc
    cases hc
    exact hfeed
  | cons c rest => exact stops

/-- No character but a line feed is put at the front of a text. -/
theorem head?_of_line_feed {c : Char} {rest more : List Char} (hne : c ≠ '\n')
    (h : (rest ++ '\n' :: more).head? = some c) : rest.head? = some c := by
  cases rest with
  | nil => exact absurd (Option.some_inj.mp h).symm hne
  | cons d rest => exact h

/-- **What ends before a text ends before it also with a line feed behind it**, unless it is a quote
that is still open.

**Proof sketch.** By the kind of the piece. A line feed continues neither words, numbers nor symbols, and
a comment ends in front of it. -/
theorem Ends.line_feed {p : Piece} {rest : List Char} (ends : p.Ends rest)
    (closed : ∀ content, p ≠ openString content) (more : List Char) :
    p.Ends (rest ++ '\n' :: more) := by
  cases p with
  | blank c | string content | stray c => trivial
  | comment body => exact Stops.line_feed rfl ends more
  | symbol s =>
    exact ⟨fun hs hhead => ends.1 hs (head?_of_line_feed (by decide) hhead),
      fun hs hhead => ends.2 hs (head?_of_line_feed (by decide) hhead)⟩
  | word letters => exact Stops.line_feed rfl ends more
  | number whole fraction =>
    refine ⟨Stops.line_feed rfl ends.1 more, fun hnil hhead => ?_⟩
    have hpoint := head?_of_line_feed (by decide) hhead
    have hdigits := ends.2 hnil hpoint
    obtain ⟨cs, rfl⟩ := List.head?_eq_some_iff.mp hpoint
    exact Stops.line_feed rfl hdigits more
  | openString content => exact absurd rfl (closed content)

/-- Separated pieces without an open quote are separated in front of a line feed. -/
theorem Separated.line_feed {ps : List Piece} (separated : Separated ps [])
    (closed : ∀ p ∈ ps, ∀ content, p ≠ openString content) (more : List Char) :
    Separated ps ('\n' :: more) := by
  induction ps with
  | nil => trivial
  | cons p ps ih =>
    obtain ⟨wellFormed, ends, hps⟩ := separated
    obtain ⟨hp, hclosed⟩ := List.forall_mem_cons.mp closed
    rw [List.append_nil] at ends
    exact ⟨wellFormed, ends.line_feed hp more, ih hps hclosed⟩

/-! ## Pieces further down -/

section Collect

variable {α : Type} {f : Piece → Nat → Option α}

/-- What two rows of pieces give is what the one gives and, from the line on which it ends, what the
other gives. -/
theorem collect_append (line : Nat) (ps qs : List Piece) :
    collect f line (ps ++ qs) = collect f line ps ++ collect f (line + lines ps) qs := by
  induction ps generalizing line with
  | nil => rfl
  | cons p ps ih =>
    rw [List.cons_append, collect, ih, collect, lines_cons, List.append_assoc, Nat.add_assoc]

/-- Pieces that give nothing are a row that gives nothing. -/
theorem collect_eq_nil {ps : List Piece} (h : ∀ p ∈ ps, ∀ line, f p line = none) (line : Nat) :
    collect f line ps = [] := by
  induction ps generalizing line with
  | nil => rfl
  | cons p ps ih =>
    obtain ⟨hp, hps⟩ := List.forall_mem_cons.mp h
    rw [collect, hp, ih hps]
    rfl

/-- What a piece of a row gives is given by the row, on some line. -/
theorem exists_mem_collect {p : Piece} {ps : List Piece} (hp : p ∈ ps) {gives : Nat → α}
    (hgives : ∀ line, f p line = some (gives line)) (line : Nat) :
    ∃ last, gives last ∈ collect f line ps := by
  induction ps generalizing line with
  | nil => cases hp
  | cons q ps ih =>
    obtain rfl | hp := List.mem_cons.mp hp
    · exact ⟨_, List.mem_append_left _ (Option.mem_toList.mpr (hgives _))⟩
    · obtain ⟨last, hlast⟩ := ih hp (line + q.newlines)
      exact ⟨last, List.mem_append_right _ hlast⟩

/-- **What a row of pieces gives some lines further down** is what it gives, moved down by as many
lines, if that is so for each piece. -/
theorem collect_movedDown {move : α → α} {n : Nat}
    (hf : ∀ p line, f p (line + n) = (f p line).map move) (line : Nat) (ps : List Piece) :
    collect f (line + n) ps = (collect f line ps).map move := by
  induction ps generalizing line with
  | nil => rfl
  | cons p ps ih =>
    rw [collect, collect, List.map_append, Nat.add_right_comm, hf, ih]
    cases f p (line + p.newlines) <;> rfl

/-- **What two rows of pieces give with a row between them that gives nothing** is what the one gives, and
what the other gives, moved down by the lines in front of it. -/
theorem collect_joined {move : α → α} {ps qs rs : List Piece}
    (hqs : ∀ q ∈ qs, ∀ line, f q line = none)
    (hf : ∀ p line, f p (line + (lines ps + lines qs)) = (f p line).map move) (line : Nat) :
    collect f line (ps ++ (qs ++ rs)) = collect f line ps ++ (collect f line rs).map move := by
  rw [collect_append, collect_append, collect_eq_nil hqs, List.nil_append, Nat.add_assoc,
    collect_movedDown hf]

end Collect

/-- The token of a piece further down is moved down. -/
theorem token?_add (p : Piece) (line n : Nat) :
    p.token? (line + n) = (p.token? line).map (.movedDown n) := by
  rw [token?, token?, Option.map_map]
  rfl

/-- The fault of a piece further down is moved down. -/
theorem fault?_add (p : Piece) (line n : Nat) :
    p.fault? (line + n) = (p.fault? line).map (.movedDown n) := by
  rw [fault?, fault?, Option.map_map]
  rfl

end Piece

/-- **Layout is made of pieces that give neither tokens nor faults**, whatever follows it. -/
theorem Layout.exists_pieces {w : List Char} (layout : Layout w) :
    ∃ ps : List Piece, ps.flatMap Piece.text = w ∧ (∀ rest, Piece.Separated ps rest) ∧
      ∀ p ∈ ps, p.kind? = none ∧ p.cause? = none := by
  induction layout with
  | nil => exact ⟨[], rfl, fun _ => trivial, nofun⟩
  | @blank c cs space _ ih =>
    obtain ⟨ps, htext, hseparated, hidle⟩ := ih
    refine ⟨.blank c :: ps, congrArg (c :: ·) htext, fun rest => ?_, ?_⟩
    · exact ⟨Piece.wellFormed_blank_iff.mpr space, trivial, hseparated rest⟩
    · exact List.forall_mem_cons.mpr ⟨⟨rfl, rfl⟩, hidle⟩
  | @comment body cs line _ ih =>
    obtain ⟨ps, htext, hseparated, hidle⟩ := ih
    -- the line feed behind a comment is a piece of its own
    refine ⟨.comment body :: .blank '\n' :: ps, ?_, fun rest => ?_, ?_⟩
    · rw [List.flatMap_cons, List.flatMap_cons, htext]
      rfl
    · refine ⟨line, fun c hc => ?_, Piece.wellFormed_blank_iff.mpr (by decide), trivial,
        hseparated rest⟩
      cases hc
      rfl
    · exact List.forall_mem_cons.mpr ⟨⟨rfl, rfl⟩, List.forall_mem_cons.mpr ⟨⟨rfl, rfl⟩, hidle⟩⟩

/-! ## Joined texts -/

namespace Lexed

variable {qs : List Piece} (idle : ∀ q ∈ qs, q.kind? = none ∧ q.cause? = none)

include idle

/-- **The tokens of two rows of pieces with layout between them** are those of the one, and those of the
other, moved down, with the end of the input. -/
theorem tokens_joined (line : Nat) (ps rs : List Piece) :
    (ofPieces line (ps ++ (qs ++ rs))).tokens =
      Piece.tokens line ps ++
        (ofPieces line rs).tokens.map (.movedDown (Piece.lines ps + Piece.lines qs)) := by
  have hnone : ∀ q ∈ qs, ∀ line, q.token? line = none := fun q hq line => by
    rw [Piece.token?, (idle q hq).1, Option.map_none]
  have hend : Token.endOfInput (line + Piece.lines (ps ++ (qs ++ rs))) =
      (Token.endOfInput (line + Piece.lines rs)).movedDown (Piece.lines ps + Piece.lines qs) := by
    rw [Piece.lines_append, Piece.lines_append, Token.movedDown, Token.endOfInput, Token.endOfInput,
      ← Nat.add_assoc (Piece.lines ps), Nat.add_comm _ (Piece.lines rs), ← Nat.add_assoc]
  rw [tokens_ofPieces, tokens_ofPieces, hend, Piece.tokens_eq_collect, Piece.tokens_eq_collect,
    Piece.tokens_eq_collect, Piece.collect_joined hnone fun p line => p.token?_add line _,
    List.append_assoc, List.map_append, List.map_singleton]

/-- **The faults of two rows of pieces with layout between them** are those of the one, and those of the
other, moved down. -/
theorem faults_joined (line : Nat) (ps rs : List Piece) :
    (ofPieces line (ps ++ (qs ++ rs))).faults =
      (ofPieces line ps).faults ++
        (ofPieces line rs).faults.map (.movedDown (Piece.lines ps + Piece.lines qs)) := by
  have hnone : ∀ q ∈ qs, ∀ line, q.fault? line = none := fun q hq line => by
    rw [Piece.fault?, (idle q hq).2, Option.map_none]
  rw [Piece.faults_eq_collect, Piece.faults_eq_collect, Piece.faults_eq_collect]
  exact Piece.collect_joined hnone (fun p line => p.fault?_add line _) line

end Lexed

/-- A text without a fault for an open quote has no open quote among its pieces. -/
theorem ne_openString_of_mem_split {source : String}
    (closed : ∀ line, ⟨.openString, line⟩ ∉ (lex source).faults) :
    ∀ p ∈ Piece.split source.toList, ∀ content, p ≠ .openString content := by
  rintro p hp content rfl
  have hgives (line : Nat) : (Piece.openString content).fault? line = some ⟨.openString, line⟩ := rfl
  obtain ⟨last, hlast⟩ := Piece.exists_mem_collect hp hgives 1
  refine closed last ?_
  rw [lex, Piece.faults_eq_collect]
  exact hlast

/-- The pieces of two texts with layout between them are those of the one, of the layout, and of the
other. -/
theorem split_joined {cs ds ws : List Char} {ps : List Piece}
    (closed : ∀ p ∈ Piece.split cs, ∀ content, p ≠ .openString content)
    (htext : ps.flatMap Piece.text = '\n' :: ws) (separated : ∀ rest, Piece.Separated ps rest) :
    Piece.split (cs ++ ('\n' :: ws ++ ds)) = Piece.split cs ++ (ps ++ Piece.split ds) := by
  have first : Piece.Separated (Piece.split cs) ('\n' :: ws ++ ds) :=
    (Piece.munches_split cs).separated.line_feed closed (ws ++ ds)
  conv_lhs => rw [← Piece.flatMap_text_split cs]
  rw [Piece.split_append first, ← htext, Piece.split_append (separated ds)]

/-- **Texts are taken apart at line breaks.** Between two source texts there are a line feed and any blanks
and comments that end with their line. Unless the first text has a quote that is never closed, the tokens
of the whole are those of the first text but for its end of the input, and those of the second text, moved
down by the line feeds in front of it; and so it is with the faults, which are added to the log. Nothing else
of the first text, be it a comment, a lone slash, a `!` or a number with a point behind it, bears on the
second one.

**Proof sketch.** No piece of the first text is continued by a line feed, so that splitting the whole gives
the pieces of the one text, of the layout, and of the other (`split_joined`). Layout gives neither tokens
nor faults, and what the pieces of the second text give depends on their line in no other way. -/
theorem Log.lex_joined (log : Log) (a b : String) {w : List Char} (layout : Layout w)
    (closed : ∀ line, ⟨.openString, line⟩ ∉ (Lox.lex a).faults) :
    ∃ words, (Lox.lex a).tokens = words ++ [.endOfInput (lineAfter a.toList)] ∧
      log.lex (a ++ String.ofList ('\n' :: w) ++ b) =
        (words ++ (Lox.lex b).tokens.map (.movedDown ((a.toList ++ '\n' :: w).count '\n')),
          ⟨log.faults ++ ((Lox.lex a).faults ++ (Lox.lex b).faults.map
            (LexFault.movedDown ((a.toList ++ '\n' :: w).count '\n'))).map .lex⟩) := by
  obtain ⟨ps, htext, separated, idle⟩ :=
    (Layout.blank (.tail _ (.tail _ (.tail _ (.head _)))) layout).exists_pieces
  have hsplit : Piece.split (a ++ String.ofList ('\n' :: w) ++ b).toList =
      Piece.split a.toList ++ (ps ++ Piece.split b.toList) := by
    rw [← split_joined (ne_openString_of_mem_split closed) htext separated, String.toList_append,
      String.toList_append, String.toList_ofList, List.append_assoc]
  have hlines : Piece.lines (Piece.split a.toList) + Piece.lines ps =
      (a.toList ++ '\n' :: w).count '\n' := by
    rw [Piece.lines_eq_count, Piece.lines_eq_count, Piece.flatMap_text_split, htext, List.count_append]
  refine ⟨_, tokens_lex a, ?_⟩
  rw [lex, Lox.lex, hsplit, Lexed.tokens_joined idle, Lexed.faults_joined idle, hlines]
  rfl

/-- A `!` and an equals sign on different lines are two tokens, with a comment between them or not. -/
theorem Log.lex_joined_bang_equal :
    Log.empty.lex ("!" ++ "\n// =\n\t" ++ "=@") =
      ([⟨.symbol .bang, "!", none, 1⟩, ⟨.symbol .equal, "=", none, 3⟩, .endOfInput 3],
        ⟨[.lex ⟨.strayCharacter '@', 3⟩]⟩) := by
  have layout : Layout "// =\n\t".toList :=
    @Layout.comment [' ', '='] _ (by decide) (.blank (by decide) .nil)
  have hbang : Piece.split "!".toList = [.symbol .bang] := by decide +kernel
  have hequal : Piece.split "=@".toList = [.symbol .equal, .stray '@'] := by decide +kernel
  have hfirst : Lox.lex "!" = ⟨[⟨.symbol .bang, "!", none, 1⟩, .endOfInput 1], []⟩ := by
    rw [Lox.lex, hbang]
    rfl
  have hsecond : Lox.lex "=@" =
      ⟨[⟨.symbol .equal, "=", none, 1⟩, .endOfInput 1], [⟨.strayCharacter '@', 1⟩]⟩ := by
    rw [Lox.lex, hequal]
    rfl
  have closed : ∀ line, ⟨.openString, line⟩ ∉ (Lox.lex "!").faults := fun line => by
    rw [hfirst]
    exact List.not_mem_nil
  obtain ⟨words, hwords, hlex⟩ := Log.lex_joined Log.empty "!" "=@" layout closed
  rw [hfirst] at hwords
  obtain rfl : [_] = words := (List.append_left_inj _).mp hwords
  rw [hfirst, hsecond] at hlex
  exact hlex

end Lox
