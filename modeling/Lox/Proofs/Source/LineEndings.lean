import Lox.Proofs.Source.Joined

set_option autoImplicit false

/-!
# Line endings

A text may end its lines with line feeds, or with carriage returns and line feeds. The pieces of the one
are those of the other: a carriage return that has been put in front of a line feed is a blank of its own,
the last character of a comment, or a character between quotes. It never touches a symbol, a word or a
number, and it neither ends nor begins one. Only strings that hold a line feed are therefore changed.

## Main definitions

* `Lox.withReturns` — a text with a carriage return in front of each line feed.
* `Lox.Piece.Returned` — the pieces of a text, and those of the text with carriage returns.
* `Lox.Token.returned` — a token with carriage returns in its text and its literal.

## Main results

* `Lox.Piece.Ends.withReturns` — what ends before a text ends before it also with carriage returns.
* `Lox.Piece.Separated.exists_returned` — each row of pieces has one with carriage returns.
* `Lox.Log.lex_withReturns_eq` — the tokens and faults of a text with carriage returns.
* `Lox.Log.lex_withReturns_iff` — they are those of the text if and only if no string holds a line feed.
-/

namespace Lox

/-! ## Texts with carriage returns -/

/-- A line feed with a carriage return in front of it, or any other character. -/
def returned (c : Char) : List Char :=
  if c = '\n' then ['\r', '\n'] else [c]

/-- **A text with a carriage return in front of each line feed**, also if there is one already. -/
def withReturns (cs : List Char) : List Char :=
  cs.flatMap returned

/-- A text that begins with a line feed begins with a carriage return then. -/
theorem withReturns_line_feed (cs : List Char) :
    withReturns ('\n' :: cs) = '\r' :: '\n' :: withReturns cs :=
  rfl

/-- A character that is no line feed stays as it is. -/
theorem withReturns_cons {c : Char} (h : c ≠ '\n') (cs : List Char) :
    withReturns (c :: cs) = c :: withReturns cs := by
  rw [withReturns, List.flatMap_cons, returned, if_neg h]
  rfl

/-- Carriage returns are put into two texts one after the other. -/
theorem withReturns_append (cs ds : List Char) :
    withReturns (cs ++ ds) = withReturns cs ++ withReturns ds :=
  List.flatMap_append

/-- A text without line feeds stays as it is. -/
theorem withReturns_of_not_mem {cs : List Char} (h : '\n' ∉ cs) : withReturns cs = cs := by
  induction cs with
  | nil => rfl
  | cons c cs ih =>
    rw [List.mem_cons, not_or] at h
    rw [withReturns_cons (Ne.symm h.1), ih h.2]

/-- No line feed is added or lost. -/
theorem count_withReturns (cs : List Char) : (withReturns cs).count '\n' = cs.count '\n' := by
  induction cs with
  | nil => rfl
  | cons c cs ih =>
    by_cases hc : c = '\n'
    · subst hc
      rw [withReturns_line_feed, List.count_cons_of_ne (by decide), List.count_cons_self,
        List.count_cons_self, ih]
    · rw [withReturns_cons hc, List.count_cons_of_ne hc, List.count_cons_of_ne hc, ih]

/-- A text gets longer by as many characters as it has line feeds. -/
theorem length_withReturns (cs : List Char) :
    (withReturns cs).length = cs.length + cs.count '\n' := by
  induction cs with
  | nil => rfl
  | cons c cs ih =>
    by_cases hc : c = '\n'
    · subst hc
      rw [withReturns_line_feed, List.count_cons_self]
      simp only [List.length_cons, ih]
      omega
    · rw [withReturns_cons hc, List.count_cons_of_ne hc]
      simp only [List.length_cons, ih]
      omega

/-- A text stays as it is if and only if it has no line feed. -/
theorem withReturns_eq_self_iff {cs : List Char} : withReturns cs = cs ↔ '\n' ∉ cs := by
  refine ⟨fun h => ?_, withReturns_of_not_mem⟩
  have hlength := length_withReturns cs
  rw [h] at hlength
  exact List.count_eq_zero.mp (by omega)

/-- Nothing but carriage returns is put into a text. -/
theorem mem_of_mem_withReturns {c : Char} {cs : List Char} (hne : c ≠ '\r') (h : c ∈ withReturns cs) :
    c ∈ cs := by
  obtain ⟨d, hd, hc⟩ := List.mem_flatMap.mp h
  unfold returned at hc
  split at hc
  · next hfeed =>
    subst hfeed
    obtain rfl : c = '\n' := by simpa [hne] using hc
    exact hd
  · rwa [List.mem_singleton.mp hc]

/-- No character but a carriage return is put at the front of a text. -/
theorem head?_of_withReturns {c : Char} {rest : List Char} (hne : c ≠ '\r')
    (h : (withReturns rest).head? = some c) : rest.head? = some c := by
  cases rest with
  | nil => cases h
  | cons d rest =>
    by_cases hd : d = '\n'
    · subst hd
      exact absurd (Option.some_inj.mp h).symm hne
    · rw [withReturns_cons hd] at h
      exact h

namespace Piece

/-! ## Pieces in front of carriage returns -/

/-- A text that does not begin with a character of a class does not with carriage returns in it, unless
the carriage return is one of the class. -/
theorem Stops.withReturns {p : Char → Bool} {rest : List Char} (hreturn : p '\r' = false)
    (stops : Stops p rest) : Stops p (withReturns rest) := by
  intro c hc
  by_cases h : c = '\r'
  · rw [h, hreturn]
  · exact stops c (head?_of_withReturns h hc)

/-- **What ends before a text ends before it also with carriage returns in it**, unless it is a comment.

**Proof sketch.** By the kind of the piece. A carriage return continues neither words, numbers nor symbols.
A comment is the only piece that a carriage return in front of a line feed continues. -/
theorem Ends.withReturns {p : Piece} {rest : List Char} (ends : p.Ends rest)
    (noComment : p.isComment = false) : p.Ends (withReturns rest) := by
  cases p with
  | blank c | string content | stray c => trivial
  | comment body => cases noComment
  | symbol s =>
    exact ⟨fun hs hhead => ends.1 hs (head?_of_withReturns (by decide) hhead),
      fun hs hhead => ends.2 hs (head?_of_withReturns (by decide) hhead)⟩
  | word letters => exact Stops.withReturns rfl ends
  | number whole fraction =>
    refine ⟨Stops.withReturns rfl ends.1, fun hnil hhead => ?_⟩
    have hpoint := head?_of_withReturns (by decide) hhead
    have hdigits := ends.2 hnil hpoint
    obtain ⟨cs, rfl⟩ := List.head?_eq_some_iff.mp hpoint
    exact Stops.withReturns rfl hdigits
  | openString content =>
    cases ends
    rfl

/-! ## Pieces with carriage returns -/

/-- **The pieces of a text, and those of the text with carriage returns.** In front of a line feed stands
one blank more, or a comment that is one character longer. -/
inductive Returned : List Piece → List Piece → Prop
  | nil : Returned [] []
  | feed {ps qs : List Piece} (others : Returned ps qs) :
      Returned (blank '\n' :: ps) (blank '\r' :: blank '\n' :: qs)
  | comment {body : List Char} {ps qs : List Piece} (others : Returned ps qs) :
      Returned (comment body :: blank '\n' :: ps) (comment (body ++ ['\r']) :: blank '\n' :: qs)
  | lastComment (body : List Char) : Returned [comment body] [comment body]
  | string {content : List Char} {ps qs : List Piece} (others : Returned ps qs) :
      Returned (string content :: ps) (string (withReturns content) :: qs)
  | openString {content : List Char} {ps qs : List Piece} (others : Returned ps qs) :
      Returned (openString content :: ps) (openString (withReturns content) :: qs)
  | other {p : Piece} {ps qs : List Piece} (noComment : p.isComment = false) (single : '\n' ∉ p.text)
      (others : Returned ps qs) : Returned (p :: ps) (p :: qs)

/-- Pieces with carriage returns make up the text with carriage returns, if comments hold no line
feed. -/
theorem Returned.flatMap_text {ps qs : List Piece} (h : Returned ps qs)
    (wellFormed : ∀ p ∈ ps, p.WellFormed) :
    qs.flatMap text = withReturns (ps.flatMap text) := by
  induction h with
  | nil => rfl
  | feed _ ih =>
    rw [List.flatMap_cons, List.flatMap_cons, List.flatMap_cons,
      ih fun p hp => wellFormed p (.tail _ hp)]
    rfl
  | @comment body ps qs _ ih =>
    have hbody : '\n' ∉ body := wellFormed _ (.head _)
    have htext : withReturns (Piece.comment body).text = (Piece.comment body).text :=
      withReturns_of_not_mem (by simpa [text] using hbody)
    rw [List.flatMap_cons, List.flatMap_cons, List.flatMap_cons, List.flatMap_cons, withReturns_append,
      htext, ih fun p hp => wellFormed p (.tail _ (.tail _ hp))]
    show _ = (Piece.comment body).text ++ '\r' :: '\n' :: withReturns _
    simp [text]
  | lastComment body =>
    have hbody : '\n' ∉ body := wellFormed _ (.head _)
    have htext : withReturns (Piece.comment body).text = (Piece.comment body).text :=
      withReturns_of_not_mem (by simpa [text] using hbody)
    rw [List.flatMap_singleton, htext]
  | string _ ih | openString _ ih =>
    rw [List.flatMap_cons, List.flatMap_cons, withReturns_append,
      ih fun p hp => wellFormed p (.tail _ hp)]
    simp [text, withReturns, returned]
  | other _ single _ ih =>
    rw [List.flatMap_cons, List.flatMap_cons, withReturns_append, withReturns_of_not_mem single,
      ih fun p hp => wellFormed p (.tail _ hp)]

/-- The pieces of a separated row are well-formed. -/
theorem Separated.wellFormed {ps : List Piece} {rest : List Char} (separated : Separated ps rest) :
    ∀ p ∈ ps, p.WellFormed := by
  induction ps with
  | nil => exact nofun
  | cons p ps ih =>
    obtain ⟨wellFormed, -, hps⟩ := separated
    exact List.forall_mem_cons.mpr ⟨wellFormed, ih hps⟩

/-- **Pieces with carriage returns are separated.**

**Proof sketch.** Induction on the rows. Blanks and strings are never continued, a comment ends in front of
its line feed, and any other piece ends before what follows it also with carriage returns in it. -/
theorem Returned.separated {ps qs : List Piece} (h : Returned ps qs) (separated : Separated ps []) :
    Separated qs [] := by
  have quoted {content : List Char} (hquote : '"' ∉ content) : '"' ∉ withReturns content :=
    fun hmem => hquote (mem_of_mem_withReturns (by decide) hmem)
  induction h with
  | nil => trivial
  | feed _ ih => exact ⟨rfl, trivial, rfl, trivial, ih separated.2.2⟩
  | @comment body ps qs _ ih =>
    obtain ⟨hbody, -, -, -, hps⟩ := separated
    refine ⟨?_, fun c hc => ?_, rfl, trivial, ih hps⟩
    · have hbody' : '\n' ∉ body := hbody
      simpa [WellFormed] using hbody'
    · cases hc
      rfl
  | lastComment body => exact separated
  | string _ ih =>
    obtain ⟨hquote, -, hps⟩ := separated
    exact ⟨quoted hquote, trivial, ih hps⟩
  | openString others ih =>
    obtain ⟨hquote, ends, hps⟩ := separated
    have hends := Ends.withReturns ends rfl
    rw [withReturns_append, ← others.flatMap_text hps.wellFormed] at hends
    exact ⟨quoted hquote, hends, ih hps⟩
  | other noComment _ others ih =>
    obtain ⟨wellFormed, ends, hps⟩ := separated
    have hends := ends.withReturns noComment
    rw [withReturns_append, ← others.flatMap_text hps.wellFormed] at hends
    exact ⟨wellFormed, hends, ih hps⟩

/-- Behind a comment, there is nothing or a line feed. -/
theorem Separated.behind_comment {body : List Char} {ps : List Piece}
    (separated : Separated (comment body :: ps) []) :
    ps = [] ∨ ∃ qs, ps = blank '\n' :: qs := by
  obtain ⟨-, ends, hps⟩ := separated
  cases ps with
  | nil => exact .inl rfl
  | cons p ps =>
    obtain ⟨wellFormed, hends, -⟩ := hps
    obtain ⟨c, cs, htext⟩ := wellFormed.exists_text_eq_cons
    have hc : c = '\n' := by
      have hstop := ends c (by simp [htext])
      simpa using hstop
    have hcut := cut_of_ends htext wellFormed hends
    rw [hc] at hcut
    have hfeed : p = blank '\n' := (congrArg Prod.fst hcut).symm
    exact .inr ⟨ps, by rw [hfeed]⟩

/-- The pieces with a line feed are line feeds, strings and quotes that are never closed. -/
theorem WellFormed.not_mem_text {p : Piece} (wellFormed : p.WellFormed) (noFeed : p ≠ blank '\n')
    (noString : ∀ content, p ≠ string content) (noOpen : ∀ content, p ≠ openString content) :
    '\n' ∉ p.text := by
  cases p with
  | blank c => simpa [text, eq_comm] using noFeed
  | comment body =>
    have hbody : '\n' ∉ body := wellFormed
    simpa [text] using hbody
  | symbol s => exact List.count_eq_zero.mp (newlines_symbol s)
  | word letters => exact List.count_eq_zero.mp wellFormed.newlines_word
  | number whole fraction => exact List.count_eq_zero.mp wellFormed.newlines_number
  | string content => exact absurd rfl (noString content)
  | stray c =>
    intro hmem
    refine wellFormed.1 ?_
    rw [← List.mem_singleton.mp hmem]
    rfl
  | openString content => exact absurd rfl (noOpen content)

/-- **Each row of pieces has one with carriage returns.**

**Proof sketch.** Induction on the length of the row, since a comment and the line feed behind it are taken
together. -/
theorem Separated.exists_returned {ps : List Piece} (separated : Separated ps []) :
    ∃ qs, Returned ps qs := by
  induction hlength : ps.length using Nat.strong_induction_on generalizing ps with
  | _ n ih =>
    cases ps with
    | nil => exact ⟨[], .nil⟩
    | cons p ps =>
      subst hlength
      obtain ⟨qs, hqs⟩ := ih ps.length (by simp) separated.2.2 rfl
      by_cases noComment : p.isComment = false
      · by_cases hother : p = blank '\n' ∨ (∃ content, p = string content) ∨
            ∃ content, p = openString content
        · obtain rfl | ⟨content, rfl⟩ | ⟨content, rfl⟩ := hother
          · exact ⟨_, .feed hqs⟩
          · exact ⟨_, .string hqs⟩
          · exact ⟨_, .openString hqs⟩
        · simp only [not_or, not_exists] at hother
          have single := separated.1.not_mem_text hother.1 hother.2.1 hother.2.2
          exact ⟨_, .other noComment single hqs⟩
      · obtain ⟨body, rfl⟩ : ∃ body, p = comment body := by
          cases p with
          | comment body => exact ⟨body, rfl⟩
          | _ => exact absurd rfl noComment
        obtain rfl | ⟨rs, rfl⟩ := separated.behind_comment
        · exact ⟨_, .lastComment body⟩
        · obtain ⟨ts, hts⟩ := ih rs.length (by simp) separated.2.2.2.2 rfl
          exact ⟨_, .comment hts⟩

/-- The pieces of a text with carriage returns are those that correspond to the pieces of the text. -/
theorem exists_split_withReturns (cs : List Char) :
    ∃ qs, Returned (split cs) qs ∧ split (withReturns cs) = qs := by
  have separated := (munches_split cs).separated
  obtain ⟨qs, hqs⟩ := separated.exists_returned
  refine ⟨qs, hqs, ?_⟩
  have hsplit := split_append (hqs.separated separated)
  rw [List.append_nil, hqs.flatMap_text separated.wellFormed, flatMap_text_split, split,
    List.append_nil] at hsplit
  exact hsplit

/-! ## What pieces with carriage returns give -/

/-- Pieces with carriage returns hold the same line feeds. -/
theorem Returned.lines_eq {ps qs : List Piece} (h : Returned ps qs)
    (wellFormed : ∀ p ∈ ps, p.WellFormed) : lines qs = lines ps := by
  rw [lines_eq_count, lines_eq_count, h.flatMap_text wellFormed, count_withReturns]

/-- **What a row of pieces gives with carriage returns** is what it gives, but for the change that carriage
returns make to strings, if blanks and comments give nothing. -/
theorem Returned.collect_eq {α : Type} {f : Piece → Nat → Option α} {move : α → α}
    (blanks : ∀ c line, f (blank c) line = none) (comments : ∀ body line, f (.comment body) line = none)
    (strings : ∀ content line,
      f (.string (withReturns content)) line = (f (.string content) line).map move)
    (openStrings : ∀ content line,
      f (.openString (withReturns content)) line = (f (.openString content) line).map move)
    (others : ∀ p line, '\n' ∉ p.text → f p line = (f p line).map move)
    {ps qs : List Piece} (h : Returned ps qs) (line : Nat) :
    collect f line qs = (collect f line ps).map move := by
  have hquoted (content : List Char) :
      (Piece.string (withReturns content)).newlines = (Piece.string content).newlines := by
    rw [newlines_string, newlines_string, count_withReturns]
  have hopen (content : List Char) :
      (Piece.openString (withReturns content)).newlines = (Piece.openString content).newlines := by
    simp [newlines, text, count_withReturns]
  induction h generalizing line with
  | nil => rfl
  | feed _ ih =>
    simp only [collect, blanks, Option.toList_none, List.nil_append]
    exact ih _
  | @comment body ps qs _ ih =>
    have hcomment : (Piece.comment (body ++ ['\r'])).newlines = (Piece.comment body).newlines := by
      simp [newlines, text, List.count_append]
    simp only [collect, blanks, comments, hcomment, Option.toList_none, List.nil_append]
    exact ih _
  | lastComment body =>
    simp only [collect, comments, Option.toList_none, List.nil_append]
    rfl
  | string _ ih =>
    rw [collect, collect, List.map_append, hquoted, strings, ih, Option.toList_map]
  | openString _ ih =>
    rw [collect, collect, List.map_append, hopen, openStrings, ih, Option.toList_map]
  | @other p _ _ _ single _ ih =>
    rw [collect, collect, List.map_append, ih, ← Option.toList_map, ← others p _ single]

end Piece

/-! ## Tokens with carriage returns -/

/-- A literal with carriage returns in it, if it is a text. -/
def Literal.returned : Literal → Literal
  | number x => number x
  | string s => string (String.ofList (withReturns s.toList))

/-- **A token with carriage returns** in its text and in its literal. -/
def Token.returned (t : Token) : Token :=
  { t with
    lexeme := String.ofList (withReturns t.lexeme.toList)
    literal := t.literal.map Literal.returned }

/-- The end of the input has no text. -/
theorem Token.returned_endOfInput (line : Nat) :
    (Token.endOfInput line).returned = .endOfInput line :=
  rfl

namespace Piece

/-- The token of a string with carriage returns. -/
theorem token?_string_withReturns (content : List Char) (line : Nat) :
    (string (withReturns content)).token? line = ((string content).token? line).map .returned := by
  simp [token?, kind?, Token.returned, Literal.returned, text, withReturns, returned]

/-- The token of a piece without line feeds stays as it is. -/
theorem map_returned_token? {p : Piece} (single : '\n' ∉ p.text) (line : Nat) :
    (p.token? line).map .returned = p.token? line := by
  have hlexeme : String.ofList (withReturns (String.ofList p.text).toList) = String.ofList p.text := by
    rw [String.toList_ofList, withReturns_of_not_mem single]
  cases p with
  | string content =>
    have hcontent : '\n' ∉ content := fun h => single (by simp [text, h])
    rw [← token?_string_withReturns, withReturns_of_not_mem hcontent]
  | blank c | comment body | stray c | openString content => rfl
  | symbol s | word letters | number whole fraction =>
    simp only [token?, kind?, Option.map_some, Token.returned, hlexeme, Option.map_none,
      Literal.returned]

/-- **A token stays as it is** if and only if it is no string with a line feed in it. -/
theorem returned_eq_self_iff {p : Piece} (wellFormed : p.WellFormed) {line : Nat} {t : Token}
    (ht : p.token? line = some t) :
    t.returned = t ↔ (t.kind = .string → '\n' ∉ t.lexeme.toList) := by
  obtain ⟨hkind, hlexeme, -⟩ := token?_eq_some_iff.mp ht
  have htext : t.lexeme.toList = p.text := by rw [hlexeme, String.toList_ofList]
  constructor
  · intro h _
    have hreturned : String.ofList (withReturns t.lexeme.toList) = t.lexeme := congrArg Token.lexeme h
    refine withReturns_eq_self_iff.mp ?_
    conv_rhs => rw [← hreturned]
    exact String.toList_ofList.symm
  · intro h
    have single : '\n' ∉ p.text := by
      by_cases hstring : ∃ content, p = string content
      · obtain ⟨content, rfl⟩ := hstring
        rw [← htext]
        exact h (congrArg Prod.fst (Option.some_inj.mp hkind)).symm
      · refine wellFormed.not_mem_text ?_ (not_exists.mp hstring) ?_
        · rintro rfl
          cases hkind
        · rintro content rfl
          cases hkind
    have hmap := map_returned_token? single line
    rw [ht] at hmap
    exact Option.some_inj.mp hmap

end Piece

/-- **The tokens and faults of a text with carriage returns** are those of the text, with the carriage
returns in its strings: no other token is changed, and no line. -/
theorem Log.lex_withReturns_eq (log : Log) (source : String) :
    log.lex (String.ofList (withReturns source.toList)) =
      ((log.lex source).1.map .returned, (log.lex source).2) := by
  obtain ⟨qs, hqs, hsplit⟩ := Piece.exists_split_withReturns source.toList
  have wellFormed := (Piece.munches_split source.toList).separated.wellFormed
  have htokens : (Lexed.ofPieces 1 qs).tokens =
      (Lexed.ofPieces 1 (Piece.split source.toList)).tokens.map .returned := by
    rw [Lexed.tokens_ofPieces, Lexed.tokens_ofPieces, List.map_append, List.map_singleton,
      Token.returned_endOfInput, hqs.lines_eq wellFormed, Piece.tokens_eq_collect,
      Piece.tokens_eq_collect]
    congr 1
    exact hqs.collect_eq (fun _ _ => rfl) (fun _ _ => rfl) Piece.token?_string_withReturns
      (fun _ _ => rfl) (fun p line single => (Piece.map_returned_token? single line).symm) 1
  have hfaults : (Lexed.ofPieces 1 qs).faults =
      (Lexed.ofPieces 1 (Piece.split source.toList)).faults := by
    rw [Piece.faults_eq_collect, Piece.faults_eq_collect]
    have hid : Piece.collect Piece.fault? 1 qs =
        (Piece.collect Piece.fault? 1 (Piece.split source.toList)).map id :=
      hqs.collect_eq (fun _ _ => rfl) (fun _ _ => rfl) (fun _ _ => rfl) (fun _ _ => rfl)
        (fun _ _ _ => by rw [Option.map_id, id]) 1
    rw [hid, List.map_id]
  rw [lex, lex, Lox.lex, Lox.lex, String.toList_ofList, hsplit, htokens, hfaults]

/-- **Line endings do not matter outside of strings.** If a carriage return is put in front of each line
feed of a source text, its tokens and the faults that are added to the log stay the same in all their
parts, lines included, if and only if no string token holds a line feed. The text may hold carriage returns
before, and it may end within a comment or a quote that is never closed.

**Proof sketch.** The tokens are those of the text with carriage returns in their texts and literals, and
the faults are the same (`Log.lex_withReturns_eq`). A token without line feeds is not changed, and of all
tokens only strings can hold line feeds. -/
theorem Log.lex_withReturns_iff (log : Log) (source : String) :
    log.lex (String.ofList (withReturns source.toList)) = log.lex source ↔
      ∀ t ∈ (log.lex source).1, t.kind = .string → '\n' ∉ t.lexeme.toList := by
  have hself : ∀ t ∈ (log.lex source).1,
      t.returned = t ↔ (t.kind = .string → '\n' ∉ t.lexeme.toList) := by
    intro t ht
    rw [lex, Lox.lex, Lexed.tokens_ofPieces, List.mem_append, List.mem_singleton] at ht
    obtain ht | rfl := ht
    · obtain ⟨p, hp, line, htoken⟩ := Piece.exists_of_mem_tokens ht
      exact Piece.returned_eq_self_iff (Piece.wellFormed_of_mem_split hp) htoken
    · refine iff_of_true rfl fun hkind => ?_
      cases hkind
  rw [lex_withReturns_eq, Prod.ext_iff, and_iff_left rfl]
  constructor
  · intro h t ht
    have hmap : (log.lex source).1.map .returned = (log.lex source).1.map id := by
      rw [List.map_id]
      exact h
    exact (hself t ht).mp (List.map_inj_left.mp hmap t ht)
  · intro h
    have hmap := List.map_congr_left fun t ht => (hself t ht).mpr (h t ht)
    exact hmap.trans (List.map_id _)

end Lox
