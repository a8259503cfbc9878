import Lox.Proofs.Source.Display

set_option autoImplicit false

/-!
# Nested forms tell trees apart

In the nested form of a tree, each node but a literal is a list in parentheses. A text of words with
spaces and parentheses between them can be taken apart in one way only, so that the nested form of a tree
without strings gives back the shape of the tree, its operators and its literals. A minus in front of one
operand is told from a minus in front of two by what stands behind the first operand, and from the sign of
a number since a name has a parenthesis in front of it and a number has none. Only strings, which stand in
the nested form as they are, could imitate other nodes.

## Main definitions

* `Lox.IsInWord` — the characters of names and of literals.
* `Lox.Token.SameOperator` — tokens of the same kind and text.
* `Lox.Value.Alike`, `Lox.Expr.Alike` — values and trees that are the same, except that all that is no
  number is taken for the same.
* `Lox.Expr.StringFree` — trees without strings, with operators of their position that are written as such.

## Main results

* `Lox.append_inj_of_inWord` — a word ends where its characters end.
* `Lox.Value.alike_of_display_eq` — the texts of values without strings tell them apart.
* `Lox.Expr.StringFree.nested_append_inj` — a nested form ends where its tree ends.
* `Lox.Expr.nested_eq_iff_alike` — nested forms tell trees without strings apart.
-/

namespace Lox

/-! ## Words -/

/-- Whether a character can be one of a name or of a literal that is no string: no space and no
parenthesis. -/
def IsInWord (c : Char) : Bool :=
  c != ' ' && c != '(' && c != ')'

/-- A space and a closing parenthesis end a word. -/
theorem Piece.Delimits.stops_inWord {rest : List Char} (delimits : Piece.Delimits rest) :
    Piece.Stops IsInWord rest :=
  delimits.stops rfl rfl

/-- **A word ends where its characters end**: what begins with a word in front of a delimiter begins with
no other. -/
theorem append_inj_of_inWord {cs ds rest rest' : List Char} (hcs : ∀ c ∈ cs, IsInWord c)
    (hds : ∀ d ∈ ds, IsInWord d) (delimits : Piece.Delimits rest) (delimits' : Piece.Delimits rest')
    (h : cs ++ rest = ds ++ rest') : cs = ds ∧ rest = rest' := by
  have hwords : cs = ds := by
    rw [← Piece.takeWhile_append_of_stops hcs delimits.stops_inWord, h,
      Piece.takeWhile_append_of_stops hds delimits'.stops_inWord]
  rw [hwords] at h
  exact ⟨hwords, List.append_cancel_left h⟩

/-- A space is a delimiter. -/
theorem delimits_space (cs : List Char) : Piece.Delimits (' ' :: cs) :=
  fun _ hc => .inl (Option.some_inj.mp hc).symm

/-- A closing parenthesis is a delimiter. -/
theorem delimits_paren (cs : List Char) : Piece.Delimits (')' :: cs) :=
  fun _ hc => .inr (Option.some_inj.mp hc).symm

/-- The characters of a class without a space and parentheses are those of words. -/
theorem inWord_of_class {p : Char → Bool} (hp : [' ', '(', ')'].any p = false) {c : Char} (hc : p c) :
    IsInWord c := by
  simp only [List.any_cons, List.any_nil, Bool.or_false, Bool.or_eq_false_iff] at hp
  simp only [IsInWord, Bool.and_eq_true, bne_iff_ne]
  exact ⟨⟨Piece.ne_of_class hp.1 hc, Piece.ne_of_class hp.2.1 hc⟩, Piece.ne_of_class hp.2.2 hc⟩

/-! ## Symbols -/

/-- A symbol is found by its text. -/
theorem Symbol.find?_text (s : Symbol) : Symbol.all.find? (·.text == s.text) = some s := by
  cases s <;> decide

/-- Symbols have different texts. -/
theorem Symbol.text_inj {s t : Symbol} (h : s.text = t.text) : s = t := by
  have hs := s.find?_text
  rw [h, t.find?_text] at hs
  exact (Option.some_inj.mp hs).symm

namespace Token

/-- Whether two tokens are the same operator, written in the same way. -/
def SameOperator (s t : Token) : Prop :=
  s.kind = t.kind ∧ s.lexeme = t.lexeme

/-- Whether a token is a symbol with a word for its text, and is written as such. -/
def IsName (t : Token) : Prop :=
  ∃ s : Symbol, t.kind = .symbol s ∧ t.lexeme = s.text ∧ ∀ c ∈ s.text.toList, IsInWord c

/-- The operators in front of an operand are names. -/
theorem Written.isName_of_isUnary {t : Token} (written : t.Written) (ht : t.IsUnary) : t.IsName := by
  obtain hk | hk := ht.kind_eq <;>
    exact ⟨_, hk, written.lexeme_of_symbol hk, List.all_eq_true.mp rfl⟩

/-- The operators between two operands are names. -/
theorem Written.isName_of_isBinary {t : Token} (written : t.Written) (ht : t.IsBinary) : t.IsName := by
  obtain ⟨op, hk⟩ := ht.exists_symbol
  refine ⟨_, hk, written.lexeme_of_symbol hk, List.all_eq_true.mp ?_⟩
  cases op <;> rfl

/-- Names with the same text are the same operator. -/
theorem IsName.sameOperator {s t : Token} (hs : s.IsName) (ht : t.IsName)
    (h : s.lexeme.toList = t.lexeme.toList) : s.SameOperator t := by
  obtain ⟨a, hsk, hsl, -⟩ := hs
  obtain ⟨b, htk, htl, -⟩ := ht
  rw [String.toList_inj] at h
  refine ⟨?_, h⟩
  rw [hsl, htl] at h
  rw [hsk, htk, Symbol.text_inj h]

/-- A name is a word. -/
theorem IsName.inWord {t : Token} (name : t.IsName) : ∀ c ∈ t.lexeme.toList, IsInWord c := by
  obtain ⟨s, -, hl, hword⟩ := name
  exact hl ▸ hword

/-- No name is the word for a group. -/
theorem IsName.ne_group {t : Token} (name : t.IsName) : t.lexeme.toList ≠ "group".toList := by
  obtain ⟨s, -, hl, -⟩ := name
  rw [hl]
  cases s <;> decide

end Token

/-! ## Values -/

namespace Number

/-- The characters of the last piece of a number are those of a word. -/
theorem inWord_of_mem_body {x : Number} {c : Char} (hc : c ∈ x.body.text) : IsInWord c := by
  have wellFormed := x.wellFormed_body
  by_cases finite : x.Finite
  · rw [body_of_finite finite, Piece.text_number, List.mem_append] at hc
    obtain hc | hc := hc
    · exact inWord_of_class rfl (Decimal.isDigit_of_mem_whole hc)
    · split at hc
      · cases hc
      · obtain rfl | hc := List.mem_cons.mp hc
        · rfl
        · exact inWord_of_class rfl (Decimal.isDigit_of_mem_fraction hc)
  · obtain ⟨letters, hmem, hbody⟩ := exists_body_eq_word finite
    simp only [List.mem_cons, List.not_mem_nil, or_false] at hmem
    rw [hbody] at hc
    obtain rfl | rfl := hmem
    · exact List.all_eq_true.mp (rfl : ['N', 'a', 'N'].all IsInWord = true) c hc
    · exact List.all_eq_true.mp
        (rfl : ['I', 'n', 'f', 'i', 'n', 'i', 't', 'y'].all IsInWord = true) c hc

/-- The text of a number is a word. -/
theorem inWord_of_mem_display {x : Number} {c : Char} (hc : c ∈ x.display.toList) : IsInWord c := by
  rw [toList_display, List.mem_flatMap] at hc
  obtain ⟨p, hp, hc⟩ := hc
  unfold pieces at hp
  split at hp
  · obtain rfl | hp := List.mem_cons.mp hp
    · obtain rfl := List.mem_singleton.mp hc
      rfl
    · rw [List.mem_singleton.mp hp] at hc
      exact inWord_of_mem_body hc
  · rw [List.mem_singleton.mp hp] at hc
    exact inWord_of_mem_body hc

/-- The text of a number ends with the last piece of the number. -/
theorem getLast?_pieces (x : Number) : x.pieces.getLast? = some x.body := by
  unfold pieces
  split <;> rfl

/-- The last pieces of numbers with the same text are the same. -/
theorem body_eq_of_display_eq {x y : Number} (h : x.display = y.display) : x.body = y.body := by
  have hpieces : x.pieces = y.pieces := by rw [← split_display, h, split_display]
  have hlast := x.getLast?_pieces
  rw [hpieces, y.getLast?_pieces] at hlast
  exact (Option.some_inj.mp hlast).symm

/-- What is no number is what is written with this word. -/
theorem body_eq_nan_iff {x : Number} : x.body = .word ['N', 'a', 'N'] ↔ x.isNaN := by
  rw [isNaN_iff, body]
  split
  · next h => exact ⟨fun _ => h, fun _ => rfl⟩
  · next h =>
    refine ⟨fun hbody => ?_, fun hnan => absurd hnan h⟩
    split at hbody
    · simp at hbody
    · cases hbody

/-- The text of a number is not empty. -/
theorem display_ne_empty (x : Number) : x.display.toList ≠ [] := by
  obtain ⟨c, cs, htext⟩ := x.wellFormed_body.exists_text_eq_cons
  have hmem : c ∈ x.pieces.flatMap Piece.text :=
    List.mem_flatMap.mpr ⟨x.body, List.mem_of_getLast? x.getLast?_pieces, htext ▸ List.mem_cons_self⟩
  rw [toList_display]
  exact List.ne_nil_of_mem hmem

/-- No number is written like one of the reserved words that are values. -/
theorem display_ne_of_mem (x : Number) {word : String} (hword : word ∈ ["true", "false", "nil"]) :
    x.display ≠ word := by
  have hsplit : ∃ letters, Piece.split word.toList = [.word letters] ∧
      letters ∉ [['N', 'a', 'N'], ['I', 'n', 'f', 'i', 'n', 'i', 't', 'y']] := by
    simp only [List.mem_cons, List.not_mem_nil, or_false] at hword
    obtain rfl | rfl | rfl := hword
    · exact ⟨['t', 'r', 'u', 'e'], by decide +kernel⟩
    · exact ⟨['f', 'a', 'l', 's', 'e'], by decide +kernel⟩
    · exact ⟨['n', 'i', 'l'], by decide +kernel⟩
  rintro rfl
  obtain ⟨letters, hletters, hnot⟩ := hsplit
  have hlast := x.getLast?_pieces
  rw [← split_display, hletters, List.getLast?_singleton, Option.some_inj] at hlast
  by_cases finite : x.Finite
  · rw [body_of_finite finite] at hlast
    cases hlast
  · obtain ⟨letters', hmem, hbody⟩ := exists_body_eq_word finite
    rw [hbody, Piece.word.injEq] at hlast
    exact hnot (hlast ▸ hmem)

end Number

namespace Value

/-- Whether a value is anything but a string. -/
def IsNoString : Value → Prop
  | string _ => False
  | _ => True

/-- **Values that are the same**, numbers to the last bit, except that all that is no number is taken for
the same. -/
inductive Alike : Value → Value → Prop
  | refl (v : Value) : Alike v v
  | nan {x y : Number} (left : x.isNaN) (right : y.isNaN) : Alike (number x) (number y)

/-- The text of a value that is no string is a word. -/
theorem IsNoString.inWord {v : Value} (noString : v.IsNoString) : ∀ c ∈ v.display.toList, IsInWord c := by
  match v with
  | number x => exact fun c => Number.inWord_of_mem_display
  | boolean true | boolean false | nil => exact List.all_eq_true.mp rfl
  | string s => exact noString.elim

/-- The text of a value that is no string is not empty. -/
theorem IsNoString.display_ne_empty {v : Value} (noString : v.IsNoString) : v.display.toList ≠ [] := by
  match v with
  | number x => exact x.display_ne_empty
  | boolean true | boolean false | nil => exact List.cons_ne_nil _ _
  | string s => exact noString.elim

/-- Numbers with the same text are alike. -/
theorem alike_of_number_display_eq {x y : Number} (h : x.display = y.display) :
    (number x).Alike (number y) := by
  have hbody := Number.body_eq_of_display_eq h
  by_cases hx : x.isNaN
  · exact .nan hx (Number.body_eq_nan_iff.mp (hbody ▸ Number.body_eq_nan_iff.mpr hx))
  · have hy : ¬y.isNaN := fun hy =>
      hx (Number.body_eq_nan_iff.mp (hbody ▸ Number.body_eq_nan_iff.mpr hy))
    have hle {z : Number} (hz : ¬z.isNaN) : z.magnitude ≤ Binary64.infinity :=
      Number.magnitude_le_of_isNaN_eq_false (Bool.eq_false_iff.mpr hz)
    rw [Number.eq_of_display_eq (hle hx) (hle hy) h]
    exact .refl _

/-- **The texts of values without strings tell them apart.** -/
theorem alike_of_display_eq {v w : Value} (hv : v.IsNoString) (hw : w.IsNoString)
    (h : v.display = w.display) : v.Alike w := by
  match v, w with
  | number x, number y => exact alike_of_number_display_eq h
  | number x, boolean true | number x, boolean false | number x, nil =>
    exact absurd h (x.display_ne_of_mem (by decide))
  | boolean true, number y | boolean false, number y | nil, number y =>
    exact absurd h.symm (y.display_ne_of_mem (by decide))
  | boolean true, boolean true | boolean false, boolean false | nil, nil => exact .refl _
  | boolean true, boolean false | boolean false, boolean true | boolean true, nil
  | boolean false, nil | nil, boolean true | nil, boolean false => exact absurd h (by decide)
  | string s, _ => exact hv.elim
  | _, string s => exact hw.elim

/-- Values that are alike have the same text. -/
theorem Alike.display_eq {v w : Value} (alike : v.Alike w) : v.display = w.display := by
  cases alike with
  | refl v => rfl
  | nan left right =>
    have hnan {x : Number} (hx : x.isNaN) : x.display = "NaN" := if_pos (Number.isNaN_iff.mp hx)
    exact (hnan left).trans (hnan right).symm

end Value

/-! ## Trees -/

namespace Expr

/-- **Trees without strings**: literals are numbers, truth values or `nil`, and operators are operators of
their position that are written as such. -/
def StringFree (e : Expr) : Prop :=
  e.All Value.IsNoString (fun t => t.IsUnary ∧ t.Written) (fun t => t.IsBinary ∧ t.Written)

/-- **Trees with the same nodes**: with literals that are alike and with operators that are the same in
some respect. -/
inductive Alike (same : Token → Token → Prop) : Expr → Expr → Prop
  | literal {v w : Value} (value : v.Alike w) : Alike same (literal v) (literal w)
  | grouping {a b : Expr} (inner : Alike same a b) : Alike same (grouping a) (grouping b)
  | unary {s t : Token} {a b : Expr} (operator : same s t) (operand : Alike same a b) :
      Alike same (unary s a) (unary t b)
  | binary {s t : Token} {a b c d : Expr} (left : Alike same a b) (operator : same s t)
      (right : Alike same c d) : Alike same (binary a s c) (binary b t d)

/-- A list in the nested form of a tree: what stands in parentheses behind a name. -/
def listed (name : String) (operands : List Char) : List Char :=
  '(' :: (name.toList ++ ' ' :: operands)

/-- The nested form of a group is a list. -/
theorem toList_nested_grouping (inner : Expr) (rest : List Char) :
    (grouping inner).nested.toList ++ rest = listed "group" (inner.nested.toList ++ ')' :: rest) := by
  simp [nested, listed]

/-- The nested form of an operator with one operand is a list. -/
theorem toList_nested_unary (t : Token) (operand : Expr) (rest : List Char) :
    (unary t operand).nested.toList ++ rest =
      listed t.lexeme (operand.nested.toList ++ ')' :: rest) := by
  simp [nested, listed]

/-- The nested form of an operator with two operands is a list. -/
theorem toList_nested_binary (left : Expr) (t : Token) (right : Expr) (rest : List Char) :
    (binary left t right).nested.toList ++ rest =
      listed t.lexeme (left.nested.toList ++ ' ' :: (right.nested.toList ++ ')' :: rest)) := by
  simp [nested, listed]

/-- No literal is written like a list. -/
theorem display_append_ne_listed {v : Value} (noString : v.IsNoString) {name : String}
    {rest operands : List Char} : v.display.toList ++ rest ≠ listed name operands := by
  obtain ⟨c, cs, hdisplay⟩ := List.exists_cons_of_ne_nil noString.display_ne_empty
  have hword := noString.inWord c (hdisplay ▸ List.mem_cons_self)
  rw [hdisplay, listed, List.cons_append]
  rintro h
  rw [(List.cons.inj h).1] at hword
  cases hword

/-- A list has one name, behind which its operands stand. -/
theorem listed_inj {name name' : String} (hname : ∀ c ∈ name.toList, IsInWord c)
    (hname' : ∀ c ∈ name'.toList, IsInWord c) {operands operands' : List Char}
    (h : listed name operands = listed name' operands') :
    name.toList = name'.toList ∧ operands = operands' := by
  obtain ⟨hnames, hoperands⟩ := append_inj_of_inWord hname hname' (delimits_space _) (delimits_space _)
    (List.cons.inj h).2
  exact ⟨hnames, (List.cons.inj hoperands).2⟩

/-- **What is written like a list** is a group, or an operator with one operand or with two, and the name
and the operands are those of the list. -/
theorem StringFree.of_listed {f : Expr} (hf : f.StringFree) {name : String}
    (hname : ∀ c ∈ name.toList, IsInWord c) {operands rest : List Char}
    (h : listed name operands = f.nested.toList ++ rest) :
    (∃ a : Expr, f = grouping a ∧ a.StringFree ∧ name.toList = "group".toList ∧
      operands = a.nested.toList ++ ')' :: rest) ∨
    (∃ (t : Token) (a : Expr), f = unary t a ∧ t.IsName ∧ a.StringFree ∧
      name.toList = t.lexeme.toList ∧ operands = a.nested.toList ++ ')' :: rest) ∨
    ∃ (a : Expr) (t : Token) (b : Expr), f = binary a t b ∧ t.IsName ∧ a.StringFree ∧ b.StringFree ∧
      name.toList = t.lexeme.toList ∧
      operands = a.nested.toList ++ ' ' :: (b.nested.toList ++ ')' :: rest) := by
  cases f with
  | literal v => exact absurd h.symm (display_append_ne_listed hf)
  | grouping a =>
    rw [toList_nested_grouping] at h
    obtain ⟨hnames, hoperands⟩ := listed_inj hname (List.all_eq_true.mp rfl) h
    exact .inl ⟨a, rfl, hf, hnames, hoperands⟩
  | unary t a =>
    obtain ⟨⟨ht, written⟩, ha⟩ := hf
    have isName := written.isName_of_isUnary ht
    rw [toList_nested_unary] at h
    obtain ⟨hnames, hoperands⟩ := listed_inj hname isName.inWord h
    exact .inr (.inl ⟨t, a, rfl, isName, ha, hnames, hoperands⟩)
  | binary a t b =>
    obtain ⟨ha, ⟨ht, written⟩, hb⟩ := hf
    have isName := written.isName_of_isBinary ht
    rw [toList_nested_binary] at h
    obtain ⟨hnames, hoperands⟩ := listed_inj hname isName.inWord h
    exact .inr (.inr ⟨a, t, b, rfl, isName, ha, hb, hnames, hoperands⟩)

/-- What is written like a literal is a literal that is alike. -/
theorem StringFree.of_display {v : Value} (hv : v.IsNoString) {f : Expr} (hf : f.StringFree)
    {rest rest' : List Char} (delimits : Piece.Delimits rest) (delimits' : Piece.Delimits rest')
    (h : v.display.toList ++ rest = f.nested.toList ++ rest') :
    (∃ w, f = literal w ∧ v.Alike w) ∧ rest = rest' := by
  cases f with
  | literal w =>
    obtain ⟨hdisplay, hrest⟩ :=
      append_inj_of_inWord hv.inWord (Value.IsNoString.inWord hf) delimits delimits' h
    exact ⟨⟨w, rfl, Value.alike_of_display_eq hv hf (String.toList_inj.mp hdisplay)⟩, hrest⟩
  | grouping => exact absurd (h.trans (toList_nested_grouping _ _)) (display_append_ne_listed hv)
  | unary => exact absurd (h.trans (toList_nested_unary _ _ _)) (display_append_ne_listed hv)
  | binary => exact absurd (h.trans (toList_nested_binary _ _ _ _)) (display_append_ne_listed hv)

/-- **A nested form ends where its tree ends**: what begins with the nested form of a tree in front of a
delimiter begins with no other.

**Proof sketch.** Induction on the tree. A literal is a word, and no list begins like one. Two lists have
the same name, so that a group is told from operators. Two operands in the same place end in the same place
by the induction; if a space stands behind the one and a parenthesis behind the other, these would be the
same. -/
theorem StringFree.nested_append_inj {e f : Expr} (he : e.StringFree) (hf : f.StringFree)
    {rest rest' : List Char} (delimits : Piece.Delimits rest) (delimits' : Piece.Delimits rest')
    (h : e.nested.toList ++ rest = f.nested.toList ++ rest') :
    e.Alike Token.SameOperator f ∧ rest = rest' := by
  induction e generalizing f rest rest' with
  | literal v =>
    obtain ⟨⟨w, rfl, alike⟩, hrest⟩ := StringFree.of_display he hf delimits delimits' h
    exact ⟨.literal alike, hrest⟩
  | grouping a ih =>
    rw [toList_nested_grouping] at h
    obtain ⟨b, rfl, hb, -, hoperands⟩ | ⟨t, b, rfl, name, -, hnames, -⟩ |
      ⟨b, t, d, rfl, name, -, -, hnames, -⟩ := hf.of_listed (List.all_eq_true.mp rfl) h
    · obtain ⟨inner, hrest⟩ := ih he hb (delimits_paren _) (delimits_paren _) hoperands
      exact ⟨.grouping inner, (List.cons.inj hrest).2⟩
    · exact absurd hnames.symm name.ne_group
    · exact absurd hnames.symm name.ne_group
  | unary s a ih =>
    obtain ⟨⟨hs, written⟩, ha⟩ := he
    have name := written.isName_of_isUnary hs
    rw [toList_nested_unary] at h
    obtain ⟨b, rfl, -, hnames, -⟩ | ⟨t, b, rfl, name', hb, hnames, hoperands⟩ |
      ⟨b, t, d, rfl, -, hb, -, -, hoperands⟩ := hf.of_listed name.inWord h
    · exact absurd hnames name.ne_group
    · obtain ⟨operand, hrest⟩ := ih ha hb (delimits_paren _) (delimits_paren _) hoperands
      exact ⟨.unary (name.sameOperator name' hnames) operand, (List.cons.inj hrest).2⟩
    · -- a minus with one operand and a minus with two are told apart behind the first operand
      have hrest := (ih ha hb (delimits_paren _) (delimits_space _) hoperands).2
      exact absurd (List.cons.inj hrest).1 (by decide)
  | binary a s c iha ihc =>
    obtain ⟨ha, ⟨hs, written⟩, hc⟩ := he
    have name := written.isName_of_isBinary hs
    rw [toList_nested_binary] at h
    obtain ⟨b, rfl, -, hnames, -⟩ | ⟨t, b, rfl, -, hb, -, hoperands⟩ |
      ⟨b, t, d, rfl, name', hb, hd, hnames, hoperands⟩ := hf.of_listed name.inWord h
    · exact absurd hnames name.ne_group
    · have hrest := (iha ha hb (delimits_space _) (delimits_paren _) hoperands).2
      exact absurd (List.cons.inj hrest).1 (by decide)
    · obtain ⟨left, hright⟩ := iha ha hb (delimits_space _) (delimits_space _) hoperands
      obtain ⟨right, hrest⟩ := ihc hc hd (delimits_paren _) (delimits_paren _) (List.cons.inj hright).2
      exact ⟨.binary left (name.sameOperator name' hnames) right, (List.cons.inj hrest).2⟩

/-- Trees that are alike have the same nested form. -/
theorem Alike.nested_eq {e f : Expr} (alike : e.Alike Token.SameOperator f) : e.nested = f.nested := by
  induction alike with
  | literal value => exact value.display_eq
  | grouping _ ih => rw [nested, nested, ih]
  | unary operator _ ih => rw [nested, nested, ih, operator.2]
  | binary _ operator _ ihl ihr => rw [nested, nested, ihl, ihr, operator.2]

/-- Whether no operator of a tree stands for anything by itself. -/
def Bare (e : Expr) : Prop :=
  e.All (fun _ => True) (·.literal = none) (·.literal = none)

/-- Operators that are the same and stand for nothing by themselves differ in their lines at most. -/
theorem Alike.sameButLine {e f : Expr} (alike : e.Alike Token.SameOperator f) (he : e.Bare)
    (hf : f.Bare) : e.Alike Token.SameButLine f := by
  induction alike with
  | literal value => exact .literal value
  | grouping _ ih => exact .grouping (ih he hf)
  | unary operator _ ih =>
    exact .unary ⟨operator.1, operator.2, he.1.trans hf.1.symm⟩ (ih he.2 hf.2)
  | binary _ operator _ ihl ihr =>
    exact .binary (ihl he.1 hf.1) ⟨operator.1, operator.2, he.2.1.trans hf.2.1.symm⟩ (ihr he.2.2 hf.2.2)

/-- **Nested forms tell trees without strings apart.** Two trees of numbers, truth values and `nil`, with
operators of their position that are written as such, have the same nested form if and only if they have the
same nodes with the same operators, and their literals are the same, numbers to the last bit, except that
all that is no number is taken for the same. If the operators stand for nothing by themselves, the trees
differ in nothing else but the lines of their operators. -/
theorem nested_eq_iff_alike {e f : Expr} (he : e.StringFree) (hf : f.StringFree) :
    (e.nested = f.nested ↔ e.Alike Token.SameOperator f) ∧
      (e.Bare → f.Bare → e.nested = f.nested → e.Alike Token.SameButLine f) := by
  have hend : Piece.Delimits [] := nofun
  have forward (h : e.nested = f.nested) : e.Alike Token.SameOperator f :=
    (he.nested_append_inj hf hend hend (by rw [h])).1
  exact ⟨⟨forward, Alike.nested_eq⟩, fun he' hf' h => (forward h).sameButLine he' hf'⟩

/-- The nested form of a difference does not tell on which lines its minus signs stand, but it tells the
minus of the language from the sign of a number. -/
theorem nested_eq_iff_alike_minus :
    (binary (literal (.number 1)) ⟨.symbol .minus, "-", none, 1⟩ (literal .nil)).Alike
        Token.SameButLine
        (binary (literal (.number 1)) ⟨.symbol .minus, "-", none, 2⟩ (literal .nil)) ∧
      (unary ⟨.symbol .minus, "-", none, 1⟩ (literal (.number 1))).nested ≠
        (literal (.number (-1))).nested := by
  have difference (line : Nat) :
      (binary (literal (.number 1)) ⟨.symbol .minus, "-", none, line⟩ (literal .nil)).StringFree :=
    ⟨trivial, ⟨rfl, rfl⟩, trivial⟩
  have negation : (unary ⟨.symbol .minus, "-", none, 1⟩ (literal (.number 1))).StringFree :=
    ⟨⟨rfl, rfl⟩, trivial⟩
  have negative : (literal (.number (-1))).StringFree := trivial
  refine ⟨?_, fun h => ?_⟩
  · exact (nested_eq_iff_alike (difference 1) (difference 2)).2 ⟨trivial, rfl, trivial⟩
      ⟨trivial, rfl, trivial⟩ rfl
  · have alike := (nested_eq_iff_alike negation negative).1.mp h
    cases alike

end Expr

end Lox
