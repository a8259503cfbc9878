import Lox.Log
import Lox.Proofs.Expr.Parse

set_option autoImplicit false

/-!
# Reading a whole list of tokens

A list of tokens is read up to its first end of input. All of the reading is done by `Expr.read` on
the tokens before that end; a cursor only adds the token at which a fault was found.

## Main definitions

* `Lox.Token.words` — the tokens before the first end of input.

## Main results

* `Lox.Cursor.readAll_fst` — the answer of a cursor from the answer of the reading.
* `Lox.parse_eq_answer`, `Lox.parse_eq_ok_iff` — the trees that lists of tokens make up.
* `Lox.Log.parse_fst_eq_some_iff` — the same with a log, to which nothing is added.
-/

namespace Lox

/-- The tokens before the first end of input, or all if there is none. -/
def Token.words (tokens : List Token) : List Token :=
  tokens.takeWhile (·.kind != .endOfInput)

namespace Cursor

/-- The answer to a reading of all tokens, of which the last is followed by `stop`. -/
def answer (stop : Token) : Except (ParseCause × List Token) (Expr × List Token) →
    Except ParseFault Expr
  | .ok (e, []) => .ok e
  | .ok (_, t :: _) => .error ⟨.furtherToken, t⟩
  | .error (cause, rest) => .error ⟨cause, rest.headD stop⟩

/-- A cursor reads all tokens ahead, and blames the token it has come to. -/
theorem readAll_fst (c : Cursor) : c.readAll.1 = answer c.stop (Expr.read c.ahead) := by
  unfold readAll readExpr
  rcases Expr.read c.ahead with ⟨cause, rest⟩ | ⟨e, _ | ⟨t, ts⟩⟩ <;> rfl

end Cursor

/-- The answer for a list of tokens is that of the reading of its words. -/
theorem parse_eq_answer (tokens : List Token) :
    parse tokens = Cursor.answer (Cursor.ofTokens tokens).stop (Expr.read (Token.words tokens)) :=
  (Cursor.ofTokens tokens).readAll_fst

/-- A list of tokens makes up a tree if and only if its words are read as this tree. -/
theorem parse_eq_ok_iff {tokens : List Token} {e : Expr} :
    parse tokens = .ok e ↔ Expr.read (Token.words tokens) = .ok (e, []) := by
  rw [parse_eq_answer]
  rcases Expr.read (Token.words tokens) with ⟨cause, rest⟩ | ⟨e', _ | ⟨t, ts⟩⟩ <;>
    simp [Cursor.answer]

namespace Log

/-- Parsing with a log gives a tree if and only if parsing without one does. -/
theorem parse_fst_eq_some_iff {log : Log} {tokens : List Token} {e : Expr} :
    (log.parse tokens).1 = some e ↔ Lox.parse tokens = .ok e := by
  unfold parse
  cases Lox.parse tokens <;> simp

/-- Parsing that gives a tree adds nothing to the log. -/
theorem parse_snd_of_fst_eq_some {log : Log} {tokens : List Token} {e : Expr}
    (h : (log.parse tokens).1 = some e) : (log.parse tokens).2 = log := by
  rw [parse_fst_eq_some_iff] at h
  simp [parse, h]

end Log

end Lox
