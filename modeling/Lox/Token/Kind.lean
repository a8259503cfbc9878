set_option autoImplicit false

/-!
# Kinds of tokens

A token is a symbol, a reserved word, one of the three kinds whose text varies, or the end of the
input.

## Main definitions

* `Lox.Symbol` — punctuation and operators, with their texts.
* `Lox.Keyword` — the reserved words.
* `Lox.Kind` — all kinds of tokens. A kind has a `name`, some kinds have a fixed `text?`, and
  `display` is the one to show to a reader.
-/

namespace Lox

/-! ## Symbols -/

/-- Punctuation and operators. -/
inductive Symbol
  | leftParen | rightParen | leftBrace | rightBrace
  | comma | dot | minus | plus | semicolon | slash | star
  | bang | bangEqual | equal | equalEqual
  | greater | greaterEqual | less | lessEqual
deriving DecidableEq, Repr

namespace Symbol

/-- All symbols. -/
def all : List Symbol :=
  [leftParen, rightParen, leftBrace, rightBrace, comma, dot, minus, plus, semicolon, slash, star,
    bang, bangEqual, equal, equalEqual, greater, greaterEqual, less, lessEqual]

/-- How a symbol is written. -/
def text : Symbol → String
  | leftParen => "("
  | rightParen => ")"
  | leftBrace => "\x7b"
  | rightBrace => "\x7d"
  | comma => ","
  | dot => "."
  | minus => "-"
  | plus => "+"
  | semicolon => ";"
  | slash => "/"
  | star => "*"
  | bang => "!"
  | bangEqual => "!="
  | equal => "="
  | equalEqual => "=="
  | greater => ">"
  | greaterEqual => ">="
  | less => "<"
  | lessEqual => "<="

/-- The name of a symbol. -/
def name : Symbol → String
  | leftParen => "LeftParen"
  | rightParen => "RightParen"
  | leftBrace => "LeftBrace"
  | rightBrace => "RightBrace"
  | comma => "Comma"
  | dot => "Dot"
  | minus => "Minus"
  | plus => "Plus"
  | semicolon => "Semicolon"
  | slash => "Slash"
  | star => "Star"
  | bang => "Bang"
  | bangEqual => "BangEqual"
  | equal => "Equal"
  | equalEqual => "EqualEqual"
  | greater => "Greater"
  | greaterEqual => "GreaterEqual"
  | less => "Less"
  | lessEqual => "LessEqual"

/-- The symbol that is written with the one character `c`. -/
def ofChar? : Char → Option Symbol
  | '(' => some leftParen
  | ')' => some rightParen
  | '\x7b' => some leftBrace
  | '\x7d' => some rightBrace
  | ',' => some comma
  | '.' => some dot
  | '-' => some minus
  | '+' => some plus
  | ';' => some semicolon
  | '/' => some slash
  | '*' => some star
  | '!' => some bang
  | '=' => some equal
  | '>' => some greater
  | '<' => some less
  | _ => none

/-- The symbol that a following equals sign turns this one into. -/
def withEqual? : Symbol → Option Symbol
  | bang => some bangEqual
  | equal => some equalEqual
  | greater => some greaterEqual
  | less => some lessEqual
  | _ => none

end Symbol

/-! ## Reserved words -/

/-- The reserved words. -/
inductive Keyword
  | andWord | classWord | elseWord | falseWord | funWord | forWord | ifWord | nilWord
  | orWord | printWord | returnWord | superWord | thisWord | trueWord | varWord | whileWord
deriving DecidableEq, Repr

namespace Keyword

/-- All reserved words. -/
def all : List Keyword :=
  [andWord, classWord, elseWord, falseWord, funWord, forWord, ifWord, nilWord, orWord, printWord,
    returnWord, superWord, thisWord, trueWord, varWord, whileWord]

/-- How a reserved word is written. -/
def text : Keyword → String
  | andWord => "and"
  | classWord => "class"
  | elseWord => "else"
  | falseWord => "false"
  | funWord => "fun"
  | forWord => "for"
  | ifWord => "if"
  | nilWord => "nil"
  | orWord => "or"
  | printWord => "print"
  | returnWord => "return"
  | superWord => "super"
  | thisWord => "this"
  | trueWord => "true"
  | varWord => "var"
  | whileWord => "while"

/-- The name of a reserved word: the word with a capital letter. -/
def name : Keyword → String
  | andWord => "And"
  | classWord => "Class"
  | elseWord => "Else"
  | falseWord => "False"
  | funWord => "Fun"
  | forWord => "For"
  | ifWord => "If"
  | nilWord => "Nil"
  | orWord => "Or"
  | printWord => "Print"
  | returnWord => "Return"
  | superWord => "Super"
  | thisWord => "This"
  | trueWord => "True"
  | varWord => "Var"
  | whileWord => "While"

/-- The reserved word that is written exactly so, small letters and all. -/
def ofText? (text : String) : Option Keyword :=
  all.find? (·.text == text)

/-- A reserved word is found by its text. -/
theorem ofText?_text (k : Keyword) : ofText? k.text = some k := by
  cases k <;> decide

/-- A reserved word is found by no other text. -/
theorem text_of_ofText? {text : String} {k : Keyword} (h : ofText? text = some k) :
    k.text = text := by
  simpa using List.find?_some h

/-- The reserved words that begin a statement. -/
def beginsStatement : Keyword → Bool
  | classWord | funWord | varWord | forWord | ifWord | whileWord | printWord | returnWord => true
  | _ => false

end Keyword

/-! ## Kinds -/

/-- What a token is. -/
inductive Kind
  /-- Punctuation or an operator. -/
  | symbol (s : Symbol)
  /-- A reserved word. -/
  | keyword (k : Keyword)
  /-- A word that is not reserved. -/
  | identifier
  /-- A text in quotes. -/
  | string
  /-- A number. -/
  | number
  /-- The end of the input. -/
  | endOfInput
deriving DecidableEq, Repr

namespace Kind

/-- All kinds. -/
def all : List Kind :=
  Symbol.all.map symbol ++ Keyword.all.map keyword ++ [identifier, string, number, endOfInput]

/-- The text that all tokens of the kind have, if it does not vary. -/
def text? : Kind → Option String
  | symbol s => some s.text
  | keyword k => some k.text
  | _ => none

/-- The name of a kind. -/
def name : Kind → String
  | symbol s => s.name
  | keyword k => k.name
  | identifier => "Identifier"
  | string => "String"
  | number => "Number"
  | endOfInput => "Eof"

/-- The kind of a given name. -/
def ofName? (name : String) : Option Kind :=
  all.find? (·.name == name)

/-- A kind is found by its name. -/
theorem ofName?_name (kind : Kind) : ofName? kind.name = some kind := by
  rcases kind with s | k | _ | _ | _ | _
  · cases s <;> decide
  · cases k <;> decide
  all_goals decide

/-- A kind as shown to a reader: its text, or its name if the text varies. -/
def display (kind : Kind) : String :=
  kind.text?.getD kind.name

/-- Whether a token of the kind begins a statement. -/
def beginsStatement : Kind → Bool
  | keyword k => k.beginsStatement
  | _ => false

/-- The kind of a word: reserved if it is written like a reserved word, else an identifier. -/
def ofWord (word : String) : Kind :=
  match Keyword.ofText? word with
  | some k => keyword k
  | none => identifier

end Kind

end Lox
