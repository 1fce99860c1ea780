import Mathlib.Data.List.Forall2

/-!
# The tokens of an FTS5 `MATCH` expression

Quoted strings, in which a double quote is written twice, parentheses, bare words and operators.
A text `Reads` as tokens when they are what the lexer makes of it in front of anything but another
quote.
-/

namespace Lib.MatchSyntax

open List

inductive Token where
  | lparen
  | rparen
  | and
  | or
  | not
  | string (text : List Char)
deriving Repr, DecidableEq

def isSpace (c : Char) : Bool := c ∈ [' ', '\t', '\n', '\r']

def isBareword (c : Char) : Bool := c.isAlphanum || c = '_' || c.toNat = 26 || 128 ≤ c.toNat

def bareword (text : List Char) : Token :=
  if text = ['A', 'N', 'D'] then .and
  else if text = ['O', 'R'] then .or
  else if text = ['N', 'O', 'T'] then .not
  else .string text

/-- Where the lexer is: between tokens, in a bare word, in a quoted string, or after a quote that
ends the string unless another one follows. -/
inductive Mode where
  | between
  | word (text : List Char)
  | inside (text : List Char)
  | closing (text : List Char)

/-- The first character of a token; `none` is a syntax error. -/
def enter (c : Char) : Option (List Token × Mode) :=
  if isSpace c then some ([], .between)
  else if c = '(' then some ([.lparen], .between)
  else if c = ')' then some ([.rparen], .between)
  else if c = '"' then some ([], .inside [])
  else if isBareword c then some ([], .word [c])
  else none

def step : Mode → Char → Option (List Token × Mode)
  | .between, c => enter c
  | .word text, c =>
    if isBareword c then some ([], .word (text ++ [c]))
    else (enter c).map fun (tokens, mode) => (bareword text :: tokens, mode)
  | .inside text, c => some ([], if c = '"' then .closing text else .inside (text ++ [c]))
  | .closing text, c =>
    if c = '"' then some ([], .inside (text ++ [c]))
    else (enter c).map fun (tokens, mode) => (.string text :: tokens, mode)

def lex : Mode → List Char → Option (List Token)
  | .between, [] => some []
  | .word text, [] => some [bareword text]
  | .inside _, [] => none
  | .closing text, [] => some [.string text]
  | mode, c :: cs => (step mode c).bind fun (tokens, mode') => (lex mode' cs).map (tokens ++ ·)

def tokens (s : String) : Option (List Token) := lex .between s.toList

def Reads (text : List Char) (tokens : List Token) : Prop :=
  ∀ rest : List Char, rest.head? ≠ some '"' →
    lex .between (text ++ rest) = (lex .between rest).map (tokens ++ ·)

/-- A text that a quote may follow. -/
def Opens (text : List Char) (tokens : List Token) : Prop :=
  ∀ rest : List Char, lex .between (text ++ rest) = (lex .between rest).map (tokens ++ ·)

variable {text text' : List Char} {ts ts' : List Token}

theorem Opens.append (h : Opens text ts) (h' : Reads text' ts') :
    Reads (text ++ text') (ts ++ ts') := by
  intro rest hrest
  rw [append_assoc, h, h' rest hrest]
  simp [Function.comp_def]

theorem Reads.append (h : Reads text ts) (h' : Reads text' ts') (hhead : text'.head? ≠ some '"') :
    Reads (text ++ text') (ts ++ ts') := by
  intro rest hrest
  have hfollow : (text' ++ rest).head? ≠ some '"' := by cases text' <;> assumption
  rw [append_assoc, h _ hfollow, h' rest hrest]
  simp [Function.comp_def]

end Lib.MatchSyntax
