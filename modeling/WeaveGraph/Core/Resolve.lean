import WeaveGraph.Core.Model

/-!
# Symbol names in queries

How a name typed by a user becomes a node: exact, case-insensitive, short name, and otherwise a
list of suggestions ranked by edit distance.
-/

namespace WeaveGraph

open Lib

def maxSuggestions : Nat := 5

def exactMatch (nodes : List Node) (symbol : String) : Option NodeId :=
  (nodes.find? fun n => n.symbol == symbol).map Node.id

def caseInsensitiveMatch (nodes : List Node) (symbol : String) : Option NodeId :=
  (nodes.find? fun n =>
    Text.toAsciiLowercase n.symbol == Text.toAsciiLowercase symbol).map Node.id

def shortNameMatches (nodes : List Node) (shortName : String) : List Node :=
  nodes.filter fun n => n.symbol == shortName || Text.endsWith n.symbol ("::" ++ shortName)

def asBytes (s : String) : List UInt8 := s.toList.flatMap String.utf8EncodeChar

/-- The entries of a row right of its first one; the second argument is the row above from the same
column on, the third the entry to the left. -/
def levenshteinCells (ac : UInt8) : List UInt8 → List Nat → Nat → List Nat
  | bc :: bs, above :: above' :: prev, left =>
    let cell := if ac = bc then above else 1 + min (min above above') left
    cell :: levenshteinCells ac bs (above' :: prev) cell
  | _, _, _ => []

def levenshteinRows (b : List UInt8) : List UInt8 → Nat → List Nat → List Nat
  | [], _, prev => prev
  | ac :: a, i, prev => levenshteinRows b a (i + 1) ((i + 1) :: levenshteinCells ac b prev (i + 1))

def levenshtein (a b : String) : Nat :=
  let b := asBytes b
  (levenshteinRows b (asBytes a) 0 (List.range (b.length + 1))).getD b.length 0

def rankedBefore (a b : Node × Nat) : Prop := a.2 < b.2 ∨ (a.2 = b.2 ∧ a.1.symbol ≤ b.1.symbol)

instance : DecidableRel rankedBefore := fun a b =>
  inferInstanceAs (Decidable (a.2 < b.2 ∨ (a.2 = b.2 ∧ a.1.symbol ≤ b.1.symbol)))

/-- Nearest symbols first, whatever their case. -/
def ranked (nodes : List Node) (symbol : String) : List (Node × Nat) :=
  (nodes.map fun n =>
    (n, levenshtein (Text.toAsciiLowercase n.symbol) (Text.toAsciiLowercase symbol)))
    |>.insertionSort rankedBefore

def resolveSymbol (nodes : List Node) (symbol : String) : Except (List String) NodeId :=
  match exactMatch nodes symbol with
  | some id => .ok id
  | none =>
    match caseInsensitiveMatch nodes symbol with
    | some id => .ok id
    | none =>
      match shortNameMatches nodes symbol with
      | [single] => .ok single.id
      | [] => .error (((ranked nodes symbol).take maxSuggestions).map fun p => p.1.symbol)
      | multiple => .error (multiple.map Node.symbol)

def formatNotFound (symbol : String) (suggestions : List String) : String :=
  if suggestions.isEmpty then "symbol not found: " ++ symbol
  else
    "symbol not found: " ++ symbol ++ " (did you mean: " ++ String.intercalate ", " suggestions ++
      "?)"

example : levenshtein "kitten" "sitting" = 3 := by decide

end WeaveGraph
