import WeaveGraph.Parse.Resolve

/-!
# Exported declarations

Which declarations of a file are exported, their canonical contract lines, the difference of two
snapshots and the hash of a list of lines.  SHA-256 is a parameter (`sha256`, from text to the hex
digest).
-/

namespace WeaveGraph.Contract

open Lib.Text

def canonicalLine (symbol kind signature : String) : String :=
  kind ++ " " ++ symbol ++ " :: " ++ trim signature

/-- `qualified.rsplit([':', '.']).next()`. -/
def shortName (qualified : String) : String :=
  String.ofList (qualified.toList.reverse.takeWhile fun c => c != ':' && c != '.').reverse

def visibilityRule (language : Language) (sig name : String) : Bool :=
  match language with
  | .rust => startsWith sig "pub" && !startsWith sig "pub("
  | .python => !startsWith name "_"
  | .go => name.toList.head?.any fun c => 'A' ≤ c && c ≤ 'Z'
  | .typeScript | .tsx | .javaScript => contains sig "export"
  | .java => contains (toAsciiLowercase sig) "public"
  | .c | .cpp => !startsWith sig "static"
  | .dart => !startsWith name "_"
  | .arkTs => contains sig "export"
  | .kotlin | .cSharp | .scala | .swift | .php | .visualBasic =>
    contains (toAsciiLowercase sig) "public"
  | .solidity => contains sig "public" || contains sig "external"
  | .elixir => !contains sig "defp"
  | .zig => startsWith sig "pub"
  | .objC | .metal | .cuda => !startsWith sig "static"
  | _ => true

/-- Kind, trimmed signature and line of an exported symbol. -/
abbrev ExportedEntry := String × String × Nat

/-- The exported declarations of a file, in order. -/
def exportedDecls (language : Language) (file : ParsedFile) : List (String × ExportedEntry) :=
  (file.symbols.filter fun s =>
    visibilityRule language (trim s.signature) (shortName s.symbol)).map fun s =>
      (s.symbol, s.kind.asStr, trim s.signature, s.lineStart)

def exportedEntriesMap (language : Language) (file : ParsedFile) :
    Lib.FinMap String ExportedEntry :=
  Lib.FinMap.ofList (exportedDecls language file)

/-! ## Differences -/

structure ContractDiff (ν : Type) where
  added : List (String × ν)
  removed : List (String × ν)
  changed : List (String × ν × ν)
deriving Repr, DecidableEq

namespace ContractDiff

variable {ν : Type}

def empty : ContractDiff ν := ⟨[], [], []⟩

def isEmpty (d : ContractDiff ν) : Bool := d.added.isEmpty && d.removed.isEmpty && d.changed.isEmpty

end ContractDiff

def diffContracts {ν κ : Type} [DecidableEq κ] (expected actual : Lib.FinMap String ν)
    (contractKey : ν → κ) : ContractDiff ν where
  added := (actual.entries.filter fun p => (expected.get p.1).isNone).insertionSort
    fun a b => a.1 ≤ b.1
  removed := (expected.entries.filter fun p => (actual.get p.1).isNone).insertionSort
    fun a b => a.1 ≤ b.1
  changed := (actual.entries.filterMap fun p =>
    match expected.get p.1 with
    | none => none
    | some old => if contractKey old ≠ contractKey p.2 then some (p.1, old, p.2) else none
    ).insertionSort fun a b => a.1 ≤ b.1

/-! ## Hashing -/

def hashEntries (sha256 : String → String) (entries : List String) : String :=
  sha256 (unlines entries)

end WeaveGraph.Contract
