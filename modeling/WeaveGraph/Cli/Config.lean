import WeaveGraph.Lib.Text
import WeaveGraph.Lib.Toml

/-!
# Writing to the configuration file

`set_key` and `add_linked_repo` read the file into a table, change one entry and write the table
back.  A file that is not TOML counts as an empty table, so:

    a write keeps every other key, and never replaces a file it cannot read
      ↔  the file, if there is one, is a table                                   (writes_keep_iff)
-/

namespace WeaveGraph.Config

open List Lib
open Lib.Toml (Table)

/-- What is found at the path; a broken file cannot be read as text or is not TOML. -/
inductive ConfigFile where
  | absent
  | broken (content : List UInt8)
  | toml (table : Table)

/-- `unwrap_or_default`, for the reading and for the parsing. -/
def ConfigFile.read : ConfigFile → Table
  | .toml table => table
  | _ => []

/-- The parts of a key are those between its dots. -/
def getDotted (table : Table) : List String → Option Toml
  | [] => none
  | [head] => table.lookup head
  | head :: rest => ((table.lookup head).bind Toml.asTable).bind fun t => getDotted t rest

def setDotted (table : Table) (value : Toml) : List String → Table
  | [] => table
  | [head] => Toml.insert head value table
  | head :: rest =>
    let nested := ((table.lookup head).bind Toml.asTable).getD []
    Toml.insert head (.table (setDotted nested value rest)) table

/-- The file afterwards; `none` when the table cannot be written.  A value that is not TOML is
taken as a string. -/
def setKey (parseValue : String → Option Toml) (writes : Bool) (file : ConfigFile)
    (key value : String) : Option ConfigFile :=
  if writes then
    some (.toml (setDotted file.read ((parseValue value).getD (.string value))
      (Text.splitChar '.' key)))
  else none

def linkedRepos : List String := ["federation", "linked_repos"]

def addLinkedRepo (writes : Bool) (file : ConfigFile) (repo : String) : Option ConfigFile :=
  let linked := ((getDotted file.read linkedRepos).bind Toml.asArray).getD []
  if linked.any fun v => v.asStr == some repo then some file
  else if writes then
    some (.toml (setDotted file.read (.array (linked ++ [.string repo])) linkedRepos))
  else none

/-- A broken file is left alone, and so is every key that is neither above nor below the written
one. -/
def Keeps (written : List String) (file file' : ConfigFile) : Prop :=
  (∀ content, file = .broken content → file' = file) ∧
    ∀ key, ¬ key <+: written → ¬ written <+: key →
      getDotted file'.read key = getDotted file.read key

theorem getDotted_nil (key : List String) : getDotted [] key = none := by
  rcases key with _ | ⟨head, _ | ⟨next, rest⟩⟩ <;> rfl

theorem getDotted_congr {table table' : Table} {head : String}
    (h : table.lookup head = table'.lookup head) (rest : List String) :
    getDotted table (head :: rest) = getDotted table' (head :: rest) := by
  cases rest <;> simp only [getDotted, h]

theorem getDotted_setDotted (value : Toml) (written : List String) :
    ∀ {table : Table} {key : List String}, ¬ key <+: written → ¬ written <+: key →
      getDotted (setDotted table value written) key = getDotted table key := by
  induction written with
  | nil => exact fun _ hbelow => absurd nil_prefix hbelow
  | cons head written ih =>
    intro table key habove hbelow
    cases key with
    | nil => exact absurd nil_prefix habove
    | cons head' key =>
      rw [cons_prefix_cons, not_and] at habove hbelow
      by_cases hhead : head' = head
      · subst hhead
        cases written with
        | nil => exact absurd nil_prefix (hbelow rfl)
        | cons next written =>
          cases key with
          | nil => exact absurd nil_prefix (habove rfl)
          | cons next' key =>
            simp only [getDotted, setDotted, Toml.lookup_insert, if_true, Option.bind_some,
              Toml.asTable, ih (habove rfl) (hbelow rfl)]
            cases (table.lookup head').bind Toml.asTable with
            | none => exact getDotted_nil _
            | some nested => rfl
      · apply getDotted_congr
        cases written <;> simp only [setDotted, Toml.lookup_insert, if_neg hhead]

theorem keeps_toml {written : List String} {value : Toml} {file : ConfigFile}
    (h : ∀ content, file ≠ .broken content) :
    Keeps written file (.toml (setDotted file.read value written)) :=
  ⟨fun content hfile => absurd hfile (h content), fun _ habove hbelow =>
    getDotted_setDotted value written habove hbelow⟩

/-- **A write loses nothing**, whatever is written, exactly if the file is not broken. -/
theorem writes_keep_iff (parseValue : String → Option Toml) (file : ConfigFile) :
    (∀ writes, (∀ key value, ∀ file' ∈ setKey parseValue writes file key value,
        Keeps (Text.splitChar '.' key) file file') ∧
      ∀ repo, ∀ file' ∈ addLinkedRepo writes file repo, Keeps linkedRepos file file') ↔
    ∀ content, file ≠ .broken content := by
  constructor
  · rintro hkeeps content rfl
    cases ((hkeeps true).1 "" "" _ rfl).1 content rfl
  · intro hfile writes
    refine ⟨fun key value file' h => ?_, fun repo file' h => ?_⟩
    · cases (Option.ite_none_right_eq_some.mp h).2
      exact keeps_toml hfile
    · unfold addLinkedRepo at h
      dsimp only at h
      split at h
      · cases h
        exact ⟨fun _ _ => rfl, fun _ _ _ => rfl⟩
      · cases (Option.ite_none_right_eq_some.mp h).2
        exact keeps_toml hfile

/-- A line of the file is not finished: the new setting replaces all others. -/
theorem setKey_replaces_broken : ∃ file',
    setKey (fun _ => none) true (.broken "offline = true\nmode =".toUTF8.toList) "mode" "multiple" =
      some (.toml file') ∧ getDotted file' ["mode"] = some (.string "multiple") ∧
    getDotted file' ["offline"] = none ∧
    ¬ Keeps ["mode"] (.broken "offline = true\nmode =".toUTF8.toList) (.toml file') :=
  ⟨_, rfl, rfl, rfl, fun h => by cases h.1 _ rfl⟩

end WeaveGraph.Config
