import WeaveGraph.Core.Model
import WeaveGraph.Lib.Table

/-!
# Notes

A note is pinned to a node and carries its moniker.  Ephemeral notes expire; crystallized ones keep
a hash of the source they were pinned to.
-/

namespace WeaveGraph

inductive NoteTier where
  | ephemeral
  | crystallized
deriving Repr, DecidableEq

/-- Without a target the note is orphaned; without a hash its source could not be read. -/
structure Note where
  id : Nat
  targetNodeId : Option NodeId
  moniker : String
  kind : String
  tier : NoteTier
  author : String
  content : String
  contentHash : Option String
  stale : Bool
  expiresAt : Option Int
  createdAt : Int
deriving Repr, DecidableEq

/-- `tier = 'ephemeral' AND expires_at <= now`. -/
def Note.isExpired (now : Int) (note : Note) : Bool :=
  note.tier == .ephemeral && note.expiresAt.any (· ≤ now)

def ephemeralTtlSecs : Int := 24 * 60 * 60

/-- The lines of a symbol, counted from one. -/
def spanLines (source : String) (lineStart lineEnd : Nat) : String :=
  let start := lineStart - 1
  let stop := min lineEnd (Lib.Text.lines source).length
  String.intercalate "\n" (((Lib.Text.lines source).drop start).take (stop - start))

def hashSpan (hash : String → String) (source : String) (lineStart lineEnd : Nat) : String :=
  hash (spanLines source lineStart lineEnd)

abbrev NoteTable := Lib.Table Note.id Note.id

namespace SqliteStorage

def pinNote (t : NoteTable) (note : Note) : NoteTable :=
  t.append { note with id := t.nextId } rfl fun hid => by
    obtain ⟨r, hr, he⟩ := List.mem_map.mp hid
    exact absurd (t.pk_lt_nextId hr) (by rw [he]; exact Nat.lt_irrefl _)

/-- `ORDER BY created_at, id`. -/
def allNotes (t : NoteTable) : List Note :=
  t.rows.insertionSort fun a b =>
    a.createdAt < b.createdAt ∨ (a.createdAt = b.createdAt ∧ a.id ≤ b.id)

def reattachNote (t : NoteTable) (id : Nat) (targetNodeId : Option NodeId) (stale : Bool) :
    NoteTable :=
  t.mergeAt id (fun r => { r with targetNodeId := targetNodeId, stale := stale })
    (fun _ => rfl) (fun _ => rfl)

def deleteExpiredNotes (t : NoteTable) (now : Int) : NoteTable := t.delete (Note.isExpired now)

end SqliteStorage

end WeaveGraph
