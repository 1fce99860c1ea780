import WeaveGraph.Lib.Channel
import WeaveGraph.Cli.Index

/-!
# The parse pipeline

`parse_files_bounded` parses chunks of files on a producer thread and folds them, in order, on the
calling thread; a channel of capacity one lies between.  The loop borrows the receiver, so leaving
it after a failed `fold` does not drop the receiver: the scope waits for a producer that waits for
room.

* `sequential`: what the function is for, a loop over the parseable files that ends at the first
  failure; it is the loop the indexer's model uses (`parseFilesBounded_eq`), and what every run
  that returns has done (`parseFilesBounded_refines`).
* `finishes_iff`: every run ends and does just that exactly when no `fold` fails before the last two
  chunks; `failed_fold_deadlocks`: otherwise the two threads wait for each other.
-/

namespace WeaveGraph.Pipeline

open List Lib Lib.Channel

variable {σ τ ε : Type}

/-! ## The producer -/

/-- At most `fuel` chunks. -/
def chunksAux {α : Type} (n : Nat) : Nat → List α → List (List α)
  | 0, _ => []
  | _ + 1, [] => []
  | fuel + 1, a :: l => (a :: l).take n :: chunksAux n fuel ((a :: l).drop n)

/-- `files.chunks(n)`. -/
def chunks {α : Type} (n : Nat) (l : List α) : List (List α) := chunksAux n l.length l

/-- The path, and what `map` makes of the parsed file; `none` for a file that is skipped. -/
def fileEntry (ix : Indexer) (map : String → ParsedFile → τ) (file : SourceFile) :
    String × Option τ :=
  (file.rel, (ix.parseFile file).map (map file.rel))

/-- The pool returns the results in the order of the chunk, on any number of threads. -/
def parseChunkMapped (ix : Indexer) (map : String → ParsedFile → τ) (chunk : List SourceFile) :
    List (String × Option τ) :=
  chunk.map (fileEntry ix map)

/-! ## The consuming loop -/

/-- What the closure `fold` works on, the calls it got, and the first failure. -/
structure Outcome (σ τ ε : Type) where
  state : σ
  calls : List (String × τ)
  failure : Option ε
deriving Repr, DecidableEq

/-- The rest of the chunk the loop is in. -/
structure FoldLoop (σ τ ε : Type) where
  pending : List (String × Option τ)
  outcome : Outcome σ τ ε
deriving Repr, DecidableEq

variable (fold : σ → String → τ → σ × Option ε)

def visit (o : Outcome σ τ ε) (entry : String × Option τ) : Outcome σ τ ε :=
  match entry.2, o.failure with
  | some mapped, none =>
    let result := fold o.state entry.1 mapped
    ⟨result.1, o.calls ++ [(entry.1, mapped)], result.2⟩
  | _, _ => o

def FoldLoop.work (c : FoldLoop σ τ ε) : Option (FoldLoop σ τ ε) :=
  match c.pending with
  | [] => none
  | entry :: rest => some ⟨rest, visit fold c.outcome entry⟩

theorem FoldLoop.work_eq_some {c c' : FoldLoop σ τ ε} (h : c.work fold = some c') :
    ∃ entry, c.pending = entry :: c'.pending ∧ c'.outcome = visit fold c.outcome entry := by
  unfold FoldLoop.work at h
  split at h
  · cases h
  · rename_i entry rest hpending
    cases h
    exact ⟨entry, hpending, rfl⟩

theorem FoldLoop.work_eq_none {c : FoldLoop σ τ ε} (h : c.work fold = none) : c.pending = [] := by
  unfold FoldLoop.work at h
  split at h
  · assumption
  · cases h

def consumer : Consumer (List (String × Option τ)) (FoldLoop σ τ ε) where
  take c chunk := { c with pending := chunk }
  work := FoldLoop.work fold
  done c := c.outcome.failure.isSome
  cost c := c.pending.length
  weight chunk := chunk.length
  cost_work := by
    intro c c' h
    obtain ⟨entry, hpending, -⟩ := FoldLoop.work_eq_some fold h
    rw [hpending, length_cons]
    exact Nat.lt_succ_self _
  cost_take c chunk := Nat.le_add_left _ _

def parseFilesBoundedStart (ix : Indexer) (files : List SourceFile) (parseChunk : Nat)
    (map : String → ParsedFile → τ) (s : σ) :
    Pipe (List (String × Option τ)) (FoldLoop σ τ ε) :=
  start ((chunks (max parseChunk 1) files).map (parseChunkMapped ix map)) ⟨[], ⟨s, [], none⟩⟩

/-- A step of either thread; the channel holds one chunk. -/
def parseFilesBoundedStep :
    Pipe (List (String × Option τ)) (FoldLoop σ τ ε) → Action →
      Option (Pipe (List (String × Option τ)) (FoldLoop σ τ ε)) :=
  step 1 (consumer fold)

/-! ## What the function is for -/

/-- One call after the other, up to and including the first that fails. -/
def sequential : σ → List (String × τ) → Outcome σ τ ε
  | s, [] => ⟨s, [], none⟩
  | s, (rel, mapped) :: rest =>
    match fold s rel mapped with
    | (t, some e) => ⟨t, [(rel, mapped)], some e⟩
    | (t, none) =>
      let o := sequential t rest
      ⟨o.state, (rel, mapped) :: o.calls, o.failure⟩

def parsed (ix : Indexer) (map : String → ParsedFile → τ) (files : List SourceFile) :
    List (String × τ) :=
  files.filterMap fun file => (ix.parseFile file).map fun p => (file.rel, map file.rel p)

/-- Every run ends, `fold` is called as in the sequential loop, and a run that cannot go on has
returned with what that loop ends in. -/
def Finishes (ix : Indexer) (files : List SourceFile) (parseChunk : Nat)
    (map : String → ParsedFile → τ) (s : σ) : Prop :=
  (∃ bound, ∀ run p, exec (parseFilesBoundedStep fold)
    (parseFilesBoundedStart ix files parseChunk map s) run = some p → run.length ≤ bound) ∧
  ∀ run p, exec (parseFilesBoundedStep fold)
      (parseFilesBoundedStart ix files parseChunk map s) run = some p →
    p.consumer.outcome.calls <+: (sequential fold s (parsed ix map files)).calls ∧
    (Stuck (parseFilesBoundedStep fold) p →
      p.dropped = true ∧ p.consumer.outcome = sequential fold s (parsed ix map files))

/-- The files of all chunks but the last two. -/
def beforeLastTwo (parseChunk : Nat) (files : List SourceFile) : List SourceFile :=
  (chunks (max parseChunk 1) files).dropLast.dropLast.flatten

/-! ## The indexer's loop -/

/-- What `parse_files_bounded` returns, with the state the closure has written. -/
def Outcome.result (o : Outcome σ τ ε) : Except ε σ :=
  match o.failure with
  | none => .ok o.state
  | some e => .error e

/-- A closure that writes into a state, or fails and leaves it. -/
def closure (f : σ → String → ParsedFile → Except ε σ) (s : σ) (rel : String)
    (file : ParsedFile) : σ × Option ε :=
  match f s rel file with
  | .ok t => (t, none)
  | .error e => (s, some e)

/-- The loop of the reindexing model is the sequential one. -/
theorem parseFilesBounded_eq (ix : Indexer)
    (f : σ → String → ParsedFile → Except StorageError σ) (files : List SourceFile) (s : σ) :
    ix.parseFilesBounded files f s =
      (sequential (closure f) s (parsed ix (fun _ file => file) files)).result := by
  induction files generalizing s with
  | nil => rfl
  | cons file files ih =>
    unfold Indexer.parseFilesBounded at ih ⊢
    rw [foldlM_cons, parsed, filterMap_cons]
    cases hparse : ix.parseFile file with
    | none => exact ih s
    | some p =>
      simp only [Option.map_some, sequential, closure]
      cases f s file.rel p with
      | error e => rfl
      | ok t => exact ih t

/-! ## Lemmas: chunks -/

theorem flatten_chunksAux {α : Type} {n : Nat} (hn : 0 < n) : ∀ (fuel : Nat) (l : List α),
    l.length ≤ fuel → (chunksAux n fuel l).flatten = l := by
  intro fuel
  induction fuel with
  | zero =>
    intro l hl
    rw [eq_nil_of_length_eq_zero (Nat.le_zero.mp hl)]
    rfl
  | succ fuel ih =>
    intro l hl
    cases l with
    | nil => rfl
    | cons a l =>
      have hdrop : ((a :: l).drop n).length ≤ fuel := by
        rw [length_drop]
        omega
      rw [chunksAux, flatten_cons, ih _ hdrop, take_append_drop]

theorem flatten_chunks {α : Type} {n : Nat} (hn : 0 < n) (l : List α) : (chunks n l).flatten = l :=
  flatten_chunksAux hn l.length l le_rfl

/-! ## Lemmas: the loop over entries -/

section loop

variable {fold} {o : Outcome σ τ ε}

theorem foldl_visit_failed (h : o.failure.isSome) (entries : List (String × Option τ)) :
    entries.foldl (visit fold) o = o := by
  obtain ⟨e, he⟩ := Option.isSome_iff_exists.mp h
  induction entries with
  | nil => rfl
  | cons entry entries ih =>
    have hvisit : visit fold o entry = o := by simp [visit, he]
    rw [foldl_cons, hvisit, ih]

theorem calls_prefix_visit (o : Outcome σ τ ε) (entry : String × Option τ) :
    o.calls <+: (visit fold o entry).calls := by
  unfold visit
  split
  · exact prefix_append _ _
  · exact prefix_rfl

theorem calls_prefix_foldl (entries : List (String × Option τ)) (o : Outcome σ τ ε) :
    o.calls <+: (entries.foldl (visit fold) o).calls := by
  induction entries generalizing o with
  | nil => exact prefix_rfl
  | cons entry entries ih => exact (calls_prefix_visit o entry).trans (ih _)

theorem foldl_visit (entries : List (String × Option τ)) (s : σ) (calls : List (String × τ)) :
    let r := sequential fold s (entries.filterMap fun e => e.2.map fun t => (e.1, t))
    entries.foldl (visit fold) ⟨s, calls, none⟩ = ⟨r.state, calls ++ r.calls, r.failure⟩ := by
  induction entries generalizing s calls with
  | nil => simp [sequential]
  | cons entry entries ih =>
    obtain ⟨rel, mapped⟩ := entry
    cases mapped with
    | none => exact ih s calls
    | some mapped =>
      cases hfold : fold s rel mapped with
      | mk t failure =>
        have hvisit : visit fold ⟨s, calls, none⟩ (rel, some mapped) =
            ⟨t, calls ++ [(rel, mapped)], failure⟩ := by
          simp [visit, hfold]
        rw [foldl_cons, hvisit]
        simp only [filterMap_cons, Option.map_some, sequential, hfold]
        cases failure with
        | none =>
          rw [ih]
          simp
        | some e => exact foldl_visit_failed rfl entries

variable (fold) in
def after (s : σ) (taken : List (List (String × Option τ))) : Outcome σ τ ε :=
  taken.flatten.foldl (visit fold) ⟨s, [], none⟩

theorem after_append (s : σ) (a b : List (List (String × Option τ))) :
    after fold s (a ++ b) = b.flatten.foldl (visit fold) (after fold s a) := by
  rw [after, flatten_append, foldl_append]
  rfl

theorem after_failure_mono {s : σ} {a b : List (List (String × Option τ))} (hab : a <+: b)
    (hb : (after fold s b).failure = none) : (after fold s a).failure = none := by
  obtain ⟨c, rfl⟩ := hab
  by_contra ha
  rw [after_append, foldl_visit_failed (Option.isSome_iff_ne_none.mpr ha)] at hb
  exact ha hb

theorem after_chunks (ix : Indexer) (map : String → ParsedFile → τ) (s : σ)
    (files : List (List SourceFile)) :
    after fold s (files.map (parseChunkMapped ix map)) =
      sequential fold s (parsed ix map files.flatten) := by
  have hentries : (files.map (parseChunkMapped ix map)).flatten =
      files.flatten.map (fileEntry ix map) := map_flatten.symm
  have hparsed : (files.flatten.map (fileEntry ix map)).filterMap
      (fun e => e.2.map fun t => (e.1, t)) = parsed ix map files.flatten := by
    rw [filterMap_map, parsed]
    refine filterMap_congr fun file _ => ?_
    simp [fileEntry, Option.map_map, Function.comp_def]
  unfold after
  rw [hentries, foldl_visit, hparsed]
  simp

end loop

/-! ## Lemmas: the two threads -/

section threads

variable {fold} {items : List (List (String × Option τ))} {s : σ} {run : List Action}
  {p : Pipe (List (String × Option τ)) (FoldLoop σ τ ε)}

variable (fold) in
/-- The loop is where the chunks it has taken lead, and none of those before the last one failed. -/
structure Agrees (s : σ) (c : FoldLoop σ τ ε) (taken : List (List (String × Option τ))) :
    Prop where
  outcome : c.pending.foldl (visit fold) c.outcome = after fold s taken
  earlier : (after fold s taken.dropLast).failure = none

theorem agrees_exec
    (h : exec (parseFilesBoundedStep fold) (start items ⟨[], ⟨s, [], none⟩⟩) run = some p) :
    Agrees fold s p.consumer p.taken := by
  refine consumer_exec (P := Agrees fold s) ⟨rfl, rfl⟩ ?_ ?_ h
  · rintro c c' taken ⟨houtcome, hearlier⟩ hwork
    obtain ⟨entry, hpending, hvisit⟩ := FoldLoop.work_eq_some fold hwork
    refine ⟨?_, hearlier⟩
    rw [hpending, foldl_cons] at houtcome
    rw [hvisit, houtcome]
  · rintro c taken chunk ⟨houtcome, -⟩ hwork hdone
    rw [FoldLoop.work_eq_none fold hwork, foldl_nil] at houtcome
    refine ⟨?_, ?_⟩
    · rw [after_append, ← houtcome]
      simp [consumer]
    · rw [dropLast_concat, ← houtcome]
      exact Option.not_isSome_iff_eq_none.mp (Bool.not_eq_true _ ▸ hdone)

theorem outcome_of_left (hinv : Inv 1 (consumer fold) items p)
    (hagrees : Agrees fold s p.consumer p.taken) (hleft : p.left = true) :
    p.consumer.outcome = after fold s p.taken ∧ after fold s p.taken = after fold s items := by
  obtain ⟨hwork, hwhy⟩ := hinv.reason hleft
  have houtcome := hagrees.outcome
  rw [FoldLoop.work_eq_none fold hwork, foldl_nil] at houtcome
  refine ⟨houtcome, ?_⟩
  rw [← hinv.items]
  rcases hwhy with hdone | ⟨hbuffer, hclosed⟩
  · rw [after_append, foldl_visit_failed (houtcome ▸ hdone)]
  · obtain ⟨hhand, htodo⟩ := hinv.sent hclosed
    simp [Pipe.untaken, hbuffer, hhand, htodo]

theorem dropLast_dropLast_eq_take {α : Type} (l : List α) :
    l.dropLast.dropLast = l.take (l.length - 2) := by
  rw [dropLast_eq_take, dropLast_eq_take, length_take, take_take]
  congr 1
  omega

/-- The producer has ended only if at most one chunk is left in the channel. -/
theorem no_failure_of_dropped (hinv : Inv 1 (consumer fold) items p)
    (hagrees : Agrees fold s p.consumer p.taken) (hdropped : p.dropped = true) :
    (after fold s items.dropLast.dropLast).failure = none := by
  obtain ⟨hhand, htodo⟩ := hinv.sent (hinv.ended hdropped).2
  have hitems : p.taken ++ p.buffer = items := by
    simpa [Pipe.untaken, hhand, htodo] using hinv.items
  have hroom := hinv.room
  refine after_failure_mono ?_ hagrees.earlier
  rw [dropLast_dropLast_eq_take, ← hitems, length_append, dropLast_eq_take,
    take_append_of_le_length (by omega)]
  exact take_prefix_take_left (by omega)

/-- A producer that waits for room holds the second of two chunks that are not taken. -/
theorem failure_of_blocked (hinv : Inv 1 (consumer fold) items p)
    (hagrees : Agrees fold s p.consumer p.taken) (hleft : p.left = true)
    (hhand : p.hand.isSome) (hfull : 1 ≤ p.buffer.length) :
    (after fold s items.dropLast.dropLast).failure ≠ none := by
  obtain ⟨hwork, hwhy⟩ := hinv.reason hleft
  have hfailed : (after fold s p.taken).failure ≠ none := by
    rw [← (outcome_of_left hinv hagrees hleft).1]
    rcases hwhy with hdone | ⟨hbuffer, -⟩
    · exact Option.isSome_iff_ne_none.mp hdone
    · rw [hbuffer] at hfull
      cases hfull
  obtain ⟨chunk, hchunk⟩ := Option.isSome_iff_exists.mp hhand
  have hlen : p.taken.length + 2 ≤ items.length := by
    rw [← hinv.items, Pipe.untaken, hchunk]
    simp only [Option.toList_some, length_append, length_singleton]
    omega
  have hinit : p.taken <+: items.dropLast.dropLast := by
    rw [dropLast_dropLast_eq_take, prefix_take_iff]
    exact ⟨⟨p.untaken, hinv.items⟩, by omega⟩
  exact fun hnone => hfailed (after_failure_mono hinit hnone)

end threads

/-- **The pipeline always finishes**, and does what the sequential loop does, exactly when no
`fold` fails before the last two chunks. -/
theorem finishes_iff (ix : Indexer) (files : List SourceFile) (parseChunk : Nat)
    (map : String → ParsedFile → τ) (s : σ) :
    Finishes fold ix files parseChunk map s ↔
      (sequential fold s (parsed ix map (beforeLastTwo parseChunk files))).failure = none := by
  let items := (chunks (max parseChunk 1) files).map (parseChunkMapped ix map)
  have hall : after fold s items = sequential fold s (parsed ix map files) := by
    rw [after_chunks, flatten_chunks (Nat.lt_of_lt_of_le Nat.one_pos (Nat.le_max_right _ _))]
  have hearly : after fold s items.dropLast.dropLast =
      sequential fold s (parsed ix map (beforeLastTwo parseChunk files)) := by
    rw [← map_dropLast, ← map_dropLast, after_chunks]
    rfl
  have hrank : ∀ p a q, parseFilesBoundedStep fold p a = some q →
      rank (consumer fold) q < rank (consumer fold) p := fun _ _ _ => rank_lt
  rw [← hearly]
  constructor
  · rintro ⟨-, h⟩
    -- some run goes on until it is stuck, and has then returned
    obtain ⟨run, p, hrun, hstuck⟩ := exists_stuck hrank
      (parseFilesBoundedStart ix files parseChunk map s)
    exact no_failure_of_dropped (inv_exec hrun) (agrees_exec hrun) ((h run p hrun).2 hstuck).1
  · intro hnone
    refine ⟨⟨_, fun run p hrun => (Nat.le_add_right _ _).trans (exec_length_le hrank run hrun)⟩,
      fun run p hrun => ?_⟩
    have hinv : Inv 1 (consumer fold) items p := inv_exec hrun
    have hagrees : Agrees fold s p.consumer p.taken := agrees_exec hrun
    rw [← hall]
    refine ⟨?_, fun hstuck => ?_⟩
    · have hpending : p.consumer.outcome.calls <+:
          (p.consumer.pending.foldl (visit fold) p.consumer.outcome).calls :=
        calls_prefix_foldl _ _
      rw [hagrees.outcome] at hpending
      refine hpending.trans ?_
      rw [← hinv.items, after_append]
      exact calls_prefix_foldl _ _
    · rcases dropped_or_blocked Nat.one_pos hstuck with hdropped | ⟨hleft, hhand, hfull⟩
      · obtain ⟨hdone, hrest⟩ := outcome_of_left hinv hagrees (hinv.ended hdropped).1
        exact ⟨hdropped, hdone.trans hrest⟩
      · exact absurd hnone (failure_of_blocked hinv hagrees hleft hhand hfull)

/-- **The two threads refine the loop of the indexer**: every run ends, a run that returns has the
result of that loop, and where the loop succeeds no run ends without returning. -/
theorem parseFilesBounded_refines (ix : Indexer)
    (f : σ → String → ParsedFile → Except StorageError σ) (files : List SourceFile)
    (parseChunk : Nat) (s : σ) :
    let runs := fun run p => exec (parseFilesBoundedStep (closure f))
      (parseFilesBoundedStart ix files parseChunk (fun _ file => file) s) run = some p
    (∃ bound, ∀ run p, runs run p → run.length ≤ bound) ∧
    ∀ run p, runs run p →
      (p.dropped = true → p.consumer.outcome.result = ix.parseFilesBounded files f s) ∧
      (Stuck (parseFilesBoundedStep (closure f)) p →
        ∀ t, ix.parseFilesBounded files f s = .ok t → p.dropped = true) := by
  let items := (chunks (max parseChunk 1) files).map (parseChunkMapped ix fun _ file => file)
  have hall : ix.parseFilesBounded files f s = (after (closure f) s items).result := by
    rw [parseFilesBounded_eq, after_chunks,
      flatten_chunks (Nat.lt_of_lt_of_le Nat.one_pos (Nat.le_max_right _ _))]
  refine ⟨⟨_, fun run p hrun => (Nat.le_add_right _ _).trans
    (exec_length_le (fun _ _ _ => rank_lt) run hrun)⟩, fun run p hrun => ?_⟩
  have hinv : Inv 1 (consumer (closure f)) items p := inv_exec hrun
  have hagrees : Agrees (closure f) s p.consumer p.taken := agrees_exec hrun
  refine ⟨fun hdropped => ?_, fun hstuck t hok => ?_⟩
  · obtain ⟨hdone, hrest⟩ := outcome_of_left hinv hagrees (hinv.ended hdropped).1
    rw [hall, hdone, hrest]
  · rcases dropped_or_blocked Nat.one_pos hstuck with hdropped | ⟨hleft, hhand, hfull⟩
    · exact hdropped
    · have hnone : (after (closure f) s items).failure = none := by
        rw [hall, Outcome.result] at hok
        split at hok
        · assumption
        · cases hok
      refine absurd (after_failure_mono ?_ hnone)
        (failure_of_blocked hinv hagrees hleft hhand hfull)
      exact (List.dropLast_prefix _).trans (List.dropLast_prefix _)

def plainIndexer : Indexer :=
  ⟨true, false, false, fun _ _ => some ⟨[], [], []⟩, fun _ => ⟨[], [], [], [], []⟩⟩

def threeFiles : List SourceFile := [⟨"a.rs", ""⟩, ⟨"b.rs", ""⟩, ⟨"c.rs", ""⟩]

/-- The first of three chunks fails: the loop is left, and the producer waits with the third chunk
for room that the second one never gives up. -/
theorem failed_fold_deadlocks : ∃ run p,
    exec (parseFilesBoundedStep fun (_ : Unit) _ (_ : Unit) => ((), some "disk full"))
      (parseFilesBoundedStart plainIndexer threeFiles 1 (fun _ _ => ()) ()) run = some p ∧
    Stuck (parseFilesBoundedStep fun _ _ _ => ((), some "disk full")) p ∧
    p.dropped = false ∧ p.consumer.outcome.failure = some "disk full" := by
  refine ⟨[.produce, .send, .produce, .take, .send, .produce, .work, .leave], _, rfl, ?_, rfl, rfl⟩
  intro a
  cases a <;> rfl

end WeaveGraph.Pipeline
