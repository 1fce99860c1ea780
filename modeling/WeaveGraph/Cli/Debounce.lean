import Mathlib.Data.Finset.Lattice.Lemmas

/-!
# The watcher's debounce loop

`run` blocks in `recv` for the first event of a batch and then collects in `recv_timeout` until a
receive times out or the channel disconnects.  It is a machine over what the channel does: a
timeout is not seen by `recv`.  The calls of a run are those of its segments, the non-empty pieces
between timeouts (`run_recv`).
-/

namespace WeaveGraph.Debounce

open List

inductive Signal
  | event (path : String)
  | timeout
  | disconnected
deriving DecidableEq

inductive Call
  | onEvent (path : String)
  | onBatch (batch : Finset String)

/-- Where the function stands: in one of its two receives, or returned. -/
inductive Place
  | recv
  | recvTimeout (batch : Finset String)
  | returned

def step : Place → Signal → Place × List Call
  | .recv, .event p => (.recvTimeout {p}, [.onEvent p])
  | .recv, .timeout => (.recv, [])
  | .recv, .disconnected => (.returned, [])
  | .recvTimeout batch, .event p => (.recvTimeout (insert p batch), [.onEvent p])
  | .recvTimeout batch, .timeout => (.recv, [.onBatch batch])
  | .recvTimeout batch, .disconnected => (.returned, [.onBatch batch])
  | .returned, _ => (.returned, [])

/-- Where the function ends up and the calls it makes. -/
def run : Place → List Signal → Place × List Call
  | place, [] => (place, [])
  | place, s :: signals =>
    let next := step place s
    let rest := run next.1 signals
    (rest.1, next.2 ++ rest.2)

/-! ## Segments -/

def Signal.path? : Signal → Option String
  | .event p => some p
  | _ => none

def Call.event? : Call → Option String
  | .onEvent p => some p
  | _ => none

def Call.batch? : Call → Option (Finset String)
  | .onBatch batch => some batch
  | _ => none

def received (signals : List Signal) : List String := signals.filterMap Signal.path?

/-- The events between timeouts, in order. -/
def pieces (signals : List Signal) : List (List String) :=
  (signals.splitOn .timeout).map received

def segments (signals : List Signal) : List (List String) :=
  (pieces signals).filter (· ≠ [])

def segmentCalls (segment : List String) : List Call :=
  segment.map .onEvent ++ [.onBatch segment.toFinset]

@[simp] theorem received_event (p : String) (signals : List Signal) :
    received (.event p :: signals) = p :: received signals := rfl

@[simp] theorem received_timeout (signals : List Signal) :
    received (.timeout :: signals) = received signals := rfl

@[simp] theorem pieces_timeout (signals : List Signal) :
    pieces (.timeout :: signals) = [] :: pieces signals := by
  simp [pieces, List.splitOn, splitOnP_cons_eq_if_modifyHead, received]

theorem pieces_event (signals : List Signal) : ∃ first rest, pieces signals = first :: rest ∧
    ∀ p, pieces (.event p :: signals) = (p :: first) :: rest := by
  obtain ⟨first, rest, h⟩ := exists_cons_of_ne_nil (splitOnP_ne_nil (· == Signal.timeout) signals)
  refine ⟨received first, rest.map received, by simp [pieces, List.splitOn, h], fun p => ?_⟩
  simp [pieces, List.splitOn, splitOnP_cons_eq_if_modifyHead, h]

theorem flatten_pieces (signals : List Signal) (hd : .disconnected ∉ signals) :
    (pieces signals).flatten = received signals := by
  induction signals with
  | nil => rfl
  | cons s signals ih =>
    rw [mem_cons, not_or] at hd
    cases s with
    | event p =>
      obtain ⟨first, rest, h, he⟩ := pieces_event signals
      rw [he, received_event, ← ih hd.2, h]
      rfl
    | timeout => simpa using ih hd.2
    | disconnected => exact absurd rfl hd.1

theorem flatten_segments (signals : List Signal) (hd : .disconnected ∉ signals) :
    (segments signals).flatten = received signals := by
  rw [← flatten_pieces signals hd, segments, flatten_filter_ne_nil]

/-! ## Runs -/

/-- In `recv` the calls are those of the segments ahead; in `recv_timeout` the first piece, even
an empty one, completes the batch. -/
theorem run_disconnected (signals : List Signal) (hd : .disconnected ∉ signals) :
    run .recv (signals ++ [.disconnected]) =
      (.returned, (segments signals).flatMap segmentCalls) ∧
    ∀ first rest, pieces signals = first :: rest → ∀ batch,
      run (.recvTimeout batch) (signals ++ [.disconnected]) =
        (.returned, first.map .onEvent ++ .onBatch (batch ∪ first.toFinset) ::
          (rest.filter (· ≠ [])).flatMap segmentCalls) := by
  induction signals with
  | nil =>
    refine ⟨rfl, fun first rest h batch => ?_⟩
    obtain ⟨rfl, rfl⟩ : [] = first ∧ [] = rest := by simpa [pieces, received] using h
    simp [run, step]
  | cons s signals ih =>
    rw [mem_cons, not_or] at hd
    obtain ⟨hrecv, htimeout⟩ := ih hd.2
    cases s with
    | event p =>
      obtain ⟨first, rest, h, he⟩ := pieces_event signals
      constructor
      · simp [run, step, segments, he, htimeout first rest h, segmentCalls]
      · intro first' rest' h' batch
        obtain ⟨rfl, rfl⟩ := List.cons.inj ((he p).symm.trans h')
        simp [run, step, htimeout first rest h, Finset.insert_union, Finset.union_insert]
    | timeout =>
      constructor
      · simp [run, step, hrecv, segments]
      · intro first rest h batch
        obtain ⟨rfl, rfl⟩ := List.cons.inj ((pieces_timeout signals).symm.trans h)
        simp [run, step, hrecv, segments]
    | disconnected => exact absurd rfl hd.1

theorem run_ne_returned (signals : List Signal) (hd : .disconnected ∉ signals)
    {place : Place} (hp : place ≠ .returned) : (run place signals).1 ≠ .returned := by
  induction signals generalizing place with
  | nil => exact hp
  | cons s signals ih =>
    rw [mem_cons, not_or] at hd
    refine ih hd.2 ?_
    cases place <;> cases s <;> simp_all [step]

theorem event?_segmentCalls (segment : List String) :
    (segmentCalls segment).filterMap Call.event? = segment := by
  simp [segmentCalls, filterMap_map, Function.comp_def, Call.event?]

theorem batch?_segmentCalls (segment : List String) :
    (segmentCalls segment).filterMap Call.batch? = [segment.toFinset] := by
  simp [segmentCalls, filterMap_map, Function.comp_def, Call.batch?]

/-- Every event is announced once, in order, and the batches are the sets of the segments that
timeouts and the disconnect cut the events into; only the disconnect ends the loop. -/
theorem run_debounces (signals : List Signal) (hd : .disconnected ∉ signals) :
    (run .recv (signals ++ [.disconnected])).1 = .returned ∧
    (run .recv signals).1 ≠ .returned ∧
    (run .recv (signals ++ [.disconnected])).2.filterMap Call.event? = received signals ∧
    (run .recv (signals ++ [.disconnected])).2.filterMap Call.batch? =
      (segments signals).map List.toFinset ∧
    (∀ batch ∈ (segments signals).map List.toFinset, batch.Nonempty) ∧
    (segments signals).flatten = received signals := by
  rw [(run_disconnected signals hd).1]
  refine ⟨rfl, run_ne_returned signals hd nofun, ?_, ?_, ?_, flatten_segments signals hd⟩
  · rw [filterMap_flatMap, ← flatten_segments signals hd]
    simp only [event?_segmentCalls, flatMap_id']
  · simp only [filterMap_flatMap, batch?_segmentCalls, map_eq_flatMap]
  · rintro _ hbatch
    obtain ⟨segment, hs, rfl⟩ := mem_map.mp hbatch
    exact toFinset_nonempty_iff _ |>.mpr (by simpa using of_mem_filter hs)

theorem run_debounces_trace :
    (run .recv ([.timeout, .event "b", .event "a", .timeout, .event "b"] ++
      [.disconnected])).2.filterMap Call.batch? = [{"a", "b"}, {"b"}] :=
  (run_debounces _ (by decide)).2.2.2.1.trans (by decide)

end WeaveGraph.Debounce
