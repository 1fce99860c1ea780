import WeaveGraph.Hub.Pull

/-!
# Hydrating the index from the hub

`cmd_sync_pull` writes what it pulled into a staging file, opens that file for its side effects on
it, and renames it over the active database whether or not it opened.  Together with the pull,
which does not tell a part of a snapshot from the whole:

    the active database is only replaced by a whole snapshot that opens
      ↔  the snapshot that is taken arrives whole, and it opens            (cmdSyncPull_sound_iff)
-/

namespace WeaveGraph

open Hub Exchange

/-- What `SqliteStorage::open` makes of a file: whether it opens, and the file afterwards, migrated
and checkpointed where that worked.  Opening a file does not change whether it opens. -/
structure DatabaseFile where
  accepts : Bytes → Bool
  touched : Bytes → Bytes
  accepts_touched : ∀ bytes, accepts (touched bytes) = accepts bytes

/-- The exchanges for the wanted commit and for `latest`, the flag, and whether the staging file can
be written and renamed. -/
structure SyncPull where
  exchange : Exchange
  latest : Exchange
  fallbackLatest : Bool
  writable : Bool
  renamable : Bool

inductive SyncError where
  | hub (e : HubError)
  | io
deriving Repr, DecidableEq

namespace SyncPull

/-- The bytes that are hydrated; `none` when the hub has no snapshot. -/
def download (p : SyncPull) : Except HubError (Option Bytes) :=
  match pull p.exchange.received with
  | .error e => .error e
  | .ok (.found bytes _) => .ok (some bytes)
  | .ok .notFound =>
    if p.fallbackLatest then
      match pull p.latest.received with
      | .error e => .error e
      | .ok (.found bytes _) => .ok (some bytes)
      | .ok .notFound => .ok none
    else .ok none

/-- The active database after the command, and its result. -/
def cmdSyncPull (db : DatabaseFile) (p : SyncPull) (active : Option Bytes) :
    Option Bytes × Except SyncError Unit :=
  match p.download with
  | .error e => (active, .error (.hub e))
  | .ok none => (active, .ok ())
  | .ok (some bytes) =>
    if p.writable then
      -- an error of `open` is not looked at
      let rebuild := db.touched bytes
      if p.renamable then (some rebuild, .ok ()) else (active, .error .io)
    else (active, .error .io)

/-- The exchange the snapshot is taken from: the first one, or the second one where there is no
snapshot of the commit. -/
def Takes (p : SyncPull) (e : Exchange) : Prop :=
  (p.exchange.HeadArrives ∧ p.exchange.served.status = .ok ∧ e = p.exchange) ∨
    (p.exchange.HeadArrives ∧ p.exchange.served.status = .notFound ∧ p.fallbackLatest = true ∧
      p.latest.HeadArrives ∧ p.latest.served.status = .ok ∧ e = p.latest)

/-- If the command changes the active database, the new file opens and was written from all of the
payload the hub served. -/
def Sound (db : DatabaseFile) (p : SyncPull) : Prop :=
  ∀ active, (p.cmdSyncPull db active).1 ≠ active → ∃ e bytes, p.Takes e ∧
    p.download = .ok (some bytes) ∧ bytes = e.served.body ∧
    ∃ file, (p.cmdSyncPull db active).1 = some file ∧ db.accepts file = true

variable {p : SyncPull}

theorem takes_unique {e e' : Exchange} (h : p.Takes e) (h' : p.Takes e') : e = e' := by
  rcases h with ⟨-, hs, rfl⟩ | ⟨-, hs, -, -, -, rfl⟩ <;>
    rcases h' with ⟨-, hs', rfl⟩ | ⟨-, hs', -, -, -, rfl⟩
  · rfl
  · rw [hs] at hs'
    cases hs'
  · rw [hs] at hs'
    cases hs'
  · rfl

theorem download_eq_some {bytes : Bytes} :
    p.download = .ok (some bytes) ↔ ∃ e k, p.Takes e ∧ e.delivered = some k ∧
      e.served.headLength ≤ k ∧ bytes = e.served.body.take (k - e.served.headLength) := by
  constructor
  · intro h
    unfold download at h
    cases hp : pull p.exchange.received with
    | error e => simp [hp] at h
    | ok out =>
      cases out with
      | found b signature =>
        obtain ⟨k, hd, hk, hs, hb, -⟩ := pull_found.mp hp
        simp only [hp, Except.ok.injEq, Option.some.injEq] at h
        exact ⟨p.exchange, k, Or.inl ⟨⟨k, hd, hk⟩, hs, rfl⟩, hd, hk, h.symm.trans hb⟩
      | notFound =>
        obtain ⟨hhead, hs⟩ := pull_notFound.mp hp
        simp only [hp] at h
        split at h
        · rename_i hfall
          cases hl : pull p.latest.received with
          | error e => simp [hl] at h
          | ok out' =>
            cases out' with
            | found b signature =>
              obtain ⟨k, hd, hk, hs', hb, -⟩ := pull_found.mp hl
              simp only [hl, Except.ok.injEq, Option.some.injEq] at h
              have htakes : p.Takes p.latest := Or.inr ⟨hhead, hs, hfall, ⟨k, hd, hk⟩, hs', rfl⟩
              exact ⟨p.latest, k, htakes, hd, hk, h.symm.trans hb⟩
            | notFound => simp [hl] at h
        · cases h
  · rintro ⟨e, k, ⟨-, hs, rfl⟩ | ⟨hhead, hs, hfall, -, hs', rfl⟩, hd, hk, hb⟩
    · have hp := pull_found.mpr ⟨k, hd, hk, hs, hb, rfl⟩
      simp only [download, hp]
    · have hp := pull_notFound.mpr ⟨hhead, hs⟩
      have hl := pull_found.mpr ⟨k, hd, hk, hs', hb, rfl⟩
      simp only [download, hp, hfall, if_true, hl]

theorem exists_of_takes {e : Exchange} (h : p.Takes e) :
    ∃ k, e.delivered = some k ∧ e.served.headLength ≤ k := by
  rcases h with ⟨hhead, -, rfl⟩ | ⟨-, -, -, hhead, -, rfl⟩ <;> exact hhead

theorem cmdSyncPull_fst (db : DatabaseFile) (p : SyncPull) (active : Option Bytes) :
    (p.cmdSyncPull db active).1 =
      match p.download with
      | .ok (some bytes) =>
        if p.writable = true ∧ p.renamable = true then some (db.touched bytes) else active
      | _ => active := by
  unfold cmdSyncPull
  cases p.download with
  | error e => rfl
  | ok out =>
    cases out with
    | none => rfl
    | some bytes => cases p.writable <;> cases p.renamable <;> rfl

end SyncPull

/-- **A pull is sound** exactly if the snapshot that is taken arrives whole and opens. -/
theorem cmdSyncPull_sound_iff (db : DatabaseFile) (p : SyncPull) :
    p.Sound db ↔ (p.writable = true → p.renamable = true → ∀ e, p.Takes e →
      e.Whole ∧ db.accepts e.served.body = true) := by
  unfold SyncPull.Sound
  simp only [SyncPull.cmdSyncPull_fst]
  constructor
  · intro h hw hr e he
    obtain ⟨k, hd, hk⟩ := SyncPull.exists_of_takes he
    have hdown := SyncPull.download_eq_some.mpr ⟨e, k, he, hd, hk, rfl⟩
    -- without a database before, the snapshot is a change
    obtain ⟨e', bytes, he', hbytes, hbody, file, hfile, hacc⟩ := h none (by simp [hdown, hw, hr])
    obtain rfl := SyncPull.takes_unique he he'
    obtain rfl := Option.some.inj (Except.ok.inj (hdown.symm.trans hbytes))
    simp only [hdown, hw, hr, and_self, if_true, Option.some.injEq] at hfile
    subst hfile
    rw [db.accepts_touched, hbody] at hacc
    exact ⟨(take_eq_body hd hk).mp hbody, hacc⟩
  · intro h active hne
    cases hdown : p.download with
    | error e => simp [hdown] at hne
    | ok out =>
      cases out with
      | none => simp [hdown] at hne
      | some bytes =>
        by_cases hio : p.writable = true ∧ p.renamable = true
        · obtain ⟨e, k, he, hd, hk, hb⟩ := SyncPull.download_eq_some.mp hdown
          obtain ⟨hwhole, hacc⟩ := h hio.1 hio.2 e he
          have hbody := hb.trans ((take_eq_body hd hk).mpr hwhole)
          refine ⟨e, _, he, rfl, hbody, db.touched e.served.body, ?_, ?_⟩
          · simp only [if_pos hio, hbody]
          · rw [db.accepts_touched, hacc]
        · simp [hdown, hio] at hne

/-- `open` as far as these files go: a file of at most one byte is an empty database, any other one
starts with the magic text and has the pages that its header counts. -/
def sqliteFile : DatabaseFile where
  accepts bytes := bytes.length ≤ 1 || ("SQLite format 3".toUTF8.toList ++ [0]).isPrefixOf bytes &&
    (bytes.getD 16 0).toNat * 256 * (bytes.getD 31 0).toNat ≤ bytes.length
  touched := id
  accepts_touched _ := rfl

/-- An empty database of one page of 512 bytes. -/
def onePage : Bytes :=
  "SQLite format 3".toUTF8.toList ++ [0, 2, 0, 1, 1, 0, 64, 32, 32, 0, 0, 0, 1, 0, 0, 0, 1] ++
    List.replicate 15 0 ++ [4] ++ List.replicate 11 0 ++ [1] ++ List.replicate 40 0 ++
    [13, 0, 0, 0, 0, 2] ++ List.replicate 406 0

/-- A database of which four bytes are there when the connection closes. -/
def cutPull : SyncPull :=
  let served : Served := ⟨.ok, [], onePage, by simp⟩
  ⟨⟨served, some (served.headLength + 4)⟩, ⟨served, none⟩, false, true, true⟩

/-- A part of a snapshot replaces a database that opens. -/
theorem cmdSyncPull_cut : sqliteFile.accepts onePage = true ∧
    cutPull.cmdSyncPull sqliteFile (some onePage) = (some [83, 81, 76, 105], .ok ()) ∧
    sqliteFile.accepts [83, 81, 76, 105] = false ∧ ¬ cutPull.Sound sqliteFile := by
  have hrun : cutPull.cmdSyncPull sqliteFile (some onePage) = (some [83, 81, 76, 105], .ok ()) := by
    decide +kernel
  refine ⟨by decide +kernel, hrun, by decide +kernel, fun h => ?_⟩
  obtain ⟨e, bytes, -, -, -, file, hfile, hacc⟩ := h (some onePage) (by rw [hrun]; decide +kernel)
  rw [hrun] at hfile
  cases hfile
  exact absurd hacc (by decide +kernel)

end WeaveGraph
