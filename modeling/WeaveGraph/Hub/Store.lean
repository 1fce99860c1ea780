import WeaveGraph.Hub.Steps
import WeaveGraph.Lib.Newest

/-!
# The store and its HEAD

The worker stores a snapshot, names it in `HEAD` and then prunes the store to the retention its push
asked for.  Snapshots are pruned by modification time, and equal times by file name, so the one that
`HEAD` names is kept only as long as few enough others have its time and a later name:

    HEAD names a stored snapshot all along a run
      ↔  whenever the worker prunes for a push, fewer snapshots than the retention have the time of
         the push's own one and a later name                          (exec_headStored_iff)
-/

namespace WeaveGraph.Hub

open List Lib

/-! ## What a request leaves alone -/

/-- Snapshots, signatures and `HEAD` of the store, and the time. -/
def Registry.store (r : Registry) : List Blob × (String → Option String) × Option String × Nat :=
  (r.disk.blobs, r.disk.sigs, r.disk.head, r.now)

theorem store_repoState (r : Registry) : r.repoState.2.store = r.store := by
  unfold Registry.repoState
  cases r.current <;> rfl

theorem store_takeRate (cfg : RegistryConfig) (r : Registry) (o : Nat) (st : RepoState) :
    (r.takeRate cfg o st).2.store = r.store := by
  unfold Registry.takeRate
  dsimp only
  split <;> rfl

variable {r r' : Registry} {phase : WorkerPhase} {cfg : RegistryConfig} {d : Disk} {h : Server}
  {label : Label}

theorem store_withState {o : Nat} {f : RepoState → Registry × Phase}
    (hf : ∀ st, (f st).1.store = r.store) : (withState r o f).1.store = r.store := by
  rcases @withState_cases r o f with h | ⟨st, -, h⟩
  · rw [h]
  · rw [h]
    exact hf st

theorem Put.advance_store (cfg : RegistryConfig) (p : Put) (r : Registry) (phase : Phase) :
    (p.advance cfg r phase).1.store = r.store := by
  unfold Put.advance
  split
  all_goals try (refine store_withState fun st => ?_)
  all_goals (repeat' split)
  all_goals first
    | rfl
    | exact store_repoState r
    | rename_i h
      exact (congrArg (fun x => x.2.store) h).symm.trans (store_takeRate cfg r _ st)

theorem Task.step_store (cfg : RegistryConfig) (r : Registry) (t : Task) :
    (t.step cfg r).1.store = r.store := by
  cases t with
  | head sha phase => rw [(Task.step_head cfg r sha phase).1]
  | put p phase => exact p.advance_store cfg r phase

theorem workerView_repoState (r : Registry) :
    r.repoState.2.workerView = r.workerView ∨
      r.current = none ∧ r.repoState.2.workerView = some (r.objects.length, .scan) := by
  unfold Registry.repoState
  cases r.current with
  | some o => exact .inl rfl
  | none => exact .inr ⟨rfl, rfl⟩

theorem Task.step_workerView (cfg : RegistryConfig) (r : Registry) (t : Task) :
    (t.step cfg r).1.workerView = r.workerView ∨
      r.current = none ∧ (t.step cfg r).1.workerView = some (r.objects.length, .scan) := by
  cases t with
  | head sha phase => exact .inl (by rw [(Task.step_head cfg r sha phase).1])
  | put p phase =>
    show (p.advance cfg r phase).1.workerView = _ ∨ _ ∧ (p.advance cfg r phase).1.workerView = _
    rcases p.advance_cases cfg r phase with
      ⟨hq, -⟩ | ⟨hr, -⟩ | ⟨o, st, -, -, -, hr, -⟩ | ⟨o, seq, bytes, -, -, hr, -⟩
    · exact .inl hq.workerView
    · rw [hr]
      exact workerView_repoState r
    · exact .inl (by rw [hr]; rfl)
    · exact .inl (by rw [hr]; rfl)

/-! ## What the worker writes -/

/-- The signature a commit leaves under the sha of its job: the one beside the job, if it can be
copied. -/
def Disk.signatureAfter (d : Disk) (job : SpoolJob) (ok : Bool) : Option String :=
  match ok, d.jobSigs job with
  | true, some sig => some sig
  | _, _ => d.sigs job.sha

/-- Does the next step of the worker write to the store? -/
def WorkerPhase.writes (ok : Bool) : WorkerPhase → Bool
  | .renameBlob _ _ _ | .renameHead _ _ | .prune _ _ => ok
  | .copySig _ _ => true
  | _ => false

/-- The worker is between two commits. -/
def WorkerPhase.between : WorkerPhase → Bool
  | .scan | .recv | .exit | .readJob _ _ | .removeJob _ _ | .removeSig _ _ | .decrement _ => true
  | _ => false

/-- A step of the worker, as far as the store is concerned. -/
inductive StoreMove (r : Registry) (ok : Bool) : WorkerPhase → Registry → WorkerPhase → Prop where
  | read {job : SpoolJob} {rest : List SpoolJob} {bytes : Bytes}
      (h : r.disk.readJob job = some bytes) :
      StoreMove r ok (.readJob job rest) r (.writeBlob job rest bytes)
  | written {job : SpoolJob} {rest : List SpoolJob} {bytes : Bytes} :
      StoreMove r ok (.writeBlob job rest bytes) r (.renameBlob job rest ⟨job.sha, bytes, r.now⟩)
  | stored {job : SpoolJob} {rest : List SpoolJob} {blob : Blob} (h : ok = true) :
      StoreMove r ok (.renameBlob job rest blob) (r.commit blob) (.copySig job rest)
  | signed {job : SpoolJob} {rest : List SpoolJob} :
      StoreMove r ok (.copySig job rest) (r.setDisk { r.disk with
        sigs := Function.update r.disk.sigs job.sha (r.disk.signatureAfter job ok) })
        (.writeHead job rest)
  | headWritten {job : SpoolJob} {rest : List SpoolJob} :
      StoreMove r ok (.writeHead job rest) r (.renameHead job rest)
  | named {job : SpoolJob} {rest : List SpoolJob} (h : ok = true) :
      StoreMove r ok (.renameHead job rest) (r.setDisk { r.disk with head := some job.sha })
        (.prune job rest)
  | pruned {job : SpoolJob} {rest : List SpoolJob} (h : ok = true) :
      StoreMove r ok (.prune job rest) (r.setDisk (r.disk.pruneRetention job.retention))
        (.removeJob job rest)
  | exited : StoreMove r ok .exit { r with current := none } .exit
  | other {phase phase' : WorkerPhase} {r' : Registry} (hstore : r'.store = r.store)
      (hjobs : ∀ j ∈ r'.disk.jobs, j ∈ r.disk.jobs) (hcurrent : r'.current = r.current)
      (hwrites : phase.writes ok = false) (hbetween : phase'.between = true) :
      StoreMove r ok phase r' phase'

theorem storeMove_of_workerStep {w : Worker} {ok : Bool} (hs : r.workerStep w ok = some (r', phase))
    : StoreMove r ok w.phase r' phase := by
  have jobs_refl : ∀ j ∈ r.disk.jobs, j ∈ r.disk.jobs := fun _ h => h
  unfold Registry.workerStep at hs
  generalize w.phase = p at hs ⊢
  cases p with
  | scan => cases hs
  | recv =>
    dsimp only at hs
    split at hs <;> cases hs
    refine .other rfl jobs_refl rfl rfl ?_
    cases ok <;> rfl
  | exit =>
    cases hs
    exact .exited
  | readJob job rest =>
    dsimp only at hs
    split at hs <;> cases hs
    · rename_i hread
      exact .read hread
    · exact .other rfl jobs_refl rfl rfl rfl
  | writeBlob job rest bytes =>
    cases ok <;> cases hs
    · exact .other rfl jobs_refl rfl rfl rfl
    · exact .written
  | renameBlob job rest blob =>
    cases ok <;> cases hs
    · exact .other rfl jobs_refl rfl rfl rfl
    · exact .stored rfl
  | copySig job rest =>
    dsimp only at hs
    have hsigs : r' = r.setDisk { r.disk with
        sigs := Function.update r.disk.sigs job.sha (r.disk.signatureAfter job ok) } ∧
        phase = .writeHead job rest := by
      unfold Disk.signatureAfter
      cases hsig : r.disk.jobSigs job with
      | none =>
        rw [hsig] at hs
        cases ok <;> cases hs <;> exact ⟨by rw [Function.update_eq_self]; rfl, rfl⟩
      | some sig =>
        rw [hsig] at hs
        cases ok <;> cases hs
        · exact ⟨by rw [Function.update_eq_self]; rfl, rfl⟩
        · exact ⟨rfl, rfl⟩
    rw [hsigs.1, hsigs.2]
    exact .signed
  | writeHead job rest =>
    cases ok <;> cases hs
    · exact .other rfl jobs_refl rfl rfl rfl
    · exact .headWritten
  | renameHead job rest =>
    cases ok <;> cases hs
    · exact .other rfl jobs_refl rfl rfl rfl
    · exact .named rfl
  | prune job rest =>
    cases ok <;> cases hs
    · exact .other rfl jobs_refl rfl rfl rfl
    · exact .pruned rfl
  | removeJob job rest =>
    cases ok <;> cases hs
    · exact .other rfl jobs_refl rfl rfl rfl
    · exact .other rfl (fun _ h => (mem_filter.mp h).1) rfl rfl rfl
  | removeSig job rest =>
    cases ok <;> cases hs
    · exact .other rfl jobs_refl rfl rfl rfl
    · exact .other rfl jobs_refl rfl rfl rfl
  | decrement rest =>
    cases hs
    refine .other rfl jobs_refl rfl rfl ?_
    cases rest <;> rfl

/-! ## What the store holds while the worker commits -/

/-- The snapshot of a sha is stored, and none is newer. -/
def Disk.Newest (d : Disk) (sha : String) : Prop :=
  ∃ b ∈ d.blobs, b.sha = sha ∧ ∀ c ∈ d.blobs, c.modified ≤ b.modified

def WorkerPhase.Stored (r : Registry) : WorkerPhase → Prop
  | .renameBlob job _ blob =>
    blob.sha = job.sha ∧ blob.modified ≤ r.now ∧ ∀ b ∈ r.disk.blobs, b.modified ≤ blob.modified
  | .copySig job _ | .writeHead job _ | .renameHead job _ => r.disk.Newest job.sha
  | .prune job _ => r.disk.Newest job.sha ∧ r.disk.head = some job.sha
  | _ => True

structure StoreOk (r : Registry) : Prop where
  distinct : (r.disk.blobs.map Blob.sha).Nodup
  past : ∀ b ∈ r.disk.blobs, b.modified ≤ r.now
  phase : ∀ o phase, r.workerView = some (o, phase) → phase.Stored r

theorem WorkerPhase.Stored.mono (hb : r'.disk.blobs = r.disk.blobs)
    (hh : r'.disk.head = r.disk.head) (hn : r.now ≤ r'.now) (h : phase.Stored r) :
    phase.Stored r' := by
  cases phase with
  | renameBlob job rest blob => exact ⟨h.1, h.2.1.trans hn, by rw [hb]; exact h.2.2⟩
  | copySig job rest => simpa only [WorkerPhase.Stored, Disk.Newest, hb] using h
  | writeHead job rest => simpa only [WorkerPhase.Stored, Disk.Newest, hb] using h
  | renameHead job rest => simpa only [WorkerPhase.Stored, Disk.Newest, hb] using h
  | prune job rest => simpa only [WorkerPhase.Stored, Disk.Newest, hb, hh] using h
  | _ => trivial

theorem WorkerPhase.stored_between (h : phase.between = true) : phase.Stored r := by
  cases phase <;> trivial

theorem StoreOk.mono (hi : StoreOk r) (hb : r'.disk.blobs = r.disk.blobs)
    (hh : r'.disk.head = r.disk.head) (hn : r.now ≤ r'.now)
    (hw : ∀ o phase, r'.workerView = some (o, phase) →
      phase.Stored r' ∨ r.workerView = some (o, phase)) : StoreOk r' where
  distinct := by rw [hb]; exact hi.distinct
  past b hb' := by
    rw [hb] at hb'
    exact (hi.past b hb').trans hn
  phase o phase h := by
    rcases hw o phase h with hs | hs
    · exact hs
    · exact (hi.phase o phase hs).mono hb hh hn

theorem storeOk_task (hi : StoreOk r) (t : Task) : StoreOk (t.step cfg r).1 := by
  have hs := t.step_store cfg r
  simp only [Registry.store, Prod.mk.injEq] at hs
  refine hi.mono hs.1 hs.2.2.1 (Nat.le_of_eq hs.2.2.2.symm) fun o phase h => ?_
  rcases t.step_workerView cfg r with hv | ⟨-, hv⟩
  · exact .inr (hv ▸ h)
  · rw [hv] at h
    cases h
    exact .inl trivial

theorem storeOk_restart (hi : StoreOk r) : StoreOk r.restart := by
  have hbase : StoreOk { r with current := none, worker := none } :=
    hi.mono rfl rfl le_rfl fun o phase h => by cases h
  unfold Registry.restart
  dsimp only
  split
  · exact hbase.mono rfl rfl le_rfl fun o phase h => by
      cases h
      exact .inl trivial
  · exact hbase

/-! ## The worker -/

theorem Disk.mem_putBlob {blob b : Blob} :
    b ∈ (d.putBlob blob).blobs ↔ (b ∈ d.blobs ∧ b.sha ≠ blob.sha) ∨ b = blob := by
  simp [Disk.putBlob]

theorem Disk.putBlob_distinct (h : (d.blobs.map Blob.sha).Nodup) (blob : Blob) :
    ((d.putBlob blob).blobs.map Blob.sha).Nodup := by
  simp only [Disk.putBlob, map_append, map_cons, map_nil]
  refine nodup_append.2 ⟨h.sublist (filter_sublist.map _), nodup_singleton _, ?_⟩
  intro a ha b hb
  obtain ⟨c, hc, rfl⟩ := mem_map.1 ha
  obtain rfl := mem_singleton.1 hb
  simpa using (mem_filter.1 hc).2

theorem Disk.putBlob_newest {blob : Blob} (h : ∀ b ∈ d.blobs, b.modified ≤ blob.modified) :
    (d.putBlob blob).Newest blob.sha := by
  refine ⟨blob, Disk.mem_putBlob.mpr (.inr rfl), rfl, fun c hc => ?_⟩
  rcases Disk.mem_putBlob.mp hc with ⟨hc, -⟩ | rfl
  · exact h c hc
  · exact le_rfl

/-- `HEAD` names a stored snapshot. -/
def Disk.HeadStored (d : Disk) : Prop := ∀ sha, d.head = some sha → ∃ b ∈ d.blobs, b.sha = sha

/-- The others with the time of `b` whose names sort after its own. -/
def Disk.tiedAfter (d : Disk) (b : Blob) : List Blob :=
  d.blobs.filter fun c =>
    c.sha ≠ b.sha ∧ c.modified = b.modified ∧ b.sha ++ ".tar.zst" ≤ c.sha ++ ".tar.zst"

/-- The retention of the push has room for its own snapshot. -/
def Disk.RetainsOwn (d : Disk) (job : SpoolJob) : Prop :=
  ∀ b ∈ d.blobs, b.sha = job.sha → (d.tiedAfter b).length < job.retention
deriving Decidable

section prune

variable {d : Disk}

theorem olderBlob_total : Std.Total Disk.olderBlob where
  total a b := by
    have hname := le_total (a.sha ++ ".tar.zst") (b.sha ++ ".tar.zst")
    rcases Nat.lt_trichotomy a.modified b.modified with h | h | h
    · exact .inl (.inl h)
    · rcases hname with hn | hn
      · exact .inl (.inr ⟨h, hn⟩)
      · exact .inr (.inr ⟨h.symm, hn⟩)
    · exact .inr (.inl h)

theorem olderBlob_trans : IsTrans Blob Disk.olderBlob where
  trans a b c := by
    rintro (hab | ⟨hab, hab'⟩) (hbc | ⟨hbc, hbc'⟩)
    · exact .inl (hab.trans hbc)
    · exact .inl (hbc ▸ hab)
    · exact .inl (hab ▸ hbc)
    · exact .inr ⟨hab.trans hbc, hab'.trans hbc'⟩

variable {b : Blob}

theorem olderBlob_antisymm {a : Blob} (hab : Disk.olderBlob a b) (hba : Disk.olderBlob b a) :
    a.sha = b.sha := by
  rcases hab with h | ⟨hm, h⟩
  · rcases hba with h' | ⟨h', -⟩ <;> omega
  · rcases hba with h' | ⟨-, h'⟩
    · omega
    · simpa using le_antisymm h h'

theorem newer_olderBlob (hd : (d.blobs.map Blob.sha).Nodup) (hb : b ∈ d.blobs)
    (hnew : ∀ c ∈ d.blobs, c.modified ≤ b.modified) :
    newer Disk.olderBlob b d.blobs = d.tiedAfter b := by
  refine filter_congr fun c hc => ?_
  have hle := hnew c hc
  have hne : c ≠ b ↔ c.sha ≠ b.sha :=
    not_congr ⟨fun h => h ▸ rfl, fun h => inj_on_of_nodup_map hd hc hb h⟩
  rw [Bool.eq_iff_iff, decide_eq_true_iff, decide_eq_true_iff, hne, Disk.olderBlob]
  refine and_congr_right fun _ => ⟨?_, fun h => .inr ⟨h.1.symm, h.2⟩⟩
  rintro (h | ⟨h, hn⟩)
  · omega
  · exact ⟨h.symm, hn⟩

theorem mem_pruneRetention (hd : (d.blobs.map Blob.sha).Nodup) {n : Nat} :
    b ∈ (d.pruneRetention n).blobs ↔ b ∈ d.blobs ∧ b ∉ oldest Disk.olderBlob n d.blobs := by
  have hsub : ∀ c ∈ oldest Disk.olderBlob n d.blobs, c ∈ d.blobs := fun c hc =>
    (mem_insertionSort _).mp (mem_of_mem_take hc)
  show b ∈ d.blobs.filter (fun b => b.sha ∉ (oldest Disk.olderBlob n d.blobs).map Blob.sha) ↔ _
  rw [mem_filter, decide_eq_true_iff]
  refine and_congr_right fun hb => not_congr ⟨fun h => ?_, mem_map_of_mem⟩
  obtain ⟨c, hc, hsha⟩ := mem_map.mp h
  rwa [inj_on_of_nodup_map hd (hsub c hc) hb hsha] at hc

theorem pruneRetention_keeps_iff (hd : (d.blobs.map Blob.sha).Nodup) {job : SpoolJob}
    (hnew : d.Newest job.sha) :
    (∃ b ∈ (d.pruneRetention job.retention).blobs, b.sha = job.sha) ↔ d.RetainsOwn job := by
  have := olderBlob_total
  have := olderBlob_trans
  obtain ⟨b, hb, hsha, hmax⟩ := hnew
  have hown : ∀ c ∈ d.blobs, c.sha = job.sha → c = b := fun c hc h =>
    inj_on_of_nodup_map hd hc hb (h.trans hsha.symm)
  have hkept : b ∉ oldest Disk.olderBlob job.retention d.blobs ↔
      (d.tiedAfter b).length < job.retention := by
    rw [mem_oldest_iff (List.Nodup.of_map _ hd) (fun a ha c hc hac hca =>
      inj_on_of_nodup_map hd ha hc (olderBlob_antisymm hac hca)) hb, newer_olderBlob hd hb hmax,
      Nat.not_le]
  constructor
  · rintro ⟨c, hc, hcsha⟩ e he hesha
    obtain ⟨hc, hcold⟩ := (mem_pruneRetention hd).mp hc
    rw [hown c hc hcsha] at hcold
    rw [hown e he hesha]
    exact hkept.mp hcold
  · intro h
    exact ⟨b, (mem_pruneRetention hd).mpr ⟨hb, hkept.mpr (h b hb hsha)⟩, hsha⟩

end prune

/-- Whenever the worker prunes, the retention has room for the snapshot it has just stored. -/
def PrunesOthers (h : Server) : Label → Prop
  | .worker true =>
    match h.registry.workerView with
    | some (_, .prune job _) => h.registry.disk.RetainsOwn job
    | _ => True
  | _ => True

instance (h : Server) : DecidablePred (PrunesOthers h)
  | .worker true => by
    unfold PrunesOthers
    dsimp only
    split <;> infer_instance
  | .worker false | .tick _ | .request _ | .task _ | .scan _ | .restart => isTrue trivial

theorem headStored_of_store (h : r'.store = r.store) : r'.disk.HeadStored ↔ r.disk.HeadStored := by
  simp only [Registry.store, Prod.mk.injEq] at h
  simp only [Disk.HeadStored, h.1, h.2.2.1]

section moves

variable {r r' : Registry} {w : Worker} {ok : Bool} {phase phase' : WorkerPhase}

theorem storeOk_move (hi : StoreOk r) (hst : phase.Stored r) (hm : StoreMove r ok phase r' phase') :
    StoreOk { r' with worker := w.after ok phase' } := by
  cases hm with
  | read h =>
    refine hi.mono rfl rfl le_rfl fun o ph hv => .inl ?_
    rw [(workerView_after hv).2.1]
    trivial
  | written =>
    refine hi.mono rfl rfl le_rfl fun o ph hv => .inl ?_
    rw [(workerView_after hv).2.1]
    exact ⟨rfl, le_rfl, hi.past⟩
  | stored h =>
    rename_i job rest blob
    obtain ⟨hsha, hnow, hmax⟩ := hst
    refine ⟨Disk.putBlob_distinct hi.distinct blob, fun b hb => ?_, fun o ph hv => ?_⟩
    · rcases Disk.mem_putBlob.mp hb with ⟨hb, -⟩ | rfl
      · exact hi.past b hb
      · exact hnow
    · rw [(workerView_after hv).2.1]
      show (r.disk.putBlob blob).Newest job.sha
      rw [← hsha]
      exact Disk.putBlob_newest hmax
  | signed =>
    refine hi.mono rfl rfl le_rfl fun o ph hv => .inl ?_
    rw [(workerView_after hv).2.1]
    exact hst
  | headWritten =>
    refine hi.mono rfl rfl le_rfl fun o ph hv => .inl ?_
    rw [(workerView_after hv).2.1]
    exact hst
  | named h =>
    refine ⟨hi.distinct, hi.past, fun o ph hv => ?_⟩
    rw [(workerView_after hv).2.1]
    exact ⟨hst, rfl⟩
  | pruned h =>
    refine ⟨hi.distinct.sublist (filter_sublist.map _), fun b hb => ?_, fun o ph hv => ?_⟩
    · exact hi.past b (mem_filter.mp hb).1
    · rw [(workerView_after hv).2.1]
      trivial
  | exited =>
    refine hi.mono rfl rfl le_rfl fun o ph hv => .inl ?_
    rw [(workerView_after hv).2.1]
    trivial
  | other hstore hjobs hcurrent hwrites hbetween =>
    simp only [Registry.store, Prod.mk.injEq] at hstore
    refine hi.mono hstore.1 hstore.2.2.1 (Nat.le_of_eq hstore.2.2.2.symm) fun o ph hv => .inl ?_
    rw [(workerView_after hv).2.1]
    exact WorkerPhase.stored_between hbetween

theorem headStored_move (hi : StoreOk r) (hst : phase.Stored r) (hstored : r.disk.HeadStored)
    (hm : StoreMove r ok phase r' phase') :
    r'.disk.HeadStored ↔
      ∀ job rest, ok = true → phase = .prune job rest → r.disk.RetainsOwn job := by
  cases hm with
  | read h => exact iff_of_true hstored fun _ _ _ h => by cases h
  | written => exact iff_of_true hstored fun _ _ _ h => by cases h
  | stored h =>
    rename_i job rest blob
    refine iff_of_true (fun sha hsha => ?_) fun _ _ _ h => by cases h
    obtain ⟨b, hb, rfl⟩ := hstored sha hsha
    by_cases he : b.sha = blob.sha
    · exact ⟨blob, Disk.mem_putBlob.mpr (.inr rfl), he.symm⟩
    · exact ⟨b, Disk.mem_putBlob.mpr (.inl ⟨hb, he⟩), rfl⟩
  | signed => exact iff_of_true hstored fun _ _ _ h => by cases h
  | headWritten => exact iff_of_true hstored fun _ _ _ h => by cases h
  | named h =>
    refine iff_of_true (fun sha hsha => ?_) fun _ _ _ h => by cases h
    cases hsha
    obtain ⟨b, hb, hbsha, -⟩ := hst
    exact ⟨b, hb, hbsha⟩
  | pruned h =>
    rename_i job rest
    have hkeeps := pruneRetention_keeps_iff hi.distinct hst.1
    constructor
    · rintro h' _ _ - ⟨⟩
      exact hkeeps.mp (h' job.sha hst.2)
    · intro h' sha hsha
      have hsame : some sha = some job.sha := hsha.symm.trans hst.2
      cases hsame
      exact hkeeps.mpr (h' job rest h rfl)
  | exited => exact iff_of_true hstored fun _ _ _ h => by cases h
  | other hstore hjobs hcurrent hwrites hbetween =>
    refine iff_of_true ((headStored_of_store hstore).mpr hstored) ?_
    rintro job rest rfl rfl
    cases hwrites

end moves

/-! ## Runs -/

theorem storeOk_step {h' : Server} (hi : StoreOk h.registry) (hs : step cfg h label = some h') :
    StoreOk h'.registry := by
  cases step_cases hs with
  | tick => exact hi.mono rfl rfl (Nat.le_add_right _ _) fun o phase hv => .inr hv
  | request => exact hi
  | task => exact storeOk_task hi _
  | @scan listing =>
    refine hi.mono rfl rfl le_rfl fun o phase hv => .inl ?_
    cases hv
    cases listing <;> trivial
  | worker hw hstep =>
    exact storeOk_move hi (hi.phase _ _ (workerView_of_worker hw)) (storeMove_of_workerStep hstep)
  | restart => exact storeOk_restart hi

theorem restart_store (r : Registry) : r.restart.store = r.store := by
  unfold Registry.restart
  dsimp only
  split
  · exact store_repoState _
  · rfl

/-- Of all steps only a pruning one can leave `HEAD` without its snapshot. -/
theorem headStored_step {h' : Server} (hi : StoreOk h.registry)
    (hstored : h.registry.disk.HeadStored) (hs : step cfg h label = some h') :
    h'.registry.disk.HeadStored ↔ PrunesOthers h label := by
  cases step_cases hs with
  | tick => exact iff_of_true hstored trivial
  | request => exact iff_of_true hstored trivial
  | task => exact iff_of_true ((headStored_of_store (Task.step_store cfg _ _)).mpr hstored) trivial
  | scan => exact iff_of_true hstored trivial
  | @worker ok w r phase hw hstep =>
    have hview := workerView_of_worker hw
    refine (headStored_move hi (hi.phase _ _ hview) hstored
      (storeMove_of_workerStep hstep)).trans ?_
    cases ok with
    | false => exact iff_of_true (fun _ _ h => by cases h) trivial
    | true =>
      simp only [PrunesOthers, hview, true_implies]
      constructor
      · intro h
        split
        · rename_i job rest heq
          simp only [Option.some.injEq, Prod.mk.injEq] at heq
          exact h job rest heq.2
        · trivial
      · intro h job rest hp
        rw [hp] at h
        exact h
  | restart => exact iff_of_true ((headStored_of_store (restart_store _)).mpr hstored) trivial

theorem prunesOthers_of_disabled (hs : step cfg h label = none) : PrunesOthers h label := by
  unfold PrunesOthers
  split
  · split
    · rename_i hview
      rcases view_of_disabled hs hview with hp | hp <;> cases hp
    · trivial
  · trivial

/-- `HEAD` names a stored snapshot all along a run exactly if every pruning of the run has room for
the snapshot that was just stored. -/
theorem exec_headStored_iff (cfg : RegistryConfig) (l : List Label) :
    Along (step cfg) (fun h => h.registry.disk.HeadStored) Server.empty l ↔
      Guarded (step cfg) PrunesOthers Server.empty l := by
  have hok : StoreOk Server.empty.registry :=
    ⟨nodup_nil, fun _ hb => absurd hb not_mem_nil, fun _ _ h => by cases h⟩
  refine along_iff_guarded (I := fun h => StoreOk h.registry) ?_ ?_ ?_ l hok ?_
  · exact fun _ _ _ hi _ hs => storeOk_step hi hs
  · exact fun _ _ hs => prunesOthers_of_disabled hs
  · exact fun _ _ _ hi hstored hs => headStored_step hi hstored hs
  · exact fun _ h => by cases h

def lonePut (sha : String) (baseSha : Option String) : Put :=
  { onePut sha baseSha with retention := 1 }

def tiedRun : List Label :=
  Label.request (.put (lonePut "b" none) .arrived) :: List.replicate 18 (Label.task 0) ++
    commitRun ⟨0, "b", 1⟩ ++
    Label.request (.put (lonePut "a" (some "b")) .arrived) :: List.replicate 18 (Label.task 1) ++
    commitRun ⟨1, "a", 1⟩

/-- Of two snapshots of one time the one with the later name stays, whatever `HEAD` says. -/
theorem exec_prunes_head :
    (exec (step smallHub) Server.empty tiedRun).map (fun h =>
      (h.registry.disk.head, h.registry.disk.blobs.map Blob.sha)) = some (some "a", ["b"]) := by
  decide +kernel

end WeaveGraph.Hub
