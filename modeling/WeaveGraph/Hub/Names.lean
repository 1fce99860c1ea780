import WeaveGraph.Lib.Joined
import WeaveGraph.Hub.Registry

/-!
# File names of the registry

The registry keeps everything it knows about a repository in files whose names it builds from the
repository id, shas, sequence numbers and retentions.  A sha may hold dots, dashes and
underscores, so a name is read back by its suffix, its first underscore and its last one.

    parseJobFilename (jobStem j) = some (j.seq, j.sha, j.retention)      (parseJobFilename_jobStem)
    leftoverJobs lists the job files, sorted, and no other file          (leftoverJobs_listing)
    a path stays in its directory and names one file only                (path_inside, path_inj)

The abstract listing of the registry's worker, `Disk.Listing`, is what `leftoverJobs` computes.
-/

namespace WeaveGraph.Hub

open List Lib.Text

/-! ## Algorithm -/

/-- `{seq:020}_{sha}_{retention}`. -/
def jobStem (seq : Nat) (sha : String) (retention : Nat) : String :=
  zeroPadded 20 seq ++ "_" ++ sha ++ "_" ++ toString retention

def jobFilename (seq : Nat) (sha : String) (retention : Nat) : String :=
  jobStem seq sha retention ++ ".tar.zst"

def jobSigFilename (seq : Nat) (sha : String) (retention : Nat) : String :=
  jobStem seq sha retention ++ ".sig"

def uploadFilename (targetSha : String) : String := targetSha ++ ".tmp"

/-- The first `_` ends the sequence number, the last one starts the retention. -/
def parseJobFilename (stem : String) : Option (Nat × String × Nat) := do
  let (seqStr, rest) ← splitOnce '_' stem
  let (sha, retentionStr) ← rsplitOnce '_' rest
  let seq ← parseUnsigned 64 seqStr
  let retention ← parseUnsigned 64 retentionStr
  some (seq, sha, retention)

/-- A job as it is found in the spool. -/
structure SpoolFile where
  job : SpoolJob
  path : String
deriving Repr, DecidableEq

/-- What one entry of the spool directory stands for. -/
def spoolFile? (spoolDir name : String) : Option SpoolFile := do
  let stem ← stripSuffix name ".tar.zst"
  let (seq, sha, retention) ← parseJobFilename stem
  some ⟨⟨seq, sha, retention⟩, joinPath spoolDir name⟩

/-- The jobs among the entries of a directory, whatever order it lists them in. -/
def leftoverJobs (spoolDir : String) (entries : List String) : List SpoolFile :=
  (entries.filterMap (spoolFile? spoolDir)).insertionSort fun a b => a.job.seq ≤ b.job.seq

/-! ## Job names -/

namespace SpoolJob

def filename (j : SpoolJob) : String := jobFilename j.seq j.sha j.retention

def sigFilename (j : SpoolJob) : String := jobSigFilename j.seq j.sha j.retention

/-- A job the registry can have accepted: a safe sha, and numbers that fit the machine. -/
structure Valid (j : SpoolJob) : Prop where
  seq : j.seq < 2 ^ 64
  sha : isSafePathComponent j.sha = true
  retention : j.retention < 2 ^ 64

end SpoolJob

theorem underscore_not_mem_zeroPadded (width n : Nat) : '_' ∉ (zeroPadded width n).toList := by
  intro h
  have hdigit := isDigit_of_mem_zeroPadded h
  simp at hdigit

theorem underscore_not_mem_toString (n : Nat) : '_' ∉ (toString n).toList := by
  intro h
  have hdigit := isDigit_of_mem_toString h
  simp at hdigit

theorem jobStem_eq (seq : Nat) (sha : String) (retention : Nat) :
    jobStem seq sha retention =
      zeroPadded 20 seq ++ String.ofList ['_'] ++
        (sha ++ String.ofList ['_'] ++ toString retention) := by
  simp only [jobStem, String.append_assoc]

variable {seq retention : Nat}

theorem parseJobFilename_jobStem (sha : String) (hseq : seq < 2 ^ 64)
    (hretention : retention < 2 ^ 64) :
    parseJobFilename (jobStem seq sha retention) = some (seq, sha, retention) := by
  unfold parseJobFilename
  rw [jobStem_eq, splitOnce_append (underscore_not_mem_zeroPadded 20 seq)]
  dsimp only [Option.bind_eq_bind, Option.bind_some]
  rw [rsplitOnce_append (underscore_not_mem_toString retention)]
  dsimp only [Option.bind_some]
  rw [parseUnsigned_zeroPadded hseq, parseUnsigned_toString hretention]
  rfl

theorem jobStem_inj {seq' retention' : Nat} {sha sha' : String}
    (h : jobStem seq sha retention = jobStem seq' sha' retention') :
    seq = seq' ∧ sha = sha' ∧ retention = retention' := by
  rw [jobStem_eq, jobStem_eq] at h
  obtain ⟨hseq, hrest⟩ := append_firstSep_inj (underscore_not_mem_zeroPadded 20 seq)
    (underscore_not_mem_zeroPadded 20 seq') h
  obtain ⟨hsha, hretention⟩ := append_lastSep_inj (underscore_not_mem_toString retention)
    (underscore_not_mem_toString retention') hrest
  exact ⟨zeroPadded_inj hseq, hsha, toString_inj hretention⟩

theorem SpoolJob.eq_of_stem {j j' : SpoolJob}
    (h : jobStem j.seq j.sha j.retention = jobStem j'.seq j'.sha j'.retention) : j = j' := by
  obtain ⟨hseq, hsha, hretention⟩ := jobStem_inj h
  cases j'
  subst hseq hsha hretention
  rfl

/-! ## The spool directory -/

theorem spoolFile?_filename (spoolDir : String) {j : SpoolJob} (h : j.Valid) :
    spoolFile? spoolDir j.filename = some ⟨j, joinPath spoolDir j.filename⟩ := by
  unfold spoolFile?
  rw [SpoolJob.filename, jobFilename, stripSuffix_append]
  dsimp only [Option.bind_eq_bind, Option.bind_some]
  rw [parseJobFilename_jobStem j.sha h.seq h.retention]
  rfl

theorem spoolFile?_of_suffix {spoolDir a p : String} (hp : ¬ ".tar.zst".toList <:+ p.toList)
    (hp' : ¬ p.toList <:+ ".tar.zst".toList) : spoolFile? spoolDir (a ++ p) = none := by
  unfold spoolFile?
  cases hstrip : stripSuffix (a ++ p) ".tar.zst" with
  | none => rfl
  | some stem =>
    have heq := congrArg String.toList (eq_of_stripSuffix hstrip)
    rw [String.toList_append, String.toList_append] at heq
    have hleft : p.toList <:+ a.toList ++ p.toList := suffix_append _ _
    have hright : ".tar.zst".toList <:+ a.toList ++ p.toList := by
      rw [heq]
      exact suffix_append _ _
    rcases Nat.le_total p.toList.length ".tar.zst".toList.length with hlen | hlen
    · exact absurd (suffix_of_suffix_length_le hleft hright hlen) hp'
    · exact absurd (suffix_of_suffix_length_le hright hleft hlen) hp

theorem spoolFile?_sigFilename (spoolDir : String) (j : SpoolJob) :
    spoolFile? spoolDir j.sigFilename = none :=
  spoolFile?_of_suffix (by decide) (by decide)

theorem spoolFile?_uploadFilename (spoolDir targetSha : String) :
    spoolFile? spoolDir (uploadFilename targetSha) = none :=
  spoolFile?_of_suffix (by decide) (by decide)

/-- The entries of a spool directory with these jobs, signatures and partial uploads, in the order
in which the directory happens to list them. -/
def SpoolEntries (jobs sigs : List SpoolJob) (uploads entries : List String) : Prop :=
  entries.Perm (jobs.map SpoolJob.filename ++ sigs.map SpoolJob.sigFilename ++
    uploads.map uploadFilename)

theorem filterMap_spoolFile? {spoolDir : String} {jobs : List SpoolJob}
    (hjobs : ∀ j ∈ jobs, j.Valid) (sigs : List SpoolJob) (uploads : List String) :
    (jobs.map SpoolJob.filename ++ sigs.map SpoolJob.sigFilename ++
        uploads.map uploadFilename).filterMap (spoolFile? spoolDir) =
      jobs.map fun j => ⟨j, joinPath spoolDir j.filename⟩ := by
  have hsigs : (sigs.map SpoolJob.sigFilename).filterMap (spoolFile? spoolDir) = [] := by
    rw [filterMap_map, filterMap_eq_nil_iff]
    exact fun j _ => spoolFile?_sigFilename spoolDir j
  have huploads : (uploads.map uploadFilename).filterMap (spoolFile? spoolDir) = [] := by
    rw [filterMap_map, filterMap_eq_nil_iff]
    exact fun sha _ => spoolFile?_uploadFilename spoolDir sha
  have hjob : (jobs.map SpoolJob.filename).filterMap (spoolFile? spoolDir) =
      jobs.map fun j => ⟨j, joinPath spoolDir j.filename⟩ := by
    rw [filterMap_map, ← filterMap_eq_map]
    refine filterMap_congr fun j hj => ?_
    exact spoolFile?_filename spoolDir (hjobs j hj)
  rw [filterMap_append, filterMap_append, hsigs, huploads, hjob, append_nil, append_nil]

section listing

variable (spoolDir : String) {jobs sigs : List SpoolJob} {uploads entries : List String}

theorem leftoverJobs_perm (hjobs : ∀ j ∈ jobs, j.Valid)
    (hentries : SpoolEntries jobs sigs uploads entries) :
    (leftoverJobs spoolDir entries).Perm (jobs.map fun j => ⟨j, joinPath spoolDir j.filename⟩) := by
  refine (perm_insertionSort _ _).trans ?_
  rw [← filterMap_spoolFile? hjobs sigs uploads]
  exact hentries.filterMap _

theorem leftoverJobs_sorted (entries : List String) :
    (leftoverJobs spoolDir entries).Pairwise fun a b => a.job.seq ≤ b.job.seq := by
  have htotal : Std.Total fun a b : SpoolFile => a.job.seq ≤ b.job.seq :=
    ⟨fun a b => Nat.le_total _ _⟩
  exact pairwise_insertionSort _ _

/-- What the worker's loop goes over is a listing of the spool. -/
theorem leftoverJobs_listing {d : Disk} (hd : d.jobs.map Prod.fst = jobs)
    (hjobs : ∀ j ∈ jobs, j.Valid) (hentries : SpoolEntries jobs sigs uploads entries) :
    d.Listing ((leftoverJobs spoolDir entries).map SpoolFile.job) := by
  refine ⟨?_, pairwise_map.mpr (leftoverJobs_sorted spoolDir entries)⟩
  have hperm := (leftoverJobs_perm spoolDir hjobs hentries).map SpoolFile.job
  rw [map_map] at hperm
  rw [hd]
  exact hperm.trans (List.Perm.of_eq (map_id jobs))

theorem leftoverJobs_nodup (hnodup : jobs.Nodup) (hjobs : ∀ j ∈ jobs, j.Valid)
    (hentries : SpoolEntries jobs sigs uploads entries) :
    (leftoverJobs spoolDir entries).Nodup := by
  refine (leftoverJobs_perm spoolDir hjobs hentries).nodup_iff.mpr ?_
  refine hnodup.map fun j j' h => ?_
  exact (SpoolFile.mk.inj h).1

theorem leftoverJobs_increasing (hseqs : (jobs.map SpoolJob.seq).Nodup)
    (hjobs : ∀ j ∈ jobs, j.Valid) (hentries : SpoolEntries jobs sigs uploads entries) :
    (leftoverJobs spoolDir entries).Pairwise fun a b => a.job.seq < b.job.seq := by
  have hperm := (leftoverJobs_perm spoolDir hjobs hentries).map fun f => f.job.seq
  rw [map_map] at hperm
  have hdistinct : ((leftoverJobs spoolDir entries).map fun f => f.job.seq).Nodup :=
    hperm.nodup_iff.mpr hseqs
  have hne := pairwise_map.mp hdistinct
  refine ((leftoverJobs_sorted spoolDir entries).and hne).imp ?_
  rintro a b ⟨hle, hab⟩
  exact Nat.lt_of_le_of_ne hle hab

end listing

/-- The name of a job file gives back the job, and the listing of a spool directory is the list of
its jobs, each once and by increasing sequence number, whatever else lies there. -/
theorem spool_faithful :
    (∀ j : SpoolJob, j.Valid →
      (stripSuffix j.filename ".tar.zst").bind parseJobFilename =
        some (j.seq, j.sha, j.retention)) ∧
    ∀ (spoolDir : String) (jobs sigs : List SpoolJob) (uploads entries : List String),
      jobs.Nodup → (∀ j ∈ jobs, j.Valid) → SpoolEntries jobs sigs uploads entries →
      (leftoverJobs spoolDir entries).Perm (jobs.map fun j => ⟨j, joinPath spoolDir j.filename⟩) ∧
        (leftoverJobs spoolDir entries).Nodup ∧
        (leftoverJobs spoolDir entries).Pairwise (fun a b => a.job.seq ≤ b.job.seq) ∧
        ((jobs.map SpoolJob.seq).Nodup →
          (leftoverJobs spoolDir entries).Pairwise fun a b => a.job.seq < b.job.seq) := by
  refine ⟨fun j hj => ?_, fun spoolDir jobs sigs uploads entries hnodup hjobs hentries => ?_⟩
  · rw [SpoolJob.filename, jobFilename, stripSuffix_append, Option.bind_some,
      parseJobFilename_jobStem j.sha hj.seq hj.retention]
  · exact ⟨leftoverJobs_perm spoolDir hjobs hentries,
      leftoverJobs_nodup spoolDir hnodup hjobs hentries, leftoverJobs_sorted spoolDir entries,
      fun hseqs => leftoverJobs_increasing spoolDir hseqs hjobs hentries⟩

/-- Two jobs, the later one listed first, between the signature of one and two partial uploads
whose shas look like other files. -/
theorem spool_faithful_two :
    [(⟨1, "b_1", 3⟩ : SpoolJob), ⟨0, "a.tar.zst", 5⟩].Nodup ∧ (leftoverJobs "/d/spool/r"
        ["00000000000000000001_b_1_3.tar.zst", "x.tar.zst.tmp",
          "00000000000000000001_b_1_3.sig", "00000000000000000000_a.tar.zst_5.tar.zst",
          "0_x_1.tmp"]).Perm
        ([⟨1, "b_1", 3⟩, ⟨0, "a.tar.zst", 5⟩].map fun j =>
          ⟨j, joinPath "/d/spool/r" j.filename⟩) :=
  ⟨by decide, (spool_faithful.2 "/d/spool/r" [⟨1, "b_1", 3⟩, ⟨0, "a.tar.zst", 5⟩] [⟨1, "b_1", 3⟩]
    ["x.tar.zst", "0_x_1"] _ (by decide)
    (by
      intro j hj
      rcases mem_cons.mp hj with rfl | hj
      · exact ⟨by decide, by decide, by decide⟩
      · obtain rfl := mem_singleton.mp hj
        exact ⟨by decide, by decide, by decide⟩)
    (by unfold SpoolEntries; decide)).1⟩

/-! ## Paths -/

/-- `Registry::open`. -/
def storeDir (dataDir : String) : String := joinPath dataDir "store"

def spoolDir (dataDir : String) : String := joinPath dataDir "spool"

def repoStoreDir (dataDir repoId : String) : String := joinPath (storeDir dataDir) repoId

def repoSpoolDir (dataDir repoId : String) : String := joinPath (spoolDir dataDir) repoId

/-- What the registry keeps of a repository, each in a file of its own. -/
inductive RegistryFile where
  | blob (sha : String)
  | blobTmp (sha : String)
  | sig (sha : String)
  | sigTmp (sha : String)
  | head
  | headTmp
  | upload (sha : String)
  | job (j : SpoolJob)
  | jobSig (j : SpoolJob)
deriving Repr, DecidableEq

namespace RegistryFile

def name : RegistryFile → String
  | blob sha => sha ++ ".tar.zst"
  | blobTmp sha => sha ++ ".tar.zst.tmp"
  | sig sha => sha ++ ".sig"
  | sigTmp sha => sha ++ ".sig.tmp"
  | head => "HEAD"
  | headTmp => "HEAD.tmp"
  | upload sha => uploadFilename sha
  | job j => j.filename
  | jobSig j => j.sigFilename

def isSpooled : RegistryFile → Bool
  | upload _ | job _ | jobSig _ => true
  | _ => false

/-- The repository's own directory that holds the file. -/
def dir (dataDir repoId : String) (f : RegistryFile) : String :=
  if f.isSpooled then repoSpoolDir dataDir repoId else repoStoreDir dataDir repoId

def path (dataDir repoId : String) (f : RegistryFile) : String :=
  joinPath (f.dir dataDir repoId) f.name

def sha? : RegistryFile → Option String
  | blob sha | blobTmp sha | sig sha | sigTmp sha | upload sha => some sha
  | job j | jobSig j => some j.sha
  | head | headTmp => none

/-- The registry derives no name from an unsafe sha. -/
def Safe (f : RegistryFile) : Prop := ∀ sha ∈ f.sha?, isSafePathComponent sha = true

end RegistryFile

theorem plain_of_safe {s : String} (h : isSafePathComponent s = true) :
    ∀ c ∈ s.toList, c ≠ '/' ∧ c ≠ '\x00' := by
  intro c hc
  constructor
  · rintro rfl
    exact not_mem_of_safe h (by decide) hc
  · rintro rfl
    exact not_mem_of_safe h (by decide) hc

theorem isFileName_of_safe {s : String} (h : isSafePathComponent s = true) : IsFileName s := by
  have hplain := plain_of_safe h
  simp only [isSafePathComponent, Bool.and_eq_true, bne_iff_ne, ne_eq] at h
  obtain ⟨⟨⟨⟨hempty, -⟩, hdot⟩, hdots⟩, -⟩ := h
  exact ⟨hempty, hdot, hdots, fun hc => (hplain _ hc).1 rfl, fun hc => (hplain _ hc).2 rfl⟩

theorem plain_of_isDigit {c : Char} (h : c.isDigit = true) : c ≠ '/' ∧ c ≠ '\x00' := by
  constructor
  · rintro rfl
    simp at h
  · rintro rfl
    simp at h

theorem plain_jobStem {sha : String} (h : isSafePathComponent sha = true) :
    ∀ c ∈ (jobStem seq sha retention).toList, c ≠ '/' ∧ c ≠ '\x00' := by
  intro c hc
  simp only [jobStem, String.toList_append, mem_append] at hc
  rcases hc with (((hc | hc) | hc) | hc) | hc
  · exact plain_of_isDigit (isDigit_of_mem_zeroPadded hc)
  · obtain rfl : c = '_' := by simpa using hc
    decide
  · exact plain_of_safe h c hc
  · obtain rfl : c = '_' := by simpa using hc
    decide
  · exact plain_of_isDigit (isDigit_of_mem_toString hc)

namespace RegistryFile

/-- The kinds of files, which their suffixes tell apart. -/
inductive Kind where
  | blob | blobTmp | sig | sigTmp | head | headTmp | upload | job | jobSig
deriving Repr, DecidableEq

namespace Kind

def suffix : Kind → String
  | blob => ".tar.zst"
  | blobTmp => ".tar.zst.tmp"
  | sig => ".sig"
  | sigTmp => ".sig.tmp"
  | head => "HEAD"
  | headTmp => "HEAD.tmp"
  | upload => ".tmp"
  | job => ".tar.zst"
  | jobSig => ".sig"

def isSpooled : Kind → Bool
  | upload | job | jobSig => true
  | _ => false

theorem eq_of_suffix {k k' : Kind} (hdir : k.isSpooled = k'.isSpooled)
    (h : k.suffix.toList <:+ k'.suffix.toList) : k = k' := by
  revert hdir h
  cases k <;> cases k' <;> decide

theorem suffix_plain (k : Kind) : ∀ c ∈ k.suffix.toList, c ≠ '/' ∧ c ≠ '\x00' := by
  have hall : k.suffix.toList.all (fun c => c != '/' && c != '\x00') = true := by
    cases k <;> decide
  intro c hc
  simpa using all_eq_true.mp hall c hc

theorem suffix_length (k : Kind) : 4 ≤ k.suffix.toList.length := by
  cases k <;> decide

end Kind

def kind : RegistryFile → Kind
  | blob _ => .blob
  | blobTmp _ => .blobTmp
  | sig _ => .sig
  | sigTmp _ => .sigTmp
  | head => .head
  | headTmp => .headTmp
  | upload _ => .upload
  | job _ => .job
  | jobSig _ => .jobSig

/-- The name without the suffix. -/
def stem : RegistryFile → String
  | blob sha | blobTmp sha | sig sha | sigTmp sha | upload sha => sha
  | head | headTmp => ""
  | job j | jobSig j => jobStem j.seq j.sha j.retention

theorem name_eq (f : RegistryFile) : f.name = f.stem ++ f.kind.suffix := by
  cases f <;> rfl

theorem isSpooled_kind (f : RegistryFile) : f.isSpooled = f.kind.isSpooled := by
  cases f <;> rfl

variable {f f' : RegistryFile} {repoId : String}

theorem eq_of_kind_stem (hkind : f.kind = f'.kind) (hstem : f.stem = f'.stem) : f = f' := by
  cases f <;> cases f' <;> cases hkind <;> simp only [stem] at hstem
  case head.head.refl => rfl
  case headTmp.headTmp.refl => rfl
  case job.job.refl => rw [SpoolJob.eq_of_stem hstem]
  case jobSig.jobSig.refl => rw [SpoolJob.eq_of_stem hstem]
  all_goals rw [hstem]

theorem name_inj (hdir : f.isSpooled = f'.isSpooled) (h : f.name = f'.name) : f = f' := by
  rw [name_eq, name_eq] at h
  have hlist := congrArg String.toList h
  rw [String.toList_append, String.toList_append] at hlist
  have hleft : f.kind.suffix.toList <:+ f.stem.toList ++ f.kind.suffix.toList :=
    suffix_append _ _
  have hright : f'.kind.suffix.toList <:+ f.stem.toList ++ f.kind.suffix.toList := by
    rw [hlist]
    exact suffix_append _ _
  rw [isSpooled_kind, isSpooled_kind] at hdir
  have hkind : f.kind = f'.kind := by
    rcases Nat.le_total f.kind.suffix.toList.length f'.kind.suffix.toList.length with hlen | hlen
    · exact Kind.eq_of_suffix hdir (suffix_of_suffix_length_le hleft hright hlen)
    · exact (Kind.eq_of_suffix hdir.symm (suffix_of_suffix_length_le hright hleft hlen)).symm
  rw [hkind] at h
  exact eq_of_kind_stem hkind (String.append_left_inj _ |>.mp h)

theorem stem_plain (h : f.Safe) : ∀ c ∈ f.stem.toList, c ≠ '/' ∧ c ≠ '\x00' := by
  cases f with
  | blob sha => exact plain_of_safe (h sha rfl)
  | blobTmp sha => exact plain_of_safe (h sha rfl)
  | sig sha => exact plain_of_safe (h sha rfl)
  | sigTmp sha => exact plain_of_safe (h sha rfl)
  | head => intro c hc; cases hc
  | headTmp => intro c hc; cases hc
  | upload sha => exact plain_of_safe (h sha rfl)
  | job j => exact plain_jobStem (h j.sha rfl)
  | jobSig j => exact plain_jobStem (h j.sha rfl)

theorem isFileName_name (h : f.Safe) : IsFileName f.name := by
  have hplain : ∀ c ∈ f.name.toList, c ≠ '/' ∧ c ≠ '\x00' := by
    intro c hc
    rw [name_eq, String.toList_append] at hc
    rcases mem_append.mp hc with hc | hc
    · exact stem_plain h c hc
    · exact f.kind.suffix_plain c hc
  have hlen : 4 ≤ f.name.toList.length := by
    have hsuffix := f.kind.suffix_length
    rw [name_eq, String.toList_append, length_append]
    omega
  refine ⟨?_, ?_, ?_, fun hc => (hplain _ hc).1 rfl, fun hc => (hplain _ hc).2 rfl⟩ <;>
  · intro hname
    rw [hname] at hlen
    revert hlen
    decide

theorem exists_storeDir (dataDir : String) :
    ∃ a, storeDir dataDir = a ++ "store" ∧ spoolDir dataDir = a ++ "spool" := by
  obtain ⟨a, ha⟩ := exists_joinPath dataDir
  exact ⟨a, ha "store" (by decide), ha "spool" (by decide)⟩

/-- The directory that holds the repository's one. -/
def root (dataDir : String) (f : RegistryFile) : String :=
  if f.isSpooled then spoolDir dataDir else storeDir dataDir

theorem dir_eq (dataDir : String) (hrepo : isSafePathComponent repoId = true) (f : RegistryFile) :
    f.dir dataDir repoId = f.root dataDir ++ "/" ++ repoId := by
  obtain ⟨a, hstore, hspool⟩ := exists_storeDir dataDir
  have hsep := (isFileName_of_safe hrepo).2.2.2.1
  unfold dir root
  split
  · exact joinPath_below hspool (by decide) (by decide) hsep
  · exact joinPath_below hstore (by decide) (by decide) hsep

theorem path_eq (dataDir : String) (hrepo : isSafePathComponent repoId = true) (h : f.Safe) :
    f.path dataDir repoId = f.dir dataDir repoId ++ "/" ++ f.name := by
  have hname := isFileName_of_safe hrepo
  exact joinPath_below (dir_eq dataDir hrepo f) hname.1 hname.2.2.2.1 (isFileName_name h).2.2.2.1

theorem isSpooled_of_root {dataDir : String} (h : f.root dataDir = f'.root dataDir) :
    f.isSpooled = f'.isSpooled := by
  obtain ⟨a, hstore, hspool⟩ := exists_storeDir dataDir
  have hne : a ++ "store" ≠ a ++ "spool" := by
    intro heq
    have hlit := (String.append_right_inj a).mp heq
    revert hlit
    decide
  unfold root at h
  rw [hstore, hspool] at h
  cases hf : f.isSpooled <;> cases hf' : f'.isSpooled <;> rw [hf, hf'] at h
  · exact absurd h hne
  · exact absurd h hne.symm

theorem path_inside (dataDir : String) (hrepo : isSafePathComponent repoId = true) (h : f.Safe) :
    Inside (f.root dataDir) (f.dir dataDir repoId) ∧
      Inside (f.dir dataDir repoId) (f.path dataDir repoId) :=
  ⟨⟨repoId, isFileName_of_safe hrepo, dir_eq dataDir hrepo f⟩,
    ⟨f.name, isFileName_name h, path_eq dataDir hrepo h⟩⟩

theorem path_inj {dataDir repoId' : String} (hrepo : isSafePathComponent repoId = true)
    (hrepo' : isSafePathComponent repoId' = true) (hf : f.Safe) (hf' : f'.Safe)
    (h : f.path dataDir repoId = f'.path dataDir repoId') : repoId = repoId' ∧ f = f' := by
  rw [path_eq dataDir hrepo hf, path_eq dataDir hrepo' hf'] at h
  obtain ⟨hdir, hname⟩ := append_lastSep_inj (isFileName_name hf).2.2.2.1
    (isFileName_name hf').2.2.2.1 h
  rw [dir_eq dataDir hrepo, dir_eq dataDir hrepo'] at hdir
  obtain ⟨hroot, hid⟩ := append_lastSep_inj (isFileName_of_safe hrepo).2.2.2.1
    (isFileName_of_safe hrepo').2.2.2.1 hdir
  exact ⟨hid, name_inj (isSpooled_of_root hroot) hname⟩

end RegistryFile

/-- Every file of a repository lies in the repository's own directory, and no two of them, of one
repository or of two, share a path. -/
theorem registry_paths (dataDir : String) :
    (∀ (repoId : String) (f : RegistryFile), isSafePathComponent repoId = true → f.Safe →
      (f.dir dataDir repoId = repoStoreDir dataDir repoId ∨
        f.dir dataDir repoId = repoSpoolDir dataDir repoId) ∧
      Inside (f.root dataDir) (f.dir dataDir repoId) ∧
      Inside (f.dir dataDir repoId) (f.path dataDir repoId)) ∧
    ∀ (repoId repoId' : String) (f f' : RegistryFile),
      isSafePathComponent repoId = true → isSafePathComponent repoId' = true →
      f.Safe → f'.Safe → f.path dataDir repoId = f'.path dataDir repoId' →
      repoId = repoId' ∧ f = f' := by
  refine ⟨fun repoId f hrepo hf => ⟨?_, RegistryFile.path_inside dataDir hrepo hf⟩, ?_⟩
  · unfold RegistryFile.dir
    split
    · exact .inr rfl
    · exact .inl rfl
  · exact fun repoId repoId' f f' => RegistryFile.path_inj

/-- A sha that looks like a temporary file of another sha. -/
theorem registry_paths_tmp :
    isSafePathComponent "a.tar.zst" = true ∧ ∃ name, IsFileName name ∧
        (RegistryFile.sigTmp "a.tar.zst").path "/d" "r" = repoStoreDir "/d" "r" ++ "/" ++ name :=
  ⟨by decide, ((registry_paths "/d").1 "r" (.sigTmp "a.tar.zst") (by decide)
    (by intro sha hsha; obtain rfl := Option.some.inj hsha; decide)).2.2⟩

end WeaveGraph.Hub
