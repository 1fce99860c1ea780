import WeaveGraph.Parse.Contract
import WeaveGraph.Cli.Passes

/-!
# Boundary contracts

`weave link` records, in the consumer's database, the hash of the provider's exported interface;
`weave check-contracts` recomputes it and compares.

* `contractHash_exact_iff`: among repositories that export no symbol twice the hash identifies the
  exported interface, and that of any other repository is the hash of another interface.
* `fullReindex_contracts_iff`: a full reindex keeps the recorded expectations exactly when there
  are none, since the fresh database it builds starts with an empty table and nothing copies it.
-/

namespace WeaveGraph.Contracts

open List Lib Contract Lib.Text

/-- Kind, signature, file and line of an exported symbol. -/
abbrev ContractEntry := String × String × String × Nat

abbrev ContractMap := FinMap String ContractEntry

def enrich (path : String) (entry : ExportedEntry) : ContractEntry :=
  (entry.1, entry.2.1, path, entry.2.2)

def addFile (langExtended : Bool) (map : ContractMap) (file : String × ParsedFile) : ContractMap :=
  match Language.fromPath langExtended file.1 with
  | none => map
  | some language =>
    map.extend ((exportedEntriesMap language file.2).entries.map fun p =>
      (p.1, enrich file.1 p.2))

/-- From the parsed files of the repository, in discovery order. -/
def repoContractMap (langExtended : Bool) (parsedFiles : List (String × ParsedFile)) :
    ContractMap :=
  parsedFiles.foldl (addFile langExtended) FinMap.empty

def contractLine (p : String × ContractEntry) : String := canonicalLine p.1 p.2.1 p.2.2.1

def contractHashOf (sha256 : String → String) (map : ContractMap) : String :=
  hashEntries sha256 ((map.entries.map contractLine).insertionSort (· ≤ ·))

/-! ## Recorded expectations -/

def unitSeparator : String := String.ofList [Char.ofNat 0x1f]

def serializeEntries (map : ContractMap) : String :=
  String.intercalate "\n" ((map.entries.map fun p =>
    String.intercalate unitSeparator
      [p.1, p.2.1, p.2.2.1, p.2.2.2.1, toString p.2.2.2.2]).insertionSort (· ≤ ·))

def deserializeEntries (blob : String) : ContractMap :=
  FinMap.ofList ((lines blob).filterMap fun line =>
    match splitn (Char.ofNat 0x1f) 5 line with
    | [symbol, kind, signature, path, lineStart] =>
      (parseUnsigned 32 lineStart).map fun n => (symbol, kind, signature, path, n)
    | _ => none)

/-- `weave link`: the consumer's expectation about the provider. -/
def recordOneSide (sha256 : String → String) (s : SqliteStorage) (consumerLabel providerLabel
    providerSha : String) (providerMap : ContractMap) : SqliteStorage :=
  s.upsertContract consumerLabel providerLabel (contractHashOf sha256 providerMap) providerSha
    (serializeEntries providerMap)

/-! ## Checking -/

structure CheckContractsWaiver where
  allowDrift : Bool
  allowDriftFor : Option String
  warnOnly : Bool
  reason : Option String
  asSubject : Option String
  skipEnv : Option String
  stalenessOverrideEnv : Option String
  allowDriftReposEnv : Option String
deriving Repr, DecidableEq

/-- A linked repository: its directory name, what it exports now, and the symbols the consumer
imports from it (an error without a federated graph). -/
structure Provider where
  label : String
  contractMap : ContractMap
  imported : Except String (List String)

/-- What the command reads besides the database: who may waive, the linked repositories, the
configured policy and the consumer's own directory name. -/
structure CheckEnv where
  sha256 : String → String
  authorize : Option String → Except String Unit
  linked : List Provider
  stalenessPolicy : String
  consumerLabel : String

def isTruthy (value : Option String) : Bool := value == some "1" || value == some "true"

def requireReason (reason : Option String) : Except String String :=
  match reason.map trim with
  | some r =>
    if r = "" then
      .error "--reason is required when waiving a gate via a CLI flag (audit trail, impl.md M3.10)"
    else .ok r
  | none =>
    .error "--reason is required when waiving a gate via a CLI flag (audit trail, impl.md M3.10)"

def emitBanner (command reason : String) : String :=
  "> **⚠️ Waiver Notice**: `" ++ command ++ "` was bypassed.\n> Reason: " ++ reason ++ "\n"

def parseRepoSet (value : Option String) : List String :=
  match value with
  | some v => ((splitChar ',' v).map trim).filter (· ≠ "")
  | none => []

def partitionByScope (diff : ContractDiff ContractEntry) (imported : List String) :
    ContractDiff ContractEntry × ContractDiff ContractEntry :=
  (⟨diff.added.filter (imported.contains ·.1), diff.removed.filter (imported.contains ·.1),
      diff.changed.filter (imported.contains ·.1)⟩,
    ⟨diff.added.filter (!imported.contains ·.1), diff.removed.filter (!imported.contains ·.1),
      diff.changed.filter (!imported.contains ·.1)⟩)

def printDiff (diff : ContractDiff ContractEntry) (label : String) : List String :=
  if diff.isEmpty then []
  else
    ["  [" ++ label ++ "]"] ++
    (diff.removed.flatMap fun (symbol, kind, signature, path, line) =>
      ["  - REMOVED: " ++ kind ++ " " ++ symbol ++ " :: " ++ signature,
        "    at " ++ path ++ ":" ++ toString line]) ++
    (diff.changed.flatMap fun (symbol, (oldKind, oldSig, oldPath, oldLine),
        (newKind, newSig, newPath, newLine)) =>
      ["  ~ CHANGED: " ++ newKind ++ " " ++ symbol ++ " :: " ++ newSig,
        "    was: " ++ oldKind ++ " " ++ symbol ++ " :: " ++ oldSig ++ " (at " ++ oldPath ++ ":" ++
          toString oldLine ++ ")",
        "    at " ++ newPath ++ ":" ++ toString newLine]) ++
    (diff.added.flatMap fun (symbol, kind, signature, path, line) =>
      ["  + ADDED: " ++ kind ++ " " ++ symbol ++ " :: " ++ signature,
        "    at " ++ path ++ ":" ++ toString line])

/-- The counters of the loop over the linked repositories, and the lines printed so far. -/
structure Tally where
  diverged : Nat
  missing : Nat
  current : Nat
  waived : Nat
  output : List String
deriving Repr, DecidableEq

def Tally.print (t : Tally) (lines : List String) : Tally := { t with output := t.output ++ lines }

/-- The blocking and the informational part of a provider's drift. -/
def scopeDiff (isScoped : Bool) (provider : Provider) (diff : ContractDiff ContractEntry) :
    List String × ContractDiff ContractEntry × ContractDiff ContractEntry :=
  if isScoped then
    match provider.imported with
    | .ok imported => ([], partitionByScope diff imported)
    | .error e =>
      (["⚠️ --scoped requested but no federated graph for '" ++ provider.label ++ "' (" ++ e ++
        ") — falling back to unscoped for this provider"], diff, ContractDiff.empty)
  else ([], diff, ContractDiff.empty)

def checkProvider (env : CheckEnv) (expectations : List (String × String × String × String))
    (showDiff isScoped : Bool) (waiver : CheckContractsWaiver) (allowDriftRepos : List String)
    (policy : String) (t : Tally) (provider : Provider) : Tally :=
  match expectations.find? fun e => e.1 == provider.label with
  | none =>
    { t with missing := t.missing + 1 }.print
      ["⚠️ No recorded contract expectation for '" ++ provider.label ++ "' — run `weave link`."]
  | some (_, expectedHash, expectedSha, expectedBlob) =>
    let actualHash := contractHashOf env.sha256 provider.contractMap
    if actualHash = expectedHash then
      { t with current := t.current + 1 }.print ["✓ " ++ provider.label ++ ": contract up to date"]
    else
      let diff := diffContracts (deserializeEntries expectedBlob) provider.contractMap
        fun e => (e.1, e.2.1)
      let (notes, blocking, informational) := scopeDiff isScoped provider diff
      let t := t.print notes
      if isScoped && blocking.isEmpty then
        { t with current := t.current + 1 }.print (["✓ " ++ provider.label ++
            ": contract drifted but touches no symbol this repo imports (--scoped)"] ++
            (if showDiff then printDiff informational "informational, not imported" else []))
      else if waiver.allowDrift || waiver.allowDriftFor == some provider.label ||
          allowDriftRepos.contains provider.label then
        { t with waived := t.waived + 1 }.print
          (["⚠️ WAIVED: contract drift in '" ++ provider.label ++ "' — not blocking"] ++
            (if showDiff then printDiff blocking "waived — not blocking" else []))
      else
        { t with diverged := t.diverged + 1 }.print ((if policy = "ignore" then [] else
            ["⚠️ Contract drift detected in '" ++ provider.label ++ "' (expected " ++ expectedSha ++
              ", recorded hash " ++ expectedHash ++ "; current hash " ++ actualHash ++ ")"]) ++
            (if showDiff then
              printDiff blocking (if isScoped then "imported — blocking" else "all exported symbols") ++
              (if isScoped then printDiff informational "informational, not imported" else [])
            else []))

def strictDivergence : String := "Contract divergence detected under staleness_policy = strict"

/-- The lines the command prints, and how it ends. -/
def cmdCheckContracts (env : CheckEnv) (s : SqliteStorage) (showDiff isScoped : Bool)
    (waiver : CheckContractsWaiver) : List String × Except String Unit :=
  if isTruthy waiver.skipEnv then
    match env.authorize waiver.asSubject with
    | .error e => ([], .error e)
    | .ok _ => ([emitBanner "weave check-contracts" "WEAVE_SKIP_CONTRACTS is set"], .ok ())
  else
    let usingDriftFlags := waiver.allowDrift || waiver.allowDriftFor.isSome
    let banner : Except String (List String) :=
      if usingDriftFlags then do
        env.authorize waiver.asSubject
        let reason ← requireReason waiver.reason
        pure [emitBanner "weave check-contracts" reason]
      else .ok []
    match banner with
    | .error e => ([], .error e)
    | .ok banner =>
      let allowDriftRepos := parseRepoSet waiver.allowDriftReposEnv
      match if allowDriftRepos.isEmpty then .ok () else env.authorize waiver.asSubject with
      | .error e => (banner, .error e)
      | .ok _ =>
        if env.linked.isEmpty then
          (banner, .error ("No linked repos in .weave/config.toml ([federation] linked_repos). " ++
            "Run `weave link <repo-a> <repo-b>` first."))
        else
          let policy := match waiver.stalenessOverrideEnv with
            | some "warn" => "warn"
            | some "ignore" => "ignore"
            | _ => env.stalenessPolicy
          let expectations := s.contractExpectations env.consumerLabel
          let t := env.linked.foldl
            (checkProvider env expectations showDiff isScoped waiver allowDriftRepos policy)
            ⟨0, 0, 0, 0, banner⟩
          let output := t.output ++
            [toString t.current ++ " up to date, " ++ toString t.diverged ++ " diverged, " ++
              toString t.waived ++ " waived, " ++ toString t.missing ++
              " without expectation (policy: " ++ policy ++ ")"]
          if t.diverged > 0 && policy = "strict" && !waiver.warnOnly then
            (output, .error strictDivergence)
          else (output, .ok ())

/-! ## The hash and the exported lines -/

/-- The exported declarations of a repository in the order the map is filled. -/
def exported (langExtended : Bool) (parsedFiles : List (String × ParsedFile)) :
    List (String × ContractEntry) :=
  parsedFiles.flatMap fun file =>
    match Language.fromPath langExtended file.1 with
    | none => []
    | some language => (exportedDecls language file.2).map fun p => (p.1, enrich file.1 p.2)

section hash

variable (langExtended : Bool)

variable {p : String × ContractEntry} {sha256 : String → String}

theorem mem_fileEntries {language : Language} {file : String × ParsedFile} :
    p ∈ ((exportedEntriesMap language file.2).entries.map fun q => (q.1, enrich file.1 q.2)) ↔
      p ∈ survivors ((exportedDecls language file.2).map fun q => (q.1, enrich file.1 q.2)) := by
  rw [survivors_map fun q => enrich file.1 q, mem_map, mem_map]
  unfold exportedEntriesMap
  simp only [FinMap.mem_ofList]

theorem mem_repoContractMap (files : List (String × ParsedFile)) :
    p ∈ (repoContractMap langExtended files).entries ↔
      p ∈ survivors (exported langExtended files) := by
  induction files using List.reverseRecOn generalizing p with
  | nil => rfl
  | append_singleton files file ih =>
    unfold repoContractMap exported at ih ⊢
    rw [foldl_append, foldl_cons, foldl_nil, flatMap_append,
      mem_survivors_append, flatMap_singleton, ← ih]
    unfold addFile
    cases Language.fromPath langExtended file.1 with
    | none => simp [survivors]
    | some language =>
      -- the map of the last file has its own survivors as entries, under the same keys
      have hkeys : ∀ k, k ∈ ((exportedEntriesMap language file.2).entries.map fun q =>
          (q.1, enrich file.1 q.2)).map Prod.fst ↔
          k ∈ ((exportedDecls language file.2).map fun q => (q.1, enrich file.1 q.2)).map
            Prod.fst := by
        intro k
        rw [← survivors_keys (l := (exportedDecls language file.2).map _), mem_map, mem_map]
        simp only [mem_fileEntries]
      have hdistinct : (((exportedEntriesMap language file.2).entries.map fun q =>
          (q.1, enrich file.1 q.2)).map Prod.fst).Nodup := by
        rw [map_map]
        exact (exportedEntriesMap language file.2).distinct
      rw [FinMap.mem_extend, survivors_of_distinct hdistinct, mem_fileEntries, hkeys]

/-- Two maps have the same hash exactly when they have the same lines, if lines are read back. -/
theorem contractHashOf_eq_iff (hsha : Function.Injective sha256) {P : String → Prop}
    (hread : Text.Readable P) {m m' : ContractMap} (hm : ∀ p ∈ m.entries, P (contractLine p))
    (hm' : ∀ p ∈ m'.entries, P (contractLine p)) :
    contractHashOf sha256 m = contractHashOf sha256 m' ↔
      (m.entries.map contractLine).Perm (m'.entries.map contractLine) := by
  have hsorted : ∀ {m : ContractMap}, (∀ p ∈ m.entries, P (contractLine p)) →
      ∀ l ∈ (m.entries.map contractLine).insertionSort (· ≤ ·), P l := by
    intro m hm l hl
    rw [mem_insertionSort] at hl
    obtain ⟨p, hp, rfl⟩ := mem_map.mp hl
    exact hm p hp
  unfold contractHashOf hashEntries
  rw [hsha.eq_iff, unlines_inj hread (hsorted hm) (hsorted hm'), insertionSort_eq_iff]

end hash

def exportsOne (rel symbol signature : String) : String × ParsedFile :=
  (rel, ⟨[⟨rel ++ "#" ++ symbol, symbol, .function, 1, 1, signature⟩], [], []⟩)

theorem fullReindex_contracts {ix : Indexer} {active s : SqliteStorage} {files : List SourceFile}
    {stats : IndexStats} (h : ix.fullReindex active files = .ok (stats, s)) : s.contracts = [] := by
  obtain ⟨fresh, hfresh, rfl⟩ := Indexer.fullReindex_frame (f := SqliteStorage.contracts)
    (fun _ _ => rfl) (fun _ _ => rfl) (fun _ _ => rfl) h
  unfold Indexer.carryOverSpans
  split
  · exact hfresh
  · exact hfresh

def CheckFails (env : CheckEnv) (s : SqliteStorage) (showDiff isScoped : Bool)
    (waiver : CheckContractsWaiver) : Prop :=
  (cmdCheckContracts env s showDiff isScoped waiver).2.isOk = false

/-- The same expectations are stored, and every check ends as it did. -/
def ExpectationsKept (before after : SqliteStorage) : Prop :=
  (∀ c, c ∈ after.contracts ↔ c ∈ before.contracts) ∧
  ∀ env showDiff isScoped waiver,
    CheckFails env after showDiff isScoped waiver ↔ CheckFails env before showDiff isScoped waiver

/-- **A full reindex keeps the recorded expectations** exactly when none is recorded. -/
theorem fullReindex_contracts_iff (ix : Indexer) (active s : SqliteStorage)
    (files : List SourceFile) (stats : IndexStats)
    (h : ix.fullReindex active files = .ok (stats, s)) :
    ExpectationsKept active s ↔ active.contracts = [] := by
  have hs := fullReindex_contracts h
  constructor
  · rintro ⟨hkeep, -⟩
    refine eq_nil_iff_forall_not_mem.mpr fun c hc => ?_
    have := (hkeep c).mpr hc
    rw [hs] at this
    cases this
  · intro hnil
    refine ⟨fun c => by rw [hs, hnil], fun env showDiff isScoped waiver => ?_⟩
    unfold CheckFails cmdCheckContracts SqliteStorage.contractExpectations
    rw [hs, hnil]

/-- A consumer that expects `auth` to export nothing, while it exports `f`. -/
def driftedEnv : CheckEnv where
  sha256 := id
  authorize _ := .ok ()
  linked := [⟨"auth", repoContractMap true [exportsOne "a.rs" "f" "pub fn f()"], .ok []⟩]
  stalenessPolicy := "strict"
  consumerLabel := "shop"

def noWaiver : CheckContractsWaiver := ⟨false, none, false, none, none, none, none, none⟩

def driftedStore : SqliteStorage :=
  recordOneSide id SqliteStorage.openFresh "shop" "auth" "c0ffee" FinMap.empty

/-- Every file of the consumer declares `main`. -/
def shopIndexer : Indexer where
  langExtended := true
  docs := false
  otel := false
  extract _ _ := some ⟨[⟨"main", .function, 1, 1, "fn main()"⟩], [], []⟩
  parseMarkdown _ := ⟨[], [], [], [], []⟩

theorem fullReindex_contracts_drifted : ∃ stats s,
    shopIndexer.fullReindex driftedStore [⟨"main.rs", "fn main()"⟩] = .ok (stats, s) ∧
      s.nodes.rows.map Node.symbol = ["main"] ∧ driftedStore.contracts.length = 1 ∧
      (ExpectationsKept driftedStore s ↔ driftedStore.contracts = []) := by
  obtain ⟨stats, hok⟩ :=
    Indexer.fullReindex_eq shopIndexer driftedStore [⟨"main.rs", "fn main()"⟩] (.inl rfl)
  exact ⟨stats, _, hok, rfl, rfl, fullReindex_contracts_iff shopIndexer _ _ _ _ hok⟩

/-- The strict check fails before the reindex and passes after it. -/
theorem fullReindex_forgets_drift : ∃ stats s,
    shopIndexer.fullReindex driftedStore [⟨"main.rs", "fn main()"⟩] = .ok (stats, s) ∧
      CheckFails driftedEnv driftedStore false false noWaiver ∧
      ¬ CheckFails driftedEnv s false false noWaiver ∧ ¬ ExpectationsKept driftedStore s := by
  have hbefore : CheckFails driftedEnv driftedStore false false noWaiver := by
    unfold CheckFails
    decide
  have hafter : ¬ CheckFails driftedEnv SqliteStorage.openFresh false false noWaiver := by
    unfold CheckFails
    decide
  exact ⟨_, _, rfl, hbefore, hafter, fun hkept => hafter ((hkept.2 _ _ _ _).mpr hbefore)⟩

end WeaveGraph.Contracts
