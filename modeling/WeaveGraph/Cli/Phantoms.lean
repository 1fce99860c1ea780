import WeaveGraph.Cli.Verify
import WeaveGraph.Cli.Contracts

/-!
# The verdict of `weave verify`

`cmd_verify` runs four checks over the index and the submodules and ends in `Pass`, `Fail` or
`Incomplete`.  Without a file argument the phantom check goes over the paths of the nodes, while
what it looks for is stored for every parsed file: a file that declares nothing is never looked at.

* `cmdVerify_findings`: what the phantom check finds is in the report.
* `neverFalse_iff`: no `Pass` hides an unresolved reference exactly when one of them, if there are
  any outside the exempt globs, is in a file that has a node.
* `cmdVerify_passes_over_imports`: a script that only imports is passed.
-/

namespace WeaveGraph.Contracts

open List Lib Contract

/-! ## Submodules -/

structure Submodule where
  path : String
deriving Repr, DecidableEq

inductive SubmoduleState where
  | clean
  | bumped
  | uninitialized
  | dirty
deriving Repr, DecidableEq

inductive SubmoduleDrift where
  | noBaseline (currentMap : ContractMap)
  | unchanged
  | drifted (inScope outOfScope : ContractDiff ContractEntry) (currentMap : ContractMap)

def submodulePrefix (submodule : Submodule) : String :=
  String.ofList (submodule.path.toList.reverse.dropWhile (· == '/')).reverse ++ "/"

def submoduleProviderLabel (submodule : Submodule) : String := "submodule:" ++ submodule.path

/-- The ends of an edge, if both are indexed. -/
def endpoints (nodes : List Node) (edge : Edge) : Option (Node × Node) :=
  let nodeById := nodes.map fun n => (n.id, n)
  (lookupLast edge.sourceId nodeById).bind fun source =>
    (lookupLast edge.targetId nodeById).map fun target => (source, target)

/-- An edge from outside the submodule into it. -/
def crosses (submodule : Submodule) (ends : Node × Node) : Bool :=
  !Text.startsWith ends.1.path (submodulePrefix submodule) &&
    Text.startsWith ends.2.path (submodulePrefix submodule)

def submoduleImportedSymbols (s : SqliteStorage) (submodule : Submodule) : List String :=
  ((s.allEdges.filterMap (endpoints s.allNodes)).filter (crosses submodule)).map (·.2.symbol)

/-- `currentMap` is what the submodule's directory exports now. -/
def submoduleDrift (sha256 : String → String) (consumerLabel : String) (s : SqliteStorage)
    (submodule : Submodule) (currentMap : ContractMap) : SubmoduleDrift :=
  match (s.contractExpectations consumerLabel).find? fun e =>
      e.1 == submoduleProviderLabel submodule with
  | none => .noBaseline currentMap
  | some (_, expectedHash, _, expectedBlob) =>
    if contractHashOf sha256 currentMap = expectedHash then .unchanged
    else
      let diff := diffContracts (deserializeEntries expectedBlob) currentMap
        fun e => (e.1, e.2.1)
      let scopes := partitionByScope diff (submoduleImportedSymbols s submodule)
      .drifted scopes.1 scopes.2 currentMap

end WeaveGraph.Contracts

namespace WeaveGraph.Verify

open List Lib Contracts

/-! ## Configuration and report -/

structure VerifyConfig where
  enforceSubmoduleVisibility : Bool := true
  rejectDirtyWorkingTree : Bool := true
  qualifyChangedCommits : Bool := true
  rejectUnresolvedPhantomSymbols : Bool := true
  phantomSymbolExemptGlobs : List String := []
  requiredGuards : List RequiredGuardSpec := []
deriving Repr, DecidableEq

/-- Only the form `dir/**` is a pattern; any other text stands for itself. -/
def globMatches (pattern path : String) : Bool :=
  match Text.stripSuffix pattern "/**" with
  | some dir => path == dir || Text.startsWith path (dir ++ "/")
  | none => pattern == path

inductive VerifyStatus where
  | pass
  | fail
  | incomplete
deriving Repr, DecidableEq

structure SubmoduleSummary where
  total : Nat
  unchanged : Nat
  changed : Nat
  dirty : Nat
deriving Repr, DecidableEq

structure VerifyReport where
  status : VerifyStatus
  targetFile : Option String
  targetRange : Option (Nat × Nat)
  submodules : SubmoduleSummary
  findings : List Finding
  detectedLanguages : List String
  completedChecks : List String
  skippedChecks : List (String × String)
deriving Repr, DecidableEq

/-- What the command reads besides the database: the build, the loaded configuration, the
repository's own directory name, and the registered submodules with their state and what each of
them exports now. -/
structure VerifyEnv where
  langExtended : Bool
  sha256 : String → String
  config : VerifyConfig
  consumerLabel : String
  submodules : List Submodule
  submoduleState : Submodule → SubmoduleState
  submoduleMap : Submodule → Except String ContractMap

def languageName (langExtended : Bool) (path : String) : Option String :=
  (Language.fromPath langExtended path).map fun
    | .rust => "rust"
    | .python => "python"
    | .go => "go"
    | .typeScript | .tsx => "typescript"
    | .javaScript => "javascript"
    | .java => "java"
    | .c => "c"
    | .cpp => "cpp"
    | _ => "other"

/-! ## The checks -/

def phantomFinding (path name : String) : Finding where
  check := "phantom_symbols"
  file := path
  message := "unresolved reference to `" ++ name ++ "` — no matching symbol in the " ++
    "indexed graph, submodules, or declared dependencies"

def phantomSymbols (s : SqliteStorage) (targetPaths : List String) : List Finding :=
  targetPaths.flatMap fun path =>
    (s.getUnresolvedRefsForPath "local" path).map (phantomFinding path)

/-- The finding for an edge into the submodule whose target is not exported. -/
def boundaryFinding (langExtended : Bool) (submodule : Submodule)
    (targetPaths : Option (List String)) (ends : Node × Node) : Option Finding :=
  if targetPaths.any fun paths => !paths.contains ends.1.path then none
  else if !crosses submodule ends then none
  else
    (Language.fromPath langExtended ends.2.path).bind fun language =>
      if Contract.visibilityRule language (Text.trim ends.2.signature)
          (Contract.shortName ends.2.symbol) then none
      else some
        { check := "submodule_boundaries"
          file := ends.1.path
          message := "`" ++ ends.1.symbol ++ "` calls `" ++ ends.2.symbol ++ "` in submodule `" ++
            submodule.path ++ "`, which is not exported" }

def submoduleEncapsulationViolations (langExtended : Bool) (nodes : List Node)
    (edges : List Edge) (submodules : List Submodule) (targetPaths : Option (List String)) :
    List Finding :=
  submodules.flatMap fun submodule =>
    (edges.filterMap (endpoints nodes)).filterMap
      (boundaryFinding langExtended submodule targetPaths)

def staleSubmoduleReferences (env : VerifyEnv) (s : SqliteStorage) (submodule : Submodule) :
    Except String (List Finding) := do
  let currentMap ← env.submoduleMap submodule
  match submoduleDrift env.sha256 env.consumerLabel s submodule currentMap with
  | .drifted inScope _ _ =>
    .ok ((inScope.removed.map fun p =>
        ⟨"stale_submodule_references", submodule.path,
          "`" ++ p.1 ++ "` was removed from submodule `" ++ submodule.path ++
            "` but is still called from the parent repo"⟩) ++
      inScope.changed.map fun p =>
        ⟨"stale_submodule_references", submodule.path,
          "`" ++ p.1 ++ "`'s signature changed in submodule `" ++ submodule.path ++ "` (was `" ++
            p.2.1.2.1 ++ "`) but the parent repo's call site wasn't verified against the new one"⟩)
  | _ => .ok []

/-! ## The command -/

/-- The findings so far, and which checks were run or left out. -/
structure Progress where
  findings : List Finding
  completed : List String
  skipped : List (String × String)

namespace Progress

def complete (p : Progress) (check : String) (findings : List Finding) : Progress :=
  ⟨p.findings ++ findings, p.completed ++ [check], p.skipped⟩

def skip (p : Progress) (check reason : String) : Progress :=
  { p with skipped := p.skipped ++ [(check, reason)] }

end Progress

def exempt (globs : List String) (path : String) : Bool :=
  globs.any fun glob => globMatches glob path

def checkPhantoms (config : VerifyConfig) (s : SqliteStorage) (targetPaths : List String)
    (submodulesOnly : Bool) (p : Progress) : Progress :=
  if submodulesOnly then
    p.skip "phantom_symbols" "--submodules restricts verification to submodule checks"
  else if !config.rejectUnresolvedPhantomSymbols then
    p.skip "phantom_symbols"
      "disabled: .weave/contracts.yml ai.phantom_symbols.reject_unresolved = false"
  else
    let checkedPaths := targetPaths.filter fun path =>
      !exempt config.phantomSymbolExemptGlobs path
    p.complete "phantom_symbols" (phantomSymbols s checkedPaths)

def checkBoundaries (env : VerifyEnv) (s : SqliteStorage) (scope : Option (List String))
    (p : Progress) : Progress :=
  if env.submodules.isEmpty then
    (p.skip "submodule_boundaries" "no Git submodules registered").skip
      "stale_submodule_references" "no Git submodules registered"
  else
    let p :=
      if env.config.enforceSubmoduleVisibility then
        p.complete "submodule_boundaries" (submoduleEncapsulationViolations env.langExtended
          s.allNodes s.allEdges env.submodules scope)
      else
        p.skip "submodule_boundaries"
          "disabled: .weave/contracts.yml submodules.enforce_visibility = false"
    p.complete "stale_submodule_references" []

def checkGuards (config : VerifyConfig) (s : SqliteStorage) (p : Progress) : Progress :=
  if config.requiredGuards.isEmpty then
    p.skip "required_guards" ("no guards declared: .weave/contracts.yml has no required_guards " ++
      "entries (or policy-lint isn't compiled in, this file's only YAML dependency)")
  else
    p.complete "required_guards"
      (requiredGuardViolations s.allNodes s.allEdges config.requiredGuards)

structure Visit where
  findings : List Finding
  summary : SubmoduleSummary
  incomplete : Bool

def qualifyCommits (env : VerifyEnv) (s : SqliteStorage) (submodule : Submodule) (v : Visit) :
    Except String Visit :=
  if env.config.qualifyChangedCommits then do
    let stale ← staleSubmoduleReferences env s submodule
    .ok { v with findings := v.findings ++ stale }
  else .ok v

def visitSubmodule (env : VerifyEnv) (s : SqliteStorage) (v : Visit) (submodule : Submodule) :
    Except String Visit :=
  match env.submoduleState submodule with
  | .dirty =>
    .ok { v with
      summary := { v.summary with dirty := v.summary.dirty + 1 }
      incomplete := v.incomplete || env.config.rejectDirtyWorkingTree }
  | .uninitialized => .ok { v with incomplete := true }
  | .clean =>
    qualifyCommits env s submodule
      { v with summary := { v.summary with unchanged := v.summary.unchanged + 1 } }
  | .bumped =>
    qualifyCommits env s submodule
      { v with summary := { v.summary with changed := v.summary.changed + 1 } }

def targetPathsOf (s : SqliteStorage) (file : Option String) : List String :=
  match file with
  | some f => [f]
  | none => Text.sortedSet (s.allNodes.map Node.path)

def cmdVerify (env : VerifyEnv) (s : SqliteStorage) (file : Option String)
    (range : Option (Nat × Nat)) (submodulesOnly : Bool) : Except String VerifyReport := do
  let targetPaths := targetPathsOf s file
  let p := checkPhantoms env.config s targetPaths submodulesOnly ⟨[], [], []⟩
  let p := checkBoundaries env s (file.map fun _ => targetPaths) p
  let p := checkGuards env.config s p
  let v ← env.submodules.foldlM (visitSubmodule env s)
    ⟨p.findings, ⟨env.submodules.length, 0, 0, 0⟩, false⟩
  .ok
    { status :=
        if !v.findings.isEmpty then .fail else if v.incomplete then .incomplete else .pass
      targetFile := file
      targetRange := range
      submodules := v.summary
      findings := v.findings
      detectedLanguages := Text.sortedSet (targetPaths.filterMap (languageName env.langExtended))
      completedChecks := p.completed
      skippedChecks := p.skipped }

/-! ## Findings are never dropped -/

section findings

variable {env : VerifyEnv} {s : SqliteStorage}

theorem checkBoundaries_findings (scope : Option (List String)) (p : Progress) :
    p.findings ⊆ (checkBoundaries env s scope p).findings := by
  intro f hf
  unfold checkBoundaries
  split
  · exact hf
  · split
    · exact mem_append_left _ (mem_append_left _ hf)
    · exact mem_append_left _ hf

theorem checkGuards_findings (p : Progress) :
    p.findings ⊆ (checkGuards env.config s p).findings := by
  intro f hf
  unfold checkGuards
  split
  · exact hf
  · exact mem_append_left _ hf

theorem qualifyCommits_findings {submodule : Submodule} {v v' : Visit}
    (h : qualifyCommits env s submodule v = .ok v') : v.findings ⊆ v'.findings := by
  intro f hf
  unfold qualifyCommits at h
  split at h
  · obtain ⟨stale, -, h⟩ := bind_eq_ok.mp h
    cases h
    exact mem_append_left _ hf
  · cases h
    exact hf

theorem visitSubmodule_findings {submodule : Submodule} {v v' : Visit}
    (h : visitSubmodule env s v submodule = .ok v') : v.findings ⊆ v'.findings := by
  unfold visitSubmodule at h
  cases hstate : env.submoduleState submodule with
  | clean =>
    rw [hstate] at h
    exact fun f hf => qualifyCommits_findings h hf
  | bumped =>
    rw [hstate] at h
    exact fun f hf => qualifyCommits_findings h hf
  | uninitialized =>
    rw [hstate] at h
    cases h
    exact fun f hf => hf
  | dirty =>
    rw [hstate] at h
    cases h
    exact fun f hf => hf

variable {file : Option String} {range : Option (Nat × Nat)} {report : VerifyReport}

theorem cmdVerify_findings {submodulesOnly : Bool}
    (h : cmdVerify env s file range submodulesOnly = .ok report) :
    (checkPhantoms env.config s (targetPathsOf s file) submodulesOnly ⟨[], [], []⟩).findings ⊆
      report.findings := by
  obtain ⟨v, hv, h⟩ := bind_eq_ok.mp h
  cases h
  intro f hf
  refine foldlM_invariant (P := fun v : Visit => f ∈ v.findings) ?_ ?_ hv
  · exact fun submodule _ v v' hmem hstep => visitSubmodule_findings hstep hmem
  · exact checkGuards_findings _ (checkBoundaries_findings _ _ hf)

theorem cmdVerify_pass {submodulesOnly : Bool}
    (h : cmdVerify env s file range submodulesOnly = .ok report) (hpass : report.status = .pass) :
    report.findings = [] := by
  obtain ⟨v, -, h⟩ := bind_eq_ok.mp h
  cases h
  cases hv : v.findings with
  | nil => rfl
  | cons f l => simp [hv] at hpass

end findings

/-! ## Phantoms and the files that are looked at -/

section phantoms

variable {s : SqliteStorage} {globs : List String}

/-- An unresolved reference of this repository in a file outside the exempt globs. -/
def Phantom (s : SqliteStorage) (globs : List String) (u : UnresolvedRef) : Prop :=
  u ∈ s.unresolvedRefs ∧ u.repoId = "local" ∧ exempt globs u.path = false

/-- The whole check of the index never ends in `Pass` while there is a phantom. -/
def NeverFalse (s : SqliteStorage) (globs : List String) : Prop :=
  ∀ env range report, env.config.rejectUnresolvedPhantomSymbols = true →
    env.config.phantomSymbolExemptGlobs = globs →
    cmdVerify env s none range false = .ok report → report.status = .pass →
    ∀ u, ¬ Phantom s globs u

theorem mem_getUnresolvedRefsForPath {path name : String} :
    name ∈ s.getUnresolvedRefsForPath "local" path ↔
      (⟨"local", path, name⟩ : UnresolvedRef) ∈ s.unresolvedRefs := by
  unfold SqliteStorage.getUnresolvedRefsForPath
  simp only [mem_map, mem_filter, Bool.and_eq_true, beq_iff_eq]
  constructor
  · rintro ⟨⟨repoId, p, n⟩, ⟨hu, hrepo, hpath⟩, hname⟩
    subst hrepo hpath hname
    exact hu
  · intro hu
    exact ⟨_, ⟨hu, rfl, rfl⟩, rfl⟩

variable {paths : List String}

theorem exists_phantomSymbols :
    phantomSymbols s (paths.filter fun path => !exempt globs path) ≠ [] ↔
      ∃ u, Phantom s globs u ∧ u.path ∈ paths := by
  have hmem : ∀ f, f ∈ phantomSymbols s (paths.filter fun path => !exempt globs path) ↔
      ∃ path, (path ∈ paths ∧ exempt globs path = false) ∧
        ∃ name, (⟨"local", path, name⟩ : UnresolvedRef) ∈ s.unresolvedRefs ∧
          phantomFinding path name = f := by
    intro f
    simp only [phantomSymbols, mem_flatMap, mem_filter, mem_map,
      mem_getUnresolvedRefsForPath, Bool.not_eq_true']
  constructor
  · intro hfound
    obtain ⟨f, hf⟩ := exists_mem_of_ne_nil _ hfound
    obtain ⟨path, ⟨hpath, hout⟩, name, hu, -⟩ := (hmem f).mp hf
    exact ⟨_, ⟨hu, rfl, hout⟩, hpath⟩
  · rintro ⟨⟨repoId, path, name⟩, ⟨hu, hrepo, hout⟩, hpath⟩
    subst hrepo
    exact ne_nil_of_mem ((hmem _).mpr ⟨path, ⟨hpath, hout⟩, name, hu, rfl⟩)

theorem checkPhantoms_findings {config : VerifyConfig}
    (hon : config.rejectUnresolvedPhantomSymbols = true) :
    (checkPhantoms config s paths false ⟨[], [], []⟩).findings =
      phantomSymbols s
        (paths.filter fun path => !exempt config.phantomSymbolExemptGlobs path) := by
  unfold checkPhantoms
  rw [if_neg Bool.false_ne_true, hon, if_neg (by decide)]
  rfl

def plainEnv (globs : List String) : VerifyEnv where
  langExtended := true
  sha256 := id
  config := { phantomSymbolExemptGlobs := globs }
  consumerLabel := "shop"
  submodules := []
  submoduleState _ := .clean
  submoduleMap _ := .ok FinMap.empty

theorem cmdVerify_plain (hnone : phantomSymbols s ((targetPathsOf s none).filter fun path =>
      !exempt globs path) = []) :
    ∃ report, cmdVerify (plainEnv globs) s none none false = .ok report ∧
      report.status = .pass := by
  have hfindings : (checkPhantoms (plainEnv globs).config s (targetPathsOf s none) false
      ⟨[], [], []⟩).findings = [] := (checkPhantoms_findings rfl).trans hnone
  refine ⟨_, rfl, ?_⟩
  show (if !(checkPhantoms (plainEnv globs).config s (targetPathsOf s none) false
      ⟨[], [], []⟩).findings.isEmpty then VerifyStatus.fail else _) = _
  rw [hfindings]
  rfl

end phantoms

/-- **A `Pass` hides no unresolved reference** exactly when one of those outside the exempt globs,
if there are any, is in a file that has a node. -/
theorem neverFalse_iff (s : SqliteStorage) (globs : List String) :
    NeverFalse s globs ↔
      ((∃ u, Phantom s globs u) → ∃ u, Phantom s globs u ∧ ∃ n ∈ s.allNodes, n.path = u.path) := by
  have hpaths : ∀ path, path ∈ targetPathsOf s none ↔ ∃ n ∈ s.allNodes, n.path = path := by
    intro path
    show path ∈ Text.sortedSet _ ↔ _
    rw [Text.mem_sortedSet, mem_map]
  constructor
  · rintro h ⟨u, hu⟩
    by_contra hunseen
    have hnone : phantomSymbols s ((targetPathsOf s none).filter fun path =>
        !exempt globs path) = [] := by
      by_contra hfound
      obtain ⟨u, hu, hpath⟩ := exists_phantomSymbols.mp hfound
      exact hunseen ⟨u, hu, (hpaths _).mp hpath⟩
    obtain ⟨report, hok, hpass⟩ := cmdVerify_plain hnone
    exact h (plainEnv globs) none report rfl rfl hok hpass u hu
  · rintro h env range report hon rfl hok hpass u hu
    obtain ⟨u, hu, hnode⟩ := h ⟨u, hu⟩
    have hfound := exists_phantomSymbols.mpr ⟨u, hu, (hpaths _).mpr hnode⟩
    rw [← checkPhantoms_findings hon] at hfound
    refine hfound (eq_nil_iff_forall_not_mem.mpr fun f hf => ?_)
    have hreported := cmdVerify_findings hok hf
    rw [cmdVerify_pass hok hpass] at hreported
    cases hreported

/-- `run.py` declares nothing and imports a name no file declares. -/
def scriptIndexer : Indexer where
  langExtended := true
  docs := false
  otel := false
  extract path _ :=
    if path = "run.py" then some ⟨[], [], [⟨"<module>", "launch", .imports⟩]⟩
    else some ⟨[⟨"main", .function, 1, 1, "def main()"⟩], [], []⟩
  parseMarkdown _ := ⟨[], [], [], [], []⟩

/-- The import is stored as unresolved, and the check of every indexed file passes. -/
theorem cmdVerify_passes_over_imports : ∃ stats s report,
    scriptIndexer.fullReindex .openFresh
      [⟨"app.py", "def main(): pass"⟩, ⟨"run.py", "from tools import launch"⟩] = .ok (stats, s) ∧
    s.unresolvedRefs = [⟨"local", "run.py", "launch"⟩] ∧
    cmdVerify (plainEnv []) s none none false = .ok report ∧ report.status = .pass ∧
    report.completedChecks = ["phantom_symbols"] := by
  obtain ⟨⟨stats, s⟩, hok, hrefs, hreport⟩ := exists_ok
    (x := scriptIndexer.fullReindex .openFresh
      [⟨"app.py", "def main(): pass"⟩, ⟨"run.py", "from tools import launch"⟩])
    (P := fun r => r.2.unresolvedRefs = [⟨"local", "run.py", "launch"⟩] ∧
      ((cmdVerify (plainEnv []) r.2 none none false).toOption.any fun report =>
        decide (report.status = .pass ∧ report.completedChecks = ["phantom_symbols"])) = true)
    (by decide +kernel)
  obtain ⟨report, hverify, hpass, hcompleted⟩ := exists_ok hreport
  exact ⟨stats, s, report, hok, hrefs, hverify, hpass, hcompleted⟩

end WeaveGraph.Verify
