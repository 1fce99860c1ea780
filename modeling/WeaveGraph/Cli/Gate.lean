import WeaveGraph.Lib.Joined
import WeaveGraph.Cli.Drift

/-!
# The strict contract gate

`check-contracts` reads the recorded map of each linked repository back from its text
(`deserializeEntries_serializeEntries`), compares hashes, lists the differences (`mem_touched`) and,
with `--scoped`, drops those the consumer does not import (`touched_partition`).  Under the strict
policy and without a waiver it fails exactly when some difference is left (`checkFails_iff`); with
no linked repository at all it fails too (`checkFails_unlinked`).
-/

namespace WeaveGraph.Contracts

open List Lib Contract Lib.Text

/-! ## The recorded text -/

section blob

/-- A field that keeps its place in the text. -/
def PlainField (field : String) : Prop :=
  '\n' ∉ field.toList ∧ Char.ofNat 0x1f ∉ field.toList
deriving Decidable

/-- Fields without line end or unit separator, and a line number of 32 bits. -/
@[mk_iff]
structure Storable (p : String × ContractEntry) : Prop where
  symbol : PlainField p.1
  kind : PlainField p.2.1
  signature : PlainField p.2.2.1
  path : PlainField p.2.2.2.1
  line : p.2.2.2.2 < 2 ^ 32

instance (p : String × ContractEntry) : Decidable (Storable p) :=
  decidable_of_iff _ (storable_iff p).symm

variable {p : String × ContractEntry} {m : ContractMap}

def fields (p : String × ContractEntry) : List String :=
  [p.1, p.2.1, p.2.2.1, p.2.2.2.1, toString p.2.2.2.2]

def entryText (p : String × ContractEntry) : String := String.intercalate unitSeparator (fields p)

def readEntry (line : String) : Option (String × ContractEntry) :=
  match splitn (Char.ofNat 0x1f) 5 line with
  | [symbol, kind, signature, path, lineStart] =>
    (parseUnsigned 32 lineStart).map fun n => (symbol, kind, signature, path, n)
  | _ => none

theorem plainField_toString (n : Nat) : PlainField (toString n) :=
  ⟨fun h => absurd (isDigit_of_mem_toString h) (by decide),
    fun h => absurd (isDigit_of_mem_toString h) (by decide)⟩

theorem plainField_of_mem_fields (hp : Storable p) : ∀ field ∈ fields p, PlainField field := by
  simp only [fields, forall_mem_cons]
  exact ⟨hp.symbol, hp.kind, hp.signature, hp.path, plainField_toString _, by simp⟩

theorem readEntry_entryText (hp : Storable p) : readEntry (entryText p) = some p := by
  have hsplit : splitn (Char.ofNat 0x1f) 5 (entryText p) = fields p :=
    splitn_intercalate fun field hfield => (plainField_of_mem_fields hp field hfield).2
  unfold readEntry
  rw [hsplit]
  show (parseUnsigned 32 (toString p.2.2.2.2)).map _ = _
  rw [parseUnsigned_toString hp.line]
  rfl

theorem toList_entryText (p : String × ContractEntry) : (entryText p).toList =
    [Char.ofNat 0x1f].intercalate ((fields p).map String.toList) := by
  rw [entryText, unitSeparator, String.toList_intercalate, String.toList_ofList]

theorem newline_not_mem_entryText (hp : Storable p) : '\n' ∉ (entryText p).toList := by
  have hsep : '\n' ≠ Char.ofNat 0x1f := by decide
  rw [toList_entryText]
  simp only [fields, map_cons, map_nil, intercalate_cons_cons,
    intercalate_singleton, mem_append, mem_singleton, hsep, or_false, not_or]
  exact ⟨hp.symbol.1, hp.kind.1, hp.signature.1, hp.path.1, (plainField_toString _).1⟩

/-- The text of an entry ends in the last digit of its line number. -/
theorem getLast_entryText (p : String × ContractEntry) :
    ∃ c, (entryText p).toList.getLast? = some c ∧ c ≠ '\r' := by
  obtain ⟨c, hlast, hdigit⟩ := getLast?_toString p.2.2.2.2
  refine ⟨c, ?_, ?_⟩
  · rw [toList_entryText]
    simp only [fields, map_cons, map_nil, intercalate_cons_cons,
      intercalate_singleton, getLast?_append, hlast, Option.some_or]
  · rintro rfl
    exact absurd hdigit (by decide)

theorem deserializeEntries_serializeEntries (hm : ∀ p ∈ m.entries, Storable p) (k : String) :
    (deserializeEntries (serializeEntries m)).get k = m.get k := by
  let texts := (m.entries.map entryText).insertionSort (· ≤ ·)
  have htexts : texts.Perm (m.entries.map entryText) := perm_insertionSort _ _
  have hmem : ∀ t ∈ texts, ∃ p ∈ m.entries, entryText p = t := fun t ht =>
    mem_map.mp (htexts.mem_iff.mp ht)
  have hlines : lines (serializeEntries m) = texts := by
    refine lines_intercalate (fun t ht => ?_) fun t ht => ?_
    · obtain ⟨p, hp, rfl⟩ := hmem t ht
      exact newline_not_mem_entryText (hm p hp)
    · obtain ⟨p, -, rfl⟩ := hmem t ht
      exact getLast_entryText p
  have hread : (texts.filterMap readEntry).Perm m.entries := by
    have hentries : m.entries.filterMap (readEntry ∘ entryText) = m.entries :=
      (filterMap_congr fun p hp => readEntry_entryText (hm p hp)).trans filterMap_some
    refine (htexts.filterMap readEntry).trans ?_
    rw [filterMap_map, hentries]
  have hdistinct : ((texts.filterMap readEntry).map Prod.fst).Nodup :=
    (hread.map Prod.fst).nodup_iff.mpr m.distinct
  refine Option.ext fun e => ?_
  rw [FinMap.get_eq_some, FinMap.get_eq_some]
  show (k, e) ∈ (FinMap.ofList ((lines (serializeEntries m)).filterMap readEntry)).entries ↔ _
  rw [hlines, FinMap.mem_ofList, survivors_of_distinct hdistinct, hread.mem_iff]

end blob

/-! ## Symbols a difference touches -/

theorem isEmpty_eq_false_iff {ν : Type} (d : ContractDiff ν) :
    d.isEmpty = false ↔ ∃ k, k ∈ touched d := by
  rw [← Bool.not_eq_true, isEmpty_iff_touched, not_forall]
  simp only [not_not]

theorem touched_partition (d : ContractDiff ContractEntry) (imported : List String) :
    touched (partitionByScope d imported).1 = (touched d).filter imported.contains := by
  simp only [touched, partitionByScope, filter_append, filter_map]
  rfl

/-! ## One provider -/

section provider

variable {env : CheckEnv} {s : SqliteStorage} {showDiff isScoped : Bool}
  {waiver : CheckContractsWaiver} {policy : String}

/-- The symbol has another kind or signature in the other map, or is missing there. -/
def Differs (expected actual : ContractMap) (symbol : String) : Prop :=
  (expected.get symbol).map contractKey ≠ (actual.get symbol).map contractKey

/-- Nothing is set that lets drift through. -/
@[mk_iff]
structure Unwaived (waiver : CheckContractsWaiver) : Prop where
  skip : isTruthy waiver.skipEnv = false
  allowDrift : waiver.allowDrift = false
  allowDriftFor : waiver.allowDriftFor = none
  warnOnly : waiver.warnOnly = false
  repos : parseRepoSet waiver.allowDriftReposEnv = []
  notWarn : waiver.stalenessOverrideEnv ≠ some "warn"
  notIgnore : waiver.stalenessOverrideEnv ≠ some "ignore"

instance (waiver : CheckContractsWaiver) : Decidable (Unwaived waiver) :=
  decidable_of_iff _ (unwaived_iff waiver).symm

def Records (sha256 : String → String) (consumerLabel : String) (s : SqliteStorage)
    (label : String) (m : ContractMap) : Prop :=
  ∃ sha, ((s.contractExpectations consumerLabel).find? fun e => e.1 == label) =
    some (label, contractHashOf sha256 m, sha, serializeEntries m)

/-- With `--scoped` and a readable federated graph, an imported symbol. -/
def Counts (isScoped : Bool) (provider : Provider) (symbol : String) : Prop :=
  isScoped = true → ∀ imported, provider.imported = .ok imported → symbol ∈ imported

/-- Some symbol that counts differs from what was recorded. -/
def Blocked (isScoped : Bool) (recorded : ContractMap) (provider : Provider) : Prop :=
  ∃ symbol, Counts isScoped provider symbol ∧ Differs recorded provider.contractMap symbol

variable {recorded actual : ContractMap}

theorem mem_touched_recorded (hstorable : ∀ p ∈ recorded.entries, Storable p) (symbol : String) :
    symbol ∈ touched (diffContracts (deserializeEntries (serializeEntries recorded)) actual
      fun e => (e.1, e.2.1)) ↔ Differs recorded actual symbol := by
  rw [mem_touched, deserializeEntries_serializeEntries hstorable]
  rfl

theorem contractHashOf_eq_iff_differs {sha256 : String → String} (hsha : Function.Injective sha256)
    (hrecorded : ∀ p ∈ recorded.entries, Collapsed p) (hactual : ∀ p ∈ actual.entries, Collapsed p)
    :
    contractHashOf sha256 actual = contractHashOf sha256 recorded ↔
      ∀ symbol, ¬ Differs recorded actual symbol := by
  rw [eq_comm, contractHashOf_eq_iff_keyed hsha hrecorded hactual, keyed_perm_iff]
  simp only [Differs, not_not]

theorem mem_blocking {provider : Provider} {d : ContractDiff ContractEntry} {symbol : String} :
    symbol ∈ touched (scopeDiff isScoped provider d).2.1 ↔
      Counts isScoped provider symbol ∧ symbol ∈ touched d := by
  unfold scopeDiff Counts
  cases isScoped with
  | false => simp
  | true =>
    cases himported : provider.imported with
    | error e => simp
    | ok imported =>
      simp only [if_true, touched_partition, mem_filter, contains_eq_mem,
        decide_eq_true_eq, Except.ok.injEq, forall_const, forall_eq']
      exact and_comm

/-- One step of the loop counts the provider exactly when it is blocked. -/
theorem checkProvider_diverged {provider : Provider} (hsha : Function.Injective env.sha256)
    (hrecords : Records env.sha256 env.consumerLabel s provider.label recorded)
    (hstorable : ∀ p ∈ recorded.entries, Storable p)
    (hrecorded : ∀ p ∈ recorded.entries, Collapsed p)
    (hactual : ∀ p ∈ provider.contractMap.entries, Collapsed p) (hw : Unwaived waiver) (t : Tally) :
    0 < (checkProvider env (s.contractExpectations env.consumerLabel) showDiff isScoped waiver []
        policy t provider).diverged ↔
      0 < t.diverged ∨ Blocked isScoped recorded provider := by
  obtain ⟨sha, hfind⟩ := hrecords
  have hhash := contractHashOf_eq_iff_differs hsha hrecorded hactual
  unfold checkProvider
  rw [hfind]
  dsimp only
  by_cases hsame : contractHashOf env.sha256 provider.contractMap =
      contractHashOf env.sha256 recorded
  · -- nothing differs, and the provider is up to date
    rw [if_pos hsame]
    have hnot : ¬ Blocked isScoped recorded provider :=
      fun ⟨symbol, _, hdiffers⟩ => hhash.mp hsame symbol hdiffers
    simp [hnot, Tally.print]
  · rw [if_neg hsame]
    have hblocked : Blocked isScoped recorded provider ↔
        (scopeDiff isScoped provider (diffContracts (deserializeEntries (serializeEntries
          recorded)) provider.contractMap fun e => (e.1, e.2.1))).2.1.isEmpty = false := by
      simp only [isEmpty_eq_false_iff, mem_blocking, mem_touched_recorded hstorable]
      rfl
    have hunscoped : isScoped = false → Blocked isScoped recorded provider := by
      intro hfalse
      obtain ⟨symbol, hdiffers⟩ : ∃ symbol, Differs recorded provider.contractMap symbol := by
        by_contra hnone
        exact hsame (hhash.mpr (not_exists.mp hnone))
      exact ⟨symbol, fun htrue => absurd (hfalse.symm.trans htrue) Bool.false_ne_true, hdiffers⟩
    rw [hw.allowDrift, hw.allowDriftFor]
    cases hscope : scopeDiff isScoped provider (diffContracts (deserializeEntries
      (serializeEntries recorded)) provider.contractMap fun e => (e.1, e.2.1)) with
    | mk notes parts =>
      rw [hscope] at hblocked
      cases hempty : parts.1.isEmpty with
      | true =>
        have hnot : ¬ Blocked isScoped recorded provider := by
          rw [hblocked, hempty]
          decide
        have hscoped : isScoped = true := by
          by_contra hfalse
          exact hnot (hunscoped (Bool.not_eq_true _ ▸ hfalse))
        simp [hscoped, Tally.print, hscoped ▸ hnot]
      | false =>
        have hyes := hblocked.mpr hempty
        simp [hyes, Tally.print]

theorem strict_isOk (diverged : Nat) (output : List String) (hpolicy : policy = "strict") :
    (if diverged > 0 && policy = "strict" then (output, Except.error strictDivergence)
      else (output, .ok ())).2.isOk = false ↔ 0 < diverged := by
  by_cases h : 0 < diverged
  · rw [if_pos (by simp [h, hpolicy])]
    exact iff_of_true rfl h
  · rw [if_neg (by simp [h])]
    exact iff_of_false (fun hok => by cases hok) h

/-- With linked repositories, a strict policy and no waiver only the count decides. -/
theorem checkFails_iff_diverged (s : SqliteStorage) (showDiff isScoped : Bool)
    (hstrict : env.stalenessPolicy = "strict") (hlinked : env.linked ≠ []) (hw : Unwaived waiver) :
    ∃ policy, CheckFails env s showDiff isScoped waiver ↔
      0 < (env.linked.foldl (checkProvider env (s.contractExpectations env.consumerLabel) showDiff
        isScoped waiver [] policy) ⟨0, 0, 0, 0, []⟩).diverged := by
  have hempty : env.linked.isEmpty = false := by simpa using hlinked
  unfold CheckFails cmdCheckContracts
  simp only [hw.skip, hw.allowDrift, hw.allowDriftFor, hw.repos, hw.warnOnly, hempty,
    Bool.false_eq_true, if_false, Option.isSome_none, Bool.or_self, isEmpty_nil, if_true,
    Bool.not_false, Bool.and_true]
  refine ⟨_, strict_isOk _ _ ?_⟩
  split
  · rename_i h
    exact absurd h hw.notWarn
  · rename_i h
    exact absurd h hw.notIgnore
  · exact hstrict

end provider

/-! ## Linked repositories -/

/-- The symbols of `label` that a federated graph has an edge of another repository into. -/
def importedSymbols (label : String) (graph : SqliteStorage) : List String :=
  let nodeById := graph.allNodes.map fun n => (n.id, n)
  (((graph.allEdges.filter fun e => e.kind == "CROSS_REPO").filterMap fun e =>
    lookupLast e.targetId nodeById).filter fun target => target.repoId == label).map Node.symbol

/-- A linked repository: its directory name, its files when the expectation was recorded and its
files now, and the federated graph if one can be read. -/
structure LinkedRepo where
  label : String
  recorded : List (String × ParsedFile)
  current : List (String × ParsedFile)
  graph : Except String SqliteStorage

def LinkedRepo.provider (langExtended : Bool) (r : LinkedRepo) : Provider :=
  ⟨r.label, repoContractMap langExtended r.current, r.graph.map (importedSymbols r.label)⟩

/-- The symbol is the target of a `CROSS_REPO` edge into the repository `label`. -/
def ImportedFrom (label : String) (graph : SqliteStorage) (symbol : String) : Prop :=
  ∃ e ∈ graph.allEdges, e.kind = "CROSS_REPO" ∧
    ∃ n ∈ graph.allNodes, n.id = e.targetId ∧ n.repoId = label ∧ n.symbol = symbol

section linked

variable {langExtended : Bool}

theorem mem_importedSymbols {label symbol : String} {graph : SqliteStorage} :
    symbol ∈ importedSymbols label graph ↔ ImportedFrom label graph symbol := by
  have hdistinct : ((graph.allNodes.map fun n => (n.id, n)).map Prod.fst).Nodup := by
    rw [map_map]
    exact graph.nodes.pk_nodup
  unfold importedSymbols ImportedFrom
  simp only [mem_map, mem_filter, mem_filterMap, beq_iff_eq,
    lookupLast_of_distinct hdistinct, Prod.mk.injEq]
  constructor
  · rintro ⟨target, ⟨⟨e, ⟨he, hkind⟩, n, hn, hid, rfl⟩, hrepo⟩, hsymbol⟩
    exact ⟨e, he, hkind, n, hn, hid, hrepo, hsymbol⟩
  · rintro ⟨e, he, hkind, n, hn, hid, hrepo, hsymbol⟩
    exact ⟨n, ⟨⟨e, ⟨he, hkind⟩, n, hn, hid, rfl⟩, hrepo⟩, hsymbol⟩

theorem counts_iff {isScoped : Bool} {r : LinkedRepo} {symbol : String} :
    Counts isScoped (r.provider langExtended) symbol ↔
      (isScoped = true → ∀ graph, r.graph = .ok graph → ImportedFrom r.label graph symbol) := by
  unfold Counts LinkedRepo.provider
  refine imp_congr_right fun _ => ?_
  cases r.graph with
  | error e => simp [Except.map]
  | ok graph => simp [Except.map, mem_importedSymbols]

theorem collapsed_of_storable {files : List (String × ParsedFile)} {p : String × ContractEntry}
    (hp : p ∈ (repoContractMap langExtended files).entries) (hstorable : Storable p)
    (hsymbol : ' ' ∉ p.1.toList) : Collapsed p := by
  obtain ⟨file, -, s, -, rfl⟩ := exists_symbol_of_mem_repoContractMap hp
  exact ⟨space_not_mem_asStr s.kind, hsymbol, trim_trim _, hstorable.signature.1⟩

/-- What `weave link` writes is what the check finds. -/
theorem records_recordOneSide (sha256 : String → String) (s : SqliteStorage)
    (consumerLabel label sha : String) (m : ContractMap) :
    Records sha256 consumerLabel (recordOneSide sha256 s consumerLabel label sha m) label m := by
  refine ⟨sha, ?_⟩
  unfold recordOneSide SqliteStorage.upsertContract SqliteStorage.contractExpectations
  rw [filterMap_append, find?_append, find?_eq_none.mpr]
  · simp
  · intro e he
    obtain ⟨c, hc, hrow⟩ := mem_filterMap.mp he
    have hother := (mem_filter.mp hc).2
    split at hrow
    · rename_i hservice
      obtain ⟨hash, -, rfl⟩ := Option.map_eq_some_iff.mp hrow
      simpa [hservice] using hother
    · cases hrow

end linked

/-- Symbols without a space, in fields without line end or unit separator. -/
def Sound (langExtended : Bool) (files : List (String × ParsedFile)) : Prop :=
  ∀ p ∈ (repoContractMap langExtended files).entries, Storable p ∧ ' ' ∉ p.1.toList
deriving Decidable

/-- **The strict gate is exact**: with a linked repository and no waiver the check fails exactly
when some repository differs from what was recorded about it in a symbol that counts. -/
theorem checkFails_iff (langExtended : Bool) (env : CheckEnv) (repos : List LinkedRepo)
    (hlinked : env.linked = repos.map (LinkedRepo.provider langExtended)) (hne : repos ≠ [])
    (hsha : Function.Injective env.sha256) (hstrict : env.stalenessPolicy = "strict")
    (s : SqliteStorage) (hrecords : ∀ r ∈ repos, Records env.sha256 env.consumerLabel s r.label
      (repoContractMap langExtended r.recorded))
    (hsound : ∀ r ∈ repos, Sound langExtended r.recorded ∧ Sound langExtended r.current)
    (waiver : CheckContractsWaiver) (hw : Unwaived waiver) (showDiff isScoped : Bool) :
    CheckFails env s showDiff isScoped waiver ↔
      ∃ r ∈ repos, ∃ symbol,
        (isScoped = true → ∀ graph, r.graph = .ok graph → ImportedFrom r.label graph symbol) ∧
        Differs (repoContractMap langExtended r.recorded) (repoContractMap langExtended r.current)
          symbol := by
  obtain ⟨policy, hfails⟩ := checkFails_iff_diverged s showDiff isScoped hstrict
    (by simpa [hlinked] using hne) hw
  have hstep : ∀ r ∈ repos, ∀ t, 0 < (checkProvider env (s.contractExpectations
      env.consumerLabel) showDiff isScoped waiver [] policy t (r.provider langExtended)).diverged ↔
      0 < t.diverged ∨ Blocked isScoped (repoContractMap langExtended r.recorded)
        (r.provider langExtended) := by
    intro r hr t
    obtain ⟨hrecorded, hcurrent⟩ := hsound r hr
    exact checkProvider_diverged hsha (hrecords r hr) (fun p hp => (hrecorded p hp).1)
      (fun p hp => collapsed_of_storable hp (hrecorded p hp).1 (hrecorded p hp).2)
      (fun p hp => collapsed_of_storable hp (hcurrent p hp).1 (hcurrent p hp).2) hw t
  rw [hfails, hlinked, foldl_map, foldl_iff_exists (P := fun t : Tally => 0 < t.diverged) hstep]
  simp only [Nat.lt_irrefl, false_or, Blocked, counts_iff]
  rfl

/-- `main` of the consumer calls `f` of `auth`. -/
def federatedGraph : SqliteStorage :=
  { SqliteStorage.openFresh with
    nodes := (SqliteStorage.insertFreshNodes Table.empty
      [⟨0, "shop", "m.rs", "main", "function", 1, 1, "fn main()"⟩,
        ⟨0, "auth", "a.rs", "f", "function", 1, 1, "pub fn f()"⟩]).2
    edges := SqliteStorage.upsertEdges Table.empty [⟨0, 1, 2, "CROSS_REPO", "rust", none⟩] }

/-- `auth` changed `f` after it was linked. -/
def authRepo : LinkedRepo where
  label := "auth"
  recorded := [exportsOne "a.rs" "f" "pub fn f()"]
  current := [exportsOne "a.rs" "f" "pub fn f(x: u8)"]
  graph := .ok federatedGraph

def gateEnv (linked : List Provider) : CheckEnv where
  sha256 := id
  authorize _ := .ok ()
  linked := linked
  stalenessPolicy := "strict"
  consumerLabel := "shop"

theorem checkFails_iff_imported :
    CheckFails (gateEnv [authRepo.provider true])
      (recordOneSide id .openFresh "shop" "auth" "c0ffee" (repoContractMap true authRepo.recorded))
      true true noWaiver := by
  refine (checkFails_iff true (gateEnv [authRepo.provider true]) [authRepo] rfl
    (cons_ne_nil _ _) Function.injective_id rfl _ ?_ ?_ noWaiver (by decide) true true).mpr ?_
  · intro r hr
    obtain rfl := mem_singleton.mp hr
    exact records_recordOneSide _ _ _ _ _ _
  · intro r hr
    obtain rfl := mem_singleton.mp hr
    decide
  · refine ⟨authRepo, mem_singleton_self _, "f", fun _ graph hgraph => ?_, ?_⟩
    · cases hgraph
      unfold ImportedFrom
      decide
    · unfold Differs
      decide

/-- With nothing linked there is nothing to differ, and the command fails. -/
theorem checkFails_unlinked :
    (gateEnv []).linked = [] ∧ Unwaived noWaiver ∧
      CheckFails (gateEnv []) .openFresh false false noWaiver := by
  refine ⟨rfl, by decide, ?_⟩
  unfold CheckFails
  decide

end WeaveGraph.Contracts
