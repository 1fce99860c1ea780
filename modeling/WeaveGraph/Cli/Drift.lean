import WeaveGraph.Cli.Contracts

/-!
# Contract drift

`check-contracts` compares two hashes and lists differences only when they disagree, so the text
under the hash has to determine what `diff_contracts` compares: the symbols, each with its kind and
signature (`keyed`).  A line is read back from its text as kind, symbol and signature when the
first two have no space and the last no line end (`contractLine_read`).
-/

namespace WeaveGraph.Contracts

open List Lib Contract

/-! ## What the difference compares -/

section keyed

variable {ν κ : Type} {m expected actual : FinMap String ν} {contractKey : ν → κ}

/-- The symbols of a map, each with the part of its entry that defines the contract. -/
def keyed (contractKey : ν → κ) (m : FinMap String ν) : List (String × κ) :=
  m.entries.map fun p => (p.1, contractKey p.2)

theorem keyed_nodup (contractKey : ν → κ) (m : FinMap String ν) : (keyed contractKey m).Nodup := by
  refine List.Nodup.of_map Prod.fst ?_
  rw [keyed, map_map]
  exact m.distinct

variable {k : String}

theorem mem_keyed {w : κ} : (k, w) ∈ keyed contractKey m ↔ (m.get k).map contractKey = some w := by
  simp only [keyed, mem_map, Option.map_eq_some_iff, FinMap.get_eq_some, Prod.mk.injEq]
  constructor
  · rintro ⟨⟨k, v⟩, hp, rfl, rfl⟩
    exact ⟨v, hp, rfl⟩
  · rintro ⟨v, hp, rfl⟩
    exact ⟨(k, v), hp, rfl, rfl⟩

theorem keyed_perm_iff : (keyed contractKey expected).Perm (keyed contractKey actual) ↔
    ∀ k, (expected.get k).map contractKey = (actual.get k).map contractKey := by
  rw [perm_ext_iff_of_nodup (keyed_nodup _ _) (keyed_nodup _ _)]
  constructor
  · intro h k
    refine Option.ext fun w => ?_
    rw [← mem_keyed, ← mem_keyed]
    exact h (k, w)
  · rintro h ⟨k, w⟩
    rw [mem_keyed, mem_keyed, h k]

variable [DecidableEq κ]

theorem mem_added : k ∈ (diffContracts expected actual contractKey).added.map Prod.fst ↔
      expected.get k = none ∧ ∃ v, actual.get k = some v := by
  simp only [diffContracts, mem_map, mem_insertionSort, mem_filter,
    Option.isNone_iff_eq_none, Prod.exists, FinMap.get_eq_some]
  constructor
  · rintro ⟨k, v, ⟨hv, hnone⟩, rfl⟩
    exact ⟨hnone, v, hv⟩
  · rintro ⟨hnone, v, hv⟩
    exact ⟨k, v, ⟨hv, hnone⟩, rfl⟩

theorem mem_removed : k ∈ (diffContracts expected actual contractKey).removed.map Prod.fst ↔
      actual.get k = none ∧ ∃ v, expected.get k = some v := by
  show k ∈ (diffContracts actual expected contractKey).added.map Prod.fst ↔ _
  exact mem_added

theorem mem_changed : k ∈ (diffContracts expected actual contractKey).changed.map Prod.fst ↔
      ∃ old v, expected.get k = some old ∧ actual.get k = some v ∧
        contractKey old ≠ contractKey v := by
  simp only [diffContracts, mem_map, mem_insertionSort, mem_filterMap,
    Prod.exists, ← FinMap.get_eq_some]
  constructor
  · rintro ⟨k', old, v', ⟨k'', v, hv, hsome⟩, rfl⟩
    cases hold : expected.get k'' with
    | none =>
      rw [hold] at hsome
      cases hsome
    | some o =>
      rw [hold] at hsome
      dsimp only at hsome
      split at hsome
      · rename_i hne
        cases hsome
        exact ⟨old, v', hold, hv, hne⟩
      · cases hsome
  · rintro ⟨old, v, hold, hv, hne⟩
    refine ⟨k, old, v, ⟨k, v, hv, ?_⟩, rfl⟩
    rw [hold]
    exact if_pos hne

def touched (d : ContractDiff ν) : List String :=
  d.added.map Prod.fst ++ d.removed.map Prod.fst ++ d.changed.map Prod.fst

theorem mem_touched : k ∈ touched (diffContracts expected actual contractKey) ↔
    (expected.get k).map contractKey ≠ (actual.get k).map contractKey := by
  rw [touched, mem_append, mem_append, mem_added, mem_removed, mem_changed]
  cases expected.get k with
  | none =>
    cases actual.get k with
    | none => simp
    | some v => simp
  | some old =>
    cases actual.get k with
    | none => simp
    | some v => simp

theorem isEmpty_iff_touched (d : ContractDiff ν) : d.isEmpty = true ↔ ∀ k, k ∉ touched d := by
  rw [← eq_nil_iff_forall_not_mem]
  simp [ContractDiff.isEmpty, touched, and_assoc]

theorem diffContracts_isEmpty : (diffContracts expected actual contractKey).isEmpty = true ↔
    (keyed contractKey expected).Perm (keyed contractKey actual) := by
  simp only [isEmpty_iff_touched, mem_touched, not_not, keyed_perm_iff]

end keyed

/-! ## What the hash covers -/

def contractKey (e : ContractEntry) : String × String := (e.1, e.2.1)

/-- An entry whose line is read back: a kind and a symbol of one word and a trimmed signature on
one line. -/
@[mk_iff]
structure Collapsed (p : String × ContractEntry) : Prop where
  kind : ' ' ∉ p.2.1.toList
  symbol : ' ' ∉ p.1.toList
  trimmed : Text.trim p.2.2.1 = p.2.2.1
  signature : '\n' ∉ p.2.2.1.toList

instance (p : String × ContractEntry) : Decidable (Collapsed p) :=
  decidable_of_iff _ (collapsed_iff p).symm

section hash

variable {p q : String × ContractEntry} {m m' : ContractMap}

theorem contractLine_congr (hsymbol : p.1 = q.1) (hkey : contractKey p.2 = contractKey q.2) :
    contractLine p = contractLine q := by
  obtain ⟨hkind, hsignature⟩ := Prod.mk.inj hkey
  rw [contractLine, contractLine, hsymbol, hkind, hsignature]

theorem toList_contractLine (hp : Collapsed p) : (contractLine p).toList =
    p.2.1.toList ++ ' ' :: (p.1.toList ++ ' ' :: (':' :: ':' :: ' ' :: p.2.2.1.toList)) := by
  simp [contractLine, canonicalLine, hp.trimmed]

theorem contractLine_read (hp : Collapsed p) (hq : Collapsed q) {x y : List Char}
    (h : (contractLine p).toList ++ '\n' :: x = (contractLine q).toList ++ '\n' :: y) :
    p.1 = q.1 ∧ contractKey p.2 = contractKey q.2 ∧ x = y := by
  rw [toList_contractLine hp, toList_contractLine hq] at h
  simp only [append_assoc, cons_append] at h
  obtain ⟨hkind, h⟩ := Text.append_sep_inj hp.kind hq.kind h
  obtain ⟨hsymbol, h⟩ := Text.append_sep_inj hp.symbol hq.symbol h
  simp only [List.cons.injEq, true_and] at h
  obtain ⟨hsignature, hrest⟩ := Text.append_sep_inj hp.signature hq.signature h
  refine ⟨String.toList_inj.mp hsymbol, ?_, hrest⟩
  rw [contractKey, contractKey, String.toList_inj.mp hkind, String.toList_inj.mp hsignature]

/-- Some entry that is read back has this line. -/
def IsContractLine (l : String) : Prop := ∃ p, Collapsed p ∧ contractLine p = l

theorem readable_contractLine : Text.Readable IsContractLine := by
  rintro _ _ ⟨p, hp, rfl⟩ ⟨q, hq, rfl⟩ x y h
  obtain ⟨hsymbol, hkey, hrest⟩ := contractLine_read hp hq h
  exact ⟨contractLine_congr hsymbol hkey, hrest⟩

theorem contractLine_inj (hp : Collapsed p) (hq : Collapsed q) :
    contractLine p = contractLine q ↔ p.1 = q.1 ∧ contractKey p.2 = contractKey q.2 := by
  refine ⟨fun h => ?_, fun h => contractLine_congr h.1 h.2⟩
  obtain ⟨hsymbol, hkey, -⟩ := contractLine_read hp hq (congrArg (·.toList ++ ['\n']) h)
  exact ⟨hsymbol, hkey⟩

theorem lines_perm_iff (hm : ∀ p ∈ m.entries, Collapsed p) (hm' : ∀ p ∈ m'.entries, Collapsed p) :
    (m.entries.map contractLine).Perm (m'.entries.map contractLine) ↔
      (keyed contractKey m).Perm (keyed contractKey m') := by
  have hline : ∀ m : ContractMap, m.entries.map contractLine =
      (keyed contractKey m).map fun x => canonicalLine x.1 x.2.1 x.2.2 := by
    intro m
    rw [keyed, map_map]
    rfl
  have hsub : ∀ {m m' : ContractMap}, (∀ p ∈ m.entries, Collapsed p) →
      (∀ p ∈ m'.entries, Collapsed p) →
      m.entries.map contractLine ⊆ m'.entries.map contractLine →
      keyed contractKey m ⊆ keyed contractKey m' := by
    intro m m' hm hm' h x hx
    obtain ⟨p, hp, rfl⟩ := mem_map.mp hx
    obtain ⟨q, hq, hqp⟩ := mem_map.mp (h (mem_map_of_mem hp))
    obtain ⟨hsymbol, hkey⟩ := (contractLine_inj (hm' q hq) (hm p hp)).mp hqp
    exact mem_map.mpr ⟨q, hq, by rw [hsymbol, hkey]⟩
  constructor
  · intro h
    refine (perm_ext_iff_of_nodup (keyed_nodup _ _) (keyed_nodup _ _)).mpr fun x => ?_
    exact ⟨fun hx => hsub hm hm' h.subset hx, fun hx => hsub hm' hm h.symm.subset hx⟩
  · intro h
    rw [hline m, hline m']
    exact h.map _

variable {files : List (String × ParsedFile)}

/-- Every entry of a repository's own map is a declaration of one of its files, with its signature
trimmed. -/
theorem exists_symbol_of_mem_repoContractMap {langExtended : Bool}
    (hp : p ∈ (repoContractMap langExtended files).entries) : ∃ file ∈ files, ∃ s ∈ file.2.symbols,
      p = (s.symbol, s.kind.asStr, Text.trim s.signature, file.1, s.lineStart) := by
  rw [mem_repoContractMap] at hp
  obtain ⟨file, hfile, hp⟩ := mem_flatMap.mp (mem_of_mem_survivors hp)
  cases hlanguage : Language.fromPath langExtended file.1 with
  | none =>
    rw [hlanguage] at hp
    cases hp
  | some language =>
    rw [hlanguage] at hp
    obtain ⟨q, hq, rfl⟩ := mem_map.mp hp
    obtain ⟨s, hs, rfl⟩ := mem_map.mp hq
    exact ⟨file, hfile, s, (mem_filter.mp hs).1, rfl⟩

theorem space_not_mem_asStr (kind : SymbolKind) : ' ' ∉ kind.asStr.toList := by
  cases kind <;> decide

theorem contractHashOf_eq_iff_keyed {sha256 : String → String}
    (hsha : Function.Injective sha256) (hm : ∀ p ∈ m.entries, Collapsed p)
    (hm' : ∀ p ∈ m'.entries, Collapsed p) :
    contractHashOf sha256 m = contractHashOf sha256 m' ↔
      (keyed contractKey m).Perm (keyed contractKey m') := by
  have hlines : ∀ {m : ContractMap}, (∀ p ∈ m.entries, Collapsed p) →
      ∀ p ∈ m.entries, IsContractLine (contractLine p) := fun hm p hp => ⟨p, hm p hp, rfl⟩
  rw [contractHashOf_eq_iff hsha readable_contractLine (hlines hm) (hlines hm'),
    lines_perm_iff hm hm']

end hash

/-- **The hash and the listed differences agree**: maps of collapsed entries have the same hash
exactly when no symbol is added, removed or changed. -/
theorem contractHashOf_eq_iff_diff (sha256 : String → String) (hsha : Function.Injective sha256)
    (expected actual : ContractMap) (hexpected : ∀ p ∈ expected.entries, Collapsed p)
    (hactual : ∀ p ∈ actual.entries, Collapsed p) :
    contractHashOf sha256 expected = contractHashOf sha256 actual ↔
      (diffContracts expected actual fun e => (e.1, e.2.1)).isEmpty = true := by
  rw [contractHashOf_eq_iff_keyed hsha hexpected hactual]
  exact diffContracts_isEmpty.symm

def oneEntry (symbol kind signature path : String) (line : Nat) : ContractMap :=
  FinMap.empty.insert symbol (kind, signature, path, line)

/-- A function that moved has the same hash; one that takes another argument does not. -/
theorem contractHashOf_eq_iff_diff_moved :
    contractHashOf id (oneEntry "f" "function" "pub fn f()" "a.rs" 1) =
        contractHashOf id (oneEntry "f" "function" "pub fn f()" "b.rs" 9) ∧
    contractHashOf id (oneEntry "f" "function" "pub fn f()" "a.rs" 1) ≠
        contractHashOf id (oneEntry "f" "function" "pub fn f(x: u8)" "a.rs" 1) := by
  constructor
  · exact (contractHashOf_eq_iff_diff id Function.injective_id _ _ (by decide) (by decide)).mpr
      (by decide)
  · intro h
    revert h
    decide

/-- A map whose symbols have no space and whose signatures are trimmed. -/
def Trimmed (m : ContractMap) : Prop :=
  ∀ p ∈ m.entries, Text.trim p.2.2.1 = p.2.2.1 ∧ ' ' ∉ p.1.toList
deriving Decidable

/-- A signature over two lines reads as two entries, and a kind with spaces as another symbol: the
hashes agree and the maps do not. -/
theorem contractHashOf_collides :
    (let m := oneEntry "f" "function" "a\nfunction g :: b" "a.rs" 1
     let m' := (oneEntry "f" "function" "a" "a.rs" 1).insert "g" ("function", "b", "a.rs", 2)
     Trimmed m ∧ Trimmed m' ∧ contractHashOf id m = contractHashOf id m' ∧
      (diffContracts m m' fun e => (e.1, e.2.1)).isEmpty = false) ∧
    (let m := oneEntry "f" "function" "a g :: b" "a.rs" 1
     let m' := oneEntry "g" "function f :: a" "b" "a.rs" 1
     Trimmed m ∧ Trimmed m' ∧ contractHashOf id m = contractHashOf id m' ∧
      (diffContracts m m' fun e => (e.1, e.2.1)).isEmpty = false) := by
  decide

end WeaveGraph.Contracts
