import WeaveGraph.Parse.Resolve

/-!
# Links between monikers

A `Link` is an edge between monikers.  The links of a reference are determined by how many
candidates its name has, and how many of them in its own file (`Ref.verdict`): it links its source
to all candidates or to those of its own file, all under one kind and one resolution
(`Ref.mem_links`).

As long as no two files form the same moniker (`OneFileEach`), a moniker determines its file and its
symbol, and so a source, a target and a kind determine the resolution of a link
(`Ref.resolution_eq`).
-/

namespace WeaveGraph

open List

structure Link where
  source : String
  target : String
  kind : String
  resolution : ResolutionKind
deriving Repr, DecidableEq

/-- The two links have one key: the later of them replaces the other. -/
def Link.SameEnds (l l' : Link) : Prop :=
  l.source = l'.source ∧ l.target = l'.target ∧ l.kind = l'.kind

/-- A call that is not a member call: it is exact when a single candidate is left. -/
def Ref.isPlainCall : Ref → Bool
  | .call c => !c.isMemberCall
  | .structural _ => false

/-- How a reference resolves. -/
structure Verdict where
  ownFile : Bool
  kind : String
  resolution : ResolutionKind
deriving Repr, DecidableEq

namespace Ref

/-- The candidates of the source's own file. -/
def own (candidates : List String) (source : String) : List String :=
  candidates.filter fun m => fileOf m == fileOf source

def verdict (r : Ref) (candidates : List String) : Verdict :=
  match r with
  | .call c =>
    if c.isMemberCall then ⟨false, "CALLS_DYNAMIC", .ambiguousHeuristic⟩
    else if (own candidates c.callerMoniker).length = 1 then ⟨true, "CALLS_EXACT", .sameFileExact⟩
    else if candidates.length = 1 then ⟨false, "CALLS_EXACT", .uniqueGlobalExact⟩
    else ⟨false, "CALLS_DYNAMIC", .ambiguousHeuristic⟩
  | .structural e =>
    ⟨false, e.kind.asStr, if candidates.length = 1 then .uniqueGlobalExact else .ambiguousHeuristic⟩

/-- The candidates a reference is linked to. -/
def Reaches (r : Ref) (candidates : List String) (m : String) : Prop :=
  m ∈ candidates ∧ ((r.verdict candidates).ownFile = true → fileOf m = fileOf r.source)
deriving Decidable

def links (r : Ref) (candidates : List String) : List Link :=
  (r.targets candidates).map fun t => ⟨r.source, t.1, t.2.1, t.2.2⟩

theorem targets_eq (r : Ref) (candidates : List String) :
    r.targets candidates =
      (if (r.verdict candidates).ownFile then own candidates r.source else candidates).map
        fun m => (m, (r.verdict candidates).kind, (r.verdict candidates).resolution) := by
  cases r with
  | structural e => rfl
  | call c =>
    obtain ⟨caller, callee, member⟩ := c
    cases member with
    | true => rfl
    | false =>
      simp only [targets, callTargets, verdict, source, Bool.false_eq_true, if_false]
      by_cases ho : (own candidates caller).length = 1
      · obtain ⟨m, hown⟩ := length_eq_one_iff.mp ho
        rw [hown, ← own, hown]
        rfl
      · have hne : ∀ m, own candidates caller ≠ [m] := fun m he => ho (by rw [he]; rfl)
        simp only [if_neg ho]
        split
        · rename_i m he
          exact absurd he (hne m)
        · by_cases hl : candidates.length = 1
          · obtain ⟨m, rfl⟩ := length_eq_one_iff.mp hl
            rfl
          · simp only [if_neg hl]
            split
            · exact absurd rfl hl
            · rfl

variable {r : Ref} {candidates c c' : List String} {l : Link}

theorem reaches_iff {m : String} : r.Reaches candidates m ↔
    m ∈ if (r.verdict candidates).ownFile then own candidates r.source else candidates := by
  unfold Reaches
  cases (r.verdict candidates).ownFile <;> simp [own]

/-- **The links of a reference**, from its verdict. -/
theorem mem_links : l ∈ r.links candidates ↔ l.source = r.source ∧ r.Reaches candidates l.target ∧
      l.kind = (r.verdict candidates).kind ∧ l.resolution = (r.verdict candidates).resolution := by
  obtain ⟨s, m, k, rk⟩ := l
  unfold links
  simp only [targets_eq, map_map, mem_map, ← reaches_iff, Link.mk.injEq, Function.comp_apply]
  constructor
  · rintro ⟨m', hm, rfl, rfl, rfl, rfl⟩
    exact ⟨rfl, hm, rfl, rfl⟩
  · rintro ⟨rfl, hm, rfl, rfl⟩
    exact ⟨m, hm, rfl, rfl, rfl, rfl⟩

theorem mem_of_mem_targets {t : String × String × ResolutionKind} (h : t ∈ r.targets candidates) :
    t.1 ∈ candidates :=
  (mem_links.mp (mem_map.mpr ⟨t, h, rfl⟩)).2.1.1

theorem link_mem {m : String} (hm : r.Reaches candidates m) :
    ⟨r.source, m, (r.verdict candidates).kind, (r.verdict candidates).resolution⟩ ∈
      r.links candidates :=
  mem_links.mpr ⟨rfl, hm, rfl, rfl⟩

theorem ownFile_iff : (r.verdict candidates).ownFile = true ↔
    r.isPlainCall = true ∧ (own candidates r.source).length = 1 := by
  cases r with
  | structural e => simp [verdict, isPlainCall]
  | call c =>
    unfold verdict isPlainCall
    dsimp only
    by_cases hm : c.isMemberCall = true
    · simp [hm]
    · by_cases ho : (own candidates c.callerMoniker).length = 1
      · simp [hm, ho, source]
      · rw [if_neg hm, if_neg ho]
        split <;> simp [ho, source]

theorem verdict_ownFile (h : (r.verdict candidates).ownFile = true) :
    r.verdict candidates = ⟨true, "CALLS_EXACT", .sameFileExact⟩ := by
  cases r with
  | structural e => cases h
  | call c =>
    unfold verdict at h ⊢
    dsimp only at h ⊢
    split at h
    · cases h
    · rename_i hm
      rw [if_neg hm]
      split at h
      · rename_i ho
        rw [if_pos ho]
      · split at h <;> cases h

/-- Candidates that the reference does not reach make no difference. -/
theorem reaches_append {others : List String}
    (hno : ∀ m ∈ others, ¬ r.Reaches (candidates ++ others) m) :
    r.verdict (candidates ++ others) = r.verdict candidates ∧
      ∀ m, r.Reaches (candidates ++ others) m ↔ r.Reaches candidates m := by
  cases hv : (r.verdict (candidates ++ others)).ownFile with
  | false =>
    obtain rfl : others = [] := by
      refine eq_nil_iff_forall_not_mem.mpr fun m hm =>
        hno m hm ⟨mem_append_right _ hm, ?_⟩
      rw [hv]
      nofun
    simp
  | true =>
    have hown : own (candidates ++ others) r.source = own candidates r.source := by
      have hnil : own others r.source = [] := filter_eq_nil_iff.mpr fun m hm hfile =>
        hno m hm ⟨mem_append_right _ hm, fun _ => by simpa using hfile⟩
      rw [own, filter_append, ← own, ← own, hnil, append_nil]
    obtain ⟨hplain, hone⟩ := ownFile_iff.mp hv
    have hv' := ownFile_iff.mpr ⟨hplain, hown ▸ hone⟩
    refine ⟨(verdict_ownFile hv).trans (verdict_ownFile hv').symm, fun m => ?_⟩
    rw [reaches_iff, reaches_iff, hv, hv', hown]
    rfl

theorem verdict_perm (r : Ref) (h : c.Perm c') : r.verdict c = r.verdict c' := by
  have hown : ∀ source, (own c source).length = (own c' source).length :=
    fun source => (h.filter _).length_eq
  cases r with
  | call call => simp only [verdict, hown, h.length_eq]
  | structural e => simp only [verdict, h.length_eq]

theorem targets_perm (r : Ref) (h : c.Perm c') : (r.targets c).Perm (r.targets c') := by
  rw [targets_eq, targets_eq, verdict_perm r h]
  refine List.Perm.map _ ?_
  split
  · exact h.filter _
  · exact h

theorem mem_links_perm (h : c.Perm c') : l ∈ r.links c ↔ l ∈ r.links c' := by
  rw [mem_links, mem_links, Reaches, Reaches, verdict_perm r h, h.mem_iff]

theorem resolution_eq {r' : Ref} {l' : Link} (hl : l ∈ r.links candidates)
    (hl' : l' ∈ r'.links candidates) (hs : r.source = r'.source) (hk : l.kind = l'.kind) :
    l.resolution = l'.resolution := by
  obtain ⟨-, -, hk₁, hr₁⟩ := mem_links.mp hl
  obtain ⟨-, -, hk₂, hr₂⟩ := mem_links.mp hl'
  have hkind := (hk₁.symm.trans hk).trans hk₂
  rw [hr₁, hr₂]
  have hstr : ∀ e : StructuralEdgeKind, e.asStr ≠ "CALLS_DYNAMIC" ∧ e.asStr ≠ "CALLS_EXACT" := by
    intro e
    cases e <;> decide
  cases r with
  | call c =>
    cases r' with
    | call c' =>
      simp only [source] at hs
      simp only [verdict, hs] at hkind ⊢
      grind
    | structural e' =>
      simp only [verdict] at hkind ⊢
      grind
  | structural e =>
    cases r' with
    | call c' =>
      simp only [verdict] at hkind ⊢
      grind
    | structural e' => rfl

end Ref

/-! ## The file of a moniker -/

/-- Each moniker, given with the file that forms it, is formed by one file. -/
def OneFileEach (owners : List (String × String)) : Prop :=
  ∀ o ∈ owners, ∀ o' ∈ owners, o.1 = o'.1 → o.2 = o'.2
deriving Decidable

theorem OneFileEach.mono {owners owners' : List (String × String)} (h : OneFileEach owners)
    (hsub : ∀ o ∈ owners', o ∈ owners) : OneFileEach owners' :=
  fun o ho o' ho' => h o (hsub o ho) o' (hsub o' ho')

/-- The file that forms a moniker. -/
def home (owners : List (String × String)) (m : String) : String :=
  (Lib.lookupLast m owners).getD ""

theorem home_eq {owners : List (String × String)} (h : OneFileEach owners) {m path : String}
    (hm : (m, path) ∈ owners) : home owners m = path := by
  have hone : ∀ v v', (m, v) ∈ owners → (m, v') ∈ owners → v = v' :=
    fun v v' hv hv' => h _ hv _ hv' rfl
  unfold home
  rw [(Lib.lookupLast_eq_some_iff hone).mpr hm, Option.getD_some]

theorem path_of_buildMoniker {path path' symbol symbol' : String} (hp : '#' ∉ path.toList)
    (hp' : '#' ∉ path'.toList) (h : buildMoniker path symbol = buildMoniker path' symbol') :
    path = path' := by
  have hcut : ∀ {p s : String}, '#' ∉ p.toList →
      (buildMoniker p s).toList.takeWhile (· != '#') = p.toList := by
    intro p s hp
    have hall : ∀ c ∈ p.toList, (c != '#') = true := by
      intro c hc
      exact bne_iff_ne.mpr fun he => hp (he ▸ hc)
    simp only [buildMoniker, String.toList_append, append_assoc]
    rw [takeWhile_append_of_pos hall]
    exact append_nil _
  rw [← String.toList_inj, ← hcut hp, h, hcut hp']

theorem symbol_of_buildMoniker {path symbol symbol' : String}
    (h : buildMoniker path symbol = buildMoniker path symbol') : symbol = symbol' := by
  have hlist := congrArg String.toList h
  simp only [buildMoniker, String.toList_append] at hlist
  exact String.toList_inj.mp (append_cancel_left hlist)

end WeaveGraph
