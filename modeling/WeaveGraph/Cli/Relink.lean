import WeaveGraph.Cli.Settled

/-!
# What resolving the affected files again puts right

For one unchanged file: which of its links an incremental run ends up with, and when these are the
links a full run would give it (`relink_iff`); and the same for the names it cannot resolve
(`unresolved_iff`).  The links of the file are those of its references over the candidates before
and after the edit; a link into a changed file is purged, and the others are overwritten only where
a new one has the same ends.
-/

namespace WeaveGraph.Indexer.Edit

open List Lib SqliteStorage Ref

variable {ix : Indexer} {e : Edit} {parsed : ParsedFile} {l : Link} {r : Ref} {x : String}

/-! ## The links of an unchanged file -/

theorem mem_fileLinks_before : l ∈ fileLinks (ix.codeNodes e.before).rows parsed ↔
    ∃ r ∈ parsed.refs, e.Sourced ix r ∧ l ∈ r.links (e.was ix r.name) := by
  rw [mem_fileLinks]
  refine exists_congr fun r => and_congr_right fun _ => and_congr_right fun _ => ?_
  exact mem_links_perm (candidates_before r.name)

theorem mem_fileLinks_after (h : e.Apart ix)
    (hr : ∀ r ∈ parsed.refs, e.homeOf ix r.source ∉ e.changed) :
    l ∈ fileLinks (ix.codeNodes e.after).rows parsed ↔
    ∃ r ∈ parsed.refs, e.Sourced ix r ∧ l ∈ r.links (e.now ix r.name) := by
  rw [mem_fileLinks]
  refine exists_congr fun r => and_congr_right fun hmem => ?_
  refine and_congr (moniker_unchanged h (hr r hmem)).symm ?_
  exact mem_links_perm (candidates_after r.name)

/-- The links an incremental run leaves the file: the new ones if it is reopened, and of the old
ones into unchanged files those that no new one replaces. -/
def Relinked (ix : Indexer) (e : Edit) (parsed : ParsedFile) (l : Link) : Prop :=
  (e.Reopened ix parsed ∧ l ∈ fileLinks (ix.codeNodes e.after).rows parsed) ∨
    ((l ∈ fileLinks (ix.codeNodes e.before).rows parsed ∧ e.homeOf ix l.target ∉ e.changed) ∧
      (e.Reopened ix parsed →
        ∀ l' ∈ fileLinks (ix.codeNodes e.after).rows parsed, ¬ l'.SameEnds l))

/-- A file that is not affected has no reference that could resolve to anything new. -/
theorem links_of_not_reopened (h : e.Apart ix) (hre : ¬ e.Reopened ix parsed)
    (hmem : r ∈ parsed.refs) (hg : e.Gains ix parsed r) (hs : e.Sourced ix r) :
    l ∈ r.links (e.now ix r.name) ↔
      l ∈ r.links (e.was ix r.name) ∧ e.homeOf ix l.target ∉ e.changed := by
  have hdropped : ∀ m ∈ e.dropped ix r.name, ¬ r.Reaches (e.was ix r.name) m :=
    fun m hm hreach => hre ⟨r, hmem, Or.inl ⟨hs, m, hm, hreach⟩⟩
  have hadded : ∀ m ∈ e.added ix r.name, ¬ r.Reaches (e.now ix r.name) m :=
    fun m hm hreach => hre (hg hs ⟨m, hm, hreach⟩)
  obtain ⟨hverdict, hreach⟩ := reaches_append hdropped
  obtain ⟨hverdict', hreach'⟩ := reaches_append hadded
  unfold was now
  rw [mem_links, mem_links, hverdict, hverdict', hreach, hreach']
  exact (and_iff_left_of_imp fun hl => home_kept h hl.2.1.1).symm

section relinked

variable (h : e.Apart ix) (hr : ∀ r ∈ parsed.refs, e.homeOf ix r.source ∉ e.changed)

include h hr

section

variable (hlink : l ∈ r.links (e.was ix r.name)) (hkept : l.target ∈ e.kept ix r.name)

include hlink hkept

theorem sameEnds_of_stays (hst : e.Stays ix parsed r) (hs : e.Sourced ix r) :
    ∃ l' ∈ fileLinks (ix.codeNodes e.after).rows parsed, l'.SameEnds l := by
  obtain ⟨hsource, hreach, hkind, -⟩ := mem_links.mp hlink
  obtain ⟨r', hmem', hsource', hname', hreach', hkind'⟩ := hst hs l.target hkept hreach
  rw [← hname'] at hreach' hkind'
  have hs' : e.Sourced ix r' := by
    unfold Sourced at hs ⊢
    rwa [hsource']
  refine ⟨_, (mem_fileLinks_after h hr).mpr ⟨r', hmem', hs', link_mem hreach'⟩,
    hsource'.trans hsource.symm, rfl, ?_⟩
  rw [hkind]
  exact hname' ▸ hkind'

theorem stays_of_sameEnds {l' : Link} (hl' : l' ∈ fileLinks (ix.codeNodes e.after).rows parsed)
    (hends : l'.SameEnds l) :
    ∃ r' ∈ parsed.refs, r'.source = r.source ∧ r'.name = r.name ∧
      r'.Reaches (e.now ix r.name) l.target ∧
      (r'.verdict (e.now ix r.name)).kind = (r.verdict (e.was ix r.name)).kind := by
  obtain ⟨hsource, -, hkind, -⟩ := mem_links.mp hlink
  obtain ⟨r', hmem', -, hlink'⟩ := (mem_fileLinks_after h hr).mp hl'
  obtain ⟨hsource', hreach', hkind', -⟩ := mem_links.mp hlink'
  obtain ⟨hs, ht, hk⟩ := hends
  -- the target is declared under one name
  have hname : r'.name = r.name := by
    refine name_of_candidate (oneFileEach_rows h owned_after)
      ((candidates_after _).mem_iff.mpr hreach'.1) ?_
    rw [ht]
    exact (candidates_after _).mem_iff.mpr (mem_append_left _ hkept)
  rw [ht, hname] at hreach'
  rw [hname] at hkind'
  exact ⟨r', hmem', hsource'.symm.trans (hs.trans hsource), hname, hreach',
    hkind'.symm.trans (hk.trans hkind)⟩

end

/-- **The links of an unchanged file** come out as a full run's exactly when no reference of it is
left with a link it should no longer have, or without one it should have. -/
theorem relink_iff :
    (∀ l, Relinked ix e parsed l ↔ l ∈ fileLinks (ix.codeNodes e.after).rows parsed) ↔
      ∀ r ∈ parsed.refs, e.Gains ix parsed r ∧ e.Stays ix parsed r := by
  constructor
  · intro hall r hmem
    refine ⟨fun hs ⟨m, hm, hreach⟩ => ?_, fun hs m hm hreach => ?_⟩
    · -- the link to a new declaration can only come from resolving the file again
      rcases (hall _).mpr ((mem_fileLinks_after h hr).mpr ⟨r, hmem, hs, link_mem hreach⟩) with
        hre | hold
      · exact hre.1
      · exact absurd (home_added h hm) hold.1.2
    · -- an old link stays unless a new one has its ends
      have hold := link_mem hreach
      have hbefore := mem_fileLinks_before.mpr ⟨r, hmem, hs, hold⟩
      by_contra hno
      have hfree : ∀ l' ∈ fileLinks (ix.codeNodes e.after).rows parsed, ¬ l'.SameEnds _ :=
        fun l' hl' hends => hno (stays_of_sameEnds h hr hold hm hl' hends)
      exact hfree _ ((hall _).mp (Or.inr ⟨⟨hbefore, home_kept h hm⟩, fun _ => hfree⟩))
        ⟨rfl, rfl, rfl⟩
  · intro hset l
    by_cases hre : e.Reopened ix parsed
    · refine ⟨?_, fun hl => Or.inl ⟨hre, hl⟩⟩
      rintro (⟨-, hl⟩ | ⟨⟨hl, ht⟩, hfree⟩)
      · exact hl
      obtain ⟨r, hmem, hs, hlink⟩ := mem_fileLinks_before.mp hl
      have hkept : l.target ∈ e.kept ix r.name :=
        (mem_append.mp (mem_links.mp hlink).2.1.1).resolve_right
          fun hm => ht (home_dropped h hm)
      obtain ⟨l', hl', hends⟩ := sameEnds_of_stays h hr hlink hkept (hset r hmem).2 hs
      exact absurd hends (hfree hre l' hl')
    · have hsame : l ∈ fileLinks (ix.codeNodes e.after).rows parsed ↔
          l ∈ fileLinks (ix.codeNodes e.before).rows parsed ∧ e.homeOf ix l.target ∉ e.changed := by
        rw [mem_fileLinks_after h hr, mem_fileLinks_before]
        constructor
        · rintro ⟨r, hmem, hs, hl⟩
          obtain ⟨hl, ht⟩ := (links_of_not_reopened h hre hmem (hset r hmem).1 hs).mp hl
          exact ⟨⟨r, hmem, hs, hl⟩, ht⟩
        · rintro ⟨⟨r, hmem, hs, hl⟩, ht⟩
          exact ⟨r, hmem, hs, (links_of_not_reopened h hre hmem (hset r hmem).1 hs).mpr ⟨hl, ht⟩⟩
      unfold Relinked
      rw [hsame]
      simp [hre]

end relinked

/-! ## The unresolved names of an unchanged file -/

theorem mem_fileUnresolved {nodes : List Node} : x ∈ fileUnresolved nodes parsed ↔
    ∃ r ∈ parsed.refs, r.name = x ∧ bucket x (nodeDecls nodes) = [] := by
  unfold fileUnresolved unresolvedNames
  rw [Text.mem_dedup, mem_insertionSort, mem_map]
  constructor
  · rintro ⟨r, hr, rfl⟩
    obtain ⟨hr, he⟩ := mem_filter.mp hr
    exact ⟨r, hr, rfl, by simpa using he⟩
  · rintro ⟨r, hr, rfl, he⟩
    exact ⟨r, mem_filter.mpr ⟨hr, by simpa using he⟩, rfl⟩

theorem candidates_before_eq_nil :
    bucket x (nodeDecls (ix.codeNodes e.before).rows) = [] ↔ e.was ix x = [] := by
  rw [← length_eq_zero_iff, ← length_eq_zero_iff, (candidates_before x).length_eq]

theorem candidates_after_eq_nil :
    bucket x (nodeDecls (ix.codeNodes e.after).rows) = [] ↔ e.now ix x = [] := by
  rw [← length_eq_zero_iff, ← length_eq_zero_iff, (candidates_after x).length_eq]

theorem exists_reaches {candidates : List String} (hne : candidates ≠ []) :
    ∃ m, r.Reaches candidates m := by
  cases hv : (r.verdict candidates).ownFile with
  | false =>
    obtain ⟨m, hm⟩ := exists_mem_of_ne_nil _ hne
    exact ⟨m, hm, by rw [hv]; nofun⟩
  | true =>
    obtain ⟨m, hm⟩ := length_eq_one_iff.mp (ownFile_iff.mp hv).2
    refine ⟨m, reaches_iff.mpr ?_⟩
    rw [hv, if_pos rfl, hm]
    exact mem_singleton_self m

/-- **The unresolved names of an unchanged file** come out as a full run's exactly when no reference
outside every symbol loses its last declaration unnoticed. -/
theorem unresolved_iff :
    (¬ e.Reopened ix parsed → ∀ x, x ∈ fileUnresolved (ix.codeNodes e.before).rows parsed ↔
      x ∈ fileUnresolved (ix.codeNodes e.after).rows parsed) ↔
      ∀ r ∈ parsed.refs, e.Outside ix parsed r := by
  simp only [mem_fileUnresolved, candidates_before_eq_nil, candidates_after_eq_nil]
  constructor
  · intro hall r hmem hs hwas hnow
    by_contra hre
    obtain ⟨r', -, -, hnil⟩ := (hall hre r.name).mpr ⟨r, hmem, rfl, hnow⟩
    exact hwas hnil
  · intro hout hre x
    constructor
    · rintro ⟨r, hmem, rfl, hwas⟩
      refine ⟨r, hmem, rfl, append_eq_nil_iff.mpr ⟨(append_eq_nil_iff.mp hwas).1, ?_⟩⟩
      by_contra ha
      exact hre ⟨r, hmem, Or.inr ⟨hwas, ha⟩⟩
    · rintro ⟨r, hmem, rfl, hnow⟩
      refine ⟨r, hmem, rfl, ?_⟩
      by_contra hwas
      by_cases hs : e.Sourced ix r
      · -- what it reached was in a changed file
        obtain ⟨m, hm⟩ := exists_reaches (r := r) hwas
        have hk := (append_eq_nil_iff.mp hnow).1
        have hdrop : m ∈ e.dropped ix r.name := by
          have hmem := hm.1
          rwa [was, hk, nil_append] at hmem
        exact hre ⟨r, hmem, Or.inl ⟨hs, m, hdrop, hm⟩⟩
      · exact hre (hout r hmem hs hwas hnow)

end WeaveGraph.Indexer.Edit
