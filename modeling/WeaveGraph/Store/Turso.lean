import WeaveGraph.Store.Rows

/-!
# The libSQL store

`weave-graph-store-turso` keeps the schema of the SQLite store, natural key index included, and
implements the same `Storage` trait.  Its `upsert_node` is one statement, an insert that on a
conflict of the natural key updates the row; the SQLite store first looks for a row of the same
symbol, kind and signature and moves it (`upsertBatchNode`).

Both are compared on a sequence of calls from an empty database:

    the stores agree after every call  ↔  KeyedAlike calls          (upsertEach_agree_iff)
-/

namespace WeaveGraph

open List Lib

/-- `INSERT INTO nodes ... ON CONFLICT(repo_id, path, symbol, line_start) DO UPDATE ... RETURNING
id`. -/
def TursoStorage.upsertNode (t : NodeTable) (node : Node) :
    Except StorageError (NodeId × NodeTable) :=
  .ok (t.upsertId node.naturalKey, SqliteStorage.insertFreshNode t node)

/-- One `upsert_node` call after the other on an empty database, up to the first that fails. -/
def TursoStorage.upsertEach (calls : List Node) : Except StorageError NodeTable :=
  calls.foldlM (fun t n => (TursoStorage.upsertNode t n).map Prod.snd) Table.empty

namespace SqliteStorage

/-- One `upsert_node` call after the other on an empty database, up to the first that fails; a
call is a batch of one. -/
def upsertEach (calls : List Node) : Except StorageError NodeTable :=
  calls.foldlM (fun t n => (upsertBatchNode t n).map Prod.snd) Table.empty

/-- The same rows, whatever their ids and their order. -/
def SameData (s t : NodeTable) : Prop :=
  ∀ d : NodeData, d ∈ s.rows.map Node.data ↔ d ∈ t.rows.map Node.data

/-- Both sequences of calls fail, or both stores hold the same nodes afterwards. -/
def Agree (calls : List Node) : Prop :=
  match upsertEach calls, TursoStorage.upsertEach calls with
  | .error _, .error _ => True
  | .ok s, .ok t => SameData s t
  | _, _ => False

/-- The call that wrote the row of its natural key last. -/
def latest (calls : List Node) (m : Node) : Prop :=
  (calls.filter fun x => x.naturalKey = m.naturalKey).getLast? = some m
deriving Decidable

/-- A declaration of `m`'s symbol, kind and signature stands on `m`'s line, and one under `m`'s
natural key is of `m`'s kind. -/
def Alike (m n : Node) : Prop :=
  (sameSymbol m n = true → m.signature = n.signature → m.lineStart = n.lineStart) ∧
    (m.naturalKey = n.naturalKey → m.kind = n.kind)
deriving Decidable

/-- Every call is alike each row the calls before it left under a natural key. -/
def KeyedAlike (calls : List Node) : Prop :=
  ∀ before n after, calls = before ++ n :: after → ∀ m, latest before m → Alike m n

/-! ## The libSQL store -/

theorem mem_record {rows : List NodeData} {d r : NodeData} :
    r ∈ record rows d ↔ (r ∈ rows ∧ r.naturalKey ≠ d.naturalKey) ∨ r = d := by
  unfold record
  split
  · rename_i hk
    rw [mem_map]
    constructor
    · rintro ⟨r₀, hr₀, rfl⟩
      by_cases he : r₀.naturalKey = d.naturalKey
      · exact Or.inr (if_pos he)
      · rw [if_neg he]
        exact Or.inl ⟨hr₀, he⟩
    · rintro (⟨hr, hne⟩ | rfl)
      · exact ⟨r, hr, if_neg hne⟩
      · obtain ⟨r₀, hr₀, he⟩ := mem_map.mp hk
        exact ⟨r₀, hr₀, if_pos he⟩
  · rename_i hk
    rw [mem_append, mem_singleton]
    refine or_congr_left ⟨fun hr => ⟨hr, fun he => ?_⟩, fun hr => hr.1⟩
    exact hk (mem_map.mpr ⟨r, hr, he⟩)

theorem tursoEach_eq (calls : List Node) :
    TursoStorage.upsertEach calls = .ok (freshNodes calls) := by
  have h : ∀ (l : List Node) (t : NodeTable),
      l.foldlM (fun t n => (TursoStorage.upsertNode t n).map Prod.snd) t =
        .ok (l.foldl insertFreshNode t) := by
    intro l
    induction l with
    | nil => exact fun t => rfl
    | cons n l ih => exact fun t => ih (insertFreshNode t n)
  exact h calls Table.empty

variable {calls : List Node} {n : Node} {s : NodeTable}

theorem latest_append {m : Node} :
    latest (calls ++ [n]) m ↔ (latest calls m ∧ m.naturalKey ≠ n.naturalKey) ∨ m = n := by
  unfold latest
  rw [filter_append]
  by_cases hk : n.naturalKey = m.naturalKey
  · rw [filter_cons_of_pos (by simpa using hk), filter_nil, getLast?_concat, Option.some.injEq]
    constructor
    · exact fun h => Or.inr h.symm
    · rintro (⟨-, hne⟩ | rfl)
      · exact absurd hk.symm hne
      · rfl
  · rw [filter_cons_of_neg (by simpa using hk), filter_nil, append_nil]
    constructor
    · exact fun h => Or.inl ⟨h, fun he => hk he.symm⟩
    · rintro (⟨h, -⟩ | rfl)
      · exact h
      · exact absurd rfl hk

theorem mem_freshNodes_data {d : NodeData} :
    d ∈ (freshNodes calls).rows.map Node.data ↔ ∃ m, latest calls m ∧ m.data = d := by
  induction calls using List.reverseRecOn generalizing d with
  | nil =>
    constructor
    · intro h
      cases h
    · rintro ⟨m, h, -⟩
      cases h
  | append_singleton calls n ih =>
    rw [freshNodes_data, map_append, foldl_append, ← freshNodes_data]
    show d ∈ record _ n.data ↔ _
    rw [mem_record, ih]
    constructor
    · rintro (⟨⟨m, hm, rfl⟩, hne⟩ | rfl)
      · exact ⟨m, latest_append.mpr (Or.inl ⟨hm, hne⟩), rfl⟩
      · exact ⟨n, latest_append.mpr (Or.inr rfl), rfl⟩
    · rintro ⟨m, hm, rfl⟩
      rcases latest_append.mp hm with ⟨hm, hne⟩ | rfl
      · exact Or.inl ⟨⟨m, hm, rfl⟩, hne⟩
      · exact Or.inr rfl

/-! ## One call -/

/-- No two rows of one symbol and kind share a signature: the candidate lookup by signature has at
most one answer. -/
def SignaturesApart (t : NodeTable) : Prop :=
  ∀ a ∈ t.rows, ∀ b ∈ t.rows, sameSymbol a b = true → a.signature = b.signature → a = b

/-- The rows after the call are those of an insert that replaces on a conflict. -/
def Overwrites (t t' : NodeTable) (n : Node) : Prop :=
  ∀ d : NodeData, d ∈ t'.rows.map Node.data ↔ d ∈ record (t.rows.map Node.data) n.data

theorem sameSymbol_symm {a b : Node} (h : sameSymbol a b = true) : sameSymbol b a = true := by
  obtain ⟨h₁, h₂, h₃, h₄⟩ := sameSymbol_iff.mp h
  exact sameSymbol_iff.mpr ⟨h₁.symm, h₂.symm, h₃.symm, h₄.symm⟩

theorem sameSymbol_trans {a b c : Node} (h : sameSymbol a b = true) (h' : sameSymbol b c = true) :
    sameSymbol a c = true := by
  obtain ⟨h₁, h₂, h₃, h₄⟩ := sameSymbol_iff.mp h
  obtain ⟨k₁, k₂, k₃, k₄⟩ := sameSymbol_iff.mp h'
  exact sameSymbol_iff.mpr ⟨h₁.trans k₁, h₂.trans k₂, h₃.trans k₃, h₄.trans k₄⟩

section call

variable {t t' : NodeTable} {n row : Node} {id : NodeId}

theorem overwrites_replaceRow (hkey : n.data.naturalKey ∈ t.rows.map Node.naturalKey)
    (hrows : t'.rows = t.rows.map (replaceRow n)) : Overwrites t t' n := by
  intro d
  unfold record
  rw [hrows, if_pos (naturalKey_mem_data.mpr hkey), map_map, map_map]
  refine iff_of_eq (congrArg (d ∈ ·) (map_congr_left fun r _ => ?_))
  show (replaceRow n r).data = if r.naturalKey = n.naturalKey then n.data else r.data
  by_cases hk : r.naturalKey = n.naturalKey
  · rw [replaceRow_of_eq hk, if_pos hk]
    rfl
  · rw [replaceRow_of_ne hk, if_neg hk]

theorem upsertBatchNode_of_alike (h : ∀ r ∈ t.rows, Alike r n) :
    ∃ id t', upsertBatchNode t n = .ok (id, t') ∧ Overwrites t t' n := by
  have hfound : ∀ {row}, existing (candidates t.rows n) n = some row →
      row.naturalKey = n.naturalKey := by
    intro row he
    obtain ⟨hrow, hs⟩ := existing_mem he
    refine naturalKey_of_sameSymbol hs ?_
    rcases Option.or_eq_some_iff.mp he with hf | ⟨-, hf⟩
    · exact (h row hrow).1 hs (by simpa using find?_some hf)
    · simpa using find?_some hf
  have hw : Writable t n := by
    intro r hr hk
    cases he : existing (candidates t.rows n) n with
    | some row => rw [t.uk_inj (existing_mem he).1 hr ((hfound he).trans hk.symm)]
    | none =>
      -- `r` is of the kind of `n`, so the lookup by line would have found it
      obtain ⟨h₁, h₂, h₃, h₄⟩ : r.repoId = n.repoId ∧ r.path = n.path ∧ r.symbol = n.symbol ∧
          r.lineStart = n.lineStart := by
        simpa [Node.naturalKey] using hk
      have hs : sameSymbol r n = true := sameSymbol_iff.mpr ⟨h₁, h₂, h₃, (h r hr).2 hk⟩
      have hline := find_candidates_eq_none.mp (Option.or_eq_none_iff.mp he).2 r hr hs
      simp [h₄] at hline
  obtain ⟨id, t', hok⟩ := exists_upsertBatchNode hw
  refine ⟨id, t', hok, ?_⟩
  rcases (upsertBatchNode_ok hok).2 with ⟨row, hrow, hex, -⟩ | ⟨hex, rfl, hrows⟩
  · have hkey := mem_map.mpr ⟨row, hrow, hfound hex⟩
    exact overwrites_replaceRow hkey (upsertBatchNode_replaces hkey hok).1
  · have hfree : n.data.naturalKey ∉ t.rows.map Node.naturalKey := by
      intro hm
      obtain ⟨r, hr, hk⟩ := mem_map.mp hm
      cases hex.symm.trans (hw r hr hk)
    intro d
    unfold record
    rw [if_neg (naturalKey_mem_data.not.mpr hfree), hrows, map_append]
    rfl

theorem lineStart_of_overwrites (hrow : row ∈ t.rows)
    (hrows : t'.rows = t.rows.map fun r => if r.id = row.id then { n with id := row.id } else r)
    (ho : Overwrites t t' n) : row.lineStart = n.lineStart := by
  by_contra hne
  have hkey : row.naturalKey ≠ n.naturalKey := fun he => hne (congrArg (·.2.2.2) he)
  have hkept := (ho row.data).mpr (mem_record.mpr (Or.inl ⟨mem_map_of_mem hrow, hkey⟩))
  rw [hrows, map_map] at hkept
  obtain ⟨r, hr, hd⟩ := mem_map.mp hkept
  rw [Function.comp_apply] at hd
  by_cases he : r.id = row.id
  · rw [if_pos he] at hd
    exact hne (congrArg NodeData.lineStart hd).symm
  · rw [if_neg he] at hd
    exact he (congrArg Node.id (t.uk_inj hr hrow (Node.naturalKey_of_data hd)))

theorem alike_of_overwrites (ha : SignaturesApart t) (hok : upsertBatchNode t n = .ok (id, t'))
    (ho : Overwrites t t' n) : ∀ r ∈ t.rows, Alike r n := by
  intro r hr
  obtain ⟨hw, ⟨row, hrow, hex, hs, rfl, hrows⟩ | ⟨hex, -⟩⟩ := upsertBatchNode_ok hok
  · refine ⟨fun hrs hsig => ?_, fun hk => ?_⟩
    · rcases Option.or_eq_some_iff.mp hex with hf | ⟨hf, -⟩
      · have hrow' : row.signature = n.signature := by simpa using find?_some hf
        rw [ha r hr row hrow (sameSymbol_trans hrs (sameSymbol_symm hs))
          (hsig.trans hrow'.symm), lineStart_of_overwrites hrow hrows ho]
      · have := find_candidates_eq_none.mp hf r hr hrs
        simp [hsig] at this
    · obtain rfl : row = r := Option.some.inj (hex.symm.trans (hw r hr hk))
      exact (sameSymbol_iff.mp hs).2.2.2
  · refine ⟨fun hrs hsig => ?_, fun hk => ?_⟩
    · have := find_candidates_eq_none.mp (Option.or_eq_none_iff.mp hex).1 r hr hrs
      simp [hsig] at this
    · cases hex.symm.trans (hw r hr hk)

theorem signaturesApart_of_overwrites (ha : SignaturesApart t) (h : ∀ r ∈ t.rows, Alike r n)
    (ho : Overwrites t t' n) : SignaturesApart t' := by
  have hnew : ∀ r ∈ t'.rows, r.data = n.data ∨
      r.naturalKey ≠ n.naturalKey ∧ ∃ r₀ ∈ t.rows, r₀.data = r.data := by
    intro r hr
    rcases mem_record.mp ((ho r.data).mp (mem_map_of_mem hr)) with ⟨hm, hne⟩ | he
    · exact Or.inr ⟨hne, mem_map.mp hm⟩
    · exact Or.inl he
  have hcross : ∀ r ∈ t'.rows, r.naturalKey ≠ n.naturalKey → sameSymbol r n = true →
      r.signature = n.signature → False := by
    intro r hr hne hs hsig
    rcases hnew r hr with he | ⟨-, r₀, hr₀, hd⟩
    · exact hne (Node.naturalKey_of_data he)
    · have hl := (h r₀ hr₀).1 ((sameSymbol_congr hd).trans hs)
        ((congrArg NodeData.signature hd).trans hsig)
      exact hne ((Node.naturalKey_of_data hd).symm.trans
        (naturalKey_of_sameSymbol ((sameSymbol_congr hd).trans hs) hl))
  intro a ham b hbm hs hsig
  rcases hnew a ham with hna | ⟨hka, a₀, ha₀, hda⟩
  · rcases hnew b hbm with hnb | ⟨hkb, -⟩
    · exact t'.uk_inj ham hbm (Node.naturalKey_of_data (hna.trans hnb.symm))
    · have hsb : sameSymbol b n = true := sameSymbol_symm (sameSymbol_congr hna ▸ hs)
      exact (hcross b hbm hkb hsb (hsig.symm.trans (congrArg NodeData.signature hna))).elim
  · rcases hnew b hbm with hnb | ⟨hkb, b₀, hb₀, hdb⟩
    · have hsa : sameSymbol a n = true :=
        sameSymbol_symm (sameSymbol_congr hnb ▸ sameSymbol_symm hs)
      exact (hcross a ham hka hsa (hsig.trans (congrArg NodeData.signature hnb))).elim
    · have hs₀ : sameSymbol a₀ b₀ = true :=
        (sameSymbol_congr hda).trans (sameSymbol_symm ((sameSymbol_congr hdb).trans
          (sameSymbol_symm hs)))
      have hsig₀ : a₀.signature = b₀.signature :=
        (congrArg NodeData.signature hda).trans (hsig.trans (congrArg NodeData.signature hdb).symm)
      have heq := ha a₀ ha₀ b₀ hb₀ hs₀ hsig₀
      exact t'.uk_inj ham hbm (Node.naturalKey_of_data (hda.symm.trans (heq ▸ hdb)))

end call

/-! ## A sequence of calls -/

theorem upsertEach_concat (calls : List Node) (n : Node) :
    upsertEach (calls ++ [n]) =
      upsertEach calls >>= fun t => (upsertBatchNode t n).map Prod.snd := by
  unfold upsertEach
  rw [foldlM_append]
  refine congrArg (_ >>= ·) (funext fun t => ?_)
  exact bind_pure _

theorem agree_iff :
    Agree calls ↔ ∃ s, upsertEach calls = .ok s ∧ SameData s (freshNodes calls) := by
  unfold Agree
  rw [tursoEach_eq]
  cases upsertEach calls with
  | error e => simp
  | ok s => simp

theorem overwrites_of_sameData {s' : NodeTable} (h : SameData s (freshNodes calls)) :
    SameData s' (freshNodes (calls ++ [n])) ↔ Overwrites s s' n := by
  refine forall_congr' fun d => iff_congr Iff.rfl ?_
  rw [freshNodes_data, map_append, foldl_append, ← freshNodes_data]
  show d ∈ record _ n.data ↔ _
  rw [mem_record, mem_record, h d]

theorem keyedAlike_concat :
    KeyedAlike (calls ++ [n]) ↔ KeyedAlike calls ∧ ∀ m, latest calls m → Alike m n := by
  constructor
  · intro h
    refine ⟨fun before x after he => h before x (after ++ [n]) ?_, h calls n [] rfl⟩
    rw [he, append_assoc, cons_append]
  · rintro ⟨h, hn⟩ before x after he
    rcases eq_nil_or_concat after with rfl | ⟨after, y, rfl⟩
    · obtain ⟨rfl, hx⟩ := append_inj' he rfl
      obtain rfl : n = x := by simpa using hx
      exact hn
    · rw [concat_eq_append, ← cons_append, ← append_assoc] at he
      exact h before x after (append_inj' he rfl).1

theorem alike_rows_iff (h : SameData s (freshNodes calls)) :
    (∀ r ∈ s.rows, Alike r n) ↔ ∀ m, latest calls m → Alike m n := by
  have hcongr : ∀ a b : Node, a.data = b.data → Alike a n → Alike b n := by
    intro a b hd hal
    have hk := Node.naturalKey_of_data hd
    have hs := sameSymbol_congr (n := n) hd
    simp only [Node.data, NodeData.mk.injEq] at hd
    obtain ⟨-, -, -, hkind, hline, -, hsig⟩ := hd
    unfold Alike at hal ⊢
    rwa [← hs, ← hk, ← hkind, ← hline, ← hsig]
  constructor
  · intro hr m hm
    obtain ⟨r, hrm, hd⟩ := mem_map.mp ((h m.data).mpr (mem_freshNodes_data.mpr ⟨m, hm, rfl⟩))
    exact hcongr r m hd (hr r hrm)
  · intro hm r hr
    obtain ⟨m, hml, hd⟩ := mem_freshNodes_data.mp ((h r.data).mp (mem_map_of_mem hr))
    exact hcongr m r hd (hm m hml)

theorem agree_concat_iff (hs : upsertEach calls = .ok s) (h : SameData s (freshNodes calls))
    (ha : SignaturesApart s) : Agree (calls ++ [n]) ↔ ∀ m, latest calls m → Alike m n := by
  rw [agree_iff, upsertEach_concat, hs, ← alike_rows_iff h]
  constructor
  · rintro ⟨s', hs', hd⟩
    have hmap : (upsertBatchNode s n).map Prod.snd = .ok s' := hs'
    cases hok : upsertBatchNode s n with
    | error e =>
      rw [hok] at hmap
      cases hmap
    | ok out =>
      rw [hok] at hmap
      cases hmap
      exact alike_of_overwrites ha hok ((overwrites_of_sameData h).mp hd)
  · intro hal
    obtain ⟨id, t', hok, ho⟩ := upsertBatchNode_of_alike hal
    refine ⟨t', ?_, (overwrites_of_sameData h).mpr ho⟩
    show (upsertBatchNode s n).map Prod.snd = _
    rw [hok]
    rfl

/-- Calls that are alike the rows before them keep the signatures of the SQLite store apart. -/
theorem exists_of_keyedAlike (h : KeyedAlike calls) :
    ∃ s, upsertEach calls = .ok s ∧ SameData s (freshNodes calls) ∧ SignaturesApart s := by
  induction calls using List.reverseRecOn with
  | nil => exact ⟨Table.empty, rfl, fun _ => Iff.rfl, fun a ha => by cases ha⟩
  | append_singleton calls n ih =>
    obtain ⟨hcalls, hn⟩ := keyedAlike_concat.mp h
    obtain ⟨s, hs, hd, ha⟩ := ih hcalls
    have hal := (alike_rows_iff hd).mpr hn
    obtain ⟨id, s', hok, ho⟩ := upsertBatchNode_of_alike hal
    refine ⟨s', ?_, (overwrites_of_sameData hd).mpr ho, signaturesApart_of_overwrites ha hal ho⟩
    rw [upsertEach_concat, hs]
    show (upsertBatchNode s n).map Prod.snd = _
    rw [hok]
    rfl

/-- **The two backends agree after every call exactly if the calls are alike.** -/
theorem upsertEach_agree_iff (calls : List Node) :
    (∀ before, before <+: calls → Agree before) ↔ KeyedAlike calls := by
  induction calls using List.reverseRecOn with
  | nil =>
    refine iff_of_true (fun before hb => ?_) (fun before n after he => by simp at he)
    rw [prefix_nil.mp hb]
    exact fun _ => Iff.rfl
  | append_singleton calls n ih =>
    have hlast : (∀ before, before <+: calls ++ [n] → Agree before) ↔
        (∀ before, before <+: calls → Agree before) ∧ Agree (calls ++ [n]) := by
      constructor
      · exact fun h => ⟨fun before hb => h before (hb.trans (prefix_append _ _)), h _ prefix_rfl⟩
      · rintro ⟨h, hn⟩ before hb
        rcases prefix_concat_iff.mp hb with rfl | hb
        · exact hn
        · exact h before hb
    rw [hlast, ih, keyedAlike_concat]
    refine and_congr_right fun hk => ?_
    obtain ⟨s, hs, hd, ha⟩ := exists_of_keyedAlike hk
    exact agree_concat_iff hs hd ha

/-- Two `cfg` arms of one function: the SQLite store moves the one row from line 3 to line 9, the
libSQL store holds both. -/
theorem upsertEach_disagree_overloads : ¬ Agree cfgOverloads := by
  intro h
  obtain ⟨s, hs, hd⟩ := agree_iff.mp h
  have hone : (upsertEach cfgOverloads).map (fun t => t.rows.map Node.data) =
      .ok [⟨"r", "a.rs", "area", "function", 9, 11, "fn area() -> f64"⟩] := by decide +kernel
  rw [hs] at hone
  have hrows : s.rows.map Node.data =
      [⟨"r", "a.rs", "area", "function", 9, 11, "fn area() -> f64"⟩] := by
    simpa [Except.map] using hone
  have hlost := (hd ⟨"r", "a.rs", "area", "function", 3, 5, "fn area() -> f64"⟩).mpr
    (by decide +kernel)
  rw [hrows] at hlost
  exact absurd hlost (by decide)

end SqliteStorage

end WeaveGraph
