import WeaveGraph.Lib.Joined
import WeaveGraph.Hub.Registry

/-!
# Addresses of snapshots

The client appends `/snapshots/{repo}/{sha}.tar.zst` to the path the hub is mounted under; the
server takes what follows the first `/snapshots/` of the path it is asked for.  They agree on
every mount path in which, once it is followed by a slash, there is no `/snapshots/` of its own
(`parseSnapshotPath_iff`); under the others the server finds an extra slash in the file name.
-/

namespace WeaveGraph.Hub

open List Lib.Text

/-! ## The client's side -/

/-- The text before the first slash, and what follows from it on. -/
def splitAuthority (rest : String) : String × String :=
  (beforeFirst '/' rest, String.ofList (rest.toList.dropWhile (· ≠ '/')))

/-- The host, and the port after the last colon; `none` if that is no port. -/
def hostPort (authority : String) : Option (String × Nat) :=
  match rsplitOnce ':' authority with
  | some (host, port) => (parseUnsigned 16 port).map fun port => (host, port)
  | none => some (authority, 80)

structure ParsedUrl where
  host : String
  port : Nat
  /-- The path the hub is mounted under. -/
  pathPrefix : String
deriving Repr, DecidableEq

inductive UrlError where
  | unsupportedScheme (url : String)
  | invalidUrl (url : String)
deriving Repr, DecidableEq

def parseUrl (base : String) : Except UrlError ParsedUrl :=
  match stripPrefix base "http://" with
  | none =>
    .error (if startsWith base "https://" then .unsupportedScheme base else .invalidUrl base)
  | some rest =>
    if (splitAuthority rest).1 = "" then .error (.invalidUrl base)
    else
      match hostPort (splitAuthority rest).1 with
      | none => .error (.invalidUrl base)
      | some (host, port) => .ok ⟨host, port, (splitAuthority rest).2⟩

/-- The path of `pull` and of `push_chunks`. -/
def ParsedUrl.snapshotPath (url : ParsedUrl) (repoId commitSha : String) : String :=
  url.pathPrefix ++ "/snapshots/" ++ repoId ++ "/" ++ commitSha ++ ".tar.zst"

/-! ## The server's side -/

def parseSnapshotPath (path : String) : Option (String × String) := do
  let rest ← afterFirst "/snapshots/" path
  let (repoId, filename) ← splitOnce '/' rest
  let sha := (stripSuffix filename ".tar.zst").getD filename
  if !isSafePathComponent repoId || !isSafePathComponent sha then none
  else some (repoId, sha)

/-! ## The marker in a path -/

def marker : List Char := "/snapshots/".toList

/-- The marker ends in a slash, and the only slash of what the client adds to the mount path before
that end is its first one. -/
theorem marker_infix_iff (mount : List Char) :
    marker <:+: mount ++ marker.dropLast ↔ marker <:+: mount ++ ['/'] := by
  have hdrop : marker.dropLast = '/' :: "snapshots".toList := by decide
  constructor
  · rintro ⟨x, y, h⟩
    rw [hdrop] at h
    have hlen : (x ++ marker).length ≤ (mount ++ ['/']).length := by
      by_contra hlong
      rw [length_append, length_append, length_singleton] at hlong
      have hlast : (x ++ marker ++ y)[x.length + 10]? = some '/' := by
        have h11 : marker.length = 11 := rfl
        rw [getElem?_append_left (by rw [length_append, h11]; omega),
          getElem?_append_right (by omega), Nat.add_sub_cancel_left]
        rfl
      have h11 : marker.length = 11 := rfl
      rw [h, getElem?_append_right (by omega)] at hlast
      obtain ⟨k, hk⟩ : ∃ k, x.length + 10 - mount.length = k + 1 :=
        ⟨x.length + 10 - mount.length - 1, by omega⟩
      rw [hk, getElem?_cons_succ] at hlast
      have hmem := mem_of_getElem? hlast
      revert hmem
      decide
    have hleft : x ++ marker <+: mount ++ '/' :: "snapshots".toList := ⟨y, h⟩
    have hright : mount ++ ['/'] <+: mount ++ '/' :: "snapshots".toList :=
      ⟨"snapshots".toList, by simp⟩
    exact (suffix_append x marker).isInfix.trans
      (prefix_of_prefix_length_le hleft hright hlen).isInfix
  · intro h
    refine h.trans ?_
    rw [hdrop]
    exact (List.IsPrefix.isInfix ⟨"snapshots".toList, by simp⟩)

theorem infix_of_containsList {p l : List Char} : containsList p l = true ↔ p <:+: l := by
  induction l with
  | nil => simp [containsList]
  | cons c l ih => simp [containsList, ih, infix_cons_iff]

theorem not_safe_of_slash (filename : String) (h : '/' ∈ filename.toList) :
    isSafePathComponent ((stripSuffix filename ".tar.zst").getD filename) = false := by
  rw [Bool.eq_false_iff]
  intro hsafe
  have hslash := @not_mem_of_safe _ hsafe '/' (by decide)
  refine hslash ?_
  cases hstrip : stripSuffix filename ".tar.zst" with
  | none => exact h
  | some sha =>
    rw [eq_of_stripSuffix hstrip, String.toList_append] at h
    exact (mem_append.mp h).resolve_right (by decide)

/-! ## Agreement -/

/-- What follows the client's marker. -/
def addressTail (repoId sha : String) : String := repoId ++ "/" ++ sha ++ ".tar.zst"

variable {repoId sha : String}

theorem parse_addressTail {path : String} (hrepo : isSafePathComponent repoId = true)
    (hsha : isSafePathComponent sha = true)
    (h : afterFirst "/snapshots/" path = some (addressTail repoId sha)) :
    parseSnapshotPath path = some (repoId, sha) := by
  have hsplit : splitOnce '/' (addressTail repoId sha) = some (repoId, sha ++ ".tar.zst") := by
    rw [addressTail, String.append_assoc]
    exact splitOnce_append (not_mem_of_safe hrepo (by decide)) _
  unfold parseSnapshotPath
  rw [h]
  dsimp only [Option.bind_eq_bind, Option.bind_some]
  rw [hsplit]
  dsimp only [Option.bind_some]
  rw [stripSuffix_append, Option.getD_some, hrepo, hsha]
  rfl

theorem parse_of_slash {path : String} {before : List Char} (hslash : '/' ∈ before)
    (h : afterFirst "/snapshots/" path =
      some (String.ofList (before ++ (addressTail repoId sha).toList))) :
    parseSnapshotPath path = none := by
  obtain ⟨first, second, hbefore, hfirst⟩ := eq_append_cons_of_mem hslash
  have htail : '/' ∈ (addressTail repoId sha).toList := by simp [addressTail]
  have hrest : String.ofList (before ++ (addressTail repoId sha).toList) =
      String.ofList first ++ String.ofList ['/'] ++
        String.ofList (second ++ (addressTail repoId sha).toList) := by
    rw [← String.toList_inj]
    simp [hbefore]
  have hsplit := splitOnce_append (c := '/') (a := String.ofList first)
    (by rwa [String.toList_ofList]) (String.ofList (second ++ (addressTail repoId sha).toList))
  have hrefused := not_safe_of_slash (String.ofList (second ++ (addressTail repoId sha).toList))
    (by rw [String.toList_ofList]; exact mem_append_right _ htail)
  unfold parseSnapshotPath
  rw [h, hrest]
  dsimp only [Option.bind_eq_bind, Option.bind_some]
  rw [hsplit]
  dsimp only [Option.bind_some]
  rw [hrefused]
  simp

theorem snapshotPath_toList (url : ParsedUrl) (repoId sha : String) :
    (url.snapshotPath repoId sha).toList =
      url.pathPrefix.toList ++ marker ++ (addressTail repoId sha).toList := by
  have hpath : url.snapshotPath repoId sha =
      url.pathPrefix ++ "/snapshots/" ++ addressTail repoId sha := by
    rw [ParsedUrl.snapshotPath, addressTail]
    simp only [String.append_assoc]
  rw [hpath, String.toList_append, String.toList_append]
  rfl

theorem parseSnapshotPath_iff (url : ParsedUrl) (hrepo : isSafePathComponent repoId = true)
    (hsha : isSafePathComponent sha = true) :
    parseSnapshotPath (url.snapshotPath repoId sha) = some (repoId, sha) ↔
      contains (url.pathPrefix ++ "/") "/snapshots/" = false := by
  have hne : marker ≠ [] := by decide
  have hcontains : contains (url.pathPrefix ++ "/") "/snapshots/" = false ↔
      ¬ marker <:+: url.pathPrefix.toList ++ marker.dropLast := by
    rw [marker_infix_iff, ← infix_of_containsList, Bool.not_eq_true, Lib.Text.contains,
      String.toList_append]
    rfl
  rw [hcontains]
  constructor
  · intro hparse hin
    -- the first marker of the whole path lies in the mount path, followed by a slash of it
    obtain ⟨a, b, hab, hfirst⟩ := exists_first_occurrence hne hin
    have hdrop : marker = marker.dropLast ++ ['/'] := by decide
    have hpath : (url.snapshotPath repoId sha).toList =
        a ++ marker ++ ((b ++ ['/']) ++ (addressTail repoId sha).toList) := by
      have hmount : url.pathPrefix.toList ++ marker = a ++ marker ++ (b ++ ['/']) := by
        conv_lhs => rw [hdrop]
        rw [← append_assoc, hab, append_assoc]
      rw [snapshotPath_toList, hmount, append_assoc (a ++ marker)]
    have hafter : afterFirst "/snapshots/" (url.snapshotPath repoId sha) =
        some (String.ofList ((b ++ ['/']) ++ (addressTail repoId sha).toList)) := by
      rw [afterFirst, hpath]
      exact congrArg (Option.map String.ofList) (afterFirstList_append hne hfirst _)
    rw [parse_of_slash (by simp) hafter] at hparse
    cases hparse
  · intro hnot
    refine parse_addressTail hrepo hsha ?_
    rw [afterFirst, snapshotPath_toList]
    have hfound := afterFirstList_append hne hnot (addressTail repoId sha).toList
    rw [show afterFirstList "/snapshots/".toList _ = _ from hfound, Option.map_some,
      String.ofList_toList]

/-- Client and server agree on the address of a snapshot exactly if the mount path, with a slash
behind it, does not hold the marker. -/
theorem snapshot_address_iff (base : String) {repoId sha : String} {url : ParsedUrl}
    (_hurl : parseUrl base = .ok url) (hrepo : isSafePathComponent repoId = true)
    (hsha : isSafePathComponent sha = true) :
    parseSnapshotPath (url.snapshotPath repoId sha) = some (repoId, sha) ↔
      contains (url.pathPrefix ++ "/") "/snapshots/" = false :=
  parseSnapshotPath_iff url hrepo hsha

/-- A hub behind a proxy, and a sha that ends like a file. -/
theorem snapshot_address_weave :
    parseUrl "http://hub:8080/weave" = .ok ⟨"hub", 8080, "/weave"⟩ ∧ (parseSnapshotPath
          ((⟨"hub", 8080, "/weave"⟩ : ParsedUrl).snapshotPath "snapshots" "a.tar.zst") =
            some ("snapshots", "a.tar.zst") ↔
        contains ("/weave" ++ "/") "/snapshots/" = false) :=
  ⟨by decide, snapshot_address_iff "http://hub:8080/weave" (by decide) (by decide) (by decide)⟩

theorem snapshot_address_mounted :
    parseUrl "http://hub/snapshots" = .ok ⟨"hub", 80, "/snapshots"⟩ ∧
      parseSnapshotPath ((⟨"hub", 80, "/snapshots"⟩ : ParsedUrl).snapshotPath "repo" "a1") = none :=
  by decide

end WeaveGraph.Hub
