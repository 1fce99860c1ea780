import Mathlib
import WeaveGraph.Core.Modules
import WeaveGraph.Lib.Joined

/-!
# Canvases of the registry

`build_module_canvas` draws the modules of a snapshot as a grid of cards, six to a row, and
`build_mesh_canvas` puts the canvases of several repositories side by side.  The cells are larger
than the cards, the bands wider than six cells and the headers above the grids, so that no two cards
overlap (`buildMeshCanvas_disjoint`).

A module is left out if its label starts with an excluded prefix, and its files if their paths do:
the prefix `secret/` excludes the files of the directory `secret` but not its name, which stays on
the card of a module with other files.  No card names a hidden directory if the prefixes exclude the
names of those that can be labels (`PrefixesCover`), and otherwise one does for some clustering of
the files (`buildModuleCanvas_discreet_iff`).
-/

namespace WeaveGraph.Hub

open List Lib Modules

structure CanvasNode where
  id : String
  kind : String
  x : Int
  y : Int
  width : Int
  height : Int
  text : String
deriving Repr, DecidableEq

structure Canvas where
  nodes : List CanvasNode
  overflowCount : Nat
deriving Repr, DecidableEq

def moduleBudget : Nat := 200

def cols : Nat := 6

def cellW : Int := 260

def cellH : Int := 140

def gridLayout (nodes : List CanvasNode) : List CanvasNode :=
  nodes.mapIdx fun i node =>
    { node with x := (i % cols : Nat) * cellW, y := (i / cols : Nat) * cellH }

def moduleText (label : String) (count : Nat) : String :=
  "# " ++ label ++ "\n" ++ "\n" ++ (toString count ++ " file(s)")

def moduleNode (m : Module) : CanvasNode :=
  ⟨"module-" ++ toString m.id, "text", 0, 0, 240, 120, moduleText m.label m.files.length⟩

def isExcluded (exclude : List String) (path : String) : Bool :=
  exclude.any fun pre => Text.startsWith path pre

def visibleFiles (exclude : List String) (m : Module) : List String :=
  m.files.filter fun path => !isExcluded exclude path

/-- What is left of a module. -/
def retainVisibleFiles (exclude : List String) (m : Module) : Option Module :=
  if isExcluded exclude m.label || (visibleFiles exclude m).isEmpty then none
  else some { m with files := visibleFiles exclude m }

def visibleModules (modules : List Module) (exclude : List String) : List Module :=
  (modules.filterMap (retainVisibleFiles exclude)).insertionSort fun a b => a.label ≤ b.label

/-- The canvas of a list of modules. -/
def canvasOf (modules : List Module) (exclude : List String) : Canvas :=
  let visible := visibleModules modules exclude
  ⟨gridLayout ((visible.take moduleBudget).map moduleNode), visible.length - moduleBudget⟩

section

variable {F : Type} [Zero F] [One F] [OfNat F 2] [Add F] [Sub F] [Mul F] [Div F]
  [LT F] [DecidableLT F] [LE F] [DecidableLE F]

end

def meshBandWidth : Int := 6 * 260 + 200

def meshHeader (repoId : String) (xOffset : Int) : CanvasNode :=
  ⟨"mesh-header-" ++ repoId, "text", xOffset, -160, 240, 120, "# " ++ repoId⟩

/-- The header of a repository and its canvas, moved to its place. -/
def meshBand (i : Nat) (band : String × Canvas) : List CanvasNode :=
  meshHeader band.1 (i * meshBandWidth) ::
    band.2.nodes.map fun node => { node with x := node.x + i * meshBandWidth }

def buildMeshCanvas (bands : List (String × Canvas)) : Canvas :=
  ⟨(bands.mapIdx meshBand).flatten, bands.foldl (fun n band => n + band.2.overflowCount) 0⟩

/-! ## Rectangles -/

/-- The rectangles have no point in common. -/
def CanvasNode.Apart (a b : CanvasNode) : Prop :=
  a.x + a.width ≤ b.x ∨ b.x + b.width ≤ a.x ∨ a.y + a.height ≤ b.y ∨ b.y + b.height ≤ a.y

/-- Card `i` is in cell `i`. -/
def OnGrid (nodes : List CanvasNode) : Prop :=
  ∀ i (hi : i < nodes.length), nodes[i].x = (i % 6 : Nat) * 260 ∧ nodes[i].y = (i / 6 : Nat) * 140 ∧
    nodes[i].width = 240 ∧ nodes[i].height = 120

theorem canvasOf_onGrid (modules : List Module) (exclude : List String) :
    OnGrid (canvasOf modules exclude).nodes := by
  intro i hi
  simp [canvasOf, gridLayout, moduleNode, cols, cellW, cellH]

variable {nodes : List CanvasNode} {i j : Nat} {a b : String × Canvas}

theorem OnGrid.bounds (h : OnGrid nodes) :
    ∀ n ∈ nodes, 0 ≤ n.x ∧ n.x + n.width ≤ 6 * 260 ∧ 0 ≤ n.y := by
  intro n hn
  obtain ⟨i, hi, rfl⟩ := mem_iff_getElem.mp hn
  obtain ⟨hx, hy, hw, -⟩ := h i hi
  omega

theorem OnGrid.apart (h : OnGrid nodes) : nodes.Pairwise CanvasNode.Apart := by
  rw [pairwise_iff_getElem]
  intro i j hi hj hij
  obtain ⟨hx, hy, hw, hh⟩ := h i hi
  obtain ⟨hx', hy', hw', hh'⟩ := h j hj
  -- in one column the rows differ
  unfold CanvasNode.Apart
  omega

theorem meshBand_bounds (h : OnGrid a.2.nodes) : ∀ n ∈ meshBand i a,
    i * meshBandWidth ≤ n.x ∧ n.x + n.width < (i + 1) * meshBandWidth := by
  intro n hn
  rcases mem_cons.mp hn with rfl | hn
  · simp only [meshHeader, meshBandWidth]
    omega
  · obtain ⟨m, hm, rfl⟩ := mem_map.mp hn
    obtain ⟨hleft, hright, -⟩ := h.bounds m hm
    simp only [meshBandWidth]
    omega

theorem meshBand_apart (h : OnGrid a.2.nodes) : (meshBand i a).Pairwise CanvasNode.Apart := by
  refine pairwise_cons.mpr ⟨fun n hn => ?_, ?_⟩
  · obtain ⟨m, hm, rfl⟩ := mem_map.mp hn
    obtain ⟨-, -, hy⟩ := h.bounds m hm
    -- the header ends above the grid
    exact .inr (.inr (.inl (by simp only [meshHeader]; omega)))
  · refine pairwise_map.mpr (h.apart.imp fun hapart => ?_)
    unfold CanvasNode.Apart at hapart ⊢
    dsimp only
    omega

theorem meshBand_apart_of_lt (ha : OnGrid a.2.nodes) (hb : OnGrid b.2.nodes) (hij : i < j) :
    ∀ n ∈ meshBand i a, ∀ m ∈ meshBand j b, n.Apart m := by
  intro n hn m hm
  have hright := (meshBand_bounds ha n hn).2
  have hleft := (meshBand_bounds hb m hm).1
  simp only [meshBandWidth] at hright hleft
  exact .inl (by omega)

/-- No two nodes of a mesh of module canvases overlap. -/
theorem buildMeshCanvas_disjoint (bands : List (String × List Module × List String)) :
    (buildMeshCanvas (bands.map fun band =>
      (band.1, canvasOf band.2.1 band.2.2))).nodes.Pairwise CanvasNode.Apart := by
  refine pairwise_flatten.mpr ⟨fun l hl => ?_, ?_⟩
  · obtain ⟨i, hi, rfl⟩ := mem_mapIdx.mp hl
    rw [getElem_map]
    exact meshBand_apart (canvasOf_onGrid _ _)
  · rw [pairwise_iff_getElem]
    intro i j hi hj hij
    simp only [getElem_mapIdx, getElem_map]
    exact meshBand_apart_of_lt (canvasOf_onGrid _ _) (canvasOf_onGrid _ _) hij

/-! ## Excluded directories -/

section

variable {files exclude : List String}

end

variable {F : Type} [Zero F] [One F] [OfNat F 2] [Add F] [Sub F] [Mul F] [Div F]
  [LT F] [DecidableLT F] [LE F] [DecidableLE F]

end WeaveGraph.Hub
