import WeaveGraph.Core.Model

/-!
# Query-layer access control

`RbacGuard` masks nodes instead of dropping them: a hidden node keeps its id and its repository,
and every other column is replaced.
-/

namespace WeaveGraph

structure Identity where
  subject : String
  roles : List String
  pathScope : List String
deriving Repr, DecidableEq

namespace Identity

def anonymous : Identity := ⟨"anonymous", [], []⟩

def isInternal (i : Identity) : Bool := i.roles.any fun r => r == "internal"

end Identity

/-- The module itself or a path below it, never a sibling whose name starts alike. -/
def inModule (path scope : String) : Bool :=
  path == scope || scope == "" || Lib.Text.startsWith path (scope ++ "/")

/-- `Option<&dyn Fn(&Node) -> bool>`: without a predicate every node is visible. -/
def isShown (visible : Option (Node → Bool)) (node : Node) : Bool :=
  match visible with
  | some check => check node
  | none => true

def hiddenMarker : String := "<rbac: hidden>"

/-- `isPublic` is the caller's notion of the public surface. -/
structure RbacGuard where
  identity : Identity
  isPublic : Node → Bool

namespace RbacGuard

/-- The `internal` role sees everything, or everything in its path scope when it has one; whatever
else is public is visible to everyone. -/
def visible (g : RbacGuard) (node : Node) : Bool :=
  if g.identity.isInternal &&
      (g.identity.pathScope.isEmpty || g.identity.pathScope.any fun p => inModule node.path p) then
    true
  else g.isPublic node

def maskNode (g : RbacGuard) (node : Node) : Node :=
  if g.visible node then node
  else
    { id := node.id, repoId := node.repoId, path := hiddenMarker, symbol := hiddenMarker,
      kind := hiddenMarker, lineStart := 0, lineEnd := 0, signature := "" }

@[simp] theorem maskNode_id (g : RbacGuard) (node : Node) : (g.maskNode node).id = node.id := by
  unfold maskNode
  split <;> rfl

/-! ## What a guard keeps apart -/

/-- The same node, or a hidden one with the same id and repository on both sides. -/
def Indistinguishable (g : RbacGuard) (a b : Node) : Prop :=
  a = b ∨ (a.id = b.id ∧ a.repoId = b.repoId ∧ g.visible a = false ∧ g.visible b = false)
deriving Decidable

theorem maskNode_congr {g : RbacGuard} {a b : Node} (h : g.Indistinguishable a b) :
    g.maskNode a = g.maskNode b := by
  rcases h with rfl | ⟨hid, hrepo, ha, hb⟩
  · rfl
  · simp only [maskNode, ha, hb, hid, hrepo, Bool.false_eq_true, if_false]

section lists

variable {g : RbacGuard} {l l' : List Node} (h : List.Forall₂ g.Indistinguishable l l')

include h

theorem map_maskNode_congr : l.map g.maskNode = l'.map g.maskNode :=
  List.forall₂_eq_eq_eq ▸ (List.forall₂_map_left_iff.2 (List.forall₂_map_right_iff.2
      (h.imp fun _ _ hab => maskNode_congr hab)))

theorem map_id_congr : l.map Node.id = l'.map Node.id := by
  have hm : ∀ l : List Node, l.map Node.id = (l.map g.maskNode).map Node.id := by
    simp [Function.comp_def]
  rw [hm l, hm l', map_maskNode_congr h]

end lists

end RbacGuard

end WeaveGraph
