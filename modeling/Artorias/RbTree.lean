import Artorias.CRun
import Artorias.ZipHeap

/-!
# The intrusive red-black tree (`rb_tree.h`, `rb_tree.c`)

The functions of the C library over an explicit memory. `RbMem.root` is the
`as_rb_tree_t` at hand, `RbMem.nodes` are the `as_rb_node_t`. Every pointer is
an `Option`; a read through `none` is the fault the C program would take.

The source writes each half of a symmetric pair once per side (the macros
`delete_case1..4` take the two sides as `_lr1_` and `_lr2_`); here the pair is
one definition over a `Side`. `relink` is the idiom
`if (fa == NULL) t->root = v; else if (x == fa->left) fa->left = v; else
fa->right = v;`, which the source repeats in every function that replaces a
child.
-/

namespace Artorias

variable {ι : Type} [DecidableEq ι]

/-- `is_null_or_black` -/
def isNullOrBlack (m : RbMem ι) : Option ι → Bool
  | none => true
  | some x => (m.nodes x).color = .black

/-! ## Rotations -/

/-- The common text of `rotate_left` and `rotate_right`: `p` goes down on side
`s`, its other child comes up. -/
def rotate (s : Side) (m : RbMem ι) (p : ι) : CRun (RbMem ι) := do
  let q ← deref ((m.nodes p).child s.flip)
  let y := (m.nodes q).child s
  let m := m.setParentIf y (some p)
  let m := m.setChild s.flip p y
  let fa := (m.nodes p).parent
  let m := m.relink fa p (some q)
  let m := m.setChild s q (some p)
  let m := m.setParent q fa
  .ok (m.setParent p (some q))

def rotateRight (m : RbMem ι) (q : ι) : CRun (RbMem ι) := rotate .right m q

/-- Unlike `rotate_right`, `rotate_left` does nothing without a right child. -/
def rotateLeft (m : RbMem ι) (p : ι) : CRun (RbMem ι) :=
  if (m.nodes p).right = none then .ok m else rotate .left m p

/-- `rotate_##_lr_` -/
def rotateTo : Side → RbMem ι → ι → CRun (RbMem ι)
  | .left => rotateLeft
  | .right => rotateRight

/-! ## Insertion -/

/-- Where a link is kept: the pointer handed in, or a child field. -/
inductive Slot (ι : Type) where
  | top
  | child (s : Side) (x : ι)
deriving Repr, DecidableEq

def Slot.load (m : RbMem ι) (top : Option ι) : Slot ι → Option ι
  | .top => top
  | .child s x => (m.nodes x).child s

def Slot.store (m : RbMem ι) (top v : Option ι) : Slot ι → RbMem ι × Option ι
  | .top => (m, v)
  | .child s x => (m.setChild s x v, top)

/-- One step down: `n->parent = *ptr; ptr = &(*ptr)->side`. -/
def descendBody (side : ι → Side) (n : ι) (top : Option ι) :
    RbMem ι × Slot ι → CRun ((RbMem ι × Slot ι) ⊕ (RbMem ι × Slot ι))
  | (m, ptr) =>
      match ptr.load m top with
      | none => .ok (.inr (m, ptr))
      | some x => .ok (.inl (m.setParent n (some x), .child (side x) x))

/-- Clear `n`, walk down from `top`, and store `n` in the NULL link found. -/
def insertFrom (side : ι → Side) (fuel : Nat) (m : RbMem ι) (n : ι)
    (top : Option ι) : CRun (RbMem ι × Option ι) := do
  let m := m.put n ⟨none, none, none, .red⟩
  let (m, ptr) ← cloop (descendBody side n top) fuel (m, .top)
  .ok (ptr.store m top (some n))

/-- `rb_tree_insert`; `top` is the tree's root field. -/
def rbTreeInsert (lt : ι → ι → Bool) (fuel : Nat) (m : RbMem ι) (n : ι) :
    CRun (RbMem ι) := do
  let (m', top) ← insertFrom (fun x => if lt n x then .left else .right) fuel m n m.root
  .ok (m'.setRoot top)

/-- `rb_tree_insert_to_most_left`, `rb_tree_insert_to_most_right`; the result
holds the value of `*root` afterwards. -/
def rbTreeInsertToMost (s : Side) (fuel : Nat) (m : RbMem ι) (root : Option ι) (n : ι) :
    CRun (RbMem ι × Option ι) :=
  insertFrom (fun _ => s) fuel m n root

def uncle (m : RbMem ι) (n : ι) : CRun (Option ι) := do
  let fa ← deref (m.nodes n).parent
  let g ← deref (m.nodes fa).parent
  .ok (if (m.nodes g).right = some fa then (m.nodes g).left else (m.nodes g).right)

/-- The last lines of the loop of `rb_tree_insert_case`: recolour, and rotate
the grandparent. -/
def insertCaseOuter (m : RbMem ι) (n fa gf : ι) : CRun (RbMem ι) :=
  let m := m.setColor fa .black
  let m := m.setColor gf .red
  if (m.nodes fa).left = some n then rotateRight m gf else rotateLeft m gf

/-- Bring `n` to the outer side; the result names the three nodes anew. -/
def insertCaseInner (m : RbMem ι) (n fa gf : ι) : CRun (RbMem ι × ι × ι × ι) :=
  if (m.nodes fa).right = some n ∧ (m.nodes gf).left = some fa then do
    let m ← rotateLeft m fa
    let n ← deref (m.nodes n).left
    let fa ← deref (m.nodes n).parent
    let gf ← deref (m.nodes fa).parent
    .ok (m, n, fa, gf)
  else if (m.nodes fa).left = some n ∧ (m.nodes gf).right = some fa then do
    let m ← rotateRight m fa
    let n ← deref (m.nodes n).right
    let fa ← deref (m.nodes n).parent
    let gf ← deref (m.nodes fa).parent
    .ok (m, n, fa, gf)
  else .ok (m, n, fa, gf)

/-- The turn of `rb_tree_insert_case` under a black uncle. -/
def insertCaseRotate (m : RbMem ι) (n fa : ι) : CRun (RbMem ι × ι) := do
  let gf ← deref (m.nodes fa).parent
  let (m, n, fa, gf) ← insertCaseInner m n fa gf
  let m ← insertCaseOuter m n fa gf
  .ok (m, n)

def insertCaseBody : RbMem ι × ι → CRun ((RbMem ι × ι) ⊕ RbMem ι)
  | (m, n) =>
      match (m.nodes n).parent with
      | none => .ok (.inr m)
      | some fa =>
          if (m.nodes fa).color = .red then do
            let uc ← uncle m n
            if isNullOrBlack m uc then
              let (m, n) ← insertCaseRotate m n fa
              .ok (.inl (m, n))
            else
              let uc ← deref uc
              let m := m.setColor fa .black
              let m := m.setColor uc .black
              let gf ← deref (m.nodes fa).parent
              .ok (.inl (m.setColor gf .red, gf))
          else .ok (.inr m)

/-- `rb_tree_insert_case` (`t` and `n` are never NULL here). -/
def rbTreeInsertCase (fuel : Nat) (m : RbMem ι) (n : ι) : CRun (RbMem ι) := do
  let m ← cloop insertCaseBody fuel (m, n)
  let r ← deref m.root
  .ok (m.setColor r .black)

/-! ## Removal -/

/-- `delete_case1` -/
def deleteCase1 (d : Side) (m : RbMem ι) (fa s : ι) : CRun (RbMem ι × ι) := do
  let m := m.setColor s .black
  let m := m.setColor fa .red
  let m ← rotateTo d m fa
  let s ← deref ((m.nodes fa).child d.flip)
  .ok (m, s)

/-- `delete_case3` -/
def deleteCase3 (d : Side) (m : RbMem ι) (fa s : ι) : CRun (RbMem ι × ι) := do
  let m := m.setColorIf ((m.nodes s).child d) .black
  let m := m.setColor s .red
  let m ← rotateTo d.flip m s
  let s ← deref ((m.nodes fa).child d.flip)
  .ok (m, s)

/-- `delete_case4`, without its last line `n = t->root`. -/
def deleteCase4 (d : Side) (m : RbMem ι) (fa s : ι) : CRun (RbMem ι) := do
  let m := m.setColor s (m.nodes fa).color
  let m := m.setColor fa .black
  let m := m.setColorIf ((m.nodes s).child d.flip) .black
  rotateTo d m fa

/-- The turn of the loop once the sibling `s` is black. -/
def deleteCaseBlack (d : Side) (m : RbMem ι) (fa s : ι) :
    CRun ((RbMem ι × Option ι × Option ι) ⊕ (RbMem ι × Option ι)) :=
  if isNullOrBlack m (m.nodes s).left ∧ isNullOrBlack m (m.nodes s).right then
    -- delete_case2
    let m := m.setColor s .red
    .ok (.inl (m, some fa, (m.nodes fa).parent))
  else do
    let (m, s) ←
      (if isNullOrBlack m ((m.nodes s).child d.flip) then deleteCase3 d m fa s
      else .ok (m, s))
    let m ← deleteCase4 d m fa s
    .ok (.inr (m, m.root))

/-- One turn of the loop with `n` on side `d` of `fa`. -/
def deleteCaseSide (d : Side) (m : RbMem ι) (fa : ι) :
    CRun ((RbMem ι × Option ι × Option ι) ⊕ (RbMem ι × Option ι)) := do
  let s ← deref ((m.nodes fa).child d.flip)
  let (m, s) ← (if (m.nodes s).color = .red then deleteCase1 d m fa s else .ok (m, s))
  deleteCaseBlack d m fa s

def deleteCaseBody : RbMem ι × Option ι × Option ι →
    CRun ((RbMem ι × Option ι × Option ι) ⊕ (RbMem ι × Option ι))
  | (m, n, fa) =>
      if isNullOrBlack m n ∧ n ≠ m.root then do
        let fa ← deref fa
        deleteCaseSide (if n = (m.nodes fa).left then .left else .right) m fa
      else .ok (.inr (m, n))

/-- `rb_tree_delete_case` -/
def rbTreeDeleteCase (fuel : Nat) (m : RbMem ι) (n fa : Option ι) : CRun (RbMem ι) := do
  let (m, n) ← cloop deleteCaseBody fuel (m, n, fa)
  .ok (m.setColorIf n .black)

/-- The branch of `swap_node_with_leaf` on `leaf->parent`: hand `leaf`'s right
child to its parent, unless the parent is `n`. The result holds `fa`. -/
def detachLeaf (m : RbMem ι) (n leaf : ι) (rc : Option ι) :
    CRun (RbMem ι × Option ι) :=
  let fa := (m.nodes leaf).parent
  if fa = some n then .ok (m, some leaf)
  else do
    let m := m.setParentIf rc fa
    let f ← deref fa
    let m := m.setChild .left f rc
    let m := m.setChild .right leaf (m.nodes n).right
    let r ← deref (m.nodes n).right
    .ok (m.setParent r (some leaf), fa)

/-- `swap_node_with_leaf` -/
def swapNodeWithLeaf (fuel : Nat) (m : RbMem ι) (n leaf : ι) : CRun (RbMem ι) := do
  let color := (m.nodes leaf).color
  let m := m.relink (m.nodes n).parent n (some leaf)
  let rc := (m.nodes leaf).right
  let (m, fa) ← detachLeaf m n leaf rc
  let m := m.setParent leaf (m.nodes n).parent
  let m := m.setColor leaf (m.nodes n).color
  let m := m.setChild .left leaf (m.nodes n).left
  let l ← deref (m.nodes n).left
  let m := m.setParent l (some leaf)
  if color = .black then rbTreeDeleteCase fuel m rc fa else .ok m

/-- `swap_node_with_subtree` -/
def swapNodeWithSubtree (fuel : Nat) (m : RbMem ι) (n : ι) (sub : Option ι) :
    CRun (RbMem ι) :=
  match (m.nodes n).parent with
  | none => do
      let m := m.setRoot sub
      let sub ← deref sub
      let m := m.setColor sub .black
      .ok (m.setParent sub none)
  | some gf => do
      let m := m.relink (some gf) n sub
      let sub ← deref sub
      let m := m.setParent sub (some gf)
      if (m.nodes n).color = .red ∨ (m.nodes sub).color = .red then
        .ok (m.setColor sub .black)
      else rbTreeDeleteCase fuel m (some sub) (some gf)

/-- `remove_node_has_one_child` -/
def removeNodeHasOneChild (fuel : Nat) (m : RbMem ι) (ori : ι) : CRun (RbMem ι) :=
  let fa := (m.nodes ori).parent
  let sub := if (m.nodes ori).left = none then (m.nodes ori).right else (m.nodes ori).left
  let m := m.setParentIf sub fa
  let m := m.relink fa ori sub
  if (m.nodes ori).color = .black then rbTreeDeleteCase fuel m sub fa else .ok m

/-- One step of `while (leaf->left != NULL) leaf = leaf->left`. -/
def leftmostBody (m : RbMem ι) (leaf : ι) : CRun (ι ⊕ ι) :=
  match (m.nodes leaf).left with
  | some l => .ok (.inl l)
  | none => .ok (.inr leaf)

/-- `rb_tree_delete` (`t` and `n` are never NULL here). -/
def rbTreeDelete (fuel : Nat) (m : RbMem ι) (n : ι) : CRun (RbMem ι) :=
  if (m.nodes n).left = none ∨ (m.nodes n).right = none then
    removeNodeHasOneChild fuel m n
  else do
    let leaf ← deref (m.nodes n).right
    let leaf ← cloop (leftmostBody m) fuel leaf
    swapNodeWithLeaf fuel m n leaf

/-- `rb_tree_remove_subtree`: the sibling takes the parent's place, and the
parent goes back in at the edge of the sibling's subtree. -/
def rbTreeRemoveSubtree (fuel : Nat) (m : RbMem ι) (sub : ι) : CRun (RbMem ι) :=
  match (m.nodes sub).parent with
  | none => .ok (m.setRoot none)
  | some fa => do
      let d : Side := if (m.nodes fa).left = some sub then .left else .right
      let sil := (m.nodes fa).child d.flip
      let m ← swapNodeWithSubtree fuel m fa sil
      let (m, _) ← rbTreeInsertToMost d fuel m sil fa
      rbTreeInsertCase fuel m fa

/-! ## Traversal -/

/-- One turn of `rb_tree_postorder_travel`: go down, or cut the leaf off its
parent, visit it and go up. -/
def travelBody {τ : Type} (func : ι → RbMem ι × τ → CRun (RbMem ι × τ)) :
    (RbMem ι × τ) × Option ι → CRun (((RbMem ι × τ) × Option ι) ⊕ (RbMem ι × τ))
  | (s, none) => .ok (.inr s)
  | ((m, w), some tn) =>
      if (m.nodes tn).left ≠ none then .ok (.inl ((m, w), (m.nodes tn).left))
      else if (m.nodes tn).right ≠ none then .ok (.inl ((m, w), (m.nodes tn).right))
      else do
        let fa := (m.nodes tn).parent
        let m := match fa with
          | none => m
          | some f =>
              if (m.nodes f).left = some tn then m.setChild .left f none
              else m.setChild .right f none
        let s ← func tn (m, w)
        .ok (.inl (s, fa))

/-- `rb_tree_postorder_travel`; the visitor may change the memory and
whatever else (`τ`) it works on. -/
def rbTreePostorderTravel {τ : Type} (func : ι → RbMem ι × τ → CRun (RbMem ι × τ))
    (fuel : Nat) (s : RbMem ι × τ) (tn : Option ι) : CRun (RbMem ι × τ) :=
  cloop (travelBody func) fuel (s, tn)

end Artorias
