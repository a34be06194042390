import Mathlib.Logic.Function.Basic
import Artorias.ZipTree

/-!
# Trees with parent links in memory

A memory holds, for every address, a node with its three links and its
colour, and besides them the root pointer of the tree at hand. `MemAt m ps t`
says that `m` holds the tree `plug ps t`, seen from the hole of `ps`: the
frames of the path and the subtree `t` are laid out with all links, parent
links included, and no address occurs twice.

The walk of an iterative algorithm moves the focus (`memAt_fill`); its
writes are single-field updates. `relink` is the update all of them end in:
the child of `fa` that was `x` becomes `v`, or the root does.
-/

namespace Artorias

structure RbNode (ι : Type) where
  parent : Option ι
  left : Option ι
  right : Option ι
  color : Color
deriving Repr, DecidableEq

namespace RbNode

variable {ι : Type}

def child (n : RbNode ι) (s : Side) : Option ι := s.pick n.left n.right

def setChild (n : RbNode ι) (s : Side) (v : Option ι) : RbNode ι :=
  match s with
  | .left => { n with left := v }
  | .right => { n with right := v }

def setParent (n : RbNode ι) (p : Option ι) : RbNode ι := { n with parent := p }

def setColor (n : RbNode ι) (c : Color) : RbNode ι := { n with color := c }

@[simp] theorem child_left (n : RbNode ι) : n.child .left = n.left := rfl
@[simp] theorem child_right (n : RbNode ι) : n.child .right = n.right := rfl

@[simp] theorem setChild_parent (n : RbNode ι) (s : Side) (v : Option ι) :
    (n.setChild s v).parent = n.parent := by cases s <;> rfl

@[simp] theorem setChild_color (n : RbNode ι) (s : Side) (v : Option ι) :
    (n.setChild s v).color = n.color := by cases s <;> rfl

@[simp] theorem setChild_self (n : RbNode ι) (s : Side) (v : Option ι) :
    (n.setChild s v).child s = v := by cases s <;> rfl

@[simp] theorem setChild_flip (n : RbNode ι) (s : Side) (v : Option ι) :
    (n.setChild s v).child s.flip = n.child s.flip := by cases s <;> rfl

@[simp] theorem setChild_of_flip (n : RbNode ι) (s : Side) (v : Option ι) :
    (n.setChild s.flip v).child s = n.child s := by cases s <;> rfl

@[simp] theorem setParent_parent (n : RbNode ι) (p : Option ι) :
    (n.setParent p).parent = p := rfl

@[simp] theorem setParent_color (n : RbNode ι) (p : Option ι) :
    (n.setParent p).color = n.color := rfl

@[simp] theorem setParent_child (n : RbNode ι) (s : Side) (p : Option ι) :
    (n.setParent p).child s = n.child s := by cases s <;> rfl

@[simp] theorem setColor_parent (n : RbNode ι) (c : Color) :
    (n.setColor c).parent = n.parent := rfl

@[simp] theorem setColor_color (n : RbNode ι) (c : Color) :
    (n.setColor c).color = c := rfl

@[simp] theorem setColor_child (n : RbNode ι) (s : Side) (c : Color) :
    (n.setColor c).child s = n.child s := by cases s <;> rfl

end RbNode

structure RbMem (ι : Type) where
  root : Option ι
  nodes : ι → RbNode ι

variable {ι : Type}

/-! ## A subtree in memory -/

/-- `t` is laid out in memory, with `p` for the parent of its root. -/
def TreeAt (h : ι → RbNode ι) : Option ι → Tree ι → Prop
  | _, .nil => True
  | p, .node c l x r =>
      h x = ⟨p, l.root, r.root, c⟩ ∧ TreeAt h (some x) l ∧ TreeAt h (some x) r

theorem treeAt_node (s : Side) {h : ι → RbNode ι} {p : Option ι} {c : Color}
    {a b : Tree ι} {x : ι} :
    TreeAt h p (s.node c a x b) ↔
      ((h x).parent = p ∧ (h x).color = c ∧ (h x).child s = a.root
        ∧ (h x).child s.flip = b.root) ∧ TreeAt h (some x) a ∧ TreeAt h (some x) b := by
  have hx : ∀ n : RbNode ι, ∀ l r,
      n = ⟨p, l, r, c⟩ ↔ n.parent = p ∧ n.color = c ∧ n.left = l ∧ n.right = r := by
    rintro ⟨p', l', r', c'⟩ l r
    simp only [RbNode.mk.injEq]
    tauto
  cases s with
  | left => simp only [Side.node, TreeAt, hx, RbNode.child_left, RbNode.child_right,
      Side.flip_left]
  | right =>
      simp only [Side.node, TreeAt, hx, RbNode.child_left, RbNode.child_right,
        Side.flip_right]
      tauto

theorem TreeAt.congr {h h' : ι → RbNode ι} {p : Option ι} {t : Tree ι}
    (heq : ∀ y ∈ t.toList, h' y = h y) (ht : TreeAt h p t) : TreeAt h' p t := by
  induction t generalizing p with
  | nil => trivial
  | node c l x r ihl ihr =>
      obtain ⟨hx, hl, hr⟩ := ht
      refine ⟨(heq x (by simp)).trans hx, ihl (fun y hy => heq y ?_) hl,
        ihr (fun y hy => heq y ?_) hr⟩ <;> simp [hy]

/-! ## A path in memory -/

def parentOf : List (Frame ι) → Option ι
  | [] => none
  | f :: _ => some f.item

/-- The root pointer, when the hole holds a tree with root `q`. -/
def rootOf : List (Frame ι) → Option ι → Option ι
  | [], q => q
  | f :: ps, _ => rootOf ps (some f.item)

def pathItems : List (Frame ι) → List ι
  | [] => []
  | f :: ps => f.item :: (f.sib.toList ++ pathItems ps)

/-- The path is laid out in memory, with `q` for the pointer into the hole. -/
def PathAt (h : ι → RbNode ι) : Option ι → List (Frame ι) → Prop
  | _, [] => True
  | q, f :: ps =>
      ((h f.item).parent = parentOf ps ∧ (h f.item).color = f.color
        ∧ (h f.item).child f.side = q ∧ (h f.item).child f.side.flip = f.sib.root)
      ∧ TreeAt h (some f.item) f.sib ∧ PathAt h (some f.item) ps

theorem rootOf_eq (ps : List (Frame ι)) (t : Tree ι) :
    rootOf ps t.root = (plug ps t).root := by
  induction ps generalizing t with
  | nil => rfl
  | cons f ps ih => rw [rootOf, plug_cons, ← ih, Frame.root_fill]

theorem plug_perm (ps : List (Frame ι)) (t : Tree ι) :
    (plug ps t).toList.Perm (t.toList ++ pathItems ps) := by
  induction ps generalizing t with
  | nil => simp [pathItems]
  | cons f ps ih =>
      refine (ih (f.fill t)).trans ?_
      have h := (f.side.perm_toList_node f.color t f.item f.sib).append_right (pathItems ps)
      refine h.trans ?_
      simp only [pathItems, List.cons_append, List.append_assoc]
      exact List.perm_middle.symm

theorem mem_plug {ps : List (Frame ι)} {t : Tree ι} {y : ι} :
    y ∈ (plug ps t).toList ↔ y ∈ t.toList ∨ y ∈ pathItems ps := by
  rw [(plug_perm ps t).mem_iff, List.mem_append]

theorem PathAt.congr {h h' : ι → RbNode ι} {q : Option ι} {ps : List (Frame ι)}
    (heq : ∀ y ∈ pathItems ps, h' y = h y) (hp : PathAt h q ps) : PathAt h' q ps := by
  induction ps generalizing q with
  | nil => trivial
  | cons f ps ih =>
      obtain ⟨hf, hs, hp⟩ := hp
      refine ⟨?_, hs.congr fun y hy => heq y ?_, ih (fun y hy => heq y ?_) hp⟩
      · rw [heq f.item (by simp [pathItems])]
        exact hf
      · simp [pathItems, hy]
      · simp [pathItems, hy]

/-! ## The whole memory -/

structure MemAt (m : RbMem ι) (ps : List (Frame ι)) (t : Tree ι) : Prop where
  root : m.root = rootOf ps t.root
  path : PathAt m.nodes t.root ps
  tree : TreeAt m.nodes (parentOf ps) t
  nodup : (plug ps t).toList.Nodup

theorem memAt_fill {m : RbMem ι} {f : Frame ι} {ps : List (Frame ι)} {t : Tree ι} :
    MemAt m (f :: ps) t ↔ MemAt m ps (f.fill t) := by
  constructor
  · rintro ⟨hr, ⟨hf, hs, hp⟩, ht, hn⟩
    exact ⟨by rw [Frame.root_fill]; exact hr, by rw [Frame.root_fill]; exact hp,
      (treeAt_node f.side).mpr ⟨hf, ht, hs⟩, hn⟩
  · rintro ⟨hr, hp, ht, hn⟩
    rw [Frame.root_fill] at hr hp
    obtain ⟨hf, ht, hs⟩ := (treeAt_node f.side).mp ht
    exact ⟨hr, ⟨hf, hs, hp⟩, ht, hn⟩

theorem memAt_plug {m : RbMem ι} {qs ps : List (Frame ι)} {t : Tree ι} :
    MemAt m (qs ++ ps) t ↔ MemAt m ps (plug qs t) := by
  induction qs generalizing t with
  | nil => exact Iff.rfl
  | cons f qs ih => exact memAt_fill.trans ih

/-- A tree in memory with a hole is the whole tree in memory, seen from the root. -/
theorem memAt_root {m : RbMem ι} {ps : List (Frame ι)} {t : Tree ι} :
    MemAt m ps t ↔ MemAt m [] (plug ps t) := by
  rw [← memAt_plug, List.append_nil]

/-- Nothing outside `L` has changed. -/
def Keeps (L : List ι) (m m' : RbMem ι) : Prop := ∀ y, y ∉ L → m'.nodes y = m.nodes y

theorem Keeps.refl (L : List ι) (m : RbMem ι) : Keeps L m m := fun _ _ => rfl

theorem Keeps.mono {L L' : List ι} {m m' : RbMem ι} (h : Keeps L m m')
    (hL : ∀ y ∈ L, y ∈ L') : Keeps L' m m' :=
  fun y hy => h y fun hyL => hy (hL y hyL)

theorem Keeps.trans {L : List ι} {m m' m'' : RbMem ι} (h : Keeps L m m')
    (h' : Keeps L m' m'') : Keeps L m m'' :=
  fun y hy => (h' y hy).trans (h y hy)

/-! ## Single-field updates -/

namespace RbMem

def setRoot (m : RbMem ι) (v : Option ι) : RbMem ι := { m with root := v }

@[simp] theorem setRoot_root (m : RbMem ι) (v : Option ι) : (m.setRoot v).root = v := rfl
@[simp] theorem setRoot_nodes (m : RbMem ι) (v : Option ι) :
    (m.setRoot v).nodes = m.nodes := rfl

variable [DecidableEq ι]

def put (m : RbMem ι) (x : ι) (n : RbNode ι) : RbMem ι :=
  { m with nodes := Function.update m.nodes x n }

def setParent (m : RbMem ι) (x : ι) (v : Option ι) : RbMem ι :=
  m.put x ((m.nodes x).setParent v)

def setChild (m : RbMem ι) (s : Side) (x : ι) (v : Option ι) : RbMem ι :=
  m.put x ((m.nodes x).setChild s v)

def setColor (m : RbMem ι) (x : ι) (c : Color) : RbMem ι :=
  m.put x ((m.nodes x).setColor c)

/-- Set the parent of what `q` points at, if it points at anything. -/
def setParentIf (m : RbMem ι) (q p : Option ι) : RbMem ι :=
  match q with
  | some y => m.setParent y p
  | none => m

/-- Set the colour of what `q` points at, if it points at anything. -/
def setColorIf (m : RbMem ι) (q : Option ι) (c : Color) : RbMem ι :=
  match q with
  | some y => m.setColor y c
  | none => m

/-- `v` takes the place of `x` under `fa`, or at the root. -/
def relink (m : RbMem ι) (fa : Option ι) (x : ι) (v : Option ι) : RbMem ι :=
  match fa with
  | none => m.setRoot v
  | some fa =>
      if (m.nodes fa).left = some x then m.setChild .left fa v
      else m.setChild .right fa v

@[simp] theorem put_root (m : RbMem ι) (x : ι) (n : RbNode ι) :
    (m.put x n).root = m.root := rfl
@[simp] theorem put_self (m : RbMem ι) (x : ι) (n : RbNode ι) :
    (m.put x n).nodes x = n := Function.update_self ..
theorem put_of_ne (m : RbMem ι) {x y : ι} (n : RbNode ι) (h : y ≠ x) :
    (m.put x n).nodes y = m.nodes y := Function.update_of_ne h ..

@[simp] theorem setParent_root (m : RbMem ι) (x : ι) (v : Option ι) :
    (m.setParent x v).root = m.root := rfl
@[simp] theorem setParent_self (m : RbMem ι) (x : ι) (v : Option ι) :
    (m.setParent x v).nodes x = (m.nodes x).setParent v := put_self ..
theorem setParent_of_ne (m : RbMem ι) {x y : ι} (v : Option ι) (h : y ≠ x) :
    (m.setParent x v).nodes y = m.nodes y := put_of_ne _ _ h

@[simp] theorem setChild_root (m : RbMem ι) (s : Side) (x : ι) (v : Option ι) :
    (m.setChild s x v).root = m.root := rfl
@[simp] theorem setChild_self (m : RbMem ι) (s : Side) (x : ι) (v : Option ι) :
    (m.setChild s x v).nodes x = (m.nodes x).setChild s v := put_self ..
theorem setChild_of_ne (m : RbMem ι) (s : Side) {x y : ι} (v : Option ι) (h : y ≠ x) :
    (m.setChild s x v).nodes y = m.nodes y := put_of_ne _ _ h

@[simp] theorem setColor_root (m : RbMem ι) (x : ι) (c : Color) :
    (m.setColor x c).root = m.root := rfl
@[simp] theorem setColor_self (m : RbMem ι) (x : ι) (c : Color) :
    (m.setColor x c).nodes x = (m.nodes x).setColor c := put_self ..
theorem setColor_of_ne (m : RbMem ι) {x y : ι} (c : Color) (h : y ≠ x) :
    (m.setColor x c).nodes y = m.nodes y := put_of_ne _ _ h

@[simp] theorem setParentIf_root (m : RbMem ι) (q p : Option ι) :
    (m.setParentIf q p).root = m.root := by cases q <;> rfl
theorem setParentIf_of_ne (m : RbMem ι) {q : Option ι} {y : ι} (p : Option ι)
    (h : q ≠ some y) : (m.setParentIf q p).nodes y = m.nodes y := by
  cases q with
  | none => rfl
  | some x => exact m.setParent_of_ne p (fun hyx => h (by rw [hyx]))

/-! An update reads, at every address, only what was at that address. -/

theorem setParent_congr {m m' : RbMem ι} {y : ι} (h : m'.nodes y = m.nodes y) (x : ι)
    (v : Option ι) : (m'.setParent x v).nodes y = (m.setParent x v).nodes y := by
  by_cases hy : y = x
  · rw [← hy, setParent_self, setParent_self, h]
  · rw [setParent_of_ne _ _ hy, setParent_of_ne _ _ hy, h]

theorem setChild_congr {m m' : RbMem ι} {y : ι} (h : m'.nodes y = m.nodes y) (s : Side)
    (x : ι) (v : Option ι) : (m'.setChild s x v).nodes y = (m.setChild s x v).nodes y := by
  by_cases hy : y = x
  · rw [← hy, setChild_self, setChild_self, h]
  · rw [setChild_of_ne _ _ _ hy, setChild_of_ne _ _ _ hy, h]

theorem setParentIf_congr {m m' : RbMem ι} {y : ι} (h : m'.nodes y = m.nodes y)
    (q p : Option ι) : (m'.setParentIf q p).nodes y = (m.setParentIf q p).nodes y := by
  cases q with
  | none => exact h
  | some x => exact setParent_congr h x p

end RbMem

variable [DecidableEq ι]

/-- Moving a subtree under another parent writes its root's parent link only. -/
theorem TreeAt.setParentIf {m : RbMem ι} {p : Option ι} {t : Tree ι} (p' : Option ι)
    (ht : TreeAt m.nodes p t) (hn : t.toList.Nodup) :
    TreeAt (m.setParentIf t.root p').nodes p' t := by
  cases t with
  | nil => trivial
  | node c l x r =>
      obtain ⟨hx, hl, hr⟩ := ht
      simp only [Tree.toList_node, List.nodup_append, List.nodup_cons] at hn
      refine ⟨by simp [RbMem.setParentIf, hx, RbNode.setParent], hl.congr fun y hy => ?_,
        hr.congr fun y hy => ?_⟩
      · exact RbMem.setParent_of_ne _ _ fun hyx => hn.2.2 y hy x (by simp) hyx
      · exact RbMem.setParent_of_ne _ _ fun hyx => hn.2.1.1 (hyx ▸ hy)

/-! ## Updates at the hole -/

/-- Under the last frame of a path, `relink` writes the child on the hole's side: the
sibling does not hold `x`. -/
theorem relink_frame {m : RbMem ι} {f : Frame ι} {ps : List (Frame ι)} {x : ι}
    (hp : PathAt m.nodes (some x) (f :: ps)) (hx : x ∉ pathItems (f :: ps))
    (v : Option ι) :
    m.relink (some f.item) x v = m.setChild f.side f.item v := by
  obtain ⟨⟨-, -, hs, hf⟩, -, -⟩ := hp
  have hsib : f.sib.root ≠ some x := fun h =>
    hx (by simp [pathItems, Tree.root_mem h])
  obtain ⟨s, c, y, u⟩ := f
  cases s with
  | left => simp only [RbMem.relink]; exact if_pos hs
  | right => simp only [RbMem.relink]; exact if_neg fun h => hsib (hf.symm.trans h)

theorem PathAt.relink {m : RbMem ι} {ps : List (Frame ι)} {x : ι}
    (hr : m.root = rootOf ps (some x)) (hp : PathAt m.nodes (some x) ps)
    (hn : (pathItems ps).Nodup) (hx : x ∉ pathItems ps) (v : Option ι) :
    (m.relink (parentOf ps) x v).root = rootOf ps v
      ∧ PathAt (m.relink (parentOf ps) x v).nodes v ps
      ∧ ∀ y, y ∉ pathItems ps → (m.relink (parentOf ps) x v).nodes y = m.nodes y := by
  cases ps with
  | nil => exact ⟨rfl, trivial, fun _ _ => rfl⟩
  | cons f ps =>
      rw [parentOf, relink_frame hp hx]
      obtain ⟨⟨hpar, hcol, -, hflip⟩, hsib, hrest⟩ := hp
      simp only [pathItems, List.nodup_cons, List.mem_append, not_or] at hn
      refine ⟨hr, ⟨⟨?_, ?_, ?_, ?_⟩, hsib.congr ?_, hrest.congr ?_⟩, ?_⟩
      · simpa using hpar
      · simpa using hcol
      · simp
      · simpa using hflip
      · intro y hy
        exact RbMem.setChild_of_ne _ _ _ fun h => hn.1.1 (h ▸ hy)
      · intro y hy
        exact RbMem.setChild_of_ne _ _ _ fun h => hn.1.2 (h ▸ hy)
      · intro y hy
        exact RbMem.setChild_of_ne _ _ _ fun h => hy (by simp [pathItems, h])

theorem setParentIf_relink (m : RbMem ι) (q p fa : Option ι) (x : ι) (v : Option ι) :
    (m.setParentIf q p).relink fa x v = (m.relink fa x v).setParentIf q p := by
  cases q with
  | none => rfl
  | some y =>
      cases fa with
      | none => rfl
      | some f =>
          have hleft : ((m.setParent y p).nodes f).left = (m.nodes f).left := by
            by_cases hf : f = y
            · rw [hf, RbMem.setParent_self]; rfl
            · rw [RbMem.setParent_of_ne _ _ hf]
          have hcomm : ∀ s, (m.setParent y p).setChild s f v
              = (m.setChild s f v).setParent y p := by
            intro s
            by_cases hf : f = y
            · subst hf
              cases s <;>
                simp [RbMem.setChild, RbMem.setParent, RbMem.put, RbNode.setChild,
                  RbNode.setParent]
            · simp only [RbMem.setChild, RbMem.setParent, RbMem.put_of_ne _ _ hf,
                RbMem.put_of_ne _ _ (Ne.symm hf)]
              simp only [RbMem.put, RbMem.mk.injEq, true_and]
              exact Function.update_comm (Ne.symm hf) _ _ _
          simp only [RbMem.setParentIf, RbMem.relink, hleft]
          split
          · exact hcomm .left
          · exact hcomm .right

/-- A subtree `u` of what is in the hole takes its place, by the two links that
are written. -/
theorem MemAt.lift {m : RbMem ι} {ps : List (Frame ι)} {t u : Tree ι} {x : ι}
    {p : Option ι} (h : MemAt m ps t) (hx : t.root = some x) (hu : TreeAt m.nodes p u)
    (hsub : u.toList.Sublist t.toList) :
    MemAt ((m.setParentIf u.root (parentOf ps)).relink (parentOf ps) x u.root) ps u
      ∧ Keeps (plug ps u).toList m
          ((m.setParentIf u.root (parentOf ps)).relink (parentOf ps) x u.root) := by
  have hnd := (plug_perm ps t).nodup_iff.mp h.nodup
  obtain ⟨-, hndp, hdisj⟩ := List.nodup_append.mp hnd
  have hndu : (u.toList ++ pathItems ps).Nodup := hnd.sublist (hsub.append_right _)
  obtain ⟨hndu1, -, hdisju⟩ := List.nodup_append.mp hndu
  have hkeep : ∀ y, y ∉ u.toList → (m.setParentIf u.root (parentOf ps)).nodes y = m.nodes y :=
    fun y hy => m.setParentIf_of_ne _ fun he => hy (Tree.root_mem he)
  have hpath : PathAt (m.setParentIf u.root (parentOf ps)).nodes (some x) ps := by
    rw [← hx]
    exact h.path.congr fun y hy => hkeep y fun hyu => hdisju y hyu y hy rfl
  obtain ⟨hr, hp, hk⟩ := PathAt.relink (v := u.root) (by rw [RbMem.setParentIf_root, h.root, hx])
    hpath hndp fun hxp => hdisj x (Tree.root_mem hx) x hxp rfl
  refine ⟨⟨hr, hp, ?_, (plug_perm ps u).nodup_iff.mpr hndu⟩, ?_⟩
  · exact (hu.setParentIf _ hndu1).congr fun y hy => hk y fun hyp => hdisju y hy y hyp rfl
  · intro y hy
    rw [hk y fun hyp => hy (mem_plug.mpr (.inr hyp)),
      hkeep y fun hyu => hy (mem_plug.mpr (.inl hyu))]

theorem MemAt.setColor {m : RbMem ι} {ps : List (Frame ι)} {s : Side} {c : Color}
    {a b : Tree ι} {x : ι} (c' : Color) (h : MemAt m ps (s.node c a x b)) :
    MemAt (m.setColor x c') ps (s.node c' a x b) := by
  obtain ⟨hr, hp, ht, hn⟩ := h
  obtain ⟨⟨hpar, -, hs, hf⟩, ha, hb⟩ := (treeAt_node s).mp ht
  have hnd := (plug_perm ps _).nodup_iff.mp hn
  have hnode := ((s.perm_toList_node c a x b).append_right (pathItems ps)).nodup_iff.mp hnd
  simp only [List.cons_append, List.nodup_cons, List.mem_append, not_or] at hnode
  obtain ⟨⟨⟨hxa, hxb⟩, hxp⟩, -⟩ := hnode
  have hkeep : ∀ y, y ≠ x → (m.setColor x c').nodes y = m.nodes y :=
    fun y hy => m.setColor_of_ne c' hy
  have hlist : (plug ps (s.node c' a x b)).toList = (plug ps (s.node c a x b)).toList :=
    toList_plug_congr _ (by cases s <;> rfl)
  refine ⟨by simpa using hr, ?_, (treeAt_node s).mpr ⟨⟨?_, ?_, ?_, ?_⟩, ?_, ?_⟩, ?_⟩
  · rw [Side.root_node] at hp ⊢
    exact hp.congr fun y hy => hkeep y fun h => hxp (h ▸ hy)
  · simpa using hpar
  · simp
  · simpa using hs
  · simpa using hf
  · exact ha.congr fun y hy => hkeep y fun h => hxa (h ▸ hy)
  · exact hb.congr fun y hy => hkeep y fun h => hxb (h ▸ hy)
  · rw [hlist]
    exact hn

theorem MemAt.setColor_frame {m : RbMem ι} {f : Frame ι} {ps : List (Frame ι)}
    {t : Tree ι} (c' : Color) (h : MemAt m (f :: ps) t) :
    MemAt (m.setColor f.item c') ({ f with color := c' } :: ps) t :=
  memAt_fill.mpr ((memAt_fill.mp h).setColor c')

end Artorias
