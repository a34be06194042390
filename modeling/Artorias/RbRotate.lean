import Artorias.RbTree

/-!
# Rotations on a memory that holds a tree

The specification of the rotations, and what a memory that holds a tree
(`MemAt`) answers when the C code reads it: the links of the node in the hole
and of its parent, the test that finds out on which side a child hangs.

Every specification here and in the modules above it has the same form: run
on a memory that holds a tree, the function ends without a NULL dereference
in a memory that holds the tree the zipper computes, and every node outside
the tree is as it was (`Keeps`).
-/

namespace Artorias

variable {ι : Type} [DecidableEq ι]

/-! ## Rotations -/

theorem rotate_spec {s : Side} {m : RbMem ι} {ps : List (Frame ι)} {cp cq : Color}
    {a y z : Tree ι} {p q : ι}
    (h : MemAt m ps (s.node cp a p (s.node cq y q z))) :
    ∃ m', rotate s m p = .ok m'
      ∧ MemAt m' ps (s.node cq (s.node cp a p y) q z)
      ∧ Keeps (plug ps (s.node cp a p (s.node cq y q z))).toList m m' := by
  obtain ⟨hr, hp, ht, hn⟩ := h
  obtain ⟨⟨hpp, hpc, hps, hpf⟩, ha, hq⟩ := (treeAt_node s).mp ht
  obtain ⟨⟨hqp, hqc, hqs, hqf⟩, hy, hz⟩ := (treeAt_node s).mp hq
  rw [Side.root_node] at hr hp hpf
  have hperm : (plug ps (s.node cp a p (s.node cq y q z))).toList.Perm
      ((p :: (a.toList ++ q :: (y.toList ++ z.toList))) ++ pathItems ps) :=
    (plug_perm ps _).trans (((s.perm_toList_node ..).trans
      ((s.perm_toList_node ..).append_left _ |>.cons p)).append_right _)
  have hnd := hperm.nodup_iff.mp hn
  simp only [List.cons_append, List.nodup_cons, List.mem_append, List.mem_cons,
    List.append_assoc, List.nodup_append, not_or] at hnd
  -- the writes, one after the other
  let m1 := m.setParentIf y.root (some p)
  let m2 := m1.setChild s.flip p y.root
  let m3 := m2.relink (parentOf ps) p (some q)
  let m6 := ((m3.setChild s q (some p)).setParent q (parentOf ps)).setParent p (some q)
  have hk1 : ∀ n, n ∉ y.toList → m1.nodes n = m.nodes n := fun n hny =>
    m.setParentIf_of_ne _ fun h => hny (Tree.root_mem h)
  have hk2 : ∀ n, n ≠ p → m2.nodes n = m1.nodes n := fun n hnp =>
    m1.setChild_of_ne _ _ hnp
  have hn2 : m2.nodes p = (m.nodes p).setChild s.flip y.root := by
    rw [show m2.nodes p = (m1.nodes p).setChild s.flip y.root from m1.setChild_self ..,
      hk1 p (by grind)]
  have hrun : rotate s m p = .ok m6 := by
    rw [rotate, hpf, deref_some, cbind_ok, hqs]
    show Except.ok (((((m2.relink (m2.nodes p).parent p (some q)).setChild s q
      (some p)).setParent q (m2.nodes p).parent)).setParent p (some q)) = _
    rw [hn2, RbNode.setChild_parent, hpp]
  obtain ⟨hr3, hp3, hk3⟩ := PathAt.relink (m := m2) (x := p)
    (by rw [← hr]; exact m.setParentIf_root ..)
    (hp.congr fun n hnP => by rw [hk2 n (by grind), hk1 n (by grind)])
    (by grind) (by grind) (some q)
  have hk6 : ∀ n, n ≠ p → n ≠ q → m6.nodes n = m3.nodes n := fun n h1 h2 => by
    rw [RbMem.setParent_of_ne _ _ h1, RbMem.setParent_of_ne _ _ h2,
      RbMem.setChild_of_ne _ _ _ h2]
  have hpq : p ≠ q := by grind
  have hnp : m6.nodes p
      = ((m.nodes p).setChild s.flip y.root).setParent (some q) := by
    rw [RbMem.setParent_self, RbMem.setParent_of_ne _ _ hpq,
      RbMem.setChild_of_ne _ _ _ hpq, hk3 p (by grind), hn2]
  have hnq : m6.nodes q
      = ((m.nodes q).setChild s (some p)).setParent (parentOf ps) := by
    rw [RbMem.setParent_of_ne _ _ hpq.symm, RbMem.setParent_self, RbMem.setChild_self,
      hk3 q (by grind), hk2 q hpq.symm, hk1 q (by grind)]
  have hback : ∀ n, n ≠ p → n ≠ q → n ∉ y.toList → n ∉ pathItems ps →
      m6.nodes n = m.nodes n := fun n h1 h2 h3 h4 => by
    rw [hk6 n h1 h2, hk3 n h4, hk2 n h1, hk1 n h3]
  refine ⟨m6, hrun, ⟨?_, ?_, ?_, ?_⟩, ?_⟩
  · rw [Side.root_node]
    exact hr3
  · rw [Side.root_node]
    exact hp3.congr fun n hnP => hk6 n (by grind) (by grind)
  · refine (treeAt_node s).mpr
      ⟨⟨?_, ?_, ?_, ?_⟩, (treeAt_node s).mpr ⟨⟨?_, ?_, ?_, ?_⟩, ?_, ?_⟩, ?_⟩
    · rw [hnq]; simp
    · rw [hnq]; simpa using hqc
    · rw [hnq]; simp
    · rw [hnq]; simpa using hqf
    · rw [hnp]; simp
    · rw [hnp]; simpa using hpc
    · rw [hnp]; simpa using hps
    · rw [hnp]; simp
    · exact ha.congr fun n hna => hback n (by grind) (by grind) (by grind) (by grind)
    · refine (hy.setParentIf (some p) (by grind)).congr fun n hny => ?_
      rw [hk6 n (by grind) (by grind), hk3 n (by grind), hk2 n (by grind)]
    · exact hz.congr fun n hnz => hback n (by grind) (by grind) (by grind) (by grind)
  · rw [toList_plug_congr _ (show (s.node cq (s.node cp a p y) q z).toList
      = (s.node cp a p (s.node cq y q z)).toList by cases s <;> simp [Side.node])]
    exact hn
  · intro n hnm
    have hnm' := fun h => hnm (hperm.mem_iff.mpr h)
    simp only [List.cons_append, List.mem_append, List.mem_cons] at hnm'
    exact hback n (by grind) (by grind) (by grind) (by grind)

theorem rotateTo_spec {s : Side} {m : RbMem ι} {ps : List (Frame ι)} {cp cq : Color}
    {a y z : Tree ι} {p q : ι}
    (h : MemAt m ps (s.node cp a p (s.node cq y q z))) :
    ∃ m', rotateTo s m p = .ok m'
      ∧ MemAt m' ps (s.node cq (s.node cp a p y) q z)
      ∧ Keeps (plug ps (s.node cp a p (s.node cq y q z))).toList m m' := by
  obtain ⟨m', hrun, h'⟩ := rotate_spec h
  refine ⟨m', ?_, h'⟩
  cases s with
  | right => exact hrun
  | left =>
      obtain ⟨⟨-, -, -, hf⟩, -, -⟩ := (treeAt_node .left).mp h.tree
      rw [Side.flip_left, RbNode.child_right, Side.root_node] at hf
      rw [rotateTo, rotateLeft, if_neg (by rw [hf]; simp)]
      exact hrun

/-! ## Reading the memory -/

section
omit [DecidableEq ι]

theorem MemAt.hole {m : RbMem ι} {ps : List (Frame ι)} {s : Side} {c : Color}
    {a b : Tree ι} {x : ι} (h : MemAt m ps (s.node c a x b)) :
    (m.nodes x).parent = parentOf ps ∧ (m.nodes x).color = c
      ∧ (m.nodes x).child s = a.root ∧ (m.nodes x).child s.flip = b.root :=
  ((treeAt_node s).mp h.tree).1

theorem MemAt.parent {m : RbMem ι} {ps : List (Frame ι)} {t : Tree ι} {x : ι}
    (h : MemAt m ps t) (hx : t.root = some x) : (m.nodes x).parent = parentOf ps := by
  cases t with
  | nil => cases hx
  | node c l y r =>
      obtain rfl : y = x := Option.some.inj hx
      exact (MemAt.hole (s := .left) h).1

theorem MemAt.frame {m : RbMem ι} {f : Frame ι} {ps : List (Frame ι)} {t : Tree ι}
    (h : MemAt m (f :: ps) t) :
    (m.nodes f.item).parent = parentOf ps ∧ (m.nodes f.item).color = f.color
      ∧ (m.nodes f.item).child f.side = t.root
      ∧ (m.nodes f.item).child f.side.flip = f.sib.root :=
  h.path.1

theorem MemAt.swap {m : RbMem ι} {f : Frame ι} {ps : List (Frame ι)} {t : Tree ι} :
    MemAt m (f :: ps) t ↔ MemAt m (⟨f.side.flip, f.color, f.item, t⟩ :: ps) f.sib := by
  rw [memAt_fill, memAt_fill, Frame.fill, Frame.fill, Side.node_flip]

theorem MemAt.root_ne_sib {m : RbMem ι} {f : Frame ι} {ps : List (Frame ι)} {t : Tree ι}
    {x : ι} (h : MemAt m (f :: ps) t) (hx : t.root = some x) : f.sib.root ≠ some x := by
  intro hs
  have hnd := (plug_perm (f :: ps) t).nodup_iff.mp h.nodup
  exact (List.nodup_append.mp hnd).2.2 x (Tree.root_mem hx) x
    (by simp [pathItems, Tree.root_mem hs]) rfl

theorem MemAt.child_eq_iff {m : RbMem ι} {f : Frame ι} {ps : List (Frame ι)} {t : Tree ι}
    {x : ι} (h : MemAt m (f :: ps) t) (hx : t.root = some x) (s : Side) :
    (m.nodes f.item).child s = some x ↔ f.side = s := by
  obtain ⟨-, -, hs, hf⟩ := h.frame
  constructor
  · intro he
    by_contra hne
    rw [show s = f.side.flip from Side.eq_flip_of_ne (Ne.symm hne), hf] at he
    exact h.root_ne_sib hx he
  · rintro rfl
    rw [hs, hx]

theorem isNullOrBlack_root {m : RbMem ι} {p : Option ι} {t : Tree ι}
    (h : TreeAt m.nodes p t) : isNullOrBlack m t.root = decide (t.color = .black) := by
  cases t with
  | nil => rfl
  | node c l x r =>
      rw [Tree.root_node, isNullOrBlack, Tree.color_node, h.1]

end

theorem keeps_setColor {m : RbMem ι} {L : List ι} {x : ι} (c : Color) (hx : x ∈ L) :
    Keeps L m (m.setColor x c) :=
  fun _ hy => m.setColor_of_ne c fun h => hy (h ▸ hx)

end Artorias
