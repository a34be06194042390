import Artorias.RbRotate
import Artorias.ZipBalance

/-!
# Removal refines `deleteFix`

The four cases of `rb_tree_delete_case`, each on a memory that holds a tree
with a short subtree `t` on side `d` of `fa`; then the loop, by induction
along the path, in the cases of `deleteFix`; then the two ways
`rb_tree_delete` gets there.
-/

namespace Artorias

variable {ι : Type} [DecidableEq ι]

/-! ## Tests of the loop -/

omit [DecidableEq ι] in
theorem rootOf_mem (f : Frame ι) (ps : List (Frame ι)) (q : Option ι) :
    ∃ y ∈ pathItems (f :: ps), rootOf (f :: ps) q = some y := by
  induction ps generalizing f q with
  | nil => exact ⟨f.item, by simp [pathItems], rfl⟩
  | cons g ps ih =>
      obtain ⟨y, hy, hr⟩ := ih g (some f.item)
      exact ⟨y, by simp [pathItems] at hy ⊢; tauto, hr⟩

omit [DecidableEq ι] in
theorem MemAt.root_ne {m : RbMem ι} {f : Frame ι} {ps : List (Frame ι)} {t : Tree ι}
    (h : MemAt m (f :: ps) t) : t.root ≠ m.root := by
  obtain ⟨y, hy, hr⟩ := rootOf_mem f ps t.root
  rw [h.root, hr]
  intro ht
  have hnd := (plug_perm (f :: ps) t).nodup_iff.mp h.nodup
  exact (List.nodup_append.mp hnd).2.2 y (Tree.root_mem ht) y hy rfl

/-- The test `n == fa->left`, also for a NULL `n`: with a sibling that is not NULL it still
finds out the side, although NULL could be either child. -/
theorem MemAt.side_test {m : RbMem ι} {f : Frame ι} {ps : List (Frame ι)} {t : Tree ι}
    (h : MemAt m (f :: ps) t) (hsib : f.sib ≠ .nil) :
    (if t.root = (m.nodes f.item).left then Side.left else Side.right) = f.side := by
  obtain ⟨-, -, hs, hf⟩ := h.frame
  have hne : t.root ≠ f.sib.root := by
    intro he
    cases ht : t.root with
    | some x => exact h.root_ne_sib ht (he.symm.trans ht)
    | none =>
        cases hu : f.sib with
        | nil => exact hsib hu
        | node c l x r => rw [ht, hu] at he; cases he
  cases hside : f.side with
  | left =>
      rw [hside, RbNode.child_left] at hs
      exact if_pos hs.symm
  | right =>
      rw [hside, Side.flip_right, RbNode.child_left] at hf
      exact if_neg fun he => hne (he.trans hf)

theorem MemAt.blackenIf {m : RbMem ι} {ps : List (Frame ι)} {t : Tree ι}
    (h : MemAt m ps t) : MemAt (m.setColorIf t.root .black) ps t.blacken := by
  cases t with
  | nil => exact h
  | node c l x r => exact MemAt.setColor (s := .left) .black h

theorem keeps_setColorIf {m : RbMem ι} {L : List ι} {q : Option ι} (c : Color)
    (hq : ∀ x, q = some x → x ∈ L) : Keeps L m (m.setColorIf q c) := by
  cases q with
  | none => exact Keeps.refl _ _
  | some x => exact keeps_setColor c (hq x rfl)

/-! ## The cases -/

theorem deleteCase1_spec {d : Side} {m : RbMem ι} {cf cs : Color} {fa s : ι}
    {t near far : Tree ι} {ps : List (Frame ι)}
    (h : MemAt m (⟨d, cf, fa, d.node cs near s far⟩ :: ps) t) (hnear : near ≠ .nil) :
    ∃ m' s', deleteCase1 d m fa s = .ok (m', s') ∧ near.root = some s'
      ∧ MemAt m' (⟨d, .red, fa, near⟩ :: ⟨d, .black, s, far⟩ :: ps) t
      ∧ Keeps (plug (⟨d, cf, fa, d.node cs near s far⟩ :: ps) t).toList m m' := by
  have h1 : MemAt (m.setColor s .black) (⟨d, cf, fa, d.node .black near s far⟩ :: ps) t :=
    MemAt.swap.mpr ((MemAt.swap.mp h).setColor .black)
  have h2 : MemAt ((m.setColor s .black).setColor fa .red)
      (⟨d, .red, fa, d.node .black near s far⟩ :: ps) t := h1.setColor_frame .red
  obtain ⟨m', hrun, h', hk⟩ := rotateTo_spec (memAt_fill.mp h2)
  have hlist : (plug ps (d.node .red t fa (d.node .black near s far))).toList
      = (plug (⟨d, cf, fa, d.node cs near s far⟩ :: ps) t).toList :=
    toList_plug_congr _ (by cases d <;> rfl)
  rw [hlist] at hk
  have hpath : MemAt m' (⟨d, .red, fa, near⟩ :: ⟨d, .black, s, far⟩ :: ps) t :=
    memAt_fill.mpr (memAt_fill.mpr h')
  obtain ⟨s', hs'⟩ : ∃ s', near.root = some s' := by
    cases near with
    | nil => exact absurd rfl hnear
    | node c l x r => exact ⟨x, rfl⟩
  have hchild : (m'.nodes fa).child d.flip = some s' := hpath.frame.2.2.2.trans hs'
  refine ⟨m', s', ?_, hs', hpath,
    ((keeps_setColor _ ?_).trans (keeps_setColor _ ?_)).trans hk⟩
  · simp only [deleteCase1, hrun, cbind_ok, hchild, deref_some]
  · refine mem_plug.mpr (.inr ?_)
    cases d <;> simp [pathItems, Side.node]
  · exact mem_plug.mpr (.inr (by simp [pathItems]))

theorem deleteCase3_spec {d : Side} {m : RbMem ι} {cf cs cz : Color} {fa s z : ι}
    {t p q far : Tree ι} {ps : List (Frame ι)}
    (h : MemAt m (⟨d, cf, fa, d.node cs (d.node cz p z q) s far⟩ :: ps) t) :
    ∃ m', deleteCase3 d m fa s = .ok (m', z)
      ∧ MemAt m' (⟨d, cf, fa, d.node .black p z (d.node .red q s far)⟩ :: ps) t
      ∧ Keeps (plug (⟨d, cf, fa, d.node cs (d.node cz p z q) s far⟩ :: ps) t).toList m m' := by
  have hz : (m.nodes s).child d = some z := by
    rw [(MemAt.swap.mp h).hole.2.2.1, Side.root_node]
  have h1 : MemAt (m.setColor z .black)
      (⟨d, cs, s, far⟩ :: ⟨d.flip, cf, fa, t⟩ :: ps) (d.node .black p z q) :=
    (memAt_fill.mpr (MemAt.swap.mp h)).setColor .black
  have h2 : MemAt ((m.setColor z .black).setColor s .red)
      (⟨d, .red, s, far⟩ :: ⟨d.flip, cf, fa, t⟩ :: ps) (d.node .black p z q) :=
    h1.setColor_frame .red
  have h3 : MemAt ((m.setColor z .black).setColor s .red) (⟨d.flip, cf, fa, t⟩ :: ps)
      (d.flip.node .red far s (d.flip.node .black q z p)) := by
    rw [Side.node_flip, Side.node_flip]
    exact memAt_fill.mp h2
  obtain ⟨m', hrun, h', hk⟩ := rotateTo_spec h3
  rw [Side.node_flip, Side.node_flip] at h'
  have hpath : MemAt m' (⟨d, cf, fa, d.node .black p z (d.node .red q s far)⟩ :: ps) t := by
    rw [MemAt.swap]
    exact h'
  have hlist : (plug (⟨d.flip, cf, fa, t⟩ :: ps)
        (d.flip.node .red far s (d.flip.node .black q z p))).toList
      = (plug (⟨d, cf, fa, d.node cs (d.node cz p z q) s far⟩ :: ps) t).toList :=
    toList_plug_congr ps
      (t := d.flip.node cf (d.flip.node .red far s (d.flip.node .black q z p)) fa t)
      (u := d.node cf t fa (d.node cs (d.node cz p z q) s far))
      (by cases d <;> simp [Side.node])
  rw [hlist] at hk
  have hchild : (m'.nodes fa).child d.flip = some z := by
    rw [hpath.frame.2.2.2, Side.root_node]
  refine ⟨m', ?_, hpath, ((keeps_setColor _ ?_).trans (keeps_setColor _ ?_)).trans hk⟩
  · simp only [deleteCase3, hz, RbMem.setColorIf, hrun, cbind_ok, hchild, deref_some]
  · refine mem_plug.mpr (.inr ?_)
    cases d <;> simp [pathItems, Side.node]
  · refine mem_plug.mpr (.inr ?_)
    cases d <;> simp [pathItems, Side.node]

theorem deleteCase4_spec {d : Side} {m : RbMem ι} {cf cs : Color} {fa s : ι}
    {t near far : Tree ι} {ps : List (Frame ι)}
    (h : MemAt m (⟨d, cf, fa, d.node cs near s far⟩ :: ps) t) :
    ∃ m', deleteCase4 d m fa s = .ok m'
      ∧ MemAt m' ps (d.node cf (d.node .black t fa near) s far.blacken)
      ∧ Keeps (plug (⟨d, cf, fa, d.node cs near s far⟩ :: ps) t).toList m m' := by
  have h1 : MemAt (m.setColor s cf) (⟨d, cf, fa, d.node cf near s far⟩ :: ps) t :=
    MemAt.swap.mpr ((MemAt.swap.mp h).setColor cf)
  have h2 : MemAt ((m.setColor s cf).setColor fa .black)
      (⟨d, .black, fa, d.node cf near s far⟩ :: ps) t := h1.setColor_frame .black
  have hfar : (((m.setColor s cf).setColor fa .black).nodes s).child d.flip = far.root :=
    (MemAt.swap.mp h2).hole.2.2.2
  have h3 : MemAt (((m.setColor s cf).setColor fa .black).setColorIf far.root .black)
      (⟨d, .black, fa, d.node cf near s far.blacken⟩ :: ps) t := by
    have hup : MemAt ((m.setColor s cf).setColor fa .black)
        (⟨d.flip, cf, s, near⟩ :: ⟨d.flip, .black, fa, t⟩ :: ps) far := by
      rw [memAt_fill, Frame.fill, Side.node_flip]
      exact MemAt.swap.mp h2
    have hb := memAt_fill.mp hup.blackenIf
    rw [Frame.fill, Side.node_flip] at hb
    exact MemAt.swap.mpr hb
  obtain ⟨m', hrun, h', hk⟩ := rotateTo_spec (memAt_fill.mp h3)
  have hlist : (plug ps (d.node .black t fa (d.node cf near s far.blacken))).toList
      = (plug (⟨d, cf, fa, d.node cs near s far⟩ :: ps) t).toList :=
    toList_plug_congr _ (by cases d <;> simp [Frame.fill, Side.node])
  rw [hlist] at hk
  refine ⟨m', ?_, h',
    (((keeps_setColor _ ?_).trans (keeps_setColor _ ?_)).trans (keeps_setColorIf _ ?_)).trans hk⟩
  · simp only [deleteCase4, h.frame.2.1, hfar, hrun]
  · refine mem_plug.mpr (.inr ?_)
    cases d <;> simp [pathItems, Side.node]
  · exact mem_plug.mpr (.inr (by simp [pathItems]))
  · intro x hx
    have hmem := Tree.root_mem hx
    refine mem_plug.mpr (.inr ?_)
    cases d <;> simp [pathItems, Side.node, hmem]

omit [DecidableEq ι] in
/-- The test of both children of the sibling, in terms of the side that the hole is on: the
near child and the far one are black. -/
theorem isNullOrBlack_children {m : RbMem ι} {p : Option ι} {d : Side} {c : Color}
    {near far : Tree ι} {s : ι} (h : TreeAt m.nodes p (d.node c near s far)) :
    (isNullOrBlack m (m.nodes s).left ∧ isNullOrBlack m (m.nodes s).right)
      ↔ near.color = .black ∧ far.color = .black := by
  obtain ⟨⟨-, -, hs, hf⟩, hn, hr⟩ := (treeAt_node d).mp h
  have h1 := isNullOrBlack_root hn
  have h2 := isNullOrBlack_root hr
  cases d with
  | left =>
      rw [RbNode.child_left] at hs
      rw [Side.flip_left, RbNode.child_right] at hf
      rw [hs, hf, h1, h2, decide_eq_true_eq, decide_eq_true_eq]
  | right =>
      rw [RbNode.child_right] at hs
      rw [Side.flip_right, RbNode.child_left] at hf
      rw [hs, hf, h1, h2, decide_eq_true_eq, decide_eq_true_eq, and_comm]

/-- What a turn with a black sibling leaves, read off `fixSib`: the loop goes on with `fa`
in the hole, or leaves with the root. -/
theorem deleteCaseBlack_spec {d : Side} {m : RbMem ι} {cf cs : Color} {fa s : ι}
    {t l r : Tree ι} {ps : List (Frame ι)}
    (h : MemAt m (⟨d, cf, fa, .node cs l s r⟩ :: ps) t) :
    ∃ m', Keeps (plug (⟨d, cf, fa, .node cs l s r⟩ :: ps) t).toList m m'
      ∧ match fixSib d cf fa t (.node cs l s r) with
        | .inl u => deleteCaseBlack d m fa s = .ok (.inl (m', some fa, parentOf ps))
            ∧ MemAt m' ps u ∧ u.root = some fa
        | .inr u => deleteCaseBlack d m fa s = .ok (.inr (m', m'.root)) ∧ MemAt m' ps u := by
  rw [Side.node_pick d cs l s r] at h
  have htest := isNullOrBlack_children (MemAt.swap.mp h).tree
  have hflip : (m.nodes s).child d.flip = (d.flip.pick l r).root :=
    (MemAt.swap.mp h).hole.2.2.2
  have hfar : isNullOrBlack m (d.flip.pick l r).root
      = decide ((d.flip.pick l r).color = .black) :=
    isNullOrBlack_root ((treeAt_node d).mp (MemAt.swap.mp h).tree).2.2
  rw [← Side.node_pick d cs l s r] at h
  simp only [fixSib, deleteCaseBlack]
  by_cases hboth : (d.pick l r).color = .black ∧ (d.flip.pick l r).color = .black
  · -- delete_case2
    rw [if_pos hboth, if_pos (htest.mpr hboth)]
    rw [Side.node_pick d cs l s r] at h
    have h1 : MemAt (m.setColor s .red)
        (⟨d, cf, fa, d.node .red (d.pick l r) s (d.flip.pick l r)⟩ :: ps) t :=
      MemAt.swap.mpr ((MemAt.swap.mp h).setColor .red)
    refine ⟨_, keeps_setColor _ ?_, ?_, memAt_fill.mp h1, by simp⟩
    · exact mem_plug.mpr (.inr (by simp [pathItems]))
    · rw [h1.frame.1]
  · rw [if_neg hboth, if_neg (fun hc => hboth (htest.mp hc))]
    by_cases hred : (d.flip.pick l r).color = .red
    · -- delete_case4 alone
      rw [if_pos hred]
      rw [Side.node_pick d cs l s r] at h
      obtain ⟨m', hrun, h', hk⟩ := deleteCase4_spec h
      rw [← Side.node_pick d cs l s r] at hk
      refine ⟨m', hk, ?_, h'⟩
      rw [hflip, hfar, hred]
      simp [hrun]
    · rw [if_neg hred]
      have hblack : (d.flip.pick l r).color = .black := by
        cases hc : (d.flip.pick l r).color <;> simp_all
      cases hnear : d.pick l r with
      | nil => rw [hnear] at hboth; exact absurd ⟨rfl, hblack⟩ hboth
      | node cz l' z r' =>
          -- delete_case3, then delete_case4
          rw [Side.node_pick d cs l s r, hnear, Side.node_pick d cz l' z r'] at h
          obtain ⟨m1, hrun1, h1, hk1⟩ := deleteCase3_spec h
          obtain ⟨m', hrun, h', hk⟩ := deleteCase4_spec h1
          have hlist : (plug (⟨d, cf, fa, d.node .black (d.pick l' r') z
                (d.node .red (d.flip.pick l' r') s (d.flip.pick l r))⟩ :: ps) t).toList
              = (plug (⟨d, cf, fa, d.node cs
                (d.node cz (d.pick l' r') z (d.flip.pick l' r')) s
                (d.flip.pick l r)⟩ :: ps) t).toList :=
            toList_plug_congr ps
              (t := d.node cf t fa (d.node .black (d.pick l' r') z
                (d.node .red (d.flip.pick l' r') s (d.flip.pick l r))))
              (u := d.node cf t fa (d.node cs
                (d.node cz (d.pick l' r') z (d.flip.pick l' r')) s (d.flip.pick l r)))
              (by cases d <;> simp [Side.node])
          rw [hlist] at hk
          have hback := hk1.trans hk
          rw [← Side.node_pick d cz l' z r', ← hnear, ← Side.node_pick d cs l s r] at hback
          refine ⟨m', hback, ?_, ?_⟩
          · rw [hflip, hfar, hblack]
            simp [hrun1, hrun]
          · rw [Side.blacken_node] at h'
            exact h'

/-! ## The loop -/

omit [DecidableEq ι] in
/-- `fixSib` keeps the in-order sequence of the whole tree. -/
theorem toList_plug_fixSib (d : Side) (c : Color) (x : ι) (t sib : Tree ι)
    (ps : List (Frame ι)) :
    match fixSib d c x t sib with
    | .inl u => (plug ps u).toList = (plug (⟨d, c, x, sib⟩ :: ps) t).toList
    | .inr u => (plug ps u).toList = (plug (⟨d, c, x, sib⟩ :: ps) t).toList := by
  obtain ⟨u, hu, qs, hqs, hb, ha⟩ := fixSib_around d c x t sib
  have hlist : u.toList = (Frame.fill ⟨d, c, x, sib⟩ t).toList := by
    rw [hqs, toList_plug, hb, ha, Frame.toList_fill]
  rcases hu with hu | hu <;> rw [hu] <;> exact toList_plug_congr _ hlist

theorem deleteCaseLoop_exit {m : RbMem ι} {ps : List (Frame ι)} {t : Tree ι}
    (h : MemAt m ps t) (hend : t.color = .red ∨ ps = []) :
    Ends (fun k => cloop deleteCaseBody k (m, t.root, parentOf ps)) (m, t.root) := by
  refine Ends.cloop_inr ?_
  simp only [deleteCaseBody]
  rw [if_neg]
  rintro ⟨hb, hne⟩
  rcases hend with hred | rfl
  · rw [isNullOrBlack_root h.tree, hred] at hb
    cases hb
  · exact hne h.root.symm

/-- The result of the loop, before the last line of `rb_tree_delete_case`: it ends, the
memory holds `u` up to the colour of its root, and nothing outside `L` is written. -/
def DeleteCaseTo (m : RbMem ι) (n fa : Option ι) (L : List ι) (u : Tree ι) : Prop :=
  ∃ m' q, Ends (fun k => cloop deleteCaseBody k (m, n, fa)) (m', q)
    ∧ MemAt (m'.setColorIf q .black) [] u ∧ Keeps L m (m'.setColorIf q .black)

theorem deleteCaseTo_exit {m : RbMem ι} {ps : List (Frame ι)} {t : Tree ι}
    (h : MemAt m ps t) (hend : t.color = .red ∨ ps = []) :
    DeleteCaseTo m t.root (parentOf ps) (plug ps t).toList (plug ps t.blacken) := by
  refine ⟨m, t.root, deleteCaseLoop_exit h hend, ?_, ?_⟩
  · have hb := h.blackenIf
    rw [← List.append_nil ps] at hb
    exact memAt_plug.mp hb
  · exact keeps_setColorIf _ fun x hx => mem_plug.mpr (.inl (Tree.root_mem hx))

/-- The way out of `delete_case4`, with `n = t->root`: the last line then colours the root
black. -/
theorem deleteCaseTo_break {m m' : RbMem ι} {ps : List (Frame ι)} {t : Tree ι}
    {n fa : Option ι} {L : List ι} (h : MemAt m' ps t)
    (hturn : deleteCaseBody (m, n, fa) = .ok (.inr (m', m'.root)))
    (hL : (plug ps t).toList = L) (hk : Keeps L m m') :
    DeleteCaseTo m n fa L (plug ps t).blacken := by
  have hplug : MemAt m' [] (plug ps t) := memAt_plug.mp (by simpa using h)
  have hroot : m'.root = (plug ps t).root := hplug.root
  refine ⟨m', m'.root, Ends.cloop_inr hturn, ?_, ?_⟩
  · rw [hroot]
    exact hplug.blackenIf
  · refine hk.trans (keeps_setColorIf _ fun x hx => ?_)
    rw [← hL]
    exact Tree.root_mem (hroot.symm.trans hx)

theorem DeleteCaseTo.turn {m m' : RbMem ι} {n fa n' fa' : Option ι} {L : List ι}
    {u : Tree ι} (hturn : deleteCaseBody (m, n, fa) = .ok (.inl (m', n', fa')))
    (hk : Keeps L m m') (h : DeleteCaseTo m' n' fa' L u) : DeleteCaseTo m n fa L u := by
  obtain ⟨m'', q, hrun, h', hk'⟩ := h
  exact ⟨m'', q, Ends.cloop_inl hturn hrun, h', hk.trans hk'⟩

/-- A turn finds out the side and goes on with the cases for it. -/
theorem deleteCaseBody_side {m : RbMem ι} {f : Frame ι} {ps : List (Frame ι)} {t : Tree ι}
    (h : MemAt m (f :: ps) t) (ht : t.color = .black) (hsib : f.sib ≠ .nil) :
    deleteCaseBody (m, t.root, parentOf (f :: ps)) = deleteCaseSide f.side m f.item := by
  have hblack : isNullOrBlack m t.root = true := by
    rw [isNullOrBlack_root h.tree, ht]
    rfl
  simp only [deleteCaseBody]
  rw [if_pos ⟨hblack, h.root_ne⟩, parentOf, deref_some, cbind_ok, h.side_test hsib]

/-- Under a red sibling: `delete_case1` brings a black one, and the loop takes at most one
turn more, since the parent is red then. -/
theorem deleteCase_redSib {d : Side} {m : RbMem ι} {cf : Color} {fa y : ι} {n : Nat}
    {t l r : Tree ι} {ps : List (Frame ι)}
    (h : MemAt m (⟨d, cf, fa, .node .red l y r⟩ :: ps) t) (ht : RB t .black n)
    (hnear : RB (d.pick l r) .black (n + 1)) :
    DeleteCaseTo m t.root (parentOf (⟨d, cf, fa, .node .red l y r⟩ :: ps))
      (plug (⟨d, cf, fa, .node .red l y r⟩ :: ps) t).toList
      (deleteFix (⟨d, cf, fa, .node .red l y r⟩ :: ps) t) := by
  have hturn := deleteCaseBody_side h ht.color_eq (by simp)
  have hy : (m.nodes fa).child d.flip = some y := h.frame.2.2.2
  have hred : (m.nodes y).color = .red :=
    (MemAt.hole (s := .left) (MemAt.swap.mp h)).2.1
  rw [Side.node_pick d] at h
  obtain ⟨m1, s', hrun1, hs', h1, hk1⟩ := deleteCase1_spec h hnear.ne_nil
  rw [← Side.node_pick d] at hk1
  have hlist : (plug (⟨d, .red, fa, d.pick l r⟩ :: ⟨d, .black, y, d.flip.pick l r⟩ :: ps)
        t).toList
      = (plug (⟨d, cf, fa, .node .red l y r⟩ :: ps) t).toList :=
    toList_plug_congr ps
      (t := d.node .black (d.node .red t fa (d.pick l r)) y (d.flip.pick l r))
      (u := d.node cf t fa (.node .red l y r))
      (by cases d <;> simp [Side.node, Side.pick])
  have hfix : deleteFix (⟨d, cf, fa, .node .red l y r⟩ :: ps) t
      = match fixSib d .red fa t (d.pick l r) with
        | .inl u => plug ps (d.node .black u.blacken y (d.flip.pick l r))
        | .inr u => (plug ps (d.node .black u y (d.flip.pick l r))).blacken := by
    rw [deleteFix]
    exact if_neg (by rw [ht.color_eq]; decide)
  cases hn : d.pick l r with
  | nil => exact absurd hn hnear.ne_nil
  | node cn l' z r' =>
      rw [hn] at h1 hs' hlist hnear hfix
      obtain rfl : z = s' := Option.some.inj hs'
      obtain ⟨m2, hk2, hcase⟩ := deleteCaseBlack_spec h1
      rw [hlist] at hk2
      have hside : deleteCaseSide d m fa = deleteCaseBlack d m1 fa z := by
        simp only [deleteCaseSide, hy, deref_some, cbind_ok, if_pos hred, hrun1]
      rw [hside] at hturn
      have hlist2 := toList_plug_fixSib d .red fa t (.node cn l' z r')
        (⟨d, .black, y, d.flip.pick l r⟩ :: ps)
      rw [hlist] at hlist2
      rcases fixSib_rb (s := d) (c := .red) (x := fa) ht hnear with ⟨v, hv, hcol, -⟩ | ⟨v, hv, -⟩
      · simp only [hv] at hcase hfix hlist2
        obtain ⟨hrun2, h2, hroot⟩ := hcase
        have hexit := deleteCaseTo_exit h2 (.inl hcol)
        rw [hlist2, hroot] at hexit
        rw [hfix]
        exact hexit.turn (hturn.trans hrun2) (hk1.trans hk2)
      · simp only [hv] at hcase hfix hlist2
        rw [hfix]
        exact deleteCaseTo_break (memAt_fill.mp hcase.2) (hturn.trans hcase.1) hlist2
          (hk1.trans hk2)

/-- The loop, along the path, in the cases of `deleteFix`. Each turn that goes on is one
frame nearer to the root, so that it ends. -/
theorem deleteCaseLoop_spec {m : RbMem ι} {ps : List (Frame ι)} {t : Tree ι} {c : Color}
    {n : Nat} (h : MemAt m ps t) (ht : RB t c n) (hp : RBPath ps .black (n + 1)) :
    DeleteCaseTo m t.root (parentOf ps) (plug ps t).toList (deleteFix ps t) := by
  induction ps generalizing m t c n with
  | nil => exact deleteCaseTo_exit h (.inr rfl)
  | cons f ps ih =>
      cases c with
      | red =>
          have hexit := deleteCaseTo_exit h (.inl ht.color_eq)
          rwa [deleteFix, if_pos ht.color_eq]
      | black =>
          obtain ⟨d, cf, fa, sib⟩ := f
          have hsib : ∃ cs, RB sib cs (n + 1) ∧
              (cs = .black → RBPath ps cf (cf.over (n + 1))) := by
            cases hp with
            | red hu hp => exact ⟨_, hu, fun _ => hp⟩
            | black hu hp => exact ⟨_, hu, fun _ => hp⟩
          obtain ⟨cs, hsib, hps⟩ := hsib
          cases sib with
          | nil => exact absurd rfl hsib.ne_nil
          | node cs' l y r =>
              obtain rfl : cs' = cs := hsib.color_eq
              cases cs' with
              | red => exact deleteCase_redSib h ht (hsib.of_red d).2.1
              | black =>
                  have hturn := deleteCaseBody_side h ht.color_eq (by simp)
                  have hy : (m.nodes fa).child d.flip = some y := h.frame.2.2.2
                  have hblack : (m.nodes y).color = .black :=
                    (MemAt.hole (s := .left) (MemAt.swap.mp h)).2.1
                  have hside : deleteCaseSide d m fa = deleteCaseBlack d m fa y := by
                    simp only [deleteCaseSide, hy, deref_some, cbind_ok, hblack]
                    rfl
                  rw [hside] at hturn
                  obtain ⟨m1, hk1, hcase⟩ := deleteCaseBlack_spec h
                  have hlist := toList_plug_fixSib d cf fa t (.node .black l y r) ps
                  have hfix : deleteFix (⟨d, cf, fa, .node .black l y r⟩ :: ps) t
                      = match fixSib d cf fa t (.node .black l y r) with
                        | .inl u => deleteFix ps u
                        | .inr u => (plug ps u).blacken := by
                    rw [deleteFix]
                    exact if_neg (by rw [ht.color_eq]; decide)
                  rw [hfix]
                  rcases fixSib_rb (s := d) (c := cf) (x := fa) ht hsib with
                    ⟨v, hv, hcol, hrb⟩ | ⟨v, hv, -⟩
                  · simp only [hv] at hcase hlist ⊢
                    obtain ⟨hrun1, h1, hroot⟩ := hcase
                    refine DeleteCaseTo.turn (hturn.trans hrun1) hk1 ?_
                    rw [← hlist, ← hroot]
                    cases cf with
                    | red =>
                        have hexit := deleteCaseTo_exit h1 (.inl hcol)
                        cases ps with
                        | nil => cases hps rfl
                        | cons g ps => rwa [deleteFix, if_pos hcol]
                    | black =>
                        rw [Tree.blacken_of_black hcol] at hrb
                        exact ih h1 hrb (hps rfl)
                  · simp only [hv] at hcase hlist ⊢
                    exact deleteCaseTo_break hcase.2 (hturn.trans hcase.1) hlist hk1

theorem rbTreeDeleteCase_spec {m : RbMem ι} {ps : List (Frame ι)} {t : Tree ι} {c : Color}
    {n : Nat} (h : MemAt m ps t) (ht : RB t c n) (hp : RBPath ps .black (n + 1)) :
    ∃ m', Ends (fun k => rbTreeDeleteCase k m t.root (parentOf ps)) m'
      ∧ MemAt m' [] (deleteFix ps t) ∧ Keeps (plug ps t).toList m m' := by
  obtain ⟨m', q, hrun, h', hk⟩ := deleteCaseLoop_spec h ht hp
  exact ⟨_, Ends.bind (mono_cloop _ _) (mono_const _) hrun (Ends.const rfl), h', hk⟩

end Artorias
