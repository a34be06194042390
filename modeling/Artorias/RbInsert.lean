import Artorias.RbRotate
import Artorias.ZipBalance

/-!
# Insertion refines `insertFix`

One lemma for each kind of turn of `rb_tree_insert_case` (red uncle, black
uncle with `n` outside or inside), then the loop by induction along the
path, in the cases of `insertFix`.
-/

namespace Artorias

variable {ι : Type} [DecidableEq ι]

/-! ## `rb_tree_insert_case` -/

theorem uncle_spec {m : RbMem ι} {f g : Frame ι} {ps : List (Frame ι)} {t : Tree ι}
    {n : ι} (h : MemAt m (f :: g :: ps) t) (hn : t.root = some n) :
    uncle m n = .ok g.sib.root := by
  have hg : MemAt m (g :: ps) (f.fill t) := memAt_fill.mp h
  have hside := hg.child_eq_iff (f.root_fill t)
  obtain ⟨-, -, -, hsib⟩ := hg.frame
  rw [uncle, h.parent hn, parentOf, deref_some, cbind_ok, h.frame.1, parentOf, deref_some,
    cbind_ok]
  congr 1
  cases hs : g.side with
  | left =>
      rw [hs, Side.flip_left, RbNode.child_right] at hsib
      rw [if_neg fun hr => by have := (hside .right).mp hr; simp_all]
      exact hsib
  | right =>
      rw [hs, Side.flip_right, RbNode.child_left] at hsib
      rw [if_pos (show (m.nodes g.item).right = _ from (hside .right).mpr hs)]
      exact hsib

theorem insertCaseOuter_spec {m : RbMem ι} {s : Side} {cf cg : Color} {xf xg n : ι}
    {uf ug t : Tree ι} {ps : List (Frame ι)}
    (h : MemAt m (⟨s, cf, xf, uf⟩ :: ⟨s, cg, xg, ug⟩ :: ps) t) (hn : t.root = some n) :
    ∃ m', insertCaseOuter m n xf xg = .ok m'
      ∧ MemAt m' ps (s.node .black t xf (s.node .red uf xg ug))
      ∧ Keeps (plug (⟨s, cf, xf, uf⟩ :: ⟨s, cg, xg, ug⟩ :: ps) t).toList m m' := by
  have h1 : MemAt (m.setColor xf .black) (⟨s, .black, xf, uf⟩ :: ⟨s, cg, xg, ug⟩ :: ps) t :=
    h.setColor_frame .black
  have h2 : MemAt ((m.setColor xf .black).setColor xg .red)
      (⟨s, .black, xf, uf⟩ :: ⟨s, .red, xg, ug⟩ :: ps) t :=
    memAt_fill.mpr ((memAt_fill.mp h1).setColor_frame .red)
  have h3 : MemAt ((m.setColor xf .black).setColor xg .red) ps
      (s.flip.node .red ug xg (s.flip.node .black uf xf t)) := by
    rw [Side.node_flip, Side.node_flip]
    exact memAt_fill.mp (memAt_fill.mp h2)
  obtain ⟨m', hrun, h', hk⟩ := rotateTo_spec h3
  have hlist : (plug ps (s.flip.node .red ug xg (s.flip.node .black uf xf t))).toList
      = (plug (⟨s, cf, xf, uf⟩ :: ⟨s, cg, xg, ug⟩ :: ps) t).toList :=
    toList_plug_congr _ (by cases s <;> rfl)
  rw [Side.node_flip, Side.node_flip] at h'
  rw [hlist] at hk
  have hleft : (((m.setColor xf .black).setColor xg .red).nodes xf).left = some n ↔ s = .left :=
    h2.child_eq_iff hn .left
  refine ⟨m', ?_, h', ((keeps_setColor _ ?_).trans (keeps_setColor _ ?_)).trans hk⟩
  · rw [insertCaseOuter]
    cases s with
    | left => exact (if_pos (hleft.mpr rfl)).trans hrun
    | right => exact (if_neg fun he => by cases hleft.mp he).trans hrun
  · exact mem_plug.mpr (.inr (by simp [pathItems]))
  · exact mem_plug.mpr (.inr (by simp [pathItems]))

/-- The turn under a black uncle, when `n` is on the outer side: recolour and one rotation
of the grandparent. -/
theorem insertCaseRotate_outer {m : RbMem ι} {s : Side} {cf cg : Color} {xf xg n : ι}
    {uf ug t : Tree ι} {ps : List (Frame ι)}
    (h : MemAt m (⟨s, cf, xf, uf⟩ :: ⟨s, cg, xg, ug⟩ :: ps) t) (hn : t.root = some n) :
    ∃ m', insertCaseRotate m n xf = .ok (m', n)
      ∧ MemAt m' ps (s.node .black t xf (s.node .red uf xg ug))
      ∧ Keeps (plug (⟨s, cf, xf, uf⟩ :: ⟨s, cg, xg, ug⟩ :: ps) t).toList m m' := by
  obtain ⟨m', hrun, h', hk⟩ := insertCaseOuter_spec h hn
  have hf := h.child_eq_iff hn
  have hg := (memAt_fill.mp h).child_eq_iff (Frame.root_fill ..)
  refine ⟨m', ?_, h', hk⟩
  rw [insertCaseRotate, h.frame.1, parentOf, deref_some, cbind_ok]
  have hsame : ∀ d : Side, ¬((m.nodes xf).child d.flip = some n
      ∧ (m.nodes xg).child d = some xf) := by
    rintro d ⟨h1, h2⟩
    exact d.flip_ne (((hf _).mp h1).symm.trans ((hg _).mp h2))
  have hinner : insertCaseInner m n xf xg = .ok (m, n, xf, xg) :=
    (if_neg (hsame .left)).trans (if_neg (hsame .right))
  simp only [hinner, hrun, cbind_ok]

/-- The turn under a black uncle, when `n` is on the inner side: it is brought to the outer
side first, and the three nodes change their names. -/
theorem insertCaseRotate_inner {m : RbMem ι} {s : Side} {cf cg c : Color} {xf xg x : ι}
    {uf ug a b : Tree ι} {ps : List (Frame ι)}
    (h : MemAt m (⟨s.flip, cf, xf, uf⟩ :: ⟨s, cg, xg, ug⟩ :: ps) (s.node c a x b)) :
    ∃ m', insertCaseRotate m x xf = .ok (m', xf)
      ∧ MemAt m' ps (s.node .black (s.node cf uf xf a) x (s.node .red b xg ug))
      ∧ Keeps (plug (⟨s.flip, cf, xf, uf⟩ :: ⟨s, cg, xg, ug⟩ :: ps) (s.node c a x b)).toList
          m m' := by
  have hfill : MemAt m (⟨s, cg, xg, ug⟩ :: ps) (s.node cf uf xf (s.node c a x b)) := by
    have h' := memAt_fill.mp h
    rwa [Frame.fill, Side.node_flip] at h'
  obtain ⟨m1, hrun1, h1, hk1⟩ := rotateTo_spec hfill
  have h1' : MemAt m1 (⟨s, c, x, b⟩ :: ⟨s, cg, xg, ug⟩ :: ps) (s.node cf uf xf a) :=
    memAt_fill.mpr h1
  obtain ⟨m', hrun, h', hk⟩ := insertCaseOuter_spec h1' (Side.root_node ..)
  refine ⟨m', ?_, h', ?_⟩
  · have hn : (s.node c a x b).root = some x := Side.root_node ..
    have hf := h.child_eq_iff hn
    have hg := (memAt_fill.mp h).child_eq_iff (Frame.root_fill ..)
    have hx : (m1.nodes x).child s = some xf := by rw [h1.hole.2.2.1, Side.root_node]
    have hpar : (m1.nodes xf).parent = some x := h1'.parent (Side.root_node ..)
    have hgf : (m1.nodes x).parent = some xg := h1.hole.1
    have hinner : insertCaseInner m x xf xg = .ok (m1, xf, x, xg) := by
      cases s with
      | left =>
          rw [insertCaseInner, if_pos ⟨(hf .right).mpr rfl, (hg .left).mpr rfl⟩,
            show rotateLeft m xf = .ok m1 from hrun1]
          rw [RbNode.child_left] at hx
          simp only [cbind_ok, hx, deref_some, hpar, hgf]
      | right =>
          have hno : ¬((m.nodes xf).right = some x ∧ (m.nodes xg).left = some xf) :=
            fun he => by cases (hf .right).mp he.1
          rw [insertCaseInner, if_neg hno, if_pos ⟨(hf .left).mpr rfl, (hg .right).mpr rfl⟩,
            show rotateRight m xf = .ok m1 from hrun1]
          rw [RbNode.child_right] at hx
          simp only [cbind_ok, hx, deref_some, hpar, hgf]
    rw [insertCaseRotate, h.frame.1, parentOf, deref_some, cbind_ok]
    simp only [hinner, hrun, cbind_ok]
  · have hlist : (plug (⟨s, cg, xg, ug⟩ :: ps) (s.node cf uf xf (s.node c a x b))).toList
        = (plug (⟨s.flip, cf, xf, uf⟩ :: ⟨s, cg, xg, ug⟩ :: ps) (s.node c a x b)).toList :=
      toList_plug_congr _ (by cases s <;> simp [Frame.fill, Side.node])
    have hlist' : (plug (⟨s, c, x, b⟩ :: ⟨s, cg, xg, ug⟩ :: ps) (s.node cf uf xf a)).toList
        = (plug (⟨s.flip, cf, xf, uf⟩ :: ⟨s, cg, xg, ug⟩ :: ps) (s.node c a x b)).toList :=
      toList_plug_congr (⟨s, cg, xg, ug⟩ :: ps)
        (t := s.node c (s.node cf uf xf a) x b) (u := s.flip.node cf (s.node c a x b) xf uf)
        (by cases s <;> simp [Side.node])
    rw [hlist] at hk1
    rw [hlist'] at hk
    exact hk1.trans hk

/-- The turn under a red uncle: recolour, and go on with the grandparent, two frames nearer
to the root. -/
theorem insertCaseBody_recolor {m : RbMem ι} {f g : Frame ι} {ps : List (Frame ι)}
    {t : Tree ι} {n : ι} (h : MemAt m (f :: g :: ps) t) (hn : t.root = some n)
    (hf : f.color = .red) (hg : g.sib.color = .red) :
    ∃ m', insertCaseBody (m, n) = .ok (.inl (m', g.item))
      ∧ MemAt m' ps
          (g.side.node .red (f.side.node .black t f.item f.sib) g.item g.sib.blacken)
      ∧ Keeps (plug (f :: g :: ps) t).toList m m' := by
  obtain ⟨s, cf, xf, uf⟩ := f
  obtain ⟨s', cg, xg, ug⟩ := g
  cases ug with
  | nil => cases hg
  | node cu lu u ru =>
      obtain rfl : cu = .red := hg
      have h1 : MemAt (m.setColor xf .black)
          (⟨s, .black, xf, uf⟩ :: ⟨s', cg, xg, .node .red lu u ru⟩ :: ps) t :=
        h.setColor_frame .black
      have h2 : MemAt ((m.setColor xf .black).setColor u .black)
          (⟨s, .black, xf, uf⟩ :: ⟨s', cg, xg, .node .black lu u ru⟩ :: ps) t := by
        have hsib := (MemAt.swap.mp (memAt_fill.mp h1))
        have hcol := MemAt.setColor (s := .left) .black hsib
        exact memAt_fill.mpr (MemAt.swap.mpr (by simpa [Side.node] using hcol))
      have h3 : MemAt (((m.setColor xf .black).setColor u .black).setColor xg .red)
          (⟨s, .black, xf, uf⟩ :: ⟨s', .red, xg, .node .black lu u ru⟩ :: ps) t :=
        memAt_fill.mpr ((memAt_fill.mp h2).setColor_frame .red)
      refine ⟨_, ?_, memAt_fill.mp (memAt_fill.mp h3), ?_⟩
      · have hu : isNullOrBlack m (some u) = false := by
          have hsib := (MemAt.swap.mp (memAt_fill.mp h)).tree
          exact isNullOrBlack_root hsib
        have hpar : (((m.setColor xf .black).setColor u .black).nodes xf).parent = some xg :=
          h2.frame.1
        simp only [insertCaseBody, h.parent hn, parentOf]
        rw [if_pos (by rw [h.frame.2.1]; exact hf), uncle_spec h hn, cbind_ok]
        simp only [Tree.root_node, hu, Bool.false_eq_true, if_false, deref_some, cbind_ok, hpar]
      · refine Keeps.trans (Keeps.trans (keeps_setColor _ ?_) (keeps_setColor _ ?_))
          (keeps_setColor _ ?_) <;>
          exact mem_plug.mpr (.inr (by simp [pathItems]))

/-- The turn under a black uncle is the last: it leaves a black node over `n`, and the loop
condition fails. -/
theorem insertCaseLoop_rotate {m : RbMem ι} {f g : Frame ι} {ps : List (Frame ι)}
    {c : Color} {l r : Tree ι} {n : ι} (h : MemAt m (f :: g :: ps) (.node c l n r))
    (hf : f.color = .red) (hg : g.sib.color ≠ .red) :
    ∃ m', Ends (fun k => cloop insertCaseBody k (m, n)) m'
      ∧ MemAt m' [] (insertFix (f :: g :: ps) (.node c l n r))
      ∧ Keeps (plug (f :: g :: ps) (.node c l n r)).toList m m' := by
  have hblack : g.sib.color = .black := by cases hc : g.sib.color <;> simp_all
  have hn : (Tree.node c l n r).root = some n := rfl
  -- one turn, to a memory whose focus hangs under a black node
  suffices hturn : ∃ m' n' s y u t', insertCaseRotate m n f.item = .ok (m', n')
      ∧ MemAt m' (⟨s, .black, y, u⟩ :: ps) t' ∧ t'.root = some n'
      ∧ plug (⟨s, .black, y, u⟩ :: ps) t' = insertFix (f :: g :: ps) (.node c l n r)
      ∧ Keeps (plug (f :: g :: ps) (.node c l n r)).toList m m' by
    obtain ⟨m', n', s, y, u, t', hrun, h', hn', heq, hk⟩ := hturn
    refine ⟨m', Ends.cloop_inl (t := (m', n')) ?_ (Ends.cloop_inr ?_), ?_, hk⟩
    · have huc : isNullOrBlack m g.sib.root = true := by
        have hsib := (MemAt.swap.mp (memAt_fill.mp h)).tree
        rw [isNullOrBlack_root hsib, hblack]
        rfl
      simp only [insertCaseBody, h.parent hn, parentOf]
      rw [if_pos (by rw [h.frame.2.1]; exact hf), uncle_spec h hn, cbind_ok, if_pos huc, hrun]
      rfl
    · simp only [insertCaseBody, h'.parent hn', parentOf]
      rw [if_neg (by rw [h'.frame.2.1]; simp)]
    · rw [← heq]
      exact memAt_plug.mp (by simpa using h')
  obtain ⟨s, cf, xf, uf⟩ := f
  obtain ⟨s', cg, xg, ug⟩ := g
  obtain rfl : cf = .red := hf
  by_cases hs : s = s'
  · subst hs
    obtain ⟨m', hrun, h', hk⟩ := insertCaseRotate_outer h hn
    refine ⟨m', n, s, xf, s.node .red uf xg ug, .node c l n r, hrun, memAt_fill.mpr h', hn,
      ?_, hk⟩
    simp [insertFix, hg, Frame.fill]
  · obtain rfl : s = s'.flip := Side.eq_flip_of_ne hs
    rw [Side.node_pick s'] at h
    obtain ⟨m', hrun, h', hk⟩ := insertCaseRotate_inner h
    rw [← Side.node_pick] at hk
    refine ⟨m', xf, s', n, s'.node .red (s'.flip.pick l r) xg ug,
      s'.node .red uf xf (s'.pick l r), hrun, memAt_fill.mpr h', Side.root_node .., ?_, hk⟩
    simp [insertFix, hg, Frame.fill]

theorem insertCaseLoop_exit {m : RbMem ι} {ps : List (Frame ι)} {t : Tree ι} {n : ι}
    (h : MemAt m ps t) (hn : t.root = some n)
    (hp : ∀ f qs, ps = f :: qs → f.color = .black) :
    Ends (fun k => cloop insertCaseBody k (m, n)) m := by
  refine Ends.cloop_inr ?_
  simp only [insertCaseBody, h.parent hn]
  cases ps with
  | nil => rfl
  | cons f qs =>
      simp only [parentOf]
      rw [if_neg (by rw [h.frame.2.1, hp f qs rfl]; decide)]

theorem insertCaseLoop_spec {m : RbMem ι} {ps : List (Frame ι)} {t : Tree ι} {n : ι}
    {k : Nat} (h : MemAt m ps t) (hn : t.root = some n) (ht : RB t .red k)
    (hp : RBPath ps .black k) :
    ∃ m', Ends (fun k => cloop insertCaseBody k (m, n)) m'
      ∧ MemAt m' [] (insertFix ps t) ∧ Keeps (plug ps t).toList m m' := by
  fun_induction insertFix ps t generalizing m n k with
  | case1 t => exact ⟨m, insertCaseLoop_exit h hn (by simp), h, Keeps.refl _ _⟩
  | case2 f t =>
      refine ⟨m, insertCaseLoop_exit h hn ?_, memAt_fill.mp h, Keeps.refl _ _⟩
      rintro f' qs he
      cases hp with
      | red _ hr => cases hr
      | black _ _ => cases he; rfl
  | case3 f g ps t hf =>
      refine ⟨m, insertCaseLoop_exit h hn ?_, memAt_plug.mp (by simpa using h), Keeps.refl _ _⟩
      rintro f' qs he
      cases he
      exact hf
  | case4 f g ps t hf hg ih =>
      have hfr : f.color = .red := by cases hc : f.color <;> simp_all
      obtain ⟨m1, hturn, h1, hk1⟩ := insertCaseBody_recolor h hn hfr hg
      cases hp with
      | black _ _ => exact absurd rfl hf
      | @red s x uf _ _ hu hr =>
          cases hr with
          | @black s' y ug _ _ _ _ hug hp =>
              obtain rfl : _ = Color.red := hug.color_eq.symm.trans hg
              obtain ⟨m', hrun, h', hk'⟩ := ih h1 (Side.root_node ..)
                (.redNode _ _ (ht.blackNode _ _ hu) hug.blacken) hp
              refine ⟨m', Ends.cloop_inl hturn hrun, h', hk1.trans ?_⟩
              have hlist : (plug ps (s'.node .red (s.node .black t x uf) y ug.blacken)).toList
                  = (plug (⟨s, .red, x, uf⟩ :: ⟨s', .black, y, ug⟩ :: ps) t).toList :=
                toList_plug_congr _
                  (by cases s <;> cases s' <;> simp [Frame.fill, Side.node])
              rwa [hlist] at hk'
  | case5 f g ps t hf hg hs =>
      have hfr : f.color = .red := by cases hc : f.color <;> simp_all
      cases t with
      | nil => cases hn
      | node c l x r =>
          obtain rfl : x = n := Option.some.inj hn
          have hloop := insertCaseLoop_rotate h hfr hg
          rwa [insertFix, if_neg hf, if_neg hg, if_pos hs] at hloop
  | case6 f g ps hf hg hs => cases hn
  | case7 f g ps hf hg hs c l x r =>
      have hfr : f.color = .red := by cases hc : f.color <;> simp_all
      obtain rfl : x = n := Option.some.inj hn
      have hloop := insertCaseLoop_rotate h hfr hg
      rwa [insertFix, if_neg hf, if_neg hg, if_neg hs] at hloop

theorem rbTreeInsertCase_spec {m : RbMem ι} {ps : List (Frame ι)} {t : Tree ι} {n : ι}
    {k : Nat} (h : MemAt m ps t) (hn : t.root = some n) (ht : RB t .red k)
    (hp : RBPath ps .black k) :
    ∃ m', Ends (fun k => rbTreeInsertCase k m n) m'
      ∧ MemAt m' [] (insertFix ps t).blacken ∧ Keeps (plug ps t).toList m m' := by
  obtain ⟨m1, hrun, h1, hk⟩ := insertCaseLoop_spec h hn ht hp
  have hlist := toList_insertFix ps t
  cases hfix : insertFix ps t with
  | nil =>
      have hmem : n ∈ (insertFix ps t).toList := by
        rw [hlist]
        exact mem_plug.mpr (.inl (Tree.root_mem hn))
      rw [hfix] at hmem
      cases hmem
  | node c l x r =>
      rw [hfix] at h1 hlist
      have hcol : MemAt (m1.setColor x .black) [] (.node .black l x r) :=
        MemAt.setColor (s := .left) .black h1
      refine ⟨_, Ends.bind (mono_cloop _ _) (mono_const _) hrun (Ends.const ?_), hcol,
        hk.trans (keeps_setColor _ ?_)⟩
      · rw [show m1.root = some x from h1.root]
        rfl
      · rw [← hlist]
        simp

/-! ## Walking down and attaching -/

/-- The link through which the hole of a path is reached. -/
def slotOf : List (Frame ι) → Slot ι
  | [] => .top
  | f :: _ => .child f.side f.item

/-- The memory while `n` is on its way down. -/
def withNew (m : RbMem ι) (n : ι) (p : Option ι) : RbMem ι :=
  m.put n ⟨p, none, none, .red⟩

theorem setParent_withNew (m : RbMem ι) (n : ι) (p p' : Option ι) :
    (withNew m n p).setParent n p' = withNew m n p' := by
  simp [withNew, RbMem.setParent, RbMem.put, RbNode.setParent]

theorem withNew_of_ne (m : RbMem ι) {n y : ι} (p : Option ι) (h : y ≠ n) :
    (withNew m n p).nodes y = m.nodes y := m.put_of_ne _ h

theorem slotOf_load {m : RbMem ι} {qs ps : List (Frame ι)} {t : Tree ι} {n : ι}
    {top : Option ι} (p : Option ι) (h : MemAt m (qs ++ ps) t)
    (hn : n ∉ (plug (qs ++ ps) t).toList) (htop : qs = [] → top = t.root) :
    (slotOf qs).load (withNew m n p) top = t.root := by
  cases qs with
  | nil => exact htop rfl
  | cons f rest =>
      have hne : f.item ≠ n := fun he =>
        hn (mem_plug.mpr (.inr (by simp [pathItems, he])))
      rw [slotOf, Slot.load, withNew_of_ne _ _ hne]
      exact h.frame.2.2.1

/-- The loop walks along `descend`, with the parent link of `n` written on the way. -/
theorem descendLoop_spec (side : ι → Side) {m : RbMem ι} (qs ps : List (Frame ι))
    {t : Tree ι} {n : ι} (top : Option ι) (h : MemAt m (qs ++ ps) t)
    (hn : n ∉ (plug (qs ++ ps) t).toList) (htop : qs = [] → top = t.root) :
    Ends (fun k => cloop (descendBody side n top) k (withNew m n (parentOf qs), slotOf qs))
      (withNew m n (parentOf (descend side t ++ qs)), slotOf (descend side t ++ qs)) := by
  induction t generalizing qs with
  | nil =>
      have hload := slotOf_load (parentOf qs) h hn htop
      exact Ends.cloop_inr (by simp only [descendBody, hload, Tree.root_nil]; rfl)
  | node c l x r ihl ihr =>
      have hload := slotOf_load (parentOf qs) h hn htop
      refine Ends.cloop_inl (t := (withNew m n (some x), .child (side x) x)) ?_ ?_
      · simp only [descendBody, hload, Tree.root_node, setParent_withNew]
      · cases hs : side x with
        | left =>
            have h' : MemAt m (⟨.left, c, x, r⟩ :: qs ++ ps) l := memAt_fill.mpr h
            simpa [descend, hs, parentOf, slotOf] using ihl _ h' hn (by simp)
        | right =>
            have h' : MemAt m (⟨.right, c, x, l⟩ :: qs ++ ps) r := memAt_fill.mpr h
            simpa [descend, hs, parentOf, slotOf] using ihr _ h' hn (by simp)

theorem MemAt.attach {m : RbMem ι} {f : Frame ι} {ps : List (Frame ι)} {n : ι}
    (h : MemAt m (f :: ps) .nil) (hn : n ∉ (plug (f :: ps) .nil).toList) :
    MemAt ((withNew m n (some f.item)).setChild f.side f.item (some n)) (f :: ps)
      (.node .red .nil n .nil) := by
  have hperm := plug_perm (f :: ps) (.nil : Tree ι)
  have hnp : n ∉ pathItems (f :: ps) := fun he => hn (hperm.mem_iff.mpr (by simpa using he))
  have hnd : (pathItems (f :: ps)).Nodup := by simpa using hperm.nodup_iff.mp h.nodup
  have hnd' := hnd
  simp only [pathItems, List.nodup_cons, List.mem_append, not_or] at hnd'
  have hnf : n ≠ f.item := fun he => hnp (by simp [pathItems, he])
  obtain ⟨hr, ⟨⟨hpar, hcol, -, hflip⟩, hsib, hrest⟩, -, -⟩ := h
  have hkeep : ∀ y, y ≠ n → y ≠ f.item →
      ((withNew m n (some f.item)).setChild f.side f.item (some n)).nodes y = m.nodes y := by
    intro y h1 h2
    rw [RbMem.setChild_of_ne _ _ _ h2, withNew_of_ne _ _ h1]
  have hf : ((withNew m n (some f.item)).setChild f.side f.item (some n)).nodes f.item
      = (m.nodes f.item).setChild f.side (some n) := by
    rw [RbMem.setChild_self, withNew_of_ne _ _ hnf.symm]
  refine ⟨hr, ⟨⟨?_, ?_, ?_, ?_⟩, hsib.congr ?_, hrest.congr ?_⟩, ⟨?_, trivial, trivial⟩, ?_⟩
  · rw [hf]; simpa using hpar
  · rw [hf]; simpa using hcol
  · rw [hf]; simp
  · rw [hf]; simpa using hflip
  · intro y hy
    refine hkeep y ?_ ?_ <;> rintro rfl
    · exact hnp (by simp [pathItems, hy])
    · exact hnd'.1.1 hy
  · intro y hy
    refine hkeep y ?_ ?_ <;> rintro rfl
    · exact hnp (by simp [pathItems, hy])
    · exact hnd'.1.2 hy
  · rw [RbMem.setChild_of_ne _ _ _ hnf]
    exact RbMem.put_self ..
  · refine (plug_perm (f :: ps) _).nodup_iff.mpr ?_
    simpa using ⟨hnp, hnd⟩

/-- Inserting below a subtree that is not empty: `n` becomes a red leaf at the end of the
path, and no link but its own and the one that it hangs on is written. -/
theorem insertFrom_spec (side : ι → Side) {m : RbMem ι} {ps : List (Frame ι)}
    {t : Tree ι} {n : ι} (h : MemAt m ps t) (ht : t ≠ .nil) (hn : n ∉ (plug ps t).toList) :
    ∃ m', Ends (fun k => insertFrom side k m n t.root) (m', t.root)
      ∧ MemAt m' (descend side t ++ ps) (.node .red .nil n .nil)
      ∧ m'.root = m.root ∧ Keeps (n :: (plug ps t).toList) m m' := by
  have hloop := descendLoop_spec side [] ps t.root (by simpa using h)
    (by simpa using hn) (fun _ => rfl)
  rw [List.append_nil] at hloop
  have hplace : MemAt m (descend side t ++ ps) .nil := by
    rw [memAt_plug, plug_descend]
    exact h
  have hlist : (plug (descend side t ++ ps) .nil).toList = (plug ps t).toList := by
    rw [plug_append, plug_descend]
  cases hd : descend side t with
  | nil =>
      have hnil := plug_descend side t
      rw [hd] at hnil
      exact absurd hnil.symm ht
  | cons f rest =>
      rw [hd] at hloop hplace hlist
      refine ⟨_, ?_, hplace.attach fun he => hn (hlist ▸ he), rfl, ?_⟩
      · exact Ends.bind (mono_cloop _ _) (mono_const _) hloop (Ends.const rfl)
      · intro y hy
        simp only [List.mem_cons, not_or] at hy
        have hyf : y ≠ f.item := by
          rintro rfl
          rw [← hlist] at hy
          exact hy.2 (mem_plug.mpr (.inr (by simp [pathItems])))
        rw [RbMem.setChild_of_ne _ _ _ hyf, withNew_of_ne _ _ hy.1]

/-- `rb_tree_insert` puts the node at the end of the path that `descend` finds. -/
theorem rbTreeInsert_spec (lt : ι → ι → Bool) {m : RbMem ι} {t : Tree ι} {n : ι}
    (h : MemAt m [] t) (hn : n ∉ t.toList) :
    ∃ m', Ends (fun k => rbTreeInsert lt k m n) m'
      ∧ MemAt m' (descend (fun x => if lt n x then .left else .right) t)
          (.node .red .nil n .nil)
      ∧ Keeps (n :: t.toList) m m' := by
  have hmono : ∀ top, Mono fun k =>
      insertFrom (fun x => if lt n x then .left else .right) k m n top := fun top =>
    Mono.bind (mono_cloop _ _) fun _ => mono_const _
  have hroot : m.root = t.root := h.root
  cases ht : t with
  | nil =>
      subst ht
      have hloop := descendLoop_spec (fun x => if lt n x then .left else .right) []
        [] m.root h hn (fun _ => hroot)
      refine ⟨(withNew m n none).setRoot (some n), ?_, ⟨rfl, trivial, ⟨?_, trivial, trivial⟩, ?_⟩,
        ?_⟩
      · exact Ends.bind (hmono _) (mono_const _)
          (Ends.bind (mono_cloop _ _) (mono_const _) hloop (Ends.const rfl)) (Ends.const rfl)
      · exact RbMem.put_self ..
      · simp [descend]
      · intro y hy
        exact withNew_of_ne _ _ fun he => hy (by simp [he])
  | node c l x r =>
      rw [← ht]
      obtain ⟨m', hrun, h', hr', hk⟩ := insertFrom_spec
        (fun x => if lt n x then .left else .right) h (by rw [ht]; simp) hn
      refine ⟨m', Ends.bind (hmono _) (mono_const _) (hroot ▸ hrun) (Ends.const ?_), ?_, hk⟩
      · rw [← hr']
        rfl
      · simpa using h'

end Artorias
