import Mathlib.Data.List.Basic
import Mathlib.Data.List.Perm.Basic

/-!
# Coloured binary trees with a hole

Trees with a colour at every node, and the path from a subtree up to the
root: one `Frame` per ancestor, innermost first. Everything that is done
twice, once for each side, is written once over a `Side`: `s.node` puts its
first subtree on side `s`.

The two repairs of a red-black tree are functions along such a path:
`insertFix` moves a red node with a possibly red parent upwards, `deleteFix`
moves a subtree that is one black node short. Both keep the in-order
sequence; `deleteFix` moreover keeps the short subtree as a subtree, at the
same place in the order (`deleteFix_plug`).
-/

namespace Artorias

inductive Color where
  | red
  | black
deriving Repr, DecidableEq

inductive Side where
  | left
  | right
deriving Repr, DecidableEq

namespace Side

def flip : Side → Side
  | .left => .right
  | .right => .left

@[simp] theorem flip_left : Side.left.flip = .right := rfl
@[simp] theorem flip_right : Side.right.flip = .left := rfl

@[simp] theorem flip_flip (s : Side) : s.flip.flip = s := by cases s <;> rfl

@[simp] theorem flip_ne (s : Side) : s.flip ≠ s := by cases s <;> decide

theorem eq_flip_of_ne {s s' : Side} (h : s ≠ s') : s = s'.flip := by
  cases s <;> cases s' <;> simp_all

/-- The one of two things that is on side `s`. -/
def pick {α : Type} : Side → α → α → α
  | .left, l, _ => l
  | .right, _, r => r

end Side

inductive Tree (ι : Type) where
  | nil
  | node (c : Color) (l : Tree ι) (x : ι) (r : Tree ι)
deriving Repr, DecidableEq

variable {ι : Type}

namespace Tree

/-- NULL counts as black. -/
def color : Tree ι → Color
  | nil => .black
  | node c _ _ _ => c

def root : Tree ι → Option ι
  | nil => none
  | node _ _ x _ => some x

def blacken : Tree ι → Tree ι
  | nil => nil
  | node _ l x r => node .black l x r

def toList : Tree ι → List ι
  | nil => []
  | node _ l x r => l.toList ++ x :: r.toList

@[simp] theorem color_nil : (nil : Tree ι).color = .black := rfl
@[simp] theorem color_node (c : Color) (l : Tree ι) (x : ι) (r : Tree ι) :
    (node c l x r).color = c := rfl
@[simp] theorem root_nil : (nil : Tree ι).root = none := rfl
@[simp] theorem root_node (c : Color) (l : Tree ι) (x : ι) (r : Tree ι) :
    (node c l x r).root = some x := rfl
@[simp] theorem blacken_nil : (nil : Tree ι).blacken = nil := rfl
@[simp] theorem blacken_node (c : Color) (l : Tree ι) (x : ι) (r : Tree ι) :
    (node c l x r).blacken = node .black l x r := rfl
@[simp] theorem toList_nil : (nil : Tree ι).toList = [] := rfl
@[simp] theorem toList_node (c : Color) (l : Tree ι) (x : ι) (r : Tree ι) :
    (node c l x r).toList = l.toList ++ x :: r.toList := rfl

@[simp] theorem toList_blacken (t : Tree ι) : t.blacken.toList = t.toList := by
  cases t <;> rfl

@[simp] theorem root_blacken (t : Tree ι) : t.blacken.root = t.root := by
  cases t <;> rfl

@[simp] theorem color_blacken (t : Tree ι) : t.blacken.color = .black := by
  cases t <;> rfl

theorem blacken_of_black {t : Tree ι} (h : t.color = .black) : t.blacken = t := by
  cases t with
  | nil => rfl
  | node c l x r => rw [color_node] at h; rw [h, blacken_node]

theorem root_of_ne_nil {t : Tree ι} (h : t ≠ nil) : ∃ x, t.root = some x := by
  cases t with
  | nil => exact absurd rfl h
  | node c l x r => exact ⟨x, rfl⟩

theorem root_mem {t : Tree ι} {x : ι} (h : t.root = some x) : x ∈ t.toList := by
  cases t with
  | nil => cases h
  | node c l y r => cases h; simp

end Tree

/-! ## Nodes by side -/

/-- The node `x` with `a` on side `s` and `b` on the other. -/
def Side.node (s : Side) (c : Color) (a : Tree ι) (x : ι) (b : Tree ι) : Tree ι :=
  match s with
  | .left => .node c a x b
  | .right => .node c b x a

namespace Side

@[simp] theorem root_node (s : Side) (c : Color) (a : Tree ι) (x : ι) (b : Tree ι) :
    (s.node c a x b).root = some x := by cases s <;> rfl

@[simp] theorem color_node (s : Side) (c : Color) (a : Tree ι) (x : ι) (b : Tree ι) :
    (s.node c a x b).color = c := by cases s <;> rfl

@[simp] theorem blacken_node (s : Side) (c : Color) (a : Tree ι) (x : ι) (b : Tree ι) :
    (s.node c a x b).blacken = s.node .black a x b := by cases s <;> rfl

theorem node_flip (s : Side) (c : Color) (a : Tree ι) (x : ι) (b : Tree ι) :
    s.flip.node c a x b = s.node c b x a := by cases s <;> rfl

theorem node_pick (s : Side) (c : Color) (l : Tree ι) (x : ι) (r : Tree ι) :
    Tree.node c l x r = s.node c (s.pick l r) x (s.flip.pick l r) := by
  cases s <;> rfl

theorem perm_toList_node (s : Side) (c : Color) (a : Tree ι) (x : ι) (b : Tree ι) :
    (s.node c a x b).toList.Perm (x :: (a.toList ++ b.toList)) := by
  cases s with
  | left => exact List.perm_middle
  | right => exact List.perm_middle.trans (List.perm_append_comm.cons x)

end Side

/-! ## Paths -/

/-- One ancestor of the hole: the side the hole is on, and what the ancestor
holds besides. -/
structure Frame (ι : Type) where
  side : Side
  color : Color
  item : ι
  sib : Tree ι
deriving Repr, DecidableEq

namespace Frame

def fill (f : Frame ι) (t : Tree ι) : Tree ι :=
  f.side.node f.color t f.item f.sib

def before (f : Frame ι) : List ι :=
  f.side.pick [] (f.sib.toList ++ [f.item])

def after (f : Frame ι) : List ι :=
  f.side.pick (f.item :: f.sib.toList) []

@[simp] theorem root_fill (f : Frame ι) (t : Tree ι) :
    (f.fill t).root = some f.item := by simp [fill]

@[simp] theorem color_fill (f : Frame ι) (t : Tree ι) :
    (f.fill t).color = f.color := by simp [fill]

theorem toList_fill (f : Frame ι) (t : Tree ι) :
    (f.fill t).toList = f.before ++ t.toList ++ f.after := by
  obtain ⟨s, c, x, u⟩ := f
  cases s <;> simp [fill, before, after, Side.node, Side.pick]

end Frame

/-- Put `t` into the hole of the path. -/
def plug : List (Frame ι) → Tree ι → Tree ι
  | [], t => t
  | f :: ps, t => plug ps (f.fill t)

/-- What stands before the hole in the order. -/
def before : List (Frame ι) → List ι
  | [] => []
  | f :: ps => before ps ++ f.before

/-- What stands after the hole in the order. -/
def after : List (Frame ι) → List ι
  | [] => []
  | f :: ps => f.after ++ after ps

@[simp] theorem plug_nil (t : Tree ι) : plug [] t = t := rfl

@[simp] theorem plug_cons (f : Frame ι) (ps : List (Frame ι)) (t : Tree ι) :
    plug (f :: ps) t = plug ps (f.fill t) := rfl

theorem plug_append (qs ps : List (Frame ι)) (t : Tree ι) :
    plug (qs ++ ps) t = plug ps (plug qs t) := by
  induction qs generalizing t with
  | nil => rfl
  | cons f qs ih => exact ih _

theorem before_append (qs ps : List (Frame ι)) :
    before (qs ++ ps) = before ps ++ before qs := by
  induction qs with
  | nil => simp [before]
  | cons f qs ih => simp [before, ih]

theorem after_append (qs ps : List (Frame ι)) :
    after (qs ++ ps) = after qs ++ after ps := by
  induction qs with
  | nil => rfl
  | cons f qs ih => simp [after, ih]

theorem toList_plug (ps : List (Frame ι)) (t : Tree ι) :
    (plug ps t).toList = before ps ++ t.toList ++ after ps := by
  induction ps generalizing t with
  | nil => simp [before, after]
  | cons f ps ih => simp [ih, Frame.toList_fill, before, after]

/-- The order only sees the in-order sequence of what is in the hole. -/
theorem toList_plug_congr (ps : List (Frame ι)) {t u : Tree ι}
    (h : t.toList = u.toList) : (plug ps t).toList = (plug ps u).toList := by
  rw [toList_plug, toList_plug, h]

/-- Every item of a tree is at the end of a path. -/
theorem Tree.exists_plug {t : Tree ι} {n : ι} (h : n ∈ t.toList) :
    ∃ ps c l r, t = plug ps (.node c l n r) := by
  induction t with
  | nil => cases h
  | node c l x r ihl ihr =>
      rcases List.mem_append.mp h with h | h
      · obtain ⟨ps, c', l', r', rfl⟩ := ihl h
        exact ⟨ps ++ [⟨.left, c, x, r⟩], c', l', r', by rw [plug_append]; rfl⟩
      · rcases List.mem_cons.mp h with rfl | h
        · exact ⟨[], c, l, r, rfl⟩
        · obtain ⟨ps, c', l', r', rfl⟩ := ihr h
          exact ⟨ps ++ [⟨.right, c, x, l⟩], c', l', r', by rw [plug_append]; rfl⟩

/-! ## Searching a place -/

/-- The path to the empty place that is found by going to `side x` at `x`. -/
def descend (side : ι → Side) : Tree ι → List (Frame ι)
  | .nil => []
  | .node c l x r =>
      match side x with
      | .left => descend side l ++ [⟨.left, c, x, r⟩]
      | .right => descend side r ++ [⟨.right, c, x, l⟩]

@[simp] theorem plug_descend (side : ι → Side) (t : Tree ι) :
    plug (descend side t) .nil = t := by
  induction t with
  | nil => rfl
  | node c l x r ihl ihr =>
      rw [descend]
      split <;> simp [plug_append, ihl, ihr, Frame.fill, Side.node]

/-- The empty place at the end of a path splits the order in two. -/
theorem toList_descend (side : ι → Side) (t : Tree ι) :
    before (descend side t) ++ after (descend side t) = t.toList := by
  have h := toList_plug (descend side t) .nil
  rw [plug_descend, Tree.toList_nil, List.append_nil] at h
  exact h.symm

theorem before_descend_left (t : Tree ι) : before (descend (fun _ => .left) t) = [] := by
  induction t with
  | nil => rfl
  | node c l x r ihl ihr =>
      simp [descend, before_append, ihl, before, Frame.before, Side.pick]

theorem after_descend_right (t : Tree ι) : after (descend (fun _ => .right) t) = [] := by
  induction t with
  | nil => rfl
  | node c l x r ihl ihr =>
      simp [descend, after_append, ihr, after, Frame.after, Side.pick]

/-- In a tree ordered by `lt`, going left of the greater nodes only leads to the place after
every node that is not greater. -/
theorem descend_ordered (lt : ι → ι → Prop) [DecidableRel lt]
    (hneg : ∀ a b c, ¬lt a b → ¬lt b c → ¬lt a c) (n : ι) {t : Tree ι}
    (ht : t.toList.Pairwise fun a b => ¬lt b a) :
    (∀ x ∈ before (descend (fun x => if lt n x then .left else .right) t), ¬lt n x)
      ∧ ∀ x ∈ after (descend (fun x => if lt n x then .left else .right) t), lt n x := by
  induction t with
  | nil => simp [descend, before, after]
  | node c l x r ihl ihr =>
      simp only [Tree.toList_node, List.pairwise_append, List.pairwise_cons] at ht
      obtain ⟨hl, ⟨hxr, hr⟩, hlx⟩ := ht
      rw [descend]
      by_cases hx : lt n x
      · simp only [hx, if_true, before_append, after_append]
        refine ⟨fun y hy => (ihl hl).1 y (by simpa [before, Frame.before, Side.pick] using hy),
          fun y hy => ?_⟩
        rcases List.mem_append.mp hy with hy | hy
        · exact (ihl hl).2 y hy
        · simp only [after, Frame.after, Side.pick, List.append_nil, List.mem_cons] at hy
          rcases hy with rfl | hy
          · exact hx
          · by_contra hny
            exact hneg n y x hny (hxr y hy) hx
      · simp only [hx, if_false, before_append, after_append]
        refine ⟨fun y hy => ?_,
          fun y hy => (ihr hr).2 y (by simpa [after, Frame.after, Side.pick] using hy)⟩
        rcases List.mem_append.mp hy with hy | hy
        · simp only [before, Frame.before, Side.pick, List.nil_append, List.mem_append,
            List.mem_singleton] at hy
          rcases hy with hy | rfl
          · exact hneg n x y hx (hlx y hy x (by simp))
          · exact hx
        · exact (ihr hr).1 y hy

/-! ## The repair after an insertion -/

/-- `t` is red and hangs at the end of the path; its parent may be red too. -/
def insertFix : List (Frame ι) → Tree ι → Tree ι
  | [], t => t
  | [f], t => f.fill t
  | f :: g :: ps, t =>
      if f.color = .black then plug (f :: g :: ps) t
      else if g.sib.color = .red then
        -- red uncle: recolour, and the grandparent is the next suspect
        insertFix ps
          (g.side.node .red (f.side.node .black t f.item f.sib) g.item g.sib.blacken)
      else if f.side = g.side then
        plug ps (g.side.node .black t f.item (g.side.node .red f.sib g.item g.sib))
      else
        match t with
        | .nil => plug (f :: g :: ps) .nil
        | .node _ l x r =>
            plug ps (g.side.node .black
              (g.side.node .red f.sib f.item (g.side.pick l r)) x
              (g.side.node .red (g.side.flip.pick l r) g.item g.sib))

theorem toList_insertFix (ps : List (Frame ι)) (t : Tree ι) :
    (insertFix ps t).toList = (plug ps t).toList := by
  fun_induction insertFix ps t with
  | case1 t => rfl
  | case2 f t => rfl
  | case3 f g ps t hf => rfl
  | case4 f g ps t hf hg ih =>
      obtain ⟨sf, cf, xf, uf⟩ := f
      obtain ⟨sg, cg, xg, ug⟩ := g
      rw [ih]
      refine toList_plug_congr _ ?_
      cases sf <;> cases sg <;> simp [Frame.fill, Side.node]
  | case5 f g ps t hf hg hs =>
      obtain ⟨sf, cf, xf, uf⟩ := f
      obtain ⟨sg, cg, xg, ug⟩ := g
      obtain rfl : sf = sg := hs
      refine toList_plug_congr _ ?_
      cases sf <;> simp [Frame.fill, Side.node]
  | case6 f g ps hf hg hs => rfl
  | case7 f g ps hf hg hs c l x r =>
      obtain ⟨sf, cf, xf, uf⟩ := f
      obtain ⟨sg, cg, xg, ug⟩ := g
      obtain rfl : sf = sg.flip := Side.eq_flip_of_ne hs
      refine toList_plug_congr _ ?_
      cases sg <;> simp [Frame.fill, Side.node, Side.pick]

/-! ## The repair after a removal -/

/-- The sibling is black (`sib`), the node over both is `x` with colour `c`,
and `t`, on side `s`, is short. Either the node is repaired (`.inr`), or it
is short itself (`.inl`). -/
def fixSib (s : Side) (c : Color) (x : ι) (t sib : Tree ι) : Tree ι ⊕ Tree ι :=
  match sib with
  | .nil => .inl (s.node c t x .nil)
  | .node _ l y r =>
      let near := s.pick l r
      let far := s.flip.pick l r
      if near.color = .black ∧ far.color = .black then
        .inl (s.node c t x (s.node .red near y far))
      else if far.color = .red then
        .inr (s.node c (s.node .black t x near) y far.blacken)
      else
        match near with
        | .nil => .inl (s.node c t x (s.node .red near y far))
        | .node _ l' z r' =>
            .inr (s.node c (s.node .black t x (s.pick l' r')) z
              (s.node .black (s.flip.pick l' r') y far))

/-- `t`, at the end of the path, is one black node short. -/
def deleteFix : List (Frame ι) → Tree ι → Tree ι
  | [], t => t.blacken
  | f :: ps, t =>
      if t.color = .red then plug (f :: ps) t.blacken
      else
        match f.sib with
        | .node .red l y r =>
            -- red sibling: it comes up, and its near child is the new sibling
            match fixSib f.side .red f.item t (f.side.pick l r) with
            | .inl u => plug ps (f.side.node .black u.blacken y (f.side.flip.pick l r))
            | .inr u => (plug ps (f.side.node .black u y (f.side.flip.pick l r))).blacken
        | sib =>
            match fixSib f.side f.color f.item t sib with
            | .inl u => deleteFix ps u
            | .inr u => (plug ps u).blacken

/-! ## The short subtree stays where it is -/

/-- `u` is `t` with `b` before it and `a` after it. -/
def Around (u t : Tree ι) (b a : List ι) : Prop :=
  ∃ qs, u = plug qs t ∧ before qs = b ∧ after qs = a

theorem Around.plug {u t : Tree ι} {b a : List ι} (h : Around u t b a)
    (ps : List (Frame ι)) : Around (plug ps u) t (before ps ++ b) (a ++ after ps) := by
  obtain ⟨qs, rfl, rfl, rfl⟩ := h
  exact ⟨qs ++ ps, (plug_append ..).symm, before_append .., after_append ..⟩

/-- The path with its outermost frame black. -/
def blackenTop : List (Frame ι) → List (Frame ι)
  | [] => []
  | [f] => [{ f with color := .black }]
  | f :: g :: ps => f :: blackenTop (g :: ps)

theorem plug_blackenTop (f : Frame ι) (ps : List (Frame ι)) (t : Tree ι) :
    plug (blackenTop (f :: ps)) t = (plug (f :: ps) t).blacken := by
  induction ps generalizing f t with
  | nil => simp [blackenTop, Frame.fill]
  | cons g ps ih => exact ih g (f.fill t)

theorem before_blackenTop (ps : List (Frame ι)) :
    before (blackenTop ps) = before ps := by
  fun_induction blackenTop ps with
  | case1 => rfl
  | case2 f => rfl
  | case3 f g ps ih => rw [before, ih]; rfl

theorem after_blackenTop (ps : List (Frame ι)) :
    after (blackenTop ps) = after ps := by
  fun_induction blackenTop ps with
  | case1 => rfl
  | case2 f => rfl
  | case3 f g ps ih => rw [after, ih]; rfl

theorem Around.blacken {u t : Tree ι} {b a : List ι} (ht : t.color = .black)
    (h : Around u t b a) : Around u.blacken t b a := by
  obtain ⟨qs, rfl, rfl, rfl⟩ := h
  cases qs with
  | nil => exact ⟨[], Tree.blacken_of_black ht, rfl, rfl⟩
  | cons f qs =>
      exact ⟨blackenTop (f :: qs), (plug_blackenTop ..).symm, before_blackenTop _,
        after_blackenTop _⟩

theorem around_fill (f : Frame ι) (t : Tree ι) : Around (f.fill t) t f.before f.after :=
  ⟨[f], rfl, by simp [before], by simp [after]⟩

theorem around_fill_fill (f g : Frame ι) (t : Tree ι) :
    Around (g.fill (f.fill t)) t (g.before ++ f.before) (f.after ++ g.after) :=
  ⟨[f, g], rfl, by simp [before], by simp [after]⟩

theorem fixSib_around (s : Side) (c : Color) (x : ι) (t sib : Tree ι) :
    ∃ u, (fixSib s c x t sib = .inl u ∨ fixSib s c x t sib = .inr u)
      ∧ Around u t (Frame.mk s c x sib).before (Frame.mk s c x sib).after := by
  cases sib with
  | nil => exact ⟨_, .inl rfl, around_fill ⟨s, c, x, .nil⟩ t⟩
  | node cs l y r =>
      -- the case 2 result and the unreachable one have the same shape
      have hflat : Around (s.node c t x (s.node .red (s.pick l r) y (s.flip.pick l r))) t
          (Frame.mk s c x (Tree.node cs l y r)).before
          (Frame.mk s c x (Tree.node cs l y r)).after := by
        have h := around_fill
          ⟨s, c, x, s.node .red (s.pick l r) y (s.flip.pick l r)⟩ t
        cases s <;>
          simpa [Frame.fill, Frame.before, Frame.after, Side.pick, Side.node] using h
      simp only [fixSib]
      split
      · exact ⟨_, .inl rfl, hflat⟩
      · split
        · refine ⟨_, .inr rfl, ?_⟩
          have h := around_fill_fill ⟨s, .black, x, s.pick l r⟩
            ⟨s, c, y, (s.flip.pick l r).blacken⟩ t
          cases s <;> simpa [Frame.fill, Frame.before, Frame.after, Side.pick, Side.node] using h
        · split
          · exact ⟨_, .inl rfl, hflat⟩
          · rename_i cn l' z r' hnear
            refine ⟨_, .inr rfl, ?_⟩
            have h := around_fill_fill ⟨s, .black, x, s.pick l' r'⟩
              ⟨s, c, z, s.node .black (s.flip.pick l' r') y (s.flip.pick l r)⟩ t
            cases s <;>
              simp only [Side.pick] at hnear <;>
              simpa [Frame.fill, Frame.before, Frame.after, Side.pick, Side.node, hnear] using h

/-- The repair moves nodes around the short subtree and leaves it in place. -/
theorem deleteFix_around (ps : List (Frame ι)) (t : Tree ι) :
    Around (deleteFix ps t) t.blacken (before ps) (after ps) := by
  induction ps generalizing t with
  | nil => exact ⟨[], rfl, rfl, rfl⟩
  | cons f ps ih =>
      rw [deleteFix]
      split
      · exact ⟨f :: ps, rfl, rfl, rfl⟩
      · rename_i hred
        have ht : t.color = .black := by cases h : t.color <;> simp_all
        rw [Tree.blacken_of_black ht]
        split
        · -- red sibling
          rename_i l y r hsib
          obtain ⟨u, hu, hau⟩ := fixSib_around f.side .red f.item t (f.side.pick l r)
          have hup : ∀ v, Around v t (Frame.mk f.side .red f.item (f.side.pick l r)).before
              (Frame.mk f.side .red f.item (f.side.pick l r)).after →
              Around (plug ps (f.side.node .black v y (f.side.flip.pick l r))) t
                (before (f :: ps)) (after (f :: ps)) := by
            intro v hv
            have h := (hv.plug [⟨f.side, .black, y, f.side.flip.pick l r⟩]).plug ps
            obtain ⟨s, c, x, sib⟩ := f
            obtain rfl : sib = .node .red l y r := hsib
            cases s <;>
              simpa [before, after, Frame.fill, Frame.before, Frame.after, Side.pick] using h
          rcases hu with hu | hu <;> rw [hu]
          · exact hup _ (hau.blacken ht)
          · exact (hup _ hau).blacken ht
        · obtain ⟨u, hu, hau⟩ := fixSib_around f.side f.color f.item t f.sib
          have hup := hau.plug ps
          rcases hu with hu | hu <;> rw [hu]
          · obtain ⟨qs, hqs, hb, ha⟩ := ih u
            show Around (deleteFix ps u) t _ _
            rw [hqs]
            have hin := (hau.blacken ht).plug qs
            rw [hb, ha] at hin
            exact hin
          · exact hup.blacken ht

theorem toList_deleteFix (ps : List (Frame ι)) (t : Tree ι) :
    (deleteFix ps t).toList = (plug ps t).toList := by
  obtain ⟨qs, h, hb, ha⟩ := deleteFix_around ps t
  rw [h, toList_plug, toList_plug, hb, ha, Tree.toList_blacken]

end Artorias
