import Artorias.ZipTree

/-!
# Red-black balance

`RB t c n`: `t` has a root of colour `c`, no red node with a red child, and
`n` black nodes on every way down. `RBPath ps c n` says the same of a tree
with a hole: whatever has colour `c` and height `n` may be put there.

The two repairs restore it: `insertFix` from a red node under a possibly red
parent (`insertFix_rb`), `deleteFix` from a subtree one black node too low
(`deleteFix_rb`).
-/

namespace Artorias

variable {ι : Type}

inductive RB : Tree ι → Color → Nat → Prop where
  | nil : RB .nil .black 0
  | red {l r : Tree ι} {x : ι} {n : Nat} :
      RB l .black n → RB r .black n → RB (.node .red l x r) .red n
  | black {l r : Tree ι} {x : ι} {cl cr : Color} {n : Nat} :
      RB l cl n → RB r cr n → RB (.node .black l x r) .black (n + 1)

namespace RB

theorem color_eq {t : Tree ι} {c : Color} {n : Nat} (h : RB t c n) : t.color = c := by
  cases h <;> rfl

theorem blacken {t : Tree ι} {n : Nat} (h : RB t .red n) :
    RB t.blacken .black (n + 1) := by
  cases h with
  | red hl hr => exact .black hl hr

theorem blacken_black {t : Tree ι} {n : Nat} (h : RB t .black n) :
    RB t.blacken .black n := by
  rw [Tree.blacken_of_black h.color_eq]
  exact h

theorem redNode (s : Side) {a b : Tree ι} {n : Nat} (x : ι)
    (ha : RB a .black n) (hb : RB b .black n) : RB (s.node .red a x b) .red n := by
  cases s with
  | left => exact .red ha hb
  | right => exact .red hb ha

theorem blackNode (s : Side) {a b : Tree ι} {ca cb : Color} {n : Nat} (x : ι)
    (ha : RB a ca n) (hb : RB b cb n) : RB (s.node .black a x b) .black (n + 1) := by
  cases s with
  | left => exact .black ha hb
  | right => exact .black hb ha

theorem of_red {l r : Tree ι} {x : ι} {c : Color} {n : Nat} (s : Side)
    (h : RB (.node .red l x r) c n) :
    c = .red ∧ RB (s.pick l r) .black n ∧ RB (s.flip.pick l r) .black n := by
  cases h with
  | red hl hr => cases s <;> exact ⟨rfl, ‹_›, ‹_›⟩

theorem of_black {l r : Tree ι} {x : ι} {c : Color} {n : Nat} (s : Side)
    (h : RB (.node .black l x r) c n) :
    c = .black ∧ ∃ m ca cb, n = m + 1 ∧ RB (s.pick l r) ca m ∧ RB (s.flip.pick l r) cb m := by
  cases h with
  | black hl hr =>
      cases s with
      | left => exact ⟨rfl, _, _, _, rfl, hl, hr⟩
      | right => exact ⟨rfl, _, _, _, rfl, hr, hl⟩

theorem ne_nil {t : Tree ι} {c : Color} {n : Nat} (h : RB t c (n + 1)) : t ≠ .nil := by
  rintro rfl
  cases h

end RB

/-! ## Paths -/

inductive RBPath : List (Frame ι) → Color → Nat → Prop where
  | nil {n : Nat} : RBPath [] .black n
  | red {s : Side} {x : ι} {u : Tree ι} {ps : List (Frame ι)} {n : Nat} :
      RB u .black n → RBPath ps .red n → RBPath (⟨s, .red, x, u⟩ :: ps) .black n
  | black {s : Side} {x : ι} {u : Tree ι} {cu c : Color} {ps : List (Frame ι)} {n : Nat} :
      RB u cu n → RBPath ps .black (n + 1) → RBPath (⟨s, .black, x, u⟩ :: ps) c n

theorem RBPath.black_of_any {ps : List (Frame ι)} {c : Color} {n : Nat}
    (h : RBPath ps c n) : RBPath ps .black n := by
  cases h with
  | nil => exact .nil
  | red hu hp => exact .red hu hp
  | black hu hp => exact .black hu hp

theorem RBPath.plug {ps : List (Frame ι)} {t : Tree ι} {c : Color} {n : Nat}
    (hp : RBPath ps c n) (ht : RB t c n) : ∃ N, RB (plug ps t) .black N := by
  induction hp generalizing t with
  | nil => exact ⟨_, ht⟩
  | red hu _ ih => exact ih (ht.redNode _ _ hu)
  | black hu _ ih => exact ih (ht.blackNode _ _ hu)

/-- A balanced tree is balanced at every place in it: the path says what colour and height
its hole takes, and the subtree has them. -/
theorem RB.unplug {ps : List (Frame ι)} {t : Tree ι} {N : Nat}
    (h : RB (Artorias.plug ps t) .black N) : ∃ c n, RBPath ps c n ∧ RB t c n := by
  induction ps generalizing t with
  | nil => exact ⟨_, _, .nil, h⟩
  | cons f ps ih =>
      obtain ⟨c, n, hp, hf⟩ := ih h
      obtain ⟨s, cf, x, u⟩ := f
      cases cf with
      | red =>
          cases s <;>
            (simp only [Frame.fill, Side.node] at hf
             obtain ⟨rfl, ha, hb⟩ := hf.of_red .left)
          · exact ⟨_, _, .red hb hp, ha⟩
          · exact ⟨_, _, .red ha hp, hb⟩
      | black =>
          cases s <;>
            (simp only [Frame.fill, Side.node] at hf
             obtain ⟨rfl, m, ca, cb, rfl, ha, hb⟩ := hf.of_black .left)
          · exact ⟨_, _, .black hb hp, ha⟩
          · exact ⟨_, _, .black ha hp, hb⟩

/-! ## The repair after an insertion -/

theorem insertFix_rb {ps : List (Frame ι)} {t : Tree ι} {n : Nat}
    (ht : RB t .red n) (hp : RBPath ps .black n) :
    ∃ N, RB (insertFix ps t).blacken .black N := by
  fun_induction insertFix ps t generalizing n with
  | case1 t => exact ⟨_, ht.blacken⟩
  | case2 f t =>
      cases hp with
      | red _ hr => cases hr
      | black hu hp =>
          obtain ⟨N, h⟩ := (RBPath.black hu hp).plug ht
          exact ⟨N, RB.blacken_black h⟩
  | case3 f g ps t hf =>
      cases hp with
      | red _ _ => cases hf
      | black hu hp =>
          obtain ⟨N, h⟩ := (RBPath.black hu hp).plug ht
          exact ⟨N, h.blacken_black⟩
  | case4 f g ps t hf hg ih =>
      cases hp with
      | black _ _ => exact absurd rfl hf
      | red hu hr =>
          cases hr with
          | black hug hp =>
              obtain rfl : _ = Color.red := hug.color_eq.symm.trans hg
              exact ih (.redNode _ _ (ht.blackNode _ _ hu) hug.blacken) hp
  | case5 f g ps t hf hg hs =>
      cases hp with
      | black _ _ => exact absurd rfl hf
      | red hu hr =>
          cases hr with
          | @black s x ug cu _ _ _ hug hp =>
              obtain rfl : cu = .black := by cases cu <;> simp_all [hug.color_eq]
              obtain ⟨N, h⟩ := hp.plug (ht.blackNode _ _ (hu.redNode _ _ hug))
              exact ⟨N, h.blacken_black⟩
  | case6 f g ps hf hg hs => cases ht
  | case7 f g ps hf hg hs c l x r =>
      cases hp with
      | black _ _ => exact absurd rfl hf
      | red hu hr =>
          cases hr with
          | @black s y ug cu _ _ _ hug hp =>
              obtain rfl : cu = .black := by cases cu <;> simp_all [hug.color_eq]
              obtain rfl : c = .red := ht.color_eq
              obtain ⟨-, ha, hb⟩ := ht.of_red s
              obtain ⟨N, h⟩ :=
                hp.plug ((hu.redNode _ _ ha).blackNode _ _ (hb.redNode _ _ hug))
              exact ⟨N, h.blacken_black⟩

/-! ## The repair after a removal -/

/-- The height of a node of colour `c` over subtrees of height `n`. -/
def Color.over : Color → Nat → Nat
  | .red, n => n
  | .black, n => n + 1

theorem RB.overNode (s : Side) (c : Color) {a b : Tree ι} {n : Nat} (x : ι)
    (ha : RB a .black n) (hb : RB b .black n) : RB (s.node c a x b) c (c.over n) := by
  cases c with
  | red => exact ha.redNode s x hb
  | black => exact ha.blackNode s x hb

/-- What `fixSib` leaves: a node one short (red under a red child until it is blackened), or
a repaired one. -/
theorem fixSib_rb {s : Side} {c : Color} {x : ι} {t sib : Tree ι} {n : Nat}
    (ht : RB t .black n) (hs : RB sib .black (n + 1)) :
    (∃ u, fixSib s c x t sib = .inl u ∧ u.color = c ∧ RB u.blacken .black (n + 1))
      ∨ ∃ u, fixSib s c x t sib = .inr u ∧ RB u c (c.over (n + 1)) := by
  cases hs with
  | @black l r y _ _ _ hl hr =>
      obtain ⟨-, m, ca, cb, hm, hnear, hfar⟩ := (RB.black (x := y) hl hr).of_black s
      obtain rfl : n = m := Nat.succ.inj hm
      simp only [fixSib]
      split
      · -- both children of the sibling black
        rename_i hcol
        obtain rfl : ca = .black := hnear.color_eq.symm.trans hcol.1
        obtain rfl : cb = .black := hfar.color_eq.symm.trans hcol.2
        refine .inl ⟨_, rfl, by simp, ?_⟩
        rw [Side.blacken_node]
        exact ht.blackNode _ _ (hnear.redNode _ _ hfar)
      · rename_i hcol
        split
        · -- far child red
          rename_i hred
          obtain rfl : cb = .red := hfar.color_eq.symm.trans hred
          exact .inr ⟨_, rfl, (ht.blackNode _ _ hnear).overNode _ _ _ hfar.blacken⟩
        · -- near child red
          rename_i hred
          obtain rfl : cb = .black := by cases cb <;> simp_all [hfar.color_eq]
          obtain rfl : ca = .red := by
            cases ca <;> simp_all [hfar.color_eq, hnear.color_eq]
          split
          · rename_i hnil
            rw [hnil] at hnear
            cases hnear
          · rename_i cn l' z r' hnode
            rw [hnode] at hnear
            obtain rfl : cn = .red := hnear.color_eq
            obtain ⟨-, hp, hq⟩ := hnear.of_red s
            exact .inr ⟨_, rfl,
              (ht.blackNode _ _ hp).overNode _ _ _ (hq.blackNode _ _ hfar)⟩

theorem deleteFix_rb {ps : List (Frame ι)} {t : Tree ι} {c : Color} {n : Nat}
    (ht : RB t c n) (hp : RBPath ps .black (n + 1)) :
    ∃ N, RB (deleteFix ps t) .black N := by
  induction ps generalizing t c n with
  | nil =>
      cases c with
      | red => exact ⟨_, ht.blacken⟩
      | black => exact ⟨_, ht.blacken_black⟩
  | cons f ps ih =>
      rw [deleteFix]
      cases c with
      | red =>
          rw [if_pos ht.color_eq]
          exact hp.plug ht.blacken
      | black =>
          rw [if_neg (by rw [ht.color_eq]; decide)]
          split
          · -- red sibling, so the frame is black
            rename_i l y r hsib
            cases hp with
            | red hu _ => cases hsib; cases hu
            | @black s x u cu _ _ _ hu hp =>
                obtain rfl : u = .node .red l y r := hsib
                obtain ⟨-, hnear, hfar⟩ := hu.of_red s
                obtain ⟨v, hv, -, hrb⟩ | ⟨v, hv, hrb⟩ :=
                  fixSib_rb (s := s) (c := .red) (x := x) ht hnear
                · simp only [hv]
                  exact hp.plug (hrb.blackNode _ _ hfar)
                · simp only [hv]
                  obtain ⟨N, h⟩ := hp.plug (hrb.blackNode s y hfar)
                  exact ⟨N, h.blacken_black⟩
          · rename_i hsib
            obtain ⟨s, cf, x, u⟩ := f
            have hu : RB u .black (n + 1) ∧ RBPath ps cf (cf.over (n + 1)) := by
              cases hp with
              | red hu hp => exact ⟨hu, hp⟩
              | @black _ _ _ cu _ _ _ hu hp =>
                  refine ⟨?_, hp⟩
                  cases hu with
                  | red _ _ => exact absurd rfl (hsib _ _ _)
                  | black hl hr => exact .black hl hr
            obtain ⟨v, hv, hcol, hrb⟩ | ⟨v, hv, hrb⟩ :=
              fixSib_rb (s := s) (c := cf) (x := x) ht hu.1
            · simp only [hv]
              cases cf with
              | red =>
                  -- the node one up is red: blackening it ends the repair
                  cases ps with
                  | nil => cases hu.2
                  | cons g ps =>
                      rw [deleteFix, if_pos hcol]
                      exact hu.2.black_of_any.plug hrb
              | black =>
                  rw [Tree.blacken_of_black hcol] at hrb
                  exact ih hrb hu.2
            · simp only [hv]
              obtain ⟨N, h⟩ := hu.2.plug hrb
              exact ⟨N, h.blacken_black⟩

end Artorias
