import Mathlib.Data.Nat.Basic
import Mathlib.Algebra.Order.Ring.Nat

/-!
# Trees of buddies

A range of `2 ^ h` units is one free block, or one taken block, or split into
two buddies of half the size. Taking a block splits a free one as often as
needed; giving it back makes it free again and leaves the splits above it as
they are: nothing is merged.

- `Buddy.Taken`: the blocks that are taken, pairwise apart.
- `Buddy.Avail`: the blocks that can be taken, those inside a free node.
- `Buddy.avail_iff`: with a record of everything ever taken, these are the
  aligned blocks that are free and that no smaller block was ever taken from.
-/

namespace Artorias

/-- `2 ^ log` units from `off` on. -/
structure Span where
  off : Nat
  log : Nat
deriving Repr, DecidableEq

namespace Span

def Has (s : Span) (x : Nat) : Prop := s.off ≤ x ∧ x < s.off + 2 ^ s.log

def Apart (s t : Span) : Prop := s.off + 2 ^ s.log ≤ t.off ∨ t.off + 2 ^ t.log ≤ s.off

/-- `s` lies in the `2 ^ h` units from `base` on. -/
def Within (s : Span) (base h : Nat) : Prop :=
  base ≤ s.off ∧ s.off + 2 ^ s.log ≤ base + 2 ^ h

instance (s : Span) (x : Nat) : Decidable (s.Has x) := inferInstanceAs (Decidable (_ ∧ _))

theorem Apart.symm {s t : Span} (h : s.Apart t) : t.Apart s := Or.symm h

theorem not_apart_self (s : Span) : ¬s.Apart s := by
  have hpos := Nat.two_pow_pos s.log
  unfold Apart
  omega

theorem Apart.not_has {s t : Span} (h : s.Apart t) {x : Nat} (hx : s.Has x) : ¬t.Has x := by
  unfold Apart at h
  unfold Has at hx ⊢
  omega

theorem Within.log_le {s : Span} {base h : Nat} (hs : s.Within base h) : s.log ≤ h := by
  by_contra hlt
  have hpow : 2 ^ h < 2 ^ s.log := Nat.pow_lt_pow_right (by omega) (by omega)
  unfold Within at hs
  omega

theorem Within.apart {s t : Span} {base h : Nat} (hs : s.Within base h)
    (ht : t.Within (base + 2 ^ h) h) : s.Apart t := by
  unfold Within at hs ht
  unfold Apart
  omega

theorem Within.left {s : Span} {base h : Nat} (hs : s.Within base h) : s.Within base (h + 1) := by
  unfold Within at *
  rw [Nat.pow_succ]
  omega

theorem Within.right {s : Span} {base h : Nat} (hs : s.Within (base + 2 ^ h) h) :
    s.Within base (h + 1) := by
  have hpos := Nat.two_pow_pos h
  unfold Within at *
  rw [Nat.pow_succ]
  omega

/-- An aligned block that is smaller than its range lies in one half of it, since it cannot
straddle the middle. -/
theorem Within.halves {s : Span} {base h : Nat} (hs : s.Within base (h + 1))
    (hal : 2 ^ s.log ∣ s.off) (hbase : 2 ^ (h + 1) ∣ base) (hlog : s.log ≤ h) :
    s.Within base h ∨ s.Within (base + 2 ^ h) h := by
  have hpos := Nat.two_pow_pos h
  unfold Within at *
  rw [Nat.pow_succ] at hs hbase
  have hmid : 2 ^ s.log ∣ base + 2 ^ h := by
    refine Nat.dvd_add ?_ (Nat.pow_dvd_pow 2 hlog)
    exact (Nat.pow_dvd_pow 2 hlog).trans ((Nat.dvd_mul_right _ _).trans hbase)
  by_cases hlt : s.off < base + 2 ^ h
  · obtain ⟨a, ha⟩ := hal
    obtain ⟨b, hb⟩ := hmid
    rw [ha, hb] at hlt
    have hab : a + 1 ≤ b := Nat.lt_of_mul_lt_mul_left hlt
    have hle : 2 ^ s.log * (a + 1) ≤ 2 ^ s.log * b := Nat.mul_le_mul_left _ hab
    rw [Nat.mul_add, Nat.mul_one, ← ha, ← hb] at hle
    omega
  · omega

end Span

/-- The `2 ^ h` units of one node. -/
inductive Buddy : Nat → Type where
  | whole {h : Nat} : Buddy h
  | taken {h : Nat} : Buddy h
  | split {h : Nat} (l r : Buddy h) : Buddy (h + 1)

namespace Buddy

/-! ## Nodes -/

/-- One more than the logarithm of the largest free node below, or 0. -/
def most : {h : Nat} → Buddy h → Nat
  | h, .whole => h + 1
  | _, .taken => 0
  | _, .split l r => max l.most r.most

/-- The halves of a node. Those of a taken node are as they were before it
was taken. -/
def left {h : Nat} : Buddy (h + 1) → Buddy h
  | .split l _ => l
  | _ => .whole

def right {h : Nat} : Buddy (h + 1) → Buddy h
  | .split _ r => r
  | _ => .whole

@[simp] theorem most_whole {h : Nat} : (whole : Buddy h).most = h + 1 := rfl
@[simp] theorem most_taken {h : Nat} : (taken : Buddy h).most = 0 := rfl
@[simp] theorem most_split {h : Nat} (l r : Buddy h) :
    (split l r).most = max l.most r.most := rfl
@[simp] theorem left_whole {h : Nat} : (whole : Buddy (h + 1)).left = whole := rfl
@[simp] theorem left_taken {h : Nat} : (taken : Buddy (h + 1)).left = whole := rfl
@[simp] theorem left_split {h : Nat} (l r : Buddy h) : (split l r).left = l := rfl
@[simp] theorem right_whole {h : Nat} : (whole : Buddy (h + 1)).right = whole := rfl
@[simp] theorem right_taken {h : Nat} : (taken : Buddy (h + 1)).right = whole := rfl
@[simp] theorem right_split {h : Nat} (l r : Buddy h) : (split l r).right = r := rfl

theorem most_le {h : Nat} (t : Buddy h) : t.most ≤ h + 1 := by
  induction t with
  | whole => exact Nat.le_refl _
  | taken => exact Nat.zero_le _
  | split l r ihl ihr =>
      rw [most_split]
      omega

theorem eq_whole_of_most {h : Nat} {t : Buddy h} (ht : h < t.most) : t = whole := by
  cases t with
  | whole => rfl
  | taken => exact absurd ht (Nat.not_lt_zero _)
  | split l r =>
      have hl := l.most_le
      have hr := r.most_le
      rw [most_split] at ht
      omega

/-- What a node has to offer below its own size comes from one of its halves. -/
theorem lt_most_halves {h : Nat} {t : Buddy (h + 1)} {k : Nat} (hk : k < h + 1)
    (ht : k < t.most) : k < t.left.most ∨ k < t.right.most := by
  cases t with
  | whole => exact .inl hk
  | taken => exact absurd ht (Nat.not_lt_zero _)
  | split l r => exact lt_max_iff.mp ht

/-! ## Taken and available blocks -/

/-- The block `s` is taken, with the node at `base`. -/
def Taken : {h : Nat} → Buddy h → Nat → Span → Prop
  | _, .whole, _, _ => False
  | h, .taken, base, s => s = ⟨base, h⟩
  | _, .split (h := h) l r, base, s => l.Taken base s ∨ r.Taken (base + 2 ^ h) s

/-- The block `s` lies in a free node. -/
def Avail : {h : Nat} → Buddy h → Nat → Span → Prop
  | h, .whole, base, s => s.Within base h ∧ 2 ^ s.log ∣ s.off
  | _, .taken, _, _ => False
  | _, .split (h := h) l r, base, s => l.Avail base s ∨ r.Avail (base + 2 ^ h) s

theorem Taken.within {h : Nat} {t : Buddy h} {base : Nat} {s : Span} (hs : t.Taken base s) :
    s.Within base h := by
  induction t generalizing base with
  | whole => exact hs.elim
  | taken =>
      cases hs
      exact ⟨Nat.le_refl _, Nat.le_refl _⟩
  | split l r ihl ihr =>
      rcases hs with hs | hs
      · exact (ihl hs).left
      · exact (ihr hs).right

theorem Avail.within {h : Nat} {t : Buddy h} {base : Nat} {s : Span} (hs : t.Avail base s) :
    s.Within base h := by
  induction t generalizing base with
  | whole => exact hs.1
  | taken => exact hs.elim
  | split l r ihl ihr =>
      rcases hs with hs | hs
      · exact (ihl hs).left
      · exact (ihr hs).right

theorem pow_dvd_mid {h base : Nat} (hbase : 2 ^ (h + 1) ∣ base) :
    2 ^ h ∣ base ∧ 2 ^ h ∣ base + 2 ^ h := by
  have hd : 2 ^ h ∣ base := (Nat.pow_dvd_pow 2 (Nat.le_succ h)).trans hbase
  exact ⟨hd, Nat.dvd_add hd (Nat.dvd_refl _)⟩

theorem Avail.aligned {h : Nat} {t : Buddy h} {base : Nat} {s : Span} (hs : t.Avail base s) :
    2 ^ s.log ∣ s.off := by
  induction t generalizing base with
  | whole => exact hs.2
  | taken => exact hs.elim
  | split l r ihl ihr =>
      rcases hs with hs | hs
      · exact ihl hs
      · exact ihr hs

theorem Taken.apart {h : Nat} {t : Buddy h} {base : Nat} {s s' : Span} (hs : t.Taken base s)
    (hs' : t.Taken base s') : s = s' ∨ s.Apart s' := by
  induction t generalizing base with
  | whole => exact hs.elim
  | taken => exact .inl (hs.trans hs'.symm)
  | split l r ihl ihr =>
      rcases hs with hs | hs <;> rcases hs' with hs' | hs'
      · exact ihl hs hs'
      · exact .inr (hs.within.apart hs'.within)
      · exact .inr (hs'.within.apart hs.within).symm
      · exact ihr hs hs'

theorem Avail.apart {h : Nat} {t : Buddy h} {base : Nat} {s s' : Span} (hs : t.Avail base s)
    (hs' : t.Taken base s') : s.Apart s' := by
  induction t generalizing base with
  | whole => exact hs'.elim
  | taken => exact hs.elim
  | split l r ihl ihr =>
      rcases hs with hs | hs <;> rcases hs' with hs' | hs'
      · exact ihl hs hs'
      · exact hs.within.apart hs'.within
      · exact (hs'.within.apart hs.within).symm
      · exact ihr hs hs'

/-- There is an available block of `2 ^ k` units in a tree exactly when its largest free
node has that many, which is all that the entry of a node says. -/
theorem avail_iff_most {h : Nat} (t : Buddy h) {base k : Nat} (hbase : 2 ^ h ∣ base) :
    (∃ o, t.Avail base ⟨o, k⟩) ↔ k < t.most := by
  induction t generalizing base with
  | whole =>
      rename_i h
      constructor
      · rintro ⟨o, hin, -⟩
        exact Nat.lt_succ_of_le hin.log_le
      · intro hk
        have hle : k ≤ h := Nat.le_of_lt_succ hk
        refine ⟨base, ⟨Nat.le_refl _, ?_⟩, (Nat.pow_dvd_pow 2 hle).trans hbase⟩
        exact Nat.add_le_add_left (Nat.pow_le_pow_right (by omega) hle) _
  | taken => exact ⟨fun ⟨_, ho⟩ => ho.elim, fun hk => absurd hk (Nat.not_lt_zero _)⟩
  | split l r ihl ihr =>
      obtain ⟨hl, hr⟩ := pow_dvd_mid hbase
      rw [most_split, lt_max_iff, ← ihl hl, ← ihr hr]
      exact exists_or

/-! ## Taking -/

/-- Take the first block of `2 ^ k` units, going left wherever the left half
has one; what is taken and where. -/
def take (k : Nat) : {h : Nat} → Buddy h → Nat → Option (Buddy h × Nat)
  | 0, t, base => if k < t.most then some (.taken, base) else none
  | h + 1, t, base =>
      if k < t.most then
        if k = h + 1 then some (.taken, base)
        else if k < t.left.most then
          (t.left.take k base).map fun p => (.split p.1 t.right, p.2)
        else
          (t.right.take k (base + 2 ^ h)).map fun p => (.split t.left p.1, p.2)
      else none

theorem take_of_le {h : Nat} {t : Buddy h} {k base : Nat} (hk : t.most ≤ k) :
    t.take k base = none := by
  cases h <;> exact if_neg (Nat.not_lt.mpr hk)

theorem take_whole {h : Nat} {t : Buddy h} {base : Nat} (ht : h < t.most) :
    t.take h base = some (.taken, base) := by
  cases h <;> simp [take, ht]

theorem take_left {h : Nat} {t : Buddy (h + 1)} {k base : Nat} (hk : k ≠ h + 1)
    (ht : k < t.most) (hl : k < t.left.most) :
    t.take k base = (t.left.take k base).map fun p => (.split p.1 t.right, p.2) := by
  rw [take, if_pos ht, if_neg hk, if_pos hl]

theorem take_right {h : Nat} {t : Buddy (h + 1)} {k base : Nat} (hk : k ≠ h + 1)
    (ht : k < t.most) (hl : ¬k < t.left.most) :
    t.take k base = (t.right.take k (base + 2 ^ h)).map fun p => (.split t.left p.1, p.2) := by
  rw [take, if_pos ht, if_neg hk, if_neg hl]

theorem taken_halves {h : Nat} {t : Buddy (h + 1)} {k base : Nat} (ht : k < t.most) (s : Span) :
    t.Taken base s ↔ t.left.Taken base s ∨ t.right.Taken (base + 2 ^ h) s := by
  cases t with
  | whole => exact ⟨fun h => h.elim, fun h => h.elim id id⟩
  | taken => exact absurd ht (Nat.not_lt_zero _)
  | split l r => exact Iff.rfl

theorem avail_halves {h : Nat} {t : Buddy (h + 1)} {base : Nat} {s : Span}
    (hs : t.left.Avail base s ∨ t.right.Avail (base + 2 ^ h) s) (hk : s.log < t.most) :
    t.Avail base s := by
  cases t with
  | whole =>
      rcases hs with hs | hs
      · exact ⟨hs.1.left, hs.2⟩
      · exact ⟨hs.1.right, hs.2⟩
  | taken => exact absurd hk (Nat.not_lt_zero _)
  | split l r => exact hs

/-- Taking finds an available block, and afterwards the taken blocks are those of before and
this one. -/
theorem take_spec {h : Nat} {t : Buddy h} {k base : Nat} (hk : k < t.most)
    (hbase : 2 ^ h ∣ base) : ∃ t' o, t.take k base = some (t', o) ∧ t.Avail base ⟨o, k⟩
      ∧ ∀ s, t'.Taken base s ↔ t.Taken base s ∨ s = ⟨o, k⟩ := by
  induction h generalizing base with
  | zero =>
      have hk0 : k = 0 := by
        have := t.most_le
        omega
      subst hk0
      have ht := eq_whole_of_most hk
      subst ht
      refine ⟨.taken, base, take_whole hk, ⟨⟨Nat.le_refl _, Nat.le_refl _⟩, hbase⟩, ?_⟩
      intro s
      simp [Taken]
  | succ h ih =>
      by_cases hkh : k = h + 1
      · subst hkh
        have ht := eq_whole_of_most hk
        subst ht
        refine ⟨.taken, base, take_whole hk, ⟨⟨Nat.le_refl _, Nat.le_refl _⟩, hbase⟩, ?_⟩
        intro s
        simp [Taken]
      · obtain ⟨hbl, hbr⟩ := pow_dvd_mid hbase
        have hlt : k < h + 1 := by
          have := t.most_le
          omega
        by_cases hl : k < t.left.most
        · obtain ⟨t', o, htake, hav, htk⟩ := ih hl hbl
          refine ⟨.split t' t.right, o, ?_, avail_halves (.inl hav) hk, ?_⟩
          · rw [take_left hkh hk hl, htake, Option.map_some]
          · intro s
            rw [taken_halves hk, Taken, htk, or_right_comm]
        · have hr := (lt_most_halves hlt hk).resolve_left hl
          obtain ⟨t', o, htake, hav, htk⟩ := ih hr hbr
          refine ⟨.split t.left t', o, ?_, avail_halves (.inr hav) hk, ?_⟩
          · rw [take_right hkh hk hl, htake, Option.map_some]
          · intro s
            rw [taken_halves hk, Taken, htk, or_assoc]

/-! ## Giving back -/

/-- Give back the taken block that the unit `x` is in. -/
def give (x : Nat) : {h : Nat} → Buddy h → Nat → Option (Buddy h)
  | _, .whole, _ => none
  | _, .taken, _ => some .whole
  | _, .split (h := h) l r, base =>
      if x < base + 2 ^ h then (l.give x base).map fun l' => .split l' r
      else (r.give x (base + 2 ^ h)).map fun r' => .split l r'

/-- Giving back finds the one taken block around the unit `x`, and afterwards that block
alone is no longer taken. -/
theorem give_some {h : Nat} {t t' : Buddy h} {x base : Nat} (hx : base ≤ x ∧ x < base + 2 ^ h)
    (hg : t.give x base = some t') : ∃ s, t.Taken base s ∧ s.Has x
      ∧ ∀ s', t'.Taken base s' ↔ t.Taken base s' ∧ s' ≠ s := by
  induction t generalizing base with
  | whole => cases hg
  | taken =>
      cases hg
      exact ⟨_, rfl, hx, fun s' => ⟨fun h => h.elim, fun ⟨h, hne⟩ => hne h⟩⟩
  | split l r ihl ihr =>
      rename_i h
      rw [Nat.pow_succ] at hx
      by_cases hlt : x < base + 2 ^ h
      · rw [give, if_pos hlt] at hg
        obtain ⟨l', hl', rfl⟩ := Option.map_eq_some_iff.mp hg
        obtain ⟨s, hs, hhas, hiff⟩ := ihl ⟨hx.1, hlt⟩ hl'
        refine ⟨s, .inl hs, hhas, ?_⟩
        intro s'
        rw [Taken, Taken, hiff, or_and_right]
        refine or_congr_right ⟨fun hr => ⟨hr, fun he => ?_⟩, And.left⟩
        exact Span.not_apart_self s (hs.within.apart (he ▸ hr.within))
      · rw [give, if_neg hlt] at hg
        obtain ⟨r', hr', rfl⟩ := Option.map_eq_some_iff.mp hg
        obtain ⟨s, hs, hhas, hiff⟩ := ihr (by omega) hr'
        refine ⟨s, .inr hs, hhas, ?_⟩
        intro s'
        rw [Taken, Taken, hiff, or_and_right]
        refine or_congr_left ⟨fun hl => ⟨hl, fun he => ?_⟩, And.left⟩
        exact Span.not_apart_self s ((he ▸ hl.within : s.Within base h).apart hs.within)

theorem give_none {h : Nat} {t : Buddy h} {x base : Nat} (hg : t.give x base = none) {s : Span}
    (hs : t.Taken base s) : ¬s.Has x := by
  induction t generalizing base with
  | whole => exact hs.elim
  | taken => cases hg
  | split l r ihl ihr =>
      rename_i h
      by_cases hlt : x < base + 2 ^ h
      · rw [give, if_pos hlt, Option.map_eq_none_iff] at hg
        rcases hs with hs | hs
        · exact ihl hg hs
        · have hin := hs.within
          unfold Span.Within at hin
          unfold Span.Has
          omega
      · rw [give, if_neg hlt, Option.map_eq_none_iff] at hg
        rcases hs with hs | hs
        · have hin := hs.within
          unfold Span.Within at hin
          unfold Span.Has
          omega
        · exact ihr hg hs

/-! ## What was ever taken -/

/-- Out of the `2 ^ h` units at `base` a block smaller than that was taken at some time. -/
def Cut (past : List Span) (base h : Nat) : Prop :=
  ∃ s ∈ past, s.log < h ∧ s.Within base h

/-- A node is split exactly if a smaller block was taken out of it at some time. Freeing
does not merge halves, so the shape of the tree is its past. -/
def Marks (past : List Span) : {h : Nat} → Buddy h → Nat → Prop
  | h, .whole, base => ¬Cut past base h
  | h, .taken, base => ¬Cut past base h
  | _, .split (h := h) l r, base =>
      Cut past base (h + 1) ∧ l.Marks past base ∧ r.Marks past (base + 2 ^ h)

theorem Cut.sub {past : List Span} {base h : Nat} {s : Span} (hcut : Cut past s.off s.log)
    (hs : s.Within base h) : Cut past base h := by
  obtain ⟨p, hp, hlog, hin⟩ := hcut
  have hle := hs.log_le
  refine ⟨p, hp, by omega, ?_⟩
  unfold Span.Within at *
  omega

theorem Cut.cons {past : List Span} {base h : Nat} (s : Span) (hcut : Cut past base h) :
    Cut (s :: past) base h := by
  obtain ⟨p, hp, hlog⟩ := hcut
  exact ⟨p, .tail _ hp, hlog⟩

theorem not_cut_nil (base h : Nat) : ¬Cut [] base h := by
  rintro ⟨p, hp, -⟩
  cases hp

theorem not_cut_cons {past : List Span} {base h : Nat} {s : Span} (hcut : ¬Cut past base h)
    (hs : s.log < h → ¬s.Within base h) : ¬Cut (s :: past) base h := by
  rintro ⟨p, hp, hlog, hin⟩
  rcases List.mem_cons.mp hp with rfl | hp
  · exact hs hlog hin
  · exact hcut ⟨p, hp, hlog, hin⟩

theorem Marks.cons {past : List Span} {h : Nat} {t : Buddy h} {base : Nat}
    (ht : t.Marks past base) {s : Span} (hs : ¬s.Within base h) : t.Marks (s :: past) base := by
  induction t generalizing base with
  | whole => exact not_cut_cons ht fun _ => hs
  | taken => exact not_cut_cons ht fun _ => hs
  | split l r ihl ihr =>
      obtain ⟨hcut, hl, hr⟩ := ht
      exact ⟨hcut.cons s, ihl hl fun hin => hs hin.left, ihr hr fun hin => hs hin.right⟩

theorem Marks.halves {past : List Span} {h : Nat} {t : Buddy (h + 1)} {base k : Nat}
    (ht : t.Marks past base) (hk : k < t.most) :
    t.left.Marks past base ∧ t.right.Marks past (base + 2 ^ h) := by
  cases t with
  | whole =>
      refine ⟨fun hcut => ht ?_, fun hcut => ht ?_⟩
      · obtain ⟨p, hp, hlog, hin⟩ := hcut
        exact ⟨p, hp, by omega, hin.left⟩
      · obtain ⟨p, hp, hlog, hin⟩ := hcut
        exact ⟨p, hp, by omega, hin.right⟩
  | taken => exact absurd hk (Nat.not_lt_zero _)
  | split l r => exact ht.2

theorem within_right_not_left {s : Span} {base h : Nat} (hs : s.Within (base + 2 ^ h) h) :
    ¬s.Within base h := by
  have hpos := Nat.two_pow_pos s.log
  unfold Span.Within at *
  omega

/-- Taking a block keeps the marks: the nodes that it splits are the ones around it, and
with it on record these were broken up. -/
theorem Marks.take {past : List Span} {h : Nat} {t t' : Buddy h} {k base o : Nat}
    (ht : t.Marks past base) (hbase : 2 ^ h ∣ base) (hk : k < t.most)
    (htake : t.take k base = some (t', o)) : t'.Marks (⟨o, k⟩ :: past) base := by
  induction h generalizing base with
  | zero =>
      have hk0 : k = 0 := by
        have := t.most_le
        omega
      subst hk0
      rw [take_whole hk] at htake
      cases htake
      have ht' := eq_whole_of_most hk
      subst ht'
      exact not_cut_cons ht fun hlt => absurd hlt (Nat.not_lt_zero _)
  | succ h ih =>
      by_cases hkh : k = h + 1
      · subst hkh
        rw [take_whole hk] at htake
        cases htake
        have ht' := eq_whole_of_most hk
        subst ht'
        exact not_cut_cons ht fun hlt => absurd hlt (Nat.lt_irrefl _)
      · obtain ⟨hbl, hbr⟩ := pow_dvd_mid hbase
        obtain ⟨hml, hmr⟩ := ht.halves hk
        have hlt : k < h + 1 := by
          have := t.most_le
          omega
        by_cases hl : k < t.left.most
        · rw [take_left hkh hk hl] at htake
          obtain ⟨⟨l', o'⟩, hl', he⟩ := Option.map_eq_some_iff.mp htake
          cases he
          obtain ⟨l2, o2, h2, hav, -⟩ := take_spec hl hbl
          rw [hl'] at h2
          cases h2
          refine ⟨⟨⟨o', k⟩, .head _, hlt, hav.within.left⟩, ih hml hbl hl hl', hmr.cons ?_⟩
          exact fun hin => within_right_not_left hin hav.within
        · have hr := (lt_most_halves hlt hk).resolve_left hl
          rw [take_right hkh hk hl] at htake
          obtain ⟨⟨r', o'⟩, hr', he⟩ := Option.map_eq_some_iff.mp htake
          cases he
          obtain ⟨r2, o2, h2, hav, -⟩ := take_spec hr hbr
          rw [hr'] at h2
          cases h2
          exact ⟨⟨⟨o', k⟩, .head _, hlt, hav.within.right⟩,
            hml.cons (within_right_not_left hav.within), ih hmr hbr hr hr'⟩

theorem Marks.give {past : List Span} {h : Nat} {t t' : Buddy h} {x base : Nat}
    (ht : t.Marks past base) (hg : t.give x base = some t') : t'.Marks past base := by
  induction t generalizing base with
  | whole => cases hg
  | taken =>
      cases hg
      exact ht
  | split l r ihl ihr =>
      rename_i h
      obtain ⟨hcut, hl, hr⟩ := ht
      by_cases hlt : x < base + 2 ^ h
      · rw [Buddy.give, if_pos hlt] at hg
        obtain ⟨l', hl', rfl⟩ := Option.map_eq_some_iff.mp hg
        exact ⟨hcut, ihl hl hl', hr⟩
      · rw [Buddy.give, if_neg hlt] at hg
        obtain ⟨r', hr', rfl⟩ := Option.map_eq_some_iff.mp hg
        exact ⟨hcut, hl, ihr hr hr'⟩

/-- The available blocks are the aligned ones that meet no taken block and out of which
nothing smaller was ever taken: the last condition is what is lost by not merging. -/
theorem avail_iff {past : List Span} {h : Nat} {t : Buddy h} {base : Nat} {s : Span}
    (ht : t.Marks past base) (hbase : 2 ^ h ∣ base) :
    t.Avail base s ↔ (s.Within base h ∧ 2 ^ s.log ∣ s.off) ∧ (∀ s', t.Taken base s' → s.Apart s')
      ∧ ¬Cut past s.off s.log := by
  constructor
  · intro hs
    refine ⟨⟨hs.within, hs.aligned⟩, fun s' hs' => hs.apart hs', ?_⟩
    induction t generalizing base with
    | whole => exact fun hcut => ht (hcut.sub hs.1)
    | taken => exact hs.elim
    | split l r ihl ihr =>
        obtain ⟨hl, hr⟩ := pow_dvd_mid hbase
        rcases hs with hs | hs
        · exact ihl ht.2.1 hl hs
        · exact ihr ht.2.2 hr hs
  · rintro ⟨⟨hin, hal⟩, hapart, hcut⟩
    induction t generalizing base with
    | whole => exact ⟨hin, hal⟩
    | taken =>
        have hpos := Nat.two_pow_pos s.log
        have hap := hapart _ rfl
        unfold Span.Within at hin
        unfold Span.Apart at hap
        dsimp only at hap
        omega
    | split l r ihl ihr =>
        rename_i h
        obtain ⟨hl, hr⟩ := pow_dvd_mid hbase
        have hlog : s.log ≤ h := by
          -- the node itself is cut
          by_contra hlt
          have heq : s.log = h + 1 := by
            have := hin.log_le
            omega
          have hoff : s.off = base := by
            unfold Span.Within at hin
            rw [heq] at hin
            omega
          exact hcut (by rw [heq, hoff]; exact ht.1)
        rcases hin.halves hal hbase hlog with hin | hin
        · exact .inl (ihl ht.2.1 hl hin fun s' hs' => hapart s' (.inl hs'))
        · exact .inr (ihr ht.2.2 hr hin fun s' hs' => hapart s' (.inr hs'))

end Buddy

end Artorias
