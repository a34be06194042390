import Mathlib.Tactic.Ring
import Artorias.MemBuddy

/-!
# The buddy array as a tree

`b.StandsFor t` says that the array of `b` stands for the tree of buddies `t`.
`buddy_alloc` then takes a block of `t` (`buddyAlloc_take`) and `buddy_free`
gives one back (`buddyFree_give`): on its way up it compares the halves of a
node with the size of the node itself, which they never have, and so never
merges them (`freeTop_eq`).
-/

namespace Artorias

/-! ## The array -/

/-- The entries from node `i` down are those of `t`. -/
def EntriesAt (f : Nat → Nat) : {h : Nat} → Nat → Buddy h → Prop
  | 0, i, t => f i = t.most
  | _ + 1, i, t =>
      f i = t.most ∧ EntriesAt f (leftChild i) t.left ∧ EntriesAt f (rightChild i) t.right

def MemBuddy.StandsFor (b : MemBuddy) {h : Nat} (t : Buddy h) : Prop :=
  b.logn = h ∧ EntriesAt b.longest 0 t

/-- Node `i` has the `2 ^ h` units from `base` on. -/
structure NodeAt (logn h i base : Nat) : Prop where
  index : (i + 1) * 2 ^ h = 2 ^ logn + base
  fits : base + 2 ^ h ≤ 2 ^ logn

/-- `j` is in the subtree of height `h` at `i`. -/
def Below (h i j : Nat) : Prop := ∃ d ≤ h, (j + 1) / 2 ^ d = i + 1

theorem EntriesAt.entry {f : Nat → Nat} {h i : Nat} {t : Buddy h} (ht : EntriesAt f i t) :
    f i = t.most := by
  cases h with
  | zero => exact ht
  | succ h => exact ht.1

theorem NodeAt.left {logn h i base : Nat} (hi : NodeAt logn (h + 1) i base) :
    NodeAt logn h (leftChild i) base := by
  obtain ⟨hidx, hfits⟩ := hi
  rw [Nat.pow_succ] at hidx hfits
  refine ⟨?_, by omega⟩
  rw [← hidx, leftChild]
  ring

theorem NodeAt.right {logn h i base : Nat} (hi : NodeAt logn (h + 1) i base) :
    NodeAt logn h (rightChild i) (base + 2 ^ h) := by
  obtain ⟨hidx, hfits⟩ := hi
  rw [Nat.pow_succ] at hidx hfits
  refine ⟨?_, by omega⟩
  rw [← Nat.add_assoc, ← hidx, rightChild]
  ring

theorem NodeAt.lt {logn h i base : Nat} (hi : NodeAt logn h i base) : i < 2 * 2 ^ logn - 1 := by
  obtain ⟨hidx, hfits⟩ := hi
  have hpos := Nat.two_pow_pos h
  have hle : i + 1 ≤ (i + 1) * 2 ^ h := Nat.le_mul_of_pos_right _ hpos
  omega

theorem nodeAt_root (logn : Nat) : NodeAt logn logn 0 0 := ⟨by omega, by omega⟩

theorem parent_leftChild (i : Nat) : parent (leftChild i) = i := by
  unfold parent leftChild
  omega

theorem parent_rightChild (i : Nat) : parent (rightChild i) = i := by
  unfold parent rightChild
  omega

/-! ## Subtrees -/

theorem below_self (h i : Nat) : Below h i i := ⟨0, Nat.zero_le _, Nat.div_one _⟩

theorem div_pow_succ {j d c : Nat} (h : (j + 1) / 2 ^ d = c) :
    (j + 1) / 2 ^ (d + 1) = c / 2 := by
  rw [Nat.pow_succ, ← Nat.div_div_eq_div_mul, h]

theorem Below.left {h i j : Nat} (hj : Below h (leftChild i) j) : Below (h + 1) i j := by
  obtain ⟨d, hd, hdiv⟩ := hj
  refine ⟨d + 1, by omega, ?_⟩
  rw [div_pow_succ hdiv, leftChild]
  omega

theorem Below.right {h i j : Nat} (hj : Below h (rightChild i) j) : Below (h + 1) i j := by
  obtain ⟨d, hd, hdiv⟩ := hj
  refine ⟨d + 1, by omega, ?_⟩
  rw [div_pow_succ hdiv, rightChild]
  omega

theorem div_pow_lt {j d c k : Nat} (h : (j + 1) / 2 ^ d = c) (hk : 0 < k) (hc : 0 < c) :
    (j + 1) / 2 ^ (d + k) < c := by
  rw [Nat.pow_add, ← Nat.div_div_eq_div_mul, h]
  exact Nat.div_lt_self hc (Nat.one_lt_two_pow (by omega))

theorem not_below_both {h i j : Nat} (hl : Below h (leftChild i) j) :
    ¬Below h (rightChild i) j := by
  obtain ⟨d, -, hd⟩ := hl
  rintro ⟨e, -, he⟩
  unfold leftChild at hd
  unfold rightChild at he
  rcases Nat.lt_trichotomy d e with hlt | heq | hlt
  · have := div_pow_lt hd (Nat.sub_pos_of_lt hlt) (by omega)
    rw [Nat.add_sub_cancel' hlt.le] at this
    omega
  · rw [heq] at hd
    omega
  · have h1 : (j + 1) / 2 ^ d ≤ (i * 2 + 2 + 1) / 2 := by
      obtain ⟨k, rfl⟩ : ∃ k, d = e + 1 + k := ⟨d - e - 1, by omega⟩
      rw [Nat.pow_add, ← Nat.div_div_eq_div_mul, div_pow_succ he]
      exact Nat.div_le_self _ _
    omega

theorem not_below_child {h i : Nat} : ¬Below h (leftChild i) i ∧ ¬Below h (rightChild i) i := by
  have hle (d : Nat) : (i + 1) / 2 ^ d ≤ i + 1 := Nat.div_le_self _ _
  constructor
  · rintro ⟨d, -, hd⟩
    have := hle d
    unfold leftChild at hd
    omega
  · rintro ⟨d, -, hd⟩
    have := hle d
    unfold rightChild at hd
    omega

theorem update_below {f : Nat → Nat} {h c i x v : Nat} (hi : ¬Below h c i) (hx : Below h c x) :
    Function.update f i v x = f x :=
  Function.update_of_ne (fun he : x = i => hi (he ▸ hx)) _ _

theorem update_not_below {f : Nat → Nat} {h i x v : Nat} (hx : ¬Below h i x) :
    Function.update f i v x = f x :=
  Function.update_of_ne (fun he : x = i => hx (he ▸ below_self _ _)) _ _

theorem EntriesAt.congr {f g : Nat → Nat} {h i : Nat} {t : Buddy h} (ht : EntriesAt f i t)
    (hfg : ∀ j, Below h i j → g j = f j) : EntriesAt g i t := by
  induction h generalizing i with
  | zero => exact (hfg i (below_self _ _)).trans ht
  | succ h ih =>
      obtain ⟨hi, hl, hr⟩ := ht
      exact ⟨(hfg i (below_self _ _)).trans hi, ih hl fun j hj => hfg j hj.left,
        ih hr fun j hj => hfg j hj.right⟩

/-! ## Going up -/

theorem read_ok {logn : Nat} {f : Nat → Nat} {i : Nat} (hi : i < 2 * 2 ^ logn - 1) :
    MemBuddy.read ⟨logn, f⟩ i = .ok (f i) := by
  rw [MemBuddy.read, size_eq, if_pos hi]

theorem write_ok {logn : Nat} {f : Nat → Nat} {i : Nat} (hi : i < 2 * 2 ^ logn - 1) (v : Nat) :
    MemBuddy.write ⟨logn, f⟩ i v = .ok ⟨logn, Function.update f i v⟩ := by
  rw [MemBuddy.write, size_eq, if_pos hi]

theorem parent_lt (i : Nat) : parent (i + 1) < i + 1 := by
  unfold parent
  omega

theorem climbLoop_fuel (top : Nat → Nat → Nat → Nat) {k k' i : Nat} (hk : i ≤ k) (hk' : i ≤ k')
    (b : MemBuddy) (n : Nat) : climbLoop top k b i n = climbLoop top k' b i n := by
  induction i using Nat.strongRecOn generalizing k k' b n with
  | ind i ih =>
      cases i with
      | zero => cases k <;> cases k' <;> rfl
      | succ i =>
          obtain ⟨k, rfl⟩ : ∃ m, k = m + 1 := ⟨k - 1, by omega⟩
          obtain ⟨k', rfl⟩ : ∃ m, k' = m + 1 := ⟨k' - 1, by omega⟩
          have hlt := parent_lt i
          simp only [climbLoop]
          refine bind_congr fun l => bind_congr fun r => bind_congr fun b' => ?_
          exact ih _ hlt (by omega) (by omega) b' _

/-- The loop that follows an allocation or a free, from the node `i` up to the root. -/
def climb (top : Nat → Nat → Nat → Nat) (b : MemBuddy) (i n : Nat) : Except BuddyFault MemBuddy :=
  climbLoop top i b i n

@[simp] theorem climb_zero (top : Nat → Nat → Nat → Nat) (b : MemBuddy) (n : Nat) :
    climb top b 0 n = .ok b := rfl

/-- One turn of the way up, from a child `c` of `i`: the entry of `i` becomes what `top`
makes of its two children, and the way goes on from `i`. -/
theorem climb_child (top : Nat → Nat → Nat → Nat) {logn : Nat} {f : Nat → Nat} {h i base : Nat}
    (hi : NodeAt logn (h + 1) i base) {c n : Nat} (hc : c ≠ 0) (hp : parent c = i) :
    climb top ⟨logn, f⟩ c n = climb top ⟨logn, Function.update f i
      (top (n + 1) (f (leftChild i)) (f (rightChild i)))⟩ i (n + 1) := by
  obtain ⟨c, rfl⟩ := Nat.exists_eq_succ_of_ne_zero hc
  have hle := parent_lt c
  rw [hp] at hle
  rw [climb, climbLoop, hp, read_ok hi.left.lt, read_ok hi.right.lt]
  change (MemBuddy.write _ _ _ >>= _) = _
  rw [write_ok hi.lt]
  exact climbLoop_fuel top (by omega) (Nat.le_refl _) _ _

/-- On the way up from `j`, with `n` in `node_logn` there, the subtree at `i`
comes to stand for `t`, and nothing else of `f₀` has changed by then. -/
def ClimbsTo (top : Nat → Nat → Nat → Nat) (logn : Nat) (f₀ f : Nat → Nat) (j n : Nat) {h : Nat}
    (i : Nat) (t : Buddy h) : Prop :=
  ∃ f', climb top ⟨logn, f⟩ j n = climb top ⟨logn, f'⟩ i (h + 1)
    ∧ EntriesAt f' i t ∧ ∀ x, ¬Below h i x → f' x = f₀ x

/-- Above a node of height `h` the two tests are the same maximum. -/
def IsMax (top : Nat → Nat → Nat → Nat) : Prop :=
  ∀ m l r, l ≤ m → r ≤ m → top (m + 1) l r = max l r

theorem isMax_allocTop : IsMax allocTop := fun _ _ _ _ _ => rfl

/-- The test of `buddy_free` for two free halves compares them with the size of the node
itself, which an entry below the node never has. So above any node it takes the larger of
the two, as `buddy_alloc` does. -/
theorem freeTop_eq : IsMax freeTop := by
  intro m l r hl _
  rw [freeTop, if_neg]
  omega

theorem ClimbsTo.start (top : Nat → Nat → Nat → Nat) (logn : Nat) {f₀ : Nat → Nat} {h i v : Nat}
    {t : Buddy h} (ht : EntriesAt (Function.update f₀ i v) i t) :
    ClimbsTo top logn f₀ (Function.update f₀ i v) i (h + 1) i t :=
  ⟨_, rfl, ht, fun _ hx => update_not_below hx⟩

theorem ClimbsTo.left {top : Nat → Nat → Nat → Nat} (htop : IsMax top) {logn : Nat}
    {f₀ f : Nat → Nat} {j n h i base : Nat} {l r : Buddy h} (hi : NodeAt logn (h + 1) i base)
    (hs : ClimbsTo top logn f₀ f j n (leftChild i) l) (hr : EntriesAt f₀ (rightChild i) r) :
    ClimbsTo top logn f₀ f j n i (.split l r) := by
  obtain ⟨f', hrun, hl, hkeep⟩ := hs
  obtain ⟨hnl, hnr⟩ := @not_below_child h i
  have hr' : EntriesAt f' (rightChild i) r :=
    hr.congr fun x hx => hkeep x fun hx' => not_below_both hx' hx
  refine ⟨Function.update f' i (max l.most r.most), ?_, ⟨?_, ?_, ?_⟩, ?_⟩
  · rw [hrun, climb_child top hi (by simp [leftChild]) (parent_leftChild i), hl.entry, hr'.entry,
      htop _ _ _ l.most_le r.most_le]
  · exact Function.update_self ..
  · exact hl.congr fun x hx => update_below hnl hx
  · exact hr'.congr fun x hx => update_below hnr hx
  · intro x hx
    rw [update_not_below hx]
    exact hkeep x fun hx' => hx hx'.left

theorem ClimbsTo.right {top : Nat → Nat → Nat → Nat} (htop : IsMax top) {logn : Nat}
    {f₀ f : Nat → Nat} {j n h i base : Nat} {l r : Buddy h} (hi : NodeAt logn (h + 1) i base)
    (hs : ClimbsTo top logn f₀ f j n (rightChild i) r) (hl : EntriesAt f₀ (leftChild i) l) :
    ClimbsTo top logn f₀ f j n i (.split l r) := by
  obtain ⟨f', hrun, hr, hkeep⟩ := hs
  obtain ⟨hnl, hnr⟩ := @not_below_child h i
  have hl' : EntriesAt f' (leftChild i) l :=
    hl.congr fun x hx => hkeep x fun hx' => not_below_both hx hx'
  refine ⟨Function.update f' i (max l.most r.most), ?_, ⟨?_, ?_, ?_⟩, ?_⟩
  · rw [hrun, climb_child top hi (by simp [rightChild]) (parent_rightChild i), hr.entry, hl'.entry,
      htop _ _ _ l.most_le r.most_le]
  · exact Function.update_self ..
  · exact hl'.congr fun x hx => update_below hnl hx
  · exact hr.congr fun x hx => update_below hnr hx
  · intro x hx
    rw [update_not_below hx]
    exact hkeep x fun hx' => hx hx'.right

/-- Read at the root, `ClimbsTo` speaks of the whole way up: it ends without a fault, in an
array that stands for the tree with the change in it. -/
theorem ClimbsTo.climb_eq {top : Nat → Nat → Nat → Nat} {logn : Nat} {f₀ f : Nat → Nat} {j n : Nat}
    {t : Buddy logn} (hs : ClimbsTo top logn f₀ f j n 0 t) :
    ∃ b', climb top ⟨logn, f⟩ j n = .ok b' ∧ b'.StandsFor t := by
  obtain ⟨f', hrun, ht, -⟩ := hs
  exact ⟨⟨logn, f'⟩, hrun, rfl, ht⟩

/-! ## A new array -/

theorem isPowerOf2_iff {x : Nat} (hx : x ≠ 0) : isPowerOf2 x = true ↔ 2 ^ Nat.log2 x = x := by
  rw [isPowerOf2, beq_iff_eq, Nat.and_sub_one_eq_zero_iff_isPowerOfTwo hx]
  constructor
  · rintro ⟨k, rfl⟩
    rw [Nat.log2_two_pow]
  · exact fun h => ⟨_, h.symm⟩

/-- The loop of `buddy_new` lowers `node_logn` at the powers of two, which is where the
logarithm of the index goes up. -/
theorem log2_succ {i : Nat} (hi : i ≠ 0) :
    Nat.log2 (i + 1) = if isPowerOf2 (i + 1) then Nat.log2 i + 1 else Nat.log2 i := by
  have hlo : 2 ^ Nat.log2 i ≤ i := Nat.log2_self_le hi
  have hup : i < 2 ^ (Nat.log2 i + 1) := Nat.lt_log2_self
  by_cases hlt : i + 1 < 2 ^ (Nat.log2 i + 1)
  · have hlog : Nat.log2 (i + 1) = Nat.log2 i :=
      (Nat.log2_eq_iff (by omega)).mpr ⟨by omega, hlt⟩
    rw [if_neg, hlog]
    rw [isPowerOf2_iff (by omega), hlog]
    omega
  · have heq : i + 1 = 2 ^ (Nat.log2 i + 1) := by omega
    have hlog : Nat.log2 (i + 1) = Nat.log2 i + 1 := by rw [heq, Nat.log2_two_pow]
    rw [if_pos, hlog]
    rw [isPowerOf2_iff (by omega), hlog, heq]

/-- `node_logn` before the turn for `i`. -/
def nodeLognAt (logn i : Nat) : Nat := if i = 0 then logn + 1 else logn - Nat.log2 i

theorem nodeLognAt_succ {logn i : Nat} (hi : Nat.log2 i ≤ logn) :
    (if isPowerOf2 (i + 1) then nodeLognAt logn i - 1 else nodeLognAt logn i)
      = logn - Nat.log2 (i + 1) := by
  rw [nodeLognAt]
  by_cases h0 : i = 0
  · subst h0
    rw [if_pos rfl, if_pos (by decide), show Nat.log2 (0 + 1) = 0 by decide]
    rfl
  · rw [if_neg h0, log2_succ h0]
    split <;> omega

theorem buddyNewLoop_spec {n i logn : Nat} (f : Nat → Nat) (hn : i + n < 2 ^ (logn + 1)) (j : Nat) :
    buddyNewLoop n i (nodeLognAt logn i) f j
      = if i ≤ j ∧ j < i + n then logn - Nat.log2 (j + 1) + 1 else f j := by
  induction n generalizing i f with
  | zero =>
      rw [if_neg (by omega)]
      rfl
  | succ n ih =>
      have hlog : Nat.log2 i ≤ logn := by
        by_cases h0 : i = 0
        · subst h0
          exact Nat.zero_le _
        · exact Nat.lt_succ_iff.mp ((Nat.log2_lt h0).mpr (by omega))
      have hnext : nodeLognAt logn (i + 1) = logn - Nat.log2 (i + 1) := if_neg (by omega)
      rw [buddyNewLoop, nodeLognAt_succ hlog, ← hnext, ih _ (by omega), hnext]
      by_cases hj : j = i
      · subst hj
        rw [if_neg (by omega), if_pos (by omega), Function.update_self]
      · rw [Function.update_of_ne hj]
        exact if_congr (by omega) rfl rfl

/-- At a node of height `h`, what `buddy_new` writes is the entry of a free node of that
height. -/
theorem NodeAt.log2 {logn h i base : Nat} (hi : NodeAt logn h i base) :
    logn - Nat.log2 (i + 1) = h := by
  obtain ⟨hidx, hfits⟩ := hi
  have hpos := Nat.two_pow_pos h
  have hle : h ≤ logn := by
    by_contra hlt
    have := Nat.pow_lt_pow_right (a := 2) (by omega) (Nat.lt_of_not_le hlt)
    omega
  have hlog : Nat.log2 (i + 1) = logn - h := by
    rw [Nat.log2_eq_iff (by omega)]
    have h1 : 2 ^ (logn - h) * 2 ^ h = 2 ^ logn := by rw [← Nat.pow_add, Nat.sub_add_cancel hle]
    have h2 : 2 ^ (logn - h + 1) * 2 ^ h = 2 * 2 ^ logn := by rw [Nat.pow_succ, ← h1]; ring
    constructor
    · exact Nat.le_of_mul_le_mul_right (by omega) hpos
    · exact Nat.lt_of_mul_lt_mul_right (a := 2 ^ h) (by omega)
  omega

theorem entriesAt_whole {f : Nat → Nat} {logn h i base : Nat} (hi : NodeAt logn h i base)
    (hf : ∀ j < 2 * 2 ^ logn - 1, f j = logn - Nat.log2 (j + 1) + 1) :
    EntriesAt f i (.whole : Buddy h) := by
  induction h generalizing i base with
  | zero => exact (hf i hi.lt).trans (by rw [hi.log2, Buddy.most_whole])
  | succ h ih =>
      exact ⟨(hf i hi.lt).trans (by rw [hi.log2, Buddy.most_whole]), ih hi.left, ih hi.right⟩

theorem buddyNew_spec (mem : Nat → Nat) (logn : Nat) :
    ∃ b, buddyNew (some mem) logn = some b ∧ b.StandsFor (.whole : Buddy logn) := by
  refine ⟨_, rfl, rfl, entriesAt_whole (nodeAt_root logn) ?_⟩
  intro j hj
  have hpow : 2 ^ (logn + 1) = 2 * 2 ^ logn := by rw [Nat.pow_succ, Nat.mul_comm]
  have hpos := Nat.two_pow_pos logn
  have hrun := @buddyNewLoop_spec (2 * 2 ^ logn - 1) 0 logn mem (by omega) j
  rw [if_pos (by omega)] at hrun
  simpa only [size_eq, nodeLognAt, if_pos] using hrun

/-! ## `buddy_alloc` -/

/-- Marking a free node as taken writes its entry only: what is below keeps the entries it
had while the node was free. -/
theorem EntriesAt.take {f : Nat → Nat} {h i : Nat} (ht : EntriesAt f i (.whole : Buddy h)) :
    EntriesAt (Function.update f i 0) i (.taken : Buddy h) := by
  obtain ⟨hnl, hnr⟩ := @not_below_child (h - 1) i
  cases h with
  | zero => exact Function.update_self ..
  | succ h =>
      refine ⟨Function.update_self .., ?_, ?_⟩
      · exact ht.2.1.congr fun x hx => update_below hnl hx
      · exact ht.2.2.congr fun x hx => update_below hnr hx

/-- The descent of `buddy_alloc` finds the node that `Buddy.take` takes, since each of its
comparisons asks whether the left half has a block of the size. The way up from there writes
the entries of the tree that is left. -/
theorem descend_take {logn : Nat} {f : Nat → Nat} {h i base k fuel : Nat} {t : Buddy h}
    (hi : NodeAt logn h i base) (ht : EntriesAt f i t) (hk : k < t.most) (hfuel : h < fuel) :
    ∃ j t' o, descendLoop ⟨logn, f⟩ (2 ^ k) fuel (2 ^ h) i = .ok (2 ^ k, j)
      ∧ t.take k base = some (t', o) ∧ NodeAt logn k j o
      ∧ ClimbsTo allocTop logn f (Function.update f j 0) j (k + 1) i t' := by
  obtain ⟨fuel, rfl⟩ : ∃ m, fuel = m + 1 := ⟨fuel - 1, by omega⟩
  induction h generalizing i base fuel with
  | zero =>
      obtain rfl : k = 0 := by
        have := t.most_le
        omega
      have hw := Buddy.eq_whole_of_most hk
      subst hw
      exact ⟨i, .taken, base, if_pos rfl, Buddy.take_whole hk, hi, .start _ _ ht.take⟩
  | succ h ih =>
      by_cases hkh : k = h + 1
      · subst hkh
        have hw := Buddy.eq_whole_of_most hk
        subst hw
        exact ⟨i, .taken, base, if_pos rfl, Buddy.take_whole hk, hi, .start _ _ ht.take⟩
      · have hlt : k < h + 1 := by
          have := t.most_le
          omega
        have hsize : 2 ^ (h + 1) ≠ 2 ^ k :=
          fun he => hkh (Nat.pow_right_injective (le_refl 2) he).symm
        have hhalf : 2 ^ (h + 1) / 2 = 2 ^ h := by
          rw [Nat.pow_succ, Nat.mul_div_cancel _ (by omega)]
        obtain ⟨fuel, rfl⟩ : ∃ m, fuel = m + 1 := ⟨fuel - 1, by omega⟩
        obtain ⟨hil, hir⟩ := ht.2
        rw [descendLoop, if_neg hsize, read_ok hi.left.lt, hhalf, hil.entry]
        by_cases hl : k < t.left.most
        · obtain ⟨j, l', o, hrun, htake, hj, hs⟩ := ih hi.left hil hl fuel (by omega)
          refine ⟨j, .split l' t.right, o, ?_, ?_, hj, hs.left isMax_allocTop hi hir⟩
          · exact (if_pos ((le_nodeSize_iff k _).mpr hl)).trans hrun
          · rw [Buddy.take_left hkh hk hl, htake, Option.map_some]
        · have hr := (Buddy.lt_most_halves hlt hk).resolve_left hl
          obtain ⟨j, r', o, hrun, htake, hj, hs⟩ := ih hi.right hir hr fuel (by omega)
          refine ⟨j, .split t.left r', o, ?_, ?_, hj, hs.right isMax_allocTop hi hil⟩
          · exact (if_neg (mt (le_nodeSize_iff k _).mp hl)).trans hrun
          · rw [Buddy.take_right hkh hk hl, htake, Option.map_some]

theorem climbLoop_allocTop (k i : Nat) (b : MemBuddy) (n n' : Nat) :
    climbLoop allocTop k b i n = climbLoop allocTop k b i n' := by
  induction k generalizing b i n n' with
  | zero => cases i <;> rfl
  | succ k ih =>
      cases i with
      | zero => rfl
      | succ i =>
          simp only [climbLoop]
          exact bind_congr fun l => bind_congr fun r => bind_congr fun b' => ih _ _ _ _

/-- `buddy_alloc` on a size from 1 to `2 ^ 31` takes the first block of the rounded size
and answers its offset, or answers -1 and changes nothing if the largest free node is
too small. -/
theorem buddyAlloc_take {b : MemBuddy} {h : Nat} {t : Buddy h} (hb : b.StandsFor t)
    {size : BitVec 32} (h1 : 1 ≤ size.toNat) (h2 : size.toNat ≤ 2 ^ 31) :
    (t.most ≤ Nat.clog 2 size.toNat ∧ buddyAlloc (some b) size = .ok (some b, -1))
      ∨ ∃ b' t' o, t.take (Nat.clog 2 size.toNat) 0 = some (t', o) ∧ b'.StandsFor t'
        ∧ buddyAlloc (some b) size = .ok (some b', (o : Int)) := by
  obtain ⟨logn, f⟩ := b
  obtain ⟨rfl, ht⟩ := hb
  dsimp only at t ht
  have hroot : f 0 = t.most := ht.entry
  simp only [buddyAlloc, read_ok (nodeAt_root logn).lt, roundedSize h1 h2, size_eq]
  by_cases hk : Nat.clog 2 size.toNat < t.most
  · refine .inr ?_
    obtain ⟨j, t', o, hrun, htake, hj, hs⟩ :=
      descend_take (nodeAt_root logn) ht hk
        (Nat.lt_add_of_pos_right (n := logn) (k := 2) (by omega))
    obtain ⟨b', hclimb, hb'⟩ := hs.climb_eq
    refine ⟨b', t', o, htake, hb', ?_⟩
    have hge : ¬nodeSize (f 0) < 2 ^ Nat.clog 2 size.toNat := by
      rw [hroot, Nat.not_lt, le_nodeSize_iff]
      exact hk
    rw [exceptBind_ok, if_neg hge, hrun, exceptBind_ok]
    dsimp only
    rw [write_ok hj.lt, exceptBind_ok,
      climbLoop_allocTop j j _ 0 (Nat.clog 2 size.toNat + 1)]
    change (climb _ _ _ _ >>= _) = _
    rw [hclimb, exceptBind_ok]
    have hoff : ((j : Int) + 1) * (2 ^ Nat.clog 2 size.toNat : Nat) - (2 ^ logn : Nat) = o := by
      have hidx : ((j : Int) + 1) * (2 ^ Nat.clog 2 size.toNat : Nat) = (2 ^ logn : Nat) + o := by
        exact_mod_cast hj.index
      omega
    rw [← hoff]
  · refine .inl ⟨by omega, ?_⟩
    rw [exceptBind_ok, if_pos]
    rw [hroot]
    exact Nat.lt_of_not_le fun hle => hk ((le_nodeSize_iff _ _).mp hle)

/-- With size 0 every left child is large enough, at the leaves as well: the descent goes
left until it reads past the array. -/
theorem descend_zero {logn : Nat} {f : Nat → Nat} {h i fuel : Nat} (hi : NodeAt logn h i 0)
    (hfuel : h < fuel) :
    descendLoop ⟨logn, f⟩ 0 fuel (2 ^ h) i = .error (.outside (2 * 2 ^ logn - 1)) := by
  obtain ⟨fuel, rfl⟩ : ∃ m, fuel = m + 1 := ⟨fuel - 1, by omega⟩
  have hne : 2 ^ h ≠ 0 := (Nat.two_pow_pos h).ne'
  induction h generalizing i fuel with
  | zero =>
      have hleaf : leftChild i = 2 * 2 ^ logn - 1 := by
        have hidx := hi.index
        unfold leftChild
        omega
      rw [descendLoop, if_neg hne, hleaf, MemBuddy.read, size_eq, if_neg (Nat.lt_irrefl _)]
      rfl
  | succ h ih =>
      obtain ⟨fuel, rfl⟩ : ∃ m, fuel = m + 1 := ⟨fuel - 1, by omega⟩
      rw [descendLoop, if_neg hne, read_ok hi.left.lt, exceptBind_ok, if_pos (Nat.zero_le _),
        Nat.pow_succ, Nat.mul_div_cancel _ (by omega)]
      exact ih hi.left fuel (by omega) (Nat.two_pow_pos h).ne'

theorem roundedSize_zero {size : BitVec 32} (h : 2 ^ 31 < size.toNat) :
    (if isPowerOf2 size.toNat then size else fixSize size).toNat = 0 := by
  have hne : size.toNat ≠ 0 := by omega
  have hlog : Nat.log2 size.toNat = 31 :=
    (Nat.log2_eq_iff hne).mpr ⟨h.le, size.isLt⟩
  rw [if_neg, fixSize_toNat size fun h0 => hne (by rw [h0]; rfl), hlog, Nat.mod_self]
  rw [isPowerOf2_iff hne, hlog]
  exact h.ne

/-- The sizes that round to no power of two, 0 and those beyond `2 ^ 31`, go on as size 0,
so the call reads past the array whatever the state of the tree. -/
theorem buddyAlloc_wrapped {b : MemBuddy} {h : Nat} {t : Buddy h} (hb : b.StandsFor t)
    {size : BitVec 32} (hsize : size = 0 ∨ 2 ^ 31 < size.toNat) :
    buddyAlloc (some b) size = .error (.outside (2 * 2 ^ h - 1)) := by
  obtain ⟨logn, f⟩ := b
  obtain ⟨rfl, ht⟩ := hb
  have hzero : (if isPowerOf2 size.toNat then size else fixSize size).toNat = 0 := by
    rcases hsize with rfl | hsize
    · rfl
    · exact roundedSize_zero hsize
  simp only [buddyAlloc, read_ok (nodeAt_root logn).lt, hzero, size_eq]
  rw [exceptBind_ok, if_neg (Nat.not_lt_zero _),
    descend_zero (nodeAt_root logn) (Nat.lt_add_of_pos_right (n := logn) (k := 2) (by omega)),
    exceptBind_error]

/-! ## `buddy_free` -/

theorem searchLoop_fuel {k k' i : Nat} (hk : i < k) (hk' : i < k') (b : MemBuddy) (n : Nat) :
    searchLoop b k n i = searchLoop b k' n i := by
  induction i using Nat.strongRecOn generalizing k k' n with
  | ind i ih =>
      obtain ⟨k, rfl⟩ : ∃ m, k = m + 1 := ⟨k - 1, by omega⟩
      obtain ⟨k', rfl⟩ : ∃ m, k' = m + 1 := ⟨k' - 1, by omega⟩
      simp only [searchLoop]
      refine bind_congr fun v => ?_
      by_cases hi : i = 0
      · simp only [hi, if_true]
      · obtain ⟨i, rfl⟩ := Nat.exists_eq_succ_of_ne_zero hi
        have hlt := parent_lt i
        rw [ih _ hlt (show parent (i + 1) < k by omega) (show parent (i + 1) < k' by omega)]

/-- The loop with which `buddy_free` looks for the allocated node: from `i` up to the first
entry that is 0. -/
def search (b : MemBuddy) (n i : Nat) : Except BuddyFault (Option (Nat × Nat)) :=
  searchLoop b (i + 1) n i

theorem search_zero {logn : Nat} {f : Nat → Nat} {i : Nat} (hi : i < 2 * 2 ^ logn - 1)
    (h0 : f i = 0) (n : Nat) : search ⟨logn, f⟩ n i = .ok (some (n, i)) := by
  rw [search, searchLoop, read_ok hi]
  exact if_pos h0

theorem search_root {logn : Nat} {f : Nat → Nat} (h0 : f 0 ≠ 0) (n : Nat) :
    search ⟨logn, f⟩ n 0 = .ok none := by
  rw [search, searchLoop, read_ok (nodeAt_root logn).lt]
  exact (if_neg h0).trans (if_pos rfl)

theorem search_child {logn : Nat} {f : Nat → Nat} {c : Nat} (hc : c < 2 * 2 ^ logn - 1)
    (h0 : f c ≠ 0) (hne : c ≠ 0) (n : Nat) :
    search ⟨logn, f⟩ n c = search ⟨logn, f⟩ (n + 1) (parent c) := by
  obtain ⟨c, rfl⟩ := Nat.exists_eq_succ_of_ne_zero hne
  have hlt := parent_lt c
  rw [search, searchLoop, read_ok hc]
  refine ((if_neg h0).trans (if_neg hne)).trans ?_
  exact searchLoop_fuel (by omega) (by omega) _ _

/-- A free unit below a node leaves its entry positive, which is how the search in
`buddy_free` tells that it has not yet come to an allocated block. -/
theorem most_pos_of_give {h : Nat} {t : Buddy h} {x base : Nat} (hg : t.give x base = none) :
    0 < t.most := by
  induction t generalizing base with
  | whole => exact Nat.succ_pos _
  | taken => cases hg
  | split l r ihl ihr =>
      rw [Buddy.most_split, lt_max_iff]
      rw [Buddy.give] at hg
      split at hg
      · exact .inl (ihl (Option.map_eq_none_iff.mp hg))
      · exact .inr (ihr (Option.map_eq_none_iff.mp hg))

/-- The half of a node that has the unit `x`. -/
structure HalfAt (logn h i base x : Nat) (t : Buddy (h + 1)) (c cbase : Nat) (u : Buddy h) :
    Prop where
  node : NodeAt logn h c cbase
  up : parent c = i ∧ c ≠ 0
  has : cbase ≤ x ∧ x < cbase + 2 ^ h
  entries : ∀ f : Nat → Nat, EntriesAt f i t → EntriesAt f c u

theorem halfAt_left {logn h i base x : Nat} {t : Buddy (h + 1)} (hi : NodeAt logn (h + 1) i base)
    (hx : base ≤ x) (hlt : x < base + 2 ^ h) :
    HalfAt logn h i base x t (leftChild i) base t.left :=
  ⟨hi.left, ⟨parent_leftChild i, by simp [leftChild]⟩, ⟨hx, hlt⟩, fun _ ht => ht.2.1⟩

theorem halfAt_right {logn h i base x : Nat} {t : Buddy (h + 1)} (hi : NodeAt logn (h + 1) i base)
    (hx : x < base + 2 ^ (h + 1)) (hge : base + 2 ^ h ≤ x) :
    HalfAt logn h i base x t (rightChild i) (base + 2 ^ h) t.right := by
  rw [Nat.pow_succ] at hx
  exact ⟨hi.right, ⟨parent_rightChild i, by simp [rightChild]⟩, ⟨hge, by omega⟩,
    fun _ ht => ht.2.2⟩

/-- The search from the leaf of `x` gets as far as `i`. -/
def Arrives (logn : Nat) (f : Nat → Nat) (h i x : Nat) : Prop :=
  search ⟨logn, f⟩ 1 (x + 2 ^ logn - 1) = search ⟨logn, f⟩ (h + 1) i

theorem Arrives.half {logn : Nat} {f : Nat → Nat} {h i base x c cbase : Nat} {t : Buddy (h + 1)}
    {u : Buddy h} (hc : HalfAt logn h i base x t c cbase u) (ht : EntriesAt f i t)
    (hu : 0 < u.most) (harr : Arrives logn f h c x) : Arrives logn f (h + 1) i x := by
  have hentry : f c ≠ 0 := by
    rw [(hc.entries f ht).entry]
    omega
  unfold Arrives at harr ⊢
  rw [harr, search_child hc.node.lt hentry hc.up.2, hc.up.1]

theorem arrives_leaf {logn : Nat} (f : Nat → Nat) {i base x : Nat} (hi : NodeAt logn 0 i base)
    (hx : base ≤ x ∧ x < base + 2 ^ 0) : Arrives logn f 0 i x := by
  have hidx := hi.index
  have hleaf : x + 2 ^ logn - 1 = i := by omega
  rw [Arrives, hleaf]

/-- Over free units every entry on the way is positive, so the search goes on, as far as the
node it is asked about. -/
theorem arrives_free {logn : Nat} {f : Nat → Nat} {h i base x : Nat} {t : Buddy h}
    (hi : NodeAt logn h i base) (ht : EntriesAt f i t) (hx : base ≤ x ∧ x < base + 2 ^ h)
    (hg : t.give x base = none) : Arrives logn f h i x := by
  induction h generalizing i base with
  | zero => exact arrives_leaf f hi hx
  | succ h ih =>
      by_cases hlt : x < base + 2 ^ h
      · have hc := @halfAt_left logn h i base x t hi hx.1 hlt
        have hg' : t.left.give x base = none := by
          cases t with
          | whole => rfl
          | taken => cases hg
          | split l r =>
              rw [Buddy.give, if_pos hlt] at hg
              exact Option.map_eq_none_iff.mp hg
        exact (ih hc.node (hc.entries f ht) hc.has hg').half hc ht (most_pos_of_give hg')
      · have hc := @halfAt_right logn h i base x t hi hx.2 (by omega)
        have hg' : t.right.give x (base + 2 ^ h) = none := by
          cases t with
          | whole => rfl
          | taken => cases hg
          | split l r =>
              rw [Buddy.give, if_neg hlt] at hg
              exact Option.map_eq_none_iff.mp hg
        exact (ih hc.node (hc.entries f ht) hc.has hg').half hc ht (most_pos_of_give hg')

theorem arrives_taken {logn : Nat} {f : Nat → Nat} {h i base x : Nat}
    (hi : NodeAt logn h i base) (ht : EntriesAt f i (.taken : Buddy h))
    (hx : base ≤ x ∧ x < base + 2 ^ h) : Arrives logn f h i x := by
  cases h with
  | zero => exact arrives_leaf f hi hx
  | succ h =>
      by_cases hlt : x < base + 2 ^ h
      · have hc := @halfAt_left logn h i base x .taken hi hx.1 hlt
        exact (arrives_free hc.node (hc.entries f ht) hc.has rfl).half hc ht (Nat.succ_pos _)
      · have hc := @halfAt_right logn h i base x .taken hi hx.2 (by omega)
        exact (arrives_free hc.node (hc.entries f ht) hc.has rfl).half hc ht (Nat.succ_pos _)

/-- Giving back a taken node writes its entry only: what is below kept the entries of free
nodes. -/
theorem EntriesAt.give {f : Nat → Nat} {h i : Nat} (ht : EntriesAt f i (.taken : Buddy h)) :
    EntriesAt (Function.update f i (h + 1)) i (.whole : Buddy h) := by
  obtain ⟨hnl, hnr⟩ := @not_below_child (h - 1) i
  cases h with
  | zero => exact Function.update_self ..
  | succ h =>
      refine ⟨Function.update_self .., ?_, ?_⟩
      · exact ht.2.1.congr fun x hx => update_below hnl hx
      · exact ht.2.2.congr fun x hx => update_below hnr hx

/-- Over a taken block the search ends at the node of that block, the first entry 0 on the
way, and the way up from there writes the entries of what `Buddy.give` gives. -/
theorem search_give {logn : Nat} {f : Nat → Nat} {h i base x : Nat} {t t' : Buddy h}
    (hi : NodeAt logn h i base) (ht : EntriesAt f i t) (hx : base ≤ x ∧ x < base + 2 ^ h)
    (hg : t.give x base = some t') :
    ∃ j n, search ⟨logn, f⟩ 1 (x + 2 ^ logn - 1) = .ok (some (n, j)) ∧ j < 2 * 2 ^ logn - 1
      ∧ ClimbsTo freeTop logn f (Function.update f j n) j n i t' := by
  induction h generalizing i base with
  | zero =>
      cases t with
      | whole => cases hg
      | taken =>
          cases hg
          refine ⟨i, 1, ?_, hi.lt, .start _ _ ht.give⟩
          exact (arrives_taken hi ht hx).trans (search_zero hi.lt ht.entry _)
  | succ h ih =>
      cases t with
      | whole => cases hg
      | taken =>
          cases hg
          refine ⟨i, h + 2, ?_, hi.lt, .start _ _ ht.give⟩
          exact (arrives_taken hi ht hx).trans (search_zero hi.lt ht.entry _)
      | split l r =>
          obtain ⟨hl, hr⟩ := ht.2
          rw [Nat.pow_succ] at hx
          by_cases hlt : x < base + 2 ^ h
          · rw [Buddy.give, if_pos hlt] at hg
            obtain ⟨l', hl', rfl⟩ := Option.map_eq_some_iff.mp hg
            obtain ⟨j, n, hrun, hj, hs⟩ := ih hi.left hl ⟨hx.1, hlt⟩ hl'
            exact ⟨j, n, hrun, hj, hs.left freeTop_eq hi hr⟩
          · rw [Buddy.give, if_neg hlt] at hg
            obtain ⟨r', hr', rfl⟩ := Option.map_eq_some_iff.mp hg
            obtain ⟨j, n, hrun, hj, hs⟩ := ih hi.right hr (by omega) hr'
            exact ⟨j, n, hrun, hj, hs.right freeTop_eq hi hl⟩

/-- Over a free unit no entry on the way is 0, and the search passes the root. -/
theorem search_free {logn : Nat} {f : Nat → Nat} {x : Nat} {t : Buddy logn}
    (ht : EntriesAt f 0 t) (hx : x < 2 ^ logn) (hg : t.give x 0 = none) :
    search ⟨logn, f⟩ 1 (x + 2 ^ logn - 1) = .ok none := by
  have harr := arrives_free (nodeAt_root logn) ht ⟨Nat.zero_le _, by omega⟩ hg
  have hpos := most_pos_of_give hg
  rw [Arrives] at harr
  rw [harr, search_root]
  rw [ht.entry]
  omega

/-- `buddy_free` gives back the allocated block that the offset lies in, and does nothing if
there is none: if the offset is behind the buddy or its unit is free. -/
theorem buddyFree_give {b : MemBuddy} {h : Nat} {t : Buddy h} (hb : b.StandsFor t)
    (offset : BitVec 32) :
    ((2 ^ h ≤ offset.toNat ∨ t.give offset.toNat 0 = none)
      ∧ buddyFree (some b) offset = .ok (some b))
      ∨ ∃ b' t', offset.toNat < 2 ^ h ∧ t.give offset.toNat 0 = some t' ∧ b'.StandsFor t'
        ∧ buddyFree (some b) offset = .ok (some b') := by
  obtain ⟨logn, f⟩ := b
  obtain ⟨rfl, ht⟩ := hb
  dsimp only at t ht
  simp only [buddyFree, size_eq]
  by_cases hout : 2 ^ logn ≤ offset.toNat
  · exact .inl ⟨.inl hout, if_pos hout⟩
  · rw [if_neg hout]
    change (_ ∧ (search _ _ _ >>= _) = _) ∨ ∃ b' t', _ ∧ _ ∧ _ ∧ (search _ _ _ >>= _) = _
    cases hg : t.give offset.toNat 0 with
    | none =>
        refine .inl ⟨.inr rfl, ?_⟩
        rw [search_free ht (by omega) hg, exceptBind_ok]
    | some t' =>
        obtain ⟨j, n, hrun, hj, hs⟩ :=
          search_give (nodeAt_root logn) ht ⟨Nat.zero_le _, by omega⟩ hg
        obtain ⟨b', hclimb, hb'⟩ := hs.climb_eq
        refine .inr ⟨b', t', by omega, rfl, hb', ?_⟩
        rw [hrun, exceptBind_ok]
        dsimp only
        rw [write_ok hj, exceptBind_ok]
        change (climb _ _ _ _ >>= _) = _
        rw [hclimb, exceptBind_ok]

end Artorias
