import Artorias.MemPool

/-!
# The size classes of the memory pool

`memp_new` sorts the sizes (`mempNew_ok`), and `memp_alloc` serves a request
from the least class that is large enough (`classIndex_spec`).
-/

namespace Artorias

/-! ## Sorting -/

/-- What `memp_new` makes of at most 255 sizes other than `SIZE_MAX`. -/
structure ClassesOk (p : MemPool) : Prop where
  pos : 0 < p.n
  sorted : ∀ i j, i ≤ j → j < p.n → p.size i ≤ p.size j
  small : ∀ i < p.n, p.size i ≠ sizeMax
  last : p.size p.n = sizeMax

/-- The places that `sortInner` may exchange. -/
def Sorts (i j k x : Nat) : Prop := x = i ∨ j ≤ x ∧ x < j + k

theorem swapSizes_apply (f : Nat → Nat) {i j : Nat} (hij : i ≠ j) (x : Nat) :
    swapSizes f i j x = if x = i then f j else if x = j then f i else f x := by
  rw [swapSizes]
  by_cases hj : x = j
  · subst hj
    rw [Function.update_self, if_neg (Ne.symm hij), if_pos rfl]
  · rw [Function.update_of_ne hj, if_neg hj]
    by_cases hi : x = i
    · subst hi
      rw [Function.update_self, if_pos rfl]
    · rw [Function.update_of_ne hi, if_neg hi]

/-- The inner loop puts the least of the sizes from `i` on in place `i`, and only exchanges
places. -/
theorem sortInner_spec {k i j : Nat} (f : Nat → Nat) (hij : i < j) :
    (∀ x, ¬Sorts i j k x → sortInner k i j f x = f x)
      ∧ (∀ x, Sorts i j k x → ∃ y, Sorts i j k y ∧ sortInner k i j f x = f y)
      ∧ (∀ x, Sorts i j k x → sortInner k i j f i ≤ sortInner k i j f x)
      ∧ sortInner k i j f i ≤ f i := by
  induction k generalizing j f with
  | zero =>
      refine ⟨fun x _ => rfl, fun x hx => ⟨x, hx, rfl⟩, ?_, Nat.le_refl _⟩
      intro x hx
      obtain rfl : x = i := by
        unfold Sorts at hx
        omega
      exact Nat.le_refl _
  | succ k ih =>
      -- after the exchange the least of the two is in place `i`
      have hstep : ∃ g, sortInner (k + 1) i j f = sortInner k i (j + 1) g ∧ g i ≤ g j ∧ g i ≤ f i
          ∧ (∀ x, ¬Sorts i j (k + 1) x → g x = f x)
          ∧ ∀ x, Sorts i j (k + 1) x → ∃ y, Sorts i j (k + 1) y ∧ g x = f y := by
        by_cases hgt : f i > f j
        · have hi : swapSizes f i j i = f j := by rw [swapSizes_apply _ hij.ne, if_pos rfl]
          have hj : swapSizes f i j j = f i := by
            rw [swapSizes_apply _ hij.ne, if_neg hij.ne', if_pos rfl]
          refine ⟨swapSizes f i j, by rw [sortInner, if_pos hgt], by rw [hi, hj]; exact hgt.le,
            by rw [hi]; exact hgt.le, fun x hx => ?_, fun x hx => ?_⟩
          · unfold Sorts at hx
            rw [swapSizes_apply _ hij.ne, if_neg (by omega), if_neg (by omega)]
          · rw [swapSizes_apply _ hij.ne]
            by_cases h1 : x = i
            · exact ⟨j, .inr ⟨Nat.le_refl _, by omega⟩, if_pos h1⟩
            · rw [if_neg h1]
              by_cases h2 : x = j
              · exact ⟨i, .inl rfl, if_pos h2⟩
              · exact ⟨x, hx, if_neg h2⟩
        · exact ⟨f, by rw [sortInner, if_neg hgt], Nat.le_of_not_lt hgt, Nat.le_refl _,
            fun x _ => rfl, fun x hx => ⟨x, hx, rfl⟩⟩
      obtain ⟨g, hrun, hle, hless, hout, hin⟩ := hstep
      obtain ⟨ihout, ihin, ihmin, ihless⟩ := ih (j := j + 1) g (by omega)
      have hj : ¬Sorts i (j + 1) k j := by
        unfold Sorts
        omega
      have hsub : ∀ x, Sorts i (j + 1) k x → Sorts i j (k + 1) x := by
        unfold Sorts
        omega
      have hsup : ∀ x, Sorts i j (k + 1) x → x = j ∨ Sorts i (j + 1) k x := by
        unfold Sorts
        omega
      rw [hrun]
      refine ⟨?_, ?_, ?_, ihless.trans hless⟩
      · intro x hx
        rw [ihout x fun h => hx (hsub x h), hout x hx]
      · intro x hx
        rcases hsup x hx with rfl | hx'
        · rw [ihout _ hj]
          exact hin _ hx
        · obtain ⟨y, hy, he⟩ := ihin x hx'
          rw [he]
          exact hin y (hsub y hy)
      · intro x hx
        rcases hsup x hx with rfl | hx'
        · rw [ihout _ hj]
          exact ihless.trans hle
        · exact ihmin x hx'

/-- One turn of the outer loop after the other: with the first `i` places sorted and not
above the rest, the loop sorts all, and what comes out are the sizes that went in. -/
theorem sortOuter_spec {n k i : Nat} (f : Nat → Nat) (hk : i + k + 1 = n)
    (hf : ∀ a < i, ∀ b, a ≤ b → b < n → f a ≤ f b) :
    (∀ a b, a ≤ b → b < n → sortOuter n k i f a ≤ sortOuter n k i f b)
      ∧ (∀ x < n, ∃ y < n, sortOuter n k i f x = f y)
      ∧ ∀ x, n ≤ x → sortOuter n k i f x = f x := by
  induction k generalizing i f with
  | zero =>
      refine ⟨?_, fun x hx => ⟨x, hx, rfl⟩, fun x _ => rfl⟩
      intro a b hab hb
      by_cases ha : a < i
      · exact hf a ha b hab hb
      · obtain rfl : a = b := by omega
        exact Nat.le_refl _
  | succ k ih =>
      obtain ⟨hout, hin, hmin, -⟩ := @sortInner_spec (n - (i + 1)) i (i + 1) f (Nat.lt_succ_self i)
      have hrest : ∀ x, Sorts i (i + 1) (n - (i + 1)) x ↔ i ≤ x ∧ x < n := by
        unfold Sorts
        omega
      simp only [hrest] at hout hin hmin
      rw [sortOuter]
      obtain ⟨hsorted, hval, hbeyond⟩ :=
        @ih (i + 1) (sortInner (n - (i + 1)) i (i + 1) f) (by omega)
        fun a ha b hab hb => by
          by_cases hai : a < i
          · rw [hout a (by omega)]
            by_cases hbi : b < i
            · rw [hout b (by omega)]
              exact hf a hai b hab hb
            · obtain ⟨y, hy, he⟩ := hin b (by omega)
              rw [he]
              exact hf a hai y (by omega) hy.2
          · obtain rfl : a = i := by omega
            exact hmin b ⟨hab, hb⟩
      refine ⟨hsorted, ?_, ?_⟩
      · intro x hx
        obtain ⟨y, hy, he⟩ := hval x hx
        by_cases hyi : y < i
        · exact ⟨y, hy, he.trans (hout y (by omega))⟩
        · obtain ⟨z, hz, he'⟩ := hin y (by omega)
          exact ⟨z, hz.2, he.trans he'⟩
      · intro x hx
        rw [hbeyond x hx, hout x (by omega)]

theorem mempNew_ok {fsize : List Nat} (h1 : 1 ≤ fsize.length) (h2 : fsize.length ≤ 255)
    (hmax : ∀ x ∈ fsize, x ≠ sizeMax) : ∃ p, mempNew true fsize = some p ∧ ClassesOk p
      ∧ p.empty = 0 ∧ p.used = 0 ∧ ∀ i, p.header i = none := by
  obtain ⟨hsorted, hval, hbeyond⟩ := @sortOuter_spec fsize.length (fsize.length - 1) 0
    (fun i => if i < fsize.length then fsize.getD i 0 else sizeMax) (by omega)
    fun a ha => absurd ha (Nat.not_lt_zero _)
  have hn : fsize.length % 256 = fsize.length := Nat.mod_eq_of_lt (by omega)
  have hnew : mempNew true fsize = some ⟨0, 0, fsize.length % 256,
      sortOuter fsize.length (fsize.length - 1) 0
        (fun i => if i < fsize.length then fsize.getD i 0 else sizeMax), fun _ => none⟩ := by
    rw [mempNew, if_neg (by omega), if_neg (by decide)]
  refine ⟨_, hnew, ⟨?_, ?_, ?_, ?_⟩, rfl, rfl, fun _ => rfl⟩
  · dsimp only
    omega
  · dsimp only
    rw [hn]
    exact hsorted
  · intro i hi
    dsimp only at hi ⊢
    rw [hn] at hi
    obtain ⟨y, hy, he⟩ := hval i hi
    rw [he, if_pos hy]
    refine hmax _ ?_
    rw [List.getD, List.getElem?_eq_getElem hy]
    exact List.getElem_mem hy
  · dsimp only
    rw [hn, hbeyond _ (Nat.le_refl _), if_neg (Nat.lt_irrefl _)]

/-! ## The class of a request -/

/-- The binary search, by the two bounds that it keeps: everything before `left` is below
`size`, and everything behind `right` is above it. Where it stops, it is at the first place
that is large enough. -/
theorem searchSize_spec {f : Nat → Nat} {n size k : Nat} {left right : Int}
    (hsorted : ∀ i j, i ≤ j → j < n → f i ≤ f j) (hk : right - left ≤ k) (h0 : 0 ≤ left)
    (hln : left < n) (hrn : right < n) (hlr : left ≤ right + 1)
    (hlo : ∀ x : Nat, (x : Int) < left → f x < size)
    (hhi : ∀ x : Nat, right < x → x < n → size < f x) :
    ∃ i : Nat, searchSize f size k left right = i ∧ i < n
      ∧ (f i = size ∨ (∀ x < i, f x < size) ∧ ∀ x, i < x → x < n → size < f x) := by
  induction k generalizing left right with
  | zero =>
      obtain ⟨l, rfl⟩ := Int.eq_ofNat_of_zero_le h0
      refine ⟨l, rfl, by omega, .inr ⟨fun x hx => hlo x (by omega), fun x hx hxn => ?_⟩⟩
      exact hhi x (by omega) hxn
  | succ k ih =>
      rw [searchSize]
      by_cases hlt : left < right
      · rw [if_pos hlt]
        obtain ⟨m, hm⟩ := Int.eq_ofNat_of_zero_le (show 0 ≤ (left + right) / 2 by omega)
        dsimp only
        rw [hm, Int.toNat_natCast]
        by_cases heq : f m = size
        · rw [if_pos heq]
          exact ⟨m, rfl, by omega, .inl heq⟩
        · rw [if_neg heq]
          by_cases hless : f m < size
          · rw [if_pos hless]
            refine ih (by omega) (by omega) (by omega) hrn (by omega) (fun x hx => ?_) hhi
            exact (hsorted x m (by omega) (by omega)).trans_lt hless
          · rw [if_neg hless]
            refine ih (by omega) h0 hln (by omega) (by omega) hlo fun x hx hxn => ?_
            exact (by omega : size < f m).trans_le (hsorted m x (by omega) hxn)
      · rw [if_neg hlt]
        obtain ⟨l, rfl⟩ := Int.eq_ofNat_of_zero_le h0
        refine ⟨l, rfl, by omega, .inr ⟨fun x hx => hlo x (by omega), fun x hx hxn => ?_⟩⟩
        exact hhi x (by omega) hxn

/-- A request is served from the least class that is large enough, and from `malloc` only if
there is none. -/
theorem classIndex_spec {p : MemPool} (hp : ClassesOk p) (size : Nat) :
    (p.classIndex size = p.n ∧ ∀ x < p.n, p.size x < size)
      ∨ p.classIndex size < p.n ∧ size ≤ p.size (p.classIndex size)
        ∧ ∀ x < p.n, size ≤ p.size x → p.size (p.classIndex size) ≤ p.size x := by
  have hpos := hp.pos
  obtain ⟨i, hi, hin, hcase⟩ := @searchSize_spec p.size p.n size p.n 0 (p.n - 1)
    hp.sorted (by omega) (Int.le_refl _) (by omega) (by omega) (by omega)
    (fun x hx => by omega) (fun x hx hxn => by omega)
  have hidx : p.classIndex size = if p.size i < size then i + 1 else i := by
    rw [MemPool.classIndex, hi, Int.toNat_natCast]
  rw [hidx]
  rcases hcase with heq | ⟨hbelow, habove⟩
  · rw [if_neg (by omega)]
    refine .inr ⟨hin, by omega, fun x hx hle => by omega⟩
  · by_cases hless : p.size i < size
    · rw [if_pos hless]
      by_cases hlast : i + 1 = p.n
      · refine .inl ⟨hlast, ?_⟩
        intro x hx
        exact (hp.sorted x i (by omega) hin).trans_lt hless
      · have hnext := habove (i + 1) (by omega) (by omega)
        refine .inr ⟨by omega, hnext.le, fun x hx hle => ?_⟩
        by_cases hxi : x ≤ i
        · have := hp.sorted x i hxi hin
          omega
        · exact hp.sorted (i + 1) x (by omega) hx
    · rw [if_neg hless]
      refine .inr ⟨hin, by omega, fun x hx hle => ?_⟩
      by_cases hxi : x < i
      · have := hbelow x hxi
        omega
      · exact hp.sorted i x (by omega) hx

theorem classIndex_le {p : MemPool} (hp : ClassesOk p) (size : Nat) :
    p.classIndex size ≤ p.n := by
  obtain ⟨h, -⟩ | ⟨h, -⟩ := classIndex_spec hp size <;> omega

theorem classIndex_large {p : MemPool} (hp : ClassesOk p) {size : Nat}
    (h : p.size (p.n - 1) < size) : p.classIndex size = p.n := by
  have hpos := hp.pos
  rcases classIndex_spec hp size with ⟨h', -⟩ | ⟨hlt, hle, -⟩
  · exact h'
  · have := hp.sorted (p.classIndex size) (p.n - 1) (by omega) (by omega)
    omega

end Artorias
