import Artorias.PoolContents

/-!
# Lua's allocator (`lua_bind.c`, `lalloc`)

Lua asks for its blocks from the memory pool. It keeps the size of each block
itself and tells it with every call; for a new block it tells the kind of
object instead. A block that Lua shrinks must not be refused: this is so for
blocks of a class and for those that stay above every class, and for the others
only when their new class has a free block (`lalloc_shrinks_iff`).
-/

namespace Artorias

/-- `LUA_TTABLE` -/
def luaTTable : Nat := 5

/-- `lalloc`; `malloc` is for `malloc` and `realloc`. -/
def lalloc (s : PoolMem) (ptr : Option Addr) (osize nsize : Nat) (malloc : Malloc) :
    PoolRun (PoolMem × Option Addr) :=
  if nsize = 0 then do
    let s ← mempRecycle s ptr
    .ok (s, none)
  else
    match ptr with
    | some d => mempRealloc s (some d) nsize malloc
    | none =>
        let size := if osize = luaTTable then nsize * 4 else nsize
        mempAlloc s size malloc

section
variable {fsize : List Nat} {s s' : PoolMem} {L : PoolLedger} {asked : Addr → Nat}

/-- The pool stays in use as it should through any call of `lalloc`, and what Lua records as
the size of a block is at most what the pool was asked for, shrinking included. -/
theorem lalloc_use (hok : SizesOk fsize) (h : PoolUse fsize s L asked) {ptr : Option Addr}
    (hptr : ∀ d, ptr = some d → d ∈ L.live) {osize nsize : Nat} {malloc : Malloc} {r : Option Addr}
    (hfresh : match ptr with
      | none => Fresh s malloc
      | some d => FreshFor s d nsize malloc)
    (hrun : lalloc s ptr osize nsize malloc = .ok (s', r)) :
    ∃ L' asked', PoolUse fsize s' L' asked' ∧ ∀ a, r = some a → a ∈ L'.live ∧ nsize ≤ asked' a := by
  unfold lalloc at hrun
  by_cases h0 : nsize = 0
  · rw [if_pos h0] at hrun
    obtain ⟨s1, hrecycle, hret⟩ := poolBind_eq_ok.mp hrun
    cases hret
    cases ptr with
    | none =>
        cases hrecycle
        exact ⟨L, asked, h, fun a ha => by cases ha⟩
    | some d => exact ⟨_, asked, h.recycle (hptr d rfl) hrecycle, fun a ha => by cases ha⟩
  rw [if_neg h0] at hrun
  cases ptr with
  | none =>
      refine ⟨_, _, h.alloc hfresh hrun, ?_⟩
      rintro a rfl
      rw [(PoolLedger.take_cls (poolUse_room hok h).1 hfresh hrun).1, askedFor,
        Function.update_self]
      refine ⟨.head _, ?_⟩
      split <;> omega
  | some d =>
      obtain ⟨s1, r1, hrun1, -, huse, hres⟩ :=
        mempRealloc_resized hok h (hptr d rfl) (Nat.pos_of_ne_zero h0) hfresh
      cases hrun.symm.trans hrun1
      refine ⟨_, _, huse, ?_⟩
      rintro a rfl
      rw [askedFor, Function.update_self]
      exact ⟨hres.live a rfl, Nat.le_refl _⟩

/-- The block of Lua need not move, or there is a free block to move to: it has a class, it
stays larger than every class, or the class of the new size has a free block. -/
def ShrinksSafely (s : PoolMem) (d : Addr) (nsize : Nat) : Prop :=
  ∃ i, s.field d = .ok i ∧ (s.pool.size i ≠ sizeMax ∨ s.pool.size (s.pool.n - 1) < nsize
    ∨ s.pool.header (s.pool.classIndex nsize) ≠ none)

/-- A class with a free block does not refuse, whatever `malloc` would answer: it is not
asked. -/
theorem mempAlloc_of_idle (h : PoolAt s L) {size : Nat} (h0 : size ≠ 0)
    (hsmall : size ≤ s.pool.size (s.pool.n - 1))
    (hhead : s.pool.header (s.pool.classIndex size) ≠ none) (malloc : Malloc) (s' : PoolMem) :
    mempAlloc s size malloc ≠ .ok (s', none) := by
  have hpos := h.ok.pos
  have hlt : s.pool.classIndex size < s.pool.n := by
    rcases classIndex_spec h.ok size with ⟨-, hall⟩ | ⟨hlt, -⟩
    · have := hall (s.pool.n - 1) (by omega)
      omega
    · exact hlt
  intro hrun
  cases mempAlloc_path hrun with
  | zero h => exact h0 h
  | refused _ hnone => exact hhead (hnone hlt)

theorem mempAlloc_of_none {size : Nat} (hhead : s.pool.header (s.pool.classIndex size) = none) :
    mempAlloc s size none = .ok (s, none) := by
  unfold mempAlloc
  by_cases h0 : size = 0
  · rw [if_pos h0]
  · rw [if_neg h0]
    dsimp only
    rw [hhead]
    split <;> rfl

/-- `memp_realloc` serves a shrinking block that need not move or can move without `malloc`;
where it calls `realloc`, that is assumed not to fail. -/
theorem mempRealloc_serves (h : PoolAt s L) (hcaps : CapsAt s L) (hroom : RoomAt s L asked)
    {d : Addr} (hd : d ∈ L.live) {nsize : Nat} (h0 : nsize ≠ 0) (hle : nsize ≤ asked d)
    {malloc : Malloc} (hfresh : FreshFor s d nsize malloc)
    (hrealloc : Reallocs s d nsize → malloc ≠ none) (hsafe : ShrinksSafely s d nsize) :
    ∃ s' a, mempRealloc s (some d) nsize malloc = .ok (s', some a) := by
  obtain ⟨s', r, hrun, -⟩ := mempRealloc_spec h hd hfresh
  obtain ⟨hcls, c, hc, hp⟩ := h.live d hd
  obtain ⟨i, hi, hsafe⟩ := hsafe
  cases (field_eq hc hp).symm.trans hi
  rw [← reallocBy_memcpy] at hrun ⊢
  cases h.path hd h0 PoolMem.memcpy malloc with
  | stays _ _ heq => exact ⟨s, d, heq⟩
  | grows hlt hgrow _ =>
      obtain ⟨cap, hcap, hasked, -⟩ := hroom d hd
      have hclass := hcap.symm.trans (hcaps d (.inl hd) hlt)
      injection hclass with hclass
      omega
  | enters hn hsmall heq =>
      have hmax : s.pool.size (L.cls d) = sizeMax := by
        rw [hn]
        exact h.ok.last
      have hhead : s.pool.header (s.pool.classIndex nsize) ≠ none := by
        rcases hsafe with hne | hlarge | hhead
        · exact absurd hmax hne
        · omega
        · exact hhead
      rw [heq, moveBy_memcpy] at hrun ⊢
      rcases moveBy_cases hrun with ⟨rfl, halloc⟩ | ⟨a, -, -, rfl, -⟩
      · exact absurd halloc (mempAlloc_of_idle h h0 hsmall hhead malloc s')
      · exact ⟨s', a, hrun⟩
  | resizes hn hlarge heq =>
      have hne := hrealloc ⟨hn ▸ hi, hlarge⟩
      rw [heq] at hrun ⊢
      rcases reallocData_cases hrun with ⟨hnone, -⟩ | ⟨a, -, -, -, rfl, -⟩
      · exact absurd hnone hne
      · exact ⟨s', a, hrun⟩

/-- Shrinking succeeds, whatever `malloc` answers, exactly if the block has a class, or
stays larger than every class, or its new class has a free block. Otherwise the block has to
move into a class that has to ask `malloc`, and so a shrinking request can fail, which Lua
takes to be impossible. -/
theorem lalloc_shrinks_iff (hok : SizesOk fsize) (h : PoolUse fsize s L asked) {d : Addr}
    (hd : d ∈ L.live) {osize nsize : Nat} (hrecorded : osize ≤ asked d) (hpos : 0 < nsize)
    (hle : nsize ≤ osize) :
    (∀ malloc, FreshFor s d nsize malloc → (Reallocs s d nsize → malloc ≠ none) →
        ∃ s' a, lalloc s (some d) osize nsize malloc = .ok (s', some a))
      ↔ ShrinksSafely s d nsize := by
  obtain ⟨hat, hcaps, hroom⟩ := poolUse_room hok h
  have h0 : nsize ≠ 0 := by omega
  have hlalloc : ∀ malloc,
      lalloc s (some d) osize nsize malloc = mempRealloc s (some d) nsize malloc := by
    intro malloc
    simp only [lalloc, if_neg h0]
  constructor
  · intro hall
    obtain ⟨hcls, c, hc, hp⟩ := hat.live d hd
    refine ⟨L.cls d, field_eq hc hp, ?_⟩
    by_contra hnot
    rw [not_or, not_or, not_not, not_not, Nat.not_lt] at hnot
    obtain ⟨hmax, hsmall, hhead⟩ := hnot
    have hnone := mempAlloc_of_none hhead
    obtain ⟨s', a, hrun⟩ := hall none (fun _ _ hm => by cases hm)
      (fun hr => absurd hr.2 (Nat.not_lt.mpr hsmall))
    rw [hlalloc, ← reallocBy_memcpy] at hrun
    cases hat.path hd h0 PoolMem.memcpy none with
    | stays hlt | grows hlt => exact hat.ok.small _ hlt hmax
    | enters _ _ heq =>
        rw [heq, moveBy, hnone] at hrun
        cases hrun
    | resizes _ hlarge => omega
  · intro hsafe malloc hfresh hrealloc
    rw [hlalloc]
    exact mempRealloc_serves hat hcaps hroom hd h0 (by omega) hfresh hrealloc hsafe

end

theorem fresh_one : Fresh ⟨smallPool 0 0 fun _ => none, fun _ => none⟩
    (some (1, zeroBlock (.next none) 0)) := by
  rintro _ _ ⟨⟩
  rfl

/-- A block of 40 bytes, for which there is no class, at the request for 12 bytes. -/
theorem lalloc_shrinks_iff_large : ∃ s L asked, PoolUse [16, 8] s L asked
    ∧ ((∀ malloc, FreshFor s 1 12 malloc → (Reallocs s 1 12 → malloc ≠ none) →
        ∃ s' a, lalloc s (some 1) 40 12 malloc = .ok (s', some a)) ↔ ShrinksSafely s 1 12) := by
  have huse : PoolUse [16, 8] _ _ _ :=
    @PoolUse.alloc _ _ _ _ _ 40 _ (some 1) (.new smallPool_new) fresh_one rfl
  exact ⟨_, _, _, huse, lalloc_shrinks_iff ⟨by decide, by decide, by decide⟩ huse (.head _)
    (Nat.le_refl 40) (by decide) (by decide)⟩

/-- Shrinking that block to 12 bytes is refused when `malloc` has nothing for the class of
16. -/
theorem lalloc_refuses : ∃ s L asked, PoolUse [16, 8] s L asked ∧ 1 ∈ L.live ∧ asked 1 = 40
    ∧ lalloc ⟨smallPool 0 0 fun _ => none, fun _ => none⟩ none 0 40
        (some (1, zeroBlock (.next none) 0)) = .ok (s, some 1)
    ∧ lalloc s (some 1) 40 12 none = .ok (s, none) := by
  have huse : PoolUse [16, 8] _ _ _ :=
    @PoolUse.alloc _ _ _ _ _ 40 _ (some 1) (.new smallPool_new) fresh_one rfl
  exact ⟨_, _, _, huse, .head _, rfl, rfl, rfl⟩

end Artorias
