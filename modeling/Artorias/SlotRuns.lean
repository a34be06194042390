import Mathlib.Tactic.IntervalCases
import Artorias.MemSlot

/-!
# Runs of the slot allocator

The scan finds the first run of clear flags that is long enough and meets the
edge of a byte (`slotScan_spec`), and marks it. So:

- `slotRun_exact`: in every run an allocation sets exactly the flags of a
  range that was clear, and a free clears exactly those of its range;
- `slotRun_alloc_fails_iff`: a run of clear flags is missed exactly if all
  that are long enough lie strictly inside one byte.
-/

namespace Artorias

/-! ## The scan -/

def Clear (flag : Int → BitVec 8) (a b : Nat) : Prop := ∀ p, a ≤ p → p < b → bitAt flag p = false

/-- Some edge of a byte is in or at the ends of the range. -/
def MeetsEdge (a b : Nat) : Prop := ∃ m, a ≤ 8 * m ∧ 8 * m ≤ b

/-- At least `size` clear flags below `bound` that meet the edge of a byte. -/
structure SeenRun (flag : Int → BitVec 8) (size bound a b : Nat) : Prop where
  clear : Clear flag a b
  long : a + size ≤ b
  bound : b ≤ bound
  edge : MeetsEdge a b

/-- Before byte `i`: the last `empty` flags are clear, no more than these, and
nothing long enough ended before. -/
structure ScanAt (flag : Int → BitVec 8) (size i offset empty : Nat) : Prop where
  sum : offset + empty = 8 * i
  clear : Clear flag offset (8 * i)
  start : ∀ q, q + 1 = offset → bitAt flag q = true
  none : empty < size → ∀ a b, ¬SeenRun flag size (8 * i) a b

theorem bitAt_byte (flag : Int → BitVec 8) (i : Nat) {k : Nat} (hk : k < 8) :
    bitAt flag (8 * i + k) = (flag i).getMsbD k := by
  rw [bitAt, show (8 * i + k) / 8 = i by omega, show (8 * i + k) % 8 = k by omega]

theorem Clear.outside {flag : Int → BitVec 8} {a b : Nat} (h : Clear flag a b) {q : Nat}
    (hq : bitAt flag q = true) : q < a ∨ b ≤ q := by
  by_contra hin
  rw [h q (by omega) (by omega)] at hq
  cases hq

theorem ScanAt.from_start {flag : Int → BitVec 8} {size i offset empty a b : Nat}
    (h : ScanAt flag size i offset empty) (hrun : Clear flag a b) (hb : offset ≤ b) :
    offset ≤ a := by
  cases offset with
  | zero => exact Nat.zero_le _
  | succ q =>
      rcases hrun.outside (h.start q rfl) with hq | hq
      · exact hq
      · omega

theorem clear_zero {flag : Int → BitVec 8} {i : Nat} (h : flag i = 0) :
    Clear flag (8 * i) (8 * i + 8) := by
  intro p hp hp'
  obtain ⟨k, rfl⟩ : ∃ k, p = 8 * i + k := ⟨p - 8 * i, by omega⟩
  rw [bitAt_byte _ _ (by omega), h]
  exact BitVec.getMsbD_zero

theorem Clear.append {flag : Int → BitVec 8} {a b c : Nat} (h : Clear flag a b)
    (h' : Clear flag b c) : Clear flag a c := by
  intro p hp hp'
  by_cases hlt : p < b
  · exact h p hp hlt
  · exact h' p (by omega) hp'

/-- Where the clear flags at either end of a byte stop: in front of the first set one and
behind the last. -/
theorem byte_ends {flag : Int → BitVec 8} {i : Nat} (h : flag i ≠ 0) :
    (bitsCl0U8 (flag i) < 8 ∧ Clear flag (8 * i) (8 * i + bitsCl0U8 (flag i))
        ∧ bitAt flag (8 * i + bitsCl0U8 (flag i)) = true)
      ∧ bitsCt0U8 (flag i) < 8 ∧ Clear flag (8 * i + (8 - bitsCt0U8 (flag i))) (8 * i + 8)
        ∧ bitAt flag (8 * i + (7 - bitsCt0U8 (flag i))) = true := by
  obtain ⟨hl, hlset, hlclear⟩ := bitsCl0U8_spec _ h
  obtain ⟨ht, htset, htclear⟩ := bitsCt0U8_spec _ h
  refine ⟨⟨hl, ?_, ?_⟩, ht, ?_, ?_⟩
  · intro p hp hp'
    obtain ⟨k, rfl⟩ : ∃ k, p = 8 * i + k := ⟨p - 8 * i, by omega⟩
    rw [bitAt_byte _ _ (by omega), hlclear k (by omega)]
  · rw [bitAt_byte _ _ hl, hlset]
  · intro p hp hp'
    obtain ⟨k, rfl⟩ : ∃ k, p = 8 * i + k := ⟨p - 8 * i, by omega⟩
    rw [bitAt_byte _ _ (by omega), htclear k (by omega) (by omega)]
  · rw [bitAt_byte _ _ (by omega), htset]

/-- A byte of clear flags makes the run that the scan is in 8 longer. -/
theorem ScanAt.step_zero {flag : Int → BitVec 8} {size i offset empty : Nat}
    (h : ScanAt flag size i offset empty) (hlt : empty < size) (h0 : flag i = 0) :
    ScanAt flag size (i + 1) offset (empty + 8) := by
  have hsum := h.sum
  refine ⟨by omega, ?_, h.start, fun hlt' a b hrun => ?_⟩
  · exact h.clear.append (clear_zero h0)
  · obtain ⟨hclear, hlong, hb, hedge⟩ := hrun
    by_cases hb' : b ≤ 8 * i
    · exact h.none hlt a b ⟨hclear, hlong, hb', hedge⟩
    · have := h.from_start hclear (by omega)
      omega

/-- A byte with a set flag, and not enough clear ones before it: the run that the scan is in
begins anew behind the last set flag. -/
theorem ScanAt.step_short {flag : Int → BitVec 8} {size i offset empty : Nat}
    (h : ScanAt flag size i offset empty) (hlt : empty < size) (h0 : flag i ≠ 0)
    (hshort : empty + bitsCl0U8 (flag i) < size) :
    ScanAt flag size (i + 1) (i * 8 + (8 - bitsCt0U8 (flag i))) (bitsCt0U8 (flag i)) := by
  have hsum := h.sum
  obtain ⟨⟨hl, -, hlset⟩, ht, htclear, htset⟩ := byte_ends h0
  refine ⟨by omega, ?_, fun q hq => ?_, fun hlt' a b hrun => ?_⟩
  · rw [Nat.mul_comm i 8]
    exact htclear
  · obtain rfl : q = 8 * i + (7 - bitsCt0U8 (flag i)) := by omega
    exact htset
  · obtain ⟨hclear, hlong, hb, hedge⟩ := hrun
    by_cases hb' : b ≤ 8 * i
    · exact h.none hlt a b ⟨hclear, hlong, hb', hedge⟩
    · have hstart := h.from_start hclear (by omega)
      obtain ⟨m, ham, hmb⟩ := hedge
      by_cases hm : m ≤ i
      · -- the run comes in from the left, up to the first set flag
        rcases hclear.outside hlset with hq | hq <;> omega
      · -- it starts behind the last set flag
        rcases hclear.outside htset with hq | hq <;> omega

theorem slotScan_done {flag : Int → BitVec 8} {size k i offset empty : Nat} (h : size ≤ empty) :
    slotScan flag size k i offset empty = (offset, empty) := by
  cases k with
  | zero => rfl
  | succ k => exact if_neg (Nat.not_lt.mpr h)

/-- What the scan answers: a run that is long enough, or that there is none
that meets the edge of a byte. -/
def ScanResult (flag : Int → BitVec 8) (size bound : Nat) (r : Nat × Nat) : Prop :=
  (size ≤ r.2 ∧ SeenRun flag size bound r.1 (r.1 + r.2))
    ∨ r.2 < size ∧ ∀ a b, ¬SeenRun flag size bound a b

theorem slotScan_spec {flag : Int → BitVec 8} {size k i offset empty : Nat}
    (h : ScanAt flag size i offset empty) :
    ScanResult flag size (8 * (i + k)) (slotScan flag size k i offset empty) := by
  induction k generalizing i offset empty with
  | zero =>
      have hsum := h.sum
      by_cases hlt : empty < size
      · exact .inr ⟨hlt, h.none hlt⟩
      · refine .inl ⟨by simpa [slotScan] using hlt, ?_, ?_, ?_, i, ?_, ?_⟩ <;>
          simp only [slotScan]
        · rw [hsum]
          exact h.clear
        all_goals omega
  | succ k ih =>
      have hsum := h.sum
      have hbound : 8 * (i + 1 + k) = 8 * (i + (k + 1)) := by omega
      by_cases hlt : empty < size
      · by_cases h0 : flag i = 0
        · rw [slotScan, if_pos hlt, if_pos h0, ← hbound]
          exact ih (h.step_zero hlt h0)
        · rw [slotScan, if_pos hlt, if_neg h0]
          dsimp only
          by_cases hge : empty + bitsCl0U8 (flag i) ≥ size
          · obtain ⟨⟨hl, hlclear, -⟩, -⟩ := byte_ends h0
            rw [if_pos hge, slotScan_done hge]
            refine .inl ⟨hge, ?_, ?_, ?_, i, ?_, ?_⟩ <;> dsimp only
            · rw [← Nat.add_assoc, hsum]
              exact h.clear.append hlclear
            all_goals omega
          · rw [if_neg hge, ← hbound]
            exact ih (h.step_short hlt h0 (Nat.lt_of_not_le hge))
      · rw [slotScan, if_neg hlt]
        refine .inl ⟨Nat.le_of_not_lt hlt, ?_, ?_, ?_, i, ?_, ?_⟩ <;> dsimp only
        · rw [hsum]
          exact h.clear
        all_goals omega

theorem scanAt_start {flag : Int → BitVec 8} {size : Nat} (hsize : 0 < size) :
    ScanAt flag size 0 0 0 := by
  refine ⟨rfl, ?_, ?_, ?_⟩
  · intro p hp hp'
    omega
  · intro q hq
    omega
  · intro _ a b hrun
    have := hrun.long
    have := hrun.bound
    omega

theorem slotScan_start {flag : Int → BitVec 8} {size : Nat} (hsize : 0 < size) (n : Nat) :
    ScanResult flag size (8 * n) (slotScan flag size n 0 0 0) := by
  have hstart : ScanAt flag size 0 0 0 := scanAt_start hsize
  have := slotScan_spec (k := n) hstart
  rwa [Nat.zero_add] at this

/-! ## The operations -/

/-- The flags of `m'` are those of `m`, but from `a` to `b` they are `v`. -/
structure FlagsSet (m m' : MemSlot) (a b : Nat) (v : Bool) : Prop where
  bytes : m'.n = m.n
  before : ∀ x < 0, m'.flag x = m.flag x
  bits : ∀ p, bitAt m'.flag p = if a ≤ p ∧ p < b then v else bitAt m.flag p

theorem MemSlot.size_lt (m : MemSlot) : m.size < 2048 := by
  have := m.n.isLt
  unfold MemSlot.size
  omega

/-- `slot_alloc` marks the first run that its scan sees, which is clear and inside the slot;
or there is none, and it answers -1 and changes nothing. -/
theorem slotAlloc_spec (m : MemSlot) (size : BitVec 32) :
    (slotAlloc (some m) size = .ok (some m, -1)
        ∧ (size.toNat = 0 ∨ ∀ a b, ¬SeenRun m.flag size.toNat m.size a b))
      ∨ ∃ m', ∃ o : Nat, slotAlloc (some m) size = .ok (some m', (o : Int))
        ∧ o + size.toNat ≤ m.size ∧ Clear m.flag o (o + size.toNat)
        ∧ FlagsSet m m' o (o + size.toNat) true ∧ ∃ b, SeenRun m.flag size.toNat m.size o b := by
  have h8 : 8 * m.n.toNat = m.size := Nat.mul_comm _ _
  by_cases hbad : size.toNat > m.size ∨ size = 0
  · refine .inl ⟨if_pos hbad, ?_⟩
    rcases hbad with hbig | rfl
    · refine .inr fun a b hrun => ?_
      have := hrun.long
      have := hrun.bound
      omega
    · exact .inl rfl
  · have hpos : 0 < size.toNat := by
      refine Nat.pos_of_ne_zero fun h => hbad (.inr ?_)
      exact BitVec.eq_of_toNat_eq h
    have hscan := @slotScan_start m.flag _ hpos m.n.toNat
    rw [h8] at hscan
    simp only [slotAlloc, if_neg hbad]
    cases hr : slotScan m.flag size.toNat m.n.toNat 0 0 0 with
    | mk offset empty =>
        rw [hr] at hscan
        rcases hscan with ⟨hlong, hrun⟩ | ⟨hshort, hnone⟩
        · dsimp only at hlong hrun ⊢
          have hb := hrun.bound
          have hlt := m.size_lt
          obtain ⟨ts, hts, hneg, hbits⟩ :=
            @markFlag_spec _ _ _ setsFlags_used offset size.toNat (by omega)
          rw [if_pos hlong, markUsedFlag, hts]
          refine .inr
            ⟨_, offset, rfl, by omega, fun p hp hp' => ?_, ⟨rfl, hneg m.flag, hbits m.flag⟩,
            _, hrun⟩
          exact hrun.clear p hp (by omega)
        · dsimp only at hshort hnone ⊢
          rw [if_neg (Nat.not_le.mpr hshort)]
          exact .inl ⟨rfl, .inr hnone⟩

/-- A range inside the slot. -/
def InSlot (n : BitVec 8) (offset size : BitVec 32) : Prop :=
  offset.toNat + size.toNat ≤ n.toNat * 8

theorem inSlot_ints (m : MemSlot) {offset size : BitVec 32} (hin : InSlot m.n offset size) :
    offset.toInt = offset.toNat ∧ size.toInt = size.toNat
      ∧ ¬(offset.toInt > m.size ∨ (offset + size).toNat > m.size) := by
  have hlt := m.size_lt
  unfold InSlot at hin
  unfold MemSlot.size at hlt
  have hoff : offset.toInt = offset.toNat := BitVec.toInt_eq_toNat_of_lt (by omega)
  refine ⟨hoff, BitVec.toInt_eq_toNat_of_lt (by omega), ?_⟩
  rw [hoff, BitVec.toNat_add, Nat.mod_eq_of_lt (by omega), MemSlot.size]
  omega

theorem slotFree_spec (m : MemSlot) {offset size : BitVec 32} (hin : InSlot m.n offset size) :
    ∃ m', slotFree (some m) offset size = .ok (some m')
      ∧ FlagsSet m m' offset.toNat (offset.toNat + size.toNat) false := by
  obtain ⟨hoff, hsize, hgood⟩ := inSlot_ints m hin
  have hlt := m.size_lt
  have hle : offset.toNat + size.toNat ≤ m.size := hin
  obtain ⟨ts, hts, hneg, hbits⟩ :=
    @markFlag_spec _ _ _ setsFlags_free offset.toNat size.toNat (by omega)
  refine ⟨{ m with flag := applyTouches m.flag ts }, ?_, rfl, hneg m.flag, hbits m.flag⟩
  rw [slotFree, if_neg hgood, markFreeFlag, hoff, hsize, hts]
  rfl

theorem flag_ext {m m' : MemSlot} (hn : m'.n = m.n) (hneg : ∀ x < 0, m'.flag x = m.flag x)
    (hbits : ∀ p, bitAt m'.flag p = bitAt m.flag p) : m' = m := by
  have hflag : m'.flag = m.flag := by
    funext x
    by_cases hx : x < 0
    · exact hneg x hx
    · obtain ⟨i, rfl⟩ := Int.eq_ofNat_of_zero_le (Int.not_lt.mp hx)
      refine BitVec.eq_of_getMsbD_eq fun k hk => ?_
      have := hbits (8 * i + k)
      rwa [bitAt_byte _ _ hk, bitAt_byte _ _ hk] at this
  cases m
  cases m'
  cases hn
  cases hflag
  rfl

/-- Clearing what was just set gives the old flags, if they were clear. -/
theorem FlagsSet.undo {m m' m'' : MemSlot} {a b : Nat} (hclear : Clear m.flag a b)
    (h : FlagsSet m m' a b true) (h' : FlagsSet m' m'' a b false) : m'' = m := by
  refine flag_ext (h'.bytes.trans h.bytes)
    (fun x hx => (h'.before x hx).trans (h.before x hx)) fun p => ?_
  rw [h'.bits, h.bits]
  by_cases hp : a ≤ p ∧ p < b
  · rw [if_pos hp, hclear p hp.1 hp.2]
  · rw [if_neg hp, if_neg hp]

/-! ## Runs -/

/-- `len` flags from `off` on. -/
structure Extent where
  off : Nat
  len : Nat
deriving Repr, DecidableEq

/-- The two have no flag in common. -/
def Extent.Apart (r t : Extent) : Prop :=
  r.len = 0 ∨ t.len = 0 ∨ r.off + r.len ≤ t.off ∨ t.off + t.len ≤ r.off

instance (r t : Extent) : Decidable (r.Apart t) := inferInstanceAs (Decidable (_ ∨ _))

/-- What `slot_alloc` and `slot_free` inside the slot lead to, with the ranges
that are held: those allocated and not met by a free since. -/
inductive SlotRun (n : BitVec 8) : Option MemSlot → List Extent → Prop where
  | new (mem : Int → BitVec 8) : SlotRun n (slotNew (some mem) n) []
  | failed {s s' : Option MemSlot} {held : List Extent} {size : BitVec 32} :
      SlotRun n s held → slotAlloc s size = .ok (s', -1) → SlotRun n s' held
  | alloc {s s' : Option MemSlot} {held : List Extent} {size : BitVec 32} {o : Nat} :
      SlotRun n s held → slotAlloc s size = .ok (s', (o : Int)) →
        SlotRun n s' (⟨o, size.toNat⟩ :: held)
  | free {s s' : Option MemSlot} {held : List Extent} {offset size : BitVec 32} :
      SlotRun n s held → InSlot n offset size → slotFree s offset size = .ok s' →
        SlotRun n s' (held.filter fun r => r.Apart ⟨offset.toNat, size.toNat⟩)

/-- The held ranges are inside, apart and set. -/
structure HeldAt (n : BitVec 8) (m : MemSlot) (held : List Extent) : Prop where
  bytes : m.n = n
  inside : ∀ r ∈ held, r.off + r.len ≤ n.toNat * 8
  set : ∀ r ∈ held, ∀ p, r.off ≤ p → p < r.off + r.len → bitAt m.flag p = true
  apart : held.Pairwise Extent.Apart

theorem HeldAt.alloc {n : BitVec 8} {m m' : MemSlot} {held : List Extent} (h : HeldAt n m held)
    {o size : Nat} (hin : o + size ≤ m.size) (hclear : Clear m.flag o (o + size))
    (hset : FlagsSet m m' o (o + size) true) : HeldAt n m' (⟨o, size⟩ :: held) := by
  refine ⟨hset.bytes.trans h.bytes, fun r hr => ?_, fun r hr p hp hp' => ?_,
    List.pairwise_cons.mpr ⟨fun r hr => ?_, h.apart⟩⟩
  · rcases List.mem_cons.mp hr with rfl | hr
    · rwa [MemSlot.size, h.bytes] at hin
    · exact h.inside r hr
  · rw [hset.bits]
    rcases List.mem_cons.mp hr with rfl | hr
    · exact if_pos ⟨hp, hp'⟩
    · rw [h.set r hr p hp hp', ite_self]
  · -- a flag in both would be clear and set
    by_contra hmeet
    simp only [Extent.Apart, not_or] at hmeet
    have hc := hclear (max o r.off) (by omega) (by omega)
    rw [h.set r hr (max o r.off) (by omega) (by omega)] at hc
    cases hc

theorem HeldAt.free {n : BitVec 8} {m m' : MemSlot} {held : List Extent} (h : HeldAt n m held)
    {o size : Nat} (hset : FlagsSet m m' o (o + size) false) :
    HeldAt n m' (held.filter fun r => r.Apart ⟨o, size⟩) := by
  refine ⟨hset.bytes.trans h.bytes, fun r hr => h.inside r (List.mem_filter.mp hr).1, ?_,
    h.apart.filter _⟩
  intro r hr p hp hp'
  obtain ⟨hr, hap⟩ := List.mem_filter.mp hr
  rw [decide_eq_true_eq, Extent.Apart] at hap
  dsimp only at hap
  rw [hset.bits, if_neg (by omega), h.set r hr p hp hp']

theorem slotRun_inv {n : BitVec 8} {s : Option MemSlot} {held : List Extent}
    (h : SlotRun n s held) : ∃ m, s = some m ∧ HeldAt n m held := by
  induction h with
  | new mem =>
      refine ⟨_, rfl, rfl, ?_, ?_, .nil⟩
      · intro r hr
        cases hr
      · intro r hr
        cases hr
  | @failed _ _ _ size _ hrun ih =>
      obtain ⟨m, rfl, hm⟩ := ih
      rcases slotAlloc_spec m size with ⟨hsame, -⟩ | ⟨m', o, hok, -⟩
      · rw [hsame] at hrun
        cases hrun
        exact ⟨m, rfl, hm⟩
      · rw [hok] at hrun
        cases hrun
  | @alloc _ _ _ size _ _ hrun ih =>
      obtain ⟨m, rfl, hm⟩ := ih
      rcases slotAlloc_spec m size with ⟨hsame, -⟩ | ⟨m', o, hok, hin, hclear, hset, -⟩
      · rw [hsame] at hrun
        cases hrun
      · rw [hok] at hrun
        cases hrun
        exact ⟨m', rfl, hm.alloc hin hclear hset⟩
  | free _ hin hrun ih =>
      obtain ⟨m, rfl, hm⟩ := ih
      obtain ⟨m', hok, hset⟩ := slotFree_spec m (hm.bytes ▸ hin)
      rw [hok] at hrun
      cases hrun
      exact ⟨m', rfl, hm.free hset⟩

/-- An allocation fails and changes nothing, or sets exactly the flags of a
range that was clear; freeing the range gives the old slot back. -/
def AllocExact (m : MemSlot) (size : BitVec 32) : Prop :=
  slotAlloc (some m) size = .ok (some m, -1)
    ∨ ∃ m', ∃ o : Nat, slotAlloc (some m) size = .ok (some m', (o : Int))
      ∧ o + size.toNat ≤ m.size ∧ Clear m.flag o (o + size.toNat)
      ∧ FlagsSet m m' o (o + size.toNat) true
      ∧ slotFree (some m') (BitVec.ofNat 32 o) size = .ok (some m)

theorem allocExact (m : MemSlot) (size : BitVec 32) : AllocExact m size := by
  rcases slotAlloc_spec m size with ⟨hsame, -⟩ | ⟨m', o, hok, hin, hclear, hset, -⟩
  · exact .inl hsame
  · refine .inr ⟨m', o, hok, hin, hclear, hset, ?_⟩
    have hlt := m.size_lt
    have ho : (BitVec.ofNat 32 o).toNat = o := by
      rw [BitVec.toNat_ofNat]
      exact Nat.mod_eq_of_lt (by omega)
    have hin' : InSlot m'.n (BitVec.ofNat 32 o) size := by
      rw [InSlot, ho, hset.bytes]
      exact hin
    obtain ⟨m'', hfree, hset'⟩ := slotFree_spec m' hin'
    rw [ho] at hset'
    rw [hfree, hset.undo hclear hset']

/-- In every run allocations and frees change exactly the flags of their range, and the
ranges held at any time are inside, apart and set. -/
theorem slotRun_exact {n : BitVec 8} {s : Option MemSlot} {held : List Extent}
    (h : SlotRun n s held) : ∃ m, s = some m ∧ HeldAt n m held ∧ (∀ size, AllocExact m size)
      ∧ ∀ offset size, InSlot n offset size → ∃ m', slotFree (some m) offset size = .ok (some m')
        ∧ FlagsSet m m' offset.toNat (offset.toNat + size.toNat) false := by
  obtain ⟨m, rfl, hm⟩ := slotRun_inv h
  exact ⟨m, rfl, hm, allocExact m, fun offset size hin => slotFree_spec m (hm.bytes ▸ hin)⟩

/-- A run that leaves both kinds of ranges: of 16 flags three ranges have been allocated,
and the second of them freed. -/
theorem usedSlot_run : ∃ s m, SlotRun 2 s [⟨5, 6⟩, ⟨0, 3⟩] ∧ s = some m
    ∧ Clear m.flag 3 5 ∧ Clear m.flag 11 16 := by
  have h0 : SlotRun 2 _ _ := .new fun _ => 0xff
  have h1 := @SlotRun.alloc 2 _ _ _ 3 0 h0 rfl
  have h2 := @SlotRun.alloc 2 _ _ _ 2 3 h1 rfl
  have h3 := @SlotRun.alloc 2 _ _ _ 6 5 h2 rfl
  have h4 := @SlotRun.free 2 _ _ _ 3 2 h3 (show 3 + 2 ≤ 2 * 8 by decide) rfl
  refine ⟨_, _, h4, rfl, fun p hp hp' => ?_, fun p hp hp' => ?_⟩
  · interval_cases p <;> rfl
  · interval_cases p <;> rfl

theorem slotRun_exact_used : ∃ s m, SlotRun 2 s [⟨5, 6⟩, ⟨0, 3⟩] ∧ s = some m ∧ AllocExact m 5
    ∧ ∃ m', slotFree s 5 6 = .ok (some m') ∧ FlagsSet m m' 5 11 false := by
  obtain ⟨s, m, hs, hm, -⟩ := usedSlot_run
  obtain ⟨m', hm', -, halloc, hfree⟩ := slotRun_exact hs
  rw [hm, Option.some.injEq] at hm'
  subst hm'
  rw [← hm] at hfree
  exact ⟨s, m, hs, hm, halloc 5, hfree 5 6 (show 5 + 6 ≤ 2 * 8 by decide)⟩

/-! ## Missed runs -/

/-- An allocation fails only if there is no run of clear flags for it, exactly if one that
meets the edge of a byte is among those that are long enough: the scan counts from the
edges, and passes over a run inside a byte. -/
theorem slotRun_alloc_fails_iff {n : BitVec 8} {s : Option MemSlot} {held : List Extent}
    (h : SlotRun n s held) {size : BitVec 32} (h1 : 1 ≤ size.toNat) :
    ∃ m, s = some m
      ∧ (((∃ s', slotAlloc s size = .ok (s', -1)) →
            ¬∃ a, a + size.toNat ≤ n.toNat * 8 ∧ Clear m.flag a (a + size.toNat))
          ↔ ((∃ a, a + size.toNat ≤ n.toNat * 8 ∧ Clear m.flag a (a + size.toNat)) →
            ∃ a b, a + size.toNat ≤ b ∧ b ≤ n.toNat * 8 ∧ Clear m.flag a b ∧ MeetsEdge a b)) := by
  obtain ⟨m, rfl, hm⟩ := slotRun_inv h
  refine ⟨m, rfl, ?_⟩
  have hsize : m.size = n.toNat * 8 := by rw [MemSlot.size, hm.bytes]
  have hfails : (∃ s', slotAlloc (some m) size = .ok (s', -1))
      ↔ ¬∃ a b, a + size.toNat ≤ b ∧ b ≤ n.toNat * 8 ∧ Clear m.flag a b ∧ MeetsEdge a b := by
    rcases slotAlloc_spec m size with ⟨hfail, hnone⟩ | ⟨m', o, hok, -, -, -, b, hrun⟩
    · refine ⟨?_, fun _ => ⟨_, hfail⟩⟩
      rintro _ ⟨a, b, hlong, hb, hclear, hedge⟩
      rcases hnone with h0 | hnone
      · omega
      · exact hnone a b ⟨hclear, hlong, hsize ▸ hb, hedge⟩
    · constructor
      · rintro ⟨s', hs'⟩
        rw [hok] at hs'
        cases hs'
      · intro hnone
        exact absurd ⟨o, b, hrun.long, hsize ▸ hrun.bound, hrun.clear, hrun.edge⟩ hnone
  rw [hfails, not_imp_not]

/-- The flags behind the last range reach the edge of the second byte, and so they are
found. -/
theorem usedSlot_alloc_serves : ∃ s m, SlotRun 2 s [⟨5, 6⟩, ⟨0, 3⟩] ∧ s = some m
    ∧ Clear m.flag 11 (11 + 4) ∧ ¬∃ s', slotAlloc s 4 = .ok (s', -1) := by
  obtain ⟨s, m, hs, hm, -, hclear⟩ := usedSlot_run
  obtain ⟨m', hm', hiff⟩ := @slotRun_alloc_fails_iff 2 s _ hs 4 (by decide)
  rw [hm, Option.some.injEq] at hm'
  subst hm'
  have hfour : Clear m.flag 11 (11 + 4) := fun p hp hp' => hclear p hp (by omega)
  refine ⟨s, m, hs, hm, hfour, fun hfails => ?_⟩
  exact hiff.mpr (fun _ => ⟨11, 16, by decide, by decide, hclear, 2, by decide, by decide⟩) hfails
    ⟨11, by decide, hfour⟩

/-- Two flags in the middle of a byte are freed and cannot be allocated again. -/
theorem freed_inside_byte : ∃ s m, SlotRun 1 s [⟨3, 5⟩, ⟨0, 1⟩] ∧ s = some m
    ∧ slotAlloc s 2 = .ok (s, -1) ∧ 1 + 2 ≤ 8 ∧ Clear m.flag 1 3 := by
  refine ⟨_, _, @SlotRun.free 1 _ _ _ 1 2 (@SlotRun.alloc 1 _ _ _ 5 3
    (@SlotRun.alloc 1 _ _ _ 2 1 (@SlotRun.alloc 1 _ _ _ 1 0 (.new fun _ => 0) rfl) rfl) rfl)
    (show 1 + 2 ≤ 1 * 8 by decide) rfl, rfl, rfl, by decide, fun p hp hp' => ?_⟩
  interval_cases p <;> rfl

end Artorias
