import Artorias.SlotRuns

/-!
# Which bytes the slot allocator touches

The marking functions touch the byte behind the range even where the range ends
with the slot. So `slot_alloc` and `slot_free` stay within the `n` bytes of
`flag` exactly if the range they mark ends before the last flag
(`slot_touched_iff`); for `slot_alloc` that is the first run the scan can see.

The guard of `slot_free` adds as unsigned numbers do. What it lets through though
it is not in the slot is marked all the same: `slotFree_leaves_iff` says when
this leaves the slot as it is.
-/

namespace Artorias

/-! ## Accesses -/

/-- The bytes that a marking function touches. -/
def touched (r : Except SlotFault (List Touch)) : List Int :=
  match r with
  | .ok ts => ts.map Touch.index
  | .error _ => []

/-- The bytes that the scan of `slot_alloc` reads. -/
def scanned (flag : Int → BitVec 8) (size : Nat) : Nat → Nat → Nat → List Int
  | 0, _, _ => []
  | k + 1, i, empty =>
      if empty < size then
        i :: if flag i = 0 then scanned flag size k (i + 1) (empty + 8)
          else if empty + bitsCl0U8 (flag i) ≥ size then
            scanned flag size k (i + 1) (empty + bitsCl0U8 (flag i))
          else scanned flag size k (i + 1) (bitsCt0U8 (flag i))
      else []

/-- The bytes of `flag` that `slot_alloc` touches. -/
def slotAllocTouched (m : MemSlot) (size : BitVec 32) : List Int :=
  if size.toNat > m.size ∨ size = 0 then []
  else
    let (offset, empty) := slotScan m.flag size.toNat m.n.toNat 0 0 0
    scanned m.flag size.toNat m.n.toNat 0 0
      ++ if empty ≥ size.toNat then touched (markUsedFlag offset size.toNat) else []

/-- The bytes of `flag` that `slot_free` touches. -/
def slotFreeTouched (m : MemSlot) (offset size : BitVec 32) : List Int :=
  if offset.toInt > m.size ∨ (offset + size).toNat > m.size then []
  else touched (markFreeFlag offset.toInt size.toInt)

/-- All the indices are those of bytes that the slot has. -/
def Within (m : MemSlot) (xs : List Int) : Prop := ∀ x ∈ xs, 0 ≤ x ∧ x < m.n.toNat

theorem scanned_within (m : MemSlot) {size k i empty : Nat} (hk : i + k ≤ m.n.toNat) :
    Within m (scanned m.flag size k i empty) := by
  induction k generalizing i empty with
  | zero =>
      intro x hx
      cases hx
  | succ k ih =>
      intro x hx
      rw [scanned] at hx
      by_cases hlt : empty < size
      · rw [if_pos hlt] at hx
        rcases List.mem_cons.mp hx with rfl | hx
        · omega
        · split_ifs at hx <;> exact ih (by omega) x hx
      · rw [if_neg hlt] at hx
        cases hx

/-- Marking touches bytes of the slot only, exactly if the range ends before the last flag
does: the byte behind the end is touched even if no flag of it is marked. -/
theorem markFlag_within (m : MemSlot) (edge : BitVec 8 → BitVec 8 → BitVec 8) (fill : BitVec 8)
    {offset len : Nat} (hint : offset + len < 2147483648) :
    Within m (touched (markFlag edge fill offset len)) ↔ offset + len < m.size := by
  have hsize : m.size = m.n.toNat * 8 := rfl
  rw [markFlag_touches edge fill (Int.natCast_add offset len).symm hint, touched, Within]
  by_cases heq : offset / 8 = (offset + len) / 8
  · rw [if_pos heq]
    simp only [List.map_cons, List.map_nil, List.mem_singleton, forall_eq]
    omega
  · rw [if_neg heq]
    simp only [List.map_cons, List.map_map, List.mem_cons, List.mem_map, List.mem_range,
      Function.comp_apply]
    constructor
    · intro hall
      have := hall _ (.inr (.inl rfl))
      omega
    · rintro hlt x (rfl | rfl | ⟨j, hj, rfl⟩) <;> omega

/-! ## The first run -/

/-- No run that the scan can see starts before `offset`. -/
def NoneBefore (flag : Int → BitVec 8) (size bound offset : Nat) : Prop :=
  ∀ a b, SeenRun flag size bound a b → offset ≤ a

theorem ScanAt.noneBefore {flag : Int → BitVec 8} {size i offset empty : Nat}
    (h : ScanAt flag size i offset empty) (hlt : empty < size) {bound : Nat} :
    NoneBefore flag size bound offset := by
  intro a b hrun
  have hsum := h.sum
  by_cases hb : b ≤ 8 * i
  · exact absurd ⟨hrun.clear, hrun.long, hb, hrun.edge⟩ (h.none hlt a b)
  · exact h.from_start hrun.clear (by omega)

/-- Behind a byte with a set flag there is no run that starts before the flags at its end,
if those before it were not enough. -/
theorem ScanAt.short_noneBefore {flag : Int → BitVec 8} {size i offset empty : Nat}
    (h : ScanAt flag size i offset empty) (hlt : empty < size) (h0 : flag i ≠ 0)
    (hshort : empty + bitsCl0U8 (flag i) < size) {bound : Nat} :
    NoneBefore flag size bound (i * 8 + (8 - bitsCt0U8 (flag i))) := by
  intro a b hrun
  have hsum := h.sum
  have hstart := h.noneBefore hlt a b hrun
  obtain ⟨hclear, hlong, hb, m, ham, hmb⟩ := hrun
  obtain ⟨⟨hl, -, hlset⟩, ht, -, htset⟩ := byte_ends h0
  by_cases hm : m ≤ i
  · -- the run comes in from the left, up to the first set flag
    rcases hclear.outside hlset with hq | hq <;> omega
  · rcases hclear.outside htset with hq | hq <;> omega

/-- What the scan finds is the first run that it can see. -/
theorem slotScan_first {flag : Int → BitVec 8} {size k i offset empty : Nat}
    (h : ScanAt flag size i offset empty) {bound : Nat}
    (hfirst : NoneBefore flag size bound offset) :
    NoneBefore flag size bound (slotScan flag size k i offset empty).1 := by
  induction k generalizing i offset empty with
  | zero => exact hfirst
  | succ k ih =>
      rw [slotScan]
      by_cases hlt : empty < size
      · rw [if_pos hlt]
        by_cases h0 : flag i = 0
        · rw [if_pos h0]
          exact ih (h.step_zero hlt h0) hfirst
        · rw [if_neg h0]
          dsimp only
          by_cases hge : empty + bitsCl0U8 (flag i) ≥ size
          · rw [if_pos hge, slotScan_done hge]
            exact hfirst
          · rw [if_neg hge]
            have hshort := Nat.lt_of_not_le hge
            exact ih (h.step_short hlt h0 hshort) (h.short_noneBefore hlt h0 hshort)
      · rw [if_neg hlt]
        exact hfirst

/-- The flags of the slot hold a run for `size` that the scan can see, and every
such run starts so late that it must end with the slot. -/
def OnlyAtEnd (m : MemSlot) (size : Nat) : Prop :=
  (∃ a b, SeenRun m.flag size m.size a b)
    ∧ ∀ a b, SeenRun m.flag size m.size a b → a + size = m.size

theorem slotAllocTouched_within (m : MemSlot) (size : BitVec 32) :
    Within m (slotAllocTouched m size) ↔ ¬(1 ≤ size.toNat ∧ OnlyAtEnd m size.toNat) := by
  have hnil : Within m [] := fun x hx => by cases hx
  have hlt := m.size_lt
  rw [slotAllocTouched]
  by_cases hbad : size.toNat > m.size ∨ size = 0
  · rw [if_pos hbad]
    refine iff_of_true hnil ?_
    rintro ⟨hpos, ⟨a, b, hrun⟩, -⟩
    have := hrun.long
    have := hrun.bound
    rcases hbad with hbig | rfl
    · omega
    · exact absurd hpos (by decide)
  rw [if_neg hbad]
  rw [not_or] at hbad
  have hpos : 0 < size.toNat :=
    Nat.pos_of_ne_zero fun h => hbad.2 (BitVec.eq_of_toNat_eq h)
  have hscan := @slotScan_start m.flag _ hpos m.n.toNat
  have hfirst : NoneBefore m.flag size.toNat m.size
      (slotScan m.flag size.toNat m.n.toNat 0 0 0).1 :=
    slotScan_first (scanAt_start hpos) fun a b _ => Nat.zero_le a
  have hreads : Within m (scanned m.flag size.toNat m.n.toNat 0 0) := scanned_within m (by omega)
  rw [show 8 * m.n.toNat = m.size from Nat.mul_comm _ _] at hscan
  cases hr : slotScan m.flag size.toNat m.n.toNat 0 0 0 with
  | mk offset empty =>
      rw [hr] at hscan hfirst
      dsimp only at hscan hfirst ⊢
      rcases hscan with ⟨hlong, hrun⟩ | ⟨hshort, hnone⟩
      · dsimp only at hlong hrun
        have hend := hrun.bound
        have hmark := markFlag_within m (fun mask x => x ||| mask) 0xff
          (show offset + size.toNat < 2147483648 by omega)
        have happ : Within m (scanned m.flag size.toNat m.n.toNat 0 0
            ++ touched (markUsedFlag offset size.toNat)) ↔ offset + size.toNat < m.size := by
          rw [← hmark]
          exact ⟨fun hall x hx => hall x (List.mem_append_right _ hx), fun hall x hx =>
            (List.mem_append.mp hx).elim (hreads x) (hall x)⟩
        rw [if_pos hlong, happ]
        constructor
        · rintro hlt ⟨-, -, hall⟩
          have := hall _ _ hrun
          omega
        · intro hnot
          by_contra hge
          refine hnot ⟨hpos, ⟨_, _, hrun⟩, ?_⟩
          intro a b hab
          have := hfirst a b hab
          have := hab.long
          have := hab.bound
          omega
      · dsimp only at hshort hnone
        rw [if_neg (Nat.not_le.mpr hshort), List.append_nil]
        refine iff_of_true hreads ?_
        rintro ⟨-, ⟨a, b, hab⟩, -⟩
        exact hnone a b hab

theorem slotFreeTouched_within (m : MemSlot) {offset size : BitVec 32}
    (hin : InSlot m.n offset size) :
    Within m (slotFreeTouched m offset size) ↔ offset.toNat + size.toNat < m.size := by
  obtain ⟨hoff, hsize, hgood⟩ := inSlot_ints m hin
  have hlt := m.size_lt
  have hint : offset.toNat + size.toNat < 2147483648 := by
    have : offset.toNat + size.toNat ≤ m.size := hin
    omega
  rw [slotFreeTouched, if_neg hgood, hoff, hsize]
  exact markFlag_within m _ _ hint

/-- `slot_alloc` touches bytes of `flag` only, exactly unless the one run that it can take
ends with the slot; and so does `slot_free` of a range in the slot, exactly if the range
ends before the last flag does. A range that ends with the slot has the byte behind it
touched. -/
theorem slot_touched_iff (m : MemSlot) :
    (∀ size, Within m (slotAllocTouched m size) ↔ ¬(1 ≤ size.toNat ∧ OnlyAtEnd m size.toNat))
      ∧ ∀ offset size, InSlot m.n offset size → 1 ≤ size.toNat →
        (Within m (slotFreeTouched m offset size) ↔ offset.toNat + size.toNat < m.n.toNat * 8) :=
  ⟨slotAllocTouched_within m, fun _ _ hin _ => slotFreeTouched_within m hin⟩

/-- The only byte of a slot is taken, and given back: `flag[1]` is touched both times. -/
theorem slot_touches_behind : ∃ m, slotNew (some fun _ => 0xff) 1 = some m
    ∧ slotAllocTouched m 8 = [0, 0, 1] ∧ ¬Within m (slotAllocTouched m 8)
    ∧ InSlot m.n 0 8 ∧ ¬Within m (slotFreeTouched m 0 8) := by
  have hout : ∀ {m : MemSlot} {xs : List Int}, m.n = 1 → 1 ∈ xs → ¬Within m xs := by
    intro m xs hn hmem hall
    have := (hall 1 hmem).2
    rw [hn] at this
    exact absurd this (by decide)
  have halloc : slotAllocTouched ⟨1, fun i => if 0 ≤ i ∧ i < 1 then 0 else 0xff⟩ 8 = [0, 0, 1] := by
    decide
  refine ⟨_, rfl, halloc, ?_, ?_, ?_⟩
  · exact hout rfl (halloc ▸ by decide)
  · exact show 0 + 8 ≤ 1 * 8 by decide
  · exact hout rfl (by decide)

/-! ## Ranges outside the slot -/

/-- The slot as it lies in memory: the byte before `flag` is `n`. -/
def MemSlot.laid (m : MemSlot) : MemSlot :=
  { m with flag := Function.update m.flag (-1) m.n }

/-- `slot_free` returns, and `n` and every byte of `flag` are as before. -/
def FreeLeaves (m : MemSlot) (offset size : BitVec 32) : Prop :=
  ∃ m', slotFree (some m.laid) offset size = .ok (some m')
    ∧ ∀ x : Int, -1 ≤ x → x < m.n.toNat → m'.flag x = m.laid.flag x

/-- The guard of `slot_free`. -/
def FreeRejects (m : MemSlot) (offset size : BitVec 32) : Prop :=
  offset.toInt > m.size ∨ (offset + size).toNat > m.size

/-- What the guard lets through though it is not in the slot: a range whose end has wrapped
to before its start, or one that starts before the slot. -/
theorem free_outside (m : MemSlot) {offset size : BitVec 32}
    (hout : ¬(0 ≤ offset.toInt ∧ offset.toInt + size.toNat ≤ m.size))
    (hpass : ¬FreeRejects m offset size) :
    (∃ o : Nat, offset.toInt = o ∧ (offset + size).toNat < o ∧ o ≤ m.size
        ∧ size.toInt = ((offset + size).toNat : Int) - o)
      ∨ (offset.toInt < 0 ∧ size.toNat < 2147483648
        ∧ size.toInt = (offset + size).toNat - offset.toInt)
      ∨ offset.toInt < 0 ∧ 2147483648 ≤ size.toNat
        ∧ offset.toInt + size.toInt < -2147483648 := by
  have hlt := m.size_lt
  rw [FreeRejects, not_or, Int.not_lt, Nat.not_lt] at hpass
  obtain ⟨h1, h2⟩ := hpass
  have ho := offset.isLt
  have hs := size.isLt
  rw [BitVec.toNat_add] at h2 ⊢
  rw [BitVec.toInt_eq_toNat_cond] at hout h1 ⊢
  rw [BitVec.toInt_eq_toNat_cond]
  by_cases hneg : 2 * offset.toNat < 2 ^ 32
  · rw [if_pos hneg] at hout h1 ⊢
    refine .inl ⟨offset.toNat, rfl, ?_⟩
    split <;> omega
  · rw [if_neg hneg] at hout h1 ⊢
    refine .inr ?_
    split <;> omega

/-- Marking with the end before the start, in an earlier byte, gives the value to the flags
that follow the start in its byte and to those before the end in its own. -/
theorem markFlag_back {edge : BitVec 8 → BitVec 8 → BitVec 8} {fill : BitVec 8} {v : Bool}
    (hm : SetsFlags edge fill v) {o o0 : Nat} (hlt : o0 < o) (hint : o < 2147483648) :
    ∃ ts, markFlag edge fill o ((o0 : Int) - o) = .ok ts
      ∧ (∀ flag x, x < 0 → applyTouches flag ts x = flag x)
      ∧ ∀ flag p, bitAt (applyTouches flag ts) p
          = if o0 / 8 ≠ o / 8 ∧ (o ≤ p ∧ p / 8 = o / 8 ∨ p < o0 ∧ p / 8 = o0 / 8) then v
            else bitAt flag p := by
  obtain ⟨ts, hts, hneg, hbits⟩ :=
    hm.marks (show (o : Int) + ((o0 : Int) - o) = o0 by omega) (hlt.trans hint)
  refine ⟨ts, hts, hneg, ?_⟩
  intro flag p
  refine (hbits flag p).trans (if_congr ?_ rfl rfl)
  omega

/-- Clearing from before the slot on either shifts by a negative number or clears the byte
before `flag`, which is `n`. -/
theorem markFreeFlag_before {o len : Int} (hneg : o < 0) (hend : 0 ≤ o + len)
    (hint : o + len < 2147483648) :
    (o.tmod 8 < 0 ∧ markFreeFlag o len = .error .shift)
      ∨ o.tmod 8 = 0 ∧ ∃ ts, markFreeFlag o len = .ok ts
        ∧ ∀ flag, applyTouches flag ts (-1) = 0 := by
  have hfit : ¬(o + len < -2147483648 ∨ 2147483648 ≤ o + len) := by omega
  obtain ⟨k, rfl⟩ : ∃ k : Nat, o = -k := ⟨o.natAbs, by omega⟩
  have htmod : (-(k : Int)).tmod 8 = -(k % 8 : Nat) := by rw [Int.neg_tmod, natCast_tmod]
  have htdiv : (-(k : Int)).tdiv 8 = -(k / 8 : Nat) := by rw [Int.neg_tdiv, natCast_tdiv]
  obtain ⟨o0, ho0⟩ := Int.eq_ofNat_of_zero_le hend
  rw [ho0] at hfit
  simp only [markFreeFlag, markFlag, ho0, if_neg hfit, natCast_tdiv, htdiv]
  by_cases hmod : (-(k : Int)).tmod 8 < 0
  · exact .inl ⟨hmod, if_pos hmod⟩
  · have hzero : (-(k : Int)).tmod 8 = 0 := by omega
    have hmask : headMask (-(k : Int)) = 0xff := by
      rw [headMask, hzero]
      rfl
    have hne : -((k / 8 : Nat) : Int) ≠ (o0 / 8 : Nat) := by omega
    refine .inr ⟨hzero, ?_⟩
    rw [if_neg hmod, if_neg hne, hmask]
    refine ⟨_, rfl, ?_⟩
    intro flag
    rw [applyTouches_cons, applyTouches_cons, applyTouches_fill]
    split
    · rfl
    · have hlast : -((k / 8 : Nat) : Int) = -1 := by omega
      rw [Touch.apply_of_ne _ _ (by dsimp only; omega), hlast]
      exact (Touch.apply_self ..).trans (by simp)

theorem bytes_eq_iff (flag flag' : Int → BitVec 8) (n : Nat) :
    (∀ x : Int, 0 ≤ x → x < n → flag' x = flag x)
      ↔ ∀ p < n * 8, bitAt flag' p = bitAt flag p := by
  constructor
  · intro hbytes p hp
    rw [bitAt, bitAt, hbytes (p / 8 : Nat) (by omega) (by omega)]
  · intro hbits x hx hxn
    obtain ⟨i, rfl⟩ := Int.eq_ofNat_of_zero_le hx
    refine BitVec.eq_of_getMsbD_eq fun k hk => ?_
    have := hbits (8 * i + k) (by omega)
    rwa [bitAt_byte _ _ hk, bitAt_byte _ _ hk] at this

/-- When a call of `slot_free` for a range outside the slot does no harm: the guard
rejects it; or its end has wrapped to before its start, and lies in the same byte, or
the flags that are cleared in the two bytes are clear; or the slot is empty, and the
range starts at a whole byte before it. -/
def FreeHarmless (m : MemSlot) (offset size : BitVec 32) : Prop :=
  FreeRejects m offset size
    ∨ (0 ≤ offset.toInt ∧ ((offset + size).toNat / 8 = offset.toNat / 8
      ∨ Clear m.flag offset.toNat (min (8 * (offset.toNat / 8 + 1)) m.size)
        ∧ Clear m.flag (8 * ((offset + size).toNat / 8)) (offset + size).toNat))
    ∨ offset.toInt < 0 ∧ m.n = 0 ∧ offset.toInt.tmod 8 = 0 ∧ size.toNat < 2147483648

theorem laid_flag (m : MemSlot) : m.laid.flag = Function.update m.flag (-1) m.n := rfl

theorem laid_n (m : MemSlot) : m.laid.flag (-1) = m.n := by
  rw [laid_flag, Function.update_self]

theorem laid_bitAt (m : MemSlot) (p : Nat) : bitAt m.laid.flag p = bitAt m.flag p := by
  have hne : ((p / 8 : Nat) : Int) ≠ -1 := by omega
  rw [bitAt, bitAt, laid_flag, Function.update_of_ne hne]

theorem slotFree_of_pass (m : MemSlot) {offset size : BitVec 32}
    (hpass : ¬FreeRejects m offset size) : slotFree (some m.laid) offset size
      = (markFreeFlag offset.toInt size.toInt >>= fun ts =>
        .ok (some { m.laid with flag := applyTouches m.laid.flag ts })) := by
  rw [slotFree]
  exact if_neg hpass

/-- A range whose end has wrapped: freeing it leaves the slot exactly if it is all in one
byte, or what it clears is clear. -/
theorem freeLeaves_wrapped (m : MemSlot) {offset size : BitVec 32} {o : Nat}
    (hpass : ¬FreeRejects m offset size) (ho : offset.toInt = o) (hlt : (offset + size).toNat < o)
    (hle : o ≤ m.size) (hlen : size.toInt = ((offset + size).toNat : Int) - o) :
    FreeLeaves m offset size ↔ ((offset + size).toNat / 8 = o / 8
      ∨ Clear m.flag o (min (8 * (o / 8 + 1)) m.size)
        ∧ Clear m.flag (8 * ((offset + size).toNat / 8)) (offset + size).toNat) := by
  have hsize := m.size_lt
  obtain ⟨ts, hts, hneg, hbits⟩ := markFlag_back setsFlags_free hlt (by omega)
  have hrun : slotFree (some m.laid) offset size
      = .ok (some { m.laid with flag := applyTouches m.laid.flag ts }) := by
    rw [slotFree_of_pass m hpass, markFreeFlag, ho, hlen, hts]
    rfl
  have hsame : FreeLeaves m offset size
      ↔ ∀ p < m.n.toNat * 8, bitAt (applyTouches m.laid.flag ts) p = bitAt m.laid.flag p := by
    rw [← bytes_eq_iff]
    constructor
    · rintro ⟨m', hm', hall⟩ x hx hxn
      rw [hrun] at hm'
      cases hm'
      exact hall x (by omega) hxn
    · intro hall
      refine ⟨_, hrun, ?_⟩
      intro x hx hxn
      by_cases hx0 : x < 0
      · exact hneg _ x hx0
      · exact hall x (by omega) hxn
  generalize (offset + size).toNat = o0 at *
  have hn : m.size = m.n.toNat * 8 := rfl
  simp only [hsame, hbits, laid_bitAt]
  constructor
  · intro hall
    by_cases heq : o0 / 8 = o / 8
    · exact .inl heq
    · refine .inr ⟨?_, ?_⟩
      · intro p hp hp'
        rw [← hall p (by omega), if_pos ⟨heq, .inl ⟨hp, by omega⟩⟩]
      · intro p hp hp'
        rw [← hall p (by omega), if_pos ⟨heq, .inr ⟨hp', by omega⟩⟩]
  · intro hharmless p hp
    split
    · rename_i hin
      rcases hharmless with heq | ⟨hstart, hend⟩
      · exact absurd heq hin.1
      · rcases hin.2 with ⟨hop, hbyte⟩ | ⟨hop, hbyte⟩
        · exact (hstart p hop (by omega)).symm
        · exact (hend p (by omega) hop).symm
    · rfl

/-- A range that starts before the slot: the byte that is cleared holds `n`, so only an
empty slot is left as it is. -/
theorem freeLeaves_before (m : MemSlot) {offset size : BitVec 32}
    (hpass : ¬FreeRejects m offset size) (hneg : offset.toInt < 0)
    (hlen : size.toInt = (offset + size).toNat - offset.toInt) :
    FreeLeaves m offset size ↔ m.n = 0 ∧ offset.toInt.tmod 8 = 0 := by
  have hsize := m.size_lt
  have hsum : (offset + size).toNat ≤ m.size := Nat.le_of_not_lt fun h => hpass (.inr h)
  have hend : offset.toInt + size.toInt = (offset + size).toNat := by omega
  have hrun := slotFree_of_pass m hpass
  rcases markFreeFlag_before hneg (by rw [hend]; omega) (by rw [hend]; omega) with
    ⟨hmod, hts⟩ | ⟨hmod, ts, hts, hbyte⟩
  · rw [hts] at hrun
    refine iff_of_false ?_ (fun h => by omega)
    rintro ⟨m', hm', -⟩
    rw [hrun] at hm'
    cases hm'
  · rw [hts] at hrun
    constructor
    · rintro ⟨m', hm', hall⟩
      rw [hrun] at hm'
      cases hm'
      have hn := hall (-1) (Int.le_refl _) (by omega)
      exact ⟨(laid_n m).symm.trans (hn.symm.trans (hbyte _)), hmod⟩
    · rintro ⟨hn, -⟩
      refine ⟨_, hrun, ?_⟩
      intro x hx hxn
      rw [hn] at hxn
      obtain rfl : x = -1 := by
        have : x < 0 := hxn
        omega
      exact (hbyte _).trans (hn.symm.trans (laid_n m).symm)

/-- `slot_free` of a range outside the slot leaves the slot exactly in these cases: where
the guard does not reject the range, what is written by accident must already be there. -/
theorem slotFree_leaves_iff (m : MemSlot) {offset size : BitVec 32}
    (hout : ¬(0 ≤ offset.toInt ∧ offset.toInt + size.toNat ≤ m.size)) :
    FreeLeaves m offset size ↔ FreeHarmless m offset size := by
  by_cases hrej : FreeRejects m offset size
  · refine iff_of_true ⟨m.laid, ?_, fun _ _ _ => rfl⟩ (.inl hrej)
    rw [slotFree]
    exact if_pos hrej
  rcases free_outside m hout hrej with ⟨o, ho, hlt, hle, hlen⟩ | ⟨hneg, hsmall, hlen⟩
      | ⟨hneg, hlarge, hover⟩
  · have hoff : offset.toNat = o := by
      have := BitVec.toInt_eq_toNat_cond offset
      split at this <;> omega
    rw [freeLeaves_wrapped m hrej ho hlt hle hlen, FreeHarmless, hoff]
    constructor
    · exact fun h => .inr (.inl ⟨by omega, h⟩)
    · rintro (h | ⟨-, h⟩ | ⟨h, -⟩)
      · exact absurd h hrej
      · exact h
      · omega
  · rw [freeLeaves_before m hrej hneg hlen]
    constructor
    · rintro ⟨hn, hmod⟩
      exact .inr (.inr ⟨hneg, hn, hmod, hsmall⟩)
    · rintro (h | ⟨h, -⟩ | ⟨-, hn, hmod, -⟩)
      · exact absurd h hrej
      · omega
      · exact ⟨hn, hmod⟩
  · refine iff_of_false ?_ ?_
    · rintro ⟨m', hm', -⟩
      rw [slotFree_of_pass m hrej, markFreeFlag, markFlag] at hm'
      simp only [if_pos (Or.inl hover)] at hm'
      cases hm'
    · rintro (h | ⟨h, -⟩ | ⟨-, -, -, h⟩)
      · exact hrej h
      · omega
      · omega

/-- Freeing what a failed `slot_alloc` has answered, an offset of -1, does no harm. -/
theorem slotFree_leaves_iff_failed :
    FreeLeaves ⟨1, fun _ => 0⟩ (-1) 1 ↔ FreeHarmless ⟨1, fun _ => 0⟩ (-1) 1 :=
  slotFree_leaves_iff _ (by decide)

/-- The 8 flags before those of a slot are freed: `n` is the byte that is cleared. -/
theorem slotFree_clears_n : ¬(0 ≤ (-8 : BitVec 32).toInt
    ∧ (-8 : BitVec 32).toInt + (8 : BitVec 32).toNat ≤ (⟨1, fun _ => 0⟩ : MemSlot).size)
    ∧ (∃ m', slotFree (some (MemSlot.laid ⟨1, fun _ => 0⟩)) (-8) 8 = .ok (some m')
      ∧ m'.flag (-1) = 0) ∧ ¬FreeLeaves ⟨1, fun _ => 0⟩ (-8) 8 := by
  refine ⟨by decide, ⟨_, rfl, rfl⟩, ?_⟩
  rintro ⟨m', hm', hall⟩
  cases hm'
  exact absurd (hall (-1) (by decide) (by decide)) (by decide)

end Artorias
