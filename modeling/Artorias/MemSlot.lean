import Mathlib.Data.BitVec
import Mathlib.Logic.Function.Basic

/-!
# The slot allocator (`mem_slot.c`)

A slot is a row of `8 * n` flags, eight to a byte with the highest bit first.
`slot_alloc` looks at one byte at a time, and of a byte that is not 0 only at
the zeros before its first and behind its last set bit.

The marking functions are lists of byte accesses (`Touch`); which flags they
change is `markFlag_spec`.
-/

namespace Artorias

inductive SlotFault where
  /-- `0xff >> x` with a negative `x`. -/
  | shift
  /-- A sum that is no `int`. -/
  | overflow
deriving Repr, DecidableEq

/-- `as_mem_slot_t`; `flag` is the memory around that field, of which the
first `n` bytes are the flags. -/
structure MemSlot where
  n : BitVec 8
  flag : Int → BitVec 8

/-- `SLOT_SIZE` -/
def MemSlot.size (s : MemSlot) : Nat := s.n.toNat * 8

/-- Flag `p`. -/
def bitAt (flag : Int → BitVec 8) (p : Nat) : Bool := (flag (p / 8 : Nat)).getMsbD (p % 8)

/-! ## Bits of a byte -/

/-- `bits_cl0_u8` -/
def bitsCl0U8 (x : BitVec 8) : Nat :=
  let (n, x) := if x &&& 0xf0 ≠ 0 then (7 - 4, x >>> 4) else (7, x)
  let (n, x) := if x &&& 0xc ≠ 0 then (n - 2, x >>> 2) else (n, x)
  if x &&& 0x2 ≠ 0 then n - 1 else n

/-- `bits_ct0_u8` -/
def bitsCt0U8 (x : BitVec 8) : Nat :=
  let (n, x) := if x &&& 0xf = 0 then (4, x >>> 4) else (0, x)
  let (n, x) := if x &&& 0x3 = 0 then (n + 2, x >>> 2) else (n, x)
  if x &&& 0x1 = 0 then n + 1 else n

theorem bitsCl0U8_spec : ∀ x : BitVec 8, x ≠ 0 → bitsCl0U8 x < 8
    ∧ x.getMsbD (bitsCl0U8 x) = true ∧ ∀ k < bitsCl0U8 x, x.getMsbD k = false := by
  decide +kernel

theorem bitsCt0U8_spec : ∀ x : BitVec 8, x ≠ 0 → bitsCt0U8 x < 8
    ∧ x.getMsbD (7 - bitsCt0U8 x) = true ∧ ∀ k < 8, 8 - bitsCt0U8 x ≤ k → x.getMsbD k = false := by
  decide +kernel

/-! ## Marking -/

/-- The access `flag[index] = upd(flag[index])`. -/
structure Touch where
  index : Int
  upd : BitVec 8 → BitVec 8

def Touch.apply (flag : Int → BitVec 8) (t : Touch) : Int → BitVec 8 :=
  Function.update flag t.index (t.upd (flag t.index))

def applyTouches (flag : Int → BitVec 8) (ts : List Touch) : Int → BitVec 8 :=
  ts.foldl Touch.apply flag

/-- `0xff >> (offset % 8)` -/
def headMask (offset : Int) : BitVec 8 := 0xff#8 >>> (offset.tmod 8).toNat

/-- `0xff << (8 - offset0 % 8)` -/
def tailMask (offset0 : Int) : BitVec 8 := 0xff#8 <<< (8 - offset0.tmod 8).toNat

/-- The accesses of the two marking functions: `edge mask` at the ends of the
range and `fill` in the bytes between. -/
def markFlag (edge : BitVec 8 → BitVec 8 → BitVec 8) (fill : BitVec 8) (offset len : Int) :
    Except SlotFault (List Touch) :=
  let offset0 := offset + len
  let i := offset.tdiv 8
  let i0 := offset0.tdiv 8
  if offset0 < -2147483648 ∨ 2147483648 ≤ offset0 then .error .overflow
  else if offset.tmod 8 < 0 then .error .shift
  else if i = i0 then .ok [⟨i, edge (headMask offset &&& tailMask offset0)⟩]
  else .ok (⟨i, edge (headMask offset)⟩ :: ⟨i0, edge (tailMask offset0)⟩
    :: (List.range (i0 - (i + 1)).toNat).map fun (j : Nat) => ⟨i + 1 + j, fun _ => fill⟩)

/-- `mark_used_flag` -/
def markUsedFlag (offset len : Int) : Except SlotFault (List Touch) :=
  markFlag (fun mask x => x ||| mask) 0xff offset len

/-- `mark_free_flag` -/
def markFreeFlag (offset len : Int) : Except SlotFault (List Touch) :=
  markFlag (fun mask x => x &&& ~~~mask) 0 offset len

/-! ## The functions -/

/-- `slot_new`; `malloc` is what the memory holds, or NULL. -/
def slotNew (malloc : Option (Int → BitVec 8)) (n : BitVec 8) : Option MemSlot :=
  match malloc with
  | none => none
  | some mem => some ⟨n, fun i => if 0 ≤ i ∧ i < n.toNat then 0 else mem i⟩

/-- The scan of `slot_alloc`, with `k` bytes from `i` on to go; it answers
`offset` and `empty`. -/
def slotScan (flag : Int → BitVec 8) (size : Nat) : Nat → Nat → Nat → Nat → Nat × Nat
  | 0, _, offset, empty => (offset, empty)
  | k + 1, i, offset, empty =>
      if empty < size then
        if flag i = 0 then slotScan flag size k (i + 1) offset (empty + 8)
        else
          let leading := bitsCl0U8 (flag i)
          if empty + leading ≥ size then slotScan flag size k (i + 1) offset (empty + leading)
          else
            let empty := bitsCt0U8 (flag i)
            slotScan flag size k (i + 1) (i * 8 + (8 - empty)) empty
      else (offset, empty)

/-- `slot_alloc` -/
def slotAlloc (s : Option MemSlot) (size : BitVec 32) :
    Except SlotFault (Option MemSlot × Int) :=
  match s with
  | none => .ok (none, -1)
  | some s =>
      if size.toNat > s.size ∨ size = 0 then .ok (some s, -1)
      else
        let (offset, empty) := slotScan s.flag size.toNat s.n.toNat 0 0 0
        if empty ≥ size.toNat then do
          let touches ← markUsedFlag offset size.toNat
          .ok (some { s with flag := applyTouches s.flag touches }, offset)
        else .ok (some s, -1)

/-- `slot_free` -/
def slotFree (s : Option MemSlot) (offset size : BitVec 32) : Except SlotFault (Option MemSlot) :=
  match s with
  | none => .ok none
  | some s =>
      if offset.toInt > s.size ∨ (offset + size).toNat > s.size then .ok (some s)
      else do
        let touches ← markFreeFlag offset.toInt size.toInt
        .ok (some { s with flag := applyTouches s.flag touches })

/-! ## The flags that are marked -/

theorem applyTouches_cons (flag : Int → BitVec 8) (t : Touch) (ts : List Touch) :
    applyTouches flag (t :: ts) = applyTouches (t.apply flag) ts := rfl

theorem Touch.apply_self (flag : Int → BitVec 8) (t : Touch) :
    t.apply flag t.index = t.upd (flag t.index) := Function.update_self ..

theorem Touch.apply_of_ne (flag : Int → BitVec 8) (t : Touch) {x : Int} (h : x ≠ t.index) :
    t.apply flag x = flag x := Function.update_of_ne h ..

theorem applyTouches_fill (flag : Int → BitVec 8) (fill : BitVec 8) (a : Int) (m : Nat) (x : Int) :
    applyTouches flag ((List.range m).map fun (j : Nat) => ⟨a + j, fun _ => fill⟩) x
      = if a ≤ x ∧ x < a + m then fill else flag x := by
  induction m with
  | zero =>
      rw [if_neg (by omega)]
      rfl
  | succ m ih =>
      rw [List.range_succ, List.map_append, applyTouches, List.foldl_append]
      change Touch.apply _ ⟨a + m, fun _ => fill⟩ x = _
      by_cases hx : x = a + m
      · subst hx
        rw [if_pos (by omega)]
        exact Touch.apply_self ..
      · rw [Touch.apply_of_ne _ _ hx]
        refine ih.trans (if_congr ?_ rfl rfl)
        omega

theorem natCast_tdiv (m : Nat) : (m : Int).tdiv 8 = (m / 8 : Nat) := (Int.ofNat_tdiv m 8).symm

theorem natCast_tmod (m : Nat) : (m : Int).tmod 8 = (m % 8 : Nat) := (Int.ofNat_tmod m 8).symm

theorem getMsbD_headMask (offset : Nat) {k : Nat} (hk : k < 8) :
    (headMask offset).getMsbD k = decide (offset % 8 ≤ k) := by
  have hfin : ∀ a b : Fin 8, (0xff#8 >>> (a : Nat)).getMsbD b = decide (a ≤ b) := by decide +kernel
  rw [headMask, natCast_tmod, Int.toNat_natCast]
  exact hfin ⟨offset % 8, by omega⟩ ⟨k, hk⟩

theorem getMsbD_tailMask (offset0 : Nat) {k : Nat} (hk : k < 8) :
    (tailMask offset0).getMsbD k = decide (k < offset0 % 8) := by
  have hfin : ∀ a b : Fin 8, (0xff#8 <<< (8 - (a : Nat))).getMsbD b = decide (b < a) := by
    decide +kernel
  rw [tailMask, natCast_tmod,
    show (8 - ((offset0 % 8 : Nat) : Int)).toNat = 8 - offset0 % 8 by omega]
  exact hfin ⟨offset0 % 8, by omega⟩ ⟨k, hk⟩

/-- `edge` and `fill` give the flags they are meant for the value `v`, and `edge` leaves the
others of its byte as they are. -/
structure SetsFlags (edge : BitVec 8 → BitVec 8 → BitVec 8) (fill : BitVec 8) (v : Bool) :
    Prop where
  edge : ∀ mask x : BitVec 8, ∀ k < 8,
    (edge mask x).getMsbD k = if mask.getMsbD k then v else x.getMsbD k
  fill : ∀ k < 8, fill.getMsbD k = v

theorem setsFlags_used : SetsFlags (fun mask x => x ||| mask) 0xff true := by
  refine ⟨fun mask x k hk => ?_, by decide⟩
  rw [BitVec.getMsbD_or]
  cases mask.getMsbD k <;> simp

theorem setsFlags_free : SetsFlags (fun mask x => x &&& ~~~mask) 0 false := by
  refine ⟨fun mask x k hk => ?_, by decide⟩
  rw [BitVec.getMsbD_and, BitVec.getMsbD_not]
  cases mask.getMsbD k <;> simp [hk]

section
variable {edge : BitVec 8 → BitVec 8 → BitVec 8} {fill : BitVec 8} {v : Bool} {o o0 : Nat}
  {len : Int}

theorem SetsFlags.bitAt_edge (hm : SetsFlags edge fill v) (flag : Int → BitVec 8) (mask : BitVec 8)
    (i p : Nat) : bitAt (Touch.apply flag ⟨i, edge mask⟩) p
      = if p / 8 = i ∧ mask.getMsbD (p % 8) = true then v else bitAt flag p := by
  by_cases hp : p / 8 = i
  · subst hp
    rw [bitAt, Touch.apply_self flag ⟨(p / 8 : Nat), edge mask⟩,
      hm.edge _ _ _ (Nat.mod_lt _ (by omega))]
    exact if_congr (and_iff_right rfl).symm rfl rfl
  · rw [bitAt, Touch.apply_of_ne _ _ (by dsimp only; omega), if_neg (fun h => hp h.1), bitAt]

theorem SetsFlags.bitAt_fill (hm : SetsFlags edge fill v) (flag : Int → BitVec 8) (i k p : Nat) :
    bitAt (applyTouches flag
      ((List.range k).map fun (j : Nat) => ⟨(i : Int) + 1 + j, fun _ => fill⟩)) p
      = if i < p / 8 ∧ p / 8 ≤ i + k then v else bitAt flag p := by
  rw [bitAt, applyTouches_fill]
  by_cases hp : i < p / 8 ∧ p / 8 ≤ i + k
  · rw [if_pos (by omega), if_pos hp, hm.fill _ (Nat.mod_lt _ (by omega))]
  · rw [if_neg (by omega), if_neg hp, bitAt]

/-- The bytes that a marking function writes: those that hold the ends of the range, which
may be one byte, and those between. The byte behind the end counts as an end also where the
range stops at its first flag. -/
theorem markFlag_touches (edge : BitVec 8 → BitVec 8 → BitVec 8) (fill : BitVec 8)
    (hend : o + len = o0) (hint : o0 < 2147483648) : markFlag edge fill o len
      = .ok (if o / 8 = o0 / 8 then [⟨(o / 8 : Nat), edge (headMask o &&& tailMask o0)⟩]
        else ⟨(o / 8 : Nat), edge (headMask o)⟩ :: ⟨(o0 / 8 : Nat), edge (tailMask o0)⟩
          :: (List.range (o0 / 8 - (o / 8 + 1))).map fun (j : Nat) =>
            ⟨(o / 8 : Nat) + 1 + j, fun _ => fill⟩) := by
  have hmod : ¬(o : Int).tmod 8 < 0 := by
    rw [natCast_tmod]
    omega
  have hfit : ¬((o0 : Int) < -2147483648 ∨ 2147483648 ≤ (o0 : Int)) := by omega
  have hcount : ((o0 / 8 : Nat) - ((o / 8 : Nat) + 1) : Int).toNat = o0 / 8 - (o / 8 + 1) := by
    omega
  simp only [markFlag, hend, natCast_tdiv, if_neg hfit, if_neg hmod, hcount, Int.natCast_inj]
  split <;> rfl

/-- What these writes make of each flag: in the bytes of the ends the flags of the mask get
the value, in the bytes between all do; and nothing is written before the first byte. -/
theorem SetsFlags.marks (hm : SetsFlags edge fill v) (hend : o + len = o0)
    (hint : o0 < 2147483648) :
    ∃ ts, markFlag edge fill o len = .ok ts
      ∧ (∀ flag x, x < 0 → applyTouches flag ts x = flag x)
      ∧ ∀ flag p, bitAt (applyTouches flag ts) p
          = if (p / 8 = o / 8 → o ≤ p) ∧ (p / 8 = o0 / 8 → p < o0)
              ∧ (p / 8 = o / 8 ∨ o / 8 < p / 8 ∧ p / 8 < o0 / 8 ∨ p / 8 = o0 / 8) then v
            else bitAt flag p := by
  refine ⟨_, markFlag_touches edge fill hend hint, ?_, ?_⟩
  · intro flag x hx
    split
    · exact Touch.apply_of_ne _ _ (by dsimp only; omega)
    · rw [applyTouches_cons, applyTouches_cons, applyTouches_fill, if_neg (by omega),
        Touch.apply_of_ne _ _ (by dsimp only; omega), Touch.apply_of_ne _ _ (by dsimp only; omega)]
  · intro flag p
    have hk : p % 8 < 8 := Nat.mod_lt _ (by omega)
    by_cases heq : o / 8 = o0 / 8
    · -- the two masks meet
      rw [if_pos heq]
      refine (hm.bitAt_edge flag _ _ p).trans (if_congr ?_ rfl rfl)
      rw [BitVec.getMsbD_and, getMsbD_headMask _ hk, getMsbD_tailMask _ hk, Bool.and_eq_true,
        decide_eq_true_eq, decide_eq_true_eq]
      omega
    · rw [if_neg heq, applyTouches_cons, applyTouches_cons, hm.bitAt_fill, hm.bitAt_edge,
        hm.bitAt_edge, getMsbD_headMask _ hk, getMsbD_tailMask _ hk, ← ite_or, ← ite_or]
      refine if_congr ?_ rfl rfl
      rw [decide_eq_true_eq, decide_eq_true_eq]
      omega

end

/-- Marking a range gives its flags the value `v` and no other flag, as long as its end fits
in an `int`. -/
theorem markFlag_spec {edge : BitVec 8 → BitVec 8 → BitVec 8} {fill : BitVec 8} {v : Bool}
    (hm : SetsFlags edge fill v) {offset len : Nat} (hint : offset + len < 2147483648) :
    ∃ ts, markFlag edge fill offset len = .ok ts
      ∧ (∀ flag x, x < 0 → applyTouches flag ts x = flag x)
      ∧ ∀ flag p, bitAt (applyTouches flag ts) p
          = if offset ≤ p ∧ p < offset + len then v else bitAt flag p := by
  obtain ⟨ts, hts, hneg, hbits⟩ := hm.marks (Int.natCast_add offset len).symm hint
  refine ⟨ts, hts, hneg, ?_⟩
  intro flag p
  refine (hbits flag p).trans (if_congr ?_ rfl rfl)
  omega

end Artorias
