import Mathlib.Data.Nat.Log
import Mathlib.Logic.Function.Basic
import Artorias.BuddyTree

/-!
# The buddy allocator (`mem_buddy.c`)

`longest` is an implicit binary tree: the entry of a node is one more than the
logarithm of the largest block that can be taken below it, or 0. A taken block
has the entry 0 at its own node, and what is below it stays as it was.

Entries are `uint8_t` and indices `unsigned`; up to `logn = 29` none of them
overflows.
-/

namespace Artorias

inductive BuddyFault where
  /-- `longest[index]` is outside the array. -/
  | outside (index : Nat)
  | endless
deriving Repr, DecidableEq

@[simp] theorem exceptBind_ok {ε α β : Type} (a : α) (f : α → Except ε β) :
    ((Except.ok a : Except ε α) >>= f) = f a := rfl

@[simp] theorem exceptBind_error {ε α β : Type} (e : ε) (f : α → Except ε β) :
    ((Except.error e : Except ε α) >>= f) = .error e := rfl

/-- `as_mem_buddy_t`; `longest` is the memory from that field on, and the
array is the first `2 ^ (logn + 1) - 1` bytes of it. -/
structure MemBuddy where
  logn : Nat
  longest : Nat → Nat

/-! ## Macros -/

/-- `PARENT` -/
def parent (x : Nat) : Nat := (x + 1) / 2 - 1

/-- `LEFT_CHILD` -/
def leftChild (x : Nat) : Nat := x * 2 + 1

/-- `RIGHT_CHILD` -/
def rightChild (x : Nat) : Nat := x * 2 + 2

/-- `IS_POWER_OF_2` -/
def isPowerOf2 (x : Nat) : Bool := x &&& (x - 1) == 0

/-- `NODE_SIZE` -/
def nodeSize (x : Nat) : Nat := if x = 0 then 0 else 1 <<< (x - 1)

/-- `BUDDY_SIZE` -/
def MemBuddy.size (b : MemBuddy) : Nat := 1 <<< b.logn

/-- `fix_size` -/
def fixSize (size : BitVec 32) : BitVec 32 :=
  let size := size ||| size >>> 1
  let size := size ||| size >>> 2
  let size := size ||| size >>> 4
  let size := size ||| size >>> 8
  let size := size ||| size >>> 16
  size + 1

namespace MemBuddy

def read (b : MemBuddy) (index : Nat) : Except BuddyFault Nat :=
  if index < 2 * b.size - 1 then .ok (b.longest index) else .error (.outside index)

def write (b : MemBuddy) (index v : Nat) : Except BuddyFault MemBuddy :=
  if index < 2 * b.size - 1 then .ok { b with longest := Function.update b.longest index v }
  else .error (.outside index)

end MemBuddy

/-! ## The functions -/

/-- The loop of `buddy_new`; `n` turns are left. -/
def buddyNewLoop : Nat → Nat → Nat → (Nat → Nat) → Nat → Nat
  | 0, _, _, longest => longest
  | n + 1, i, nodeLogn, longest =>
      let nodeLogn := if isPowerOf2 (i + 1) then nodeLogn - 1 else nodeLogn
      buddyNewLoop n (i + 1) nodeLogn (Function.update longest i (nodeLogn + 1))

/-- `buddy_new`; `malloc` is what the memory holds, or NULL. -/
def buddyNew (malloc : Option (Nat → Nat)) (logn : Nat) : Option MemBuddy :=
  match malloc with
  | none => none
  | some mem =>
      let b : MemBuddy := ⟨logn, mem⟩
      some { b with longest := buddyNewLoop (2 * b.size - 1) 0 (logn + 1) mem }

/-- `for (node_size = BUDDY_SIZE(b); node_size != size; node_size /= 2)` -/
def descendLoop (b : MemBuddy) (size : Nat) :
    Nat → Nat → Nat → Except BuddyFault (Nat × Nat)
  | 0, _, _ => .error .endless
  | k + 1, nsize, index =>
      if nsize = size then .ok (nsize, index)
      else do
        let left ← b.read (leftChild index)
        if nodeSize left ≥ size then descendLoop b size k (nsize / 2) (leftChild index)
        else descendLoop b size k (nsize / 2) (rightChild index)

/-- `while (index)`: go up and put `top node_logn left right` at each node,
where the two are the entries of its halves. -/
def climbLoop (top : Nat → Nat → Nat → Nat) :
    Nat → MemBuddy → Nat → Nat → Except BuddyFault MemBuddy
  | _, b, 0, _ => .ok b
  | 0, _, _ + 1, _ => .error .endless
  | k + 1, b, index + 1, nodeLogn => do
      let index := parent (index + 1)
      let nodeLogn := nodeLogn + 1
      let left ← b.read (leftChild index)
      let right ← b.read (rightChild index)
      let b ← b.write index (top nodeLogn left right)
      climbLoop top k b index nodeLogn

/-- `MAX` of the halves, as `buddy_alloc` has it. -/
def allocTop (_ left right : Nat) : Nat := max left right

/-- The test of `buddy_free` on the way up. -/
def freeTop (nodeLogn left right : Nat) : Nat :=
  if left = right ∧ left = nodeLogn then nodeLogn else max left right

/-- `buddy_alloc` -/
def buddyAlloc (b : Option MemBuddy) (size : BitVec 32) :
    Except BuddyFault (Option MemBuddy × Int) :=
  match b with
  | none => .ok (none, -1)
  | some b => do
      let size := if isPowerOf2 size.toNat then size else fixSize size
      let longest ← b.read 0
      if nodeSize longest < size.toNat then .ok (some b, -1)
      else do
        let (nsize, index) ← descendLoop b size.toNat (b.logn + 2) b.size 0
        let b' ← b.write index 0
        let offset : Int := (index + 1) * nsize - b.size
        let b' ← climbLoop allocTop index b' index 0
        .ok (some b', offset)

/-- `for (; b->longest[index]; index = PARENT(index))`, with NULL for the
return at the root. -/
def searchLoop (b : MemBuddy) : Nat → Nat → Nat → Except BuddyFault (Option (Nat × Nat))
  | 0, _, _ => .error .endless
  | k + 1, nodeLogn, index => do
      let longest ← b.read index
      if longest = 0 then .ok (some (nodeLogn, index))
      else if index = 0 then .ok none
      else searchLoop b k (nodeLogn + 1) (parent index)

/-- `buddy_free` -/
def buddyFree (b : Option MemBuddy) (offset : BitVec 32) :
    Except BuddyFault (Option MemBuddy) :=
  match b with
  | none => .ok none
  | some b =>
      if offset.toNat ≥ b.size then .ok (some b)
      else do
        let index := offset.toNat + b.size - 1
        match ← searchLoop b (index + 1) 1 index with
        | none => .ok (some b)
        | some (nodeLogn, index) => do
            let b ← b.write index nodeLogn
            let b ← climbLoop freeTop index b index nodeLogn
            .ok (some b)

/-! ## Sizes -/

theorem size_eq (b : MemBuddy) : b.size = 2 ^ b.logn := Nat.one_shiftLeft _

theorem le_nodeSize_iff (k x : Nat) : 2 ^ k ≤ nodeSize x ↔ k < x := by
  rw [nodeSize]
  split
  · have hpos := Nat.two_pow_pos k
    omega
  · rw [Nat.one_shiftLeft, Nat.pow_le_pow_iff_right (by omega)]
    omega

/-- After or-ing with itself shifted by `w`, each bit says whether one of the next `2 * w`
was set in `x`, as it said for the next `w` before: the shifts of `fix_size` double what is
covered. -/
theorem testBit_smear {x y w : Nat}
    (h : ∀ i, y.testBit i = true ↔ ∃ j < w, x.testBit (i + j) = true)
    (i : Nat) : (y ||| y >>> w).testBit i = true ↔ ∃ j < 2 * w, x.testBit (i + j) = true := by
  rw [Nat.testBit_or, Nat.testBit_shiftRight, Bool.or_eq_true, h, h]
  constructor
  · rintro (⟨j, hj, hx⟩ | ⟨j, hj, hx⟩)
    · exact ⟨j, by omega, hx⟩
    · exact ⟨w + j, by omega, by rwa [← Nat.add_assoc, Nat.add_comm i w]⟩
  · rintro ⟨j, hj, hx⟩
    by_cases hlt : j < w
    · exact .inl ⟨j, hlt, hx⟩
    · refine .inr ⟨j - w, by omega, ?_⟩
      rwa [show w + i + (j - w) = i + j by omega]

theorem fixSize_toNat (x : BitVec 32) (hx : x ≠ 0) :
    (fixSize x).toNat = 2 ^ (Nat.log2 x.toNat + 1) % 2 ^ 32 := by
  have hne : x.toNat ≠ 0 := fun h => hx (BitVec.eq_of_toNat_eq h)
  have hlt : Nat.log2 x.toNat < 32 := (Nat.log2_lt hne).mpr x.isLt
  let y1 := x.toNat ||| x.toNat >>> 1
  let y2 := y1 ||| y1 >>> 2
  let y4 := y2 ||| y2 >>> 4
  let y8 := y4 ||| y4 >>> 8
  let y16 := y8 ||| y8 >>> 16
  have h0 : ∀ i, x.toNat.testBit i = true ↔ ∃ j < 1, x.toNat.testBit (i + j) = true := by
    intro i
    constructor
    · exact fun h => ⟨0, by omega, h⟩
    · rintro ⟨j, hj, h⟩
      obtain rfl : j = 0 := by omega
      exact h
  have hsmear : ∀ i, y16.testBit i = true ↔ ∃ j < 32, x.toNat.testBit (i + j) = true :=
    testBit_smear (testBit_smear (testBit_smear (testBit_smear (testBit_smear h0))))
  have hy : y16 = 2 ^ (Nat.log2 x.toNat + 1) - 1 := by
    refine Nat.eq_of_testBit_eq fun i => Bool.eq_iff_iff.mpr ?_
    rw [hsmear, Nat.testBit_two_pow_sub_one, decide_eq_true_eq]
    constructor
    · rintro ⟨j, -, hj⟩
      have := (Nat.le_log2 hne).mpr (Nat.ge_two_pow_of_testBit hj)
      omega
    · intro hi
      refine ⟨Nat.log2 x.toNat - i, by omega, ?_⟩
      rw [Nat.add_sub_cancel' (by omega)]
      exact Nat.testBit_log2 hne
  have hfix : (fixSize x).toNat = (y16 + 1) % 2 ^ 32 := by
    simp only [fixSize, BitVec.toNat_add, BitVec.toNat_or, BitVec.toNat_ushiftRight, y16, y8, y4,
      y2, y1]
    rfl
  rw [hfix, hy, Nat.sub_add_cancel (Nat.one_le_two_pow)]

/-- The block size for a request is the next power of two: what `fix_size` smears is all
ones up to the highest bit, and one is added. -/
theorem roundedSize {size : BitVec 32} (h1 : 1 ≤ size.toNat) (h2 : size.toNat ≤ 2 ^ 31) :
    (if isPowerOf2 size.toNat then size else fixSize size).toNat = 2 ^ Nat.clog 2 size.toNat := by
  have hne : size.toNat ≠ 0 := by omega
  have hpow : isPowerOf2 size.toNat = true ↔ size.toNat.isPowerOfTwo := by
    rw [isPowerOf2, beq_iff_eq, Nat.and_sub_one_eq_zero_iff_isPowerOfTwo hne]
  by_cases hp : size.toNat.isPowerOfTwo
  · rw [if_pos (hpow.mpr hp)]
    obtain ⟨k, hk⟩ := hp
    rw [hk, Nat.clog_pow 2 k (by omega)]
  · rw [if_neg (fun h => hp (hpow.mp h)), fixSize_toNat size fun h => by simp [h] at h1]
    have hlog : 2 ^ Nat.log2 size.toNat ≤ size.toNat := Nat.log2_self_le hne
    have hself : 2 ^ Nat.log2 size.toNat ≠ size.toNat := fun h => hp ⟨_, h.symm⟩
    have hup : size.toNat < 2 ^ (Nat.log2 size.toNat + 1) := Nat.lt_log2_self
    have hclog : Nat.clog 2 size.toNat = Nat.log2 size.toNat + 1 := by
      refine Nat.le_antisymm ((Nat.clog_le_iff_le_pow (by omega)).mpr hup.le) ?_
      exact (Nat.lt_clog_iff_pow_lt (by omega)).mpr (by omega)
    rw [hclog, Nat.mod_eq_of_lt]
    have h31 : Nat.log2 size.toNat < 31 := by
      by_contra hge
      have := Nat.pow_le_pow_right (n := 2) (by omega) (Nat.le_of_not_lt hge)
      omega
    exact Nat.pow_lt_pow_right (by omega) (by omega)

end Artorias
