import Mathlib.Algebra.BigOperators.Group.List.Basic
import Mathlib.Data.BitVec

/-!
# Reading into a chain of blocks (`bytes.c`)

`bytes_read_from_fd` reads until `read` returns 0, each time into a block of
its own, and means to stop as well when `read` returns -1. The count is kept
in a `size_t`, where -1 is not less than 0: the branches for `EAGAIN` and the
other errors are dead, and the loop goes on. `bytesReadFromFd_iff` says when
the call does what it is for.

The kernel is the list of what `read` answers in turn. `memp_alloc` always has
a block.
-/

namespace Artorias

/-- `as_bytes_block_t`; of `d`, what `read` has written. -/
structure BytesBlock where
  size : BitVec 64
  used : BitVec 64
  d : List UInt8
deriving Repr, DecidableEq

/-- `as_bytes_t`; `blocks` is the list from `dl.head` on. -/
structure AsBytes where
  size : BitVec 64
  used : BitVec 64
  cnt : BitVec 32
  blocks : List BytesBlock
deriving Repr, DecidableEq

/-- `dlist_add_to_tail`, with the counters. -/
def AsBytes.add (bs : AsBytes) (b : BytesBlock) : AsBytes :=
  { size := bs.size + b.size
    used := bs.used + b.used
    cnt := bs.cnt + 1
    blocks := bs.blocks ++ [b] }

/-- `bytes_init` -/
def bytesInit : AsBytes := ⟨0, 0, 0, []⟩

/-- `read` gets some bytes, or none at the end, or fails with an `errno`. -/
inductive ReadOutcome where
  | got (bytes : List UInt8)
  | again
  | failed (errno : Nat)
deriving Repr, DecidableEq

/-- The `ssize_t` that `read` returns, as the `size_t` it is stored in. -/
def ReadOutcome.nbyte : ReadOutcome → BitVec 64
  | got bytes => BitVec.ofNat 64 bytes.length
  | again => BitVec.ofInt 64 (-1)
  | failed _ => BitVec.ofInt 64 (-1)

/-- What `read` writes into the block. -/
def ReadOutcome.data : ReadOutcome → List UInt8
  | got bytes => bytes
  | again => []
  | failed _ => []

inductive ReadFault where
  /-- `read` is called once more than there are answers. -/
  | another
deriving Repr, DecidableEq

def maxBlockSize : Nat := 1024

/-- The loop of `bytes_read_from_fd`; with the result come the answers that
are left. -/
def readLoop (bs : AsBytes) (rsize : Nat) (n : BitVec 64) :
    List ReadOutcome → Except ReadFault (AsBytes × BitVec 64 × List ReadOutcome)
  | [] => .error .another
  | o :: outs =>
      let nbyte := o.nbyte
      if nbyte < 0 then
        -- never: the comparison is of a `size_t`
        if o = .again then .ok (bs, n, outs) else .ok (bs, BitVec.ofInt 64 (-1), outs)
      else
        let bs := bs.add ⟨BitVec.ofNat 64 rsize, nbyte, o.data⟩
        let n := n + nbyte
        let rsize := if rsize < maxBlockSize then rsize * 2 else rsize
        if nbyte > 0 then readLoop bs rsize n outs else .ok (bs, n, outs)

/-- `bytes_read_from_fd` -/
def bytesReadFromFd (bs : AsBytes) (outs : List ReadOutcome) :
    Except ReadFault (AsBytes × BitVec 64 × List ReadOutcome) :=
  readLoop bs 64 0 outs

/-! ## What the call is for -/

/-- The bytes in the first `used` of each block. -/
def AsBytes.contents (bs : AsBytes) : List UInt8 := bs.blocks.flatMap fun b => b.d.take b.used.toNat

/-- The three counters agree with the blocks, none of which holds more bytes than it has
room for. -/
structure AsBytes.Ok (bs : AsBytes) : Prop where
  size : bs.size = (bs.blocks.map BytesBlock.size).sum
  used : bs.used = (bs.blocks.map BytesBlock.used).sum
  cnt : bs.cnt.toInt = bs.blocks.length
  fits : ∀ b ∈ bs.blocks, b.used ≤ b.size

/-- `read` answers with what there is, at least one byte and no more than was
asked for. -/
def Answers : Nat → List (List UInt8) → Prop
  | _, [] => True
  | rsize, bytes :: gets =>
      bytes ≠ [] ∧ bytes.length ≤ rsize
        ∧ Answers (if rsize < maxBlockSize then rsize * 2 else rsize) gets

/-- An answer after which nothing more is to be read. -/
def ReadOutcome.Final (o : ReadOutcome) : Prop := o = .got [] ∨ o = .again ∨ ∃ e, o = .failed e

/-- What the call is to return after `gets` and the final answer `o`. -/
def ReadOutcome.result (o : ReadOutcome) (gets : List (List UInt8)) : BitVec 64 :=
  match o with
  | got _ => BitVec.ofNat 64 gets.flatten.length
  | again => BitVec.ofNat 64 gets.flatten.length
  | failed _ => BitVec.ofInt 64 (-1)

/-- The call takes no answer after `last` and returns what `last` makes of the count; the
counters are right, and the bytes are in the blocks, behind those that were there. -/
def ReadsAll (bs : AsBytes) (gets : List (List UInt8)) (last : ReadOutcome)
    (later : List ReadOutcome) : Prop :=
  ∃ bs', bytesReadFromFd bs (gets.map .got ++ last :: later) = .ok (bs', last.result gets, later)
    ∧ bs'.Ok ∧ bs'.contents = bs.contents ++ gets.flatten

/-! ## One answer -/

/-- The loop with its dead branches left out: `read` returns a `ssize_t` that is stored in a
`size_t`, so that -1 is positive and the tests for a negative count never succeed. -/
theorem readLoop_cons (bs : AsBytes) (rsize : Nat) (n : BitVec 64) (o : ReadOutcome)
    (outs : List ReadOutcome) :
    readLoop bs rsize n (o :: outs) =
      if o.nbyte > 0 then
        readLoop (bs.add ⟨BitVec.ofNat 64 rsize, o.nbyte, o.data⟩)
          (if rsize < maxBlockSize then rsize * 2 else rsize) (n + o.nbyte) outs
      else .ok (bs.add ⟨BitVec.ofNat 64 rsize, o.nbyte, o.data⟩, n + o.nbyte, outs) := by
  have hlt : ¬o.nbyte < 0 := BitVec.not_lt_zero
  rw [readLoop]
  exact if_neg hlt

/-- Every answer but the end of the file leads to another call of `read`, an error too: as a
`size_t` it is not 0. -/
theorem nbyte_pos_iff {o : ReadOutcome} (h : o.Final) : o.nbyte > 0 ↔ o ≠ .got [] := by
  rcases h with rfl | rfl | ⟨e, rfl⟩
  · simp [ReadOutcome.nbyte]
  · exact iff_of_true (by decide) (by simp)
  · exact iff_of_true (by decide : BitVec.ofInt 64 (-1) > 0) (by simp)

theorem readLoop_left {bs bs' : AsBytes} {rsize : Nat} {n n' : BitVec 64}
    {outs left : List ReadOutcome} (h : readLoop bs rsize n outs = .ok (bs', n', left)) :
    left.length < outs.length := by
  induction outs generalizing bs rsize n with
  | nil => cases h
  | cons o outs ih =>
      rw [readLoop_cons] at h
      by_cases hpos : o.nbyte > 0
      · rw [if_pos hpos] at h
        exact (ih h).trans (Nat.lt_succ_self _)
      · rw [if_neg hpos] at h
        cases h
        exact Nat.lt_succ_self _

/-! ## The blocks -/

/-- The counters of the list agree with its blocks, `cnt` modulo `2 ^ 32`, and no block has
used more than it has. -/
structure AsBytes.Counted (bs : AsBytes) : Prop where
  size : bs.size = (bs.blocks.map BytesBlock.size).sum
  used : bs.used = (bs.blocks.map BytesBlock.used).sum
  cnt : bs.cnt = BitVec.ofNat 32 bs.blocks.length
  fits : ∀ b ∈ bs.blocks, b.used ≤ b.size

theorem toInt_ofNat_of_lt {n : Nat} (h : n < 2 ^ 31) : (BitVec.ofNat 32 n).toInt = n := by
  rw [BitVec.toInt_eq_toNat_of_lt] <;> rw [BitVec.toNat_ofNat, Nat.mod_eq_of_lt] <;> omega

/-- `cnt` is an `int`, so the counters are right as long as they have been added to fewer
than `2 ^ 31` times. -/
theorem AsBytes.ok_iff {bs : AsBytes} : bs.Ok ↔ bs.Counted ∧ bs.blocks.length < 2 ^ 31 := by
  constructor
  · rintro ⟨hsize, hused, hcnt, hfits⟩
    have hlt : bs.cnt.toInt < 2 ^ 31 := BitVec.toInt_lt
    refine ⟨⟨hsize, hused, BitVec.eq_of_toInt_eq ?_, hfits⟩, by omega⟩
    rw [hcnt]
    exact (toInt_ofNat_of_lt (by omega)).symm
  · rintro ⟨⟨hsize, hused, hcnt, hfits⟩, hlt⟩
    refine ⟨hsize, hused, ?_, hfits⟩
    rw [hcnt]
    exact toInt_ofNat_of_lt hlt

theorem AsBytes.Counted.add {bs : AsBytes} (h : bs.Counted) {b : BytesBlock}
    (hb : b.used ≤ b.size) :
    (bs.add b).Counted where
  size := by simp [AsBytes.add, h.size]
  used := by simp [AsBytes.add, h.used]
  cnt := by simp [AsBytes.add, h.cnt, BitVec.ofNat_add]
  fits := by
    intro c hc
    rcases List.mem_append.mp hc with hc | hc
    · exact h.fits c hc
    · rw [List.mem_singleton.mp hc]
      exact hb

/-- Adding a block with what one call of `read` got keeps the counters, and puts those bytes
behind the others. -/
theorem AsBytes.Counted.addGot {bs : AsBytes} (h : bs.Counted) {rsize : Nat} {bytes : List UInt8}
    (hlen : bytes.length ≤ rsize) (hr : rsize < 2 ^ 64) :
    (bs.add ⟨BitVec.ofNat 64 rsize, BitVec.ofNat 64 bytes.length, bytes⟩).Counted
      ∧ (bs.add ⟨BitVec.ofNat 64 rsize, BitVec.ofNat 64 bytes.length, bytes⟩).contents
        = bs.contents ++ bytes := by
  have hmod : bytes.length % 2 ^ 64 = bytes.length := Nat.mod_eq_of_lt (by omega)
  constructor
  · refine h.add ?_
    rw [BitVec.le_def, BitVec.toNat_ofNat, BitVec.toNat_ofNat, hmod, Nat.mod_eq_of_lt hr]
    exact hlen
  · simp only [AsBytes.contents, AsBytes.add, List.flatMap_append, List.flatMap_singleton,
      BitVec.toNat_ofNat, hmod, List.take_length]

/-- The loop on any answers that are not final: it takes them all, whatever the sizes of the
blocks have grown to, and has their bytes in its blocks when it comes to what follows. -/
theorem readLoop_gets {gets : List (List UInt8)} {bs : AsBytes} {rsize : Nat} (n : BitVec 64)
    (h : bs.Counted) (hr : rsize < 2 * maxBlockSize) (hg : Answers rsize gets)
    (outs : List ReadOutcome) :
    ∃ bs' rsize', rsize' < 2 * maxBlockSize ∧ readLoop bs rsize n (gets.map .got ++ outs)
        = readLoop bs' rsize' (n + BitVec.ofNat 64 gets.flatten.length) outs
      ∧ bs'.Counted ∧ bs'.blocks.length = bs.blocks.length + gets.length
      ∧ bs'.contents = bs.contents ++ gets.flatten := by
  induction gets generalizing bs rsize n with
  | nil => exact ⟨bs, rsize, hr, by simp, h, rfl, by simp⟩
  | cons bytes gets ih =>
      obtain ⟨hne, hlen, hg⟩ := hg
      have hmax : maxBlockSize = 1024 := rfl
      have hpos : (ReadOutcome.got bytes).nbyte > 0 := by
        have hlt : 0 < bytes.length := List.length_pos_of_ne_nil hne
        rw [gt_iff_lt, BitVec.lt_def, ReadOutcome.nbyte, BitVec.toNat_ofNat,
          Nat.mod_eq_of_lt (by omega)]
        exact hlt
      obtain ⟨hadd, hcontents⟩ := h.addGot hlen (by omega)
      obtain ⟨bs', rsize', hr', hrun, h', hblocks, hall⟩ :=
        ih (n + BitVec.ofNat 64 bytes.length) hadd (by split_ifs <;> omega) hg
      refine ⟨bs', rsize', hr', ?_, h', ?_, ?_⟩
      · rw [List.map_cons, List.cons_append, readLoop_cons, if_pos hpos]
        refine hrun.trans ?_
        rw [List.flatten_cons, List.length_append, BitVec.ofNat_add, BitVec.add_assoc]
      · rw [hblocks]
        simp [AsBytes.add]
        omega
      · rw [hall, hcontents, List.flatten_cons, List.append_assoc]

/-- `bytes_read_from_fd` does what it is for exactly when the last answer is the end of the
file, and `cnt` has room for the blocks: a failure, `EAGAIN` included, is taken for a large
count, and the loop reads on. -/
theorem bytesReadFromFd_iff {bs : AsBytes} (h : bs.Ok) {gets : List (List UInt8)}
    (hg : Answers 64 gets) {last : ReadOutcome} (hlast : last.Final) (later : List ReadOutcome) :
    ReadsAll bs gets last later
      ↔ last = .got [] ∧ bs.blocks.length + gets.length + 1 < 2 ^ 31 := by
  obtain ⟨hc, -⟩ := AsBytes.ok_iff.mp h
  obtain ⟨bs1, rsize, hr, hrun, h1, hblocks, hcontents⟩ :=
    readLoop_gets 0 hc (by decide) hg (last :: later)
  rw [ReadsAll, bytesReadFromFd, hrun, readLoop_cons]
  by_cases heof : last = .got []
  · subst heof
    have hmax : maxBlockSize = 1024 := rfl
    obtain ⟨hadd, hsame⟩ :=
      h1.addGot (show ([] : List UInt8).length ≤ rsize from Nat.zero_le rsize) (by omega)
    have hlen : (bs1.add ⟨BitVec.ofNat 64 rsize, BitVec.ofNat 64 0, []⟩).blocks.length
        = bs.blocks.length + gets.length + 1 := by simp [AsBytes.add, hblocks]
    rw [if_neg (by decide)]
    constructor
    · rintro ⟨bs', hret, hok, -⟩
      obtain ⟨rfl, -⟩ := Prod.mk.inj (Except.ok.inj hret)
      refine ⟨rfl, ?_⟩
      rw [← hlen]
      exact (AsBytes.ok_iff.mp hok).2
    · rintro ⟨-, hlt⟩
      refine ⟨_, ?_, AsBytes.ok_iff.mpr ⟨hadd, hlen ▸ hlt⟩, ?_⟩
      · simp [ReadOutcome.nbyte, ReadOutcome.data, ReadOutcome.result]
      · rw [hsame, hcontents, List.append_nil]
  · rw [if_pos ((nbyte_pos_iff hlast).mpr heof)]
    refine iff_of_false ?_ fun h => heof h.1
    rintro ⟨bs', hmore, -⟩
    exact absurd (readLoop_left hmore) (Nat.lt_irrefl _)

theorem bytesInit_ok : bytesInit.Ok := ⟨rfl, rfl, rfl, nofun⟩

/-- Two bytes and then `EAGAIN`: `read` is called again, and the block that
nothing has been read into is in the list. -/
theorem bytesReadFromFd_again :
    ¬∀ (bs : AsBytes), bs.Ok → ∀ gets, Answers 64 gets → ∀ last : ReadOutcome, last.Final →
      ∀ later, ReadsAll bs gets last later := by
  intro hall
  have hg : Answers 64 [[79, 75]] := ⟨by decide, by decide, trivial⟩
  obtain ⟨bs', hrun, -⟩ := hall bytesInit bytesInit_ok _ hg .again (.inr (.inl rfl)) []
  cases hrun

theorem bytesReadFromFd_iff_init :
    ReadsAll bytesInit [[79, 75]] (.got []) []
      ↔ (ReadOutcome.got [] = .got [] ∧ bytesInit.blocks.length + 1 + 1 < 2 ^ 31) :=
  have hg : Answers 64 [[79, 75]] := ⟨by decide, by decide, trivial⟩
  bytesReadFromFd_iff bytesInit_ok hg (.inl rfl) []

end Artorias
