import Artorias.ThreadVarRuns
import Artorias.Worker

/-!
# The numbers of threads (`cur_tid`)

A thread that is made gets the next value of a 32-bit counter, and the Lua
thread that goes with it is kept alive by its entry under that number
(`LRK_TID_THREAD_TABLE`). The counter does not know which numbers are still in
use, and one of its values is what `handle_accept` takes for a failure: both
are as they should be for as long as fewer than 2 ^ 32 - 1 threads have been
made, and no longer (`tids_kept_iff`).
-/

namespace Artorias

open LuaState

/-! ## The model -/

/-- What a worker knows of its threads' numbers. -/
structure TidWorker where
  L : LbindState
  /-- `cur_tid` -/
  curTid : BitVec 32
  /-- `th->tid` and `th->T` of each thread that is alive -/
  threads : Addr → Option (BitVec 32 × Nat)

namespace TidWorker

/-- `asthread_th_init`; `ref` is what has come of `lbind_ref_tid_lthread`. -/
def asthreadThInit (s : TidWorker) (th : Addr) (ref : LbindState × Option Nat) :
    TidWorker × Int :=
  let curTid := s.curTid + 1
  match ref.2 with
  | none => ({ s with L := ref.1, curTid := curTid - 1 }, -1)
  | some T => (⟨ref.1, curTid, Function.update s.threads th (some (curTid, T))⟩, curTid.toInt)

/-- `asthread_th_free`, which calls Lua on `th->T` -/
def asthreadThFree (cstr : Addr → String) (s : TidWorker) (th : Addr) : TidWorker :=
  match s.threads th with
  | none => s
  | some (tid, T) =>
      { s with
        L := (lbindUnrefTidLthread cstr { s.L with thread := T } tid).1
        threads := Function.update s.threads th none }

/-- `tid == -1` in `handle_accept`, of what `asthread_th_init` returns: both are
`as_tid_t`. -/
def takenForFailure (ret : Int) : Bool := BitVec.ofInt 32 ret = (-1 : BitVec 32)

/-- `handle_accept` from `asthread_th_init` to `memp_recycle(th)` -/
def handleAccept (s : TidWorker) (th : Addr) (ref : LbindState × Option Nat) : TidWorker :=
  let (s, ret) := s.asthreadThInit th ref
  if takenForFailure ret then { s with threads := Function.update s.threads th none } else s

end TidWorker

/-- What `LRK_TID_THREAD_TABLE` has under a number. -/
def tidEntry (L : LbindState) (tid : BitVec 32) : LuaObj LbindFn :=
  match L.contents (L.tables L.registry (.string lrkTidThreadTable)) with
  | some t => t (.integer tid.toNat)
  | none => .nil

/-- Lua has run, and has left the tables of the worker alone but for what is
under the numbers in `tids`. -/
structure LeavesTids (L L' : LbindState) (tids : List (BitVec 32)) : Prop where
  vars : ∀ v, L.tables L.registry (.string lrkThreadLocalVarTable) = .table v → LeavesVars L L' v
  entries : ∀ tid, tid ∉ tids → tidEntry L' tid = tidEntry L tid

/-- What can come of `lbind_ref_tid_lthread`. Memory can run out anywhere in
`lcf_ref_tid_lthread`, so on a failure the entry may have been set or not. -/
inductive RefTid (cstr : Addr → String) (L : LbindState) (tid : BitVec 32) :
    LbindState × Option Nat → Prop where
  | made : RefTid cstr L tid (lbindRefTidLthread cstr L tid)
  | failed {L' : LbindState} (h : LeavesTids L L' [tid]) : RefTid cstr L tid (L', none)

/-! ## Runs -/

/-- What happens in the lifetime of a worker. -/
inductive TidOp where
  | accept (th : Addr) (ref : LbindState × Option Nat)
  | free (th : Addr)
  | lua (L : LbindState)

section
variable (cstr : Addr → String)

def tidStep (s : TidWorker) : TidOp → TidWorker
  | .accept th ref => s.handleAccept th ref
  | .free th => s.asthreadThFree cstr th
  | .lua L => { s with L := L }

/-- The block of a thread is new when it is accepted, and freed once. -/
def TidCan (s : TidWorker) : TidOp → Prop
  | .accept th ref => s.threads th = none ∧ RefTid cstr s.L (s.curTid + 1) ref
  | .free th => (s.threads th).isSome
  | .lua L => LeavesTids s.L L []

def TidRun : TidWorker → List TidOp → Prop
  | _, [] => True
  | s, op :: ops => TidCan cstr s op ∧ TidRun (tidStep cstr s op) ops

/-- The numbers of a worker tell its threads apart: the threads that are there have
different ones, each is found under its own, and no thread is freed under the number of
another. -/
structure TidsApart (s : TidWorker) : Prop where
  distinct : ∀ th th' tid T T', s.threads th = some (tid, T) → s.threads th' = some (tid, T') →
    th = th'
  anchored : ∀ th tid T, s.threads th = some (tid, T) → tidEntry s.L tid = .thread T
  unref : ∀ th th' tid T, th ≠ th' → s.threads th' = some (tid, T) →
    tidEntry (s.asthreadThFree cstr th).L tid = .thread T

/-- A thread that has been made is not taken for a failure. -/
def NotMistaken (s : TidWorker) : TidOp → Prop
  | .accept th ref =>
      ref.2.isSome → TidWorker.takenForFailure (s.asthreadThInit th ref).2 = false
  | .free _ | .lua _ => True

/-- The numbers are apart at every moment of the run, and no thread that has been made is
taken for a failure. -/
def TidsKept : TidWorker → List TidOp → Prop
  | s, [] => TidsApart cstr s
  | s, op :: ops => TidsApart cstr s ∧ NotMistaken s op ∧ TidsKept (tidStep cstr s op) ops

/-- A worker that has started, with what Lua has been opened to. -/
def startTids (L : LbindState) : TidWorker := ⟨(lbindInitState cstr L).1, 0, fun _ => none⟩

end

/-- The threads made in a run. -/
def threadsMade : List TidOp → Nat
  | [] => 0
  | .accept _ ref :: ops => (if ref.2.isSome then 1 else 0) + threadsMade ops
  | .free _ :: ops | .lua _ :: ops => threadsMade ops

/-! ## The table -/

section
variable {L : LbindState} {w v : Nat}

theorem tidEntry_eq (h : L.tables L.registry (.string lrkTidThreadTable) = .table w)
    (tid : BitVec 32) : tidEntry L tid = L.tables w (.integer tid.toNat) := by
  rw [tidEntry, h]
  rfl

theorem tidKey_ne {tid tid' : BitVec 32} (h : tid' ≠ tid) :
    (.integer tid'.toNat : LuaObj LbindFn) ≠ .integer tid.toNat := by
  intro he
  exact h (BitVec.eq_of_toNat_eq (Int.ofNat_inj.mp (LuaObj.integer.inj he)))

theorem VarsAt.tidEntry_ref (h : VarsAt L w v) (cstr : Addr → String) (tid : BitVec 32) : ∃ L',
    lbindRefTidLthread cstr L tid = (L', some L.next) ∧ VarsAt L' w v
      ∧ tidEntry L' tid = .thread L.next
      ∧ ∀ tid', tid' ≠ tid → tidEntry L' tid' = tidEntry L tid' := by
  obtain ⟨L', hrun, -, h', -, -, htable⟩ := h.ref cstr tid
  refine ⟨L', hrun, h', ?_, ?_⟩
  · rw [tidEntry_eq h'.tids, htable, Function.update_self]
  · intro tid' hne
    rw [tidEntry_eq h'.tids, tidEntry_eq h.tids, htable, Function.update_of_ne (tidKey_ne hne)]

theorem VarsAt.tidEntry_unref (h : VarsAt L w v) (cstr : Addr → String) {tid tid' : BitVec 32}
    (hne : tid' ≠ tid) :
    tidEntry (lbindUnrefTidLthread cstr L tid).1 tid' = tidEntry L tid' := by
  have htable : (lbindUnrefTidLthread cstr L tid).1.tables w
      = Function.update (L.tables w) (.integer tid.toNat) .nil := by
    rw [h.unref_eq]
    exact write_self ..
  rw [tidEntry_eq (h.unref cstr tid).tids, tidEntry_eq h.tids, htable,
    Function.update_of_ne (tidKey_ne hne)]

theorem VarsAt.withThread (h : VarsAt L w v) (T : Nat) : VarsAt { L with thread := T } w v :=
  ⟨h.tids, h.vars, h.apart, h.old, h.own, h.sole⟩

end

/-! ## The counter -/

namespace TidWorker

theorem takenForFailure_toInt (tid : BitVec 32) :
    takenForFailure tid.toInt = decide (tid = -1) := by
  rw [takenForFailure, BitVec.ofInt_toInt]

theorem handleAccept_none (s : TidWorker) {th : Addr} {ref : LbindState × Option Nat}
    (hth : s.threads th = none) (href : ref.2 = none) :
    s.handleAccept th ref = { s with L := ref.1 } := by
  have hthreads : Function.update s.threads th none = s.threads := by
    rw [← hth, Function.update_eq_self]
  simp only [handleAccept, asthreadThInit, href, hthreads, BitVec.add_sub_cancel]
  rw [if_pos (by decide)]

theorem handleAccept_some (s : TidWorker) (th : Addr) {ref : LbindState × Option Nat} {T : Nat}
    (href : ref.2 = some T) (hne : s.curTid + 1 ≠ -1) :
    s.handleAccept th ref
      = ⟨ref.1, s.curTid + 1, Function.update s.threads th (some (s.curTid + 1, T))⟩ := by
  simp only [handleAccept, asthreadThInit, href, takenForFailure_toInt, decide_eq_true_eq,
    if_neg hne]

end TidWorker

theorem toNat_ofNat_succ {n : Nat} (h : n < 2 ^ 32 - 1) :
    (BitVec.ofNat 32 n + 1).toNat = n + 1 := by
  have hone : (1 : BitVec 32).toNat = 1 := rfl
  rw [BitVec.toNat_add, BitVec.toNat_ofNat, hone]
  omega

theorem ofNat_succ_eq_neg_one {n : Nat} (h : n < 2 ^ 32 - 1) :
    BitVec.ofNat 32 n + 1 = (-1 : BitVec 32) ↔ n + 1 = 2 ^ 32 - 1 := by
  have hlast : (-1 : BitVec 32).toNat = 2 ^ 32 - 1 := by decide
  rw [← BitVec.toNat_inj, toNat_ofNat_succ h, hlast]

/-! ## While the counter lasts -/

/-- `n` threads have been made, their numbers are all at most `n`, and the counter has not
come to the last value. -/
structure TidInv (s : TidWorker) (n : Nat) : Prop where
  cur : s.curTid = BitVec.ofNat 32 n
  vars : ∃ w v, VarsAt s.L w v
  live : ∀ th tid T, s.threads th = some (tid, T) →
    0 < tid.toNat ∧ tid.toNat ≤ n ∧ tidEntry s.L tid = .thread T
  distinct : ∀ th th' tid T T', s.threads th = some (tid, T) → s.threads th' = some (tid, T') →
    th = th'

theorem TidInv.succ_ne {s : TidWorker} {n : Nat} (h : TidInv s n) (hn : n + 1 < 2 ^ 32 - 1) :
    s.curTid + 1 ≠ -1 := by
  rw [h.cur, Ne, ofNat_succ_eq_neg_one (by omega)]
  omega

theorem TidInv.apart {s : TidWorker} {n : Nat} (h : TidInv s n) (cstr : Addr → String) :
    TidsApart cstr s := by
  obtain ⟨w, v, hvars⟩ := h.vars
  refine ⟨h.distinct, fun th tid T hth => (h.live th tid T hth).2.2, ?_⟩
  intro th th' tid T hne hth'
  have hentry := (h.live th' tid T hth').2.2
  cases hth : s.threads th with
  | none =>
      rw [TidWorker.asthreadThFree, hth]
      exact hentry
  | some p =>
      obtain ⟨tid₀, T₀⟩ := p
      have htid : tid ≠ tid₀ := by
        rintro rfl
        exact hne (h.distinct th th' tid T₀ T hth hth')
      rw [TidWorker.asthreadThFree, hth]
      exact ((hvars.withThread T₀).tidEntry_unref cstr htid).trans hentry

/-- Lua has run, and has left all the entries that count: it may lose only those of numbers
that no thread has. -/
theorem TidInv.leaves {s : TidWorker} {n : Nat} {L' : LbindState} {tids : List (BitVec 32)}
    (h : TidInv s n) (hleaves : LeavesTids s.L L' tids)
    (htids : ∀ tid ∈ tids, tid.toNat = 0 ∨ n < tid.toNat) : TidInv { s with L := L' } n := by
  obtain ⟨w, v, hvars⟩ := h.vars
  refine ⟨h.cur, ⟨w, v, (hleaves.vars v hvars.vars).varsAt hvars⟩, ?_, h.distinct⟩
  intro th tid T hth
  obtain ⟨hpos, hle, hentry⟩ := h.live th tid T hth
  refine ⟨hpos, hle, (hleaves.entries tid ?_).trans hentry⟩
  intro hmem
  rcases htids tid hmem with h0 | hlt
  · omega
  · omega

/-- A thread gets the next number, which no other one has as long as the counter has not
come round. -/
theorem TidInv.made {s : TidWorker} {n : Nat} {cstr : Addr → String} {th : Addr} (h : TidInv s n)
    (hn : n + 1 < 2 ^ 32 - 1) :
    TidInv (s.handleAccept th (lbindRefTidLthread cstr s.L (s.curTid + 1))) (n + 1) := by
  obtain ⟨w, v, hvars⟩ := h.vars
  have hnum := toNat_ofNat_succ (n := n) (by omega)
  obtain ⟨L', hrun, hvars', hentry, hothers⟩ := hvars.tidEntry_ref cstr (s.curTid + 1)
  rw [hrun, s.handleAccept_some th rfl (h.succ_ne hn)]
  have hcases : ∀ x tid T,
      Function.update s.threads th (some (s.curTid + 1, s.L.next)) x = some (tid, T) →
        x = th ∧ tid = s.curTid + 1 ∧ T = s.L.next ∨ x ≠ th ∧ s.threads x = some (tid, T) := by
    intro x tid T hx
    by_cases hxth : x = th
    · rw [hxth, Function.update_self, Option.some.injEq, Prod.mk.injEq] at hx
      exact .inl ⟨hxth, hx.1.symm, hx.2.symm⟩
    · rw [Function.update_of_ne hxth] at hx
      exact .inr ⟨hxth, hx⟩
  have hold : ∀ x tid T, s.threads x = some (tid, T) → tid ≠ s.curTid + 1 := by
    rintro x tid T hx rfl
    have hle := (h.live x _ T hx).2.1
    rw [h.cur, hnum] at hle
    omega
  refine ⟨?_, ⟨w, v, hvars'⟩, ?_, ?_⟩
  · rw [h.cur]
    exact BitVec.eq_of_toNat_eq (by rw [hnum, BitVec.toNat_ofNat]; omega)
  · intro x tid T hx
    rcases hcases x tid T hx with ⟨-, rfl, rfl⟩ | ⟨-, hx⟩
    · refine ⟨?_, ?_, hentry⟩
      · rw [h.cur, hnum]
        omega
      · rw [h.cur, hnum]
    · obtain ⟨hpos, hle, hthread⟩ := h.live x tid T hx
      exact ⟨hpos, by omega, (hothers tid (hold x tid T hx)).trans hthread⟩
  · intro x x' tid T T' hx hx'
    rcases hcases x tid T hx with ⟨rfl, rfl, rfl⟩ | ⟨-, hxs⟩
    · rcases hcases x' _ T' hx' with ⟨rfl, -⟩ | ⟨-, hxs'⟩
      · rfl
      · exact absurd rfl (hold x' _ T' hxs')
    · rcases hcases x' tid T' hx' with ⟨rfl, rfl, rfl⟩ | ⟨-, hxs'⟩
      · exact absurd rfl (hold x _ T hxs)
      · exact h.distinct x x' tid T T' hxs hxs'

theorem TidInv.free {s : TidWorker} {n : Nat} (h : TidInv s n) (cstr : Addr → String) (th : Addr) :
    TidInv (s.asthreadThFree cstr th) n := by
  obtain ⟨w, v, hvars⟩ := h.vars
  have hunref := (h.apart cstr).unref th
  cases hth : s.threads th with
  | none =>
      rw [TidWorker.asthreadThFree, hth]
      exact h
  | some p =>
      obtain ⟨tid₀, T₀⟩ := p
      simp only [TidWorker.asthreadThFree, hth] at hunref ⊢
      have hothers : ∀ x tid T, Function.update s.threads th none x = some (tid, T) →
          th ≠ x ∧ s.threads x = some (tid, T) := by
        intro x tid T hx
        have hne : x ≠ th := by
          rintro rfl
          rw [Function.update_self] at hx
          cases hx
        rw [Function.update_of_ne hne] at hx
        exact ⟨hne.symm, hx⟩
      refine ⟨h.cur, ⟨w, v, (hvars.withThread T₀).unref cstr tid₀⟩, ?_, ?_⟩
      · intro x tid T hx
        obtain ⟨hne, hx⟩ := hothers x tid T hx
        obtain ⟨hpos, hle, -⟩ := h.live x tid T hx
        exact ⟨hpos, hle, hunref x tid T hne hx⟩
      · intro x x' tid T T' hx hx'
        exact h.distinct x x' tid T T' (hothers x tid T hx).2 (hothers x' tid T' hx').2

/-- The counter, and what stands for a failure, are those of the worker's
`asthread_th_init`, so the two models of it agree. -/
theorem TidWorker.asthreadThInit_worker {s : TidWorker} {w : MwWorker} (h : w.curTid = s.curTid)
    (th : Addr) (ref : LbindState × Option Nat) :
    (Artorias.asthreadThInit w th ref.2.isSome).1.curTid = (s.asthreadThInit th ref).1.curTid
      ∧ ((Artorias.asthreadThInit w th ref.2.isSome).2 = -1
        ↔ takenForFailure (s.asthreadThInit th ref).2) := by
  cases href : ref.2 with
  | none =>
      simp only [asthreadThInit, Artorias.asthreadThInit, href, Option.isSome_none,
        Bool.false_eq_true, if_false, BitVec.add_sub_cancel]
      exact ⟨h, iff_of_true trivial (by decide)⟩
  | some T =>
      simp only [asthreadThInit, Artorias.asthreadThInit, href, Option.isSome_some, if_true,
        takenForFailure_toInt, decide_eq_true_eq]
      have hcur : w.curTid + 1 = s.curTid + 1 := by rw [h]
      exact ⟨hcur, by rw [← hcur]; rfl⟩

/-! ## Whole runs -/

theorem VarsAt.ref_isSome {L : LbindState} {w v : Nat} (h : VarsAt L w v) (cstr : Addr → String)
    (tid : BitVec 32) : (lbindRefTidLthread cstr L tid).2.isSome := by
  obtain ⟨L', hrun, -⟩ := h.tidEntry_ref cstr tid
  rw [hrun]
  rfl

theorem notMistaken_iff (s : TidWorker) {th : Addr} {ref : LbindState × Option Nat}
    (href : ref.2.isSome) : NotMistaken s (.accept th ref) ↔ s.curTid + 1 ≠ -1 := by
  obtain ⟨T, hT⟩ := Option.isSome_iff_exists.mp href
  simp only [NotMistaken, TidWorker.asthreadThInit, hT, Option.isSome_some, forall_true_left,
    TidWorker.takenForFailure_toInt, decide_eq_false_iff_not]

/-- One step keeps the numbers apart and is not mistaken for a failure, as long as the
threads made do not use up the counter. -/
theorem TidInv.step {s : TidWorker} {n : Nat} {cstr : Addr → String} {op : TidOp} (h : TidInv s n)
    (hcan : TidCan cstr s op) (hn : n + threadsMade [op] < 2 ^ 32 - 1) :
    NotMistaken s op ∧ TidInv (tidStep cstr s op) (n + threadsMade [op]) := by
  cases op with
  | free th => exact ⟨trivial, h.free cstr th⟩
  | lua L => exact ⟨trivial, h.leaves hcan (by simp)⟩
  | accept th ref =>
      obtain ⟨hth, href⟩ := hcan
      cases href with
      | made =>
          obtain ⟨w, v, hvars⟩ := h.vars
          have hsome := hvars.ref_isSome cstr (s.curTid + 1)
          have hmade :
              threadsMade [.accept th (lbindRefTidLthread cstr s.L (s.curTid + 1))] = 1 := by
            rw [threadsMade, if_pos hsome, threadsMade]
          rw [hmade] at hn ⊢
          exact ⟨(notMistaken_iff s hsome).mpr (h.succ_ne hn), h.made hn⟩
      | @failed L' hfailed =>
          have hmade : threadsMade [.accept th (L', none)] = 0 := by
            rw [threadsMade, if_neg (by simp), threadsMade]
          rw [hmade] at hn ⊢
          refine ⟨fun hsome => (by cases hsome), ?_⟩
          rw [tidStep, s.handleAccept_none hth rfl]
          refine h.leaves hfailed ?_
          intro tid htid
          rw [List.mem_singleton.mp htid, h.cur, toNat_ofNat_succ (by omega)]
          exact .inr (Nat.lt_succ_self n)

theorem threadsMade_cons (op : TidOp) (ops : List TidOp) :
    threadsMade (op :: ops) = threadsMade [op] + threadsMade ops := by
  cases op with
  | accept th ref => rw [threadsMade, threadsMade, threadsMade, Nat.add_zero]
  | free th => rw [threadsMade, threadsMade, threadsMade, Nat.zero_add]
  | lua L => rw [threadsMade, threadsMade, threadsMade, Nat.zero_add]

theorem TidInv.kept {s : TidWorker} {n : Nat} {cstr : Addr → String} {ops : List TidOp}
    (h : TidInv s n) (hrun : TidRun cstr s ops) (hn : n + threadsMade ops < 2 ^ 32 - 1) :
    TidsKept cstr s ops := by
  induction ops generalizing s n with
  | nil => exact h.apart cstr
  | cons op ops ih =>
      obtain ⟨hcan, hrun⟩ := hrun
      rw [threadsMade_cons] at hn
      obtain ⟨hok, h'⟩ := h.step hcan (by omega)
      exact ⟨h.apart cstr, hok, ih h' hrun (by omega)⟩

/-- Every thread made takes the counter one further, and nothing else changes it. -/
theorem tidStep_curTid (cstr : Addr → String) (s : TidWorker) (op : TidOp) :
    (tidStep cstr s op).curTid = s.curTid + BitVec.ofNat 32 (threadsMade [op]) := by
  cases op with
  | lua L => exact (BitVec.add_zero _).symm
  | free th =>
      rw [tidStep, TidWorker.asthreadThFree]
      cases s.threads th <;> exact (BitVec.add_zero _).symm
  | accept th ref =>
      rw [tidStep, TidWorker.handleAccept, TidWorker.asthreadThInit, threadsMade]
      cases ref.2 with
      | none =>
          dsimp only
          rw [if_pos (by decide), BitVec.add_sub_cancel]
          exact (BitVec.add_zero _).symm
      | some T =>
          dsimp only
          split <;> rfl

/-- The counter is where it was when `2 ^ 32` threads have been made, be there threads left
from then or not. -/
theorem curTid_again (cstr : Addr → String) (s : TidWorker) {ops : List TidOp}
    (h : threadsMade ops = 2 ^ 32) : (ops.foldl (tidStep cstr) s).curTid = s.curTid := by
  have hrun : ∀ (ops : List TidOp) (s : TidWorker), (ops.foldl (tidStep cstr) s).curTid
      = s.curTid + BitVec.ofNat 32 (threadsMade ops) := by
    intro ops
    induction ops with
    | nil => exact fun s => (BitVec.add_zero _).symm
    | cons op ops ih =>
        intro s
        rw [List.foldl_cons, ih, tidStep_curTid, BitVec.add_assoc, threadsMade_cons op ops,
          BitVec.ofNat_add]
  rw [hrun, h]
  exact BitVec.add_zero _

/-- A run in which no thread that has been made is taken for a failure has not reached the
number that stands for one. -/
theorem TidsKept.made_lt {s : TidWorker} {n : Nat} {cstr : Addr → String} {ops : List TidOp}
    (h : TidsKept cstr s ops) (hcur : s.curTid = BitVec.ofNat 32 n) (hn : n < 2 ^ 32 - 1) :
    n + threadsMade ops < 2 ^ 32 - 1 := by
  induction ops generalizing s n with
  | nil => exact hn
  | cons op ops ih =>
      obtain ⟨-, hok, h⟩ := h
      have hlt : n + threadsMade [op] < 2 ^ 32 - 1 := by
        cases op with
        | free th => exact hn
        | lua L => exact hn
        | accept th ref =>
            rw [threadsMade, threadsMade]
            split
            · rename_i hsome
              have hne := (notMistaken_iff s hsome).mp hok
              rw [hcur, Ne, ofNat_succ_eq_neg_one hn] at hne
              omega
            · exact hn
      rw [threadsMade_cons, ← Nat.add_assoc]
      exact ih h (by rw [tidStep_curTid, hcur, BitVec.ofNat_add]) hlt

theorem startTids_inv {L : LbindState} (h : Opened L) (cstr : Addr → String) :
    TidInv (startTids cstr L) 0 :=
  ⟨rfl, ⟨_, _, h.init cstr⟩, fun _ _ _ hth => (by cases hth), fun _ _ _ _ _ hth => (by cases hth)⟩

theorem tids_kept_iff {cstr : Addr → String} {L : LbindState} (h : Opened L) {ops : List TidOp}
    (hrun : TidRun cstr (startTids cstr L) ops) :
    TidsKept cstr (startTids cstr L) ops ↔ threadsMade ops < 2 ^ 32 - 1 := by
  have hfirst : 0 + threadsMade ops = threadsMade ops := Nat.zero_add _
  constructor
  · intro hkept
    have hlt := hkept.made_lt rfl (by decide)
    rwa [hfirst] at hlt
  · intro hlt
    exact (startTids_inv h cstr).kept hrun (by rwa [hfirst])

/-- The first thread of a worker comes and goes with a number of its own. -/
theorem firstTid_kept :
    TidsKept llkNames (startTids llkNames openState)
        [.accept 2 (lbindRefTidLthread llkNames (startTids llkNames openState).L 1), .free 2]
      ↔ threadsMade [.accept 2 (lbindRefTidLthread llkNames (startTids llkNames openState).L 1),
        .free 2] < 2 ^ 32 - 1 :=
  tids_kept_iff openState_opened ⟨⟨rfl, .made⟩, rfl, trivial⟩

/-! ## When it has gone round -/

/-- A connection comes, and Lua makes a thread for it. -/
def makeThread (cstr : Addr → String) (s : TidWorker) : TidOp :=
  .accept 2 (lbindRefTidLthread cstr s.L (s.curTid + 1))

/-- `n` connections come and go, and then one comes. -/
def comeAndGo (cstr : Addr → String) : Nat → TidWorker → List TidOp
  | 0, s => [makeThread cstr s]
  | n + 1, s =>
      let s' := tidStep cstr (tidStep cstr s (makeThread cstr s)) (.free 2)
      makeThread cstr s :: .free 2 :: comeAndGo cstr n s'

theorem makeThread_step {s : TidWorker} {n : Nat} (h : TidInv s n) (cstr : Addr → String)
    (hth : s.threads 2 = none) :
    TidCan cstr s (makeThread cstr s) ∧ threadsMade [makeThread cstr s] = 1
      ∧ (n + 1 < 2 ^ 32 - 1 → ∃ p, (tidStep cstr s (makeThread cstr s)).threads 2 = some p) := by
  obtain ⟨w, v, hvars⟩ := h.vars
  have hsome := hvars.ref_isSome cstr (s.curTid + 1)
  refine ⟨⟨hth, .made⟩, ?_, ?_⟩
  · rw [makeThread, threadsMade, if_pos hsome, threadsMade]
  · intro hn
    obtain ⟨T, hT⟩ := Option.isSome_iff_exists.mp hsome
    rw [makeThread, tidStep, s.handleAccept_some 2 hT (h.succ_ne hn)]
    dsimp only
    exact ⟨_, Function.update_self ..⟩

theorem asthreadThFree_threads (cstr : Addr → String) {s : TidWorker} {th : Addr}
    {p : BitVec 32 × Nat} (h : s.threads th = some p) :
    (s.asthreadThFree cstr th).threads th = none := by
  simp only [TidWorker.asthreadThFree, h, Function.update_self]

theorem comeAndGo_run {cstr : Addr → String} {n m : Nat} {s : TidWorker} (h : TidInv s m)
    (hth : s.threads 2 = none) (hn : m + n < 2 ^ 32 - 1) :
    TidRun cstr s (comeAndGo cstr n s) ∧ threadsMade (comeAndGo cstr n s) = n + 1 := by
  obtain ⟨hcan, hmade, hlive⟩ := makeThread_step h cstr hth
  induction n generalizing s m with
  | zero => exact ⟨⟨hcan, trivial⟩, hmade⟩
  | succ n ih =>
      obtain ⟨p, hp⟩ := hlive (by omega)
      have h' : TidInv (tidStep cstr s (makeThread cstr s)) (m + 1) := h.made (by omega)
      have hgone := asthreadThFree_threads cstr hp
      obtain ⟨hcan', hmade', hlive'⟩ := makeThread_step (h'.free cstr 2) cstr hgone
      obtain ⟨hrun, hcount⟩ := ih (h'.free cstr 2) hgone (by omega) hcan' hmade' hlive'
      refine ⟨⟨hcan, Option.isSome_iff_exists.mpr ⟨p, hp⟩, hrun⟩, ?_⟩
      rw [comeAndGo, threadsMade_cons, hmade, threadsMade, tidStep, hcount]
      omega

/-- The last of so many connections has a thread that is taken for a failure, although Lua
has made it. -/
theorem comeAndGo_not_kept :
    TidRun llkNames (startTids llkNames openState)
        (comeAndGo llkNames (2 ^ 32 - 2) (startTids llkNames openState))
      ∧ ¬TidsKept llkNames (startTids llkNames openState)
        (comeAndGo llkNames (2 ^ 32 - 2) (startTids llkNames openState)) := by
  have hinv := startTids_inv openState_opened llkNames
  obtain ⟨hrun, hmade⟩ := comeAndGo_run (n := 2 ^ 32 - 2) hinv rfl (by omega)
  refine ⟨hrun, ?_⟩
  intro hkept
  have hlt := hkept.made_lt hinv.cur (by omega)
  rw [hmade] at hlt
  omega

end Artorias
