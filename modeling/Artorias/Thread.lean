import Artorias.RbTree

/-!
# Threads and their pools (`thread.h`, `thread.c`)

A pool is a red-black tree of threads ordered by the deadline `et`. The tree
node is embedded in the thread (`p_idx`), so a node and its thread have the
same address here and `container_of` is the identity. The nodes of all threads
are in one memory; a pool is its root pointer.

Of a thread the fields that are read by the functions modelled in the
development are kept.
-/

namespace Artorias

/-- `AS_TSTATUS_*` -/
inductive ThStatus where
  | ready
  | run
  | sleep
  | stop
deriving Repr, DecidableEq

/-- `AS_TMODE_*` -/
inductive ThMode where
  | simple
  | loopSocks
deriving Repr, DecidableEq

/-- `as_thread_t` without `p_idx`; `T`, the Lua thread, goes by the same
address. `resl` is the list of resources from its head on. -/
structure AsThread where
  et : Int
  pool : Option Addr
  status : ThStatus
  mode : ThMode
  mfdRes : Option Addr
  resl : List Addr
deriving Repr, DecidableEq

structure ThreadMem where
  threads : Addr → AsThread
  /-- `p_idx` -/
  nodes : Addr → RbNode Addr
  /-- `as_rb_tree_t.root` -/
  pools : Addr → Option Addr

namespace ThreadMem

/-- The tree library's view of pool `p`. -/
def pool (s : ThreadMem) (p : Addr) : RbMem Addr := ⟨s.pools p, s.nodes⟩

def setPool (s : ThreadMem) (p : Addr) (m : RbMem Addr) : ThreadMem :=
  { s with pools := Function.update s.pools p m.root, nodes := m.nodes }

def setThread (s : ThreadMem) (th : Addr) (t : AsThread) : ThreadMem :=
  { s with threads := Function.update s.threads th t }

def et (s : ThreadMem) (th : Addr) : Int := (s.threads th).et

@[simp] theorem setPool_threads (s : ThreadMem) (p : Addr) (m : RbMem Addr) :
    (s.setPool p m).threads = s.threads := rfl
@[simp] theorem setPool_nodes (s : ThreadMem) (p : Addr) (m : RbMem Addr) :
    (s.setPool p m).nodes = m.nodes := rfl
@[simp] theorem setPool_et (s : ThreadMem) (p : Addr) (m : RbMem Addr) :
    (s.setPool p m).et = s.et := rfl
@[simp] theorem setPool_pool_self (s : ThreadMem) (p : Addr) (m : RbMem Addr) :
    (s.setPool p m).pool p = m := by simp [setPool, pool]
@[simp] theorem setThread_pool (s : ThreadMem) (th : Addr) (t : AsThread) :
    (s.setThread th t).pool = s.pool := rfl
@[simp] theorem setThread_self (s : ThreadMem) (th : Addr) (t : AsThread) :
    (s.setThread th t).threads th = t := Function.update_self ..
theorem setThread_of_ne (s : ThreadMem) {th x : Addr} (t : AsThread) (h : x ≠ th) :
    (s.setThread th t).threads x = s.threads x := Function.update_of_ne h ..

theorem setThread_et (s : ThreadMem) (th : Addr) {t : AsThread} (h : t.et = s.et th) :
    (s.setThread th t).et = s.et := by
  funext x
  by_cases hx : x = th
  · rw [hx, et, setThread_self, h]
  · rw [et, setThread_of_ne _ _ hx, et]

theorem setPool_pool_of_ne (s : ThreadMem) {p q : Addr} (m : RbMem Addr) (h : q ≠ p) :
    (s.setPool p m).pool q = ⟨s.pools q, m.nodes⟩ := by
  simp [setPool, pool, Function.update_of_ne h]

end ThreadMem

/-! ## Adding and deleting -/

/-- `node_et_lt` -/
def nodeEtLt (s : ThreadMem) (a b : Addr) : Bool := s.et a < s.et b

/-- `asthread_th_add_to_pool` -/
def asthreadThAddToPool (fuel : Nat) (s : ThreadMem) (th : Addr) (pool : Option Addr) :
    CRun (ThreadMem × Int) :=
  match pool with
  | none => .ok (s, -1)
  | some p =>
      if (s.threads th).status = .stop then .ok (s, -1)
      else do
        let s := s.setThread th { s.threads th with pool := some p }
        let m ← rbTreeInsert (nodeEtLt s) fuel (s.pool p) th
        let m ← rbTreeInsertCase fuel m th
        .ok (s.setPool p m, 0)

/-- `asthread_th_del_from_pool` -/
def asthreadThDelFromPool (fuel : Nat) (s : ThreadMem) (th : Addr) : CRun (ThreadMem × Int) :=
  match (s.threads th).pool with
  | none => .ok (s, -1)
  | some p => do
      let m ← rbTreeDelete fuel (s.pool p) th
      let s := s.setPool p m
      .ok (s.setThread th { s.threads th with pool := none }, 0)

/-! ## Timeouts -/

/-- `while (n->right != NULL && now >= et(n->right)) n = n->right` -/
def rightSpineBody (s : ThreadMem) (now : Int) (n : Addr) : CRun (Addr ⊕ Addr) :=
  match (s.nodes n).right with
  | some r => if s.et r ≤ now then .ok (.inl r) else .ok (.inr n)
  | none => .ok (.inr n)

/-- `while (ret != NULL && et(ret) > now) ret = ret->left` -/
def leftSpineBody (s : ThreadMem) (now : Int) :
    Option Addr → CRun (Option Addr ⊕ Option Addr)
  | some x => if s.et x > now then .ok (.inl (s.nodes x).left) else .ok (.inr (some x))
  | none => .ok (.inr none)

/-- The branch of `asthread_remove_timeout_threads` on a root that is due: cut
the right spine below `n`. -/
def cutRightSpine (m : RbMem Addr) (n : Addr) : RbMem Addr :=
  let m := m.setRoot (m.nodes n).right
  let m := match m.root with
    | none => m
    | some r => (m.setParent r none).setColor r .black
  m.setChild .right n none

/-- `asthread_remove_timeout_threads`; `now` is what `time` answers. -/
def asthreadRemoveTimeoutThreads (fuel : Nat) (s : ThreadMem) (pool : Addr) (now : Int) :
    CRun (ThreadMem × Option Addr) :=
  match s.pools pool with
  | none => .ok (s, none)
  | some root =>
      if now ≥ s.et root then do
        let n ← cloop (rightSpineBody s now) fuel root
        .ok (s.setPool pool (cutRightSpine (s.pool pool) n), some root)
      else do
        let ret ← cloop (leftSpineBody s now) fuel (s.nodes root).left
        match ret with
        | none => .ok (s, none)
        | some sub => do
            let m ← rbTreeRemoveSubtree fuel (s.pool pool) sub
            .ok (s.setPool pool m, some sub)

end Artorias
