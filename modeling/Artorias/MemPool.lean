import Mathlib.Data.BitVec
import Artorias.CRun

/-!
# The fixed-size memory pool (`mem_pool.c`)

Blocks come in size classes `f[0] .. f[n-1]`, sorted by size; larger requests
go to `malloc` one by one and have the pseudo-class `f[n]` of size `SIZE_MAX`.
The header of a block is one word: while the block is with a client it is the
address of its class, and while it is on the free list of the class it is the
link to the next block there.

A block is known by the address of its header; what clients see is the `d`
behind it. Sizes are taken to leave room for the header in a `size_t`. Of the
classes, `pool` is left out: there is one pool.
-/

namespace Artorias

inductive PoolFault where
  /-- A block that `malloc` has not given, or that has been freed. -/
  | unmapped (a : Addr)
  /-- The header was read as what it is not. -/
  | header (a : Addr)
  | endless
deriving Repr, DecidableEq

abbrev PoolRun (α : Type) := Except PoolFault α

@[simp] theorem poolBind_ok {α β : Type} (a : α) (f : α → PoolRun β) :
    ((Except.ok a : PoolRun α) >>= f) = f a := rfl

/-- `SIZE_MAX`, that is `(size_t)-1` -/
def sizeMax : Nat := 2 ^ 64 - 1

/-- `as_mem_data_fixed_p_t` -/
inductive Header where
  | field (i : Nat)
  | next (d : Option Addr)
deriving Repr, DecidableEq

/-- `as_mem_data_fixed_t`, with room for `cap` bytes. -/
structure Block where
  p : Header
  cap : Nat
  d : Nat → BitVec 8

/-- `as_mem_pool_fixed_t` -/
structure MemPool where
  empty : BitVec 32
  used : BitVec 32
  n : Nat
  size : Nat → Nat
  header : Nat → Option Addr

/-- The pool and what `malloc` has given. -/
structure PoolMem where
  pool : MemPool
  heap : Addr → Option Block

namespace PoolMem

def block (s : PoolMem) (a : Addr) : PoolRun Block :=
  match s.heap a with
  | some c => .ok c
  | none => .error (.unmapped a)

/-- `d->p.field` -/
def field (s : PoolMem) (a : Addr) : PoolRun Nat := do
  let c ← s.block a
  match c.p with
  | .field i => .ok i
  | .next _ => .error (.header a)

/-- `d->p.next` -/
def next (s : PoolMem) (a : Addr) : PoolRun (Option Addr) := do
  let c ← s.block a
  match c.p with
  | .next d => .ok d
  | .field _ => .error (.header a)

def setP (s : PoolMem) (a : Addr) (p : Header) : PoolRun PoolMem := do
  let c ← s.block a
  .ok { s with heap := Function.update s.heap a (some { c with p := p }) }

def setHeader (s : PoolMem) (i : Nat) (d : Option Addr) : PoolMem :=
  { s with pool := { s.pool with header := Function.update s.pool.header i d } }

def setCounts (s : PoolMem) (empty used : BitVec 32) : PoolMem :=
  { s with pool := { s.pool with empty := empty, used := used } }

end PoolMem

/-! ## `memp_new` -/

/-- Exchange `f[i].size` and `f[j].size`. -/
def swapSizes (f : Nat → Nat) (i j : Nat) : Nat → Nat :=
  Function.update (Function.update f i (f j)) j (f i)

/-- `for (j = ...; j < n; ++j)`, with `k` turns to go. -/
def sortInner : Nat → Nat → Nat → (Nat → Nat) → Nat → Nat
  | 0, _, _, f => f
  | k + 1, i, j, f => sortInner k i (j + 1) (if f i > f j then swapSizes f i j else f)

/-- `for (i = ...; i < n - 1; ++i)`, with `k` turns to go. -/
def sortOuter (n : Nat) : Nat → Nat → (Nat → Nat) → Nat → Nat
  | 0, _, f => f
  | k + 1, i, f => sortOuter n k (i + 1) (sortInner (n - (i + 1)) i (i + 1) f)

/-- `memp_new`; `malloc` says whether there is memory for the pool. -/
def mempNew (malloc : Bool) (fsize : List Nat) : Option MemPool :=
  if fsize.length < 1 then none
  else if !malloc then none
  else
    let n := fsize.length
    let sizes := sortOuter n (n - 1) 0 fun i => if i < n then fsize.getD i 0 else sizeMax
    some ⟨0, 0, n % 256, sizes, fun _ => none⟩

/-! ## `memp_alloc` -/

/-- `binary_search` for `size`; it has at most `k` turns. -/
def searchSize (f : Nat → Nat) (size : Nat) : Nat → Int → Int → Int
  | 0, left, _ => left
  | k + 1, left, right =>
      if left < right then
        let mid := (left + right) / 2
        if f mid.toNat = size then mid
        else if f mid.toNat < size then searchSize f size k (mid + 1) right
        else searchSize f size k left (mid - 1)
      else left

/-- The class that serves a request; `n` or more if none does. -/
def MemPool.classIndex (p : MemPool) (size : Nat) : Nat :=
  let i := (searchSize p.size size p.n 0 (p.n - 1)).toNat
  if p.size i < size then i + 1 else i

/-- What `malloc` or `realloc` answers: NULL, or where the block is and what
is in it. -/
abbrev Malloc := Option (Addr × Block)

/-- A block fresh from `malloc`, with its class written. -/
def PoolMem.fresh (s : PoolMem) (a : Addr) (c : Block) (cap i : Nat) : PoolMem :=
  { s with heap := Function.update s.heap a (some ⟨.field i, cap, c.d⟩) }

/-- `memp_alloc` -/
def mempAlloc (s : PoolMem) (size : Nat) (malloc : Malloc) : PoolRun (PoolMem × Option Addr) :=
  if size = 0 then .ok (s, none)
  else
    let i := s.pool.classIndex size
    if i ≥ s.pool.n then
      match malloc with
      | none => .ok (s, none)
      | some (a, c) => .ok (s.fresh a c size s.pool.n, some a)
    else
      match s.pool.header i with
      | some d => do
          let next ← s.next d
          let s := s.setHeader i next
          let s ← s.setP d (.field i)
          let size := BitVec.ofNat 32 (s.pool.size i)
          .ok (s.setCounts (s.pool.empty - size) (s.pool.used + size), some d)
      | none =>
          match malloc with
          | none => .ok (s, none)
          | some (a, c) =>
              let s := s.fresh a c (s.pool.size i) i
              let used := s.pool.used + BitVec.ofNat 32 (s.pool.size i)
              .ok (s.setCounts s.pool.empty used, some a)

/-! ## `memp_recycle` -/

/-- `memp_recycle` -/
def mempRecycle (s : PoolMem) (dd : Option Addr) : PoolRun PoolMem :=
  match dd with
  | none => .ok s
  | some d => do
      let f ← s.field d
      if s.pool.size f = sizeMax then .ok { s with heap := Function.update s.heap d none }
      else do
        let s ← s.setP d (.next (s.pool.header f))
        let s := s.setHeader f (some d)
        let size := BitVec.ofNat 32 (s.pool.size f)
        .ok (s.setCounts (s.pool.empty + size) (s.pool.used - size))

/-! ## `memp_realloc` -/

/-- `memcpy(ndd, dd, n)` -/
def PoolMem.memcpy (s : PoolMem) (ndd dd : Addr) (n : Nat) : PoolRun PoolMem := do
  let c ← s.block dd
  let c' ← s.block ndd
  let copy : Block := { c' with d := fun k => if k < n then c.d k else c'.d k }
  .ok { s with heap := Function.update s.heap ndd (some copy) }

/-- `realloc_data_fixed` -/
def PoolMem.reallocData (s : PoolMem) (d : Addr) (size : Nat) (malloc : Malloc) :
    PoolRun (PoolMem × Option Addr) :=
  match malloc with
  | none => .ok (s, none)
  | some (a, c') => do
      let c ← s.block d
      let moved : Block := ⟨c.p, size, fun k => if k < min c.cap size then c.d k else c'.d k⟩
      let heap := Function.update (Function.update s.heap d none) a (some moved)
      .ok ({ s with heap := heap }, some a)

section

-- `memcpy`, or one that checks what it touches
variable (copy : PoolMem → Addr → Addr → Nat → PoolRun PoolMem)

/-- Move to a block for `size` bytes, with a copy of the first `n`. -/
def moveBy (s : PoolMem) (d : Addr) (size n : Nat) (malloc : Malloc) :
    PoolRun (PoolMem × Option Addr) := do
  let (s, ndd) ← mempAlloc s size malloc
  match ndd with
  | none => .ok (s, none)
  | some nd => do
      let s ← copy s nd d n
      let s ← mempRecycle s (some d)
      .ok (s, some nd)

/-- `memp_realloc`; `malloc` is for `malloc` and `realloc`, of which it calls
at most one. -/
def reallocBy (s : PoolMem) (dd : Option Addr) (size : Nat) (malloc : Malloc) :
    PoolRun (PoolMem × Option Addr) :=
  match dd with
  | none => .ok (s, none)
  | some d =>
      if size = 0 then do
        let s ← mempRecycle s dd
        .ok (s, none)
      else do
        let f ← s.field d
        if s.pool.size f = sizeMax then
          if size ≤ s.pool.size (s.pool.n - 1) then moveBy copy s d size size malloc
          else s.reallocData d size malloc
        else if size > s.pool.size f then moveBy copy s d size (s.pool.size f) malloc
        else .ok (s, some d)

end

def mempMove : PoolMem → Addr → Nat → Nat → Malloc → PoolRun (PoolMem × Option Addr) :=
  moveBy PoolMem.memcpy

/-- `memp_realloc` -/
def mempRealloc : PoolMem → Option Addr → Nat → Malloc → PoolRun (PoolMem × Option Addr) :=
  reallocBy PoolMem.memcpy

theorem moveBy_memcpy : moveBy PoolMem.memcpy = mempMove := rfl

theorem reallocBy_memcpy : reallocBy PoolMem.memcpy = mempRealloc := rfl

/-! ## `memp_destroy` -/

/-- `while (p->f[i].header)`; the freed blocks are recorded. -/
def destroyClass : Nat → PoolMem → Nat → List Addr → PoolRun (PoolMem × List Addr)
  | 0, _, _, _ => .error .endless
  | k + 1, s, i, freed =>
      match s.pool.header i with
      | none => .ok (s, freed)
      | some a => do
          let d ← s.next a
          let s := { s with heap := Function.update s.heap a none }
          destroyClass k (s.setHeader i d) i (freed ++ [a])

/-- `for (i = 0; i < p->n; ++i)`, with `m` turns to go. -/
def destroyClasses (k : Nat) : Nat → PoolMem → Nat → List Addr → PoolRun (PoolMem × List Addr)
  | 0, s, _, freed => .ok (s, freed)
  | m + 1, s, i, freed => do
      let (s, freed) ← destroyClass k s i freed
      destroyClasses k m s (i + 1) freed

/-- `memp_destroy`, up to the pool itself. -/
def mempDestroy (k : Nat) (s : PoolMem) : PoolRun (PoolMem × List Addr) :=
  destroyClasses k s.pool.n s 0 []

end Artorias
