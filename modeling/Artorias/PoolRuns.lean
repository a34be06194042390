import Mathlib.Algebra.BigOperators.Group.List.Basic
import Artorias.PoolClasses

/-!
# Runs of the memory pool

A ledger keeps who has which block: the live blocks, the idle ones (recycled
and not handed out again, the last one first) and the class each was created
for. In every run the pool agrees with it (`poolReach_inv`): a live block has
its class in its header, and the free list of a class is the chain of its idle
blocks. `poolRun_sound` puts this together with the two counters and
`memp_destroy`.
-/

namespace Artorias

/-! ## Free lists -/

/-- From `q` on the links lead through `xs` and end. -/
def Chain (heap : Addr → Option Block) : Option Addr → List Addr → Prop
  | q, [] => q = none
  | q, a :: xs => q = some a ∧ ∃ c d, heap a = some c ∧ c.p = .next d ∧ Chain heap d xs

theorem Chain.congr {heap heap' : Addr → Option Block} {q : Option Addr} {xs : List Addr}
    (h : Chain heap q xs) (heq : ∀ a ∈ xs, heap' a = heap a) : Chain heap' q xs := by
  induction xs generalizing q with
  | nil => exact h
  | cons a xs ih =>
      obtain ⟨hq, c, d, hc, hp, hd⟩ := h
      exact ⟨hq, c, d, (heq a (.head _)).trans hc, hp, ih hd fun b hb => heq b (.tail _ hb)⟩

theorem Chain.mapped {heap : Addr → Option Block} {q : Option Addr} {xs : List Addr}
    (h : Chain heap q xs) {a : Addr} (ha : a ∈ xs) : heap a ≠ none := by
  induction xs generalizing q with
  | nil => cases ha
  | cons b xs ih =>
      obtain ⟨-, c, d, hc, -, hd⟩ := h
      rcases List.mem_cons.mp ha with rfl | ha
      · rw [hc]
        exact Option.some_ne_none _
      · exact ih hd ha

/-- The links of a list do not see what is written into the data of its blocks. -/
theorem Chain.write {heap : Addr → Option Block} {q : Option Addr} {xs : List Addr}
    (h : Chain heap q xs) {a : Addr} {c c' : Block} (hc : heap a = some c) (hp : c'.p = c.p) :
    Chain (Function.update heap a (some c')) q xs := by
  induction xs generalizing q with
  | nil => exact h
  | cons b xs ih =>
      obtain ⟨hq, cb, d, hcb, hpb, hd⟩ := h
      by_cases hba : b = a
      · subst hba
        rw [hc] at hcb
        cases hcb
        exact ⟨hq, c', d, Function.update_self .., hp.trans hpb, ih hd⟩
      · exact ⟨hq, cb, d, (Function.update_of_ne hba _ _).trans hcb, hpb, ih hd⟩

/-! ## The ledger -/

structure PoolLedger where
  live : List Addr
  idle : List Addr
  cls : Addr → Nat

/-- `memp_alloc(size)` has answered `r`. -/
def PoolLedger.take (L : PoolLedger) (p : MemPool) (size : Nat) (r : Option Addr) : PoolLedger :=
  match r with
  | none => L
  | some a =>
      if a ∈ L.idle then { L with live := a :: L.live, idle := L.idle.erase a }
      else { L with live := a :: L.live, cls := Function.update L.cls a (p.classIndex size) }

/-- `d` has been recycled. -/
def PoolLedger.give (L : PoolLedger) (p : MemPool) (d : Addr) : PoolLedger :=
  { L with live := L.live.erase d, idle := if L.cls d < p.n then d :: L.idle else L.idle }

/-- `memp_realloc(d, size)` has answered `r`. -/
def PoolLedger.resize (L : PoolLedger) (p : MemPool) (d : Addr) (size : Nat) (r : Option Addr) :
    PoolLedger :=
  if size = 0 then L.give p d
  else
    match r with
    | none => L
    | some a => if a = d then L else (L.take p size (some a)).give p d

/-- The class sizes of the blocks `xs` that have one, added up. -/
def classSum (p : MemPool) (cls : Addr → Nat) (xs : List Addr) : Nat :=
  (xs.map fun a => if cls a < p.n then p.size (cls a) else 0).sum

theorem classSum_cons (p : MemPool) (cls : Addr → Nat) (a : Addr) (xs : List Addr) :
    classSum p cls (a :: xs) = (if cls a < p.n then p.size (cls a) else 0) + classSum p cls xs := by
  rw [classSum, List.map_cons, List.sum_cons]
  rfl

theorem classSum_erase (p : MemPool) (cls : Addr → Nat) {a : Addr} {xs : List Addr} (ha : a ∈ xs) :
    classSum p cls xs
      = (if cls a < p.n then p.size (cls a) else 0) + classSum p cls (xs.erase a) := by
  rw [← classSum_cons]
  exact ((List.perm_cons_erase ha).map _).sum_eq

theorem classSum_update (p : MemPool) (cls : Addr → Nat) {a : Addr} {xs : List Addr} (ha : a ∉ xs)
    (i : Nat) : classSum p (Function.update cls a i) xs = classSum p cls xs := by
  rw [classSum, classSum]
  refine congrArg List.sum (List.map_congr_left fun b hb => ?_)
  rw [Function.update_of_ne fun he : b = a => ha (he ▸ hb)]

/-- The invariant: the pool agrees with the ledger. Each live block is in the heap with its
class, each free list holds the idle blocks of its class, and the two counters are the sums
of the sizes. -/
structure PoolAt (s : PoolMem) (L : PoolLedger) : Prop where
  ok : ClassesOk s.pool
  nodup : (L.live ++ L.idle).Nodup
  idle : ∀ a ∈ L.idle, L.cls a < s.pool.n
  live : ∀ a ∈ L.live, L.cls a ≤ s.pool.n ∧ ∃ c, s.heap a = some c ∧ c.p = .field (L.cls a)
  lists : ∀ i < s.pool.n, Chain s.heap (s.pool.header i) (L.idle.filter fun a => L.cls a = i)
  used : s.pool.used = BitVec.ofNat 32 (classSum s.pool L.cls L.live)
  empty : s.pool.empty = BitVec.ofNat 32 (classSum s.pool L.cls L.idle)

/-- The sizes of the classes are the same. -/
def SameClasses (p p' : MemPool) : Prop := p'.n = p.n ∧ p'.size = p.size

theorem SameClasses.ok {p p' : MemPool} (h : SameClasses p p') (hp : ClassesOk p) :
    ClassesOk p' := by
  obtain ⟨hn, hsize⟩ := h
  obtain ⟨h1, h2, h3, h4⟩ := hp
  refine ⟨?_, ?_, ?_, ?_⟩ <;> rw [hn] <;> try rw [hsize]
  · exact h1
  · exact h2
  · exact h3
  · exact h4

theorem SameClasses.classSum {p p' : MemPool} (h : SameClasses p p') (cls : Addr → Nat)
    (xs : List Addr) : classSum p' cls xs = classSum p cls xs := by
  rw [Artorias.classSum, Artorias.classSum, h.1, h.2]

namespace PoolAt

variable {s : PoolMem} {L : PoolLedger}

theorem live_idle (h : PoolAt s L) {a : Addr} (ha : a ∈ L.live) : a ∉ L.idle :=
  fun ha' => List.disjoint_of_nodup_append h.nodup ha ha'

theorem mapped (h : PoolAt s L) {a : Addr} (ha : a ∈ L.live ∨ a ∈ L.idle) : s.heap a ≠ none := by
  rcases ha with ha | ha
  · obtain ⟨-, c, hc, -⟩ := h.live a ha
    rw [hc]
    exact Option.some_ne_none _
  · exact (h.lists _ (h.idle a ha)).mapped (List.mem_filter.mpr ⟨ha, decide_eq_true rfl⟩)

/-- The block at the head of a free list is idle and has that class, and the rest of the
list is what remains without it. -/
theorem head (h : PoolAt s L) {i : Nat} (hi : i < s.pool.n) {a : Addr}
    (ha : s.pool.header i = some a) :
    a ∈ L.idle ∧ L.cls a = i ∧ ∃ c d, s.heap a = some c ∧ c.p = .next d
      ∧ Chain s.heap d ((L.idle.erase a).filter fun b => L.cls b = i) := by
  have hchain := h.lists i hi
  rw [ha] at hchain
  cases hxs : L.idle.filter fun b => L.cls b = i with
  | nil =>
      rw [hxs] at hchain
      cases hchain
  | cons b xs =>
      rw [hxs] at hchain
      obtain ⟨hab, c, d, hc, hp, hd⟩ := hchain
      cases hab
      have hmem : a ∈ L.idle.filter fun b => L.cls b = i := hxs ▸ .head _
      obtain ⟨hidle, hcls⟩ := List.mem_filter.mp hmem
      refine ⟨hidle, of_decide_eq_true hcls, c, d, hc, hp, ?_⟩
      rw [← List.erase_filter, hxs, List.erase_cons_head]
      exact hd

/-- A block from `malloc` becomes live: it was not in use, so it is on no free list. -/
theorem fresh (h : PoolAt s L) {s' : PoolMem} {a : Addr} {c : Block} {i : Nat}
    (ha : s.heap a = none) (hi : i ≤ s.pool.n) (hc : c.p = .field i)
    (hsame : SameClasses s.pool s'.pool) (hheap : s'.heap = Function.update s.heap a (some c))
    (hheader : s'.pool.header = s.pool.header)
    (hused : s'.pool.used
      = s.pool.used + BitVec.ofNat 32 (if i < s.pool.n then s.pool.size i else 0))
    (hempty : s'.pool.empty = s.pool.empty) :
    PoolAt s' ⟨a :: L.live, L.idle, Function.update L.cls a i⟩ := by
  have hlive : a ∉ L.live := fun hm => h.mapped (.inl hm) ha
  have hidle : a ∉ L.idle := fun hm => h.mapped (.inr hm) ha
  have hne : ∀ b, b ∈ L.live ∨ b ∈ L.idle → b ≠ a := by
    rintro b hb rfl
    exact hb.elim hlive hidle
  have hcls : ∀ b, b ∈ L.live ∨ b ∈ L.idle → Function.update L.cls a i b = L.cls b :=
    fun b hb => Function.update_of_ne (hne b hb) _ _
  have hkeep : ∀ b, b ∈ L.live ∨ b ∈ L.idle → s'.heap b = s.heap b := by
    intro b hb
    rw [hheap, Function.update_of_ne (hne b hb)]
  refine ⟨hsame.ok h.ok, ?_, ?_, ?_, ?_, ?_, ?_⟩
  · refine List.nodup_cons.mpr ⟨fun hm => ?_, h.nodup⟩
    exact (List.mem_append.mp hm).elim hlive hidle
  · intro b hb
    dsimp only at hb ⊢
    rw [hcls b (.inr hb), hsame.1]
    exact h.idle b hb
  · intro b hb
    dsimp only at hb ⊢
    rw [hsame.1]
    rcases List.mem_cons.mp hb with rfl | hb
    · rw [Function.update_self]
      exact ⟨hi, c, by rw [hheap, Function.update_self], hc⟩
    · rw [hcls b (.inl hb), hkeep b (.inl hb)]
      exact h.live b hb
  · intro j hj
    have hfilter : (L.idle.filter fun b => Function.update L.cls a i b = j)
        = L.idle.filter fun b => L.cls b = j :=
      List.filter_congr fun b hb => by rw [hcls b (.inr hb)]
    dsimp only
    rw [hfilter, hheader]
    exact (h.lists j (hsame.1 ▸ hj)).congr fun b hb => hkeep b (.inr (List.mem_filter.mp hb).1)
  · dsimp only
    rw [hsame.classSum, classSum_cons, Function.update_self, classSum_update _ _ hlive,
      BitVec.ofNat_add, BitVec.add_comm, ← h.used]
    exact hused
  · rw [hsame.classSum, classSum_update _ _ hidle, hempty]
    exact h.empty

/-- The block at the head of a free list becomes live, and the list goes on with the next
one. -/
theorem reuse (h : PoolAt s L) {s' : PoolMem} {i : Nat} (hi : i < s.pool.n) {a : Addr} {c : Block}
    {d : Option Addr} (hidle : a ∈ L.idle) (hcls : L.cls a = i)
    (hd : Chain s.heap d ((L.idle.erase a).filter fun b => L.cls b = i)) (hc : c.p = .field i)
    (hsame : SameClasses s.pool s'.pool) (hheap : s'.heap = Function.update s.heap a (some c))
    (hheader : s'.pool.header = Function.update s.pool.header i d)
    (hused : s'.pool.used = s.pool.used + BitVec.ofNat 32 (s.pool.size i))
    (hempty : s'.pool.empty = s.pool.empty - BitVec.ofNat 32 (s.pool.size i)) :
    PoolAt s' ⟨a :: L.live, L.idle.erase a, L.cls⟩ := by
  obtain ⟨-, hni, -⟩ := List.nodup_append.mp h.nodup
  have hlive : a ∉ L.live := fun hm => h.live_idle hm hidle
  have hout : a ∉ L.idle.erase a := fun hm => (hni.mem_erase_iff.mp hm).1 rfl
  have hkeep : ∀ b, b ≠ a → s'.heap b = s.heap b := by
    intro b hb
    rw [hheap, Function.update_of_ne hb]
  refine ⟨hsame.ok h.ok, ?_, ?_, ?_, ?_, ?_, ?_⟩
  · refine List.nodup_cons.mpr ⟨fun hm => (List.mem_append.mp hm).elim hlive hout, ?_⟩
    exact h.nodup.sublist (List.erase_sublist.append_left _)
  · intro b hb
    rw [hsame.1]
    exact h.idle b (List.mem_of_mem_erase hb)
  · intro b hb
    dsimp only at hb ⊢
    rw [hsame.1]
    rcases List.mem_cons.mp hb with rfl | hb
    · rw [hcls]
      exact ⟨hi.le, c, by rw [hheap, Function.update_self], hc⟩
    · rw [hkeep b fun he => hlive (he ▸ hb)]
      exact h.live b hb
  · intro j hj
    dsimp only
    have hframe : ∀ b ∈ (L.idle.erase a).filter fun b => L.cls b = j, s'.heap b = s.heap b :=
      fun b hb => hkeep b fun he => hout (he ▸ (List.mem_filter.mp hb).1)
    rw [hheader]
    by_cases hji : j = i
    · subst hji
      rw [Function.update_self]
      exact hd.congr hframe
    · rw [Function.update_of_ne hji]
      refine Chain.congr ?_ hframe
      rw [← List.erase_filter, List.erase_of_not_mem]
      · exact h.lists j (hsame.1 ▸ hj)
      · intro hm
        have := of_decide_eq_true (List.mem_filter.mp hm).2
        omega
  · rw [hsame.classSum, classSum_cons, hcls, if_pos hi, BitVec.ofNat_add, BitVec.add_comm, ← h.used]
    exact hused
  · have hsum := h.empty
    rw [classSum_erase _ _ hidle, hcls, if_pos hi, BitVec.ofNat_add] at hsum
    rw [hsame.classSum, hempty, hsum, BitVec.add_comm, BitVec.add_sub_cancel]

/-- A live block of a class becomes the head of the free list of that class. -/
theorem retire (h : PoolAt s L) {s' : PoolMem} {a : Addr} {c : Block} (hlive : a ∈ L.live)
    (hlt : L.cls a < s.pool.n) (hc : c.p = .next (s.pool.header (L.cls a)))
    (hsame : SameClasses s.pool s'.pool) (hheap : s'.heap = Function.update s.heap a (some c))
    (hheader : s'.pool.header = Function.update s.pool.header (L.cls a) (some a))
    (hused : s'.pool.used = s.pool.used - BitVec.ofNat 32 (s.pool.size (L.cls a)))
    (hempty : s'.pool.empty = s.pool.empty + BitVec.ofNat 32 (s.pool.size (L.cls a))) :
    PoolAt s' ⟨L.live.erase a, a :: L.idle, L.cls⟩ := by
  obtain ⟨hnl, -, -⟩ := List.nodup_append.mp h.nodup
  have hidle : a ∉ L.idle := h.live_idle hlive
  have hout : a ∉ L.live.erase a := fun hm => (hnl.mem_erase_iff.mp hm).1 rfl
  have hkeep : ∀ b, b ≠ a → s'.heap b = s.heap b := by
    intro b hb
    rw [hheap, Function.update_of_ne hb]
  refine ⟨hsame.ok h.ok, ?_, ?_, ?_, ?_, ?_, ?_⟩
  · have hperm : (L.live.erase a ++ a :: L.idle).Perm (L.live ++ L.idle) :=
      List.perm_middle.trans ((List.perm_cons_erase hlive).symm.append_right L.idle)
    exact hperm.nodup_iff.mpr h.nodup
  · intro b hb
    rw [hsame.1]
    rcases List.mem_cons.mp hb with rfl | hb
    · exact hlt
    · exact h.idle b hb
  · intro b hb
    rw [hsame.1, hkeep b fun he => hout (he ▸ hb)]
    exact h.live b (List.mem_of_mem_erase hb)
  · intro j hj
    dsimp only
    have hframe : ∀ b ∈ L.idle.filter fun b => L.cls b = j, s'.heap b = s.heap b :=
      fun b hb => hkeep b fun he => hidle (he ▸ (List.mem_filter.mp hb).1)
    rw [hsame.1] at hj
    rw [hheader]
    by_cases hja : j = L.cls a
    · subst hja
      rw [Function.update_self, List.filter_cons_of_pos (by simp)]
      exact ⟨rfl, c, _, by rw [hheap, Function.update_self], hc, (h.lists _ hj).congr hframe⟩
    · rw [Function.update_of_ne hja, List.filter_cons_of_neg (by simpa using Ne.symm hja)]
      exact (h.lists j hj).congr hframe
  · have hsum := h.used
    rw [classSum_erase _ _ hlive, if_pos hlt, BitVec.ofNat_add] at hsum
    rw [hsame.classSum, hused, hsum, BitVec.add_comm, BitVec.add_sub_cancel]
  · rw [hsame.classSum, classSum_cons, if_pos hlt, BitVec.ofNat_add, BitVec.add_comm, ← h.empty]
    exact hempty

/-- A live block without a class goes back to `malloc`, and no free list has known it. -/
theorem release (h : PoolAt s L) {a : Addr} (hlive : a ∈ L.live) (hge : ¬L.cls a < s.pool.n) :
    PoolAt ⟨s.pool, Function.update s.heap a none⟩ ⟨L.live.erase a, L.idle, L.cls⟩ := by
  obtain ⟨hnl, -, -⟩ := List.nodup_append.mp h.nodup
  have hout : a ∉ L.live.erase a := fun hm => (hnl.mem_erase_iff.mp hm).1 rfl
  refine ⟨h.ok, ?_, h.idle, ?_, ?_, ?_, h.empty⟩
  · exact h.nodup.sublist ((List.erase_sublist).append_right _)
  · intro b hb
    dsimp only
    rw [Function.update_of_ne fun he : b = a => hout (he ▸ hb)]
    exact h.live b (List.mem_of_mem_erase hb)
  · intro j hj
    refine (h.lists j hj).congr fun b hb => Function.update_of_ne (fun he : b = a => ?_) _ _
    exact h.live_idle hlive (he ▸ (List.mem_filter.mp hb).1)
  · have hsum := h.used
    rwa [classSum_erase _ _ hlive, if_neg hge, Nat.zero_add] at hsum

/-- Writing data into a block leaves the agreement, which is about the headers of the
blocks. -/
theorem write (h : PoolAt s L) {a : Addr} {c c' : Block} (hc : s.heap a = some c)
    (hp : c'.p = c.p) : PoolAt ⟨s.pool, Function.update s.heap a (some c')⟩ L := by
  refine ⟨h.ok, h.nodup, h.idle, ?_, ?_, h.used, h.empty⟩
  · intro b hb
    obtain ⟨hle, cb, hcb, hpb⟩ := h.live b hb
    by_cases hba : b = a
    · subst hba
      rw [hc] at hcb
      cases hcb
      exact ⟨hle, c', Function.update_self .., hp.trans hpb⟩
    · exact ⟨hle, cb, (Function.update_of_ne hba _ _).trans hcb, hpb⟩
  · intro j hj
    exact (h.lists j hj).write hc hp

end PoolAt

/-! ## The operations -/

theorem poolBind_eq_ok {α β : Type} {x : PoolRun α} {f : α → PoolRun β} {b : β} :
    (x >>= f) = .ok b ↔ ∃ a, x = .ok a ∧ f a = .ok b := by
  cases x with
  | ok a => simp
  | error e =>
      refine iff_of_false (fun h => ?_) (by rintro ⟨a, ha, -⟩; cases ha)
      cases h

theorem block_eq_ok {s : PoolMem} {a : Addr} {c : Block} :
    s.block a = .ok c ↔ s.heap a = some c := by
  rw [PoolMem.block]
  cases s.heap a <;> simp

theorem setP_eq {s : PoolMem} {a : Addr} {c : Block} (hc : s.heap a = some c) (p : Header) :
    s.setP a p = .ok ⟨s.pool, Function.update s.heap a (some { c with p := p })⟩ := by
  rw [PoolMem.setP, PoolMem.block, hc]
  rfl

theorem field_eq {s : PoolMem} {a : Addr} {c : Block} {i : Nat} (hc : s.heap a = some c)
    (hp : c.p = .field i) : s.field a = .ok i := by
  rw [PoolMem.field, PoolMem.block, hc, poolBind_ok, hp]

theorem next_eq {s : PoolMem} {a : Addr} {c : Block} {d : Option Addr} (hc : s.heap a = some c)
    (hp : c.p = .next d) : s.next a = .ok d := by
  rw [PoolMem.next, PoolMem.block, hc, poolBind_ok, hp]

/-- `malloc` answers NULL or a block that is not in use. -/
def Fresh (s : PoolMem) (malloc : Malloc) : Prop := ∀ a c, malloc = some (a, c) → s.heap a = none

/-- The first idle block of class `i`, `c`, before `d`, with its class written. -/
def PoolMem.reuse (s : PoolMem) (a : Addr) (c : Block) (i : Nat) (d : Option Addr) : PoolMem :=
  { s with heap := Function.update s.heap a (some { c with p := .field i }) }.setHeader i d

/-- What `memp_alloc` comes to: it answers NULL and has done nothing, or a block
that has no class, the first idle one of the class, or a new one for it. -/
inductive AllocPath (s : PoolMem) (size : Nat) (malloc : Malloc) : PoolMem → Option Addr →
    Prop where
  | zero : size = 0 → AllocPath s size malloc s none
  | refused : malloc = none →
      (s.pool.classIndex size < s.pool.n → s.pool.header (s.pool.classIndex size) = none) →
      AllocPath s size malloc s none
  | single {a : Addr} {c : Block} : s.pool.n ≤ s.pool.classIndex size → malloc = some (a, c) →
      AllocPath s size malloc (s.fresh a c size s.pool.n) (some a)
  | idle {a : Addr} {c : Block} {d : Option Addr} : s.pool.classIndex size < s.pool.n →
      s.pool.header (s.pool.classIndex size) = some a → s.heap a = some c → c.p = .next d →
      AllocPath s size malloc
        ((s.reuse a c (s.pool.classIndex size) d).setCounts
          (s.pool.empty - BitVec.ofNat 32 (s.pool.size (s.pool.classIndex size)))
          (s.pool.used + BitVec.ofNat 32 (s.pool.size (s.pool.classIndex size)))) (some a)
  | fresh {a : Addr} {c : Block} : s.pool.classIndex size < s.pool.n →
      s.pool.header (s.pool.classIndex size) = none → malloc = some (a, c) →
      AllocPath s size malloc
        ((s.fresh a c (s.pool.size (s.pool.classIndex size)) (s.pool.classIndex size)).setCounts
          s.pool.empty (s.pool.used + BitVec.ofNat 32 (s.pool.size (s.pool.classIndex size))))
        (some a)

theorem next_eq_ok {s : PoolMem} {a : Addr} {d : Option Addr} (h : s.next a = .ok d) :
    ∃ c, s.heap a = some c ∧ c.p = .next d := by
  obtain ⟨c, hc, h⟩ := poolBind_eq_ok.mp h
  cases hp : c.p with
  | next d' =>
      rw [hp] at h
      cases h
      exact ⟨c, block_eq_ok.mp hc, hp⟩
  | field i =>
      rw [hp] at h
      cases h

theorem mempAlloc_path {s s' : PoolMem} {size : Nat} {malloc : Malloc} {r : Option Addr}
    (hrun : mempAlloc s size malloc = .ok (s', r)) : AllocPath s size malloc s' r := by
  unfold mempAlloc at hrun
  by_cases h0 : size = 0
  · rw [if_pos h0] at hrun
    cases hrun
    exact .zero h0
  rw [if_neg h0] at hrun
  dsimp only at hrun
  by_cases hbig : s.pool.classIndex size ≥ s.pool.n
  · rw [if_pos hbig] at hrun
    cases malloc with
    | none =>
        cases hrun
        exact .refused rfl fun hlt => absurd hlt (Nat.not_lt.mpr hbig)
    | some ac =>
        cases hrun
        exact .single hbig rfl
  rw [if_neg hbig] at hrun
  have hlt : s.pool.classIndex size < s.pool.n := Nat.lt_of_not_le hbig
  cases hhead : s.pool.header (s.pool.classIndex size) with
  | some a =>
      rw [hhead] at hrun
      obtain ⟨d, hnext, hrun⟩ := poolBind_eq_ok.mp hrun
      obtain ⟨c, hc, hp⟩ := next_eq_ok hnext
      rw [setP_eq (s := s.setHeader (s.pool.classIndex size) d) hc] at hrun
      cases hrun
      exact .idle hlt hhead hc hp
  | none =>
      rw [hhead] at hrun
      cases malloc with
      | none =>
          cases hrun
          exact .refused rfl fun _ => hhead
      | some ac =>
          cases hrun
          exact .fresh hlt hhead rfl

/-- `memp_alloc` comes back: the header of the idle block that it takes is read as the link
that it is. -/
theorem mempAlloc_returns {s : PoolMem} {L : PoolLedger} (h : PoolAt s L) (size : Nat)
    (malloc : Malloc) : ∃ s' r, mempAlloc s size malloc = .ok (s', r) := by
  unfold mempAlloc
  by_cases h0 : size = 0
  · exact ⟨_, _, if_pos h0⟩
  rw [if_neg h0]
  dsimp only
  by_cases hbig : s.pool.classIndex size ≥ s.pool.n
  · rw [if_pos hbig]
    cases malloc <;> exact ⟨_, _, rfl⟩
  rw [if_neg hbig]
  cases hhead : s.pool.header (s.pool.classIndex size) with
  | some a =>
      obtain ⟨-, -, c, d, hc, hp, -⟩ := h.head (Nat.lt_of_not_le hbig) hhead
      dsimp only
      rw [next_eq hc hp, poolBind_ok, setP_eq (s := s.setHeader (s.pool.classIndex size) d) hc]
      exact ⟨_, _, rfl⟩
  | none =>
      dsimp only
      cases malloc <;> exact ⟨_, _, rfl⟩

theorem mempAlloc_spec {s : PoolMem} {L : PoolLedger} (h : PoolAt s L) {malloc : Malloc}
    (hfresh : Fresh s malloc) (size : Nat) : ∃ s' r, mempAlloc s size malloc = .ok (s', r)
      ∧ PoolAt s' (L.take s.pool size r) ∧ SameClasses s.pool s'.pool
      ∧ ∀ a, r = some a → a ∉ L.live := by
  obtain ⟨s', r, hrun⟩ := mempAlloc_returns h size malloc
  refine ⟨s', r, hrun, ?_⟩
  have hnone : ∀ a, (none : Option Addr) = some a → a ∉ L.live := fun a ha => by cases ha
  have hnew : ∀ a c, malloc = some (a, c) → a ∉ L.live ∧ a ∉ L.idle := by
    intro a c hmalloc
    have ha := hfresh a c hmalloc
    exact ⟨fun hm => h.mapped (.inl hm) ha, fun hm => h.mapped (.inr hm) ha⟩
  have hsome : ∀ a, a ∉ L.live → ∀ b, some a = some b → b ∉ L.live := by
    rintro a ha b ⟨⟩
    exact ha
  cases mempAlloc_path hrun with
  | zero | refused => exact ⟨h, ⟨rfl, rfl⟩, hnone⟩
  | @single a c hbig hmalloc =>
      obtain ⟨hlive, hidle⟩ := hnew a c hmalloc
      refine ⟨?_, ⟨rfl, rfl⟩, hsome a hlive⟩
      simp only [PoolLedger.take, if_neg hidle, Nat.le_antisymm (classIndex_le h.ok size) hbig]
      refine h.fresh (hfresh a c hmalloc) (Nat.le_refl _) (c := ⟨.field s.pool.n, size, c.d⟩) rfl
        ⟨rfl, rfl⟩ rfl rfl ?_ rfl
      rw [if_neg (Nat.lt_irrefl _)]
      exact (BitVec.add_zero _).symm
  | @idle a c d hlt hhead hc hp =>
      obtain ⟨hidle, hcls, c', d', hc', hp', hd⟩ := h.head hlt hhead
      cases hc.symm.trans hc'
      cases hp.symm.trans hp'
      refine ⟨?_, ⟨rfl, rfl⟩, hsome a fun hm => h.live_idle hm hidle⟩
      simp only [PoolLedger.take, if_pos hidle]
      exact h.reuse hlt hidle hcls hd (c := { c with p := .field _ }) rfl ⟨rfl, rfl⟩ rfl rfl rfl rfl
  | @fresh a c hlt hhead hmalloc =>
      obtain ⟨hlive, hidle⟩ := hnew a c hmalloc
      refine ⟨?_, ⟨rfl, rfl⟩, hsome a hlive⟩
      simp only [PoolLedger.take, if_neg hidle]
      refine h.fresh (hfresh a c hmalloc) hlt.le (c := ⟨.field _, s.pool.size _, c.d⟩) rfl
        ⟨rfl, rfl⟩
        rfl rfl ?_ rfl
      rw [if_pos hlt]
      rfl

theorem mempRecycle_spec {s : PoolMem} {L : PoolLedger} (h : PoolAt s L) {d : Addr}
    (hd : d ∈ L.live) : ∃ s', mempRecycle s (some d) = .ok s' ∧ PoolAt s' (L.give s.pool d)
      ∧ SameClasses s.pool s'.pool := by
  obtain ⟨hle, c, hc, hp⟩ := h.live d hd
  simp only [mempRecycle, field_eq hc hp, poolBind_ok]
  by_cases hlt : L.cls d < s.pool.n
  · rw [if_neg (h.ok.small _ hlt), setP_eq hc, poolBind_ok]
    refine ⟨_, rfl, ?_, rfl, rfl⟩
    simp only [PoolLedger.give, if_pos hlt]
    exact h.retire hd hlt (c := { c with p := .next _ }) rfl ⟨rfl, rfl⟩ rfl rfl rfl rfl
  · have heq : L.cls d = s.pool.n := by omega
    rw [if_pos (by rw [heq]; exact h.ok.last)]
    refine ⟨_, rfl, ?_, rfl, rfl⟩
    simp only [PoolLedger.give, if_neg hlt]
    exact h.release hd hlt

/-- Moving to another block, or staying for want of one: in both cases without a fault, and
the pool agrees with the ledger. -/
theorem mempMove_spec {s : PoolMem} {L : PoolLedger} (h : PoolAt s L) {malloc : Malloc}
    (hfresh : Fresh s malloc) {d : Addr} (hd : d ∈ L.live) (size n : Nat) :
    ∃ s' r, mempMove s d size n malloc = .ok (s', r) ∧ SameClasses s.pool s'.pool
      ∧ ((r = none ∧ PoolAt s' L)
        ∨ ∃ a, r = some a ∧ a ≠ d ∧ PoolAt s' ((L.take s.pool size r).give s.pool d)) := by
  obtain ⟨s1, r, hrun, h1, hsame, hnew⟩ := mempAlloc_spec h hfresh size
  rw [mempMove, moveBy, hrun, poolBind_ok]
  cases r with
  | none => exact ⟨s1, none, rfl, hsame, .inl ⟨rfl, h1⟩⟩
  | some a =>
      have hlive : ∀ b, b = a ∨ b ∈ L.live → b ∈ (L.take s.pool size (some a)).live := by
        intro b hb
        rw [PoolLedger.take]
        split <;> exact List.mem_cons.mpr hb
      obtain ⟨-, c, hc, -⟩ := h1.live d (hlive d (.inr hd))
      obtain ⟨-, c', hc', -⟩ := h1.live a (hlive a (.inl rfl))
      have h2 : PoolAt ⟨s1.pool, Function.update s1.heap a
          (some { c' with d := fun k => if k < n then c.d k else c'.d k })⟩ _ := h1.write hc' rfl
      obtain ⟨s3, hrun3, h3, hsame3⟩ := mempRecycle_spec h2 (hlive d (.inr hd))
      have hcopy : s1.memcpy a d n = .ok ⟨s1.pool, Function.update s1.heap a
          (some { c' with d := fun k => if k < n then c.d k else c'.d k })⟩ := by
        rw [PoolMem.memcpy, PoolMem.block, hc, poolBind_ok, PoolMem.block, hc']
        rfl
      dsimp only
      rw [hcopy, poolBind_ok, hrun3]
      refine ⟨s3, some a, rfl, ⟨hsame3.1.trans hsame.1, hsame3.2.trans hsame.2⟩,
        .inr ⟨a, rfl, ?_, ?_⟩⟩
      · rintro rfl
        exact hnew a rfl hd
      · rw [PoolLedger.give] at h3 ⊢
        rwa [hsame.1] at h3

/-- What `memp_realloc(d, size)` comes to for a live block: it stays, it moves with
a copy of its class or of what is asked for, or `realloc` is called. -/
inductive ReallocPath (copy : PoolMem → Addr → Addr → Nat → PoolRun PoolMem) (s : PoolMem)
    (L : PoolLedger) (d : Addr) (size : Nat) (malloc : Malloc) : Prop where
  | stays : L.cls d < s.pool.n → size ≤ s.pool.size (L.cls d) →
      reallocBy copy s (some d) size malloc = .ok (s, some d) → ReallocPath copy s L d size malloc
  | grows : L.cls d < s.pool.n → s.pool.size (L.cls d) < size →
      reallocBy copy s (some d) size malloc = moveBy copy s d size (s.pool.size (L.cls d)) malloc →
        ReallocPath copy s L d size malloc
  | enters : L.cls d = s.pool.n → size ≤ s.pool.size (s.pool.n - 1) →
      reallocBy copy s (some d) size malloc = moveBy copy s d size size malloc →
        ReallocPath copy s L d size malloc
  | resizes : L.cls d = s.pool.n → s.pool.size (s.pool.n - 1) < size →
      reallocBy copy s (some d) size malloc = s.reallocData d size malloc →
        ReallocPath copy s L d size malloc

theorem PoolAt.path {s : PoolMem} {L : PoolLedger} (h : PoolAt s L) {d : Addr} (hd : d ∈ L.live)
    {size : Nat} (h0 : size ≠ 0) (copy : PoolMem → Addr → Addr → Nat → PoolRun PoolMem)
    (malloc : Malloc) : ReallocPath copy s L d size malloc := by
  obtain ⟨hle, c, hc, hp⟩ := h.live d hd
  have heq : reallocBy copy s (some d) size malloc
      = if s.pool.size (L.cls d) = sizeMax then
          if size ≤ s.pool.size (s.pool.n - 1) then moveBy copy s d size size malloc
          else s.reallocData d size malloc
        else if size > s.pool.size (L.cls d) then
          moveBy copy s d size (s.pool.size (L.cls d)) malloc
        else .ok (s, some d) := by
    simp only [reallocBy, if_neg h0, field_eq hc hp, poolBind_ok]
  by_cases hlt : L.cls d < s.pool.n
  · rw [if_neg (h.ok.small _ hlt)] at heq
    by_cases hgrow : size > s.pool.size (L.cls d)
    · rw [if_pos hgrow] at heq
      exact .grows hlt hgrow heq
    · rw [if_neg hgrow] at heq
      exact .stays hlt (Nat.le_of_not_lt hgrow) heq
  · have hn : L.cls d = s.pool.n := by omega
    rw [if_pos (by rw [hn]; exact h.ok.last)] at heq
    by_cases hsmall : size ≤ s.pool.size (s.pool.n - 1)
    · rw [if_pos hsmall] at heq
      exact .enters hn hsmall heq
    · rw [if_neg hsmall] at heq
      exact .resizes hn (Nat.lt_of_not_le hsmall) heq

/-- The call `memp_realloc(d, size)` goes to `realloc`. -/
def Reallocs (s : PoolMem) (d : Addr) (size : Nat) : Prop :=
  s.field d = .ok s.pool.n ∧ s.pool.size (s.pool.n - 1) < size

/-- `malloc` and `realloc` answer NULL or a block that is not in use; only
`realloc` may answer the one it was given. -/
def FreshFor (s : PoolMem) (d : Addr) (size : Nat) (malloc : Malloc) : Prop :=
  ∀ a c, malloc = some (a, c) → s.heap a = none ∨ a = d ∧ Reallocs s d size

/-- Where `realloc` is not called, `FreshFor` says that `malloc` answers no block in use. -/
theorem FreshFor.fresh {s : PoolMem} {L : PoolLedger} (h : PoolAt s L) {d : Addr}
    (hd : d ∈ L.live) {size : Nat} {malloc : Malloc} (hfresh : FreshFor s d size malloc)
    (hnot : L.cls d < s.pool.n ∨ size ≤ s.pool.size (s.pool.n - 1)) : Fresh s malloc := by
  intro a c hac
  rcases hfresh a c hac with ha | ⟨-, hf, hlarge⟩
  · exact ha
  · obtain ⟨-, c', hc', hp⟩ := h.live d hd
    rw [field_eq hc' hp] at hf
    injection hf with hf
    omega

/-- `realloc` for a block that has no class comes back, and the pool agrees with the ledger
afterwards, whether the block has moved or not. -/
theorem PoolAt.reallocData {s : PoolMem} {L : PoolLedger} (h : PoolAt s L) {d : Addr}
    (hd : d ∈ L.live) (hn : L.cls d = s.pool.n) {size : Nat}
    (hlarge : s.pool.size (s.pool.n - 1) < size) {malloc : Malloc}
    (hfresh : FreshFor s d size malloc) : ∃ s' r, s.reallocData d size malloc = .ok (s', r)
      ∧ PoolAt s' (match r with
        | none => L
        | some a => if a = d then L else (L.take s.pool size (some a)).give s.pool d) := by
  obtain ⟨hle, c, hc, hp⟩ := h.live d hd
  cases malloc with
  | none => exact ⟨s, none, rfl, h⟩
  | some ac =>
      obtain ⟨a, c'⟩ := ac
      simp only [PoolMem.reallocData, PoolMem.block, hc, poolBind_ok]
      refine ⟨_, some a, rfl, ?_⟩
      dsimp only
      by_cases had : a = d
      · subst had
        rw [if_pos rfl, Function.update_idem]
        exact h.write hc rfl
      · have ha : s.heap a = none :=
          (hfresh a c' rfl).resolve_right fun hr => had hr.1
        have hidle : a ∉ L.idle := fun hm => h.mapped (.inr hm) ha
        have hge : ¬s.pool.n < s.pool.n := Nat.lt_irrefl _
        rw [if_neg had]
        simp only [PoolLedger.take, if_neg hidle, PoolLedger.give,
          Function.update_of_ne (Ne.symm had), hn, if_neg hge, classIndex_large h.ok hlarge,
          List.erase_cons_tail (show ¬(a == d) = true by simpa using had)]
        refine (h.release hd (by omega)).fresh ?_ (Nat.le_refl _) (c := ⟨c.p, size, _⟩)
          (hp.trans (by rw [hn])) ⟨rfl, rfl⟩ rfl rfl ?_ rfl
        · dsimp only
          rw [Function.update_of_ne had, ha]
        · rw [if_neg hge]
          exact (BitVec.add_zero _).symm

theorem mempRealloc_spec {s : PoolMem} {L : PoolLedger} (h : PoolAt s L) {d : Addr}
    (hd : d ∈ L.live) {size : Nat} {malloc : Malloc} (hfresh : FreshFor s d size malloc) :
    ∃ s' r, mempRealloc s (some d) size malloc = .ok (s', r)
      ∧ PoolAt s' (L.resize s.pool d size r) := by
  by_cases h0 : size = 0
  · obtain ⟨s', hrun, h', -⟩ := mempRecycle_spec h hd
    simp only [mempRealloc, reallocBy, PoolLedger.resize, if_pos h0, hrun, poolBind_ok]
    exact ⟨s', none, rfl, h'⟩
  simp only [PoolLedger.resize, if_neg h0]
  have hmoved : ∀ n, Fresh s malloc → ∃ s' r, mempMove s d size n malloc = .ok (s', r)
      ∧ PoolAt s' (match r with
        | none => L
        | some a => if a = d then L else (L.take s.pool size (some a)).give s.pool d) := by
    intro n hmalloc
    obtain ⟨s', r, hrun, -, hcase⟩ := mempMove_spec h hmalloc hd size n
    refine ⟨s', r, hrun, ?_⟩
    rcases hcase with ⟨rfl, h'⟩ | ⟨a, rfl, hne, h'⟩
    · exact h'
    · dsimp only
      rw [if_neg hne]
      exact h'
  cases h.path hd h0 PoolMem.memcpy malloc with
  | stays hlt hle hrun =>
      refine ⟨s, some d, hrun, ?_⟩
      dsimp only
      rw [if_pos rfl]
      exact h
  | grows hlt _ hrun =>
      rw [← reallocBy_memcpy, hrun]
      exact hmoved _ (hfresh.fresh h hd (.inl hlt))
  | enters _ hsmall hrun =>
      rw [← reallocBy_memcpy, hrun]
      exact hmoved _ (hfresh.fresh h hd (.inr hsmall))
  | resizes hn hlarge hrun =>
      rw [← reallocBy_memcpy, hrun]
      exact h.reallocData hd hn hlarge hfresh

/-! ## Runs -/

/-- What calls on live blocks lead to from a new pool. -/
inductive PoolReach (fsize : List Nat) : PoolMem → PoolLedger → Prop where
  | new {p : MemPool} : mempNew true fsize = some p →
      PoolReach fsize ⟨p, fun _ => none⟩ ⟨[], [], fun _ => 0⟩
  | alloc {s s' : PoolMem} {L : PoolLedger} {size : Nat} {malloc : Malloc} {r : Option Addr} :
      PoolReach fsize s L → Fresh s malloc → mempAlloc s size malloc = .ok (s', r) →
        PoolReach fsize s' (L.take s.pool size r)
  | realloc {s s' : PoolMem} {L : PoolLedger} {d : Addr} {size : Nat} {malloc : Malloc}
      {r : Option Addr} : PoolReach fsize s L → d ∈ L.live → FreshFor s d size malloc →
        mempRealloc s (some d) size malloc = .ok (s', r) →
          PoolReach fsize s' (L.resize s.pool d size r)
  | recycle {s s' : PoolMem} {L : PoolLedger} {d : Addr} : PoolReach fsize s L → d ∈ L.live →
      mempRecycle s (some d) = .ok s' → PoolReach fsize s' (L.give s.pool d)

/-- 1 to 255 size classes, none of them `SIZE_MAX`. -/
structure SizesOk (fsize : List Nat) : Prop where
  pos : 1 ≤ fsize.length
  le : fsize.length ≤ 255
  small : ∀ x ∈ fsize, x ≠ sizeMax

theorem poolReach_inv {fsize : List Nat} (hok : SizesOk fsize) {s : PoolMem} {L : PoolLedger}
    (h : PoolReach fsize s L) : PoolAt s L := by
  induction h with
  | new hp =>
      obtain ⟨p, hp', hclasses, hempty, hused, hheader⟩ := mempNew_ok hok.pos hok.le hok.small
      rw [hp] at hp'
      cases hp'
      refine ⟨hclasses, List.nodup_nil, ?_, ?_, fun i _ => hheader i, hused, hempty⟩
      · exact fun a ha => nomatch ha
      · exact fun a ha => nomatch ha
  | @alloc s _ L size _ _ _ hfresh hrun ih =>
      obtain ⟨s', r, hrun', h', -⟩ := mempAlloc_spec ih hfresh size
      rw [hrun] at hrun'
      cases hrun'
      exact h'
  | realloc _ hd hfresh hrun ih =>
      obtain ⟨s', r, hrun', h'⟩ := mempRealloc_spec ih hd hfresh
      rw [hrun] at hrun'
      cases hrun'
      exact h'
  | recycle _ hd hrun ih =>
      obtain ⟨s', hrun', h', -⟩ := mempRecycle_spec ih hd
      rw [hrun] at hrun'
      cases hrun'
      exact h'

/-! ## Destroying the pool -/

theorem destroyClass_spec {i : Nat} {xs : List Addr} {k : Nat} {s : PoolMem} {freed : List Addr}
    (h : Chain s.heap (s.pool.header i) xs) (hnd : xs.Nodup) (hk : xs.length < k) :
    ∃ s', destroyClass k s i freed = .ok (s', freed ++ xs)
      ∧ (∀ j, j ≠ i → s'.pool.header j = s.pool.header j) ∧ ∀ a ∉ xs, s'.heap a = s.heap a := by
  induction xs generalizing k s freed with
  | nil =>
      obtain ⟨k, rfl⟩ := Nat.exists_eq_add_of_lt hk
      have hnone : s.pool.header i = none := h
      refine ⟨s, ?_, fun _ _ => rfl, fun _ _ => rfl⟩
      rw [destroyClass, hnone, List.append_nil]
  | cons a xs ih =>
      obtain ⟨k, rfl⟩ := Nat.exists_eq_add_of_lt hk
      obtain ⟨ha, c, d, hc, hp, hd⟩ := h
      obtain ⟨hout, hnd⟩ := List.nodup_cons.mp hnd
      let s1 : PoolMem := PoolMem.setHeader ⟨s.pool, Function.update s.heap a none⟩ i d
      have hchain : Chain s1.heap (s1.pool.header i) xs := by
        have hhead : s1.pool.header i = d := Function.update_self ..
        rw [hhead]
        exact hd.congr fun b hb => Function.update_of_ne (fun he : b = a => hout (he ▸ hb)) _ _
      obtain ⟨s', hrun, hheader, hheap⟩ := @ih (xs.length + 1 + k) s1 (freed ++ [a]) hchain hnd
        (by omega)
      refine ⟨s', ?_, ?_, ?_⟩
      · rw [destroyClass, ha]
        dsimp only
        rw [next_eq hc hp, poolBind_ok, List.length_cons]
        rw [List.append_assoc] at hrun
        exact hrun
      · intro j hj
        rw [hheader j hj]
        exact Function.update_of_ne hj _ _
      · intro b hb
        obtain ⟨hba, hb⟩ := not_or.mp fun hm => hb (List.mem_cons.mpr hm)
        rw [hheap b hb]
        exact Function.update_of_ne hba _ _

/-- The lists of the classes from `i` on are freed one after the other: since no block is on
two of them, none is freed twice. -/
theorem destroyClasses_spec {k : Nat} (xs : Nat → List Addr) (hnd : ∀ j, (xs j).Nodup)
    (hdisj : ∀ j j', j ≠ j' → (xs j).Disjoint (xs j')) {m : Nat} {s : PoolMem} {i : Nat}
    {freed : List Addr}
    (h : ∀ j, i ≤ j → j < i + m → Chain s.heap (s.pool.header j) (xs j) ∧ (xs j).length < k) :
    ∃ s', destroyClasses k m s i freed = .ok (s', freed ++ (List.range' i m).flatMap xs) := by
  induction m generalizing s i freed with
  | zero => exact ⟨s, by rw [destroyClasses, List.range'_zero, List.flatMap_nil, List.append_nil]⟩
  | succ m ih =>
      obtain ⟨hchain, hk⟩ := h i (Nat.le_refl _) (by omega)
      obtain ⟨s1, hrun, hheader, hheap⟩ := @destroyClass_spec i _ k s freed hchain (hnd i) hk
      have hrest : ∀ j, i + 1 ≤ j → j < i + 1 + m →
          Chain s1.heap (s1.pool.header j) (xs j) ∧ (xs j).length < k := by
        intro j hj hjm
        have hji : j ≠ i := by omega
        obtain ⟨hc, hl⟩ := h j (by omega) (by omega)
        refine ⟨?_, hl⟩
        rw [hheader j hji]
        exact hc.congr fun a ha => hheap a fun hai => hdisj j i hji ha hai
      obtain ⟨s', hrun'⟩ := @ih s1 (i + 1) (freed ++ xs i) hrest
      refine ⟨s', ?_⟩
      rw [destroyClasses, hrun, poolBind_ok]
      dsimp only
      rw [hrun', List.range'_succ, List.flatMap_cons, List.append_assoc]

theorem flatMap_cls_perm {idle : List Addr} {cls : Addr → Nat} {n : Nat} (hnd : idle.Nodup)
    (hn : ∀ a ∈ idle, cls a < n) :
    ((List.range n).flatMap fun i => idle.filter fun a => cls a = i).Perm idle := by
  refine (List.perm_ext_iff_of_nodup ?_ hnd).mpr ?_
  · refine List.nodup_flatMap.mpr ⟨fun i _ => hnd.filter _, ?_⟩
    refine List.nodup_range.imp fun {i j} hij a hi hj => hij ?_
    exact (of_decide_eq_true (List.mem_filter.mp hi).2).symm.trans
      (of_decide_eq_true (List.mem_filter.mp hj).2)
  · intro a
    constructor
    · intro ha
      obtain ⟨i, -, ha⟩ := List.mem_flatMap.mp ha
      exact (List.mem_filter.mp ha).1
    · intro ha
      exact List.mem_flatMap.mpr ⟨cls a, List.mem_range.mpr (hn a ha),
        List.mem_filter.mpr ⟨ha, decide_eq_true rfl⟩⟩

theorem PoolAt.destroy {s : PoolMem} {L : PoolLedger} (h : PoolAt s L) :
    ∃ k, ∀ k' ≥ k, ∃ s' freed, mempDestroy k' s = .ok (s', freed) ∧ freed.Perm L.idle := by
  obtain ⟨-, hnd, -⟩ := List.nodup_append.mp h.nodup
  refine ⟨L.idle.length + 1, ?_⟩
  intro k' hk
  have hchains : ∀ j, 0 ≤ j → j < 0 + s.pool.n →
      Chain s.heap (s.pool.header j) (L.idle.filter fun a => L.cls a = j)
        ∧ (L.idle.filter fun a => L.cls a = j).length < k' := by
    intro j _ hj
    have hl := List.length_filter_le (fun a => decide (L.cls a = j)) L.idle
    exact ⟨h.lists j (by omega), by omega⟩
  have hdisj : ∀ j j', j ≠ j' →
      (L.idle.filter fun a => L.cls a = j).Disjoint (L.idle.filter fun a => L.cls a = j') := by
    intro j j' hne a hj hj'
    exact hne ((of_decide_eq_true (List.mem_filter.mp hj).2).symm.trans
      (of_decide_eq_true (List.mem_filter.mp hj').2))
  obtain ⟨s', hrun⟩ := @destroyClasses_spec k' _ (fun j => hnd.filter _) hdisj _ _ _ [] hchains
  rw [List.nil_append, ← List.range_eq_range'] at hrun
  exact ⟨s', _, hrun, flatMap_cls_perm hnd h.idle⟩

/-! ## The pool and its ledger -/

/-- What holds of a pool whose clients pass only live blocks. -/
structure PoolSound (s : PoolMem) (L : PoolLedger) : Prop where
  /-- The live blocks are distinct, and none is idle. -/
  distinct : L.live.Nodup ∧ ∀ a ∈ L.live, a ∉ L.idle
  /-- The free list of a class holds its idle blocks, each once. -/
  lists : ∀ i < s.pool.n, ∃ xs, Chain s.heap (s.pool.header i) xs ∧ xs.Nodup
    ∧ ∀ a, a ∈ xs ↔ a ∈ L.idle ∧ L.cls a = i
  /-- An idle block has a class, and so is on a free list. -/
  listed : ∀ a ∈ L.idle, L.cls a < s.pool.n
  /-- A live block has the class it was created for. -/
  keeps : ∀ a ∈ L.live, s.field a = .ok (L.cls a)
  used : s.pool.used = BitVec.ofNat 32 (classSum s.pool L.cls L.live)
  empty : s.pool.empty = BitVec.ofNat 32 (classSum s.pool L.cls L.idle)
  /-- `memp_destroy` ends, and frees each idle block once. -/
  destroy : ∃ k, ∀ k' ≥ k, ∃ s' freed, mempDestroy k' s = .ok (s', freed) ∧ freed.Perm L.idle
  /-- No call on a live block goes wrong. -/
  alloc : ∀ size malloc, Fresh s malloc → ∃ s' r, mempAlloc s size malloc = .ok (s', r)
  realloc : ∀ d ∈ L.live, ∀ size malloc, FreshFor s d size malloc →
    ∃ s' r, mempRealloc s (some d) size malloc = .ok (s', r)
  recycle : ∀ d ∈ L.live, ∃ s', mempRecycle s (some d) = .ok s'

theorem PoolAt.sound {s : PoolMem} {L : PoolLedger} (h : PoolAt s L) : PoolSound s L := by
  obtain ⟨hnl, hni, -⟩ := List.nodup_append.mp h.nodup
  refine ⟨⟨hnl, fun a ha => h.live_idle ha⟩, ?_, h.idle, ?_, h.used, h.empty, h.destroy, ?_, ?_,
    ?_⟩
  · intro i hi
    refine ⟨_, h.lists i hi, hni.filter _, ?_⟩
    intro a
    rw [List.mem_filter, decide_eq_true_eq]
  · intro a ha
    obtain ⟨-, c, hc, hp⟩ := h.live a ha
    exact field_eq hc hp
  · intro size malloc hfresh
    obtain ⟨s', r, hrun, -⟩ := mempAlloc_spec h hfresh size
    exact ⟨s', r, hrun⟩
  · intro d hd size malloc hfresh
    obtain ⟨s', r, hrun, -⟩ := mempRealloc_spec h hd hfresh
    exact ⟨s', r, hrun⟩
  · intro d hd
    obtain ⟨s', hrun, -⟩ := mempRecycle_spec h hd
    exact ⟨s', hrun⟩

/-- After any calls on live blocks the pool agrees with the ledger: no block is live and
idle at once or on a list twice, the counters are right, and `memp_destroy` frees each idle
block once. -/
theorem poolRun_sound {fsize : List Nat} (hok : SizesOk fsize) {s : PoolMem} {L : PoolLedger}
    (h : PoolReach fsize s L) : PoolSound s L :=
  (poolReach_inv hok h).sound

/-- A pool with the classes of 8 and 16 bytes. -/
def smallPool (empty used : BitVec 32) (header : Nat → Option Addr) : MemPool :=
  ⟨empty, used, 2, fun i => if i = 0 then 8 else if i = 1 then 16 else sizeMax, header⟩

def zeroBlock (p : Header) (cap : Nat) : Block := ⟨p, cap, fun _ => 0⟩

def smallHeap (p : Header) : Addr → Option Block :=
  Function.update (fun _ => none) 1 (some (zeroBlock p 8))

theorem smallPool_new : mempNew true [16, 8] = some (smallPool 0 0 fun _ => none) := by
  refine congrArg some (congrArg (fun f => MemPool.mk 0 0 2 f fun _ => none) (funext fun i => ?_))
  rcases i with _ | _ | i <;> rfl

/-- Two blocks have been allocated, and the first of them recycled. -/
theorem poolRun_sound_new : ∃ s L, L.live = [2] ∧ L.idle = [1] ∧ PoolSound s L := by
  have hok : SizesOk [16, 8] := ⟨by decide, by decide, by decide⟩
  have hfresh : ∀ {s : PoolMem} {a : Addr}, s.heap a = none →
      Fresh s (some (a, zeroBlock (.next none) 0)) := by
    rintro s a ha _ _ ⟨⟩
    exact ha
  have h0 := PoolReach.new smallPool_new
  have h1 : PoolReach [16, 8] ⟨smallPool 0 8 fun _ => none, smallHeap (.field 0)⟩ _ :=
    @PoolReach.alloc _ _ _ _ 5 _ (some 1) h0 (hfresh (a := 1) rfl) rfl
  have h2 : PoolReach [16, 8] ⟨smallPool 0 24 fun _ => none,
      Function.update (smallHeap (.field 0)) 2 (some (zeroBlock (.field 1) 16))⟩ _ :=
    @PoolReach.alloc _ _ _ _ 12 _ (some 2) h1 (hfresh (a := 2) rfl) rfl
  exact ⟨_, _, rfl, rfl, poolRun_sound hok (h2.recycle (d := 1) (by decide) rfl)⟩

end Artorias
