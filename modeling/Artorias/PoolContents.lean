import Artorias.PoolServes

/-!
# What becomes of the bytes of a block

In every use of the pool, with its clients writing into their blocks, a live
block has room for what was last asked for, and one that has no class has more
room than the largest class (`poolUse_room`). This is what makes the copy
lengths of `memp_realloc` safe: a block that moves keeps its bytes, and no copy
leaves either block (`mempRealloc_resized`).
-/

namespace Artorias

/-! ## Use of the pool -/

/-- `d->d[k] = v`, by the client that has the block. -/
def PoolMem.store (s : PoolMem) (d : Addr) (c : Block) (k : Nat) (v : BitVec 8) : PoolMem :=
  { s with heap := Function.update s.heap d (some { c with d := Function.update c.d k v }) }

theorem PoolMem.store_room {s : PoolMem} {d : Addr} {c : Block} (hc : s.heap d = some c) (k : Nat)
    (v : BitVec 8) : SameRoom [] s (s.store d c k v) :=
  .write hc rfl

/-- A request for `size` bytes has been answered with `r`. -/
def askedFor (asked : Addr → Nat) (size : Nat) (r : Option Addr) : Addr → Nat :=
  match r with
  | none => asked
  | some a => Function.update asked a size

/-- What calls on live blocks, and writing into them, lead to from a new pool;
`asked` keeps for how many bytes each live block was last asked. -/
inductive PoolUse (fsize : List Nat) : PoolMem → PoolLedger → (Addr → Nat) → Prop where
  | new {p : MemPool} : mempNew true fsize = some p →
      PoolUse fsize ⟨p, fun _ => none⟩ ⟨[], [], fun _ => 0⟩ fun _ => 0
  | alloc {s s' : PoolMem} {L : PoolLedger} {asked : Addr → Nat} {size : Nat} {malloc : Malloc}
      {r : Option Addr} : PoolUse fsize s L asked → Fresh s malloc →
        mempAlloc s size malloc = .ok (s', r) →
          PoolUse fsize s' (L.take s.pool size r) (askedFor asked size r)
  | realloc {s s' : PoolMem} {L : PoolLedger} {asked : Addr → Nat} {d : Addr} {size : Nat}
      {malloc : Malloc} {r : Option Addr} : PoolUse fsize s L asked → d ∈ L.live →
        FreshFor s d size malloc → mempRealloc s (some d) size malloc = .ok (s', r) →
          PoolUse fsize s' (L.resize s.pool d size r) (askedFor asked size r)
  | recycle {s s' : PoolMem} {L : PoolLedger} {asked : Addr → Nat} {d : Addr} :
      PoolUse fsize s L asked → d ∈ L.live → mempRecycle s (some d) = .ok s' →
        PoolUse fsize s' (L.give s.pool d) asked
  | store {s : PoolMem} {L : PoolLedger} {asked : Addr → Nat} {d : Addr} {c : Block} {k : Nat}
      {v : BitVec 8} : PoolUse fsize s L asked → d ∈ L.live → s.heap d = some c → k < c.cap →
        PoolUse fsize (s.store d c k v) L asked

/-! ## Room -/

/-- The block at `a` has room for `size` bytes, and, if its class `i` is none, is larger
than the largest class. -/
def RoomFor (s : PoolMem) (i size : Nat) (a : Addr) : Prop :=
  ∃ cap, s.capOf a = some cap ∧ size ≤ cap ∧ (¬i < s.pool.n → s.pool.size (s.pool.n - 1) < cap)

/-- Every live block has room for what was asked for. -/
def RoomAt (s : PoolMem) (L : PoolLedger) (asked : Addr → Nat) : Prop :=
  ∀ a ∈ L.live, RoomFor s (L.cls a) (asked a) a

theorem RoomFor.same {s s' : PoolMem} {i size : Nat} {a : Addr} (h : RoomFor s i size a)
    (hsame : SameClasses s.pool s'.pool) (hcap : s'.capOf a = s.capOf a) : RoomFor s' i size a := by
  obtain ⟨cap, hc, hle, hlarge⟩ := h
  refine ⟨cap, hcap.trans hc, hle, ?_⟩
  rw [hsame.1, hsame.2]
  exact hlarge

/-- What `memp_alloc` answers has room for the request: as a block of its class, or as one
that was made for it. -/
theorem mempAlloc_roomFor {s s' : PoolMem} {L : PoolLedger} (h : PoolAt s L) (hcaps : CapsAt s L)
    {size : Nat} {malloc : Malloc} {a : Addr} (hfresh : Fresh s malloc)
    (hrun : mempAlloc s size malloc = .ok (s', some a)) :
    RoomFor s' (s.pool.classIndex size) size a := by
  obtain ⟨hsame, hserves⟩ := mempAlloc_room hfresh hrun
  have hpos := h.ok.pos
  rw [RoomFor, hsame.classes.1, hsame.classes.2]
  cases hserves a rfl with
  | idle hlt hhead hfield hcap =>
      obtain ⟨hidle, hcls, -⟩ := h.head hlt hhead
      refine ⟨_, hcap.trans (hcaps a (.inr hidle) (hcls ▸ hlt)), ?_, fun hge => absurd hlt hge⟩
      rw [hcls]
      rcases classIndex_spec h.ok size with ⟨he, -⟩ | ⟨-, hle, -⟩
      · omega
      · exact hle
  | fresh hlt ha hfield hcap =>
      refine ⟨_, hcap, ?_, fun hge => absurd hlt hge⟩
      rcases classIndex_spec h.ok size with ⟨he, -⟩ | ⟨-, hle, -⟩
      · omega
      · exact hle
  | single hge ha hfield hcap =>
      refine ⟨size, hcap, Nat.le_refl _, fun _ => ?_⟩
      rcases classIndex_spec h.ok size with ⟨-, hall⟩ | ⟨hlt, -⟩
      · exact hall _ (by omega)
      · omega

namespace RoomAt

variable {s s' : PoolMem} {L L' : PoolLedger} {asked : Addr → Nat}

/-- Blocks that go, or stay with the room they have, leave room in those that are live. -/
theorem keep (h : RoomAt s L asked) (hsame : SameClasses s.pool s'.pool) (hcls : L'.cls = L.cls)
    (hold : ∀ b ∈ L'.live, b ∈ L.live ∧ s'.capOf b = s.capOf b) : RoomAt s' L' asked := by
  intro b hb
  obtain ⟨hb, hcap⟩ := hold b hb
  rw [hcls]
  exact (h b hb).same hsame hcap

/-- A block for `size` bytes has come, and of the others those that are still live have kept
their room. -/
theorem come (h : RoomAt s L asked) (hsame : SameClasses s.pool s'.pool) {a : Addr} {size : Nat}
    (hnew : RoomFor s' (L'.cls a) size a) (hold : ∀ b ∈ L'.live, b ≠ a →
      b ∈ L.live ∧ L'.cls b = L.cls b ∧ s'.capOf b = s.capOf b) :
    RoomAt s' L' (askedFor asked size (some a)) := by
  intro b hb
  rw [askedFor]
  by_cases hba : b = a
  · subst hba
    rw [Function.update_self]
    exact hnew
  · obtain ⟨hb, hcls, hcap⟩ := hold b hb hba
    rw [Function.update_of_ne hba, hcls]
    exact (h b hb).same hsame hcap

end RoomAt

theorem PoolLedger.resize_none (L : PoolLedger) (p : MemPool) (d : Addr) {size : Nat}
    (h0 : size ≠ 0) : L.resize p d size none = L := by
  simp only [PoolLedger.resize, if_neg h0]

theorem PoolLedger.resize_some (L : PoolLedger) (p : MemPool) (d : Addr) {size : Nat}
    (h0 : size ≠ 0) (a : Addr) : L.resize p d size (some a)
      = if a = d then L else (L.take p size (some a)).give p d := by
  simp only [PoolLedger.resize, if_neg h0]

theorem PoolLedger.take_cls {s s' : PoolMem} {L : PoolLedger} (h : PoolAt s L) {size : Nat}
    {malloc : Malloc} {a : Addr} (hfresh : Fresh s malloc)
    (hrun : mempAlloc s size malloc = .ok (s', some a)) :
    (L.take s.pool size (some a)).live = a :: L.live
      ∧ (L.take s.pool size (some a)).cls a = s.pool.classIndex size
      ∧ ∀ b, b ≠ a → (L.take s.pool size (some a)).cls b = L.cls b := by
  have hserves := (mempAlloc_room hfresh hrun).2 a rfl
  by_cases hidle : a ∈ L.idle
  · rw [PoolLedger.take, if_pos hidle]
    refine ⟨rfl, ?_, fun _ _ => rfl⟩
    cases hserves with
    | idle hlt hhead => exact (h.head hlt hhead).2.1
    | fresh _ ha => exact absurd ha (h.mapped (.inr hidle))
    | single _ ha => exact absurd ha (h.mapped (.inr hidle))
  · rw [PoolLedger.take, if_neg hidle]
    exact ⟨rfl, Function.update_self .., fun b hb => Function.update_of_ne hb _ _⟩

/-! ## What the calls write -/

/-- `memp_alloc` writes into the block that it answers and into no other, and when it
answers NULL nothing has changed. -/
theorem mempAlloc_writes {s s' : PoolMem} {size : Nat} {malloc : Malloc} {r : Option Addr}
    (hrun : mempAlloc s size malloc = .ok (s', r)) :
    (r = none → s' = s) ∧ ∀ b, r ≠ some b → s'.heap b = s.heap b := by
  have hnew : ∀ (c : Block) (a b : Addr), some a ≠ some b →
      Function.update s.heap a (some c) b = s.heap b := by
    intro c a b hab
    exact Function.update_of_ne (fun he => hab (congrArg some he.symm)) _ _
  cases mempAlloc_path hrun with
  | zero | refused => exact ⟨fun _ => rfl, fun _ _ => rfl⟩
  | single | idle | fresh => exact ⟨fun h => absurd h (Option.some_ne_none _), hnew _ _⟩

/-- `memp_recycle` writes into the block that it gets only, and leaves there nothing, or a
link of a free list: no data of it can be read back as a block in use. -/
theorem mempRecycle_writes {s s' : PoolMem} {d : Addr} (hrun : mempRecycle s (some d) = .ok s') :
    (∀ c, s'.heap d = some c → ∃ q, c.p = .next q) ∧ ∀ b, b ≠ d → s'.heap b = s.heap b := by
  obtain ⟨f, -, hrun⟩ := poolBind_eq_ok.mp hrun
  by_cases hmax : s.pool.size f = sizeMax
  · rw [if_pos hmax] at hrun
    cases hrun
    refine ⟨?_, fun b hb => Function.update_of_ne hb _ _⟩
    intro c hc
    dsimp only at hc
    rw [Function.update_self] at hc
    cases hc
  · rw [if_neg hmax] at hrun
    obtain ⟨s1, hset, hret⟩ := poolBind_eq_ok.mp hrun
    cases hret
    obtain ⟨c1, -, hret⟩ := poolBind_eq_ok.mp hset
    cases hret
    refine ⟨?_, fun b hb => Function.update_of_ne hb _ _⟩
    intro c hc
    change Function.update s.heap d _ d = some c at hc
    rw [Function.update_self] at hc
    cases hc
    exact ⟨_, rfl⟩

theorem moveBy_cases {copy : PoolMem → Addr → Addr → Nat → PoolRun PoolMem} {s s' : PoolMem}
    {d : Addr} {size n : Nat} {malloc : Malloc} {r : Option Addr}
    (hrun : moveBy copy s d size n malloc = .ok (s', r)) :
    (r = none ∧ mempAlloc s size malloc = .ok (s', none))
      ∨ ∃ a s1 s2, r = some a ∧ mempAlloc s size malloc = .ok (s1, some a)
        ∧ copy s1 a d n = .ok s2 ∧ mempRecycle s2 (some d) = .ok s' := by
  obtain ⟨⟨s1, r1⟩, halloc, hrun⟩ := poolBind_eq_ok.mp hrun
  cases r1 with
  | none =>
      cases hrun
      exact .inl ⟨rfl, halloc⟩
  | some a =>
      obtain ⟨s2, hcopy, hrun⟩ := poolBind_eq_ok.mp hrun
      obtain ⟨s3, hrecycle, hret⟩ := poolBind_eq_ok.mp hrun
      cases hret
      exact .inr ⟨a, s1, s2, rfl, halloc, hcopy, hrecycle⟩

/-! ## Room in every use -/

namespace RoomAt

variable {s s' : PoolMem} {L : PoolLedger} {asked : Addr → Nat}

theorem take (hroom : RoomAt s L asked) (h : PoolAt s L) (hcaps : CapsAt s L) {size : Nat}
    {malloc : Malloc} {r : Option Addr} (hfresh : Fresh s malloc)
    (hrun : mempAlloc s size malloc = .ok (s', r)) :
    RoomAt s' (L.take s.pool size r) (askedFor asked size r) := by
  have hsame := (mempAlloc_room hfresh hrun).1
  cases r with
  | none =>
      exact hroom.keep hsame.classes rfl fun b hb => ⟨hb, hsame.caps b List.not_mem_nil⟩
  | some a =>
      obtain ⟨hlive, hcls, hold⟩ := PoolLedger.take_cls h hfresh hrun
      refine hroom.come hsame.classes ?_ ?_
      · rw [hcls]
        exact mempAlloc_roomFor h hcaps hfresh hrun
      · intro b hb hba
        rw [hlive] at hb
        have hb : b ∈ L.live := (List.mem_cons.mp hb).resolve_left hba
        exact ⟨hb, hold b hba, hsame.caps b fun hm => hba (List.mem_singleton.mp hm)⟩

theorem give (hroom : RoomAt s L asked) (h : PoolAt s L) {d : Addr} {p : MemPool}
    (hrun : mempRecycle s (some d) = .ok s') : RoomAt s' (L.give p d) asked := by
  have hsame := (SameRoom.recycle hrun).1
  refine hroom.keep hsame.classes rfl ?_
  intro b hb
  obtain ⟨hbd, hb⟩ := ((List.nodup_append.mp h.nodup).1.mem_erase_iff).mp hb
  exact ⟨hb, hsame.caps b fun hm => hbd (List.mem_singleton.mp hm)⟩

/-- Moving to another block gives one with room for the request, or leaves the old one where
it was. -/
theorem move (hroom : RoomAt s L asked) (h : PoolAt s L) (hcaps : CapsAt s L) {d : Addr}
    {size n : Nat} {malloc : Malloc} {r : Option Addr} (hfresh : Fresh s malloc) (hd : d ∈ L.live)
    (h0 : size ≠ 0) (hrun : mempMove s d size n malloc = .ok (s', r)) :
    RoomAt s' (L.resize s.pool d size r) (askedFor asked size r) := by
  rcases moveBy_cases hrun with ⟨rfl, halloc⟩ | ⟨a, s1, s2, rfl, halloc, hcopy, hrecycle⟩
  · rw [PoolLedger.resize_none _ _ _ h0]
    exact hroom.take h hcaps hfresh halloc
  · obtain ⟨h1, hnew⟩ := h.alloc hfresh halloc
    have hne : a ≠ d := fun he => hnew a rfl (he ▸ hd)
    have hsame : SameRoom [] s1 s2 := .memcpy hcopy
    have hroom2 : RoomAt s2 (L.take s.pool size (some a)) (askedFor asked size (some a)) :=
      (hroom.take h hcaps hfresh halloc).keep hsame.classes rfl fun b hb =>
        ⟨hb, hsame.caps b List.not_mem_nil⟩
    rw [PoolLedger.resize_some _ _ _ h0, if_neg hne]
    exact hroom2.give (h1.memcpy hcopy) hrecycle

/-- `realloc` for a block that has no class answers one with room for the request. -/
theorem reallocData (hroom : RoomAt s L asked) (h : PoolAt s L) {d : Addr} {size : Nat}
    {malloc : Malloc} {r : Option Addr} (hlarge : s.pool.size (s.pool.n - 1) < size)
    (hfresh : FreshFor s d size malloc) (h0 : size ≠ 0)
    (hrun : s.reallocData d size malloc = .ok (s', r)) :
    RoomAt s' (L.resize s.pool d size r) (askedFor asked size r) := by
  rcases reallocData_cases hrun with ⟨-, rfl, rfl⟩ | ⟨a, c, c', rfl, rfl, -, hpool, hheap⟩
  · rw [PoolLedger.resize_none _ _ _ h0]
    exact hroom
  have hsame : SameClasses s.pool s'.pool := by
    rw [hpool]
    exact .refl _
  have hcap : ∀ b, b ≠ a → b ≠ d → s'.capOf b = s.capOf b := by
    intro b hba hbd
    rw [PoolMem.capOf, hheap, Function.update_of_ne hba, Function.update_of_ne hbd]
    rfl
  rw [PoolLedger.resize_some _ _ _ h0]
  refine hroom.come hsame ?_ ?_
  · refine ⟨size, ?_, Nat.le_refl _, ?_⟩
    · rw [PoolMem.capOf, hheap, Function.update_self]
      rfl
    · rw [hpool]
      exact fun _ => hlarge
  · intro b hb hba
    by_cases had : a = d
    · rw [if_pos had] at hb ⊢
      exact ⟨hb, rfl, hcap b hba (had ▸ hba)⟩
    · rw [if_neg had] at hb ⊢
      have ha : s.heap a = none := (hfresh a c' rfl).resolve_right fun hr => had hr.1
      have hidle : a ∉ L.idle := fun hm => h.mapped (.inr hm) ha
      have hlive : a ∉ L.live := fun hm => h.mapped (.inl hm) ha
      rw [PoolLedger.take, if_neg hidle] at hb ⊢
      have hnd : (a :: L.live).Nodup :=
        List.nodup_cons.mpr ⟨hlive, (List.nodup_append.mp h.nodup).1⟩
      obtain ⟨hbd, hb⟩ := hnd.mem_erase_iff.mp hb
      refine ⟨(List.mem_cons.mp hb).resolve_left hba, ?_, hcap b hba hbd⟩
      exact Function.update_of_ne hba _ _

theorem resize (hroom : RoomAt s L asked) (h : PoolAt s L) (hcaps : CapsAt s L) {d : Addr}
    {size : Nat} {malloc : Malloc} {r : Option Addr} (hd : d ∈ L.live)
    (hfresh : FreshFor s d size malloc) (hrun : mempRealloc s (some d) size malloc = .ok (s', r)) :
    RoomAt s' (L.resize s.pool d size r) (askedFor asked size r) := by
  by_cases h0 : size = 0
  · simp only [mempRealloc, reallocBy, if_pos h0] at hrun
    obtain ⟨s1, hrecycle, hret⟩ := poolBind_eq_ok.mp hrun
    cases hret
    rw [PoolLedger.resize, if_pos h0]
    exact hroom.give h hrecycle
  rw [← reallocBy_memcpy] at hrun
  cases h.path hd h0 PoolMem.memcpy malloc with
  | stays hlt hle heq =>
      rw [heq] at hrun
      cases hrun
      obtain ⟨cap, hcap, -, hlarge⟩ := hroom d hd
      rw [hcaps d (.inl hd) hlt] at hcap
      cases hcap
      rw [PoolLedger.resize_some _ _ _ h0, if_pos rfl]
      exact hroom.come ⟨rfl, rfl⟩ ⟨_, hcaps d (.inl hd) hlt, hle, hlarge⟩ fun b hb _ =>
        ⟨hb, rfl, rfl⟩
  | grows hlt _ heq =>
      exact hroom.move h hcaps (hfresh.fresh h hd (.inl hlt)) hd h0 (heq.symm.trans hrun)
  | enters _ hsmall heq =>
      exact hroom.move h hcaps (hfresh.fresh h hd (.inr hsmall)) hd h0 (heq.symm.trans hrun)
  | resizes _ hlarge heq =>
      exact hroom.reallocData h hlarge hfresh h0 (heq.symm.trans hrun)

end RoomAt

/-- In every use of a pool it agrees with the ledger, its blocks have the room of their
classes, and there is room in every live block for what it was last asked for. -/
theorem poolUse_room {fsize : List Nat} (hok : SizesOk fsize) {s : PoolMem} {L : PoolLedger}
    {asked : Addr → Nat} (h : PoolUse fsize s L asked) : PoolAt s L ∧ CapsAt s L
      ∧ RoomAt s L asked := by
  induction h with
  | new hp =>
      refine ⟨poolReach_inv hok (.new hp), (poolReach_classes hok (.new hp)).2, ?_⟩
      intro a ha
      cases ha
  | alloc _ hfresh hrun ih =>
      obtain ⟨hat, hcaps, hroom⟩ := ih
      exact ⟨(hat.alloc hfresh hrun).1, hcaps.take hat hfresh hrun,
        hroom.take hat hcaps hfresh hrun⟩
  | realloc _ hd hfresh hrun ih =>
      obtain ⟨hat, hcaps, hroom⟩ := ih
      obtain ⟨s', r, hrun', hat'⟩ := mempRealloc_spec hat hd hfresh
      cases hrun.symm.trans hrun'
      exact ⟨hat', (hcaps.resize hat hd hfresh hrun).2, hroom.resize hat hcaps hd hfresh hrun⟩
  | recycle _ hd hrun ih =>
      obtain ⟨hat, hcaps, hroom⟩ := ih
      obtain ⟨s', hrun', hat', -⟩ := mempRecycle_spec hat hd
      cases hrun.symm.trans hrun'
      exact ⟨hat', hcaps.give hat hd hrun, hroom.give hat hrun⟩
  | @store _ _ _ _ _ k v _ hd hc _ ih =>
      obtain ⟨hat, hcaps, hroom⟩ := ih
      have hsame := PoolMem.store_room hc k v
      refine ⟨hat.write hc rfl, hcaps.of_sameRoom hsame, ?_⟩
      exact hroom.keep hsame.classes rfl fun b hb => ⟨hb, hsame.caps b List.not_mem_nil⟩

/-! ## `memp_realloc` -/

/-- `memcpy` that also stops where it would leave one of the blocks. -/
def PoolMem.memcpyIn (s : PoolMem) (ndd dd : Addr) (n : Nat) : PoolRun PoolMem := do
  let c ← s.block dd
  let c' ← s.block ndd
  if c.cap < n then .error (.unmapped dd)
  else if c'.cap < n then .error (.unmapped ndd)
  else s.memcpy ndd dd n

/-- What `memp_realloc(d, size)`, answering `r`, makes of a block that was last
asked for with `old` bytes. -/
structure Resized (s s' : PoolMem) (L L' : PoolLedger) (d : Addr) (old size : Nat)
    (r : Option Addr) : Prop where
  /-- The block answered is large enough, and begins as the given one did. -/
  bytes : ∀ a, r = some a → ∃ c c', s.heap d = some c ∧ s'.heap a = some c' ∧ size ≤ c'.cap
    ∧ ∀ k < min old size, c'.d k = c.d k
  /-- The other live blocks are as before. -/
  others : r ≠ none → ∀ b ∈ L.live, b ≠ d → b ∈ L'.live ∧ s'.heap b = s.heap b
  live : ∀ a, r = some a → a ∈ L'.live
  /-- A block that has moved away is live no more: it is freed, or on a free list. -/
  gone : ∀ a, r = some a → a ≠ d → d ∉ L'.live ∧ ∀ c, s'.heap d = some c → ∃ q, c.p = .next q
  /-- NULL leaves everything as it was. -/
  failed : r = none → s' = s ∧ L' = L

section
variable {s s' : PoolMem} {L : PoolLedger} {asked : Addr → Nat} {d : Addr} {size : Nat}
  {malloc : Malloc} {r : Option Addr}

theorem PoolMem.memcpyIn_eq {nd : Addr} {n : Nat} {c c' : Block} (hc : s.heap d = some c)
    (hc' : s.heap nd = some c') (hn : n ≤ c.cap) (hn' : n ≤ c'.cap) :
    s.memcpyIn nd d n = s.memcpy nd d n := by
  simp only [PoolMem.memcpyIn, PoolMem.block, hc, hc', poolBind_ok]
  rw [if_neg (Nat.not_lt.mpr hn), if_neg (Nat.not_lt.mpr hn')]

/-- After a move `a` is live in the place of `d`, and nothing else has changed hands. -/
theorem PoolLedger.moved_live (h : PoolAt s L) (hfresh : Fresh s malloc) (hd : d ∈ L.live)
    {a : Addr} {s1 : PoolMem} (halloc : mempAlloc s size malloc = .ok (s1, some a)) :
    a ≠ d ∧ ∀ b, b ∈ ((L.take s.pool size (some a)).give s.pool d).live
      ↔ b ≠ d ∧ (b = a ∨ b ∈ L.live) := by
  have hnew : a ∉ L.live := (h.alloc hfresh halloc).2 a rfl
  refine ⟨fun he => hnew (he ▸ hd), ?_⟩
  intro b
  have hnd : (a :: L.live).Nodup :=
    List.nodup_cons.mpr ⟨hnew, (List.nodup_append.mp h.nodup).1⟩
  rw [PoolLedger.give, (PoolLedger.take_cls h hfresh halloc).1, hnd.mem_erase_iff, List.mem_cons]

/-- A move keeps the bytes, with a copy that covers what was asked for and fits in both
blocks. -/
theorem mempMove_resized (h : PoolAt s L) (hcaps : CapsAt s L) (hfresh : Fresh s malloc)
    (hd : d ∈ L.live) (old : Nat) {n : Nat} (h0 : size ≠ 0) {c : Block} (hc : s.heap d = some c)
    (hcap : n ≤ c.cap) (hn : n ≤ size) (hmin : min old size ≤ n)
    (hrun : mempMove s d size n malloc = .ok (s', r)) :
    moveBy PoolMem.memcpyIn s d size n malloc = .ok (s', r)
      ∧ Resized s s' L (L.resize s.pool d size r) d old size r := by
  rcases moveBy_cases hrun with ⟨rfl, halloc⟩ | ⟨a, s1, s2, rfl, halloc, hcopy, hrecycle⟩
  · obtain rfl := (mempAlloc_writes halloc).1 rfl
    rw [PoolLedger.resize_none _ _ _ h0]
    refine ⟨?_, ?_⟩
    · rw [moveBy, halloc]
      rfl
    · constructor <;> simp
  · obtain ⟨hne, hlive⟩ := PoolLedger.moved_live h hfresh hd halloc
    obtain ⟨cap, hcapOf, hle, -⟩ := mempAlloc_roomFor h hcaps hfresh halloc
    obtain ⟨c1, hc1, rfl⟩ := Option.map_eq_some_iff.mp hcapOf
    have hother : ∀ b, b ≠ a → s1.heap b = s.heap b := fun b hb =>
      (mempAlloc_writes halloc).2 b fun he => hb (Option.some.inj he).symm
    have hcd : s1.heap d = some c := (hother d (Ne.symm hne)).trans hc
    obtain ⟨hgone, hkeep⟩ := mempRecycle_writes hrecycle
    have hs2 : s2.heap = Function.update s1.heap a
        (some { c1 with d := fun k => if k < n then c.d k else c1.d k }) := by
      simp only [PoolMem.memcpy, PoolMem.block, hcd, hc1, poolBind_ok] at hcopy
      cases hcopy
      rfl
    refine ⟨?_, ?_⟩
    · rw [moveBy, halloc, poolBind_ok]
      dsimp only
      rw [PoolMem.memcpyIn_eq hcd hc1 hcap (by omega), hcopy, poolBind_ok, hrecycle]
      rfl
    · rw [PoolLedger.resize_some _ _ _ h0, if_neg hne]
      have hheap : ∀ b, b ≠ a → b ≠ d → s'.heap b = s.heap b := by
        intro b hba hbd
        rw [hkeep b hbd, hs2, Function.update_of_ne hba, hother b hba]
      constructor
      · rintro b ⟨⟩
        have hca : s'.heap a = some { c1 with d := fun k => if k < n then c.d k else c1.d k } := by
          rw [hkeep a hne, hs2, Function.update_self]
        refine ⟨c, _, hc, hca, hle, ?_⟩
        intro k hk
        exact if_pos (show k < n by omega)
      · intro _ b hb hbd
        have hba : b ≠ a := fun he => (h.alloc hfresh halloc).2 a rfl (he ▸ hb)
        exact ⟨(hlive b).mpr ⟨hbd, .inr hb⟩, hheap b hba hbd⟩
      · rintro b ⟨⟩
        exact (hlive a).mpr ⟨hne, .inl rfl⟩
      · rintro b ⟨⟩ _
        exact ⟨fun hm => ((hlive d).mp hm).1 rfl, hgone⟩
      · intro hr
        cases hr

/-- `realloc` itself keeps the bytes, for a block that has no class. -/
theorem reallocData_resized (h : PoolAt s L) (hd : d ∈ L.live) (hn : L.cls d = s.pool.n)
    (old : Nat) (h0 : size ≠ 0) (hlarge : s.pool.size (s.pool.n - 1) < size)
    (hfresh : FreshFor s d size malloc) {c : Block} (hc : s.heap d = some c) (hold : old ≤ c.cap)
    (hrun : s.reallocData d size malloc = .ok (s', r)) :
    Resized s s' L (L.resize s.pool d size r) d old size r := by
  rcases reallocData_cases hrun with ⟨-, rfl, rfl⟩ | ⟨a, c1, c', rfl, rfl, hc1, hpool, hheap⟩
  · rw [PoolLedger.resize_none _ _ _ h0]
    constructor <;> simp
  cases hc.symm.trans hc1
  have hbytes : ∀ b, some a = some b → ∃ c c', s.heap d = some c ∧ s'.heap b = some c'
      ∧ size ≤ c'.cap ∧ ∀ k < min old size, c'.d k = c.d k := by
    rintro b ⟨⟩
    refine ⟨c, _, hc, by rw [hheap, Function.update_self], Nat.le_refl _, ?_⟩
    intro k hk
    exact if_pos (show k < min c.cap size by omega)
  have hkeep : ∀ b, b ≠ a → b ≠ d → s'.heap b = s.heap b := fun b hba hbd => by
    rw [hheap, Function.update_of_ne hba, Function.update_of_ne hbd]
  rw [PoolLedger.resize_some _ _ _ h0]
  by_cases had : a = d
  · subst had
    rw [if_pos rfl]
    constructor
    · exact hbytes
    · exact fun _ b hb hbd => ⟨hb, hkeep b hbd hbd⟩
    · rintro b ⟨⟩
      exact hd
    · rintro b ⟨⟩ hne
      exact absurd rfl hne
    · intro hr
      cases hr
  · have ha : s.heap a = none := (hfresh a c' rfl).resolve_right fun hr => had hr.1
    have hidle : a ∉ L.idle := fun hm => h.mapped (.inr hm) ha
    have hnew : a ∉ L.live := fun hm => h.mapped (.inl hm) ha
    have hnd : (a :: L.live).Nodup :=
      List.nodup_cons.mpr ⟨hnew, (List.nodup_append.mp h.nodup).1⟩
    have hlive : ∀ b, b ∈ ((L.take s.pool size (some a)).give s.pool d).live
        ↔ b ≠ d ∧ (b = a ∨ b ∈ L.live) := by
      intro b
      rw [PoolLedger.give, PoolLedger.take, if_neg hidle, hnd.mem_erase_iff, List.mem_cons]
    rw [if_neg had]
    constructor
    · exact hbytes
    · intro _ b hb hbd
      have hba : b ≠ a := fun he => hnew (he ▸ hb)
      exact ⟨(hlive b).mpr ⟨hbd, .inr hb⟩, hkeep b hba hbd⟩
    · rintro b ⟨⟩
      exact (hlive a).mpr ⟨had, .inl rfl⟩
    · rintro b ⟨⟩ _
      refine ⟨fun hm => ((hlive d).mp hm).1 rfl, ?_⟩
      intro c2 hc2
      rw [hheap, Function.update_of_ne (Ne.symm had), Function.update_self] at hc2
      cases hc2
    · intro hr
      cases hr

end

/-- `memp_realloc` keeps the bytes of the block, up to the smaller of the two sizes, touches
no other, and stays within the blocks that it copies between; when it answers NULL, nothing
has changed. -/
theorem mempRealloc_resized {fsize : List Nat} (hok : SizesOk fsize) {s : PoolMem} {L : PoolLedger}
    {asked : Addr → Nat} (h : PoolUse fsize s L asked) {d : Addr} (hd : d ∈ L.live) {size : Nat}
    (hsize : 1 ≤ size) {malloc : Malloc} (hfresh : FreshFor s d size malloc) :
    ∃ s' r, mempRealloc s (some d) size malloc = .ok (s', r)
      ∧ reallocBy PoolMem.memcpyIn s (some d) size malloc = .ok (s', r)
      ∧ PoolUse fsize s' (L.resize s.pool d size r) (askedFor asked size r)
      ∧ Resized s s' L (L.resize s.pool d size r) d (asked d) size r := by
  obtain ⟨hat, hcaps, hroom⟩ := poolUse_room hok h
  obtain ⟨cap, hcap, hle, hlarge⟩ := hroom d hd
  obtain ⟨c, hc, rfl⟩ := Option.map_eq_some_iff.mp hcap
  have h0 : size ≠ 0 := by omega
  obtain ⟨s', r, hrun, -⟩ := mempRealloc_spec hat hd hfresh
  refine ⟨s', r, hrun, ?_⟩
  suffices hres : reallocBy PoolMem.memcpyIn s (some d) size malloc = .ok (s', r)
      ∧ Resized s s' L (L.resize s.pool d size r) d (asked d) size r from
    ⟨hres.1, h.realloc hd hfresh hrun, hres.2⟩
  rw [← reallocBy_memcpy] at hrun
  cases hat.path hd h0 PoolMem.memcpy malloc with
  | stays hlt hsmall heq =>
      have hclass := hcaps d (.inl hd) hlt
      rw [hcap] at hclass
      cases heq.symm.trans hrun
      refine ⟨?_, ?_⟩
      · cases hat.path hd h0 PoolMem.memcpyIn malloc with
        | stays _ _ heq' => exact heq'
        | grows | enters | resizes => omega
      · rw [PoolLedger.resize_some _ _ _ h0, if_pos rfl]
        constructor
        · rintro a ⟨⟩
          refine ⟨c, c, hc, hc, ?_, fun _ _ => rfl⟩
          rwa [Option.some.inj hclass]
        · exact fun _ b hb _ => ⟨hb, rfl⟩
        · rintro a ⟨⟩
          exact hd
        · rintro a ⟨⟩ hne
          exact absurd rfl hne
        · intro hr
          cases hr
  | grows hlt hgrow heq =>
      have hclass := hcaps d (.inl hd) hlt
      rw [hcap] at hclass
      have hclass : c.cap = s.pool.size (L.cls d) := Option.some.inj hclass
      obtain ⟨hin, hres⟩ := mempMove_resized hat hcaps (hfresh.fresh hat hd (.inl hlt)) hd
        (asked d) h0 hc (by omega) hgrow.le (by omega) (heq.symm.trans hrun)
      refine ⟨?_, hres⟩
      cases hat.path hd h0 PoolMem.memcpyIn malloc with
      | grows _ _ heq' => exact heq'.trans hin
      | stays | enters | resizes => omega
  | enters hn hsmall heq =>
      have hmore := hlarge (by omega)
      obtain ⟨hin, hres⟩ := mempMove_resized hat hcaps (hfresh.fresh hat hd (.inr hsmall)) hd
        (asked d) h0 hc (by omega) (Nat.le_refl _) (by omega) (heq.symm.trans hrun)
      refine ⟨?_, hres⟩
      cases hat.path hd h0 PoolMem.memcpyIn malloc with
      | enters _ _ heq' => exact heq'.trans hin
      | stays | grows | resizes => omega
  | resizes hn hmore heq =>
      have hres := reallocData_resized hat hd hn (asked d) h0 hmore hfresh hc hle
        (heq.symm.trans hrun)
      refine ⟨?_, hres⟩
      cases hat.path hd h0 PoolMem.memcpyIn malloc with
      | resizes _ _ heq' => exact heq'.trans (heq.symm.trans hrun)
      | stays | grows | enters => omega

/-- A block of 5 bytes that moves to the next class. -/
theorem mempRealloc_resized_moves : ∃ s s' L L' r,
    mempRealloc s (some 1) 12 (some (2, zeroBlock (.next none) 0)) = .ok (s', r)
      ∧ reallocBy PoolMem.memcpyIn s (some 1) 12 (some (2, zeroBlock (.next none) 0)) = .ok (s', r)
      ∧ Resized s s' L L' 1 5 12 r := by
  have hok : SizesOk [16, 8] := ⟨by decide, by decide, by decide⟩
  have hfresh : ∀ {s : PoolMem} {a : Addr}, s.heap a = none →
      Fresh s (some (a, zeroBlock (.next none) 0)) := by
    rintro s a ha _ _ ⟨⟩
    exact ha
  have h1 : PoolUse [16, 8] ⟨smallPool 0 8 fun _ => none, smallHeap (.field 0)⟩ _ _ :=
    @PoolUse.alloc _ _ _ _ _ 5 _ (some 1) (.new smallPool_new) (hfresh (a := 1) rfl) rfl
  have h2 : FreshFor ⟨smallPool 0 8 fun _ => none, smallHeap (.field 0)⟩ 1 12
      (some (2, zeroBlock (.next none) 0)) :=
    fun a c hac => .inl (hfresh (a := 2) rfl a c hac)
  obtain ⟨s', r, hrun, hin, -, hres⟩ := mempRealloc_resized hok h1 (.head _) (by decide) h2
  exact ⟨_, s', _, _, r, hrun, hin, hres⟩

end Artorias
