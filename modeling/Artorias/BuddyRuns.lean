import Artorias.BuddyArray

/-!
# Runs of the buddy allocator

A ledger keeps the blocks that are allocated now and those that ever were. In
every run the array agrees with it (`buddyRun_inv`):

- `buddyRun_safe`: what is allocated is aligned, inside and apart from the
  rest, and a free gives back the one block its offset is in.
- `buddyRun_alloc_inside_iff`: for the size 0, and for sizes beyond `2 ^ 31`, the
  descent leaves the array.
- `buddyRun_alloc_fails_iff`: an allocation may fail although a block of its
  size is free, exactly if every such block was broken up before.
-/

namespace Artorias

/-! ## What the array records -/

/-- `buddy_print` prints the block of node `i`. -/
def MemBuddy.prints (b : MemBuddy) (i : Nat) : Bool :=
  b.longest i = 0 ∧ (i ≥ b.size - 1 ∨ b.longest (leftChild i) ≠ 0 ∧ b.longest (rightChild i) ≠ 0)

/-- The array has the block `s` as allocated. -/
def MemBuddy.Records (b : MemBuddy) (s : Span) : Prop :=
  ∃ i, NodeAt b.logn s.log i s.off ∧ b.prints i

theorem NodeAt.aligned {logn h i base : Nat} (hi : NodeAt logn h i base) : 2 ^ h ∣ base := by
  have hle : h ≤ logn := by
    by_contra hlt
    have := Nat.pow_lt_pow_right (a := 2) (by omega) (Nat.lt_of_not_le hlt)
    have := hi.fits
    omega
  exact (Nat.dvd_add_right (Nat.pow_dvd_pow 2 hle)).mp (hi.index ▸ Nat.dvd_mul_left _ _)

theorem NodeAt.inner {logn h i base : Nat} (hi : NodeAt logn (h + 1) i base) :
    i < 2 ^ logn - 1 := by
  obtain ⟨hidx, hfits⟩ := hi
  have hpos := Nat.two_pow_pos h
  rw [Nat.pow_succ] at hidx hfits
  have hle : (i + 1) * 2 ≤ (i + 1) * (2 ^ h * 2) := Nat.mul_le_mul_left _ (by omega)
  omega

theorem records_of_taken {b : MemBuddy} {h i base : Nat} {t : Buddy h}
    (hi : NodeAt b.logn h i base) (ht : EntriesAt b.longest i t) {s : Span}
    (hs : t.Taken base s) : b.Records s := by
  induction t generalizing i base with
  | whole => exact hs.elim
  | taken =>
      cases hs
      refine ⟨i, hi, ?_⟩
      rename_i h
      rw [MemBuddy.prints, decide_eq_true_eq]
      refine ⟨ht.entry, ?_⟩
      cases h with
      | zero =>
          refine .inl ?_
          have hidx := hi.index
          rw [size_eq]
          omega
      | succ h =>
          refine .inr ⟨?_, ?_⟩
          · rw [ht.2.1.entry]
            exact Nat.succ_ne_zero _
          · rw [ht.2.2.entry]
            exact Nat.succ_ne_zero _
  | split l r ihl ihr =>
      rcases hs with hs | hs
      · exact ihl hi.left ht.2.1 hs
      · exact ihr hi.right ht.2.2 hs

theorem taken_of_half {h : Nat} {t : Buddy (h + 1)} {base : Nat} {s : Span}
    (hs : t.left.Taken base s ∨ t.right.Taken (base + 2 ^ h) s) : t.Taken base s := by
  cases t with
  | whole => exact hs.elim id id
  | taken => exact (hs.elim id id : False).elim
  | split l r => exact hs

theorem taken_of_prints {b : MemBuddy} {h i base : Nat} {t : Buddy h}
    (hi : NodeAt b.logn h i base) (ht : EntriesAt b.longest i t) {s : Span} {j : Nat}
    (hj : NodeAt b.logn s.log j s.off) (hp : b.prints j) (hin : s.Within base h) :
    t.Taken base s := by
  rw [MemBuddy.prints, decide_eq_true_eq] at hp
  induction h generalizing i base with
  | zero =>
      have hlog : s.log = 0 := Nat.le_zero.mp hin.log_le
      have hoff : s.off = base := by
        unfold Span.Within at hin
        rw [hlog] at hin
        omega
      obtain rfl : j = i := by
        have h1 := hi.index
        have h2 := hj.index
        rw [hlog, hoff] at h2
        omega
      have h0 := ht.entry
      rw [hp.1] at h0
      cases t with
      | whole => cases h0
      | taken =>
          obtain ⟨off, log⟩ := s
          cases hlog
          cases hoff
          rfl
  | succ h ih =>
      by_cases hlog : s.log ≤ h
      · rcases hin.halves hj.aligned hi.aligned hlog with hin | hin
        · exact taken_of_half (.inl (ih hi.left ht.2.1 hin))
        · exact taken_of_half (.inr (ih hi.right ht.2.2 hin))
      · have hlog : s.log = h + 1 := by
          have := hin.log_le
          omega
        have hoff : s.off = base := by
          unfold Span.Within at hin
          rw [hlog] at hin
          omega
        obtain rfl : j = i := by
          have h1 := hi.index
          have h2 := hj.index
          rw [hlog, hoff, ← h1] at h2
          exact Nat.succ_inj.mp (Nat.eq_of_mul_eq_mul_right (Nat.two_pow_pos _) h2)
        have hinner := hi.inner
        rcases hp with ⟨h0, hleaf | ⟨hl, hr⟩⟩
        · rw [size_eq] at hleaf
          omega
        · rw [ht.entry] at h0
          cases t with
          | whole => cases h0
          | taken =>
              obtain ⟨off, log⟩ := s
              cases hlog
              cases hoff
              rfl
          | split l r =>
              rw [ht.2.1.entry] at hl
              rw [Buddy.most_split] at h0
              exact absurd (Nat.max_eq_zero_iff.mp h0).1 hl

/-- The blocks that the array records as allocated, read off its entries as `buddy_print`
does, are the taken blocks of the tree that it stands for. -/
theorem MemBuddy.StandsFor.records_iff {b : MemBuddy} {h : Nat} {t : Buddy h}
    (hb : b.StandsFor t) (s : Span) : b.Records s ↔ t.Taken 0 s := by
  obtain ⟨rfl, ht⟩ := hb
  constructor
  · rintro ⟨j, hj, hp⟩
    have hfits := hj.fits
    exact taken_of_prints (nodeAt_root _) ht hj hp ⟨Nat.zero_le _, by omega⟩
  · exact records_of_taken (nodeAt_root _) ht

/-! ## Runs -/

structure Ledger where
  /-- The blocks that are allocated. -/
  live : List Span
  /-- Those that were allocated at any time. -/
  past : List Span

/-- `buddy_alloc(size)` has answered `ret`. -/
def Ledger.alloc (L : Ledger) (size : BitVec 32) (ret : Int) : Ledger :=
  if ret = -1 then L
  else ⟨⟨ret.toNat, Nat.clog 2 size.toNat⟩ :: L.live, ⟨ret.toNat, Nat.clog 2 size.toNat⟩ :: L.past⟩

/-- The block that `offset` is in has been freed. -/
def Ledger.free (L : Ledger) (offset : BitVec 32) : Ledger :=
  { L with live := L.live.filter fun s => ¬s.Has offset.toNat }

/-- What `buddy_alloc` and `buddy_free` lead to from a new buddy. -/
inductive BuddyRun (logn : Nat) : Option MemBuddy → Ledger → Prop where
  | new (mem : Nat → Nat) : BuddyRun logn (buddyNew (some mem) logn) ⟨[], []⟩
  | alloc {b b' : Option MemBuddy} {L : Ledger} {size : BitVec 32} {ret : Int} :
      BuddyRun logn b L → 1 ≤ size.toNat → buddyAlloc b size = .ok (b', ret) →
        BuddyRun logn b' (L.alloc size ret)
  | free {b b' : Option MemBuddy} {L : Ledger} {offset : BitVec 32} :
      BuddyRun logn b L → buddyFree b offset = .ok b' → BuddyRun logn b' (L.free offset)

/-- The invariant of a run: the array stands for a tree, the ledger's live blocks are what
is taken in it, and the nodes that are split are those out of which some past block was
taken. -/
structure LedgerAt (b : MemBuddy) (L : Ledger) {h : Nat} (t : Buddy h) : Prop where
  stands : b.StandsFor t
  live : ∀ s, s ∈ L.live ↔ t.Taken 0 s
  past : t.Marks L.past 0

theorem LedgerAt.alloc {b : MemBuddy} {L : Ledger} {h : Nat} {t : Buddy h} (hb : LedgerAt b L t)
    {size : BitVec 32} (h1 : 1 ≤ size.toNat) {b' : Option MemBuddy} {ret : Int}
    (hrun : buddyAlloc (some b) size = .ok (b', ret)) :
    ∃ m' t', b' = some m' ∧ LedgerAt m' (L.alloc size ret) (t' : Buddy h) := by
  by_cases h2 : size.toNat ≤ 2 ^ 31
  · rcases buddyAlloc_take hb.stands h1 h2 with ⟨-, hfail⟩ | ⟨m', t', o, htake, hm', hok⟩
    · rw [hfail] at hrun
      cases hrun
      exact ⟨b, t, rfl, by rw [Ledger.alloc, if_pos rfl]; exact hb⟩
    · rw [hok] at hrun
      cases hrun
      have hk : Nat.clog 2 size.toNat < t.most := by
        by_contra hle
        rw [Buddy.take_of_le (Nat.le_of_not_lt hle)] at htake
        cases htake
      obtain ⟨t2, o2, htake2, -, htk⟩ := Buddy.take_spec hk (Nat.dvd_zero _)
      rw [htake] at htake2
      cases htake2
      have hne : (o : Int) ≠ -1 := by omega
      refine ⟨m', t', rfl, ?_⟩
      rw [Ledger.alloc, if_neg hne, Int.toNat_natCast]
      refine ⟨hm', ?_, hb.past.take (Nat.dvd_zero _) hk htake⟩
      intro s
      rw [List.mem_cons, htk, ← hb.live, or_comm]
  · rw [buddyAlloc_wrapped hb.stands (.inr (Nat.lt_of_not_le h2))] at hrun
    cases hrun

theorem LedgerAt.free {b : MemBuddy} {L : Ledger} {h : Nat} {t : Buddy h} (hb : LedgerAt b L t)
    {offset : BitVec 32} {b' : Option MemBuddy} (hrun : buddyFree (some b) offset = .ok b') :
    ∃ m' t', b' = some m' ∧ LedgerAt m' (L.free offset) (t' : Buddy h) := by
  rcases buddyFree_give hb.stands offset with ⟨hnone, hsame⟩ | ⟨m', t', hlt, hg, hm', hok⟩
  · rw [hsame] at hrun
    cases hrun
    refine ⟨b, t, rfl, hb.stands, ?_, hb.past⟩
    intro s
    rw [Ledger.free, List.mem_filter, hb.live, decide_eq_true_eq]
    refine and_iff_left_of_imp fun hs hhas => ?_
    rcases hnone with hout | hnone
    · have hin := hs.within
      unfold Span.Within at hin
      unfold Span.Has at hhas
      omega
    · exact Buddy.give_none hnone hs hhas
  · rw [hok] at hrun
    cases hrun
    obtain ⟨s0, hs0, hhas0, hiff⟩ := Buddy.give_some ⟨Nat.zero_le _, by omega⟩ hg
    refine ⟨m', t', rfl, hm', ?_, hb.past.give hg⟩
    intro s
    rw [Ledger.free, List.mem_filter, hb.live, decide_eq_true_eq, hiff]
    refine and_congr_right fun hs => ⟨fun hhas he => hhas (he ▸ hhas0), fun hne hhas => ?_⟩
    exact ((hs.apart hs0).resolve_left hne).not_has hhas hhas0

theorem buddyRun_inv {logn : Nat} {b : Option MemBuddy} {L : Ledger} (h : BuddyRun logn b L) :
    ∃ m t, b = some m ∧ LedgerAt m L (t : Buddy logn) := by
  induction h with
  | new mem =>
      obtain ⟨m, hm, hstands⟩ := buddyNew_spec mem logn
      refine ⟨m, .whole, hm, hstands, ?_, Buddy.not_cut_nil _ _⟩
      intro s
      exact ⟨fun hs => absurd hs List.not_mem_nil, fun hs => hs.elim⟩
  | alloc _ h1 hrun ih =>
      obtain ⟨m, t, rfl, hm⟩ := ih
      exact hm.alloc h1 hrun
  | free _ hrun ih =>
      obtain ⟨m, t, rfl, hm⟩ := ih
      exact hm.free hrun

/-! ## Safety -/

/-- `s` is an aligned block inside the `2 ^ logn` units. -/
def Fits (logn : Nat) (s : Span) : Prop := 2 ^ s.log ∣ s.off ∧ s.off + 2 ^ s.log ≤ 2 ^ logn

/-- `s` is an aligned block and nothing allocated meets it. -/
def FreeIn (logn : Nat) (L : Ledger) (s : Span) : Prop :=
  Fits logn s ∧ ∀ s' ∈ L.live, s.Apart s'

/-- An allocation answers -1 and changes nothing, or answers the offset of a block of the
rounded size that is aligned, inside the buddy and met by nothing allocated. -/
def AllocSafe (logn : Nat) (b : Option MemBuddy) (L : Ledger) (size : BitVec 32) : Prop :=
  buddyAlloc b size = .ok (b, -1)
    ∨ ∃ b', ∃ o : Nat, buddyAlloc b size = .ok (b', (o : Int))
      ∧ FreeIn logn L ⟨o, Nat.clog 2 size.toNat⟩

/-- A free releases the one allocated block that has the unit at the offset, whole; if there
is none, it changes nothing. -/
def FreeSafe (b : Option MemBuddy) (L : Ledger) (offset : BitVec 32) : Prop :=
  (∃ s ∈ L.live, s.Has offset.toNat ∧ (∀ s' ∈ L.live, s'.Has offset.toNat → s' = s)
      ∧ ∃ m', buddyFree b offset = .ok (some m') ∧ ∀ s', m'.Records s' ↔ s' ∈ L.live ∧ s' ≠ s)
    ∨ (∀ s ∈ L.live, ¬s.Has offset.toNat) ∧ buddyFree b offset = .ok b

theorem LedgerAt.avail_free {b : MemBuddy} {L : Ledger} {h : Nat} {t : Buddy h}
    (hb : LedgerAt b L t) (s : Span) :
    t.Avail 0 s ↔ FreeIn h L s ∧ ¬Buddy.Cut L.past s.off s.log := by
  rw [Buddy.avail_iff hb.past (Nat.dvd_zero _), FreeIn, Fits, Span.Within, Nat.zero_add]
  simp only [hb.live, Nat.zero_le, true_and]
  rw [and_comm (a := s.off + 2 ^ s.log ≤ 2 ^ h)]
  simp only [and_assoc]

theorem LedgerAt.allocSafe {b : MemBuddy} {L : Ledger} {h : Nat} {t : Buddy h}
    (hb : LedgerAt b L t) {size : BitVec 32} (h1 : 1 ≤ size.toNat) (h2 : size.toNat ≤ 2 ^ 31) :
    AllocSafe h (some b) L size := by
  rcases buddyAlloc_take hb.stands h1 h2 with ⟨-, hfail⟩ | ⟨m', t', o, htake, -, hok⟩
  · exact .inl hfail
  · refine .inr ⟨some m', o, hok, ?_⟩
    have hk : Nat.clog 2 size.toNat < t.most := by
      by_contra hle
      rw [Buddy.take_of_le (Nat.le_of_not_lt hle)] at htake
      cases htake
    obtain ⟨t2, o2, htake2, hav, -⟩ := Buddy.take_spec hk (Nat.dvd_zero _)
    rw [htake] at htake2
    cases htake2
    exact ((hb.avail_free _).mp hav).1

theorem LedgerAt.freeSafe {b : MemBuddy} {L : Ledger} {h : Nat} {t : Buddy h}
    (hb : LedgerAt b L t) (offset : BitVec 32) : FreeSafe (some b) L offset := by
  rcases buddyFree_give hb.stands offset with ⟨hnone, hsame⟩ | ⟨m', t', hlt, hg, hm', hok⟩
  · refine .inr ⟨?_, hsame⟩
    intro s hs hhas
    have hs := (hb.live s).mp hs
    rcases hnone with hout | hnone
    · have hin := hs.within
      unfold Span.Within at hin
      unfold Span.Has at hhas
      omega
    · exact Buddy.give_none hnone hs hhas
  · obtain ⟨s, hs, hhas, hiff⟩ := Buddy.give_some ⟨Nat.zero_le _, by omega⟩ hg
    refine .inl ⟨s, (hb.live s).mpr hs, hhas, ?_, m', hok, ?_⟩
    · intro s' hs' hhas'
      by_contra hne
      exact ((((hb.live s').mp hs').apart hs).resolve_left hne).not_has hhas' hhas
    · intro s'
      rw [hm'.records_iff, hiff, hb.live]

/-- In every run the array records exactly the allocated blocks of the ledger; and at every
point of it each allocation is safe, and so is each free, whatever its offset. -/
theorem buddyRun_safe {logn : Nat} {b : Option MemBuddy} {L : Ledger} (h : BuddyRun logn b L) :
    (∃ m, b = some m ∧ ∀ s, m.Records s ↔ s ∈ L.live)
      ∧ (∀ size : BitVec 32, 1 ≤ size.toNat → size.toNat ≤ 2 ^ 31 → AllocSafe logn b L size)
      ∧ ∀ offset, FreeSafe b L offset := by
  obtain ⟨m, t, rfl, hm⟩ := buddyRun_inv h
  refine ⟨⟨m, rfl, ?_⟩, fun size h1 h2 => hm.allocSafe h1 h2, hm.freeSafe⟩
  intro s
  rw [hm.stands.records_iff, hm.live]

/-! ### A buddy that has been used -/

/-- What an allocation leaves. -/
def buddyAllocated (b : Option MemBuddy) (size : BitVec 32) : Option MemBuddy :=
  ((buddyAlloc b size).toOption.map Prod.fst).getD b

/-- What a free leaves. -/
def buddyFreed (b : Option MemBuddy) (offset : BitVec 32) : Option MemBuddy :=
  (buddyFree b offset).toOption.getD b

theorem BuddyRun.allocated {logn : Nat} {b : Option MemBuddy} {L : Ledger} (h : BuddyRun logn b L)
    {size : BitVec 32} {ret : Int} (h1 : 1 ≤ size.toNat)
    (hret : (buddyAlloc b size).toOption.map Prod.snd = some ret) :
    BuddyRun logn (buddyAllocated b size) (L.alloc size ret) := by
  refine h.alloc h1 ?_
  rw [buddyAllocated]
  cases hrun : buddyAlloc b size with
  | error e =>
      rw [hrun] at hret
      cases hret
  | ok p =>
      rw [hrun] at hret
      cases hret
      rfl

theorem BuddyRun.freed {logn : Nat} {b : Option MemBuddy} {L : Ledger} (h : BuddyRun logn b L)
    {offset : BitVec 32} (hok : (buddyFree b offset).toOption.isSome) :
    BuddyRun logn (buddyFreed b offset) (L.free offset) := by
  refine h.free ?_
  rw [buddyFreed]
  cases hrun : buddyFree b offset with
  | error e =>
      rw [hrun] at hok
      cases hok
  | ok b' => rfl

/-- A run that leaves both kinds of blocks: of 16 units three blocks have been allocated,
and the first of them has been freed. -/
def usedBuddy : Option MemBuddy :=
  let b := buddyAllocated (buddyAllocated (buddyNew (some fun _ => 0) 4) 3) 5
  buddyFreed (buddyAllocated b 2) 1

def usedLedger : Ledger := ⟨[⟨4, 1⟩, ⟨8, 3⟩], [⟨4, 1⟩, ⟨8, 3⟩, ⟨0, 2⟩]⟩

theorem usedBuddy_run : BuddyRun 4 usedBuddy usedLedger := by
  have h0 : BuddyRun 4 (buddyNew (some fun _ => 0) 4) ⟨[], []⟩ := .new _
  have h1 := @BuddyRun.allocated _ _ _ h0 3 0 (by decide) (by decide +kernel)
  have h2 := @BuddyRun.allocated _ _ _ h1 5 8 (by decide) (by decide +kernel)
  have h3 := @BuddyRun.allocated _ _ _ h2 2 4 (by decide) (by decide +kernel)
  have hledger : ((((Ledger.mk [] []).alloc 3 0).alloc 5 8).alloc 2 4).free 1 = usedLedger :=
    congrArg₂ Ledger.mk (by decide +kernel) (by decide +kernel)
  rw [← hledger]
  exact h3.freed (by decide +kernel)

theorem buddyRun_safe_used :
    AllocSafe 4 usedBuddy usedLedger 3 ∧ FreeSafe usedBuddy usedLedger 9 := by
  obtain ⟨-, halloc, hfree⟩ := buddyRun_safe usedBuddy_run
  exact ⟨halloc 3 (by decide) (by decide), hfree 9⟩

/-! ## Every size -/

/-- An allocation comes to an end inside the array; it answers -1 and changes
nothing, or the offset of a block of at least `size` units, inside the buddy. -/
def AllocInside (logn : Nat) (b : Option MemBuddy) (size : BitVec 32) : Prop :=
  buddyAlloc b size = .ok (b, -1)
    ∨ ∃ m', ∃ o k : Nat, buddyAlloc b size = .ok (some m', (o : Int)) ∧ m'.Records ⟨o, k⟩
      ∧ size.toNat ≤ 2 ^ k ∧ o + 2 ^ k ≤ 2 ^ logn

/-- An allocation stays inside the array exactly for the sizes that round to a power of two:
0 and what is beyond `2 ^ 31` become 0, for which the descent has no end in the array. -/
theorem buddyRun_alloc_inside_iff {logn : Nat} {b : Option MemBuddy} {L : Ledger}
    (h : BuddyRun logn b L) (size : BitVec 32) :
    AllocInside logn b size ↔ 1 ≤ size.toNat ∧ size.toNat ≤ 2 ^ 31 := by
  obtain ⟨m, t, rfl, hm⟩ := buddyRun_inv h
  constructor
  · intro hin
    by_contra hbad
    have hsize : size = 0 ∨ 2 ^ 31 < size.toNat := by
      by_cases h0 : size.toNat = 0
      · exact .inl (BitVec.eq_of_toNat_eq h0)
      · exact .inr (by omega)
    have herror := buddyAlloc_wrapped hm.stands hsize
    rcases hin with hfail | ⟨m', o, k, hok, -⟩
    · rw [herror] at hfail
      cases hfail
    · rw [herror] at hok
      cases hok
  · rintro ⟨h1, h2⟩
    rcases hm.allocSafe h1 h2 with hfail | ⟨b', o, hok, hfree⟩
    · exact .inl hfail
    · obtain ⟨m', t', rfl, hm'⟩ := hm.alloc h1 hok
      have hne : (o : Int) ≠ -1 := by omega
      refine .inr ⟨m', o, Nat.clog 2 size.toNat, hok, ?_, ?_, hfree.1.2⟩
      · rw [hm'.stands.records_iff, ← hm'.live, Ledger.alloc, if_neg hne, Int.toNat_natCast]
        exact .head _
      · exact (Nat.clog_le_iff_le_pow (by omega)).mp (Nat.le_refl _)

theorem usedBuddy_alloc_inside : AllocInside 4 usedBuddy 3 :=
  (buddyRun_alloc_inside_iff usedBuddy_run 3).mpr ⟨by decide, by decide⟩

/-- A request for nothing, at a new buddy of two units, reads behind the array. -/
theorem buddyAlloc_nothing :
    buddyAlloc (buddyNew (some fun _ => 0) 1) 0 = .error (.outside 3)
      ∧ ¬AllocInside 1 (buddyNew (some fun _ => 0) 1) 0 := by
  have herror : buddyAlloc (buddyNew (some fun _ => 0) 1) 0 = .error (.outside 3) := by rfl
  refine ⟨herror, ?_⟩
  rintro (hfail | ⟨m', o, k, hok, -⟩)
  · rw [herror] at hfail
    cases hfail
  · rw [herror] at hok
    cases hok

/-! ## Fragmentation -/

/-- An allocation fails only where no block of its size is free, exactly if some free block
of that size, where there is any, was never broken up: a free does not merge the halves of a
node, so that what has once been split stays split. -/
theorem buddyRun_alloc_fails_iff {logn : Nat} {b : Option MemBuddy} {L : Ledger}
    (h : BuddyRun logn b L) (hlogn : logn ≤ 31) {size : BitVec 32} (h1 : 1 ≤ size.toNat)
    (h2 : size.toNat ≤ 2 ^ logn) :
    ((∃ b', buddyAlloc b size = .ok (b', -1)) → ¬∃ o, FreeIn logn L ⟨o, Nat.clog 2 size.toNat⟩)
      ↔ ((∃ o, FreeIn logn L ⟨o, Nat.clog 2 size.toNat⟩) →
          ∃ o, FreeIn logn L ⟨o, Nat.clog 2 size.toNat⟩
            ∧ ¬Buddy.Cut L.past o (Nat.clog 2 size.toNat)) := by
  obtain ⟨m, t, rfl, hm⟩ := buddyRun_inv h
  have h31 : size.toNat ≤ 2 ^ 31 := h2.trans (Nat.pow_le_pow_right (by omega) hlogn)
  have hfails : (∃ b', buddyAlloc (some m) size = .ok (b', -1))
      ↔ ¬∃ o, t.Avail 0 ⟨o, Nat.clog 2 size.toNat⟩ := by
    rw [t.avail_iff_most (Nat.dvd_zero _), Nat.not_lt]
    rcases buddyAlloc_take hm.stands h1 h31 with ⟨hle, hfail⟩ | ⟨m', t', o, htake, -, hok⟩
    · exact ⟨fun _ => hle, fun _ => ⟨_, hfail⟩⟩
    · constructor
      · rintro ⟨b', hb'⟩
        rw [hok] at hb'
        cases hb'
      · intro hle
        rw [Buddy.take_of_le hle] at htake
        cases htake
  rw [hfails, not_imp_not]
  simp only [hm.avail_free]

/-- The first four units are free again, as the one block that they were before. -/
theorem usedBuddy_alloc_serves : FreeIn 4 usedLedger ⟨0, Nat.clog 2 4⟩
    ∧ ¬∃ b', buddyAlloc usedBuddy 4 = .ok (b', -1) := by
  have hlog : Nat.clog 2 4 = 2 := by decide +kernel
  have hfree : FreeIn 4 usedLedger ⟨0, Nat.clog 2 4⟩ := by
    rw [hlog]
    exact ⟨⟨by decide, by decide⟩, by simp [usedLedger, Span.Apart]⟩
  have hwhole : ¬Buddy.Cut usedLedger.past 0 (Nat.clog 2 4) := by
    rw [hlog]
    simp [Buddy.Cut, usedLedger, Span.Within]
  refine ⟨hfree, fun hfails => ?_⟩
  have hiff := @buddyRun_alloc_fails_iff 4 _ _ usedBuddy_run (by decide) 4 (by decide) (by decide)
  exact hiff.mpr (fun _ => ⟨0, hfree, hwhole⟩) hfails ⟨0, hfree⟩

/-- After both units have been allocated and freed, two units are free, but not as one block
of two, and a request for two is refused. -/
theorem freed_not_merged : ∃ b L, BuddyRun 1 b L ∧ L.live = []
    ∧ buddyAlloc b 2 = .ok (b, -1) ∧ FreeIn 1 L ⟨0, Nat.clog 2 2⟩ := by
  refine ⟨_, _,
    @BuddyRun.free 1 _ _ _ 0 (@BuddyRun.alloc 1 _ _ _ 1 _ (.new fun _ => 0) (by decide) rfl) rfl,
    rfl, rfl, ⟨by decide, by decide⟩, fun s hs => ?_⟩
  cases hs

end Artorias
