import Mathlib.Logic.Equiv.Basic
import Artorias.PoolRuns

/-!
# Which block a request gets

The classes of a pool are the sizes given to `memp_new`, in order
(`poolReach_classes`), and in every run the room of a block is the size of its
class (`poolReach_caps`). So a request gets a block from the least class that
is large enough, or one of exactly its size (`mempAlloc_serves`).
-/

namespace Artorias

/-! ## Sorting only exchanges -/

/-- `g` is `f` with the places below `n` rearranged. -/
def Rearranges (n : Nat) (f g : Nat → Nat) : Prop :=
  ∃ σ : Equiv.Perm Nat, (∀ x, σ x < n ↔ x < n) ∧ ∀ x, g x = f (σ x)

namespace Rearranges

variable {n : Nat} {f g h : Nat → Nat}

theorem refl (n : Nat) (f : Nat → Nat) : Rearranges n f f :=
  ⟨Equiv.refl Nat, fun _ => Iff.rfl, fun _ => rfl⟩

theorem trans (hfg : Rearranges n f g) (hgh : Rearranges n g h) : Rearranges n f h := by
  obtain ⟨σ, hσ, hg⟩ := hfg
  obtain ⟨ρ, hρ, hh⟩ := hgh
  exact ⟨ρ.trans σ, fun x => (hσ (ρ x)).trans (hρ x), fun x => (hh x).trans (hg (ρ x))⟩

theorem swap (f : Nat → Nat) {i j : Nat} (hij : i ≠ j) (hi : i < n) (hj : j < n) :
    Rearranges n f (swapSizes f i j) := by
  refine ⟨Equiv.swap i j, ?_, ?_⟩
  · intro x
    rw [Equiv.swap_apply_def]
    split_ifs <;> omega
  · intro x
    rw [swapSizes_apply f hij, Equiv.swap_apply_def]
    split_ifs <;> rfl

theorem sortInner (k : Nat) {i j : Nat} (f : Nat → Nat) (hij : i < j) (hj : j + k ≤ n) :
    Rearranges n f (sortInner k i j f) := by
  induction k generalizing j f with
  | zero => exact refl n f
  | succ k ih =>
      rw [Artorias.sortInner]
      refine trans ?_ (ih _ (by omega) (by omega))
      by_cases hgt : f i > f j
      · rw [if_pos hgt]
        exact swap f (by omega) (by omega) (by omega)
      · rw [if_neg hgt]
        exact refl n f

theorem sortOuter (k : Nat) {i : Nat} (f : Nat → Nat) (hk : i + k + 1 ≤ n) :
    Rearranges n f (sortOuter n k i f) := by
  induction k generalizing i f with
  | zero => exact refl n f
  | succ k ih =>
      rw [Artorias.sortOuter]
      exact trans (sortInner _ f (Nat.lt_succ_self i) (by omega)) (ih _ (by omega))

theorem perm (h : Rearranges n f g) : ((List.range n).map g).Perm ((List.range n).map f) := by
  obtain ⟨σ, hσ, hg⟩ := h
  have hmap : (List.range n).map g = ((List.range n).map σ).map f := by
    rw [List.map_map]
    exact List.map_congr_left fun x _ => hg x
  rw [hmap]
  refine List.Perm.map f ?_
  rw [List.perm_ext_iff_of_nodup (List.nodup_range.map σ.injective) List.nodup_range]
  intro y
  rw [List.mem_map, List.mem_range]
  constructor
  · rintro ⟨x, hx, rfl⟩
    exact (hσ x).mpr (List.mem_range.mp hx)
  · intro hy
    refine ⟨σ.symm y, List.mem_range.mpr ((hσ _).mp ?_), σ.apply_symm_apply y⟩
    rwa [σ.apply_symm_apply]

end Rearranges

/-- The classes of a new pool are the sizes it was given: the sort loses none and makes none
up. -/
theorem mempNew_perm {fsize : List Nat} (h2 : fsize.length ≤ 255) {p : MemPool}
    (hp : mempNew true fsize = some p) : ((List.range p.n).map p.size).Perm fsize := by
  rw [mempNew] at hp
  split_ifs at hp with h1
  cases hp
  dsimp only
  have hn : fsize.length % 256 = fsize.length := Nat.mod_eq_of_lt (by omega)
  have hperm := (Rearranges.sortOuter (fsize.length - 1) (n := fsize.length) (i := 0)
    (fun i => if i < fsize.length then fsize.getD i 0 else sizeMax) (by omega)).perm
  rw [hn]
  refine hperm.trans (List.Perm.of_eq (List.ext_getElem (by simp) fun i hi hi' => ?_))
  simp [hi']

/-! ## The classes stay -/

theorem SameClasses.refl (p : MemPool) : SameClasses p p := ⟨rfl, rfl⟩

theorem SameClasses.trans {p p' p'' : MemPool} (h : SameClasses p p') (h' : SameClasses p' p'') :
    SameClasses p p'' :=
  ⟨h'.1.trans h.1, h'.2.trans h.2⟩

/-- The room in the block at `a`. -/
def PoolMem.capOf (s : PoolMem) (a : Addr) : Option Nat := (s.heap a).map Block.cap

/-- The classes and the room in the blocks outside `L` are as before. -/
structure SameRoom (L : List Addr) (s s' : PoolMem) : Prop where
  classes : SameClasses s.pool s'.pool
  caps : ∀ a, a ∉ L → s'.capOf a = s.capOf a

theorem reallocData_cases {s s' : PoolMem} {d : Addr} {size : Nat} {malloc : Malloc}
    {r : Option Addr} (hrun : s.reallocData d size malloc = .ok (s', r)) :
    (malloc = none ∧ r = none ∧ s' = s)
      ∨ ∃ a c c', malloc = some (a, c') ∧ r = some a ∧ s.heap d = some c ∧ s'.pool = s.pool
        ∧ s'.heap = Function.update (Function.update s.heap d none) a
          (some ⟨c.p, size, fun k => if k < min c.cap size then c.d k else c'.d k⟩) := by
  cases malloc with
  | none =>
      cases hrun
      exact .inl ⟨rfl, rfl, rfl⟩
  | some ac =>
      obtain ⟨a, c'⟩ := ac
      obtain ⟨c, hc, hret⟩ := poolBind_eq_ok.mp hrun
      cases hret
      exact .inr ⟨a, c, c', rfl, rfl, block_eq_ok.mp hc, rfl, rfl⟩

namespace SameRoom

variable {L : List Addr} {s s' : PoolMem}

theorem refl (L : List Addr) (s : PoolMem) : SameRoom L s s := ⟨.refl _, fun _ _ => rfl⟩

theorem write {a : Addr} {c c' : Block} (hc : s.heap a = some c) (hcap : c'.cap = c.cap) :
    SameRoom L s { s with heap := Function.update s.heap a (some c') } := by
  refine ⟨.refl _, ?_⟩
  intro b _
  by_cases hb : b = a
  · subst hb
    simp [PoolMem.capOf, hc, hcap]
  · simp [PoolMem.capOf, Function.update_of_ne hb]

theorem update {a : Addr} (ha : a ∈ L) (c : Option Block) :
    SameRoom L s { s with heap := Function.update s.heap a c } := by
  refine ⟨.refl _, ?_⟩
  intro b hb
  have hne : b ≠ a := fun he => hb (he ▸ ha)
  simp [PoolMem.capOf, Function.update_of_ne hne]

theorem setP {a : Addr} {p : Header} (h : s.setP a p = .ok s') : SameRoom L s s' := by
  obtain ⟨c, hc, hret⟩ := poolBind_eq_ok.mp h
  cases hret
  exact write (block_eq_ok.mp hc) rfl

theorem memcpy {nd d : Addr} {n : Nat} (h : s.memcpy nd d n = .ok s') : SameRoom L s s' := by
  obtain ⟨c, -, h'⟩ := poolBind_eq_ok.mp h
  obtain ⟨c', hc', hret⟩ := poolBind_eq_ok.mp h'
  cases hret
  exact write (block_eq_ok.mp hc') rfl

/-- `memp_recycle` frees at most the block it gets, and that only if it has no class; the
room of a block with a class stays. -/
theorem recycle {d : Addr} (h : mempRecycle s (some d) = .ok s') : SameRoom [d] s s'
    ∧ ∀ f, s.field d = .ok f → s.pool.size f ≠ sizeMax → s'.capOf d = s.capOf d := by
  obtain ⟨f, hf, h'⟩ := poolBind_eq_ok.mp h
  by_cases hmax : s.pool.size f = sizeMax
  · rw [if_pos hmax] at h'
    cases h'
    refine ⟨update (.head _) none, ?_⟩
    intro f' hf' hne
    cases hf.symm.trans hf'
    exact absurd hmax hne
  · rw [if_neg hmax] at h'
    obtain ⟨s1, h1, hret⟩ := poolBind_eq_ok.mp h'
    cases hret
    have hsame : SameRoom [] s s1 := setP h1
    have hcap : ∀ a, s1.capOf a = s.capOf a := fun a => hsame.caps a List.not_mem_nil
    exact ⟨⟨hsame.classes, fun a _ => hcap a⟩, fun _ _ _ => hcap d⟩

end SameRoom

/-! ## The block of a request -/

/-- How `memp_alloc` comes to a block `a`: from the free list of class `i`, or
from `malloc`. -/
inductive Serves (s s' : PoolMem) (size : Nat) (a : Addr) : Prop where
  | idle : s.pool.classIndex size < s.pool.n → s.pool.header (s.pool.classIndex size) = some a →
      s'.field a = .ok (s.pool.classIndex size) → s'.capOf a = s.capOf a → Serves s s' size a
  | fresh : s.pool.classIndex size < s.pool.n → s.heap a = none →
      s'.field a = .ok (s.pool.classIndex size) →
      s'.capOf a = some (s.pool.size (s.pool.classIndex size)) → Serves s s' size a
  | single : s.pool.n ≤ s.pool.classIndex size → s.heap a = none → s'.field a = .ok s.pool.n →
      s'.capOf a = some size → Serves s s' size a

/-- A block as it comes from `malloc`: with the room that was asked for, tagged with its
class. -/
theorem PoolMem.fresh_room (s : PoolMem) (a : Addr) (c : Block) (cap i : Nat)
    (empty used : BitVec 32) :
    SameRoom [a] s ((s.fresh a c cap i).setCounts empty used)
      ∧ ((s.fresh a c cap i).setCounts empty used).field a = .ok i
      ∧ ((s.fresh a c cap i).setCounts empty used).capOf a = some cap := by
  refine ⟨⟨⟨rfl, rfl⟩, ?_⟩, ?_, ?_⟩
  · intro b hb
    have hne : b ≠ a := fun he => hb (List.mem_singleton.mpr he)
    simp [PoolMem.capOf, PoolMem.fresh, PoolMem.setCounts, Function.update_of_ne hne]
  · exact field_eq (c := ⟨.field i, cap, c.d⟩) (Function.update_self ..) rfl
  · simp [PoolMem.capOf, PoolMem.fresh, PoolMem.setCounts]

theorem mempAlloc_room {s s' : PoolMem} {size : Nat} {malloc : Malloc} {r : Option Addr}
    (hfresh : Fresh s malloc) (h : mempAlloc s size malloc = .ok (s', r)) :
    SameRoom r.toList s s' ∧ ∀ a, r = some a → Serves s s' size a := by
  cases mempAlloc_path h with
  | zero | refused => exact ⟨.refl _ s, fun a ha => by cases ha⟩
  | @idle a c d hlt hhead hc hp =>
      have hsame : SameRoom [] s { s with
          heap := Function.update s.heap a
            (some { c with p := .field (s.pool.classIndex size) }) } :=
        .write hc rfl
      have hcap := fun b => hsame.caps b List.not_mem_nil
      refine ⟨⟨⟨rfl, rfl⟩, fun b _ => hcap b⟩, ?_⟩
      intro b hb
      cases hb
      exact .idle hlt hhead (field_eq (Function.update_self ..) rfl) (hcap a)
  | @single a c hbig hmalloc =>
      obtain ⟨hsame, hfield, hcap⟩ := s.fresh_room a c size s.pool.n s.pool.empty s.pool.used
      refine ⟨hsame, ?_⟩
      intro b hb
      cases hb
      exact .single hbig (hfresh a c hmalloc) hfield hcap
  | @fresh a c hlt _ hmalloc =>
      obtain ⟨hsame, hfield, hcap⟩ := s.fresh_room a c
        (s.pool.size (s.pool.classIndex size)) (s.pool.classIndex size) s.pool.empty
        (s.pool.used + BitVec.ofNat 32 (s.pool.size (s.pool.classIndex size)))
      refine ⟨hsame, ?_⟩
      intro b hb
      cases hb
      exact .fresh hlt (hfresh a c hmalloc) hfield hcap

/-! ## The room of every block -/

/-- Every block of the pool that has a class has room for exactly what the class has. -/
def CapsAt (s : PoolMem) (L : PoolLedger) : Prop :=
  ∀ a, a ∈ L.live ∨ a ∈ L.idle → L.cls a < s.pool.n → s.capOf a = some (s.pool.size (L.cls a))

namespace PoolAt

variable {s s' : PoolMem} {L : PoolLedger}

theorem alloc (h : PoolAt s L) {size : Nat} {malloc : Malloc} {r : Option Addr}
    (hfresh : Fresh s malloc) (hrun : mempAlloc s size malloc = .ok (s', r)) :
    PoolAt s' (L.take s.pool size r) ∧ ∀ a, r = some a → a ∉ L.live := by
  obtain ⟨s1, r1, hrun1, h1, -, hlive⟩ := mempAlloc_spec h hfresh size
  cases hrun.symm.trans hrun1
  exact ⟨h1, hlive⟩

theorem memcpy (h : PoolAt s L) {nd d : Addr} {n : Nat} (hrun : s.memcpy nd d n = .ok s') :
    PoolAt s' L := by
  obtain ⟨c, -, hrun⟩ := poolBind_eq_ok.mp hrun
  obtain ⟨c', hc', hret⟩ := poolBind_eq_ok.mp hrun
  cases hret
  exact h.write (block_eq_ok.mp hc') rfl

end PoolAt

namespace CapsAt

variable {s s' : PoolMem} {L : PoolLedger}

theorem of_sameRoom (hcaps : CapsAt s L) (h : SameRoom [] s s') : CapsAt s' L := by
  intro a ha hlt
  rw [h.classes.1] at hlt
  rw [h.caps a List.not_mem_nil, h.classes.2]
  exact hcaps a ha hlt

theorem take (hcaps : CapsAt s L) (h : PoolAt s L) {size : Nat} {malloc : Malloc} {r : Option Addr}
    (hfresh : Fresh s malloc) (hrun : mempAlloc s size malloc = .ok (s', r)) :
    CapsAt s' (L.take s.pool size r) := by
  obtain ⟨hsame, hserves⟩ := mempAlloc_room hfresh hrun
  cases r with
  | none => exact hcaps.of_sameRoom hsame
  | some a =>
      intro b hb hlt
      rw [hsame.classes.1] at hlt
      rw [hsame.classes.2]
      have hold : ∀ b, b ≠ a → s'.capOf b = s.capOf b := fun b hne =>
        hsame.caps b fun hm => hne (List.mem_singleton.mp hm)
      by_cases hidle : a ∈ L.idle
      · simp only [PoolLedger.take, if_pos hidle] at hb hlt ⊢
        have hb' : b ∈ L.live ∨ b ∈ L.idle := by
          rcases hb with hb | hb
          · rcases List.mem_cons.mp hb with rfl | hb
            · exact .inr hidle
            · exact .inl hb
          · exact .inr (List.mem_of_mem_erase hb)
        rw [← hcaps b hb' hlt]
        by_cases hba : b = a
        · subst hba
          cases hserves b rfl with
          | idle _ _ _ hcap => exact hcap
          | fresh _ ha => exact absurd ha (h.mapped (.inr hidle))
          | single _ ha => exact absurd ha (h.mapped (.inr hidle))
        · exact hold b hba
      · simp only [PoolLedger.take, if_neg hidle] at hb hlt ⊢
        by_cases hba : b = a
        · subst hba
          rw [Function.update_self] at hlt ⊢
          cases hserves b rfl with
          | idle hi hhead => exact absurd (h.head hi hhead).1 hidle
          | fresh _ _ _ hcap => exact hcap
          | single hge => omega
        · rw [Function.update_of_ne hba] at hlt ⊢
          rw [hold b hba]
          refine hcaps b (hb.imp_left fun hb => ?_) hlt
          exact (List.mem_cons.mp hb).resolve_left hba

theorem give (hcaps : CapsAt s L) (h : PoolAt s L) {d : Addr} (hd : d ∈ L.live)
    (hrun : mempRecycle s (some d) = .ok s') : CapsAt s' (L.give s.pool d) := by
  obtain ⟨hsame, hkeep⟩ := SameRoom.recycle hrun
  obtain ⟨-, c, hc, hp⟩ := h.live d hd
  intro b hb hlt
  change L.cls b < s'.pool.n at hlt
  change s'.capOf b = some (s'.pool.size (L.cls b))
  rw [hsame.classes.1] at hlt
  rw [hsame.classes.2]
  by_cases hbd : b = d
  · subst hbd
    rw [hkeep _ (field_eq hc hp) (h.ok.small _ hlt)]
    exact hcaps b (.inl hd) hlt
  · rw [hsame.caps b fun hm => hbd (List.mem_singleton.mp hm)]
    refine hcaps b ?_ hlt
    rcases hb with hb | hb
    · exact .inl (List.mem_of_mem_erase hb)
    · simp only [PoolLedger.give] at hb
      split_ifs at hb
      · exact .inr ((List.mem_cons.mp hb).resolve_left hbd)
      · exact .inr hb

/-- Moving to another block keeps the sizes of all blocks: each that has a class has still
the room of it. -/
theorem move (hcaps : CapsAt s L) (h : PoolAt s L) {d : Addr} {size n : Nat} {malloc : Malloc}
    {r : Option Addr} (hfresh : Fresh s malloc) (hd : d ∈ L.live)
    (hrun : mempMove s d size n malloc = .ok (s', r)) : SameClasses s.pool s'.pool
      ∧ (r = none ∧ CapsAt s' L
        ∨ ∃ a, r = some a ∧ a ≠ d ∧ CapsAt s' ((L.take s.pool size r).give s.pool d)) := by
  obtain ⟨⟨s1, r1⟩, hrun1, hrest⟩ := poolBind_eq_ok.mp hrun
  obtain ⟨h1, hnew⟩ := h.alloc hfresh hrun1
  have hcaps1 := hcaps.take h hfresh hrun1
  have hsame1 := (mempAlloc_room hfresh hrun1).1.classes
  cases r1 with
  | none =>
      cases hrest
      exact ⟨hsame1, .inl ⟨rfl, hcaps1⟩⟩
  | some a =>
      obtain ⟨s2, hcopy, hrest⟩ := poolBind_eq_ok.mp hrest
      obtain ⟨s3, hrecycle, hret⟩ := poolBind_eq_ok.mp hrest
      cases hret
      have hsame2 : SameRoom [] s1 s2 := .memcpy hcopy
      have hne : a ≠ d := fun he => hnew a rfl (he ▸ hd)
      have hlive : d ∈ (L.take s.pool size (some a)).live := by
        rw [PoolLedger.take]
        split <;> exact .tail _ hd
      have hgive := (hcaps1.of_sameRoom hsame2).give (h1.memcpy hcopy) hlive hrecycle
      have hclasses := hsame1.trans hsame2.classes
      rw [PoolLedger.give, hclasses.1, ← PoolLedger.give] at hgive
      exact ⟨hclasses.trans (SameRoom.recycle hrecycle).1.classes, .inr ⟨a, rfl, hne, hgive⟩⟩

/-- `realloc` for a block that has no class: neither block has one, and no other
is written. -/
theorem reallocData (hcaps : CapsAt s L) (h : PoolAt s L) {d : Addr} {size : Nat} {malloc : Malloc}
    {r : Option Addr} (hd : d ∈ L.live) (hn : L.cls d = s.pool.n)
    (hlarge : s.pool.size (s.pool.n - 1) < size) (hfresh : FreshFor s d size malloc)
    (h0 : size ≠ 0) (hrun : s.reallocData d size malloc = .ok (s', r)) :
    SameClasses s.pool s'.pool ∧ CapsAt s' (L.resize s.pool d size r) := by
  rcases reallocData_cases hrun with ⟨-, rfl, rfl⟩ | ⟨a, c, c', rfl, rfl, -, hpool, hheap⟩
  · refine ⟨.refl _, ?_⟩
    simpa only [PoolLedger.resize, if_neg h0] using hcaps
  have hclasses : SameClasses s.pool s'.pool := by
    rw [hpool]
    exact .refl _
  refine ⟨hclasses, ?_⟩
  have hlt : ¬L.cls d < s.pool.n := by omega
  have hroom : ∀ b, b ≠ a → b ≠ d → b ∈ L.live ∨ b ∈ L.idle → L.cls b < s.pool.n →
      s'.capOf b = some (s.pool.size (L.cls b)) := by
    intro b hba hbd hb hbn
    rw [PoolMem.capOf, hheap, Function.update_of_ne hba, Function.update_of_ne hbd]
    exact hcaps b hb hbn
  have hge : ∀ b, L.cls b < s.pool.n → b ≠ d := fun b hb he => hlt (he ▸ hb)
  simp only [PoolLedger.resize, if_neg h0]
  by_cases had : a = d
  · subst had
    rw [if_pos rfl]
    intro b hb hbn
    rw [hpool] at hbn ⊢
    exact hroom b (hge b hbn) (hge b hbn) hb hbn
  · have ha : s.heap a = none :=
      (hfresh a c' rfl).resolve_right fun hr => had hr.1
    have hidle : a ∉ L.idle := fun hm => h.mapped (.inr hm) ha
    rw [if_neg had]
    simp only [PoolLedger.take, if_neg hidle, PoolLedger.give,
      Function.update_of_ne (Ne.symm had), if_neg hlt, classIndex_large h.ok hlarge]
    intro b hb hbn
    rw [hpool] at hbn ⊢
    dsimp only at hb hbn ⊢
    have hba : b ≠ a := by
      rintro rfl
      rw [Function.update_self] at hbn
      exact Nat.lt_irrefl _ hbn
    rw [Function.update_of_ne hba] at hbn ⊢
    refine hroom b hba (hge b hbn) (hb.imp_left fun hb => ?_) hbn
    exact (List.mem_cons.mp (List.mem_of_mem_erase hb)).resolve_left hba

theorem resize (hcaps : CapsAt s L) (h : PoolAt s L) {d : Addr} {size : Nat} {malloc : Malloc}
    {r : Option Addr} (hd : d ∈ L.live) (hfresh : FreshFor s d size malloc)
    (hrun : mempRealloc s (some d) size malloc = .ok (s', r)) :
    SameClasses s.pool s'.pool ∧ CapsAt s' (L.resize s.pool d size r) := by
  by_cases h0 : size = 0
  · simp only [PoolLedger.resize, if_pos h0]
    simp only [mempRealloc, reallocBy, if_pos h0] at hrun
    obtain ⟨s1, hrecycle, hret⟩ := poolBind_eq_ok.mp hrun
    cases hret
    exact ⟨(SameRoom.recycle hrecycle).1.classes, hcaps.give h hd hrecycle⟩
  have hmoved : ∀ n, Fresh s malloc → mempMove s d size n malloc = .ok (s', r) →
      SameClasses s.pool s'.pool ∧ CapsAt s' (L.resize s.pool d size r) := by
    intro n hmalloc hmove
    obtain ⟨hsame, hcase⟩ := hcaps.move h hmalloc hd hmove
    rcases hcase with ⟨rfl, h'⟩ | ⟨a, rfl, hne, h'⟩
    · simpa only [PoolLedger.resize, if_neg h0] using ⟨hsame, h'⟩
    · simpa only [PoolLedger.resize, if_neg h0, if_neg hne] using ⟨hsame, h'⟩
  rw [← reallocBy_memcpy] at hrun
  cases h.path hd h0 PoolMem.memcpy malloc with
  | stays _ _ heq =>
      rw [heq] at hrun
      cases hrun
      refine ⟨.refl _, ?_⟩
      simpa only [PoolLedger.resize, if_neg h0, if_pos] using hcaps
  | grows hlt _ heq =>
      exact hmoved _ (hfresh.fresh h hd (.inl hlt)) (heq.symm.trans hrun)
  | enters _ hsmall heq =>
      exact hmoved _ (hfresh.fresh h hd (.inr hsmall)) (heq.symm.trans hrun)
  | resizes hn hlarge heq =>
      exact hcaps.reallocData h hd hn hlarge hfresh h0 (heq.symm.trans hrun)

end CapsAt

/-! ## Runs -/

theorem poolReach_classes {fsize : List Nat} (hok : SizesOk fsize) {s : PoolMem} {L : PoolLedger}
    (h : PoolReach fsize s L) :
    (∃ p, mempNew true fsize = some p ∧ SameClasses p s.pool) ∧ CapsAt s L := by
  induction h with
  | new hp =>
      refine ⟨⟨_, hp, .refl _⟩, ?_⟩
      intro a ha
      rcases ha with ha | ha <;> cases ha
  | alloc hreach hfresh hrun ih =>
      obtain ⟨⟨p, hp, hsame⟩, hcaps⟩ := ih
      have hroom := (mempAlloc_room hfresh hrun).1
      exact ⟨⟨p, hp, hsame.trans hroom.classes⟩, hcaps.take (poolReach_inv hok hreach) hfresh hrun⟩
  | realloc hreach hd hfresh hrun ih =>
      obtain ⟨⟨p, hp, hsame⟩, hcaps⟩ := ih
      obtain ⟨hclasses, hcaps'⟩ := hcaps.resize (poolReach_inv hok hreach) hd hfresh hrun
      exact ⟨⟨p, hp, hsame.trans hclasses⟩, hcaps'⟩
  | recycle hreach hd hrun ih =>
      obtain ⟨⟨p, hp, hsame⟩, hcaps⟩ := ih
      have hroom := (SameRoom.recycle hrun).1
      exact ⟨⟨p, hp, hsame.trans hroom.classes⟩, hcaps.give (poolReach_inv hok hreach) hd hrun⟩

/-- The classes of a pool, at any time, are the sizes given to `memp_new`, sorted. -/
theorem poolReach_sizes {fsize : List Nat} (hok : SizesOk fsize) {s : PoolMem} {L : PoolLedger}
    (h : PoolReach fsize s L) : ((List.range s.pool.n).map s.pool.size).Perm fsize := by
  obtain ⟨⟨p, hp, hn, hsize⟩, -⟩ := poolReach_classes hok h
  rw [hn, hsize]
  exact mempNew_perm hok.le hp

/-- What a request of `size` bytes gets: a block of the least size in `fsize`
that is large enough, tagged with the class of that size, or, when there is no
such size, a block of just `size` bytes, tagged with the class `n`. -/
def ServedBy (fsize : List Nat) (s s' : PoolMem) (size : Nat) (d : Addr) : Prop :=
  ∃ i, s'.field d = .ok i ∧
    ((i < s.pool.n ∧ s.pool.size i ∈ fsize ∧ size ≤ s.pool.size i
        ∧ (∀ x ∈ fsize, size ≤ x → s.pool.size i ≤ x) ∧ s'.capOf d = some (s.pool.size i))
      ∨ (i = s.pool.n ∧ s.pool.size i = sizeMax ∧ (∀ x ∈ fsize, x < size)
        ∧ s'.capOf d = some size))

theorem Serves.servedBy {fsize : List Nat} (hok : SizesOk fsize) {s s' : PoolMem} {L : PoolLedger}
    (h : PoolReach fsize s L) {size : Nat} {d : Addr} (hd : Serves s s' size d) :
    ServedBy fsize s s' size d := by
  have hat := poolReach_inv hok h
  have hmem : ∀ x, x ∈ fsize ↔ ∃ j < s.pool.n, s.pool.size j = x := by
    intro x
    rw [← (poolReach_sizes hok h).mem_iff]
    simp
  have hclass : s.pool.classIndex size < s.pool.n → s'.field d = .ok (s.pool.classIndex size) →
      s'.capOf d = some (s.pool.size (s.pool.classIndex size)) → ServedBy fsize s s' size d := by
    intro hlt hfield hcap
    rcases classIndex_spec hat.ok size with ⟨he, -⟩ | ⟨-, hle, hleast⟩
    · omega
    refine ⟨_, hfield, .inl ⟨hlt, (hmem _).mpr ⟨_, hlt, rfl⟩, hle, ?_, hcap⟩⟩
    intro x hx hsize
    obtain ⟨j, hj, rfl⟩ := (hmem x).mp hx
    exact hleast j hj hsize
  cases hd with
  | idle hlt hhead hfield hcap =>
      obtain ⟨hidle, hcls, -⟩ := hat.head hlt hhead
      refine hclass hlt hfield ?_
      rw [hcap, (poolReach_classes hok h).2 d (.inr hidle) (hcls ▸ hlt), hcls]
  | fresh hlt _ hfield hcap => exact hclass hlt hfield hcap
  | single hge _ hfield hcap =>
      rcases classIndex_spec hat.ok size with ⟨-, hall⟩ | ⟨hlt, -⟩
      · refine ⟨_, hfield, .inr ⟨rfl, hat.ok.last, ?_, hcap⟩⟩
        intro x hx
        obtain ⟨j, hj, rfl⟩ := (hmem x).mp hx
        exact hall j hj
      · omega

/-- In every run `memp_alloc` answers NULL or serves the request as it should, and the index
that comes out of the binary search is one of a class. -/
theorem mempAlloc_serves {fsize : List Nat} (hok : SizesOk fsize) {s : PoolMem} {L : PoolLedger}
    (h : PoolReach fsize s L) {size : Nat} {malloc : Malloc} (hfresh : Fresh s malloc) :
    ∃ s' r, mempAlloc s size malloc = .ok (s', r) ∧ (∀ d, r = some d → ServedBy fsize s s' size d)
      ∧ (∃ i : Nat, searchSize s.pool.size size s.pool.n 0 (s.pool.n - 1) = i ∧ i < s.pool.n)
      ∧ s.pool.classIndex size ≤ s.pool.n := by
  have hat := poolReach_inv hok h
  have hpos := hat.ok.pos
  obtain ⟨s', r, hrun, -⟩ := mempAlloc_spec hat hfresh size
  refine ⟨s', r, hrun, ?_, ?_, classIndex_le hat.ok size⟩
  · intro d hd
    exact ((mempAlloc_room hfresh hrun).2 d hd).servedBy hok h
  · obtain ⟨i, hi, hlt, -⟩ := @searchSize_spec s.pool.size s.pool.n size s.pool.n 0 (s.pool.n - 1)
      hat.ok.sorted (by omega) (Int.le_refl _) (by omega) (by omega) (by omega)
      (fun x hx => by omega) (fun x hx hxn => by omega)
    exact ⟨i, hi, hlt⟩

/-- A block is made if no class has an idle one, and `malloc` answers. -/
theorem mempAlloc_first {s : PoolMem} {size : Nat} {a : Addr} {c : Block} (hsize : size ≠ 0)
    (hnone : ∀ i, s.pool.header i = none) :
    ∃ s', mempAlloc s size (some (a, c)) = .ok (s', some a) := by
  rw [mempAlloc, if_neg hsize]
  dsimp only
  split
  · exact ⟨_, rfl⟩
  · rw [hnone]
    exact ⟨_, rfl⟩

/-- The first request to a pool of two classes, given in the wrong order. -/
theorem mempAlloc_serves_new :
    ∃ p s', mempNew true [16, 8] = some p
      ∧ mempAlloc ⟨p, fun _ => none⟩ 5 (some (1, zeroBlock (.next none) 0)) = .ok (s', some 1)
      ∧ ServedBy [16, 8] ⟨p, fun _ => none⟩ s' 5 1
      ∧ (∃ i : Nat, searchSize p.size 5 p.n 0 (p.n - 1) = i ∧ i < p.n) ∧ p.classIndex 5 ≤ p.n := by
  have hok : SizesOk [16, 8] := ⟨by decide, by decide, by decide⟩
  obtain ⟨p, hp, hnone⟩ : ∃ p, mempNew true [16, 8] = some p ∧ ∀ i, p.header i = none :=
    ⟨_, rfl, fun _ => rfl⟩
  have hfresh : Fresh ⟨p, fun _ => none⟩ (some (1, zeroBlock (.next none) 0)) := fun _ _ _ => rfl
  obtain ⟨s', r, hrun, hserved, hindex⟩ := @mempAlloc_serves [16, 8] hok _ _ (.new hp) 5 _ hfresh
  obtain ⟨s1, hfirst⟩ := @mempAlloc_first ⟨p, fun _ => none⟩ 5 1 (zeroBlock (.next none) 0)
    (by decide) hnone
  cases hrun.symm.trans hfirst
  exact ⟨p, s', hp, hrun, hserved 1 rfl, hindex⟩

end Artorias
