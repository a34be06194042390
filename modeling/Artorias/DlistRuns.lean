import Mathlib.Data.List.Induction
import Artorias.Dlist

/-!
# Histories of a doubly linked list

A list starts with `dlist_init`, nodes that are not in it are added at either
end, nodes that are in it are deleted, and in between the memory outside of it
changes at will (`DlistRun`). The list then is a plain sequence, whichever way
one reads it, and a traversal is a loop over that sequence
(`dlist_refines_sequence`).

This is what the lists in `thread.c` and `bytes.c` stand on, where they are
sequences: the resources of a thread and the blocks of a buffer.
-/

namespace Artorias

variable {ι σ : Type}

/-! ## Following the links -/

/-- From `p` on, `field` leads through exactly the nodes `xs` and then to NULL. -/
def Walk (nodes : ι → Option (DlistNode ι)) (field : DlistNode ι → Option ι) :
    Option ι → List ι → Prop
  | p, [] => p = none
  | p, x :: xs => p = some x ∧ ∃ v, nodes x = some v ∧ Walk nodes field (field v) xs

theorem DSeg.walk_next {nodes : ι → Option (DlistNode ι)} {p : Option ι} {xs : List ι}
    (h : DSeg nodes p xs none) : Walk nodes DlistNode.next xs.head? xs := by
  induction xs generalizing p with
  | nil => rfl
  | cons x xs ih =>
      obtain ⟨hx, hxs⟩ := h
      rw [Option.or_none] at hx
      exact ⟨rfl, _, hx, ih hxs⟩

theorem DSeg.walk_prev {nodes : ι → Option (DlistNode ι)} {q : Option ι} {xs : List ι}
    (h : DSeg nodes none xs q) : Walk nodes DlistNode.prev xs.getLast? xs.reverse := by
  induction xs using List.reverseRecOn generalizing q with
  | nil => rfl
  | append_singleton xs x ih =>
      obtain ⟨hxs, hx, -⟩ := dseg_append.mp h
      rw [Option.or_none] at hx
      rw [List.getLast?_concat, List.reverse_append, List.reverse_singleton]
      exact ⟨rfl, _, hx, ih hxs⟩

/-! ## Traversals -/

section
variable [DecidableEq ι]

/-- What `func` may do in a traversal of `xs`: it may unlink the node it is given, and do
anything to that node, to the end pointers and outside of `xs`; the links of the other nodes
are not its own. -/
def VisitsDlist (func : ι → DlistMem ι × σ → Except DlistFault (DlistMem ι × σ)) (xs : List ι) :
    Prop :=
  ∀ x s s', func x s = .ok s' →
    ∃ m, (m = s.1 ∨ dlistDel s.1 x = .ok m) ∧ ∀ y ∈ xs, y ≠ x → s'.1.nodes y = m.nodes y

/-- The traversal calls `func` on every node in order and ends. The next link is read before
the call, so it does not matter what the call does to its own node, freeing it included. -/
theorem dlistPosTravel_settles {func : ι → DlistMem ι × σ → Except DlistFault (DlistMem ι × σ)}
    {xs rest : List ι} (hfunc : VisitsDlist func xs) (hsub : ∀ x ∈ rest, x ∈ xs)
    (hnd : rest.Nodup) {s : DlistMem ι × σ} {p : Option ι} (hseg : DSeg s.1.nodes p rest none)
    (hp : ∀ a ∈ p, a ∉ rest) :
    Settles (fun k => dlistPosTravel func k s rest.head?)
      (rest.foldlM (fun s x => func x s) s) := by
  induction rest generalizing s p with
  | nil => exact (Settles.const (.ok s)).succ fun k => rfl
  | cons x rest ih =>
      obtain ⟨hx, hrest⟩ := hseg
      obtain ⟨hxrest, hndrest⟩ := List.nodup_cons.mp hnd
      rw [Option.or_none] at hx
      have hturn (k : Nat) : dlistPosTravel func (k + 1) s (some x)
          = func x s >>= fun s' => dlistPosTravel func k s' rest.head? := by
        rw [dlistPosTravel, DlistMem.node_eq hx]
        rfl
      rw [List.head?_cons, List.foldlM_cons]
      refine Settles.succ ?_ hturn
      cases hcall : func x s with
      | error e => exact Settles.const (.error e)
      | ok s' =>
          obtain ⟨m, hm, hkept⟩ := hfunc x s s' hcall
          have hkept' : ∀ y ∈ rest, s'.1.nodes y = m.nodes y := by
            intro y hy
            refine hkept y (hsub y (List.mem_cons_of_mem x hy)) ?_
            rintro rfl
            exact hxrest hy
          have hseg' : ∃ p', DSeg s'.1.nodes p' rest none ∧ ∀ a ∈ p', a ∉ rest := by
            rcases hm with rfl | hdel
            · refine ⟨some x, hrest.congr hkept', ?_⟩
              rintro a ⟨⟩
              exact hxrest
            · have hp' : ∀ a ∈ p, a ∉ rest := fun a ha hmem => hp a ha (List.mem_cons_of_mem x hmem)
              exact ⟨p, (dlistDel_rest hx hrest hndrest hp' hdel).congr hkept', hp'⟩
          obtain ⟨p', hseg', hp'⟩ := hseg'
          exact ih (fun y hy => hsub y (List.mem_cons_of_mem x hy)) hndrest hseg' hp'

/-- Giving back the memory of a node. -/
def dlistFree (m : DlistMem ι) (n : ι) : Except DlistFault (DlistMem ι) := do
  let _ ← m.node n
  .ok (m.put n none)

/-- A function that unlinks and frees the nodes that are `gone`, with a record of
its calls. -/
def dropWhere (gone : ι → Bool) (n : ι) :
    DlistMem ι × List ι → Except DlistFault (DlistMem ι × List ι)
  | (m, log) => do
      let m ← if gone n then do
          let m ← dlistDel m n
          dlistFree m n
        else .ok m
      .ok (m, log ++ [n])

/-- A function that frees each node and leaves the links to it as they are, with
a record of its calls. -/
def freeEach (n : ι) : DlistMem ι × List ι → Except DlistFault (DlistMem ι × List ι)
  | (m, log) => do
      let m ← dlistFree m n
      .ok (m, log ++ [n])

theorem dlistFree_eq_ok {m m' : DlistMem ι} {n : ι} (h : dlistFree m n = .ok m') :
    m' = m.put n none := by
  cases hn : m.nodes n with
  | none =>
      rw [dlistFree, DlistMem.node, hn] at h
      cases h
  | some v =>
      rw [dlistFree, DlistMem.node_eq hn] at h
      cases h
      rfl

theorem visitsDlist_dropWhere (gone : ι → Bool) (xs : List ι) :
    VisitsDlist (dropWhere gone) xs := by
  rintro x ⟨m, log⟩ s' hrun
  rw [dropWhere] at hrun
  by_cases hx : gone x
  · rw [if_pos hx] at hrun
    cases hdel : dlistDel m x with
    | error e =>
        rw [hdel] at hrun
        cases hrun
    | ok m₁ =>
        cases hfree : dlistFree m₁ x with
        | error e =>
            simp only [hdel, hfree, bind, Except.bind] at hrun
            cases hrun
        | ok m₂ =>
            simp only [hdel, hfree, bind, Except.bind] at hrun
            cases hrun
            refine ⟨m₁, .inr rfl, ?_⟩
            intro y _ hne
            rw [dlistFree_eq_ok hfree]
            exact m₁.put_of_ne none hne
  · rw [if_neg hx] at hrun
    cases hrun
    exact ⟨m, .inl rfl, fun y _ _ => rfl⟩

theorem visitsDlist_freeEach (xs : List ι) : VisitsDlist freeEach xs := by
  rintro x ⟨m, log⟩ s' hrun
  cases hfree : dlistFree m x with
  | error e =>
      simp only [freeEach, hfree, bind, Except.bind] at hrun
      cases hrun
  | ok m₁ =>
      simp only [freeEach, hfree, bind, Except.bind] at hrun
      cases hrun
      refine ⟨m, .inl rfl, ?_⟩
      intro y _ hne
      rw [dlistFree_eq_ok hfree]
      exact m.put_of_ne none hne

theorem foldlM_dropWhere (gone : ι → Bool) (log : List ι) {pre rest : List ι} {m : DlistMem ι}
    (h : DlistHolds m (pre ++ rest)) :
    ∃ m', rest.foldlM (fun s x => dropWhere gone x s) (m, log) = .ok (m', log ++ rest)
      ∧ DlistHolds m' (pre ++ rest.filter fun x => !gone x) := by
  induction rest generalizing pre m log with
  | nil =>
      rw [List.append_nil] at h
      exact ⟨m, by rw [List.append_nil]; rfl, by rwa [List.filter_nil, List.append_nil]⟩
  | cons x rest ih =>
      have hmem : x ∈ pre ++ x :: rest := List.mem_append_right pre (List.mem_cons_self ..)
      have hlog : log ++ x :: rest = (log ++ [x]) ++ rest := by simp
      rw [List.foldlM_cons, hlog]
      by_cases hx : gone x
      · obtain ⟨m₁, hdel, h₁, hout⟩ := dlistDel_holds h hmem
        have hx₁ := h.nodup.not_mem_erase (a := x)
        obtain ⟨v, hv⟩ := h.seg.allocated hmem
        have hfree : dlistFree m₁ x = .ok (m₁.put x none) := by
          rw [dlistFree, DlistMem.node_eq ((hout x hx₁).trans hv)]
          rfl
        have hpre : x ∉ pre := fun hp =>
          (List.nodup_append.mp h.nodup).2.2 x hp x (List.mem_cons_self ..) rfl
        have h₂ := h₁.put hx₁ none
        rw [List.erase_append_right _ hpre, List.erase_cons_head] at h₂
        obtain ⟨m', hrest, h'⟩ := ih (log ++ [x]) h₂
        refine ⟨m', ?_, ?_⟩
        · simp only [dropWhere, if_pos hx, hdel, hfree, bind, Except.bind]
          exact hrest
        · rwa [List.filter_cons_of_neg (by simp [hx])]
      · have hshift : pre ++ x :: rest = (pre ++ [x]) ++ rest := by simp
        rw [hshift] at h
        obtain ⟨m', hrest, h'⟩ := ih (log ++ [x]) h
        refine ⟨m', ?_, ?_⟩
        · simp only [dropWhere, if_neg hx, bind, Except.bind]
          exact hrest
        · rw [List.filter_cons_of_pos (by simp [hx])]
          rwa [List.append_assoc] at h'

theorem foldlM_freeEach (log : List ι) {xs : List ι} {m : DlistMem ι} (hnd : xs.Nodup)
    (hm : ∀ x ∈ xs, ∃ v, m.nodes x = some v) :
    ∃ m', xs.foldlM (fun s x => freeEach x s) (m, log) = .ok (m', log ++ xs)
      ∧ (∀ x ∈ xs, m'.nodes x = none) ∧ ∀ y, y ∉ xs → m'.nodes y = m.nodes y := by
  induction xs generalizing m log with
  | nil => exact ⟨m, by rw [List.append_nil]; rfl, by simp, by simp⟩
  | cons x xs ih =>
      obtain ⟨hx, hnd⟩ := List.nodup_cons.mp hnd
      obtain ⟨v, hv⟩ := hm x (List.mem_cons_self ..)
      have hfree : dlistFree m x = .ok (m.put x none) := by
        rw [dlistFree, DlistMem.node_eq hv]
        rfl
      have hm' : ∀ y ∈ xs, ∃ v, (m.put x none).nodes y = some v := by
        intro y hy
        have hne : y ≠ x := fun he => hx (he ▸ hy)
        rw [m.put_of_ne none hne]
        exact hm y (List.mem_cons_of_mem x hy)
      obtain ⟨m', hrest, hgone, hout⟩ := ih (log ++ [x]) hnd hm'
      have hlog : log ++ x :: xs = (log ++ [x]) ++ xs := by simp
      rw [List.foldlM_cons, hlog]
      refine ⟨m', ?_, ?_, ?_⟩
      · simp only [freeEach, hfree, bind, Except.bind]
        exact hrest
      · intro y hy
        rcases List.mem_cons.mp hy with rfl | hy
        · exact (hout y hx).trans (m.put_self ..)
        · exact hgone y hy
      · intro y hy
        rw [List.mem_cons, not_or] at hy
        exact (hout y hy.2).trans (m.put_of_ne none hy.1)

/-! ## Histories -/

/-- A history of a list: what operations on nodes that are there lead to, and the sequence
`xs` that the list is meant to be by then. -/
inductive DlistRun : DlistMem ι → List ι → Prop where
  | init (m : DlistMem ι) : DlistRun (dlistInit m) []
  | addToHead {m m' : DlistMem ι} {xs : List ι} {n : ι} (h : DlistRun m xs) (hn : n ∉ xs)
      (hrun : dlistAddToHead m n = .ok m') : DlistRun m' (n :: xs)
  | addToTail {m m' : DlistMem ι} {xs : List ι} {n : ι} (h : DlistRun m xs) (hn : n ∉ xs)
      (hrun : dlistAddToTail m n = .ok m') : DlistRun m' (xs ++ [n])
  | del {m m' : DlistMem ι} {xs : List ι} {n : ι} (h : DlistRun m xs) (hn : n ∈ xs)
      (hrun : dlistDel m n = .ok m') : DlistRun m' (xs.erase n)
  -- nodes outside of the list come, go, and are in other lists
  | outside {m : DlistMem ι} {xs : List ι} (h : DlistRun m xs)
      (nodes : ι → Option (DlistNode ι)) (hnodes : ∀ y ∈ xs, nodes y = m.nodes y) :
      DlistRun { m with nodes := nodes } xs

theorem dlistAdd_allocated {m m' : DlistMem ι} {n : ι}
    (hrun : dlistAddToHead m n = .ok m' ∨ dlistAddToTail m n = .ok m') :
    ∃ v, m.nodes n = some v := by
  cases hn : m.nodes n with
  | some v => exact ⟨v, rfl⟩
  | none =>
      rcases hrun with hrun | hrun
      · rw [dlistAddToHead, DlistMem.setPrev, DlistMem.node, hn] at hrun
        cases hrun
      · rw [dlistAddToTail, DlistMem.setNext, DlistMem.node, hn] at hrun
        cases hrun

theorem DlistRun.holds {m : DlistMem ι} {xs : List ι} (h : DlistRun m xs) : DlistHolds m xs := by
  induction h with
  | init m => exact .init m
  | addToHead _ hn hrun ih =>
      obtain ⟨m', hrun', h', -⟩ := dlistAddToHead_holds ih hn (dlistAdd_allocated (.inl hrun))
      cases hrun.symm.trans hrun'
      exact h'
  | addToTail _ hn hrun ih =>
      obtain ⟨m', hrun', h', -⟩ := dlistAddToTail_holds ih hn (dlistAdd_allocated (.inr hrun))
      cases hrun.symm.trans hrun'
      exact h'
  | del _ hn hrun ih =>
      obtain ⟨m', hrun', h', -⟩ := dlistDel_holds ih hn
      cases hrun.symm.trans hrun'
      exact h'
  | outside _ nodes hnodes ih => exact ih.congr rfl rfl hnodes

/-- `m` holds the sequence `xs` for everyone who uses it: whoever follows links in either
direction, goes on with any operation, or traverses it from any node on, whatever the calls
do to their own nodes. -/
structure DlistRefines (m : DlistMem ι) (xs : List ι) : Prop where
  next : Walk m.nodes DlistNode.next m.head xs
  prev : Walk m.nodes DlistNode.prev m.tail xs.reverse
  head : m.head = none ↔ xs = []
  tail : m.tail = none ↔ xs = []
  addToHead : ∀ n, n ∉ xs → (∃ v, m.nodes n = some v) →
    ∃ m', dlistAddToHead m n = .ok m' ∧ ∀ y, y ∉ n :: xs → m'.nodes y = m.nodes y
  addToTail : ∀ n, n ∉ xs → (∃ v, m.nodes n = some v) →
    ∃ m', dlistAddToTail m n = .ok m' ∧ ∀ y, y ∉ xs ++ [n] → m'.nodes y = m.nodes y
  del : ∀ n ∈ xs, ∃ m', dlistDel m n = .ok m' ∧ ∀ y, y ∉ xs.erase n → m'.nodes y = m.nodes y
  -- from any node on, whatever the calls do to their nodes
  travel : ∀ (σ : Type) (func : ι → DlistMem ι × σ → Except DlistFault (DlistMem ι × σ))
    (w : σ) (pre rest : List ι), VisitsDlist func xs → xs = pre ++ rest →
    Settles (fun k => dlistPosTravel func k (m, w) rest.head?)
      (rest.foldlM (fun s x => func x s) (m, w))
  travelDrop : ∀ gone : ι → Bool, ∃ m',
    Settles (fun k => dlistPosTravel (dropWhere gone) k (m, []) m.head) (.ok (m', xs))
      ∧ Walk m'.nodes DlistNode.next m'.head (xs.filter fun x => !gone x)
      ∧ Walk m'.nodes DlistNode.prev m'.tail (xs.filter fun x => !gone x).reverse
  travelFree : ∃ m', Settles (fun k => dlistPosTravel freeEach k (m, []) m.head) (.ok (m', xs))
    ∧ ∀ x ∈ xs, m'.nodes x = none

theorem DlistHolds.travel {m : DlistMem ι} {xs pre rest : List ι} (h : DlistHolds m xs)
    {func : ι → DlistMem ι × σ → Except DlistFault (DlistMem ι × σ)}
    (hfunc : VisitsDlist func xs) (w : σ) (hxs : xs = pre ++ rest) :
    Settles (fun k => dlistPosTravel func k (m, w) rest.head?)
      (rest.foldlM (fun s x => func x s) (m, w)) := by
  subst hxs
  obtain ⟨-, hseg⟩ := dseg_append.mp h.seg
  obtain ⟨-, hnd, hdisj⟩ := List.nodup_append.mp h.nodup
  refine dlistPosTravel_settles hfunc (fun x hx => List.mem_append_right pre hx) hnd hseg ?_
  intro a ha hmem
  rw [Option.or_none] at ha
  exact hdisj a (List.mem_of_getLast? ha) a hmem rfl

theorem DlistHolds.refines {m : DlistMem ι} {xs : List ι} (h : DlistHolds m xs) :
    DlistRefines m xs where
  next := by
    rw [h.head]
    exact h.seg.walk_next
  prev := by
    rw [h.tail]
    exact h.seg.walk_prev
  head := by rw [h.head, List.head?_eq_none_iff]
  tail := by rw [h.tail, List.getLast?_eq_none_iff]
  addToHead := by
    intro n hn hm
    obtain ⟨m', hrun, -, hout⟩ := dlistAddToHead_holds h hn hm
    exact ⟨m', hrun, hout⟩
  addToTail := by
    intro n hn hm
    obtain ⟨m', hrun, -, hout⟩ := dlistAddToTail_holds h hn hm
    exact ⟨m', hrun, hout⟩
  del := by
    intro n hn
    obtain ⟨m', hrun, -, hout⟩ := dlistDel_holds h hn
    exact ⟨m', hrun, hout⟩
  travel := by
    intro σ func w pre rest hfunc hxs
    exact h.travel hfunc w hxs
  travelDrop := by
    intro gone
    obtain ⟨m', hfold, h'⟩ := @foldlM_dropWhere _ _ gone [] [] xs m h
    have htravel := h.travel (visitsDlist_dropWhere gone xs) [] (List.nil_append xs).symm
    rw [hfold, ← h.head] at htravel
    refine ⟨m', htravel, ?_, ?_⟩
    · rw [h'.head]
      exact h'.seg.walk_next
    · rw [h'.tail]
      exact h'.seg.walk_prev
  travelFree := by
    obtain ⟨m', hfold, hgone, -⟩ :=
      foldlM_freeEach [] h.nodup fun x hx => h.seg.allocated hx
    have htravel := h.travel (visitsDlist_freeEach xs) [] (List.nil_append xs).symm
    rw [hfold, ← h.head] at htravel
    exact ⟨m', htravel, hgone⟩

theorem dlist_refines_sequence {m : DlistMem ι} {xs : List ι} (h : DlistRun m xs) :
    DlistRefines m xs := h.holds.refines

/-- All nodes are there, and linked to nothing. -/
def unlinkedNodes : DlistMem Nat := ⟨none, none, fun _ => some ⟨none, none⟩⟩

theorem unlinkedNodes_refines :
    ∃ m₁ m₂ m₃, dlistAddToHead (dlistInit unlinkedNodes) 1 = .ok m₁ ∧ dlistAddToTail m₁ 2 = .ok m₂
      ∧ dlistDel m₂ 1 = .ok m₃ ∧ DlistRefines m₃ [2] := by
  refine ⟨_, _, _, rfl, rfl, rfl, ?_⟩
  have h₁ := (DlistRun.init unlinkedNodes).addToHead (n := 1) (by decide) rfl
  have h₂ := h₁.addToTail (n := 2) (by decide) rfl
  have h₃ := h₂.del (n := 1) (by decide) rfl
  exact dlist_refines_sequence h₃

end

end Artorias
