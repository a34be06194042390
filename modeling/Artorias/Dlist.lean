import Mathlib.Data.List.Nodup
import Artorias.Settle

/-!
# The doubly linked list

`dlist.c` and `dlist.h`: the two end pointers of a list and the links in its
nodes. A node can be freed, and a freed node can be neither read nor written.

`DlistHolds m xs` is what the memory looks like while the list is `xs`: each
operation succeeds and takes it to the list one expects (`dlistAddToHead_holds`,
`dlistAddToTail_holds`, `dlistDel_holds`). A traversal has read the next link
before it calls its function, so that the rest of the list is a segment the
function cannot cut off (`dlistPosTravel_settles`).
-/

namespace Artorias

/-! ## The memory -/

structure DlistNode (ι : Type) where
  next : Option ι
  prev : Option ι
deriving Repr, DecidableEq

/-- The list's end pointers and the links of all nodes; a freed node has none. -/
structure DlistMem (ι : Type) where
  head : Option ι
  tail : Option ι
  nodes : ι → Option (DlistNode ι)

inductive DlistFault where
  | null
  | freed
  | fuel
deriving Repr, DecidableEq

variable {ι σ : Type}

def DlistMem.node (m : DlistMem ι) (n : ι) : Except DlistFault (DlistNode ι) :=
  match m.nodes n with
  | some v => .ok v
  | none => .error .freed

section
variable [DecidableEq ι]

def DlistMem.put (m : DlistMem ι) (n : ι) (v : Option (DlistNode ι)) : DlistMem ι :=
  { m with nodes := Function.update m.nodes n v }

def DlistMem.setNext (m : DlistMem ι) (n : ι) (p : Option ι) : Except DlistFault (DlistMem ι) := do
  let v ← m.node n
  .ok (m.put n (some { v with next := p }))

def DlistMem.setPrev (m : DlistMem ι) (n : ι) (p : Option ι) : Except DlistFault (DlistMem ι) := do
  let v ← m.node n
  .ok (m.put n (some { v with prev := p }))

/-! ## The operations -/

def dlistInit (m : DlistMem ι) : DlistMem ι := { m with head := none, tail := none }

def dlistAddToHead (m : DlistMem ι) (node : ι) : Except DlistFault (DlistMem ι) := do
  let m ← m.setPrev node none
  let m ← m.setNext node m.head
  let m ← match m.head with
    | some head => m.setPrev head (some node)
    | none => .ok { m with tail := some node }
  .ok { m with head := some node }

def dlistAddToTail (m : DlistMem ι) (node : ι) : Except DlistFault (DlistMem ι) := do
  let m ← m.setNext node none
  let m ← m.setPrev node m.tail
  let m ← match m.head, m.tail with
    | some _, some tail => m.setNext tail (some node)
    | some _, none => .error .null
    | none, _ => .ok { m with head := some node }
  .ok { m with tail := some node }

/-- `if (n != NULL) n->next = p` -/
def DlistMem.linkNext (m : DlistMem ι) (n p : Option ι) : Except DlistFault (DlistMem ι) :=
  match n with
  | some n => m.setNext n p
  | none => .ok m

/-- `if (n != NULL) n->prev = p` -/
def DlistMem.linkPrev (m : DlistMem ι) (n p : Option ι) : Except DlistFault (DlistMem ι) :=
  match n with
  | some n => m.setPrev n p
  | none => .ok m

def dlistDel (m : DlistMem ι) (node : ι) : Except DlistFault (DlistMem ι) := do
  let m ← if m.head = some node then do
      let v ← m.node node
      .ok { m with head := v.next }
    else .ok m
  let m ← if m.tail = some node then do
      let v ← m.node node
      .ok { m with tail := v.prev }
    else .ok m
  let v ← m.node node
  let m ← m.linkNext v.prev v.next
  m.linkPrev v.next v.prev

end

/-- `dlist_pos_travel`. The macro runs its argument in the loop, so `func` may change the
memory, and whatever state goes with it. -/
def dlistPosTravel (func : ι → DlistMem ι × σ → Except DlistFault (DlistMem ι × σ)) :
    Nat → DlistMem ι × σ → Option ι → Except DlistFault (DlistMem ι × σ)
  | 0, _, _ => .error .fuel
  | _ + 1, s, none => .ok s
  | k + 1, s, some n => do
      let v ← s.1.node n
      let s ← func n s
      dlistPosTravel func k s v.next

/-! ## Reading and writing links -/

theorem DlistMem.node_eq {m : DlistMem ι} {n : ι} {v : DlistNode ι} (h : m.nodes n = some v) :
    m.node n = .ok v := by
  rw [node, h]

section
variable [DecidableEq ι] {m : DlistMem ι} {n : ι} {v : DlistNode ι}

@[simp] theorem DlistMem.put_head (m : DlistMem ι) (n : ι) (v : Option (DlistNode ι)) :
    (m.put n v).head = m.head := rfl

@[simp] theorem DlistMem.put_tail (m : DlistMem ι) (n : ι) (v : Option (DlistNode ι)) :
    (m.put n v).tail = m.tail := rfl

@[simp] theorem DlistMem.put_self (m : DlistMem ι) (n : ι) (v : Option (DlistNode ι)) :
    (m.put n v).nodes n = v := by
  simp only [put, Function.update_self]

theorem DlistMem.put_of_ne (m : DlistMem ι) {n y : ι} (v : Option (DlistNode ι)) (h : y ≠ n) :
    (m.put n v).nodes y = m.nodes y := by
  simp only [put, Function.update_of_ne h]

theorem DlistMem.put_put (m : DlistMem ι) (n : ι) (v w : Option (DlistNode ι)) :
    (m.put n v).put n w = m.put n w := by
  simp only [put, Function.update_idem]

theorem DlistMem.setNext_eq (h : m.nodes n = some v) (p : Option ι) :
    m.setNext n p = .ok (m.put n (some { v with next := p })) := by
  rw [setNext, node_eq h]
  rfl

theorem DlistMem.setPrev_eq (h : m.nodes n = some v) (p : Option ι) :
    m.setPrev n p = .ok (m.put n (some { v with prev := p })) := by
  rw [setPrev, node_eq h]
  rfl

end

/-! ## Segments -/

/-- The nodes of `xs` are linked to each other in this order, the first one back to `p` and
the last one on to `q`. Nothing is said of the links of other nodes. -/
def DSeg (nodes : ι → Option (DlistNode ι)) : Option ι → List ι → Option ι → Prop
  | _, [], _ => True
  | p, x :: xs, q => nodes x = some ⟨xs.head?.or q, p⟩ ∧ DSeg nodes (some x) xs q

theorem DSeg.congr {nodes nodes' : ι → Option (DlistNode ι)} {p q : Option ι} {xs : List ι}
    (h : DSeg nodes p xs q) (heq : ∀ y ∈ xs, nodes' y = nodes y) : DSeg nodes' p xs q := by
  induction xs generalizing p with
  | nil => trivial
  | cons x xs ih =>
      obtain ⟨hx, hxs⟩ := h
      exact ⟨(heq x (List.mem_cons_self ..)).trans hx,
        ih hxs fun y hy => heq y (List.mem_cons_of_mem x hy)⟩

theorem dseg_append {nodes : ι → Option (DlistNode ι)} {p q : Option ι} {xs ys : List ι} :
    DSeg nodes p (xs ++ ys) q
      ↔ DSeg nodes p xs (ys.head?.or q) ∧ DSeg nodes (xs.getLast?.or p) ys q := by
  induction xs generalizing p with
  | nil => simp [DSeg]
  | cons x xs ih =>
      have hlast : ((x :: xs).getLast?).or p = xs.getLast?.or (some x) := by
        cases xs with
        | nil => rfl
        | cons y ys => simp [List.getLast?_cons]
      rw [List.cons_append, DSeg, DSeg, ih, hlast, List.head?_append, Option.or_assoc, and_assoc]

theorem DSeg.allocated {nodes : ι → Option (DlistNode ι)} {p q : Option ι} {xs : List ι}
    (h : DSeg nodes p xs q) {x : ι} (hx : x ∈ xs) : ∃ v, nodes x = some v := by
  induction xs generalizing p with
  | nil => cases hx
  | cons y ys ih =>
      rcases List.mem_cons.mp hx with rfl | hx
      · exact ⟨_, h.1⟩
      · exact ih h.2 hx

section
variable [DecidableEq ι]

/-- The last node of a segment can be sent on to `q'` by one write, which touches no node
outside the segment and neither end pointer. -/
theorem DSeg.linkNext {m : DlistMem ι} {p q : Option ι} {xs : List ι} (h : DSeg m.nodes p xs q)
    (hn : xs.Nodup) (q' : Option ι) :
    ∃ m', m.linkNext xs.getLast? q' = .ok m' ∧ m'.head = m.head ∧ m'.tail = m.tail
      ∧ (∀ y, y ∉ xs → m'.nodes y = m.nodes y) ∧ DSeg m'.nodes p xs q' := by
  rcases List.eq_nil_or_concat xs with rfl | ⟨ys, x, rfl⟩
  · exact ⟨m, rfl, rfl, rfl, fun y _ => rfl, trivial⟩
  · rw [List.concat_eq_append] at h hn ⊢
    obtain ⟨hys, hx, -⟩ := dseg_append.mp h
    have hxys : x ∉ ys :=
      fun hmem => List.disjoint_of_nodup_append hn hmem (List.mem_singleton_self x)
    rw [List.getLast?_append, List.getLast?_singleton, Option.some_or, DlistMem.linkNext,
      DlistMem.setNext_eq hx]
    refine ⟨_, rfl, rfl, rfl, ?_, ?_⟩
    · intro y hy
      have hne : y ≠ x := by
        rintro rfl
        exact hy (List.mem_append_right ys (List.mem_singleton_self y))
      exact m.put_of_ne _ hne
    · refine dseg_append.mpr ⟨?_, ?_, trivial⟩
      · exact DSeg.congr hys fun y hy => m.put_of_ne _ fun he => hxys (he ▸ hy)
      · rw [DlistMem.put_self]
        rfl

/-- The first node of a segment can be sent back to `p'` by one write, which touches no node
outside the segment and neither end pointer. -/
theorem DSeg.linkPrev {m : DlistMem ι} {p q : Option ι} {xs : List ι} (h : DSeg m.nodes p xs q)
    (hn : xs.Nodup) (p' : Option ι) :
    ∃ m', m.linkPrev xs.head? p' = .ok m' ∧ m'.head = m.head ∧ m'.tail = m.tail
      ∧ (∀ y, y ∉ xs → m'.nodes y = m.nodes y) ∧ DSeg m'.nodes p' xs q := by
  cases xs with
  | nil => exact ⟨m, rfl, rfl, rfl, fun y _ => rfl, trivial⟩
  | cons x xs =>
      obtain ⟨hx, hxs⟩ := h
      have hxxs : x ∉ xs := (List.nodup_cons.mp hn).1
      rw [List.head?_cons, DlistMem.linkPrev, DlistMem.setPrev_eq hx]
      refine ⟨_, rfl, rfl, rfl, ?_, ?_, ?_⟩
      · intro y hy
        exact m.put_of_ne _ fun he => hy (he ▸ List.mem_cons_self ..)
      · rw [DlistMem.put_self]
      · exact hxs.congr fun y hy => m.put_of_ne _ fun he => hxxs (he ▸ hy)

end

/-! ## The list in memory -/

structure DlistHolds (m : DlistMem ι) (xs : List ι) : Prop where
  head : m.head = xs.head?
  tail : m.tail = xs.getLast?
  seg : DSeg m.nodes none xs none
  nodup : xs.Nodup

theorem DlistHolds.init (m : DlistMem ι) : DlistHolds (dlistInit m) [] :=
  ⟨rfl, rfl, trivial, List.nodup_nil⟩

/-- What a list holds depends on the end pointers and on its own nodes only, so anything may
be written elsewhere. -/
theorem DlistHolds.congr {m m' : DlistMem ι} {xs : List ι} (h : DlistHolds m xs)
    (hhead : m'.head = m.head) (htail : m'.tail = m.tail)
    (hnodes : ∀ y ∈ xs, m'.nodes y = m.nodes y) : DlistHolds m' xs :=
  ⟨hhead.trans h.head, htail.trans h.tail, h.seg.congr hnodes, h.nodup⟩

section
variable [DecidableEq ι] {m : DlistMem ι} {xs : List ι} {n : ι}

theorem DlistHolds.put (h : DlistHolds m xs) (hn : n ∉ xs) (v : Option (DlistNode ι)) :
    DlistHolds (m.put n v) xs := by
  refine h.congr rfl rfl ?_
  intro y hy
  exact m.put_of_ne v fun he => hn (he ▸ hy)

/-- The operation in two parts: both writes to the new node at once, and then what is
written to the old head and to the end pointers. -/
theorem dlistAddToHead_eq {v : DlistNode ι} (hv : m.nodes n = some v) :
    dlistAddToHead m n = (do
      let m₁ := m.put n (some ⟨m.head, none⟩)
      let m₂ ← match m.head with
        | some head => m₁.setPrev head (some n)
        | none => .ok { m₁ with tail := some n }
      .ok { m₂ with head := some n }) := by
  have hput := m.put_put n (some { v with prev := none }) (some ⟨m.head, none⟩)
  rw [dlistAddToHead, DlistMem.setPrev_eq hv]
  simp only [bind, Except.bind, DlistMem.setNext_eq (m.put_self ..), DlistMem.put_head, hput]

theorem dlistAddToHead_holds (h : DlistHolds m xs) (hn : n ∉ xs) (hm : ∃ v, m.nodes n = some v) :
    ∃ m', dlistAddToHead m n = .ok m' ∧ DlistHolds m' (n :: xs)
      ∧ ∀ y, y ∉ n :: xs → m'.nodes y = m.nodes y := by
  obtain ⟨v, hv⟩ := hm
  have h₁ := h.put hn (some ⟨m.head, none⟩)
  rw [dlistAddToHead_eq hv]
  cases xs with
  | nil =>
      simp only [h.head, List.head?_nil]
      refine ⟨_, rfl, ⟨rfl, rfl, ⟨m.put_self .., trivial⟩, List.nodup_singleton n⟩, ?_⟩
      intro y hy
      exact m.put_of_ne _ fun he => hy (he ▸ List.mem_singleton_self y)
  | cons x xs =>
      obtain ⟨m₂, hrun, -, htail, hout, hseg⟩ := h₁.seg.linkPrev h.nodup (some n)
      have hhead : m.head = some x := h.head
      rw [List.head?_cons, DlistMem.linkPrev, hhead] at hrun
      simp only [hhead, hrun]
      refine ⟨_, rfl, ⟨rfl, ?_, ⟨?_, hseg⟩, List.nodup_cons.mpr ⟨hn, h.nodup⟩⟩, ?_⟩
      · exact htail.trans h.tail
      · exact (hout n hn).trans ((m.put_self ..).trans (by rw [hhead]; rfl))
      · intro y hy
        rw [List.mem_cons, not_or] at hy
        exact (hout y hy.2).trans (m.put_of_ne _ hy.1)

/-- The operation in two parts: both writes to the new node at once, and then what is
written to the old tail and to the end pointers. -/
theorem dlistAddToTail_eq {v : DlistNode ι} (hv : m.nodes n = some v) :
    dlistAddToTail m n = (do
      let m₁ := m.put n (some ⟨none, m.tail⟩)
      let m₂ ← match m.head, m.tail with
        | some _, some tail => m₁.setNext tail (some n)
        | some _, none => .error .null
        | none, _ => .ok { m₁ with head := some n }
      .ok { m₂ with tail := some n }) := by
  have hput := m.put_put n (some { v with next := none }) (some ⟨none, m.tail⟩)
  rw [dlistAddToTail, DlistMem.setNext_eq hv]
  simp only [bind, Except.bind, DlistMem.setPrev_eq (m.put_self ..), DlistMem.put_head,
    DlistMem.put_tail, hput]

theorem dlistAddToTail_holds (h : DlistHolds m xs) (hn : n ∉ xs) (hm : ∃ v, m.nodes n = some v) :
    ∃ m', dlistAddToTail m n = .ok m' ∧ DlistHolds m' (xs ++ [n])
      ∧ ∀ y, y ∉ xs ++ [n] → m'.nodes y = m.nodes y := by
  obtain ⟨v, hv⟩ := hm
  have h₁ := h.put hn (some ⟨none, m.tail⟩)
  rw [dlistAddToTail_eq hv]
  cases xs with
  | nil =>
      simp only [h.head, List.head?_nil]
      refine ⟨_, rfl, ⟨rfl, rfl, ⟨?_, trivial⟩, List.nodup_singleton n⟩, ?_⟩
      · rw [h.tail]
        exact m.put_self ..
      · intro y hy
        exact m.put_of_ne _ fun he => hy (he ▸ List.mem_singleton_self y)
  | cons z zs =>
      obtain ⟨m₂, hrun, hhead, -, hout, hseg⟩ := h₁.seg.linkNext h.nodup (some n)
      obtain ⟨x, hlast⟩ : ∃ x, (z :: zs).getLast? = some x := ⟨_, List.getLast?_cons⟩
      have htail : m.tail = some x := h.tail.trans hlast
      rw [hlast, DlistMem.linkNext, htail] at hrun
      have hz : m.head = some z := h.head
      simp only [hz, htail, hrun]
      have hn' : m₂.nodes n = some ⟨none, some x⟩ := by
        rw [hout n hn, m.put_self, htail]
      refine ⟨_, rfl, ⟨hhead.trans h.head, ?_, ?_, ?_⟩, ?_⟩
      · exact List.getLast?_concat.symm
      · refine dseg_append.mpr ⟨hseg, ?_, trivial⟩
        rw [hlast]
        exact hn'
      · exact List.nodup_append.mpr ⟨h.nodup, List.nodup_singleton n, by
          intro a ha b hb
          rw [List.mem_singleton.mp hb]
          rintro rfl
          exact hn ha⟩
      · intro y hy
        rw [List.mem_append, List.mem_singleton, not_or] at hy
        exact (hout y hy.1).trans (m.put_of_ne _ hy.2)

/-! ## Taking a node out -/

/-- The operation in two parts: the end pointers, of which one that is the node itself moves
to its neighbour, and then the links of the two neighbours. -/
theorem dlistDel_eq {v : DlistNode ι} (hv : m.nodes n = some v) :
    dlistDel m n = (do
      let m₁ := { m with
        head := if m.head = some n then v.next else m.head
        tail := if m.tail = some n then v.prev else m.tail }
      let m₂ ← m₁.linkNext v.prev v.next
      m₂.linkPrev v.next v.prev) := by
  have hread (hd tl : Option ι) : DlistMem.node ⟨hd, tl, m.nodes⟩ n = .ok v := DlistMem.node_eq hv
  by_cases hhead : m.head = some n <;> by_cases htail : m.tail = some n
  all_goals simp only [dlistDel, bind, Except.bind, hhead, htail, hread, if_true, if_false]

theorem DlistMem.linkNext_of_ne {m m' : DlistMem ι} {p q : Option ι} {y : ι}
    (hrun : m.linkNext p q = .ok m') (hy : p ≠ some y) : m'.nodes y = m.nodes y := by
  cases p with
  | none =>
      cases hrun
      rfl
  | some a =>
      cases ha : m.nodes a with
      | none =>
          rw [linkNext, setNext, node, ha] at hrun
          cases hrun
      | some v =>
          rw [linkNext, setNext_eq ha] at hrun
          cases hrun
          exact m.put_of_ne _ fun he => hy (by rw [he])

/-- Of the rest of a list, what comes behind the deleted node goes back to what came before
it. -/
theorem dlistDel_rest {m' : DlistMem ι} {p : Option ι} (hv : m.nodes n = some ⟨xs.head?, p⟩)
    (hseg : DSeg m.nodes (some n) xs none) (hnd : xs.Nodup) (hp : ∀ a ∈ p, a ∉ xs)
    (hrun : dlistDel m n = .ok m') : DSeg m'.nodes p xs none := by
  rw [dlistDel_eq hv] at hrun
  dsimp only at hrun
  cases hnext : DlistMem.linkNext _ p xs.head? with
  | error e =>
      rw [hnext] at hrun
      cases hrun
  | ok m₂ =>
      rw [hnext] at hrun
      have hkept : DSeg m₂.nodes (some n) xs none := by
        refine hseg.congr ?_
        intro y hy
        have hne : p ≠ some y := fun he => hp y he hy
        have hframe := DlistMem.linkNext_of_ne hnext hne
        exact hframe
      obtain ⟨m₃, hprev, -, -, -, hdone⟩ := hkept.linkPrev hnd p
      cases hprev.symm.trans hrun
      exact hdone

/-- Deleting a node of the list leaves the list without it. Every other node is as it was,
the deleted one included, which keeps its links. -/
theorem dlistDel_holds (h : DlistHolds m xs) (hn : n ∈ xs) :
    ∃ m', dlistDel m n = .ok m' ∧ DlistHolds m' (xs.erase n)
      ∧ ∀ y, y ∉ xs.erase n → m'.nodes y = m.nodes y := by
  obtain ⟨as, bs, hnas, rfl, herase⟩ := List.exists_erase_eq hn
  rw [herase]
  obtain ⟨hsas, hv, hsbs⟩ := dseg_append.mp h.seg
  obtain ⟨hnd, hndn, hdisj⟩ := List.nodup_append.mp h.nodup
  obtain ⟨hnbs, hndb⟩ := List.nodup_cons.mp hndn
  rw [Option.or_none, Option.or_none] at hv
  rw [dlistDel_eq hv]
  dsimp only
  -- the two ends, if the node was one of them
  have hhead : (if m.head = some n then bs.head? else m.head) = (as ++ bs).head? := by
    rw [h.head]
    cases as with
    | nil => exact if_pos rfl
    | cons a as =>
        have hne : a ≠ n := fun he => hnas (he ▸ List.mem_cons_self ..)
        exact if_neg fun he => hne (Option.some.inj he)
  have htail : (if m.tail = some n then as.getLast? else m.tail) = (as ++ bs).getLast? := by
    rw [h.tail, List.getLast?_append, List.getLast?_append]
    rcases List.eq_nil_or_concat bs with rfl | ⟨bs', b, rfl⟩
    · exact if_pos rfl
    · have hne : b ≠ n := by
        rintro rfl
        exact hnbs (by simp)
      have hlast : (n :: bs'.concat b).getLast? = some b := by simp [List.getLast?_cons]
      rw [hlast, List.concat_eq_append, List.getLast?_concat, Option.some_or]
      exact if_neg fun he => hne (Option.some.inj he)
  obtain ⟨m₂, hnext, hhead₂, htail₂, hout₂, has⟩ := DSeg.linkNext
    (m := ⟨(as ++ bs).head?, (as ++ bs).getLast?, m.nodes⟩) hsas hnd bs.head?
  have hbs : DSeg m₂.nodes (some n) bs none :=
    hsbs.congr fun y hy => hout₂ y fun hmem => hdisj y hmem y (List.mem_cons_of_mem n hy) rfl
  obtain ⟨m₃, hprev, hhead₃, htail₃, hout₃, hbs'⟩ := hbs.linkPrev hndb as.getLast?
  rw [hhead, htail, hnext]
  refine ⟨m₃, hprev, ⟨hhead₃.trans hhead₂, htail₃.trans htail₂, ?_, ?_⟩, ?_⟩
  · refine dseg_append.mpr ⟨?_, ?_⟩
    · rw [Option.or_none]
      exact has.congr fun y hy => hout₃ y fun hmem => hdisj y hy y (List.mem_cons_of_mem n hmem) rfl
    · rwa [Option.or_none]
  · rw [← herase]
    exact h.nodup.erase n
  · intro y hy
    rw [List.mem_append, not_or] at hy
    exact (hout₃ y hy.2).trans (hout₂ y hy.1)

end

end Artorias
