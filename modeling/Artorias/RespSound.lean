import Artorias.RespReader

/-!
# What the reader accepts

`ReadText z w`: the state `z` after the text `w`, read without a slip. A value
read without a slip is one its text encodes (`ReadText.step`), and whatever
has been read fits (`Fit.step`), so a text is an encoding of the value read
from it exactly if no step slipped (`encodes_iff_eachStep`).
-/

namespace Artorias

theorem EncodesAll.snoc {v : Resp} {u : Bytes} (hv : Encodes v u) :
    ∀ {vs : List Resp} {w : Bytes}, EncodesAll vs w → EncodesAll (vs ++ [v]) (w ++ u)
  | [], _, .nil => by simpa using EncodesAll.cons hv .nil
  | _ :: _, _, .cons hw hws => by
      rw [List.append_assoc]
      exact .cons hw (hws.snoc hv)

theorem allFit_snoc {lim : Nat} {v : Resp} (hv : v.Fits lim) :
    ∀ {vs : List Resp}, AllFit lim vs → AllFit lim (vs ++ [v])
  | [], _ => ⟨hv, trivial⟩
  | _ :: _, h => ⟨h.1, allFit_snoc hv h.2⟩

theorem crlf_suffix_concat {text : Bytes} {b : UInt8} (h : crlf <:+ text ++ [b]) :
    b = 10 ∧ ∃ p, text = p ++ [13] := by
  obtain ⟨p, hp⟩ := h
  have hsplit : p ++ [13] ++ [10] = text ++ [b] := by simpa [crlf] using hp
  obtain ⟨htext, hb⟩ := List.append_inj' hsplit rfl
  exact ⟨(List.singleton_inj.mp hb).symm, p, htext.symm⟩

/-- A length that the index of a payload's end reaches has not wrapped: the index cannot
come to a sum that is out of range. -/
theorem goInt_reached {n : Int} {k : Nat} (h0 : 0 ≤ n) (hn : n < 2 ^ 63)
    (h : (k : Int) = goInt (n + 2)) : (k : Int) = n + 2 ∧ n + 2 < 2 ^ 63 := by
  rw [goInt, Int.bmod] at h
  split at h <;> omega

namespace Reader

/-! ## The text so far -/

def typeByte : RcType → UInt8
  | .status => 43
  | .error => 45
  | .bulk => 36
  | .int => 58
  | .mulit => 42
  | .unknown => 0

theorem typeByte_lineType {b : UInt8} (h : lineType b ≠ .unknown) : typeByte (lineType b) = b := by
  unfold lineType at *
  split_ifs at * with h1 h2 h3 h4 h5
  · exact h1.symm
  · exact h2.symm
  · exact h3.symm
  · exact h4.symm
  · exact h5.symm
  · exact absurd rfl h

end Reader

/-- The count line of an array under way, and its elements so far. -/
def Ctx.Text (c : Ctx) (w : Bytes) : Prop :=
  ∃ t u, atoi t = some ((c.done.length + 1 + c.pending : Nat) : Int) ∧ EncodesAll c.done u ∧
    w = 42 :: (t ++ crlf ++ u)

inductive CtxsText : List Ctx → Bytes → Prop where
  | nil : CtxsText [] []
  | cons {c : Ctx} {cs : List Ctx} {w u : Bytes} : CtxsText cs w → c.Text u →
      CtxsText (c :: cs) (w ++ u)

def Focus.Text : Focus → Bytes → Prop
  | .start, w => w = []
  | .line ty text, w => ty ≠ .unknown ∧ NoCrlf text ∧ w = Reader.typeByte ty :: text
  | .payload n text, w => 0 ≤ n ∧ ∃ t, atoi t = some n ∧ w = 36 :: (t ++ crlf ++ text)
  | .dead, _ => True

namespace Reader

def ReadText : Reader → Bytes → Prop
  | .reading cs f, w => ∃ w₁ w₂, w = w₁ ++ w₂ ∧ CtxsText cs w₁ ∧ f.Text w₂
  | .done v, w => Encodes v w
  | .rejected, _ => True

theorem readText_fresh : ReadText fresh [] := ⟨[], [], rfl, .nil, rfl⟩

theorem ReadText.reading {cs : List Ctx} {f : Focus} {w₁ w₂ : Bytes} (hcs : CtxsText cs w₁)
    (hf : f.Text w₂) : ReadText (.reading cs f) (w₁ ++ w₂) :=
  ⟨w₁, w₂, rfl, hcs, hf⟩

theorem close_text {cs : List Ctx} {v : Resp} {w u : Bytes} (hcs : CtxsText cs w)
    (hv : Encodes v u) : ReadText (close cs v) (w ++ u) := by
  induction hcs generalizing v u with
  | nil => exact hv
  | @cons c cs w w' hcs hc ih =>
      obtain ⟨ds, n⟩ := c
      obtain ⟨t, e, ht, he, rfl⟩ := hc
      have hall := EncodesAll.snoc hv he
      cases n with
      | zero =>
          have harray : Encodes (.array (ds ++ [v])) (42 :: (t ++ crlf ++ (e ++ u))) :=
            .array (by simpa using ht) hall
          have h := ih harray
          rw [close_last, List.append_assoc]
          simpa using h
      | succ n =>
          have hctx : Ctx.Text ⟨ds ++ [v], n⟩ (42 :: (t ++ crlf ++ (e ++ u))) := by
            refine ⟨t, e ++ u, ht.trans (congrArg some ?_), hall, rfl⟩
            simp only [List.length_append, List.length_singleton]
            omega
          have h := ReadText.reading (f := .start) (.cons hcs hctx) rfl
          rw [close_next, List.append_assoc]
          simpa using h

section

variable {lim : Nat} {cs : List Ctx} {w : Bytes} {z : Reader}

theorem endLine_text {ty : RcType} {t : Bytes} (hcs : CtxsText cs w) (hty : ty ≠ .unknown)
    (ht : NoCrlf t) (hnum : ¬BadNumber (ty, t)) (h : endLine lim cs ty t = .ok z) :
    ReadText z (w ++ typeByte ty :: (t ++ crlf)) := by
  cases ty with
  | status =>
      cases h
      exact close_text hcs (.status ht)
  | error =>
      cases h
      exact close_text hcs (.error ht)
  | unknown => exact absurd rfl hty
  | int =>
      rw [endLine] at h
      cases hi : atoi t with
      | none => exact absurd ⟨.inl rfl, hi⟩ hnum
      | some i =>
          rw [hi] at h
          cases h
          exact close_text hcs (.int hi)
  | bulk =>
      rw [endLine] at h
      cases hi : atoi t with
      | none => exact absurd ⟨.inr (.inl rfl), hi⟩ hnum
      | some i =>
          simp only [hi] at h
          split at h
          · rename_i hneg
            cases h
            exact close_text hcs (.null hi hneg)
          · rename_i hneg
            cases h
            exact .reading hcs ⟨by omega, t, hi, by simp [typeByte]⟩
  | mulit =>
      rw [endLine] at h
      cases hi : atoi t with
      | none => exact absurd ⟨.inr (.inr rfl), hi⟩ hnum
      | some i =>
          simp only [hi] at h
          split at h
          · cases h
          · rename_i hlim
            cases h
            cases hn : i.toNat with
            | zero => exact .reading hcs trivial
            | succ n =>
                have hctx : Ctx.Text ⟨[], n⟩ (42 :: (t ++ crlf ++ [])) :=
                  ⟨t, [], by rw [hi]; congr 1; simp; omega, .nil, rfl⟩
                have h := ReadText.reading (f := .start) (.cons hcs hctx) rfl
                simpa [openArray, typeByte] using h

theorem ReadText.step {b : UInt8} {z' : Reader} (hw : ReadText z w)
    (hend : (reader lim).ended z = false) (hclean : ¬z.Slips b)
    (h : (reader lim).step z b = .ok z') : ReadText z' (w ++ [b]) := by
  cases z with
  | done v => cases hend
  | rejected => cases hend
  | reading cs f =>
      obtain ⟨w₁, w₂, rfl, hcs, hf⟩ := hw
      rw [List.append_assoc]
      cases f with
      | start =>
          cases h
          cases hf
          have hty : lineType b ≠ .unknown := fun hu => hclean (.inl (congrArg some hu))
          exact .reading hcs ⟨hty, noCrlf_nil, by rw [typeByte_lineType hty]; rfl⟩
      | line ty text =>
          obtain ⟨hty, htext, rfl⟩ := hf
          by_cases hcrlf : crlf <:+ text ++ [b]
          · obtain ⟨rfl, p, rfl⟩ := crlf_suffix_concat hcrlf
            rw [step_line_end] at h
            have hnum : ¬BadNumber (ty, p) := fun hbad => hclean (.inr ⟨_, if_pos hcrlf, by
              rwa [List.dropLast_concat]⟩)
            simpa [crlf] using endLine_text hcs hty htext.left hnum h
          · rw [step_line_of_not hcrlf] at h
            cases h
            exact .reading hcs ⟨hty, htext.snoc hcrlf, rfl⟩
      | payload n text =>
          obtain ⟨h0, t, ht, rfl⟩ := hf
          by_cases hlen : ((text.length + 1 : Nat) : Int) = goInt (n + 2)
          · by_cases hcrlf : crlf <:+ text ++ [b]
            · obtain ⟨rfl, p, rfl⟩ := crlf_suffix_concat hcrlf
              have hreached := (goInt_reached h0 (atoi_lt ht).2 hlen).1
              rw [step_payload_end (by rw [List.length_append] at hlen; exact hlen)] at h
              cases h
              have hbulk : Encodes (.bulk (some p)) (36 :: (t ++ crlf ++ (p ++ crlf))) := by
                refine .bulk ?_
                rw [ht, List.length_append] at *
                congr 1
                simp at hreached
                omega
              simpa [crlf] using close_text hcs hbulk
            · have hrej : (reader lim).step (.reading cs (.payload n text)) b = .ok .rejected :=
                (if_pos hlen).trans (if_neg hcrlf)
              rw [hrej] at h
              cases h
              trivial
          · rw [step_payload_of_ne hlen] at h
            cases h
            exact .reading hcs ⟨h0, t, ht, by simp⟩
      | dead =>
          cases h
          exact .reading hcs trivial

/-! ## Sizes -/

def Fit (lim : Nat) : Reader → Prop
  | .reading cs f =>
      (∀ c ∈ cs, AllFit lim c.done ∧ c.done.length + 1 + c.pending ≤ lim) ∧
        ∀ n text, f = .payload n text → 0 ≤ n ∧ n < 2 ^ 63
  | .done v => v.Fits lim
  | .rejected => True

theorem fit_fresh (lim : Nat) : Fit lim fresh := ⟨by simp, by rintro _ _ ⟨⟩⟩

theorem close_fit {v : Resp}
    (hcs : ∀ c ∈ cs, AllFit lim c.done ∧ c.done.length + 1 + c.pending ≤ lim)
    (hv : v.Fits lim) : Fit lim (close cs v) := by
  induction cs generalizing v with
  | nil => exact hv
  | cons c cs ih =>
      obtain ⟨ds, n⟩ := c
      obtain ⟨⟨hds, hlen⟩, hrest⟩ := List.forall_mem_cons.mp hcs
      have hall := allFit_snoc hv hds
      cases n with
      | zero =>
          refine ih hrest ?_
          rw [Resp.Fits]
          exact ⟨by simp, by simpa using hlen, hall⟩
      | succ n =>
          refine ⟨List.forall_mem_cons.mpr ⟨⟨hall, ?_⟩, hrest⟩, by rintro _ _ ⟨⟩⟩
          simp only [List.length_append, List.length_singleton] at hlen ⊢
          omega

theorem endLine_fit {ty : RcType} {t : Bytes}
    (hcs : ∀ c ∈ cs, AllFit lim c.done ∧ c.done.length + 1 + c.pending ≤ lim)
    (h : endLine lim cs ty t = .ok z) : Fit lim z := by
  have hline : ∀ ty text, Fit lim (.reading cs (.line ty text)) := fun ty text =>
    ⟨hcs, by rintro _ _ ⟨⟩⟩
  unfold endLine at h
  split at h
  · cases h
    exact close_fit hcs trivial
  · cases h
    exact close_fit hcs trivial
  · cases h
    exact close_fit hcs trivial
  · split at h
    · cases h
      exact close_fit hcs trivial
    · cases h
      exact hline _ _
  · split at h
    · rename_i i hi
      split at h
      · cases h
        exact close_fit hcs trivial
      · cases h
        refine ⟨hcs, ?_⟩
        rintro _ _ ⟨⟩
        exact ⟨by omega, (atoi_lt hi).2⟩
    · cases h
      exact hline _ _
  · split at h
    · rename_i i hi
      split at h
      · cases h
      · rename_i hlim
        cases h
        cases hn : i.toNat with
        | zero => exact ⟨hcs, by rintro _ _ ⟨⟩⟩
        | succ n =>
            refine ⟨List.forall_mem_cons.mpr ⟨⟨trivial, ?_⟩, hcs⟩, by rintro _ _ ⟨⟩⟩
            simp
            omega
    · cases h
      exact hline _ _

theorem Fit.step {b : UInt8} {z' : Reader} (hfit : Fit lim z)
    (hend : (reader lim).ended z = false) (h : (reader lim).step z b = .ok z') : Fit lim z' := by
  cases z with
  | done v => cases hend
  | rejected => cases hend
  | reading cs f =>
      obtain ⟨hcs, hf⟩ := hfit
      change Reader.step lim _ b = _ at h
      cases f with
      | start =>
          cases h
          exact ⟨hcs, by rintro _ _ ⟨⟩⟩
      | line ty text =>
          rw [Reader.step] at h
          split at h
          · exact endLine_fit hcs h
          · cases h
            exact ⟨hcs, by rintro _ _ ⟨⟩⟩
      | payload n text =>
          obtain ⟨h0, hn⟩ := hf n text rfl
          rw [Reader.step] at h
          split at h
          · rename_i hlen
            split at h
            · cases h
              refine close_fit hcs ?_
              have hreached := goInt_reached h0 hn hlen
              rw [Resp.Fits, List.length_dropLast]
              omega
            · cases h
              trivial
          · cases h
            refine ⟨hcs, ?_⟩
            rintro _ _ ⟨⟩
            exact ⟨h0, hn⟩
      | dead =>
          cases h
          exact ⟨hcs, by rintro _ _ ⟨⟩⟩

/-! ## Complete runs -/

theorem fits_of_runs {v : Resp} (h : (reader lim).Runs fresh w (.done v)) : v.Fits lim :=
  h.inv (I := Fit lim) (fun _ _ _ => Fit.step) (fit_fresh lim)

/-- A text encodes the value read from it exactly if nothing slipped: each step that does
not slip reads a byte of the encoding, and a slip leaves a byte that belongs to none. -/
theorem encodes_iff_eachStep {v : Resp} (h : (reader lim).Runs fresh w (.done v)) :
    Encodes v w ↔ (reader lim).EachStep (fun z b => ¬z.Slips b) fresh w := by
  constructor
  · intro hv
    exact (hv.reads [] (fits_of_runs h)).2
  · intro hclean
    have hread : Reads lim fresh w (.done v) := ⟨h, hclean⟩
    exact hread.inv (I := fun w z => ReadText z w) (fun _ _ _ _ => ReadText.step) readText_fresh

end

end Reader

end Artorias
