import Artorias.Machine
import Artorias.RedisParser

/-!
# A reader of one value

What the parser is for, without its heap: a machine that reads one value of
`Resp`. Its state is the arrays under way, innermost first, and what is being
read inside them. A number line that `Atoi` refuses is read over, an array of
no elements is never left, and a payload length is compared in 64 bits, as in
the parser; `ParserSim` shows the parser simulates it.

`Encodes.runs`: the reader reads the encodings of values that fit.
-/

namespace Artorias

/-- An array under way: the elements it has, and how many come after the one
that is being read. -/
structure Ctx where
  done : List Resp
  pending : Nat
deriving Repr

inductive Focus where
  | start
  | line (ty : RcType) (text : Bytes)
  | payload (len : Int) (text : Bytes)
  | dead
deriving Repr

inductive Reader where
  | reading (cs : List Ctx) (f : Focus)
  | done (v : Resp)
  | rejected
deriving Repr

namespace Reader

def ended : Reader → Bool
  | .reading _ _ => false
  | _ => true

/-- The value ends here, and the arrays that it completes end with it. -/
def close : List Ctx → Resp → Reader
  | [], v => .done v
  | ⟨ds, 0⟩ :: cs, v => close cs (.array (ds ++ [v]))
  | ⟨ds, n + 1⟩ :: cs, v => .reading (⟨ds ++ [v], n⟩ :: cs) .start

def openArray (cs : List Ctx) : Nat → Reader
  | 0 => .reading cs .dead
  | n + 1 => .reading (⟨[], n⟩ :: cs) .start

def lineType (b : UInt8) : RcType :=
  if b = 43 then .status
  else if b = 45 then .error
  else if b = 36 then .bulk
  else if b = 58 then .int
  else if b = 42 then .mulit
  else .unknown

def endLine (lim : Nat) (cs : List Ctx) (ty : RcType) (text : Bytes) : GoRun Reader :=
  match ty with
  | .status => .ok (close cs (.status text))
  | .error => .ok (close cs (.error text))
  | .unknown => .ok (close cs (.unknown text))
  | .int =>
      match atoi text with
      | some i => .ok (close cs (.int i))
      | none => .ok (.reading cs (.line .int []))
  | .bulk =>
      match atoi text with
      | some i =>
          if i < 0 then .ok (close cs (.bulk none)) else .ok (.reading cs (.payload i []))
      | none => .ok (.reading cs (.line .bulk []))
  | .mulit =>
      match atoi text with
      | some i =>
          if i < 0 ∨ i > lim then .error .makeslice else .ok (openArray cs i.toNat)
      | none => .ok (.reading cs (.line .mulit []))

def step (lim : Nat) : Reader → UInt8 → GoRun Reader
  | .reading cs .start, b => .ok (.reading cs (.line (lineType b) []))
  | .reading cs (.line ty text), b =>
      if crlf <:+ text ++ [b] then endLine lim cs ty text.dropLast
      else .ok (.reading cs (.line ty (text ++ [b])))
  | .reading cs (.payload n text), b =>
      if ((text.length + 1 : Nat) : Int) = goInt (n + 2) then
        if crlf <:+ text ++ [b] then .ok (close cs (.bulk (some text.dropLast)))
        else .ok .rejected
      else .ok (.reading cs (.payload n (text ++ [b])))
  | .reading cs .dead, _ => .ok (.reading cs .dead)
  | .done v, _ => .ok (.done v)
  | .rejected, _ => .ok .rejected

end Reader

/-- The machine of the reader; above `lim` an array has too many elements. -/
def reader (lim : Nat) : Machine Reader UInt8 GoPanic := ⟨Reader.step lim, Reader.ended⟩

namespace Reader

/-- The reader of a fresh parser. -/
def fresh : Reader := .reading [] .start

/-! ## Lines and types -/

/-- The type of the frame that begins with the byte. -/
def startsFrame : Reader → UInt8 → Option RcType
  | .reading _ .start, b => some (lineType b)
  | _, _ => none

/-- The line that the byte completes, and the type of its frame. -/
def endsLine : Reader → UInt8 → Option (RcType × Bytes)
  | .reading _ (.line ty text), b =>
      if crlf <:+ text ++ [b] then some (ty, text.dropLast) else none
  | _, _ => none

end Reader

/-- A number is due on a line of the type, and `Atoi` does not read one. -/
def BadNumber (line : RcType × Bytes) : Prop :=
  (line.1 = .int ∨ line.1 = .bulk ∨ line.1 = .mulit) ∧ atoi line.2 = none

/-- The line is the count of an array, and not one that `make` takes. -/
def BadCount (lim : Nat) (line : RcType × Bytes) : Prop :=
  line.1 = .mulit ∧ ∃ i, atoi line.2 = some i ∧ (i < 0 ∨ i > lim)

/-- The line announces no elements, or a payload whose end has no index. -/
def DeadEnd (line : RcType × Bytes) : Prop :=
  line.1 = .mulit ∧ atoi line.2 = some 0 ∨
    line.1 = .bulk ∧ ∃ i, atoi line.2 = some i ∧ 2 ^ 63 - 2 ≤ i

namespace Reader

/-- The byte begins a frame of none of the five types, or completes a line
without the number it should hold. -/
def Slips (z : Reader) (b : UInt8) : Prop :=
  z.startsFrame b = some .unknown ∨ ∃ line, z.endsLine b = some line ∧ BadNumber line

/-- The reader takes all of `bs` from `z` to `z'`, and none of the bytes is a slip. -/
abbrev Reads (lim : Nat) (z : Reader) (bs : Bytes) (z' : Reader) : Prop :=
  (reader lim).RunsBy (fun z b => ¬z.Slips b) z bs z'

/-! ## Closing -/

@[simp] theorem close_nil (v : Resp) : close [] v = .done v := rfl

@[simp] theorem close_last (ds : List Resp) (cs : List Ctx) (v : Resp) :
    close (⟨ds, 0⟩ :: cs) v = close cs (.array (ds ++ [v])) := rfl

@[simp] theorem close_next (ds : List Resp) (n : Nat) (cs : List Ctx) (v : Resp) :
    close (⟨ds, n + 1⟩ :: cs) v = .reading (⟨ds ++ [v], n⟩ :: cs) .start := rfl

/-! ## Reading lines and payloads -/

section

variable {lim : Nat} {cs : List Ctx} {z : Reader} {t : Bytes}

theorem reads_frame {b : UInt8} (hb : lineType b ≠ .unknown)
    (h : Reads lim (.reading cs (.line (lineType b) [])) t z) :
    Reads lim (.reading cs .start) (b :: t) z := by
  refine .cons rfl ?_ rfl h
  rintro (hs | ⟨_, hl, _⟩)
  · exact hb (Option.some.inj hs)
  · cases hl

theorem step_line_of_not {ty : RcType} {text : Bytes} {b : UInt8} (h : ¬crlf <:+ text ++ [b]) :
    (reader lim).step (.reading cs (.line ty text)) b =
      .ok (.reading cs (.line ty (text ++ [b]))) :=
  if_neg h

theorem not_slips_of_not {ty : RcType} {text : Bytes} {b : UInt8} (h : ¬crlf <:+ text ++ [b]) :
    ¬(reading cs (.line ty text)).Slips b := by
  rintro (hs | ⟨_, hl, _⟩)
  · cases hs
  · rw [endsLine, if_neg h] at hl
    cases hl

theorem crlf_suffix (text : Bytes) : crlf <:+ text ++ [13] ++ [10] :=
  ⟨text, by simp [crlf]⟩

theorem step_line_end (ty : RcType) (text : Bytes) :
    (reader lim).step (.reading cs (.line ty (text ++ [13]))) 10 = endLine lim cs ty text := by
  refine (if_pos (crlf_suffix text)).trans ?_
  rw [List.dropLast_concat]

theorem not_slips_line_end {ty : RcType} {text : Bytes} (h : ¬BadNumber (ty, text)) :
    ¬(reading cs (.line ty (text ++ [13]))).Slips 10 := by
  rintro (hs | ⟨_, hl, hbad⟩)
  · cases hs
  · rw [endsLine, if_pos (crlf_suffix text), List.dropLast_concat] at hl
    cases hl
    exact h hbad

theorem reads_line {ty : RcType} {text : Bytes} (hline : NoCrlf (text ++ t))
    (hnum : ¬BadNumber (ty, text ++ t)) (hend : endLine lim cs ty (text ++ t) = .ok z) :
    Reads lim (.reading cs (.line ty text)) (t ++ crlf) z := by
  induction t generalizing text with
  | nil =>
      rw [List.append_nil] at hline hnum hend
      refine .cons rfl (not_slips_of_not hline.cr.suffix) (step_line_of_not hline.cr.suffix) ?_
      exact .cons rfl (not_slips_line_end hnum) ((step_line_end ty text).trans hend) .nil
  | cons b t ih =>
      have hassoc : text ++ b :: t = text ++ [b] ++ t := by simp
      rw [hassoc] at hline hnum hend
      exact .cons rfl (not_slips_of_not hline.left.suffix) (step_line_of_not hline.left.suffix)
        (ih hline hnum hend)

theorem goInt_add_two {n : Int} (h : 0 ≤ n + 2) (h' : n + 2 < 2 ^ 63) : goInt (n + 2) = n + 2 := by
  rw [goInt, Int.bmod_eq_of_le (by omega) (by omega)]

theorem step_payload_of_ne {n : Int} {text : Bytes} {b : UInt8}
    (h : ((text.length + 1 : Nat) : Int) ≠ goInt (n + 2)) :
    (reader lim).step (.reading cs (.payload n text)) b =
      .ok (.reading cs (.payload n (text ++ [b]))) :=
  if_neg h

theorem step_payload_end {n : Int} {text : Bytes}
    (h : ((text.length + 2 : Nat) : Int) = goInt (n + 2)) :
    (reader lim).step (.reading cs (.payload n (text ++ [13]))) 10 =
      .ok (close cs (.bulk (some text))) := by
  refine (if_pos (by rw [List.length_append]; exact h)).trans
    ((if_pos (crlf_suffix text)).trans ?_)
  rw [List.dropLast_concat]

theorem not_slips_payload (n : Int) (text : Bytes) (b : UInt8) :
    ¬(reading cs (.payload n text)).Slips b := by
  rintro (hs | ⟨_, hl, _⟩)
  · cases hs
  · cases hl

theorem reads_payload {n : Int} {text : Bytes} (hlen : ((text ++ t).length : Int) = n)
    (hn : n + 2 < 2 ^ 63) :
    Reads lim (.reading cs (.payload n text)) (t ++ crlf)
      (close cs (.bulk (some (text ++ t)))) := by
  have hgo : goInt (n + 2) = n + 2 := goInt_add_two (by omega) hn
  induction t generalizing text with
  | nil =>
      rw [List.append_nil] at hlen ⊢
      refine .cons rfl (not_slips_payload n text 13) (step_payload_of_ne (by omega)) ?_
      exact .cons rfl (not_slips_payload n (text ++ [13]) 10) (step_payload_end (by omega)) .nil
  | cons b t ih =>
      have hassoc : text ++ b :: t = text ++ [b] ++ t := by simp
      rw [List.length_append, List.length_cons] at hlen
      rw [hassoc]
      refine .cons rfl (not_slips_payload n text b) (step_payload_of_ne (by omega)) (ih ?_)
      simp only [List.length_append, List.length_singleton]
      omega

end

/-! ## Reading encodings -/

theorem openArray_pos (cs : List Ctx) {n : Nat} (h : n ≠ 0) :
    openArray cs n = .reading (⟨[], n - 1⟩ :: cs) .start := by
  obtain ⟨k, rfl⟩ := Nat.exists_eq_succ_of_ne_zero h
  rfl

end Reader

open Reader

mutual

theorem Encodes.reads {lim : Nat} (cs : List Ctx) : ∀ {v : Resp} {bs : Bytes},
    Encodes v bs → v.Fits lim → Reads lim (.reading cs .start) bs (close cs v)
  | .status _, _, .status ht, _ => reads_frame (by decide)
      (reads_line ht (by rintro ⟨h | h | h, -⟩ <;> cases h) rfl)
  | .error _, _, .error ht, _ => reads_frame (by decide)
      (reads_line ht (by rintro ⟨h | h | h, -⟩ <;> cases h) rfl)
  | .int _, _, .int ht, _ => by
      refine reads_frame (by decide) (reads_line (noCrlf_of_atoi ht) ?_ ?_)
      · exact fun h => Option.some_ne_none _ (ht.symm.trans h.2)
      · change endLine _ _ .int _ = _
        rw [endLine, List.nil_append, ht]
  | .bulk none, _, .null ht hneg, _ => by
      refine reads_frame (by decide) (reads_line (noCrlf_of_atoi ht) ?_ ?_)
      · exact fun h => Option.some_ne_none _ (ht.symm.trans h.2)
      · change endLine _ _ .bulk _ = _
        rw [endLine, List.nil_append, ht]
        exact if_pos hneg
  | .bulk (some p), _, .bulk (t := t) ht, hfits => by
      rw [Resp.Fits] at hfits
      have hline : Reads lim (.reading cs (.line .bulk [])) (t ++ crlf)
          (.reading cs (.payload p.length [])) := by
        refine reads_line (noCrlf_of_atoi ht) ?_ ?_
        · exact fun h => Option.some_ne_none _ (ht.symm.trans h.2)
        · rw [endLine, List.nil_append, ht]
          exact if_neg (by omega)
      exact reads_frame (by decide) (hline.append (reads_payload rfl (by omega)))
  | .array vs, _, .array (t := t) ht hvs, hfits => by
      rw [Resp.Fits] at hfits
      obtain ⟨hne, hlim, hall⟩ := hfits
      have hline : Reads lim (.reading cs (.line .mulit [])) (t ++ crlf)
          (.reading (⟨[], vs.length - 1⟩ :: cs) .start) := by
        refine reads_line (noCrlf_of_atoi ht) ?_ ?_
        · exact fun h => Option.some_ne_none _ (ht.symm.trans h.2)
        · rw [endLine, List.nil_append, ht]
          refine (if_neg (by omega)).trans ?_
          rw [Int.toNat_natCast, openArray_pos cs (by simpa using hne)]
      exact reads_frame (by decide) (hline.append (hvs.reads cs [] hne hall))

/-- The rest of an array, after the elements `ds`: an encoding of what is to come is read to
the end of the array, without a slip. -/
theorem EncodesAll.reads {lim : Nat} (cs : List Ctx) (ds : List Resp) :
    ∀ {vs : List Resp} {bs : Bytes}, EncodesAll vs bs → vs ≠ [] → AllFit lim vs →
      Reads lim (.reading (⟨ds, vs.length - 1⟩ :: cs) .start) bs (close cs (.array (ds ++ vs)))
  | [], _, _, hne, _ => absurd rfl hne
  | [v], _, .cons hv .nil, _, hfits => by
      rw [List.append_nil]
      exact hv.reads _ hfits.1
  | v :: w :: vs, _, .cons hv hvs, _, hfits => by
      have hrest := hvs.reads cs (ds ++ [v]) (by simp) hfits.2
      rw [List.append_assoc] at hrest
      exact (hv.reads _ hfits.1).append hrest

end

end Artorias
