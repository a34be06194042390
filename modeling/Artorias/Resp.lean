import Artorias.Strconv

/-!
# RESP

The value trees of the Redis serialisation protocol and their encodings.
`Resp.encode` is the canonical one; `Encodes v bs` admits every text that
`Atoi` reads as the right number, and any negative length for the null bulk.
-/

namespace Artorias

/-- A reader can keep the line of a frame whose type byte is none of the five,
but nothing more (`unknown`); it is not a value of the protocol. -/
inductive Resp where
  | status (text : Bytes)
  | error (text : Bytes)
  | int (i : Int)
  | bulk (payload : Option Bytes)
  | array (items : List Resp)
  | unknown (text : Bytes)
deriving Repr

def crlf : Bytes := [13, 10]

/-- A line can hold the text: no CR LF in it. -/
def NoCrlf (t : Bytes) : Prop := ¬crlf <:+: t

/-! ## Encoding -/

mutual

def Resp.encode : Resp → Bytes
  | .status t => 43 :: (t ++ crlf)
  | .error t => 45 :: (t ++ crlf)
  | .int i => 58 :: (intText i ++ crlf)
  | .bulk none => 36 :: (intText (-1) ++ crlf)
  | .bulk (some p) => 36 :: (natText p.length ++ crlf ++ (p ++ crlf))
  | .array vs => 42 :: (natText vs.length ++ crlf ++ encodeAll vs)
  | .unknown t => t ++ crlf

def encodeAll : List Resp → Bytes
  | [] => []
  | v :: vs => v.encode ++ encodeAll vs

end

mutual

inductive Encodes : Resp → Bytes → Prop where
  | status {t : Bytes} : NoCrlf t → Encodes (.status t) (43 :: (t ++ crlf))
  | error {t : Bytes} : NoCrlf t → Encodes (.error t) (45 :: (t ++ crlf))
  | int {t : Bytes} {i : Int} : atoi t = some i → Encodes (.int i) (58 :: (t ++ crlf))
  | null {t : Bytes} {i : Int} : atoi t = some i → i < 0 →
      Encodes (.bulk none) (36 :: (t ++ crlf))
  | bulk {t p : Bytes} : atoi t = some (p.length : Int) →
      Encodes (.bulk (some p)) (36 :: (t ++ crlf ++ (p ++ crlf)))
  | array {t : Bytes} {vs : List Resp} {bs : Bytes} : atoi t = some (vs.length : Int) →
      EncodesAll vs bs → Encodes (.array vs) (42 :: (t ++ crlf ++ bs))

inductive EncodesAll : List Resp → Bytes → Prop where
  | nil : EncodesAll [] []
  | cons {v : Resp} {vs : List Resp} {b bs : Bytes} : Encodes v b → EncodesAll vs bs →
      EncodesAll (v :: vs) (b ++ bs)

end

/-! ## What can be sent -/

mutual

/-- What a client can send so that it is read back: every array has an element, and no more
than `lim`; texts fit in a line, integers in 64 bits, and lengths stay below 2^62. -/
def Resp.Sendable (lim : Nat) : Resp → Prop
  | .status t => NoCrlf t
  | .error t => NoCrlf t
  | .int i => -2 ^ 63 ≤ i ∧ i < 2 ^ 63
  | .bulk none => True
  | .bulk (some p) => p.length < 2 ^ 62
  | .array vs => vs ≠ [] ∧ vs.length ≤ lim ∧ vs.length < 2 ^ 62 ∧ AllSendable lim vs
  | .unknown _ => False

def AllSendable (lim : Nat) : List Resp → Prop
  | [] => True
  | v :: vs => v.Sendable lim ∧ AllSendable lim vs

end

mutual

/-- What can be read back: the sizes alone. -/
def Resp.Fits (lim : Nat) : Resp → Prop
  | .bulk (some p) => p.length + 2 < 2 ^ 63
  | .array vs => vs ≠ [] ∧ vs.length ≤ lim ∧ AllFit lim vs
  | _ => True

def AllFit (lim : Nat) : List Resp → Prop
  | [] => True
  | v :: vs => v.Fits lim ∧ AllFit lim vs

end

mutual

theorem Resp.Sendable.fits {lim : Nat} : ∀ {v : Resp}, v.Sendable lim → v.Fits lim
  | .status _, _ => trivial
  | .error _, _ => trivial
  | .int _, _ => trivial
  | .bulk none, _ => trivial
  | .bulk (some _), h => by
      rw [Resp.Sendable] at h
      rw [Resp.Fits]
      omega
  | .array _, h => by
      rw [Resp.Sendable] at h
      rw [Resp.Fits]
      exact ⟨h.1, h.2.1, AllSendable.fit h.2.2.2⟩

theorem AllSendable.fit {lim : Nat} : ∀ {vs : List Resp}, AllSendable lim vs → AllFit lim vs
  | [], _ => trivial
  | _ :: _, h => ⟨h.1.fits, AllSendable.fit h.2⟩

end

mutual

theorem Resp.encode_encodes {lim : Nat} : ∀ {v : Resp}, v.Sendable lim → Encodes v v.encode
  | .status _, h => .status h
  | .error _, h => .error h
  | .int _, h => .int (atoi_intText h)
  | .bulk none, _ => .null (i := -1) (atoi_intText (by decide)) (by decide)
  | .bulk (some _), h => .bulk (atoi_natText (by rw [Resp.Sendable] at h; omega))
  | .array _, h => by
      rw [Resp.Sendable] at h
      exact .array (atoi_natText (by omega)) (encodeAll_encodes h.2.2.2)

theorem encodeAll_encodes {lim : Nat} : ∀ {vs : List Resp}, AllSendable lim vs →
    EncodesAll vs (encodeAll vs)
  | [], _ => .nil
  | _ :: _, h => .cons (Resp.encode_encodes h.1) (encodeAll_encodes h.2)

end

/-! ## Lines -/

theorem noCrlf_nil : NoCrlf [] := by simp [NoCrlf, crlf]

theorem NoCrlf.snoc {t : Bytes} {b : UInt8} (h : NoCrlf t) (hend : ¬crlf <:+ t ++ [b]) :
    NoCrlf (t ++ [b]) := by
  rw [NoCrlf, List.infix_concat_iff, not_or]
  exact ⟨hend, h⟩

theorem NoCrlf.suffix {t : Bytes} (h : NoCrlf t) : ¬crlf <:+ t := fun hs => h hs.isInfix

theorem NoCrlf.left {t u : Bytes} (h : NoCrlf (t ++ u)) : NoCrlf t := fun hi =>
  h (hi.trans (List.prefix_append t u).isInfix)

theorem NoCrlf.cr {t : Bytes} (h : NoCrlf t) : NoCrlf (t ++ [13]) := by
  refine h.snoc fun hs => ?_
  have hlast := hs.getLast (by simp [crlf])
  simp [crlf] at hlast

theorem noCrlf_of_atoi {t : Bytes} {i : Int} (h : atoi t = some i) : NoCrlf t := by
  intro hi
  have hcr : (13 : UInt8) ∈ t := hi.subset (by simp [crlf])
  rcases atoi_bytes h 13 hcr with h | h | h <;> exact absurd h (by decide)

end Artorias
