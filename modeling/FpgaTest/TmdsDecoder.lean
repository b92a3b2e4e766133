import FpgaTest.TmdsEncoder

/-!
# The TMDS decoder

The decoding process of `TMDS_Decoder.vhd`, behind the channel bonding: control
tokens give the two control bits, every other character a pixel. Decoding a
character of the encoder gives back what it was made from, whatever the count of
the encoder was. The two control bits are not assigned for a pixel and keep
their values.
-/
namespace FpgaTest.TmdsDecoder
open BitCounts ClockedMachine TmdsEncoder

structure Out where
  pDataIn : BitVec 8
  pC0 : Bool
  pC1 : Bool
  pVde : Bool
  deriving DecidableEq, Repr

def pDataIn8b (bnd : BitVec 10) : BitVec 8 :=
  if bnd.getLsbD 9 = false then bnd.setWidth 8 else ~~~bnd.setWidth 8

/-- Bit of the pixel for a character that is no token. -/
def pixelBit (bnd : BitVec 10) : ℕ → Bool
  | 0 => (pDataIn8b bnd).getLsbD 0
  | i+1 =>
      if bnd.getLsbD 8 = true then (pDataIn8b bnd).getLsbD (i+1) ^^ (pDataIn8b bnd).getLsbD i
      else !((pDataIn8b bnd).getLsbD (i+1) ^^ (pDataIn8b bnd).getLsbD i)

/-- The process `TMDS_Decode`; `ready` is that of all three channels. -/
def decode (o : Out) (ready : Bool) (bnd : BitVec 10) : Out :=
  if ready = true then
    if bnd = kCtlTkn0 then ⟨0,false,false,false⟩
    else if bnd = kCtlTkn1 then ⟨0,true,false,false⟩
    else if bnd = kCtlTkn2 then ⟨0,false,true,false⟩
    else if bnd = kCtlTkn3 then ⟨0,true,true,false⟩
    else ⟨ofFn (pixelBit bnd) 8,o.pC0,o.pC1,true⟩
  else ⟨0,false,false,false⟩

/-- Bit 9 of a pixel's character tells whether the word was inverted. -/
theorem qOut_pixel {s : Stage2} (h : s.pVde = true) (c : BitVec 5) : ∃ inverted : Bool,
    qOut s c = BitVec.cons inverted (BitVec.cons (s.qm.getLsbD 8)
      (if inverted then ~~~low s.qm else low s.qm)) := by
  simp only [qOut,h,Bool.true_eq_false,if_false]
  split_ifs with hdown hup hnot
  · exact ⟨true,by rw [hdown.2]; rfl⟩
  · exact ⟨false,by rw [hup.2]; rfl⟩
  · exact ⟨true,rfl⟩
  · exact ⟨false,rfl⟩

theorem pDataIn8b_cons (inverted q8 : Bool) (u : BitVec 8) :
    pDataIn8b (BitVec.cons inverted (BitVec.cons q8 (if inverted then ~~~u else u))) = u := by
  have hlow : ∀ v : BitVec 8, (BitVec.cons inverted (BitVec.cons q8 v)).setWidth 8 = v := by
    intro v
    apply BitVec.eq_of_getLsbD_eq
    intro i hi
    rw [BitVec.getLsbD_setWidth,BitVec.getLsbD_cons,if_neg (by omega),BitVec.getLsbD_cons,
      if_neg (by omega),decide_eq_true hi,Bool.true_and]
  have htop : ∀ v : BitVec 9, (BitVec.cons inverted v).getLsbD 9 = inverted := by
    intro v
    rw [BitVec.getLsbD_cons,if_pos rfl]
  rw [pDataIn8b,htop,hlow]
  cases inverted
  · rfl
  · rw [if_neg Bool.noConfusion,if_pos rfl,BitVec.not_not]

theorem low_qm (s : Stage1) : low (qm s) =
    ofFn (chain (fun x y => if (qm s).getLsbD 8 = true then x ^^ y else !(x ^^ y)) s.pDataOut)
      8 := by
  by_cases hmany : 4 < s.n1d ∨ (s.n1d = 4 ∧ s.pDataOut.getLsbD 0 = false)
  · have hqm : qm s = qmXnor s.pDataOut := if_pos hmany
    simp only [hqm,qmXnor,low_cons,getLsbD_eight,Bool.false_eq_true,if_false]
  · have hqm : qm s = qmXor s.pDataOut := if_neg hmany
    simp only [hqm,qmXor,low_cons,getLsbD_eight,if_true]

theorem pixelBit_qOut {i : Input} (h : i.pVde = true) (c : BitVec 5) {k : ℕ} (hk : k < 8) :
    pixelBit (qOut (prepared i) c) k = i.pDataOut.getLsbD k := by
  rcases qOut_pixel (s := prepared i) h c with ⟨inverted,hout⟩
  have hword := pDataIn8b_cons inverted ((prepared i).qm.getLsbD 8) (low (prepared i).qm)
  rw [← hout,prepared_qm,low_qm] at hword
  have height : (qOut (prepared i) c).getLsbD 8 = (qm (.of i)).getLsbD 8 := by
    rw [hout,BitVec.getLsbD_cons,if_neg (by decide),BitVec.getLsbD_cons,if_pos rfl,prepared_qm]
  cases k with
  | zero =>
      rw [pixelBit,hword,getLsbD_ofFn _ hk]
      rfl
  | succ k =>
      rw [pixelBit,hword,height,getLsbD_ofFn _ hk,getLsbD_ofFn _ (by omega)]
      simp only [chain]
      generalize chain _ (Stage1.of i).pDataOut k = before
      cases (qm (.of i)).getLsbD 8 <;> cases before <;> simp [Stage1.of]

/-- Decoding a character of the encoder. -/
theorem decode_qOut (o : Out) (i : Input) (c : BitVec 5) :
    decode o true (qOut (prepared i) c) =
      if i.pVde = true then ⟨i.pDataOut,o.pC0,o.pC1,true⟩ else ⟨0,i.pC0,i.pC1,false⟩ := by
  have htoken := isToken_qOut i c
  cases h : i.pVde with
  | false =>
      rw [qOut_control h,if_neg Bool.false_ne_true]
      cases i.pC0 <;> cases i.pC1 <;> rfl
  | true =>
      rw [h,isToken,Bool.not_true,decide_eq_false_iff_not,not_or,not_or,not_or] at htoken
      obtain ⟨h0,h1,h2,h3⟩ := htoken
      rw [decode,if_pos rfl,if_neg h0,if_neg h1,if_neg h2,if_neg h3,if_pos rfl,Out.mk.injEq]
      refine ⟨?_,rfl,rfl,rfl⟩
      apply BitVec.eq_of_getLsbD_eq
      intro k hk
      rw [getLsbD_ofFn _ hk,pixelBit_qOut h c hk]

/-- Three edges after an input the character of an encoder decodes to it: to the
pixel in active video and to the control bits else. -/
theorem decode_run (s : State) (input : ℕ → Input) (n : ℕ) (o : Out) :
    decode o true (run step s input (n+3)).pDataOutRaw =
      if (input n).pVde = true then ⟨(input n).pDataOut,o.pC0,o.pC1,true⟩
      else ⟨0,(input n).pC0,(input n).pC1,false⟩ := by
  rw [run_output]
  exact decode_qOut o (input n) _

end FpgaTest.TmdsDecoder
