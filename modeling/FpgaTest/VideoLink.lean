import FpgaTest.ChannelBond
import FpgaTest.TmdsDecoder

/-!
# From the video output to the video input

The wiring of `rgb2dvi.vhd` around three encoders and of `dvi2rgb.vhd` around three
decoders. In between a channel delivers the characters of its encoder with a delay of
its own, which is what serialising, the cable and the alignment to the boundaries of
characters amount to.
-/
namespace FpgaTest.VideoLink
open ClockedMachine ChannelBond TmdsDecoder TmdsEncoder

structure Video where
  vidPData : BitVec 24
  vidPVDE : Bool
  vidPHSync : Bool
  vidPVSync : Bool
  deriving DecidableEq, Repr

/-- What `rgb2dvi` gives the encoder of a channel. -/
def encoderInput (v : Video) : Fin 3 → TmdsEncoder.Input
  | 0 => ⟨v.vidPData.extractLsb' 8 8,v.vidPHSync,v.vidPVSync,v.vidPVDE⟩
  | 1 => ⟨v.vidPData.extractLsb' 0 8,false,false,v.vidPVDE⟩
  | 2 => ⟨v.vidPData.extractLsb' 16 8,false,false,v.vidPVDE⟩

/-- What `dvi2rgb` makes of the outputs of its decoders. -/
def videoOutput (o : Fin 3 → Out) : Video :=
  ⟨(o ch2).pDataIn ++ (o ch0).pDataIn ++ (o ch1).pDataIn,(o ch0).pVde,(o ch0).pC0,(o ch0).pC1⟩

structure Receiver where
  bond : Fin 3 → ChannelBond.State
  out : Fin 3 → Out

def receive (s : Receiver) (i : Lanes) : Receiver where
  bond := bondStep s.bond i
  out ch := decode (s.out ch) (allRdy (s.bond ch) (laneInput s.bond i ch)) (s.bond ch).pDataFIFO

def video (s : Receiver) : Video := videoOutput s.out

/-- Pixels pass with the sync outputs left as they are; outside the active video the
sync signals pass with a blank pixel. -/
def shown (before v : Video) : Video :=
  if v.vidPVDE = true then { v with vidPHSync := before.vidPHSync, vidPVSync := before.vidPVSync }
  else { v with vidPData := 0 }

theorem data_joined (x : BitVec 24) :
    (x.extractLsb' 16 8 ++ x.extractLsb' 8 8 ++ x.extractLsb' 0 8 : BitVec 24) = x := by
  apply BitVec.eq_of_getLsbD_eq
  intro i hi
  simp only [BitVec.getLsbD_append,BitVec.getLsbD_extractLsb']
  split_ifs with hlow hmid
  · simp [hlow]
  · have hback : 8 + (i - 8) = i := by omega
    rw [decide_eq_true (show i - 8 < 8 by omega),Bool.true_and,hback]
  · have hback : 16 + (i - 8 - 8) = i := by omega
    rw [decide_eq_true (show i - 8 - 8 < 8 by omega),Bool.true_and,hback]

theorem encoderInput_pVde (v : Video) (ch : Fin 3) : (encoderInput v ch).pVde = v.vidPVDE := by
  fin_cases ch <;> rfl

theorem videoOutput_decoded (o : Fin 3 → Out) (v : Video) :
    videoOutput (fun ch => if (encoderInput v ch).pVde = true then
        ⟨(encoderInput v ch).pDataOut,(o ch).pC0,(o ch).pC1,true⟩
      else ⟨0,(encoderInput v ch).pC0,(encoderInput v ch).pC1,false⟩) =
      shown (videoOutput o) v := by
  simp only [encoderInput_pVde,shown]
  cases hv : v.vidPVDE with
  | true =>
      simp only [if_true,videoOutput,encoderInput,ch0,ch1,ch2]
      rw [data_joined]
  | false =>
      simp only [Bool.false_eq_true,if_false,videoOutput,encoderInput]
      rfl

section Link

/-- The characters of a channel: those of its encoder, `lead` edges ahead. -/
def character (e : Fin 3 → TmdsEncoder.State) (vid : ℕ → Video) (ch : Fin 3) (n : ℕ) : BitVec 10 :=
  (run TmdsEncoder.step (e ch) (fun n => encoderInput (vid n) ch) (n+3)).pDataOutRaw

def lanes (e : Fin 3 → TmdsEncoder.State) (vid : ℕ → Video) (lead : Fin 3 → ℕ)
    (vld : ℕ → Fin 3 → Bool) (n : ℕ) : Lanes :=
  ⟨fun ch => character e vid ch (n + lead ch),vld n⟩

variable {e : Fin 3 → TmdsEncoder.State} {vid : ℕ → Video} {lead : Fin 3 → ℕ}
  {vld : ℕ → Fin 3 → Bool} {m b : ℕ}

/-- The first fall of `vidPVDE` that a channel sees is that of source edge `b`, for every
channel, and the channels are at most 29 characters apart. -/
structure FirstFall (vid : ℕ → Video) (lead : Fin 3 → ℕ) (m b : ℕ) : Prop where
  seen : ∀ ch, m+4+lead ch < b
  active : (vid (b-1)).vidPVDE = true
  blank : (vid b).vidPVDE = false
  first : ∀ ch, ∀ n < b, m+4+lead ch < n → (vid (n-1)).vidPVDE = true → (vid n).vidPVDE = true
  skew : ∀ ch ch', lead ch ≤ lead ch' + 29

/-- Where a channel sees the blanking period begin. -/
def markers (lead : Fin 3 → ℕ) (m b : ℕ) (ch : Fin 3) : ℕ := b - (m+4+lead ch)

theorem isToken_character (e : Fin 3 → TmdsEncoder.State) (vid : ℕ → Video) (ch : Fin 3) (n : ℕ) :
    isToken (character e vid ch n) = !(vid n).vidPVDE := by
  rw [character,run_output,isToken_qOut,encoderInput_pVde]

theorem laneWords_lanes (e : Fin 3 → TmdsEncoder.State) (vid : ℕ → Video) (lead : Fin 3 → ℕ)
    (vld : ℕ → Fin 3 → Bool) (m n : ℕ) (ch : Fin 3) :
    laneWords (lanes e vid lead vld) m ch n = character e vid ch (m+4+n+lead ch) := rfl

theorem FirstFall.markers_add (h : FirstFall vid lead m b) (ch : Fin 3) :
    m+4+markers lead m b ch+lead ch = b := by
  have hseen := h.seen ch
  unfold markers
  omega

theorem FirstFall.marker (h : FirstFall vid lead m b) (ch : Fin 3) :
    Marker (laneWords (lanes e vid lead vld) m ch) (markers lead m b ch) := by
  have hseen := h.seen ch
  have hedge := h.markers_add ch
  have hactive : ∀ n, isToken (laneWords (lanes e vid lead vld) m ch n) = false ↔
      (vid (m+4+n+lead ch)).vidPVDE = true := by
    intro n
    rw [laneWords_lanes,isToken_character]
    exact iff_of_eq (Bool.not_eq_false' _)
  refine ⟨by omega,?_,?_,fun n hn hlt => ?_⟩
  · rw [hactive,show m+4+(markers lead m b ch-1)+lead ch = b-1 by omega]
    exact h.active
  · rw [laneWords_lanes,isToken_character,hedge,h.blank]
    rfl
  · rw [hactive,hactive,show m+4+(n-1)+lead ch = m+4+n+lead ch-1 by omega]
    exact h.first ch _ (by omega) (by omega)

theorem run_bond (s : Receiver) (input : ℕ → Lanes) (n : ℕ) :
    (run receive s input n).bond = run bondStep s.bond input n :=
  run_proj Receiver.bond (fun _ _ => rfl) s input n

end Link

/-- The video arrives as it was sent: from the fourth edge of the blanking period on, in
which the channels were bonded, the receiver shows one source edge after the other, all
three channels of the same one. -/
theorem video_link (e : Fin 3 → TmdsEncoder.State) (s : Receiver) (vid : ℕ → Video)
    (lead : Fin 3 → ℕ) (vld : ℕ → Fin 3 → Bool) (m b : ℕ)
    (hvld : Starts (lanes e vid lead vld) m) (h : FirstFall vid lead m b) (j : ℕ) :
    let edge := m+4+latest (markers lead m b)+8+j
    video (run receive s (lanes e vid lead vld) (edge+1)) =
      shown (video (run receive s (lanes e vid lead vld) edge)) (vid (b+4+j)) := by
  intro edge
  have hmark : ∀ ch, Marker (laneWords (lanes e vid lead vld) m ch) (markers lead m b ch) :=
    fun ch => h.marker ch
  have hready : ∀ ch, allRdy ((run receive s (lanes e vid lead vld) edge).bond ch)
      (laneInput (run receive s (lanes e vid lead vld) edge).bond
        (lanes e vid lead vld edge) ch) = true := by
    intro ch
    have hbond := bonded_ready s.bond hvld hmark (latest (markers lead m b)+8+j)
    have hedge : m+4+(latest (markers lead m b)+8+j) = edge := by omega
    rw [hedge] at hbond
    rw [laneInput_allRdy,run_bond,hbond]
    exact decide_eq_true (by omega)
  have hword : ∀ ch, ((run receive s (lanes e vid lead vld) edge).bond ch).pDataFIFO =
      character e vid ch (b+4+j) := by
    intro ch
    have hedge := h.markers_add ch
    have hskew : latest (markers lead m b) ≤ markers lead m b ch + 29 := by
      have h0 := h.skew ch 0
      have h1 := h.skew ch 1
      have h2 := h.skew ch 2
      unfold latest markers
      unfold markers at hedge
      omega
    have hbond := bonded_word s.bond hvld hmark j hskew
    have hsource : m+4+(markers lead m b ch+4+j)+lead ch = b+4+j := by omega
    rw [run_bond,hbond,laneWords_lanes,hsource]
  rw [run_succ]
  refine Eq.trans ?_ (videoOutput_decoded
    (run receive s (lanes e vid lead vld) edge).out (vid (b+4+j)))
  rw [video]
  congr 1
  funext ch
  simp only [receive]
  rw [hready,hword,character,run_output]
  exact decode_qOut _ _ _

/-- The channels start in a blanking period. White from edge 10 to edge 19, then a blanking
period with a horizontal sync. -/
def firstLine (n : ℕ) : Video := ⟨0xffffff,decide (10 ≤ n ∧ n < 20),decide (20 ≤ n),false⟩

def encoders : Fin 3 → TmdsEncoder.State :=
  fun _ => ⟨⟨true,9,0,false,true⟩,⟨3,3,5,true,false,true⟩,0,0⟩

def receiver : Receiver := ⟨fun _ => unknown,fun _ => ⟨0,false,false,false⟩⟩

theorem video_link_firstLine : ∃ before,
    video (run receive receiver
      (lanes encoders firstLine (fun ch => ch) fun n _ => decide (4 ≤ n)) 29) =
      shown before ⟨0xffffff,false,true,false⟩ := by
  have hvld : Starts (lanes encoders firstLine (fun ch => ch) fun n _ => decide (4 ≤ n)) 0 := by
    constructor
    · decide
    · intro n hn
      simp only [Lanes.allVld,lanes,decide_eq_true (show 4 ≤ n by omega),Bool.and_self]
  have hfall : FirstFall firstLine (fun ch => ch) 0 20 :=
    ⟨by decide,by decide,by decide,by decide,by decide⟩
  exact ⟨_,video_link encoders receiver firstLine (fun ch => ch) _ 0 20 hvld hfall 0⟩

end FpgaTest.VideoLink
