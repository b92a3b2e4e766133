import FpgaTest.CString
import FpgaTest.Font8x8
import FpgaTest.Painting

/-!
# Text on the HDMI test picture

The drawing functions of `helloworld.c` on the frame buffer of 1280 by 720
pixels of three bytes. A store outside the buffer, a character outside the font
and a string without its NUL have no result.

Coordinates are integers without a bound. Whatever is drawn inside the picture
stays far below the range of `int`.
-/
namespace FpgaTest.HdmiText
open CString Font8x8 Painting

/-- WIDTH -/
def width : ℕ := 1280

/-- HEIGHT -/
def height : ℕ := 720

def frameSize : ℕ := width*height*3

abbrev Frame := Fin frameSize → Byte

/-- `frame[idx] = value` -/
def storeByte (idx : ℤ) (value : Byte) (frame : Frame) : Option Frame :=
  if h : 0 ≤ idx ∧ idx.toNat < frameSize then some (Function.update frame ⟨idx.toNat,h.2⟩ value)
  else none

def putPixel (x y : ℤ) (r g b : Byte) (frame : Frame) : Option Frame :=
  let idx := (y*width + x)*3
  (storeByte (idx + 0) r frame).bind fun frame =>
    (storeByte (idx + 1) g frame).bind fun frame => storeByte (idx + 2) b frame

def fillRect (x y w h : ℤ) (r g b : Byte) : Frame → Option Frame :=
  forEach (List.range h.toNat) fun yy =>
    forEach (List.range w.toNat) fun xx => putPixel (x + xx) (y + yy) r g b

/-- `font8x8_basic[(int)c][row]` -/
def fontRow (c : Byte) (row : ℕ) : Option Byte :=
  (font8x8Basic[c.toNat]?).bind fun rows => rows[row]?

def drawCharScaled (startX startY : ℤ) (c : Byte) (scale : ℤ) : Frame → Option Frame :=
  forEach (List.range 8) fun row frame =>
    (fontRow c row).bind fun bits =>
      forEach (List.range 8) (fun col frame =>
        if bits.toNat &&& 1 <<< col ≠ 0 then
          fillRect (startX + col*scale) (startY + row*scale) scale scale 255 255 255 frame
        else some frame) frame

/-- The walk along the string; `x` moves on by a character cell at a time. -/
def drawStringScaled (x y : ℤ) : List Byte → ℤ → Frame → Option Frame
  | [], _, _ => none
  | c::str, scale, frame =>
      if c ≠ 0#8 then
        (drawCharScaled x y c scale frame).bind (drawStringScaled (x + 8*scale) y str scale)
      else some frame

def fillFrame (frame : Frame) : Option Frame :=
  (forEach (List.range (width*height*3)) (fun i => storeByte i 0) frame).bind fun frame =>
    (drawStringScaled 100 100 (literal "SCWOOK") 1 frame).bind fun frame =>
      (drawStringScaled 200 200 (literal "Hello") 2 frame).bind fun frame =>
        drawStringScaled 300 300 (literal "FPGA") 4 frame

/-- The pixel at (px, py) of the picture belongs to a set bit of a character cell. -/
def Lit (x y : ℤ) (str : List Byte) (scale px py : ℤ) : Prop :=
  ∃ (i : ℕ) (h : i < str.length),
    (0 ≤ px - x - 8*scale*i ∧ px - x - 8*scale*i < 8*scale) ∧ (0 ≤ py - y ∧ py - y < 8*scale) ∧
      ∃ bits, fontRow str[i] ((py - y)/scale).toNat = some bits ∧
        bits.getLsbD ((px - x - 8*scale*i)/scale).toNat = true

/-- Column and row of the pixel that a byte belongs to. -/
def px (a : Fin frameSize) : ℤ := (a.val/3 % width : ℕ)

def py (a : Fin frameSize) : ℤ := (a.val/3/width : ℕ)

/-- The byte of a colour that belongs to an address. -/
def colour (r g b : Byte) (a : Fin frameSize) : Byte :=
  if a.val % 3 = 0 then r else if a.val % 3 = 1 then g else b

theorem width_eq : width = 1280 := rfl

theorem height_eq : height = 720 := rfl

theorem frameSize_eq : frameSize = 2764800 := rfl

theorem paints_storeByte (idx : ℕ) {value : Byte} (c : Fin frameSize → Byte) (h : idx < frameSize)
    (hc : c ⟨idx,h⟩ = value) :
    Paints c (storeByte (idx : ℤ) value) fun a => a.val = idx := by
  intro frame
  refine ⟨Function.update frame ⟨idx,h⟩ value,dif_pos ⟨Int.natCast_nonneg idx,h⟩,?_⟩
  intro a
  constructor
  · intro ha
    obtain rfl : a = ⟨idx,h⟩ := Fin.ext ha
    rw [Function.update_self,hc]
  · intro ha
    exact Function.update_of_ne (fun he => ha (congrArg Fin.val he)) _ _

theorem paints_putPixel {x y : ℤ} (r g b : Byte) (hx : 0 ≤ x) (hx' : x < width) (hy : 0 ≤ y)
    (hy' : y < height) :
    Paints (colour r g b) (putPixel x y r g b) fun a => px a = x ∧ py a = y := by
  lift x to ℕ using hx
  lift y to ℕ using hy
  have hw := width_eq
  have hh := height_eq
  have hsize := frameSize_eq
  have hidx : ∀ k : ℕ, ((y : ℤ)*width + x)*3 + k = ((y*width + x)*3 + k : ℕ) := by
    intro k
    push_cast
    rfl
  have hlt : (y*width + x)*3 + 2 < frameSize := by
    rw [hw,hsize]
    omega
  have hcolour : ∀ (k : ℕ) (hk : (y*width + x)*3 + k < frameSize), k < 3 →
      colour r g b ⟨(y*width + x)*3 + k,hk⟩ = if k = 0 then r else if k = 1 then g else b := by
    intro k hk hk3
    have hmod : ((y*width + x)*3 + k) % 3 = k := by omega
    simp only [colour,hmod]
  have h0 := paints_storeByte ((y*width + x)*3 + 0) (colour r g b) (by omega)
    (hcolour 0 (by omega) (by decide))
  have h1 := paints_storeByte ((y*width + x)*3 + 1) (colour r g b) (by omega)
    (hcolour 1 (by omega) (by decide))
  have h2 := paints_storeByte ((y*width + x)*3 + 2) (colour r g b) (by omega)
    (hcolour 2 (by omega) (by decide))
  rw [← hidx] at h0 h1 h2
  apply (h0.seq (h1.seq h2)).congr
  intro a
  simp only [px,py,hw,Nat.cast_inj]
  omega

theorem paints_fillRect {x y w h : ℤ} (r g b : Byte) (hx : 0 ≤ x) (hx' : x + w ≤ width)
    (hy : 0 ≤ y) (hy' : y + h ≤ height) :
    Paints (colour r g b) (fillRect x y w h r g b) fun a =>
      (x ≤ px a ∧ px a < x + w) ∧ y ≤ py a ∧ py a < y + h := by
  have hpixels : Paints (colour r g b) (fillRect x y w h r g b) fun a =>
      ∃ yy ∈ List.range h.toNat, ∃ xx ∈ List.range w.toNat, px a = x + xx ∧ py a = y + yy := by
    apply paints_forEach
    intro yy hyy
    apply paints_forEach
    intro xx hxx
    rw [List.mem_range] at hyy hxx
    exact paints_putPixel r g b (by omega) (by omega) (by omega) (by omega)
  apply hpixels.congr
  intro a
  constructor
  · rintro ⟨yy,hyy,xx,hxx,hpx,hpy⟩
    rw [List.mem_range] at hyy hxx
    omega
  · intro ha
    refine ⟨(py a - y).toNat,List.mem_range.mpr ?_,(px a - x).toNat,List.mem_range.mpr ?_,?_,?_⟩ <;>
      omega

theorem cell_iff {p x scale : ℤ} (hs : 1 ≤ scale) (k : ℤ) :
    (x + k*scale ≤ p ∧ p < x + k*scale + scale) ↔ (p - x)/scale = k := by
  have hdiv : (p - x)/scale = k ↔ k ≤ (p - x)/scale ∧ (p - x)/scale < k+1 := by omega
  rw [hdiv,Int.le_ediv_iff_mul_le (by omega),Int.ediv_lt_iff_lt_mul (by omega),Int.add_mul]
  omega

theorem cell_range {p x scale : ℤ} (hs : 1 ≤ scale) :
    (0 ≤ p - x ∧ p - x < 8*scale) ↔ ∃ k < 8, (p - x)/scale = (k : ℕ) := by
  constructor
  · rintro ⟨hlo,hhi⟩
    have h0 := Int.ediv_nonneg hlo (show 0 ≤ scale by omega)
    have h8 := Int.ediv_lt_of_lt_mul (show 0 < scale by omega) hhi
    exact ⟨((p - x)/scale).toNat,by omega,by omega⟩
  · rintro ⟨k,hk,hdiv⟩
    have hcell := (cell_iff hs (k : ℤ)).mpr hdiv
    have hk' : (k : ℤ)*scale ≤ 7*scale := Int.mul_le_mul_of_nonneg_right (by omega) (by omega)
    have hk0 : 0 ≤ (k : ℤ)*scale := Int.mul_nonneg (by omega) (by omega)
    omega

theorem and_shiftLeft_ne_zero (bits : Byte) (col : ℕ) :
    bits.toNat &&& 1 <<< col ≠ 0 ↔ bits.getLsbD col = true := by
  have hbit : ∀ k, (bits.toNat &&& 1 <<< col).testBit k = (bits.getLsbD k && decide (col = k)) := by
    intro k
    rw [Nat.one_shiftLeft,Nat.testBit_and,BitVec.testBit_toNat,Nat.testBit_two_pow]
  constructor
  · intro hne
    by_contra hoff
    apply hne
    apply Nat.eq_of_testBit_eq
    intro k
    rw [hbit,Nat.zero_testBit]
    by_cases hk : col = k
    · simpa [← hk] using hoff
    · simp [hk]
  · intro hon hzero
    have hcol := hbit col
    rw [hzero,Nat.zero_testBit,hon] at hcol
    simp at hcol

/-- The pixels of one character: those in a set bit of its cell. -/
def LitChar (x y : ℤ) (c : Byte) (scale px py : ℤ) : Prop :=
  (0 ≤ px - x ∧ px - x < 8*scale) ∧ (0 ≤ py - y ∧ py - y < 8*scale) ∧
    ∃ bits, fontRow c ((py - y)/scale).toNat = some bits ∧
      bits.getLsbD ((px - x)/scale).toNat = true

theorem fontRow_eq {c : Byte} (hc : c.toNat < 128) {row : ℕ} (hrow : row < 8) :
    ∃ bits, fontRow c row = some bits := exists_row hc hrow

/-- White, as every character is drawn. -/
def white : Fin frameSize → Byte := colour 255 255 255

theorem white_eq (a : Fin frameSize) : white a = 255 := by
  unfold white colour
  split_ifs <;> rfl

theorem paints_drawCharScaled {x y scale : ℤ} {c : Byte} (hc : c.toNat < 128) (hs : 1 ≤ scale)
    (hx : 0 ≤ x) (hx' : x + 8*scale ≤ width) (hy : 0 ≤ y) (hy' : y + 8*scale ≤ height) :
    Paints white (drawCharScaled x y c scale) fun a => LitChar x y c scale (px a) (py a) := by
  have hcells : Paints white (drawCharScaled x y c scale) fun a =>
      ∃ row ∈ List.range 8, ∃ col ∈ List.range 8, (∃ bits, fontRow c row = some bits ∧
        bits.getLsbD col = true) ∧ (px a - x)/scale = col ∧ (py a - y)/scale = row := by
    apply paints_forEach
    intro row hrow
    rw [List.mem_range] at hrow
    rcases fontRow_eq hc hrow with ⟨bits,hbits⟩
    simp only [hbits,Option.bind_some,Option.some_inj,exists_eq_left']
    apply paints_forEach
    intro col hcol
    rw [List.mem_range] at hcol
    have hcell : (col : ℤ)*scale ≤ 7*scale ∧ (row : ℤ)*scale ≤ 7*scale ∧
        0 ≤ (col : ℤ)*scale ∧ 0 ≤ (row : ℤ)*scale :=
      ⟨Int.mul_le_mul_of_nonneg_right (by omega) (by omega),
        Int.mul_le_mul_of_nonneg_right (by omega) (by omega),
        Int.mul_nonneg (by omega) (by omega),Int.mul_nonneg (by omega) (by omega)⟩
    have hrect := paints_fillRect 255 255 255 (x := x + col*scale) (y := y + row*scale)
      (w := scale) (h := scale) (by omega) (by omega) (by omega) (by omega)
    apply (Paints.when (c := bits.toNat &&& 1 <<< col ≠ 0) fun _ => hrect).congr
    intro a
    rw [and_shiftLeft_ne_zero,cell_iff hs,cell_iff hs]
  apply hcells.congr
  intro a
  rw [LitChar,cell_range hs,cell_range hs]
  constructor
  · rintro ⟨row,hrow,col,hcol,hbits,hpx,hpy⟩
    rw [List.mem_range] at hrow hcol
    refine ⟨⟨col,hcol,hpx⟩,⟨row,hrow,hpy⟩,?_⟩
    rw [hpx,hpy]
    exact hbits
  · rintro ⟨⟨col,hcol,hpx⟩,⟨row,hrow,hpy⟩,hbits⟩
    rw [hpx,hpy] at hbits
    exact ⟨row,List.mem_range.mpr hrow,col,List.mem_range.mpr hcol,hbits,hpx,hpy⟩

theorem lit_cons (x y : ℤ) (c : Byte) (str : List Byte) (scale px py : ℤ) :
    Lit x y (c::str) scale px py ↔
      LitChar x y c scale px py ∨ Lit (x + 8*scale) y str scale px py := by
  have hshift : ∀ i : ℕ, px - x - 8*scale*((i+1 : ℕ) : ℤ) = px - (x + 8*scale) - 8*scale*i := by
    intro i
    push_cast
    ring
  constructor
  · rintro ⟨i,hi,h⟩
    cases i with
    | zero =>
        left
        simpa [LitChar] using h
    | succ i =>
        rw [hshift,List.getElem_cons_succ] at h
        exact Or.inr ⟨i,Nat.lt_of_succ_lt_succ hi,h⟩
  · intro h
    rcases h with h | ⟨i,hi,h⟩
    · exact ⟨0,Nat.succ_pos _,by simpa [LitChar] using h⟩
    · refine ⟨i+1,Nat.succ_lt_succ hi,?_⟩
      rw [hshift,List.getElem_cons_succ]
      exact h

theorem paints_drawStringScaled (x y scale : ℤ) (str rest : List Byte)
    (hstr : ∀ c ∈ str, c ≠ 0#8 ∧ c.toNat < 128) (hs : 1 ≤ scale) (hx : 0 ≤ x)
    (hx' : x + 8*scale*str.length ≤ width) (hy : 0 ≤ y) (hy' : y + 8*scale ≤ height) :
    Paints white (drawStringScaled x y (str ++ 0#8::rest) scale)
      fun a => Lit x y str scale (px a) (py a) := by
  induction str generalizing x with
  | nil => exact paints_nothing fun a ⟨i,hi,_⟩ => absurd hi (Nat.not_lt_zero i)
  | cons c str ih =>
      rcases hstr c List.mem_cons_self with ⟨hzero,hseven⟩
      have hlen : 8*scale*((c::str).length : ℤ) = 8*scale + 8*scale*str.length := by
        rw [List.length_cons]
        push_cast
        ring
      have hrest : 0 ≤ 8*scale*(str.length : ℤ) := Int.mul_nonneg (by omega) (by omega)
      have hchar := paints_drawCharScaled (x := x) hseven hs hx (by omega) hy hy'
      have htail := ih (x + 8*scale) (fun d hd => hstr d (List.mem_cons_of_mem c hd))
        (by omega) (by omega)
      have hseq := (hchar.seq htail).congr
        fun a => (lit_cons x y c str scale (px a) (py a)).symm
      have hstep : drawStringScaled x y (c::str ++ 0#8::rest) scale = fun frame =>
          (drawCharScaled x y c scale frame).bind
            (drawStringScaled (x + 8*scale) y (str ++ 0#8::rest) scale) := by
        funext frame
        rw [List.cons_append,drawStringScaled,if_pos hzero]
      rw [hstep]
      exact hseq

/-- A string drawn inside the picture: its lit pixels become white, every other
byte of the buffer stays, and no store leaves the buffer. -/
theorem drawStringScaled_exact (x y scale : ℤ) (str rest : List Byte) (frame : Frame)
    (hstr : ∀ c ∈ str, c ≠ 0#8 ∧ c.toNat < 128) (hs : 1 ≤ scale) (hx : 0 ≤ x)
    (hx' : x + 8*scale*str.length ≤ 1280) (hy : 0 ≤ y) (hy' : y + 8*scale ≤ 720) :
    ∃ frame', drawStringScaled x y (str ++ 0#8::rest) scale frame = some frame' ∧
      (∀ (column row channel : ℕ), column < 1280 → row < 720 → channel < 3 →
        Lit x y str scale column row →
        ∃ h : (row*1280 + column)*3 + channel < frameSize,
          frame' ⟨(row*1280 + column)*3 + channel,h⟩ = 255) ∧
      ∀ a, ¬ Lit x y str scale (px a) (py a) → frame' a = frame a := by
  rcases paints_drawStringScaled x y scale str rest hstr hs hx hx' hy hy' frame with
    ⟨frame',hdraw,hpaint⟩
  refine ⟨frame',hdraw,?_,fun a => (hpaint a).2⟩
  intro column row channel hcolumn hrow hchannel hlit
  have hlt : (row*1280 + column)*3 + channel < frameSize := by
    rw [frameSize_eq]
    omega
  refine ⟨hlt,?_⟩
  rw [← white_eq ⟨_,hlt⟩]
  apply (hpaint _).1
  have hpixel : ((row*1280 + column)*3 + channel)/3 = row*1280 + column := by omega
  have hpx : px ⟨(row*1280 + column)*3 + channel,hlt⟩ = column := by
    rw [px,hpixel,width_eq,Nat.cast_inj]
    omega
  have hpy : py ⟨(row*1280 + column)*3 + channel,hlt⟩ = row := by
    rw [py,hpixel,width_eq,Nat.cast_inj]
    omega
  rw [hpx,hpy]
  exact hlit

/-- The first string of the test picture on a grey frame; the top row of the S begins in its
second column. -/
theorem drawStringScaled_first : ∃ frame',
    drawStringScaled 100 100 (bytesOf "SCWOOK" ++ 0#8::[]) 1 (fun _ => 7) = some frame' ∧
      (∃ h : (100*1280+101)*3+2 < frameSize, frame' ⟨(100*1280+101)*3+2,h⟩ = 255) ∧
      ∀ a, ¬ Lit 100 100 (bytesOf "SCWOOK") 1 (px a) (py a) → frame' a = 7 := by
  obtain ⟨frame',hdraw,hlit,hkeep⟩ := drawStringScaled_exact 100 100 1 (bytesOf "SCWOOK") []
    (fun _ => 7) (by decide) (by decide) (by decide) (by decide) (by decide) (by decide)
  refine ⟨frame',hdraw,?_,hkeep⟩
  apply hlit 101 100 2 (by decide) (by decide) (by decide)
  exact ⟨0,by decide,⟨by decide,by decide⟩,⟨by decide,by decide⟩,0x1e,by decide,by decide⟩

/-- The lit pixels of the test picture. -/
def LitPicture (px py : ℤ) : Prop :=
  Lit 100 100 (bytesOf "SCWOOK") 1 px py ∨ Lit 200 200 (bytesOf "Hello") 2 px py ∨
    Lit 300 300 (bytesOf "FPGA") 4 px py

/-- The test picture does not depend on what the buffer held: white text on black. -/
theorem fillFrame_exact (frame : Frame) : ∃ frame', fillFrame frame = some frame' ∧
    ∀ a, (LitPicture (px a) (py a) → frame' a = 255) ∧
      (¬ LitPicture (px a) (py a) → frame' a = 0) := by
  have hblack : Paints (fun _ => 0) (forEach (List.range (width*height*3))
      fun i => storeByte (i : ℕ) 0) fun a => ∃ i ∈ List.range (width*height*3), a.val = i := by
    apply paints_forEach
    intro i hi
    exact paints_storeByte i _ (List.mem_range.mp hi) rfl
  have hfirst := paints_drawStringScaled 100 100 1 (bytesOf "SCWOOK") [] (by decide)
    (by decide) (by decide) (by decide) (by decide) (by decide)
  have hsecond := paints_drawStringScaled 200 200 2 (bytesOf "Hello") [] (by decide)
    (by decide) (by decide) (by decide) (by decide) (by decide)
  have hthird := paints_drawStringScaled 300 300 4 (bytesOf "FPGA") [] (by decide)
    (by decide) (by decide) (by decide) (by decide) (by decide)
  rcases hblack frame with ⟨black,hfill,hzero⟩
  rcases hfirst.seq (hsecond.seq hthird) black with ⟨frame',hdraw,hpaint⟩
  refine ⟨frame',Option.bind_eq_some_iff.mpr ⟨black,hfill,hdraw⟩,?_⟩
  intro a
  constructor
  · intro hlit
    rw [← white_eq a]
    exact (hpaint a).1 hlit
  · intro hdark
    rw [(hpaint a).2 hdark]
    exact (hzero a).1 ⟨a.val,List.mem_range.mpr a.isLt,rfl⟩

end FpgaTest.HdmiText
