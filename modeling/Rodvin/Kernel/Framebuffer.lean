/-
  Rodvin.Kernel.Framebuffer — drawing into the framebuffer (`draw_image` and `draw_square`
  in `kernel/src/common/Framebuffer.cpp`), and `Image::sample`.

  The device gives a pointer to each of its lines; only the pixels of a line may be written
  through it (`putPixel`). Positions are 64-bit words, and a word from `2 ^ 63` on stands
  for a negative position (`signed`). `clipped` is the screen with exactly the visible part
  of the rectangle painted.

  Both routines clip by `getWidth() - x` and `getHeight() - y`, which wrap when the position
  lies left of, above or behind the screen. And `draw_square` draws each of its lines at
  `y`. `drawing_clipped_iff` says when the result is the clipped rectangle.
-/

import Rodvin.Lib.Words
import Rodvin.Lib.Checked

namespace Rodvin.Kernel.Framebuffer

open Rodvin.Lib

inductive ColorFormat where
  | lum
  | lumA
  | rgb
  | rgba
  deriving DecidableEq

/-- `imagedata` is the memory from the pointer on. -/
structure Image where
  imagedata : Nat → UInt8
  w : Nat
  fmt : ColorFormat

/-- `sample(int, int)`, called with words. -/
def Image.sample (image : Image) (x y : Nat) : UInt32 :=
  let at_ (k n : Nat) : UInt32 := (image.imagedata ((((int32 y * image.w + int32 x) * k) + n) % 2 ^ 64)).toUInt32
  match image.fmt with
  | .lum => 0x10101 * at_ 1 0
  | .lumA => 0x10101 * at_ 2 0
  | .rgb => (at_ 3 0 <<< 16) ||| (at_ 3 1 <<< 8) ||| at_ 3 2
  | .rgba => at_ 4 0 ||| (at_ 4 1 <<< 8) ||| (at_ 4 2 <<< 16) ||| (at_ 4 3 <<< 24)

/-- What `rootfb` is asked for. Its pixels of four bytes fit into memory. -/
structure Device where
  width : Nat
  height : Nat
  width_lt : width < 2 ^ 64
  height_lt : height < 2 ^ 64
  fits : 4 * (width * height) ≤ 2 ^ 64

/-- The pixel at a column and a row. -/
abbrev Pixels := Nat → Nat → UInt32

/-- `getBufferLine(lineno)[x] = c`. -/
def putPixel (fb : Device) (lineno x : Nat) (c : UInt32) (scr : Pixels) : Checked Pixels :=
  if lineno < fb.height ∧ x < fb.width then pure fun i j => if i = x ∧ j = lineno then c else scr i j else fault

/-- `for (size_t i = 0; i < n; i++) line[i+tx] = c(i)`. -/
def drawLine (fb : Device) (lineno tx : Nat) (c : Nat → UInt32) : Nat → Pixels → Checked Pixels
  | 0, scr => pure scr
  | n + 1, scr => do
    let scr ← drawLine fb lineno tx c n scr
    putPixel fb lineno (add64 n tx) (c n) scr

/-- `for (size_t j = 0; j < n; j++)`, around the drawing of a line. -/
def drawLines (line : Nat → Pixels → Checked Pixels) : Nat → Pixels → Checked Pixels
  | 0, scr => pure scr
  | n + 1, scr => do
    let scr ← drawLines line n scr
    line n scr

def drawImage (fb : Device) (image : Image) (xoff yoff tx ty w h : Nat) (scr : Pixels) : Checked Pixels :=
  let drawY := min (sub64 fb.height ty) h
  let drawX := min (sub64 fb.width tx) w
  drawLines (fun j => drawLine fb (add64 ty j) tx (fun i => image.sample (add64 xoff i) (add64 yoff j)) drawX) drawY scr

/-- `draw_square`, with `c.toInt()`. -/
def drawSquare (fb : Device) (x y w h : Nat) (c : UInt32) (scr : Pixels) : Checked Pixels :=
  let drawY := min (sub64 fb.height y) h
  let drawX := min (sub64 fb.width x) w
  drawLines (fun _ => drawLine fb y x (fun _ => c) drawX) drawY scr

/-! ## What they are to do -/

/-- The position a word stands for. -/
def signed (t : Nat) : Int := if t < 2 ^ 63 then t else t - 2 ^ 64

/-- The offset of a coordinate in an interval of `n` from `t` on. -/
def offset? (t n p : Nat) : Option Nat :=
  if 0 ≤ (p : Int) - signed t ∧ (p : Int) - signed t < n then some ((p : Int) - signed t).toNat else none

/-- The screen with the pixels of the rectangle that lie on it painted. -/
def clipped (fb : Device) (tx ty w h : Nat) (c : Nat → Nat → UInt32) (scr : Pixels) : Pixels := fun p q =>
  if p < fb.width ∧ q < fb.height then
    match offset? tx w p, offset? ty h q with
    | some i, some j => c i j
    | _, _ => scr p q
  else scr p q

/-- The rectangle is empty, ends where the screen begins, or starts on the screen. -/
def Starts (fb : Device) (tx ty w h : Nat) : Prop :=
  w = 0 ∨ h = 0 ∨ tx = fb.width ∨ ty = fb.height ∨ (tx < fb.width ∧ ty < fb.height)

/-- The same for a rectangle with one line on the screen. -/
def StartsOneLine (fb : Device) (tx ty w h : Nat) : Prop :=
  w = 0 ∨ h = 0 ∨ tx = fb.width ∨ ty = fb.height ∨ (tx < fb.width ∧ ty < fb.height ∧ (h = 1 ∨ ty + 1 = fb.height))

instance (fb : Device) (tx ty w h : Nat) : Decidable (Starts fb tx ty w h) :=
  inferInstanceAs (Decidable (_ ∨ _ ∨ _ ∨ _ ∨ _))

instance (fb : Device) (tx ty w h : Nat) : Decidable (StartsOneLine fb tx ty w h) :=
  inferInstanceAs (Decidable (_ ∨ _ ∨ _ ∨ _ ∨ _))

variable {fb : Device} {lineno tx ty w h n : Nat} {c : Nat → UInt32} {scr : Pixels}

/-! ## The loops -/

theorem drawLine_eq (hl : lineno < fb.height) (hx : tx + n ≤ fb.width) (scr : Pixels) :
    drawLine fb lineno tx c n scr = .ok fun i j => if j = lineno ∧ tx ≤ i ∧
      i < tx + n then c (i - tx) else scr i j := by
  induction n with
  | zero =>
    refine congrArg Except.ok (funext fun i => funext fun j => ?_)
    rw [if_neg (by omega)]
  | succ n ih =>
    have hw := fb.width_lt
    have hadd : add64 n tx = n + tx := add64_eq (by omega)
    unfold drawLine
    rw [ok_bind (ih (by omega)), hadd]
    unfold putPixel
    rw [if_pos ⟨hl, by omega⟩]
    refine congrArg Except.ok (funext fun i => funext fun j => ?_)
    by_cases hij : i = n + tx ∧ j = lineno
    · rw [if_pos hij, if_pos (by omega), hij.1, Nat.add_sub_cancel]
    · refine (if_neg hij).trans ?_
      by_cases hin : j = lineno ∧ tx ≤ i ∧ i < tx + n
      · exact (if_pos hin).trans (if_pos (by omega)).symm
      · exact (if_neg hin).trans (if_neg (by omega)).symm

/-- The first pixel is not on the screen. -/
theorem drawLine_fault (htx : tx < 2 ^ 64) (hout : ¬ (lineno < fb.height ∧ tx < fb.width)) (hn : 0 < n) :
    drawLine fb lineno tx c n scr = .error .fault := by
  obtain ⟨n, rfl⟩ := Nat.exists_eq_succ_of_ne_zero (Nat.ne_of_gt hn)
  clear hn
  induction n with
  | zero =>
    have hadd : add64 0 tx = tx := by rw [add64_eq (by omega), Nat.zero_add]
    show putPixel fb lineno (add64 0 tx) (c 0) scr = _
    rw [hadd]
    exact if_neg hout
  | succ n ih =>
    rw [drawLine, ih]
    rfl

theorem drawLines_fault {line : Nat → Pixels → Checked Pixels} (hline : line 0 scr = .error .fault) (hn : 0 < n) :
    drawLines line n scr = .error .fault := by
  obtain ⟨n, rfl⟩ := Nat.exists_eq_succ_of_ne_zero (Nat.ne_of_gt hn)
  clear hn
  induction n with
  | zero => exact hline
  | succ n ih =>
    rw [drawLines, ih]
    rfl

/-- Lines that are one below the other. -/
theorem drawLines_eq {c : Nat → Nat → UInt32} (hy : ty + n ≤ fb.height) (hx : tx + w ≤ fb.width) (scr : Pixels) :
    drawLines (fun j => drawLine fb (add64 ty j) tx (c j) w) n scr =
      .ok fun i j => if (tx ≤ i ∧ i < tx + w) ∧ ty ≤ j ∧ j < ty + n then c (j - ty) (i - tx) else scr i j := by
  induction n with
  | zero =>
    refine congrArg Except.ok (funext fun i => funext fun j => ?_)
    rw [if_neg (by omega)]
  | succ n ih =>
    have hh := fb.height_lt
    have hadd : add64 ty n = ty + n := add64_eq (by omega)
    unfold drawLines
    rw [ok_bind (ih (by omega)), hadd, drawLine_eq (by omega) hx]
    refine congrArg Except.ok (funext fun i => funext fun j => ?_)
    by_cases hij : j = ty + n ∧ tx ≤ i ∧ i < tx + w
    · rw [if_pos hij, if_pos (by omega), hij.1, Nat.add_sub_cancel_left]
    · rw [if_neg hij]
      by_cases hin : (tx ≤ i ∧ i < tx + w) ∧ ty ≤ j ∧ j < ty + n
      · rw [if_pos hin, if_pos (by omega)]
      · rw [if_neg hin, if_neg (by omega)]

/-- The same line again and again. -/
theorem drawLines_same {c : UInt32} (hl : lineno < fb.height) (hx : tx + w ≤ fb.width) (hn : 0 < n) (scr : Pixels) :
    drawLines (fun _ => drawLine fb lineno tx (fun _ => c) w) n scr =
      .ok fun i j => if j = lineno ∧ tx ≤ i ∧ i < tx + w then c else scr i j := by
  obtain ⟨n, rfl⟩ := Nat.exists_eq_succ_of_ne_zero (Nat.ne_of_gt hn)
  clear hn
  induction n with
  | zero => exact drawLine_eq hl hx scr
  | succ n ih =>
    rw [drawLines, ok_bind ih, drawLine_eq hl hx]
    refine congrArg Except.ok (funext fun i => funext fun j => ?_)
    by_cases hin : j = lineno ∧ tx ≤ i ∧ i < tx + w
    · exact (if_pos hin).trans (if_pos hin).symm
    · exact if_neg hin

/-! ## Clipping -/

theorem sub64_pos {a b : Nat} (ha : a < 2 ^ 64) (hb : b < 2 ^ 64) : 0 < sub64 a b ↔ b ≠ a := by
  unfold sub64
  omega

/-- A rectangle that starts on the screen: the loops draw what is clipped. -/
theorem offset?_inside {t size : Nat} (ht : t < size) (hsize : size < 2 ^ 63) {p : Nat} (hp : p < size) :
    offset? t n p = if t ≤ p ∧ p < t + min (sub64 size t) n then some (p - t) else none := by
  have hsub : sub64 size t = size - t := sub64_eq (by omega) (Nat.le_of_lt ht)
  have hpos : signed t = t := if_pos (by omega)
  unfold offset?
  rw [hsub, hpos]
  by_cases hin : t ≤ p ∧ p < t + min (size - t) n
  · rw [if_pos hin, if_pos (by omega)]
    congr 1
    omega
  · rw [if_neg hin, if_neg (by omega)]

/-- A rectangle at the end of the screen is not on it. -/
theorem offset?_end {size : Nat} (hsize : size < 2 ^ 63) {p : Nat} (hp : p < size) : offset? size n p = none := by
  have hpos : signed size = size := if_pos (by omega)
  unfold offset?
  rw [hpos, if_neg (by omega)]

theorem offset?_zero (t p : Nat) : offset? t 0 p = none := if_neg (by omega)

/-- A screen with a pixel has fewer than `2 ^ 63` columns and rows. -/
theorem Device.small (fb : Device) {p q : Nat} (hp : p < fb.width) (hq : q < fb.height) :
    fb.width < 2 ^ 63 ∧ fb.height < 2 ^ 63 := by
  have hfits := fb.fits
  have h1 : fb.width * 1 ≤ fb.width * fb.height := Nat.mul_le_mul_left _ (by omega)
  have h2 : 1 * fb.height ≤ fb.width * fb.height := Nat.mul_le_mul_right _ (by omega)
  omega

/-- Nothing of the rectangle is on the screen. -/
theorem clipped_none (hout : w = 0 ∨ h = 0 ∨ tx = fb.width ∨ ty = fb.height) (c : Nat → Nat → UInt32) (scr : Pixels) :
    clipped fb tx ty w h c scr = scr := by
  refine funext fun p => funext fun q => ?_
  unfold clipped
  by_cases hpq : p < fb.width ∧ q < fb.height
  · obtain ⟨hw, hh⟩ := fb.small hpq.1 hpq.2
    have hnone : offset? tx w p = none ∨ offset? ty h q = none := by
      rcases hout with rfl | rfl | rfl | rfl
      · exact .inl (offset?_zero tx p)
      · exact .inr (offset?_zero ty q)
      · exact .inl (offset?_end hw hpq.1)
      · exact .inr (offset?_end hh hpq.2)
    rw [if_pos hpq]
    rcases hnone with hn | hn
    · rw [hn]
    · rw [hn]
      cases offset? tx w p with
      | none => rfl
      | some i => rfl
  · rw [if_neg hpq]

theorem clipped_inside (hx : tx < fb.width) (hy : ty < fb.height) (c : Nat → Nat → UInt32) (scr : Pixels) :
    clipped fb tx ty w h c scr = fun p q =>
      if (tx ≤ p ∧ p < tx + min (sub64 fb.width tx) w) ∧ ty ≤ q ∧
        q < ty + min (sub64 fb.height ty) h then c (p - tx) (q - ty)
      else scr p q := by
  obtain ⟨hw, hh⟩ := fb.small hx hy
  have hsubx : sub64 fb.width tx = fb.width - tx := sub64_eq fb.width_lt (Nat.le_of_lt hx)
  have hsuby : sub64 fb.height ty = fb.height - ty := sub64_eq fb.height_lt (Nat.le_of_lt hy)
  refine funext fun p => funext fun q => ?_
  unfold clipped
  by_cases hpq : p < fb.width ∧ q < fb.height
  · rw [if_pos hpq, offset?_inside hx hw hpq.1, offset?_inside hy hh hpq.2]
    by_cases hp : tx ≤ p ∧ p < tx + min (sub64 fb.width tx) w
    · rw [if_pos hp]
      by_cases hq : ty ≤ q ∧ q < ty + min (sub64 fb.height ty) h
      · rw [if_pos hq, if_pos ⟨hp, hq⟩]
      · rw [if_neg hq, if_neg (not_and_of_not_right _ hq)]
    · rw [if_neg hp, if_neg (not_and_of_not_left _ hp)]
  · rw [if_neg hpq, if_neg (by omega)]

/-! ## The routines -/

theorem drawLines_none {line : Nat → Pixels → Checked Pixels} (hline : ∀ j scr, line j scr = .ok scr) (n : Nat)
    (scr : Pixels) :
    drawLines line n scr = .ok scr := by
  induction n with
  | zero => rfl
  | succ n ih => rw [drawLines, ok_bind ih, hline]

/-- There is nothing to draw. -/
theorem drawn_none (htx : tx < 2 ^ 64) (hty : ty < 2 ^ 64) :
    (min (sub64 fb.width tx) w = 0 ∨ min (sub64 fb.height ty) h = 0) ↔ w = 0 ∨ h = 0 ∨ tx = fb.width ∨ ty = fb.height := by
  have hx := sub64_pos fb.width_lt htx
  have hy := sub64_pos fb.height_lt hty
  constructor
  · intro hn
    by_contra hne
    simp only [not_or] at hne
    obtain ⟨h1, h2, h3, h4⟩ := hne
    have := hx.mpr h3
    have := hy.mpr h4
    omega
  · rintro (hn | hn | hn | hn)
    · exact .inl (by omega)
    · exact .inr (by omega)
    · exact .inl (by have := mt hx.mp (not_not.mpr hn); omega)
    · exact .inr (by have := mt hy.mp (not_not.mpr hn); omega)

theorem drawn_none_ok {f : Nat → Nat → Pixels → Checked Pixels} (hline : ∀ j scr, f 0 j scr = .ok scr)
    (htx : tx < 2 ^ 64)
    (hty : ty < 2 ^ 64) (hout : w = 0 ∨ h = 0 ∨ tx = fb.width ∨ ty = fb.height) (scr : Pixels) :
    drawLines (f (min (sub64 fb.width tx) w)) (min (sub64 fb.height ty) h) scr = .ok scr := by
  rcases (drawn_none htx hty).mpr hout with hn | hn
  · rw [hn]
    exact drawLines_none hline _ scr
  · rw [hn]
    rfl

theorem drawImage_iff (fb : Device) (image : Image) (xoff yoff : Nat) (htx : tx < 2 ^ 64) (hty : ty < 2 ^ 64)
    (w h : Nat) :
    (∀ scr, drawImage fb image xoff yoff tx ty w h scr =
      .ok (clipped fb tx ty w h (fun i j => image.sample (add64 xoff i) (add64 yoff j)) scr)) ↔ Starts fb tx ty w h := by
  constructor
  · intro hdraw
    by_contra hnot
    simp only [Starts, not_or] at hnot
    obtain ⟨h1, h2, h3, h4, hout⟩ := hnot
    have hpos := mt (drawn_none htx hty).mp (by simp only [not_or]; exact ⟨h1, h2, h3, h4⟩)
    rw [not_or] at hpos
    have hfault : drawImage fb image xoff yoff tx ty w h (fun _ _ => 0) = .error .fault := by
      refine drawLines_fault (drawLine_fault htx ?_ (Nat.pos_of_ne_zero hpos.1)) (Nat.pos_of_ne_zero hpos.2)
      rw [add64_eq (show ty + 0 < 2 ^ 64 from hty)]
      exact fun e => hout ⟨e.2, e.1⟩
    rw [hdraw] at hfault
    cases hfault
  · intro hstarts scr
    by_cases hout : w = 0 ∨ h = 0 ∨ tx = fb.width ∨ ty = fb.height
    · rw [clipped_none hout]
      exact drawn_none_ok (f := fun n j => drawLine fb (add64 ty j) tx (fun i => image.sample (add64 xoff i) (add64 yoff j)) n)
        (fun _ _ => rfl) htx hty hout scr
    · simp only [not_or] at hout
      have hin : tx < fb.width ∧ ty < fb.height := by
        unfold Starts at hstarts
        omega
      have hsubx : sub64 fb.width tx = fb.width - tx := sub64_eq fb.width_lt (Nat.le_of_lt hin.1)
      have hsuby : sub64 fb.height ty = fb.height - ty := sub64_eq fb.height_lt (Nat.le_of_lt hin.2)
      rw [clipped_inside hin.1 hin.2]
      exact drawLines_eq (c := fun j i => image.sample (add64 xoff i) (add64 yoff j)) (by omega) (by omega) scr

theorem drawSquare_iff (fb : Device) (c : UInt32) (htx : tx < 2 ^ 64) (hty : ty < 2 ^ 64) (w h : Nat) :
    (∀ scr, drawSquare fb tx ty w h c scr = .ok (clipped fb tx ty w h (fun _ _ => c) scr)) ↔ StartsOneLine fb tx ty w h := by
  by_cases hout : w = 0 ∨ h = 0 ∨ tx = fb.width ∨ ty = fb.height
  · have hone : StartsOneLine fb tx ty w h := by
      unfold StartsOneLine
      omega
    refine ⟨fun _ => hone, fun _ scr => ?_⟩
    rw [clipped_none hout]
    exact drawn_none_ok (f := fun n _ => drawLine fb ty tx (fun _ => c) n) (fun _ _ => rfl) htx hty hout scr
  · have hpos := mt (drawn_none htx hty).mp hout
    rw [not_or] at hpos
    simp only [not_or] at hout
    by_cases hin : tx < fb.width ∧ ty < fb.height
    · have hsubx : sub64 fb.width tx = fb.width - tx := sub64_eq fb.width_lt (Nat.le_of_lt hin.1)
      have hsuby : sub64 fb.height ty = fb.height - ty := sub64_eq fb.height_lt (Nat.le_of_lt hin.2)
      have hdrawn (scr : Pixels) : drawSquare fb tx ty w h c scr =
          .ok fun i j => if j = ty ∧ tx ≤ i ∧ i < tx + min (sub64 fb.width tx) w then c else scr i j :=
        drawLines_same hin.2 (by omega) (Nat.pos_of_ne_zero hpos.2) scr
      have hiff : StartsOneLine fb tx ty w h ↔ min (sub64 fb.height ty) h = 1 := by
        unfold StartsOneLine
        omega
      rw [hiff]
      constructor
      · intro hdraw
        by_contra hmany
        -- the second line is not painted
        have hsame := (hdrawn fun _ _ => c + 1).symm.trans (hdraw fun _ _ => c + 1)
        have hpixel := congrFun (congrFun (Except.ok.inj hsame) tx) (ty + 1)
        rw [clipped_inside hin.1 hin.2] at hpixel
        have hne : c + 1 = c := by
          refine ((if_neg (by omega)).symm.trans hpixel).trans (if_pos ?_)
          omega
        have hnat := congrArg UInt32.toNat hne
        rw [UInt32.toNat_add] at hnat
        have hlt := c.toNat_lt
        have hone : (1 : UInt32).toNat = 1 := rfl
        omega
      · intro hone scr
        rw [hdrawn, clipped_inside hin.1 hin.2, hone]
        refine congrArg Except.ok (funext fun i => funext fun j => ?_)
        refine if_congr ?_ rfl rfl
        omega
    · have hnot : ¬ StartsOneLine fb tx ty w h := by
        unfold StartsOneLine
        omega
      refine ⟨fun hdraw => ?_, fun e => absurd e hnot⟩
      have hfault : drawSquare fb tx ty w h c (fun _ _ => 0) = .error .fault :=
        drawLines_fault (drawLine_fault htx (fun e => hin ⟨e.2, e.1⟩) (Nat.pos_of_ne_zero hpos.1)) (Nat.pos_of_ne_zero hpos.2)
      rw [hdraw] at hfault
      cases hfault

/-- `draw_image` paints exactly the visible part of its rectangle, whatever the screen
    shows, when nothing is to be drawn or the position is on the screen; `draw_square` needs
    that only one of its lines is to be drawn. -/
theorem drawing_clipped_iff (fb : Device) (image : Image) (c : UInt32) (xoff yoff : Nat) (htx : tx < 2 ^ 64)
    (hty : ty < 2 ^ 64)
    (w h : Nat) :
    ((∀ scr, drawImage fb image xoff yoff tx ty w h scr =
      .ok (clipped fb tx ty w h (fun i j => image.sample (add64 xoff i) (add64 yoff j)) scr)) ↔ Starts fb tx ty w h) ∧
    ((∀ scr, drawSquare fb tx ty w h c scr = .ok (clipped fb tx ty w h (fun _ _ => c) scr)) ↔ StartsOneLine fb tx ty w h) :=
  ⟨drawImage_iff fb image xoff yoff htx hty w h, drawSquare_iff fb c htx hty w h⟩

/-- A screen of two by two pixels. -/
def small : Device := ⟨2, 2, by decide, by decide, by decide⟩

/-- An image of one colour. -/
def grey : Image := ⟨fun _ => 0x80, 1, .lum⟩

/-- Over the right edge. -/
theorem drawing_clipped_iff_right :
    ((∀ scr, drawImage small grey 0 0 1 0 5 5 scr =
      .ok (clipped small 1 0 5 5 (fun i j => grey.sample (add64 0 i) (add64 0 j)) scr)) ↔ Starts small 1 0 5 5) ∧
    ((∀ scr, drawSquare small 1 0 5 5 0x80 scr = .ok (clipped small 1 0 5 5 (fun _ _ => 0x80) scr)) ↔ StartsOneLine small 1 0 5 5) :=
  drawing_clipped_iff small grey 0x80 0 0 (by decide) (by decide) 5 5

/-- A glyph that starts one pixel left of the screen leaves it, and a square of two lines is
    drawn in one. -/
theorem left_edge_is_not_clipped : (¬ ∀ (fb : Device) (image : Image) (xoff yoff tx ty w h : Nat), tx < 2 ^ 64 → ty < 2 ^ 64 →
      ∀ scr, drawImage fb image xoff yoff tx ty w h scr =
        .ok (clipped fb tx ty w h (fun i j => image.sample (add64 xoff i) (add64 yoff j)) scr)) ∧
    ¬ ∀ (fb : Device) (c : UInt32) (tx ty w h : Nat), tx < 2 ^ 64 → ty < 2 ^ 64 →
      ∀ scr, drawSquare fb tx ty w h c scr = .ok (clipped fb tx ty w h (fun _ _ => c) scr) := by
  constructor
  · intro hdraw
    have hstarts := (drawImage_iff small grey 0 0 (by decide) (by decide) 2 1).mp
      (hdraw small grey 0 0 (2 ^ 64 - 1) 0 2 1 (by decide) (by decide))
    exact absurd hstarts (by decide)
  · intro hdraw
    have hone := (drawSquare_iff small 0x80 (by decide) (by decide) 1 2).mp
      (hdraw small 0x80 0 0 1 2 (by decide) (by decide))
    exact absurd hone (by decide)

end Rodvin.Kernel.Framebuffer
