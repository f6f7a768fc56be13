import HaOS.Term.Terminal
import Mathlib.Tactic.Ring

/-!
# The cursor stays on the screen

* `OnScreen` : the cursor is on the screen, and so are the pixels drawn so far;
* `termDrawChar_spec` : drawing a character keeps that, and moves the cursor on by one place or to the last row;
* `Typed` : the characters pending on the input line lie before the cursor;
* `onScreen_run` : on a screen whose pixels have offsets below 2^31, every run keeps both.
-/

namespace HaOS.Term
open Lib (Reaches Guarded)

variable {scr : Screen} {font : UInt8 → Nat → UInt8} {s t : State} {c key : UInt8} {e : Event}

/-- The pixel is on the screen, and its bytes are the ones that belong to it in the framebuffer. -/
def Inside (scr : Screen) (p : Nat × Nat) : Prop :=
  p.1 < scr.width ∧ p.2 < scr.height ∧ putPixel scr p = (p.1 + p.2 * scr.width) * scr.bpp ∧
    putPixel scr p + 3 ≤ scr.width * scr.height * scr.bpp

def State.index (scr : Screen) (s : State) : Nat := s.x + s.y * scr.maxCharWidth

structure OnScreen (scr : Screen) (s : State) : Prop where
  x : s.x < scr.maxCharWidth
  y : s.y < scr.maxCharHeight
  pixels : ∀ p ∈ s.pixels, Inside scr p

/-- The offset of the last pixel of the text rows is an `int`. -/
def Addressable (scr : Screen) : Prop :=
  (8 * scr.maxCharWidth - 1 + (16 * scr.maxCharHeight - 1) * scr.width) * scr.bpp < 2 ^ 31

/-- There is a column, and the rows but the last hold a full input line. -/
structure Suits (scr : Screen) : Prop where
  width : 1 ≤ scr.maxCharWidth
  height : 1023 ≤ (scr.maxCharHeight - 1) * scr.maxCharWidth
  bpp : 3 ≤ scr.bpp

/-! ## Sizes -/

theorem maxChar_le (scr : Screen) : 8 * scr.maxCharWidth ≤ scr.width ∧ 16 * scr.maxCharHeight ≤ scr.height := by
  unfold Screen.maxCharWidth Screen.maxCharHeight
  omega

theorem maxChar_lt (scr : Screen) : scr.maxCharWidth < 2 ^ 13 ∧ scr.maxCharHeight < 2 ^ 12 := by
  have hw := scr.width_lt
  have hh := scr.height_lt
  have hle := maxChar_le scr
  omega

theorem Suits.height_pos (hscr : Suits scr) : 2 ≤ scr.maxCharHeight := by
  by_contra hlt
  have h0 : scr.maxCharHeight - 1 = 0 := by omega
  have h := hscr.height
  rw [h0, Nat.zero_mul] at h
  omega

theorem Suits.rows (hscr : Suits scr) :
    (scr.maxCharHeight - 1) * scr.maxCharWidth + scr.maxCharWidth = scr.maxCharHeight * scr.maxCharWidth := by
  have h := hscr.height_pos
  rw [← Nat.succ_mul]
  congr 1
  omega

theorem area_lt (scr : Screen) : scr.maxCharHeight * scr.maxCharWidth < 2 ^ 32 := by
  obtain ⟨hw, hh⟩ := maxChar_lt scr
  calc scr.maxCharHeight * scr.maxCharWidth ≤ 2 ^ 12 * 2 ^ 13 := Nat.mul_le_mul hh.le hw.le
    _ < 2 ^ 32 := by decide

theorem OnScreen.index_lt (h : OnScreen scr s) : s.index scr < scr.maxCharHeight * scr.maxCharWidth := by
  have hx := h.x
  calc s.index scr < (s.y + 1) * scr.maxCharWidth := by rw [State.index, Nat.succ_mul]; omega
    _ ≤ scr.maxCharHeight * scr.maxCharWidth := Nat.mul_le_mul_right _ h.y

/-! ## Glyphs -/

theorem mem_drawCharPixels {x y : Nat} {p : Nat × Nat} (h : p ∈ drawCharPixels font c x y) :
    ∃ i < 16, ∃ j < 8, p = (dword (x + j), dword (y + i)) := by
  obtain ⟨i, hi, hp⟩ := List.mem_flatMap.mp h
  obtain ⟨j, hj, hp⟩ := List.mem_filterMap.mp hp
  split_ifs at hp
  exact ⟨i, List.mem_range.mp hi, j, List.mem_range.mp hj, (Option.some.inj hp).symm⟩

theorem inside_glyph (hscr : Suits scr) (hfit : Addressable scr) {x y i j : Nat} (hx : x < scr.maxCharWidth)
    (hy : y < scr.maxCharHeight) (hi : i < 16) (hj : j < 8) :
    Inside scr (dword (dword (x * 8) + j), dword (dword (y * 16) + i)) := by
  obtain ⟨hw, hh⟩ := maxChar_le scr
  have hwl := scr.width_lt
  have hhl := scr.height_lt
  have hpx : dword (dword (x * 8) + j) = x * 8 + j := by
    rw [dword_of_lt (by omega : x * 8 < 2 ^ 32), dword_of_lt (by omega)]
  have hpy : dword (dword (y * 16) + i) = y * 16 + i := by
    rw [dword_of_lt (by omega : y * 16 < 2 ^ 32), dword_of_lt (by omega)]
  rw [hpx, hpy]
  have hcol : x * 8 + j < scr.width := by omega
  have hrow : y * 16 + i < scr.height := by omega
  have hlast : x * 8 + j + (y * 16 + i) * scr.width ≤
      8 * scr.maxCharWidth - 1 + (16 * scr.maxCharHeight - 1) * scr.width := by
    refine Nat.add_le_add (by omega) (Nat.mul_le_mul_right _ (by omega))
  have hput : putPixel scr (x * 8 + j, y * 16 + i) = (x * 8 + j + (y * 16 + i) * scr.width) * scr.bpp :=
    sext32_of_lt (lt_of_le_of_lt (Nat.mul_le_mul_right _ hlast) hfit)
  refine ⟨hcol, hrow, hput, ?_⟩
  have hplace : x * 8 + j + (y * 16 + i) * scr.width + 1 ≤ scr.width * scr.height := by
    calc x * 8 + j + (y * 16 + i) * scr.width + 1 ≤ (y * 16 + i + 1) * scr.width := by rw [Nat.succ_mul]; omega
      _ ≤ scr.height * scr.width := Nat.mul_le_mul_right _ hrow
      _ = scr.width * scr.height := Nat.mul_comm ..
  have hbpp := hscr.bpp
  calc putPixel scr (x * 8 + j, y * 16 + i) + 3
      ≤ (x * 8 + j + (y * 16 + i) * scr.width + 1) * scr.bpp := by rw [hput, Nat.succ_mul]; omega
    _ ≤ scr.width * scr.height * scr.bpp := Nat.mul_le_mul_right _ hplace

theorem pixels_drawGlyph (hscr : Suits scr) (hfit : Addressable scr) (h : OnScreen scr s) :
    ∀ p ∈ (drawGlyph font c s).pixels, Inside scr p := by
  intro p hp
  rcases List.mem_append.mp hp with hp | hp
  · obtain ⟨i, hi, j, hj, rfl⟩ := mem_drawCharPixels hp
    exact inside_glyph hscr hfit h.x h.y hi hj
  · exact h.pixels p hp

/-! ## Moving the cursor -/

theorem setCursor_index (n : Nat) : (setCursor scr n s).index scr = n := Nat.mod_add_div' ..

/-- A cursor below the last row goes to the last row, in the same column. -/
theorem termScrollup_spec (hscr : Suits scr) (hx : s.x < scr.maxCharWidth)
    (hp : ∀ p ∈ s.pixels, Inside scr p) :
    OnScreen scr (termScrollup scr s) ∧ ((termScrollup scr s).index scr = s.index scr ∨
      (scr.maxCharHeight - 1) * scr.maxCharWidth ≤ (termScrollup scr s).index scr) := by
  unfold termScrollup
  split_ifs with hy
  · exact ⟨⟨hx, hy, hp⟩, .inl rfl⟩
  · have hpos := hscr.height_pos
    have harea := area_lt scr
    have hrows := hscr.rows
    have hlast : dword (scr.maxCharHeight + (2 ^ 32 - 1)) = scr.maxCharHeight - 1 := by
      have hlt := (maxChar_lt scr).2
      unfold dword
      omega
    simp only [hlast]
    rw [dword_of_lt (by omega)]
    refine ⟨⟨Nat.mod_lt _ hscr.width, ?_, hp⟩, .inr ?_⟩
    · show (s.x + (scr.maxCharHeight - 1) * scr.maxCharWidth) / scr.maxCharWidth < scr.maxCharHeight
      rw [Nat.add_mul_div_right _ _ hscr.width, Nat.div_eq_of_lt hx]
      omega
    · rw [setCursor_index]
      omega

/-- Drawing a character moves the cursor on, or into the last row. -/
theorem termDrawChar_spec (hscr : Suits scr) (hfit : Addressable scr) (h : OnScreen scr s) (c : UInt8) :
    OnScreen scr (termDrawChar scr font c s) ∧ (s.index scr + 1 ≤ (termDrawChar scr font c s).index scr ∨
      (scr.maxCharHeight - 1) * scr.maxCharWidth ≤ (termDrawChar scr font c s).index scr) := by
  have harea := area_lt scr
  have hindex := h.index_lt
  have hx := h.x
  have hy := h.y
  have hlt := (maxChar_lt scr).2
  unfold termDrawChar
  split_ifs with hc
  · have hrow : dword (s.y + 1) = s.y + 1 := dword_of_lt (by omega)
    obtain ⟨hon, hmove⟩ := termScrollup_spec (s := { s with x := 0, y := s.y + 1 }) hscr hscr.width h.pixels
    unfold newRow
    rw [hrow]
    refine ⟨hon, hmove.imp (fun heq => ?_) id⟩
    rw [heq]
    simp only [State.index, Nat.succ_mul]
    omega
  · have hhere : dword (s.x + s.y * scr.maxCharWidth) = s.index scr := dword_of_lt (by rw [← State.index]; omega)
    have hnext : dword (s.index scr + 1) = s.index scr + 1 := dword_of_lt (by omega)
    simp only [hhere, hnext]
    obtain ⟨hon, hmove⟩ := termScrollup_spec (s := setCursor scr (s.index scr + 1) (drawGlyph font c s)) hscr
      (Nat.mod_lt _ hscr.width) (pixels_drawGlyph hscr hfit h)
    refine ⟨hon, hmove.imp (fun heq => ?_) id⟩
    rw [heq, setCursor_index]

/-! ## Keys -/

theorem OnScreen.store (h : OnScreen scr s) (i : Nat) (b : UInt8) : OnScreen scr (s.store i b) := ⟨h.x, h.y, h.pixels⟩

/-- The cursor is on the screen, behind as many places as characters are pending. -/
structure Typed (scr : Screen) (s : State) : Prop extends OnScreen scr s where
  pending : s.indexLogs ≤ 1023
  before : s.indexLogs ≤ s.index scr

theorem Typed.termDrawChar (hscr : Suits scr) (hfit : Addressable scr) (h : OnScreen scr s) (hp : s.indexLogs ≤ 1023)
    (hbefore : s.indexLogs ≤ s.index scr + 1) (c : UInt8) : Typed scr (termDrawChar scr font c s) := by
  obtain ⟨hon, hmove⟩ : OnScreen scr (Term.termDrawChar scr font c s) ∧ _ := termDrawChar_spec hscr hfit h c
  have hline : (Term.termDrawChar scr font c s).indexLogs = s.indexLogs := (sameLine_termDrawChar c s).indexLogs
  have hheight := hscr.height
  refine ⟨hon, hline ▸ hp, ?_⟩
  rw [hline]
  rcases hmove with hmove | hmove
  · exact hbefore.trans hmove
  · exact hp.trans (hheight.trans hmove)

theorem Typed.drawGlyph (hscr : Suits scr) (hfit : Addressable scr) (h : Typed scr s) (c : UInt8) :
    Typed scr (drawGlyph font c s) :=
  ⟨⟨h.x, h.y, pixels_drawGlyph hscr hfit h.toOnScreen⟩, h.pending, h.before⟩

theorem typed_setCursor {n : Nat} (hscr : Suits scr) (hn : n < scr.maxCharHeight * scr.maxCharWidth)
    (hpix : ∀ p ∈ s.pixels, Inside scr p) (hp : s.indexLogs ≤ 1023) (hbefore : s.indexLogs ≤ n) :
    Typed scr (setCursor scr n s) := by
  have hrow : n / scr.maxCharWidth < scr.maxCharHeight := Nat.div_lt_of_lt_mul (by rwa [Nat.mul_comm])
  refine ⟨⟨Nat.mod_lt _ hscr.width, hrow, hpix⟩, hp, ?_⟩
  rw [setCursor_index]
  exact hbefore

theorem Typed.backspace (hscr : Suits scr) (hfit : Addressable scr) (h : Typed scr s) :
    Typed scr (backspace scr font s) := by
  have hp := h.pending
  have hbefore := h.before
  have hindex := h.index_lt
  have harea := area_lt scr
  unfold Term.backspace
  split_ifs with h0
  · exact h
  · have hpos : s.indexLogs - 1 ≤ s.index scr - 1 := by omega
    have hlt : s.index scr - 1 < scr.maxCharHeight * scr.maxCharWidth := by omega
    have hhere : dword (s.x + s.y * scr.maxCharWidth) = s.index scr := dword_of_lt (hindex.trans harea)
    have hprev : dword (dword (s.x + s.y * scr.maxCharWidth) + (2 ^ 32 - 1)) = s.index scr - 1 := by
      rw [hhere]
      unfold dword
      omega
    show Typed scr (Term.drawGlyph font _
      (setCursor scr (dword (dword (s.x + s.y * scr.maxCharWidth) + (2 ^ 32 - 1))) _))
    rw [hprev]
    have htyped : Typed scr (setCursor scr (s.index scr - 1)
        { s.store (s.indexLogs - 1) 0 with indexLogs := s.indexLogs - 1 }) :=
      typed_setCursor hscr hlt h.pixels ((Nat.sub_le _ _).trans hp) hpos
    exact htyped.drawGlyph hscr hfit _

theorem Typed.printable (hscr : Suits scr) (hfit : Addressable scr) (h : Typed scr s) (hp : s.indexLogs < 1023) :
    Typed scr (printable scr font key s) := by
  have hnext : dword (s.indexLogs + 1) = s.indexLogs + 1 := dword_of_lt (by omega)
  have hon : OnScreen scr ({ s.store s.indexLogs key with indexLogs := s.indexLogs + 1 }.store (s.indexLogs + 1) 0) :=
    ⟨h.x, h.y, h.pixels⟩
  unfold Term.printable
  rw [hnext]
  exact .termDrawChar hscr hfit hon hp (Nat.succ_le_succ h.before) key

theorem Suits.onScreen_home (hscr : Suits scr) {logs : Nat → UInt8} {indexLogs : Nat} {pixels : List (Nat × Nat)}
    {writes : List Nat} (h : ∀ p ∈ pixels, Inside scr p) : OnScreen scr ⟨0, 0, logs, indexLogs, pixels, writes⟩ := by
  have hpos : 0 < scr.maxCharHeight := Nat.lt_of_lt_of_le (by decide) hscr.height_pos
  exact ⟨hscr.width, hpos, h⟩

theorem onScreen_exec (hscr : Suits scr) (hfit : Addressable scr) (h : OnScreen scr s) (len : Nat)
    (output : List UInt8) : OnScreen scr (termExec scr font len output s) := by
  have hsplit : OnScreen scr (splitArgs len s) := foldl_splitStep (fun t i ht => ht.store i 0) _ h
  have hputc : ∀ t c, OnScreen scr t → OnScreen scr (termPutc scr font c t) :=
    fun t c ht => (termDrawChar_spec hscr hfit ht c).1
  unfold termExec
  simp only
  split_ifs
  · exact hscr.onScreen_home hsplit.pixels
  · exact foldl_termPutc hputc output hsplit

theorem Typed.enter (hscr : Suits scr) (hfit : Addressable scr) (h : Typed scr s) (len : Nat) (output : List UInt8) :
    Typed scr (enter scr font len output s) := by
  have hrow : OnScreen scr (Term.termDrawChar scr font 0x0A s) := (termDrawChar_spec hscr hfit h.toOnScreen 0x0A).1
  rw [Term.termDrawChar, if_pos rfl] at hrow
  have hexec : OnScreen scr (termExec scr font len output (newRow scr s)) := onScreen_exec hscr hfit hrow len output
  have hon : OnScreen scr ({ termExec scr font len output (newRow scr s) with indexLogs := 0 }.store 0 0) :=
    ⟨hexec.x, hexec.y, hexec.pixels⟩
  exact .termDrawChar hscr hfit hon (Nat.zero_le _) (Nat.zero_le _) 0x3E

/-! ## Runs -/

/-- A character is typed only while at most 1023 will be pending. -/
def Room (s : State) : Event → Prop
  | .key key _ => Printable key → s.indexLogs < 1023
  | _ => True

theorem Typed.step (hscr : Suits scr) (hfit : Addressable scr) (h : Typed scr s) (he : Room s e)
    (hs : Step scr font s e t) : Typed scr t := by
  cases hs with
  | key =>
      unfold termRunKey
      split_ifs with h1 h2 h3 h4
      · exact h
      · exact h.backspace hscr hfit
      · exact h.enter hscr hfit _ _
      · exact h.printable hscr hfit (he h4)
      · exact h
  | putc => exact .termDrawChar hscr hfit h.toOnScreen h.pending (h.before.trans (Nat.le_succ _)) _
  | other => exact ⟨⟨h.x, h.y, h.pixels⟩, h.pending, h.before⟩

/-- On a screen whose pixels can be addressed, the cursor stays on the screen, and so do the glyphs. -/
theorem onScreen_run {logs : Nat → UInt8} (hscr : Suits scr) (hfit : Addressable scr)
    (hs : Reaches (Guarded Room (Step scr font)) (termStart scr font logs) s) :
    s.x < scr.maxCharWidth ∧ s.y < scr.maxCharHeight ∧ ∀ p ∈ s.pixels, Inside scr p := by
  have hinit : OnScreen scr (State.init logs) := hscr.onScreen_home fun _ hp => nomatch hp
  have hstart : Typed scr (termStart scr font logs) := .termDrawChar hscr hfit hinit (Nat.zero_le _) (Nat.zero_le _) _
  have h : Typed scr s := hs.invariant (fun _ _ _ ht hl => ht.step hscr hfit hl.1 hl.2) hstart
  exact ⟨h.x, h.y, h.pixels⟩

theorem suits_smallScreen : Suits smallScreen := ⟨by decide, by decide, by decide⟩

theorem reaches_putc (text : List UInt8) : Reaches (Guarded Room (Step scr font)) s
    (text.foldl (fun s c => termPutc scr font c s) s) := by
  refine foldl_termPutc (fun t c h => ?_) text (.refl s)
  have hstep : Guarded Room (Step scr font) t (.putc c) (termPutc scr font c t) := ⟨trivial, .putc⟩
  exact h.snoc hstep

theorem onScreen_run_smallScreen :
    let s := [0x48, 0x49, 0x0A].foldl (fun s c => termPutc smallScreen barFont c s)
      (termStart smallScreen barFont fun _ => 0)
    s.x < smallScreen.maxCharWidth ∧ s.y < smallScreen.maxCharHeight ∧ ∀ p ∈ s.pixels, Inside smallScreen p :=
  onScreen_run suits_smallScreen (by unfold Addressable; decide) (reaches_putc _)

/-- A screen of more than 2^31 bytes. -/
def wideScreen : Screen := ⟨65535, 16384, 4, by decide, by decide⟩

/-- Some rows further down, the offset of a pixel is negative. -/
def wideState : State :=
  (List.replicate 513 (0x0A : UInt8) ++ [0x41]).foldl (fun s c => termPutc wideScreen barFont c s)
    (termStart wideScreen barFont fun _ => 0)

theorem not_onScreen_wideScreen : Suits wideScreen ∧
    Reaches (Guarded Room (Step wideScreen barFont)) (termStart wideScreen barFont fun _ => 0) wideState ∧
    ¬ ∀ p ∈ wideState.pixels, Inside wideScreen p := by
  refine ⟨⟨by decide, by decide, by decide⟩, reaches_putc _, fun h => ?_⟩
  have hmem : (0, 8208) ∈ wideState.pixels := by decide +kernel
  have hend := (h _ hmem).2.2.2
  revert hend
  decide +kernel

end HaOS.Term
