import HaOS.Types
import HaOS.Lib.Bytes
import HaOS.Lib.Run
import Mathlib.Logic.Function.Basic

/-!
# The terminal (`kernel/term.c`, `kernel/driver/video_driver.c`)

The state is the cursor, the memory from `logs` on, and what has been written so far: the pixels of the glyphs, and the
indices of `logs`. Contents of the framebuffer are left out.

* `putPixel`, `drawCharPixels` : where a glyph is drawn;
* `termScrollup`, `termDrawChar`, `termExec`, `termRunKey` : the functions of `term.c`;
* `Step` : a key, a character from any task, or a change of the memory behind the 1024 bytes of `logs`.
-/

namespace HaOS.Term
open Lib (slice)

/-- `video_width`, `video_height`, `video_bpp`. -/
structure Screen where
  width : Nat
  height : Nat
  bpp : Nat
  width_lt : width < 2 ^ 16
  height_lt : height < 2 ^ 16

def Screen.maxCharWidth (scr : Screen) : Nat := scr.width / 8

def Screen.maxCharHeight (scr : Screen) : Nat := scr.height / 16

structure State where
  /-- `ttext_cursor` -/
  x : Nat
  y : Nat
  logs : Nat → UInt8
  indexLogs : Nat
  /-- the pixels that glyphs were drawn at, the last first -/
  pixels : List (Nat × Nat)
  /-- the indices at which `logs` was written, the last first -/
  writes : List Nat

/-- The memory `new_alloc` returns for `logs` may hold anything. -/
def State.init (logs : Nat → UInt8) : State := ⟨0, 0, logs, 0, [], []⟩

def State.store (s : State) (i : Nat) (b : UInt8) : State :=
  { s with logs := Function.update s.logs i b, writes := i :: s.writes }

/-! ## Drawing -/

/-- `video_driver_putPixel`: the offset of its three bytes from `framebuffer`. The product is an `int`. -/
def putPixel (scr : Screen) (p : Nat × Nat) : Nat := sext32 ((p.1 + p.2 * scr.width) * scr.bpp)

/-- `video_driver_drawChar`: the pixels it sets. `font c i` is row `i` of the bitmap of `c`. -/
def drawCharPixels (font : UInt8 → Nat → UInt8) (c : UInt8) (x y : Nat) : List (Nat × Nat) :=
  (List.range 16).flatMap fun i => (List.range 8).filterMap fun j =>
    if (font c i).toNat / 2 ^ (7 - j) % 2 = 1 then some (dword (x + j), dword (y + i)) else none

variable (scr : Screen) (font : UInt8 → Nat → UInt8)

def drawGlyph (c : UInt8) (s : State) : State :=
  { s with pixels := drawCharPixels font c (dword (s.x * 8)) (dword (s.y * 16)) ++ s.pixels }

def setCursor (index : Nat) (s : State) : State :=
  { s with x := index % scr.maxCharWidth, y := index / scr.maxCharWidth }

/-- `term_scrollup`, without the copying of the rows. -/
def termScrollup (s : State) : State :=
  if s.y < scr.maxCharHeight then s
  else
    let y := dword (scr.maxCharHeight + (2 ^ 32 - 1))
    setCursor scr (dword (s.x + y * scr.maxCharWidth)) s

def newRow (s : State) : State := termScrollup scr { s with x := 0, y := dword (s.y + 1) }

def termDrawChar (c : UInt8) (s : State) : State :=
  if c = 0x0A then newRow scr s
  else
    let index := dword (s.x + s.y * scr.maxCharWidth)
    let s := drawGlyph font c s
    termScrollup scr (setCursor scr (dword (index + 1)) s)

def termPutc (c : UInt8) (s : State) : State := termDrawChar scr font c s

/-! ## Keys -/

/-- The splitting loop of `term_exec`, at an index, -/
def splitStep (s : State) (i : Nat) : State := if s.logs i = 0x20 ∨ s.logs i = 0 then s.store i 0 else s

/-- and for a `cmd` of length `len`. -/
def splitArgs (len : Nat) (s : State) : State := (List.range (len + 1)).foldl splitStep s

/-- `"CLEAR"`. -/
def clearCommand : List UInt8 := [0x43, 0x4C, 0x45, 0x41, 0x52, 0]

/-- `term_exec`: every command but `CLEAR` moves the cursor only by the characters it prints, `output`. -/
def termExec (len : Nat) (output : List UInt8) (s : State) : State :=
  let s := splitArgs len s
  if slice s.logs 0 6 = clearCommand then { s with x := 0, y := 0 }
  else output.foldl (fun s c => termPutc scr font c s) s

def backspace (s : State) : State :=
  if s.indexLogs = 0 then s
  else
    let c := s.logs (s.indexLogs - 1)
    let s := { s.store (s.indexLogs - 1) 0 with indexLogs := s.indexLogs - 1 }
    let index := dword (s.x + s.y * scr.maxCharWidth)
    drawGlyph font c (setCursor scr (dword (index + (2 ^ 32 - 1))) s)

def enter (len : Nat) (output : List UInt8) (s : State) : State :=
  let s := termExec scr font len output (newRow scr s)
  termDrawChar scr font 0x3E ({ s with indexLogs := 0 }.store 0 0)

def Printable (key : UInt8) : Prop := 0x20 ≤ key ∧ key < 127

instance (key : UInt8) : Decidable (Printable key) := inferInstanceAs (Decidable (_ ∧ _))

def printable (key : UInt8) (s : State) : State :=
  let s := { s.store s.indexLogs key with indexLogs := dword (s.indexLogs + 1) }
  termDrawChar scr font key (s.store s.indexLogs 0)

/-- One pass of the loop of `term_run`; `len` is the size of the string at `logs`. -/
def termRunKey (key : UInt8) (len : Nat) (output : List UInt8) (s : State) : State :=
  if key = 0 then s
  else if key = 0x08 then backspace scr font s
  else if key = 0x0A then enter scr font len output s
  else if Printable key then printable scr font key s
  else s

/-- `term_init`, and `term_run` up to its loop. -/
def termStart (logs : Nat → UInt8) : State := termDrawChar scr font 0x3E (State.init logs)

inductive Event where
  | key (key : UInt8) (output : List UInt8)
  | putc (c : UInt8)
  | other

/-- An event. What the newline of a line with 64 spaces or more stores behind `args` is left out. -/
inductive Step : State → Event → State → Prop
  | key {s : State} {key : UInt8} {output : List UInt8} {len : Nat} :
      (key = 0x0A → s.logs len = 0 ∧ ∀ i < len, s.logs i ≠ 0) →
      Step s (.key key output) (termRunKey scr font key len output s)
  | putc {s : State} {c : UInt8} : Step s (.putc c) (termPutc scr font c s)
  | other {s : State} {logs : Nat → UInt8} : (∀ i < 1024, logs i = s.logs i) → Step s .other { s with logs := logs }

/-- An ordinary screen, and a font with one pixel in every row of a glyph. -/
def smallScreen : Screen := ⟨1024, 768, 4, by decide, by decide⟩

def barFont (_ : UInt8) (_ : Nat) : UInt8 := 0x80

variable {scr font} {s : State} {c : UInt8}

/-! ## What moving the cursor leaves alone -/

structure SameLine (s t : State) : Prop where
  logs : t.logs = s.logs
  indexLogs : t.indexLogs = s.indexLogs
  writes : t.writes = s.writes

theorem SameLine.refl (s : State) : SameLine s s := ⟨rfl, rfl, rfl⟩

theorem sameLine_setCursor (n : Nat) (s : State) : SameLine s (setCursor scr n s) := ⟨rfl, rfl, rfl⟩

theorem sameLine_termScrollup (s : State) : SameLine s (termScrollup scr s) := by
  unfold termScrollup
  split_ifs
  · exact .refl s
  · exact sameLine_setCursor _ s

theorem sameLine_newRow (s : State) : SameLine s (newRow scr s) := by
  have h : SameLine { s with x := 0, y := dword (s.y + 1) } (newRow scr s) := sameLine_termScrollup _
  exact ⟨h.logs, h.indexLogs, h.writes⟩

theorem sameLine_termDrawChar (c : UInt8) (s : State) : SameLine s (termDrawChar scr font c s) := by
  unfold termDrawChar
  split_ifs
  · exact sameLine_newRow s
  · have h : SameLine (setCursor scr (dword (dword (s.x + s.y * scr.maxCharWidth) + 1)) (drawGlyph font c s)) _ :=
      @sameLine_termScrollup scr _
    exact ⟨h.logs, h.indexLogs, h.writes⟩

theorem foldl_termPutc {P : State → Prop} (hstep : ∀ s c, P s → P (termPutc scr font c s)) (output : List UInt8)
    (h : P s) : P (output.foldl (fun s c => termPutc scr font c s) s) := by
  induction output generalizing s with
  | nil => exact h
  | cons c output ih => exact ih (hstep s c h)

theorem foldl_splitStep {P : State → Prop} (hstep : ∀ s i, P s → P (s.store i 0)) (l : List Nat) (h : P s) :
    P (l.foldl splitStep s) := by
  induction l generalizing s with
  | nil => exact h
  | cons i l ih =>
      rw [List.foldl_cons]
      apply ih
      unfold splitStep
      split_ifs
      · exact hstep s i h
      · exact h

end HaOS.Term
