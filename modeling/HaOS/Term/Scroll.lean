import HaOS.Term.Copy
import HaOS.Term.Screen

/-!
# The rows that `term_scrollup` copies

* `Display` : a screen of whole character cells, with its framebuffer;
* `Scroll.termScrollup` : the text rows copied one after another, and the last one cleared;
* `Scrolled` : every pixel row holds what was sixteen rows further down, or zeros, and nothing else was written;
* `shifted` : the bytes after a scroll by a number of bytes; `termScrollup_shifted` : what the code leaves,
  `scrolled_iff` : what it should leave;
* `scrolls_iff` : when both are the same.
-/

namespace HaOS.Term

open Lib (Buffer slice)

/-- A screen whose size is a multiple of that of the characters, with three or four bytes a pixel. -/
structure Display extends Screen where
  framebuffer : Nat
  columns : 8 ∣ width
  rows : 16 ∣ height
  pixel : bpp = 3 ∨ bpp = 4
  inMemory : framebuffer + width * height * bpp ≤ 2 ^ 64

namespace Scroll

/-- A product of two `int`s, which has to be an `int`. -/
def mulInt (a b : Nat) : Option Nat := if a * b < 2 ^ 31 then some (a * b) else none

/-- `for( int i = 0; i < max_char_height - 1; i++ )`, with the rounds that are left. `slot` is what the stack of `memcopy`
holds at each of them. -/
def copyRows (framebuffer size : Nat) (slot : Nat → Nat) : Nat → Nat → Buffer UInt8 → Option (Buffer UInt8)
  | 0, _, m => some m
  | left + 1, i, m => do
    let src ← mulInt size (i + 1)
    let dest ← mulInt size i
    let m ← memcopy (slot i) (framebuffer + dest) (framebuffer + src) size m
    copyRows framebuffer size slot left (i + 1) m

/-- There is no result when the division by `max_char_width` fails. -/
def termScrollup (d : Display) (slot : Nat → Nat) (s : State) (m : Buffer UInt8) : Option (State × Buffer UInt8) := do
  if s.y < d.maxCharHeight then some (s, m)
  else
    let size := d.width * 16 * 3
    let rows := dword (d.maxCharHeight + (2 ^ 32 - 1))
    let m ← copyRows d.framebuffer size slot rows 0 m
    let m := memzero (d.framebuffer + dword (size * rows)) size m
    if d.maxCharWidth = 0 then none else some (Term.termScrollup d.toScreen s, m)

end Scroll

open Scroll

variable {d : Display} {slot : Nat → Nat} {s : State} {m m' : Buffer UInt8} {size n i left fb k : Nat}

def Display.row (d : Display) (m : Buffer UInt8) (r : Nat) : List UInt8 :=
  slice m.get (d.framebuffer + r * (d.width * d.bpp)) (d.width * d.bpp)

def Display.bytes (d : Display) : Nat := d.height * (d.width * d.bpp)

structure Scrolled (d : Display) (m m' : Buffer UInt8) : Prop where
  moved : ∀ r < d.height - 16, d.row m' r = d.row m (r + 16)
  cleared : ∀ r, d.height - 16 ≤ r → r < d.height → d.row m' r = List.replicate (d.width * d.bpp) 0
  inside : Buffer.Writes (fun a => d.framebuffer ≤ a ∧ a < d.framebuffer + d.bytes) m m'

/-- The call returns, and has scrolled the framebuffer. -/
def Scrolls (d : Display) (slot : Nat → Nat) (s : State) (m : Buffer UInt8) : Prop :=
  ∃ t m', Scroll.termScrollup d slot s m = some (t, m') ∧ Scrolled d m m'

/-- The bytes `f`, scrolled up by one of `n` rows of `size` bytes each. -/
def shifted (size n : Nat) (f : Nat → UInt8) (k : Nat) : UInt8 :=
  if k < size * (n - 1) then f (k + size) else if k < size * n then 0 else f k

/-! ## The copies -/

/-- The rows from `i` on have moved up by one, and nothing else was written. -/
structure Moved (m m' : Buffer UInt8) (fb size i left : Nat) : Prop where
  bytes : ∀ k, size * i ≤ k → k < size * (i + left) → m'.get (fb + k) = m.get (fb + (k + size))
  writes : Buffer.Writes (fun a => fb + size * i ≤ a ∧ a < fb + size * (i + left)) m m'

theorem copyRows_succ {m₁ : Buffer UInt8} (hsrc : size * (i + 1) < 2 ^ 31) (hdest : size * i < 2 ^ 31)
    (hm₁ : memcopy (slot i) (fb + size * i) (fb + size * (i + 1)) size m = some m₁) :
    copyRows fb size slot (left + 1) i m = copyRows fb size slot left (i + 1) m₁ := by
  rw [copyRows, mulInt, if_pos hsrc, mulInt, if_pos hdest, Option.bind_eq_bind, Option.bind_some, Option.bind_eq_bind,
    Option.bind_some, hm₁, Option.bind_some]

theorem copyRows_moved (slot : Nat → Nat) (m : Buffer UInt8) (fb size i left : Nat) (hsize : size < 2 ^ 31)
    (hint : size * (i + left) < 2 ^ 31) (hfb : fb + size * (i + left + 1) ≤ 2 ^ 64) :
    ∃ m', copyRows fb size slot left i m = some m' ∧ Moved m m' fb size i left := by
  induction left generalizing i m with
  | zero => exact ⟨m, rfl, fun k hk hlt => absurd hlt (Nat.not_lt.mpr hk), Buffer.Writes.refl _ m⟩
  | succ left ih =>
      have hi : size * (i + 1) = size * i + size := Nat.mul_succ size i
      have hi2 : size * (i + 2) = size * i + size + size := by rw [Nat.mul_succ, hi]
      have hle : size * (i + 1) ≤ size * (i + (left + 1)) := Nat.mul_le_mul_left size (by omega)
      have hle2 : size * (i + 2) ≤ size * (i + (left + 1) + 1) := Nat.mul_le_mul_left size (by omega)
      obtain ⟨m₁, hm₁, hcopied⟩ := memcopy_copied m (slot i) (fb + size * i) (fb + size * (i + 1)) size
        (by omega) (by omega) (by omega) (.inl (by omega))
      have heq : i + 1 + left = i + (left + 1) := by omega
      obtain ⟨m', hm', hmoved⟩ := ih m₁ (i + 1) (by rwa [heq]) (by rwa [heq])
      refine ⟨m', ?_, fun k hk hlt => ?_, ?_⟩
      · rw [copyRows_succ (by omega) (by omega) hm₁, hm']
      · rcases Nat.lt_or_ge k (size * (i + 1)) with hk' | hk'
        · -- the first row, which the later copies leave alone
          have hbyte := hcopied.bytes (k - size * i) (Nat.zero_le _) (by omega)
          rw [hmoved.writes.get (by omega), show fb + k = fb + size * i + (k - size * i) by omega, hbyte]
          congr 1
          omega
        · rw [hmoved.bytes k hk' (by rwa [heq]), hcopied.writes.get (by omega)]
      · apply Buffer.Writes.trans (hcopied.writes.mono fun a ha => by omega)
        have hrest := hmoved.writes
        rw [heq] at hrest
        exact hrest.mono fun a ha => by omega

theorem copyRows_none (hleft : 0 < left) (hint : 2 ^ 31 ≤ size * (i + left)) : copyRows fb size slot left i m = none := by
  induction left generalizing i m with
  | zero => exact absurd hleft (Nat.lt_irrefl 0)
  | succ left ih =>
      rw [copyRows]
      rcases Nat.eq_zero_or_pos left with rfl | hpos
      · rw [mulInt, if_neg (Nat.not_lt.mpr hint)]
        rfl
      · simp only [Option.bind_eq_bind, Option.bind_eq_none_iff]
        intro _ _ _ _ m₁ _
        exact ih hpos (by rwa [show i + 1 + left = i + (left + 1) by omega])

/-! ## The call -/

def Display.at (d : Display) (m : Buffer UInt8) (k : Nat) : UInt8 := m.get (d.framebuffer + k)

/-- There are characters, and the offset of the last text row is an `int`. -/
structure Sized (d : Display) : Prop where
  width : 0 < d.width
  height : 0 < d.height
  offset : d.width * 16 * 3 * (d.maxCharHeight - 1) < 2 ^ 31

theorem Display.height_eq (d : Display) : d.height = 16 * d.maxCharHeight := (Nat.mul_div_cancel' d.rows).symm

theorem Display.bytes_eq (d : Display) : d.bytes = 16 * (d.width * d.bpp) * d.maxCharHeight := by
  rw [Display.bytes, d.height_eq]
  ring

theorem Display.rows_le (d : Display) :
    d.width * 16 * 3 * d.maxCharHeight ≤ d.bytes ∧ d.framebuffer + d.bytes ≤ 2 ^ 64 := by
  have hbpp : 3 ≤ d.bpp := by
    rcases d.pixel with h | h
    · omega
    · omega
  refine ⟨?_, ?_⟩
  · rw [d.bytes_eq]
    apply Nat.mul_le_mul_right
    calc d.width * 16 * 3 = 16 * (d.width * 3) := by ring
      _ ≤ 16 * (d.width * d.bpp) := Nat.mul_le_mul_left _ (Nat.mul_le_mul_left _ hbpp)
  · have h := d.inMemory
    rwa [show d.width * d.height * d.bpp = d.bytes by rw [Display.bytes]; ring] at h

theorem size_lt (d : Display) : d.width * 16 * 3 < 2 ^ 31 := by
  have := d.width_lt
  omega

theorem termScrollup_shifted (slot : Nat → Nat) (hs : d.maxCharHeight ≤ s.y) (h : Sized d) (m : Buffer UInt8) :
    ∃ t m', Scroll.termScrollup d slot s m = some (t, m') ∧
      (∀ k, d.at m' k = shifted (d.width * 16 * 3) d.maxCharHeight (d.at m) k) ∧
      Buffer.Writes (fun a => d.framebuffer ≤ a ∧ a < d.framebuffer + d.bytes) m m' := by
  obtain ⟨size, hsize⟩ : ∃ size, size = d.width * 16 * 3 := ⟨_, rfl⟩
  obtain ⟨n, hn⟩ : ∃ n, d.maxCharHeight = n + 1 := by
    have := h.height
    have := d.height_eq
    exact Nat.exists_eq_add_one_of_ne_zero (by omega)
  have hcols : d.maxCharWidth ≠ 0 := by
    have := h.width
    have := Nat.mul_div_cancel' d.columns
    unfold Screen.maxCharWidth
    omega
  have hlt := size_lt d
  have hoff := h.offset
  obtain ⟨hrows, hfb⟩ := d.rows_le
  have hh := maxChar_lt d.toScreen
  have hcount : dword (d.maxCharHeight + (2 ^ 32 - 1)) = n := by
    unfold dword
    omega
  rw [← hsize, hn, Nat.add_sub_cancel] at hoff
  rw [← hsize, hn] at hrows
  rw [← hsize] at hlt
  have hlast : size * (n + 1) = size * n + size := Nat.mul_succ size n
  obtain ⟨m₁, hm₁, hmoved⟩ := copyRows_moved slot m d.framebuffer size 0 n hlt
    (by rwa [Nat.zero_add]) (by rw [Nat.zero_add]; omega)
  have hbytes := hmoved.bytes
  have hwrites := hmoved.writes
  rw [Nat.mul_zero, Nat.zero_add] at hbytes
  rw [Nat.mul_zero, Nat.zero_add, Nat.add_zero] at hwrites
  have hdest : dword (size * n) = size * n := dword_of_lt (by omega)
  obtain ⟨hzero, hclear⟩ := memzero_cleared m₁ (show d.framebuffer + size * n + size ≤ 2 ^ 64 by omega)
  refine ⟨Term.termScrollup d.toScreen s, memzero (d.framebuffer + size * n) size m₁, ?_, fun k => ?_, ?_⟩
  · rw [Scroll.termScrollup, if_neg (Nat.not_lt.mpr hs)]
    simp only [hcount, ← hsize, hm₁, Option.bind_eq_bind, Option.bind_some, hdest, if_neg hcols]
  · rw [shifted, hn, Nat.add_sub_cancel, ← hsize, Display.at]
    split_ifs with hk hk'
    · rw [hclear.get (by omega), hbytes k (Nat.zero_le k) hk]
      rfl
    · have hbyte := hzero (k - size * n) (by omega)
      rwa [show d.framebuffer + size * n + (k - size * n) = d.framebuffer + k by omega] at hbyte
    · rw [hclear.get (by omega), hwrites.get (by omega)]
      rfl
  · exact (hwrites.mono fun a ha => by omega).trans (hclear.mono fun a ha => by omega)

/-- Without characters, or with offsets that are no `int`, the call has no result. -/
theorem termScrollup_none (hs : d.maxCharHeight ≤ s.y) (h : ¬ Sized d) (m : Buffer UInt8) :
    Scroll.termScrollup d slot s m = none := by
  rw [Scroll.termScrollup, if_neg (Nat.not_lt.mpr hs)]
  by_cases hw : 0 < d.width
  · have hh := maxChar_lt d.toScreen
    have hsize : 384 ≤ d.width * 16 * 3 := by
      have := Nat.le_of_dvd hw d.columns
      omega
    have hrows : copyRows d.framebuffer (d.width * 16 * 3) slot (dword (d.maxCharHeight + (2 ^ 32 - 1))) 0 m = none := by
      rcases Nat.eq_zero_or_pos d.maxCharHeight with hzero | hpos
      · rw [hzero, show dword (0 + (2 ^ 32 - 1)) = 2 ^ 32 - 1 from rfl]
        exact copyRows_none (by decide) (by omega)
      · have hcount : dword (d.maxCharHeight + (2 ^ 32 - 1)) = d.maxCharHeight - 1 := by
          unfold dword
          omega
        have hoff : 2 ^ 31 ≤ d.width * 16 * 3 * (d.maxCharHeight - 1) := by
          by_contra hlt
          exact h ⟨hw, by rw [d.height_eq]; omega, by omega⟩
        rw [hcount]
        apply copyRows_none
        · by_contra hzero
          rw [Nat.eq_zero_of_not_pos hzero, Nat.mul_zero] at hoff
          exact absurd hoff (by decide)
        · rwa [Nat.zero_add]
    dsimp only
    rw [hrows]
    rfl
  · have hcols : d.maxCharWidth = 0 := by
      unfold Screen.maxCharWidth
      omega
    simp only [hcols, if_true, Option.bind_eq_bind, Option.bind_fun_none]

/-! ## What a scroll should leave -/

theorem slice_eq_replicate {f : Nat → UInt8} {p n : Nat} : slice f p n = List.replicate n 0 ↔ ∀ i < n, f (p + i) = 0 := by
  have hzero : List.replicate n (0 : UInt8) = slice (fun _ => 0) 0 n := by
    simp only [slice, List.map_const', List.length_range]
  rw [hzero, Lib.slice_eq_iff]

theorem place_lt_iff {R r x q : Nat} (hx : x < R) : r * R + x < q * R ↔ r < q := by
  constructor
  · intro h
    by_contra hle
    have := Nat.mul_le_mul_right R (Nat.not_lt.mp hle)
    omega
  · intro h
    calc r * R + x < (r + 1) * R := by rw [Nat.succ_mul]; omega
      _ ≤ q * R := Nat.mul_le_mul_right R h

theorem forall_places {R q : Nat} {P : Nat → Prop} : (∀ k < q * R, P k) ↔ ∀ r < q, ∀ x < R, P (r * R + x) := by
  constructor
  · exact fun h r hr x hx => h _ ((place_lt_iff hx).mpr hr)
  · intro h k hk
    have hpos : 0 < R := by
      by_contra h0
      rw [Nat.eq_zero_of_not_pos h0, Nat.mul_zero] at hk
      exact absurd hk (Nat.not_lt_zero k)
    rw [← Nat.div_add_mod' k R] at hk ⊢
    have hx := Nat.mod_lt k hpos
    exact h _ ((place_lt_iff hx).mp hk) _ hx

theorem shifted_row {R r x : Nat} (f : Nat → UInt8) (n : Nat) (hx : x < R) :
    shifted (16 * R) n f (r * R + x) =
      if r < 16 * (n - 1) then f ((r + 16) * R + x) else if r < 16 * n then 0 else f (r * R + x) := by
  have hq : ∀ q, 16 * R * q = 16 * q * R := fun q => by ring
  have hbehind : r * R + x + 16 * R = (r + 16) * R + x := by ring
  simp only [shifted, hq, place_lt_iff hx, hbehind]

/-- The rows hold what they should when the bytes are those of a scroll by sixteen pixel rows. -/
theorem rows_iff (d : Display) (m m' : Buffer UInt8) :
    ((∀ r < d.height - 16, d.row m' r = d.row m (r + 16)) ∧
      ∀ r, d.height - 16 ≤ r → r < d.height → d.row m' r = List.replicate (d.width * d.bpp) 0) ↔
      ∀ k < d.bytes, d.at m' k = shifted (16 * (d.width * d.bpp)) d.maxCharHeight (d.at m) k := by
  have hheight := d.height_eq
  simp only [Display.row, slice_eq_replicate, Lib.slice_eq_iff, Display.bytes, Nat.add_assoc]
  generalize d.width * d.bpp = R
  rw [forall_places]
  constructor
  · intro h r hr x hx
    obtain ⟨hmoved, hcleared⟩ := h
    rw [shifted_row _ _ hx]
    split_ifs with hlast hrow
    · exact hmoved r (by omega) x hx
    · exact hcleared r (by omega) hr x hx
    · omega
  · intro h
    refine ⟨fun r hr x hx => ?_, fun r hlast hr x hx => ?_⟩
    · have hrow := h r (by omega) x hx
      rwa [shifted_row _ _ hx, if_pos (by omega)] at hrow
    · have hrow := h r hr x hx
      rwa [shifted_row _ _ hx, if_neg (by omega), if_pos (by omega)] at hrow

/-! ## When they agree -/

def Display.lastByte (d : Display) : Buffer UInt8 := ⟨fun a => if a = d.framebuffer + (d.bytes - 1) then 1 else 0, []⟩

theorem scrolls_content_iff (hs : d.maxCharHeight ≤ s.y) (m : Buffer UInt8) : Scrolls d slot s m ↔
    Sized d ∧ ∀ k < d.bytes, shifted (48 * d.width) d.maxCharHeight (d.at m) k =
      shifted (16 * (d.width * d.bpp)) d.maxCharHeight (d.at m) k := by
  have hsize : d.width * 16 * 3 = 48 * d.width := by ring
  by_cases h : Sized d
  · obtain ⟨t, m', hcall, hbytes, hwrites⟩ := termScrollup_shifted slot hs h m
    rw [hsize] at hbytes
    simp only [← hbytes, ← rows_iff, h, true_and]
    constructor
    · intro hscrolls
      obtain ⟨t', m₂, hcall', hrows⟩ := hscrolls
      cases hcall.symm.trans hcall'
      exact ⟨hrows.moved, hrows.cleared⟩
    · intro hrows
      exact ⟨t, m', hcall, hrows.1, hrows.2, hwrites⟩
  · refine iff_of_false (fun hscrolls => ?_) fun hsized => h hsized.1
    obtain ⟨t, m', hcall, -⟩ := hscrolls
    rw [termScrollup_none hs h m] at hcall
    cases hcall

/-- With four bytes a pixel the last byte of the framebuffer stays. -/
theorem shifted_lastByte (h : Sized d) (hbpp : d.bpp = 4) :
    shifted (48 * d.width) d.maxCharHeight (d.at d.lastByte) (d.bytes - 1) ≠
      shifted (16 * (d.width * d.bpp)) d.maxCharHeight (d.at d.lastByte) (d.bytes - 1) := by
  have hw := h.width
  have hn : 0 < d.maxCharHeight := by
    have := h.height
    have := d.height_eq
    omega
  have hpos : 0 < d.width * d.maxCharHeight := Nat.mul_pos hw hn
  have hbytes : d.bytes = 64 * (d.width * d.maxCharHeight) := by
    rw [d.bytes_eq, hbpp]
    ring
  have hrows : 48 * d.width * d.maxCharHeight = 48 * (d.width * d.maxCharHeight) := by ring
  have hrows' : 16 * (d.width * d.bpp) * d.maxCharHeight = d.bytes := d.bytes_eq.symm
  have hless : 48 * d.width * (d.maxCharHeight - 1) ≤ 48 * d.width * d.maxCharHeight :=
    Nat.mul_le_mul_left _ (Nat.sub_le _ _)
  have hless' : 16 * (d.width * d.bpp) * (d.maxCharHeight - 1) + 16 * (d.width * d.bpp) = d.bytes := by
    rw [← Nat.mul_succ, Nat.succ_eq_add_one, Nat.sub_add_cancel hn, hrows']
  have hrow : 0 < 16 * (d.width * d.bpp) := by
    rw [hbpp]
    omega
  rw [shifted, if_neg (by omega), if_neg (by omega), shifted, if_neg (by omega), if_pos (by omega), Display.at,
    Display.lastByte]
  simp

theorem bytes_pos (h : Sized d) : 0 < d.bytes := by
  have hw := h.width
  have hn : 0 < d.maxCharHeight := by
    have := h.height
    have := d.height_eq
    omega
  exact lt_of_lt_of_le (Nat.mul_pos (by omega) hn) d.rows_le.1

/-- Once the cursor is behind the last text row, the framebuffer is scrolled as it should be exactly when there are
characters, the offset of the last text row is an `int`, and a scroll by rows of 48 bytes for each pixel of the width is one
by sixteen pixel rows: for every content only with three bytes a pixel. -/
theorem scrolls_iff (d : Display) (slot : Nat → Nat) (s : State) (hs : d.maxCharHeight ≤ s.y) :
    (∀ m, Scrolls d slot s m ↔ Sized d ∧ ∀ k < d.bytes, shifted (48 * d.width) d.maxCharHeight (d.at m) k =
      shifted (16 * (d.width * d.bpp)) d.maxCharHeight (d.at m) k) ∧
    ((∀ m, Scrolls d slot s m) ↔ Sized d ∧ d.bpp = 3) := by
  refine ⟨scrolls_content_iff hs, fun h => ?_, fun h m => ?_⟩
  · obtain ⟨hsized, hbytes⟩ := (scrolls_content_iff hs _).mp (h d.lastByte)
    refine ⟨hsized, d.pixel.resolve_right fun hbpp => ?_⟩
    exact shifted_lastByte hsized hbpp (hbytes _ (Nat.sub_one_lt (Nat.ne_of_gt (bytes_pos hsized))))
  · obtain ⟨hsized, hbpp⟩ := h
    rw [scrolls_content_iff hs, hbpp, show 16 * (d.width * 3) = 48 * d.width by ring]
    exact ⟨hsized, fun _ _ => rfl⟩

def smallDisplay (bpp : Nat) (h : bpp = 3 ∨ bpp = 4) : Display where
  width := 16
  height := 32
  bpp := bpp
  width_lt := by decide
  height_lt := by decide
  framebuffer := 0xE0000000
  columns := by decide
  rows := by decide
  pixel := h
  inMemory := by omega

def behindLast : State := { State.init fun _ => 0 with y := 2 }

theorem scrolls_iff_small :
    (∀ m, Scrolls (smallDisplay 3 (.inl rfl)) (fun _ => 0) behindLast m) ↔
      Sized (smallDisplay 3 (.inl rfl)) ∧ (smallDisplay 3 (.inl rfl)).bpp = 3 :=
  (scrolls_iff (smallDisplay 3 (.inl rfl)) (fun _ => 0) behindLast (by decide)).2

/-- With four bytes a pixel, as the UEFI loader sets, the last byte of the screen is not cleared. -/
theorem not_scrolls_four :
    ¬ Scrolls (smallDisplay 4 (.inr rfl)) (fun _ => 0) behindLast (smallDisplay 4 (.inr rfl)).lastByte := by
  rw [scrolls_content_iff (by decide)]
  intro h
  exact shifted_lastByte h.1 rfl (h.2 _ (Nat.sub_one_lt (Nat.ne_of_gt (bytes_pos h.1))))

end HaOS.Term
