import Mathlib.Order.Basic
import HaOS.Paging.Frames

/-!
# Mapping and unmapping (`kernel/page.c`)

* `rootEntry`, `tableEntry`, `tablesFor` : the tables on the way to a page, created where an entry is not present, as
  the three mapping functions do it alike;
* `mapvPage`, `mapvpPage`, `umapvPage` : the bodies of the loops over the pages; `forPages` : the loops;
* `pageMapv`, `pageMapvp`, `pageUmapv`, `pageAlloc4K`.
-/

namespace HaOS.Paging

def index (x shift : Nat) : Index := Fin.ofNat 512 (x >>> shift &&& (pageEntries - 1))

def pmlt4Index (x : Nat) : Index := index x 39

def pdptIndex (x : Nat) : Index := index x 30

def pdtIndex (x : Nat) : Index := index x 21

def ptIndex (x : Nat) : Index := index x 12

/-- The PDPT behind the entry `i` of the root table, and its address. -/
def rootEntry (s : State) (i : Index) (flags : Nat) : State × Nat :=
  let s :=
    if Present (s.mem s.root i) then s
    else
      let (s, frame) := pageGetframe s
      s.store s.root i (frame ||| flags)
  (s, tableAddress (s.mem s.root i))

/-- The table behind the entry `i` of the table at `addr`, and its address. -/
def tableEntry (s : State) (addr : Nat) (i : Index) (flags : Nat) : State × Nat :=
  let s := pageMapframe s addr
  let s :=
    if Present (s.window i) then s
    else
      let (s, frame) := pageGetframe s
      let s := pageMapframe s addr
      s.storeWindow i (frame ||| flags)
  (s, tableAddress (s.window i))

/-- The page table for `virt`, and its address. -/
def tablesFor (s : State) (virt flags : Nat) : State × Nat :=
  let (s, pdptAddr) := rootEntry s (pmlt4Index virt) flags
  let (s, pdtAddr) := tableEntry s pdptAddr (pdptIndex virt) flags
  tableEntry s pdtAddr (pdtIndex virt) flags

def mapvPage (flags : Nat) (s : State) (virt : Nat) : State :=
  let (s, ptAddr) := tablesFor s virt flags
  let (s, phyAddr) := pageGetframe s
  let s := pageMapframe s ptAddr
  if s.window (ptIndex virt) ≠ 0 then s
  else pageUmapframe (s.storeWindow (ptIndex virt) (phyAddr ||| flags))

def mapvpPage (flags : Nat) (s : State) (virt phys : Nat) : State :=
  let (s, ptAddr) := tablesFor s virt flags
  let s := pageMapframe s ptAddr
  if s.window (ptIndex virt) ≠ 0 then pageUmapframe s
  else pageUmapframe (s.storeWindow (ptIndex virt) (phys ||| flags))

def umapvPage (s : State) (virt : Nat) : State :=
  if ¬ Present (s.mem s.root (pmlt4Index virt)) then s
  else
    let s := pageMapframe s (tableAddress (s.mem s.root (pmlt4Index virt)))
    if ¬ Present (s.window (pdptIndex virt)) then s
    else
      let s := pageMapframe s (tableAddress (s.window (pdptIndex virt)))
      if ¬ Present (s.window (pdtIndex virt)) then s
      else
        let s := pageMapframe s (tableAddress (s.window (pdtIndex virt)))
        let addr := tableAddress (s.window (ptIndex virt))
        let s := s.storeWindow (ptIndex virt) 0
        pageUmapframe (pageClearBitmap s addr)

/-! ## The loops -/

/-- `length / PAGE_SIZE + (length % PAGE_SIZE > 0)`. -/
def pages (length : Nat) : Nat := length / pageSize + if length % pageSize > 0 then 1 else 0

/-- `virt + i * PAGE_SIZE`; the product is an `int`. -/
def pageAt (virt i : Nat) : Nat := qword (virt + sext32 (dword (i * pageSize)))

/-- `for( int i = 0; i < size; i++ )`. -/
def forPages (body : Nat → State → State) : Nat → State → State
  | 0, s => s
  | n + 1, s => body n (forPages body n s)

/-- After `2 ^ 31` rounds the `int` is negative, and as a `size_t` above every number of pages. -/
def rounds (length : Nat) : Nat := min (pages length) (2 ^ 31)

def pageMapv (s : State) (virt length flags : Nat) : State :=
  forPages (fun i s => mapvPage flags s (pageAt virt i)) (rounds length) s

def pageMapvp (s : State) (virt phys length flags : Nat) : State :=
  forPages (fun i s => mapvpPage flags s (pageAt virt i) (pageAt phys i)) (rounds length) s

def pageUmapv (s : State) (virt length : Nat) : State :=
  forPages (fun i s => umapvPage s (pageAt virt i)) (rounds length) s

def pageList (virt length : Nat) : List Nat := (List.range (rounds length)).map (pageAt virt)

theorem forPages_eq_foldl (body : Nat → State → State) (n : Nat) (s : State) :
    forPages body n s = (List.range n).foldl (fun s i => body i s) s := by
  induction n with
  | zero => rfl
  | succ n ih => rw [forPages, ih, List.range_succ, List.foldl_append, List.foldl_cons, List.foldl_nil]

theorem pageMapv_eq (s : State) (virt length flags : Nat) :
    pageMapv s virt length flags = (pageList virt length).foldl (mapvPage flags) s := by
  rw [pageMapv, forPages_eq_foldl, pageList, List.foldl_map]

theorem pageUmapv_eq (s : State) (virt length : Nat) :
    pageUmapv s virt length = (pageList virt length).foldl umapvPage s := by
  rw [pageUmapv, forPages_eq_foldl, pageList, List.foldl_map]

def pageAlloc4K (s : State) (flags : Nat) : State × Nat :=
  let (s, phys) := pageGetframe s
  let (s, ptAddr) := tablesFor s phys flags
  let s := pageMapframe s ptAddr
  (pageUmapframe (s.storeWindow (ptIndex phys) (phys ||| flags)), phys)

/-! ## Virtual pages -/

/-- The entries on the way to the page table of `virt`. -/
def tablePath (virt : Nat) : List Index := [pmlt4Index virt, pdptIndex virt, pdtIndex virt]

/-- The number of the virtual page of an address: bits 12 to 47. -/
def vpn (virt : Nat) : Nat := virt / pageSize % 2 ^ 36

theorem index_val (x shift : Nat) : (index x shift).val = x / 2 ^ shift % 512 := by
  show (x >>> shift &&& (512 - 1)) % 512 = _
  rw [show 512 - 1 = 2 ^ 9 - 1 from rfl, Nat.and_two_pow_sub_one_eq_mod, Nat.shiftRight_eq_div_pow]
  omega

theorem vpn_eq_iff (v w : Nat) : vpn v = vpn w ↔ tablePath v = tablePath w ∧ ptIndex v = ptIndex w := by
  simp only [tablePath, List.cons.injEq, and_true, Fin.ext_iff, pmlt4Index, pdptIndex, pdtIndex, ptIndex, index_val,
    vpn, pageSize]
  omega

theorem pageAt_of_lt {virt i : Nat} (h : i * pageSize < 2 ^ 31) : pageAt virt i = qword (virt + i * pageSize) := by
  unfold pageAt
  rw [dword_of_lt (by omega), sext32_of_lt h]

theorem pages_mul_lt {length i : Nat} (hl : length < 2 ^ 31) (hi : i < pages length) : i * pageSize < 2 ^ 31 := by
  unfold pages pageSize at *
  split_ifs at hi <;> omega

theorem rounds_of_lt {length : Nat} (hl : length < 2 ^ 31) : rounds length = pages length := by
  unfold rounds pages pageSize
  split_ifs <;> omega

theorem vpn_pageAt_inj {virt i j : Nat} (hi : i * pageSize < 2 ^ 31) (hj : j * pageSize < 2 ^ 31)
    (h : vpn (pageAt virt i) = vpn (pageAt virt j)) : i = j := by
  rw [pageAt_of_lt hi, pageAt_of_lt hj] at h
  unfold vpn qword pageSize at *
  omega

/-! ## Frames on the way through a loop -/

variable {body : Nat → State → State} {s : State} {m n : Nat}

theorem refused_le_forPages (hle : ∀ i u, u.refused ≤ (body i u).refused) (hmn : m ≤ n) (s : State) :
    (forPages body m s).refused ≤ (forPages body n s).refused := by
  induction n, hmn using Nat.le_induction with
  | base => exact le_refl _
  | succ n _ ih => exact ih.trans (hle n _)

theorem refused_forPages (hle : ∀ i u, u.refused ≤ (body i u).refused)
    (href : (forPages body n s).refused = s.refused) (hmn : m ≤ n) : (forPages body m s).refused = s.refused :=
  le_antisymm ((refused_le_forPages hle hmn s).trans href.le) (refused_le_forPages hle m.zero_le s)

theorem forPages_invariant {P : State → Prop} (hle : ∀ i u, u.refused ≤ (body i u).refused)
    (hround : ∀ i < n, ∀ u, P u → (body i u).refused = u.refused → P (body i u)) (hs : P s)
    (href : (forPages body n s).refused = s.refused) : P (forPages body n s) := by
  have hall : ∀ m, m ≤ n → P (forPages body m s) := by
    intro m
    induction m with
    | zero => exact fun _ => hs
    | succ m ih =>
        intro hm
        refine hround m hm _ (ih (Nat.le_of_succ_le hm)) ?_
        exact (refused_forPages hle href hm).trans (refused_forPages hle href (Nat.le_of_succ_le hm)).symm
  exact hall n (le_refl n)

end HaOS.Paging
