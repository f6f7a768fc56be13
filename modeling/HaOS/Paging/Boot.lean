import HaOS.Paging.Fill
import HaOS.Paging.Rename

/-!
# Mapping in the boot stage (`boot/stage64/page.c`, `boot/stage64/entry.asm`)

The boot stage has the code of the kernel with other addresses, with fixed flags for tables, and with its own page count.

* `setupToLongmode`, `pageInit` : the first tables; `pageGetframe`, `tablesFor`, `pageMapv`, `pageMapvp` : the functions;
* `Sets` : bits are only set;
* `kernelPlace` : the kernel's frames for the boot stage's; `state_mapvpPage` : a round of the boot stage is one on the
  tables in those frames.
-/

namespace HaOS.Paging.Boot

def pageBitmapAddress : Nat := 0x1000

def pmlt4Address : Nat := 0x2000

def pdptAddress : Nat := 0x3000

def pdtAddress : Nat := 0x4000

def firstPtAddress : Nat := 0x5000

def framePtAddress : Nat := 0x6000

def rootFrame : Nat := frameOf pmlt4Address

def framePt : Nat := frameOf framePtAddress

def bitmapFrame : Nat := frameOf pageBitmapAddress

/-! ## The functions -/

def windowFrame (s : State) : Nat := frameOf (s.mem framePt 0)

def window (s : State) (i : Index) : Nat := s.mem (windowFrame s) i

def storeWindow (s : State) (i : Index) (e : Nat) : State := s.store (windowFrame s) i e

/-- `memory_zero` on the window. -/
def zeroWindow (s : State) : State :=
  { s with mem := fun g j => if g = windowFrame s then 0 else s.mem g j }

def pageMapframe (s : State) (address : Nat) : State := s.store framePt 0 (address ||| 1 <<< 0 ||| 1 <<< 1)

def pageUmapframe (s : State) : State := s.store framePt 0 0

def pageGetframe (s : State) : State × Nat :=
  match scan s.bitmap pageBitmapSize 0 with
  | some (i, j) =>
    let s := s.setBit i j
    let addr := (j + i * 8) * pageSize
    let s := zeroWindow (pageMapframe s addr)
    (pageUmapframe s, addr)
  | none => ({ s with refused := s.refused + 1 }, 2 ^ 64 - 1)

/-- The PDPT behind the entry `i` of the root table, and its address. -/
def rootEntry (s : State) (i : Index) : State × Nat :=
  let s :=
    if Present (s.mem rootFrame i) then s
    else
      let (s, page) := pageGetframe s
      s.store rootFrame i (page ||| 1 <<< 0 ||| 1 <<< 1)
  (s, tableAddress (s.mem rootFrame i))

/-- The table behind the entry `i` of the table at `addr`, and its address. -/
def tableEntry (s : State) (addr : Nat) (i : Index) : State × Nat :=
  let s := pageMapframe s addr
  let s :=
    if Present (window s i) then s
    else
      let (s, page) := pageGetframe s
      let s := pageMapframe s addr
      storeWindow s i (page ||| 1 <<< 0 ||| 1 <<< 1)
  (s, tableAddress (window s i))

/-- The page table for `virt`, and its address. -/
def tablesFor (s : State) (virt : Nat) : State × Nat :=
  let (s, tpmlt4) := rootEntry s (pmlt4Index virt)
  let (s, tpdpt) := tableEntry s tpmlt4 (pdptIndex virt)
  tableEntry s tpdpt (pdtIndex virt)

def mapvPage (flags : Nat) (s : State) (virt : Nat) : State :=
  let (s, tpdt) := tablesFor s virt
  let (s, phy) := pageGetframe s
  let s := pageMapframe s tpdt
  if window s (ptIndex virt) ≠ 0 then pageUmapframe s
  else pageUmapframe (storeWindow s (ptIndex virt) (phy ||| flags))

/-- A round of `page_mapvp`; the bit is the one with the number of the entry that a page table has for `phys`. -/
def mapvpPage (flags : Nat) (s : State) (virt phys : Nat) : State :=
  let (s, tpdt) := tablesFor s virt
  let s := pageMapframe s tpdt
  if window s (ptIndex virt) ≠ 0 then pageUmapframe s
  else
    let s := s.setBit ((ptIndex phys).val / 8) ((ptIndex phys).val % 8)
    pageUmapframe (storeWindow s (ptIndex virt) (phys ||| flags))

/-- `length / PAGE_SIZE + ( length + PAGE_SIZE > 0 )`. -/
def pages (length : Nat) : Nat := length / pageSize + if qword (length + pageSize) > 0 then 1 else 0

/-- `virt + i * PAGE_SIZE`. -/
def pageAt (virt i : Nat) : Nat := qword (virt + i * pageSize)

def pageMapv (s : State) (virt length flags : Nat) : State :=
  forPages (fun i s => mapvPage flags s (pageAt virt i)) (pages length) s

def pageMapvp (s : State) (virt phys length flags : Nat) : State :=
  forPages (fun i s => mapvpPage flags s (pageAt virt i) (pageAt phys i)) (pages length) s

/-! ## The first tables -/

/-- `clear_table` on the six frames: 512 bytes of each. -/
def clearTables (mem : Nat → Index → Nat) : Nat → Index → Nat := fun f i => if 1 ≤ f ∧ f ≤ 6 ∧ i < 64 then 0 else mem f i

/-- `mov dword [..], eax`: the upper half of the entry stays. -/
def storeDword (s : State) (f : Nat) (i : Index) (e : Nat) : State := s.store f i (s.mem f i / 2 ^ 32 * 2 ^ 32 + e)

/-- `setup_to_longmode`, over the memory as it is found. -/
def setupToLongmode (mem : Nat → Index → Nat) : State :=
  let s : State := { mem := clearTables mem, bitmap := fun _ => 0, pmlt4 := pmlt4Address, refused := 0 }
  let s := storeDword s 2 0 (pdptAddress ||| entryFlags)
  let s := storeDword s 3 0 (pdtAddress ||| entryFlags)
  let s := storeDword s 4 0 (firstPtAddress ||| entryFlags)
  let s := storeDword s 4 511 (framePtAddress ||| entryFlags)
  forPages (fun i s => storeDword s 5 (Fin.ofNat 512 i) (i <<< 12 ||| entryFlags)) 512 s

/-- `page_init`; the boot stage ends in the page `last`. -/
def pageInit (s : State) (last : Nat) : State :=
  let s := { s with bitmap := fun _ => 0 }
  let s := forPages (fun i s => s.setBit (i / 8) (i % 8)) (last + 1) s
  forPages (fun i s => s.store 5 (Fin.ofNat 512 (last + 1 + i)) 0) (511 - last) s

variable {s t u : State} {i : Index} {a e f n v w flags virt phys length : Nat}

/-! ## Bits are only set -/

/-- From `s` to `t` bits are only set, and the root table stays. -/
structure Sets (s t : State) : Prop where
  pmlt4 : t.pmlt4 = s.pmlt4
  bit : ∀ f, Bit s.bitmap f → Bit t.bitmap f

theorem Sets.refl (s : State) : Sets s s := ⟨rfl, fun _ h => h⟩

theorem Sets.trans (h : Sets s t) (h' : Sets t u) : Sets s u :=
  ⟨h'.pmlt4.trans h.pmlt4, fun f hf => h'.bit f (h.bit f hf)⟩

theorem sets_setBit (s : State) (a : Nat) {b : Nat} (hb : b < 8) : Sets s (s.setBit a b) :=
  ⟨rfl, fun f hf => (bit_set hb f).mpr (.inr hf)⟩

theorem sets_store (s : State) (f : Nat) (i : Index) (e : Nat) : Sets s (s.store f i e) := ⟨rfl, fun _ h => h⟩

theorem sets_mapframe (s : State) (a : Nat) : Sets s (pageMapframe s a) := sets_store _ _ _ _

theorem sets_pageGetframe (s : State) : Sets s (pageGetframe s).1 := by
  unfold pageGetframe
  cases hscan : scan s.bitmap pageBitmapSize 0 with
  | none => exact ⟨rfl, fun _ h => h⟩
  | some x =>
      obtain ⟨-, -, hj, -⟩ := scan_some hscan
      have hset := sets_setBit s x.1 hj
      exact ⟨hset.pmlt4, hset.bit⟩

theorem sets_rootEntry (s : State) (i : Index) : Sets s (rootEntry s i).1 := by
  unfold rootEntry
  split_ifs
  · exact .refl s
  · exact (sets_pageGetframe s).trans (sets_store _ _ _ _)

theorem sets_tableEntry (s : State) (a : Nat) (i : Index) : Sets s (tableEntry s a i).1 := by
  unfold tableEntry
  simp only
  split_ifs
  · exact sets_mapframe s a
  · have hget := (sets_mapframe s a).trans (sets_pageGetframe (pageMapframe s a))
    exact (hget.trans (sets_mapframe _ a)).trans (sets_store _ _ _ _)

theorem sets_tablesFor (s : State) (virt : Nat) : Sets s (tablesFor s virt).1 :=
  ((sets_rootEntry s _).trans (sets_tableEntry _ _ _)).trans (sets_tableEntry _ _ _)

theorem sets_mapvPage (flags : Nat) (s : State) (virt : Nat) : Sets s (mapvPage flags s virt) := by
  have hget := ((sets_tablesFor s virt).trans (sets_pageGetframe _)).trans (sets_mapframe _ (tablesFor s virt).2)
  unfold mapvPage
  simp only
  split_ifs
  · exact hget.trans (sets_store _ _ _ _)
  · exact (hget.trans (sets_store _ _ _ _)).trans (sets_store _ _ _ _)

theorem sets_mapvpPage (flags : Nat) (s : State) (virt phys : Nat) : Sets s (mapvpPage flags s virt phys) := by
  have hmap := (sets_tablesFor s virt).trans (sets_mapframe _ (tablesFor s virt).2)
  unfold mapvpPage
  simp only
  split_ifs
  · exact hmap.trans (sets_store _ _ _ _)
  · have hset := hmap.trans (sets_setBit _ ((ptIndex phys).val / 8) (Nat.mod_lt (ptIndex phys).val (by decide : 8 > 0)))
    exact (hset.trans (sets_store _ _ _ _)).trans (sets_store _ _ _ _)

theorem sets_forPages (body : Nat → State → State) (h : ∀ i u, Sets u (body i u)) (n : Nat) (s : State) :
    Sets s (forPages body n s) := by
  induction n with
  | zero => exact .refl s
  | succ n ih => exact ih.trans (h n _)

/-! ## The kernel's frames -/

/-- The tables lie one frame below, and the bitmap above them. -/
def lower (f : Nat) : Nat := if f = 1 then 6 else if 2 ≤ f ∧ f ≤ 6 then f - 1 else f

def upper (f : Nat) : Nat := if f = 6 then 1 else if 1 ≤ f ∧ f ≤ 5 then f + 1 else f

theorem upper_lower (f : Nat) : upper (lower f) = f := by
  unfold upper lower
  split_ifs <;> omega

theorem lower_upper (f : Nat) : lower (upper f) = f := by
  unfold upper lower
  split_ifs <;> omega

/-- The kernel's frames for the tables and the bitmap of the boot stage. -/
def kernelPlace : Renaming where
  place := ⟨lower, upper, upper_lower, lower_upper⟩
  lt f hf := by
    show lower f < _
    unfold lower
    split_ifs <;> omega
  zero := rfl

theorem lower_reserved (h : 1 ≤ f ∧ f ≤ 6) : 1 ≤ lower f ∧ lower f ≤ 6 := by
  unfold lower
  split_ifs <;> omega

theorem place_of_free (h : ¬ (1 ≤ f ∧ f ≤ 6)) : kernelPlace.place f = f := by
  show lower f = f
  unfold lower
  split_ifs <;> omega

theorem entry_of_place {ρ : Renaming} (h : ρ.place (frameOf e) = frameOf e) : ρ.entry e = e := by
  apply Renaming.eq_of_parts
  · exact ρ.entry_mod e
  · rw [ρ.frameOf_entry, h]
  · exact ρ.entry_div e

theorem state_mapframe (s : State) (a : Nat) :
    kernelPlace.state (pageMapframe s a) = Paging.pageMapframe (kernelPlace.state s) (kernelPlace.entry a) := by
  unfold pageMapframe Paging.pageMapframe
  rw [Renaming.state_store, Renaming.entry_or _ (by decide), Renaming.entry_or _ (by decide)]
  rfl

theorem state_umapframe (s : State) :
    kernelPlace.state (pageUmapframe s) = Paging.pageUmapframe (kernelPlace.state s) := by
  unfold pageUmapframe Paging.pageUmapframe
  rw [Renaming.state_store, Renaming.entry_zero]
  rfl

theorem state_windowFrame (s : State) : (kernelPlace.state s).windowFrame = kernelPlace.place (windowFrame s) := by
  unfold State.windowFrame windowFrame
  rw [← Renaming.frameOf_entry, ← Renaming.mem_state]
  rfl

theorem state_window (s : State) (i : Index) : (kernelPlace.state s).window i = kernelPlace.entry (window s i) := by
  unfold State.window window
  rw [state_windowFrame, Renaming.mem_state]

theorem state_storeWindow (s : State) (i : Index) (e : Nat) :
    kernelPlace.state (storeWindow s i e) = (kernelPlace.state s).storeWindow i (kernelPlace.entry e) := by
  unfold State.storeWindow storeWindow
  rw [state_windowFrame, Renaming.state_store]

theorem state_zeroWindow (s : State) : kernelPlace.state (zeroWindow s) = (kernelPlace.state s).zeroWindow := by
  refine Renaming.state_ext (fun g j => ?_) rfl rfl rfl
  rw [mem_zeroWindow, state_windowFrame]
  show kernelPlace.entry (if kernelPlace.place.symm g = windowFrame s then 0 else _) = _
  simp only [Equiv.symm_apply_eq]
  split_ifs
  · exact Renaming.entry_zero _
  · rfl

/-- The root table lies where the boot stage has it, and the frames that change their places are not free. -/
structure Based (s : State) : Prop where
  pmlt4 : s.pmlt4 = pmlt4Address
  reserved : ∀ f, 1 ≤ f → f ≤ 6 → Bit s.bitmap f

theorem Based.sets (h : Based s) (hst : Sets s t) : Based t :=
  ⟨hst.pmlt4.trans h.pmlt4, fun f h1 h6 => hst.bit f (h.reserved f h1 h6)⟩

theorem Based.root (h : Based s) : (kernelPlace.state s).root = kernelPlace.place rootFrame := by
  rw [Renaming.root_state, State.root, h.pmlt4]
  rfl

theorem pageGetframe_none (h : scan s.bitmap pageBitmapSize 0 = none) :
    pageGetframe s = ({ s with refused := s.refused + 1 }, 2 ^ 64 - 1) := by
  unfold pageGetframe
  rw [h]

theorem pageGetframe_some {i j : Nat} (h : scan s.bitmap pageBitmapSize 0 = some (i, j)) :
    pageGetframe s = (pageUmapframe (zeroWindow (pageMapframe (s.setBit i j) ((j + i * 8) * pageSize))),
      (j + i * 8) * pageSize) := by
  unfold pageGetframe
  rw [h]

theorem kernelGetframe_none (h : scan s.bitmap pageBitmapSize 0 = none) :
    Paging.pageGetframe s = ({ s with refused := s.refused + 1 }, 2 ^ 64 - 1) := by
  unfold Paging.pageGetframe
  rw [h]

theorem kernelGetframe_some {i j : Nat} (h : scan s.bitmap pageBitmapSize 0 = some (i, j)) :
    Paging.pageGetframe s = (Paging.pageUmapframe (Paging.pageMapframe (s.setBit i j) ((j + i * 8) * pageSize)).zeroWindow,
      (j + i * 8) * pageSize) := by
  unfold Paging.pageGetframe
  rw [h]

theorem entry_of_free (hlt : f < 2 ^ 40) (h : ¬ (1 ≤ f ∧ f ≤ 6)) : kernelPlace.entry (f * pageSize) = f * pageSize := by
  rw [Renaming.entry_mul _ hlt, place_of_free h]

theorem entry_refused : kernelPlace.entry (2 ^ 64 - 1) = 2 ^ 64 - 1 := by
  apply entry_of_place
  apply place_of_free
  unfold frameOf pageSize
  omega

theorem state_pageGetframe (h : Based s) :
    kernelPlace.state (pageGetframe s).1 = (Paging.pageGetframe (kernelPlace.state s)).1 ∧
      kernelPlace.entry (pageGetframe s).2 = (Paging.pageGetframe (kernelPlace.state s)).2 := by
  have hbitmap := kernelPlace.bitmap_state s
  cases hscan : scan s.bitmap pageBitmapSize 0 with
  | none =>
      have hkernel : scan (kernelPlace.state s).bitmap pageBitmapSize 0 = none := by
        rw [hbitmap]
        exact hscan
      rw [pageGetframe_none hscan, kernelGetframe_none hkernel]
      exact ⟨kernelPlace.state_refuse s, entry_refused⟩
  | some x =>
      obtain ⟨i, j⟩ := x
      obtain ⟨-, hi, hj, hfree⟩ := scan_some hscan
      simp only at hi hj hfree
      have hbit : ¬ Bit s.bitmap (j + i * 8) := by
        unfold Bit
        rw [show (j + i * 8) / 8 = i by omega, show (j + i * 8) % 8 = j by omega, hfree]
        decide
      have hentry : kernelPlace.entry ((j + i * 8) * pageSize) = (j + i * 8) * pageSize := by
        unfold pageBitmapSize at hi
        exact entry_of_free (by omega) fun hf => hbit (h.reserved _ hf.1 hf.2)
      have hkernel : scan (kernelPlace.state s).bitmap pageBitmapSize 0 = some (i, j) := by
        rw [hbitmap]
        exact hscan
      rw [pageGetframe_some hscan, kernelGetframe_some hkernel]
      refine ⟨?_, hentry⟩
      simp only
      rw [state_umapframe, state_zeroWindow, state_mapframe, hentry, Renaming.state_setBit]

/-! ## A round -/

theorem tableFlags_or (a : Nat) : kernelPlace.entry (a ||| 1 <<< 0 ||| 1 <<< 1) = kernelPlace.entry a ||| 3 := by
  rw [Nat.or_assoc]
  exact Renaming.entry_or _ (by decide) a

/-- The entry of the root table leads to the same table. -/
theorem state_rootAddress (h : Based s) (i : Index) : kernelPlace.entry (tableAddress (s.mem rootFrame i)) =
    tableAddress ((kernelPlace.state s).mem (kernelPlace.state s).root i) := by
  rw [h.root, Renaming.mem_state, Renaming.entry_tableAddress]

theorem state_rootEntry (h : Based s) (i : Index) :
    kernelPlace.state (rootEntry s i).1 = (Paging.rootEntry (kernelPlace.state s) i 3).1 ∧
      kernelPlace.entry (rootEntry s i).2 = (Paging.rootEntry (kernelPlace.state s) i 3).2 := by
  have hget := h.sets (sets_pageGetframe s)
  obtain ⟨hstate, hpage⟩ := state_pageGetframe h
  have hroot := hget.root
  have hpresent : Present ((kernelPlace.state s).mem (kernelPlace.state s).root i) ↔ Present (s.mem rootFrame i) := by
    rw [h.root, Renaming.mem_state, Renaming.present_entry]
  by_cases hp : Present (s.mem rootFrame i)
  · simp only [rootEntry, Paging.rootEntry, hpresent, hp, if_true, state_rootAddress h, and_self]
  · have hstore : kernelPlace.state ((pageGetframe s).1.store rootFrame i ((pageGetframe s).2 ||| 1 <<< 0 ||| 1 <<< 1)) =
        (Paging.pageGetframe (kernelPlace.state s)).1.store (Paging.pageGetframe (kernelPlace.state s)).1.root i
          ((Paging.pageGetframe (kernelPlace.state s)).2 ||| 3) := by
      rw [Renaming.state_store, tableFlags_or, hpage, ← hget.root, hstate]
    have hnext := state_rootAddress (hget.sets (sets_store _ rootFrame i ((pageGetframe s).2 ||| 1 <<< 0 ||| 1 <<< 1))) i
    simp only [rootEntry, Paging.rootEntry, hpresent, hp, if_false]
    rw [hstore] at hnext
    exact ⟨hstore, hnext⟩

theorem state_tableEntry (h : Based s) (a : Nat) (i : Index) :
    kernelPlace.state (tableEntry s a i).1 = (Paging.tableEntry (kernelPlace.state s) (kernelPlace.entry a) i 3).1 ∧
      kernelPlace.entry (tableEntry s a i).2 = (Paging.tableEntry (kernelPlace.state s) (kernelPlace.entry a) i 3).2 := by
  have haddress : ∀ u, kernelPlace.entry (tableAddress (window u i)) = tableAddress ((kernelPlace.state u).window i) := by
    intro u
    rw [state_window, Renaming.entry_tableAddress]
  have hpresent : Present ((Paging.pageMapframe (kernelPlace.state s) (kernelPlace.entry a)).window i) ↔
      Present (window (pageMapframe s a) i) := by
    rw [← state_mapframe, state_window, Renaming.present_entry]
  obtain ⟨hstate, hpage⟩ := state_pageGetframe (h.sets (sets_mapframe s a))
  rw [state_mapframe] at hstate hpage
  by_cases hp : Present (window (pageMapframe s a) i)
  · simp only [tableEntry, Paging.tableEntry, hpresent, hp, if_true, haddress, state_mapframe, and_self]
  · simp only [tableEntry, Paging.tableEntry, hpresent, hp, if_false, haddress, state_storeWindow, tableFlags_or,
      state_mapframe, hstate, hpage, and_self]

theorem tablesFor_eq (s : State) (virt : Nat) :
    tablesFor s virt = tableEntry (tableEntry (rootEntry s (pmlt4Index virt)).1 (rootEntry s (pmlt4Index virt)).2
      (pdptIndex virt)).1 (tableEntry (rootEntry s (pmlt4Index virt)).1 (rootEntry s (pmlt4Index virt)).2
      (pdptIndex virt)).2 (pdtIndex virt) := rfl

theorem kernelTablesFor_eq (s : State) (virt flags : Nat) :
    Paging.tablesFor s virt flags = Paging.tableEntry (Paging.tableEntry (Paging.rootEntry s (pmlt4Index virt) flags).1
      (Paging.rootEntry s (pmlt4Index virt) flags).2 (pdptIndex virt) flags).1 (Paging.tableEntry
      (Paging.rootEntry s (pmlt4Index virt) flags).1 (Paging.rootEntry s (pmlt4Index virt) flags).2 (pdptIndex virt)
      flags).2 (pdtIndex virt) flags := rfl

theorem state_tablesFor (h : Based s) (virt : Nat) :
    kernelPlace.state (tablesFor s virt).1 = (Paging.tablesFor (kernelPlace.state s) virt 3).1 ∧
      kernelPlace.entry (tablesFor s virt).2 = (Paging.tablesFor (kernelPlace.state s) virt 3).2 := by
  have h1 := h.sets (sets_rootEntry s (pmlt4Index virt))
  have h2 := h1.sets (sets_tableEntry _ (rootEntry s (pmlt4Index virt)).2 (pdptIndex virt))
  obtain ⟨hroot, hpdpt⟩ := state_rootEntry h (pmlt4Index virt)
  obtain ⟨hdir, hpdt⟩ := state_tableEntry h1 (rootEntry s (pmlt4Index virt)).2 (pdptIndex virt)
  obtain ⟨hlast, haddr⟩ := state_tableEntry h2 (tableEntry (rootEntry s (pmlt4Index virt)).1
    (rootEntry s (pmlt4Index virt)).2 (pdptIndex virt)).2 (pdtIndex virt)
  rw [tablesFor_eq, kernelTablesFor_eq, hlast, haddr, hdir, hpdt, hroot, hpdpt]
  exact ⟨rfl, rfl⟩

/-- What a round of the boot stage writes in the kernel's frames. -/
def fill (flags virt phys : Nat) : Fill := ⟨virt, kernelPlace.entry (phys ||| flags), some (ptIndex phys).val⟩

theorem state_mapvpPage (h : Based s) (flags virt phys : Nat) :
    kernelPlace.state (mapvpPage flags s virt phys) = fillPage 3 (kernelPlace.state s) (fill flags virt phys) := by
  obtain ⟨hstate, haddr⟩ := state_tablesFor h virt
  have hmap : kernelPlace.state (pageMapframe (tablesFor s virt).1 (tablesFor s virt).2) =
      Paging.pageMapframe (Paging.tablesFor (kernelPlace.state s) virt 3).1
        (Paging.tablesFor (kernelPlace.state s) virt 3).2 := by
    rw [state_mapframe, hstate, haddr]
  have hempty : (Paging.pageMapframe (Paging.tablesFor (kernelPlace.state s) virt 3).1
      (Paging.tablesFor (kernelPlace.state s) virt 3).2).window (ptIndex virt) = 0 ↔
      window (pageMapframe (tablesFor s virt).1 (tablesFor s virt).2) (ptIndex virt) = 0 := by
    rw [← hmap, state_window, Renaming.entry_eq_zero]
  by_cases h0 : window (pageMapframe (tablesFor s virt).1 (tablesFor s virt).2) (ptIndex virt) = 0
  · simp only [mapvpPage, fillPage, fill, hempty, h0, ne_eq, not_true_eq_false, if_false, state_umapframe,
      state_storeWindow, Renaming.state_setBit, hmap, State.mark]
  · simp only [mapvpPage, fillPage, fill, hempty, h0, ne_eq, not_false_eq_true, if_true, state_umapframe, hmap]

end HaOS.Paging.Boot
