import HaOS.Lib.Prog
import HaOS.Paging.Refine

/-!
# The paging functions, access by access (`kernel/page.c`)

The functions of `page.c` as programs of single accesses, with the `invlpg` that `page_mapframe` and `page_umapframe` issue.

* `Op` : an access; `act o f s` : what it does when the window shows the frame `f`; `flat` : when it shows the frame in
  `frame_pt[0]`;
* `Code.pageGetframe`, `Code.tablesFor`, `Code.mapvPage`, `Code.pageMapv`, … : the programs;
* `Code.exec_pageMapv`, … : run one access after another with `flat` they are the functions on the state.
-/

namespace HaOS.Paging
open Lib (Prog)

inductive Op
  | pmlt4 (i : Index)
  | setPmlt4 (i : Index) (e : Nat)
  | framePt (e : Nat)
  | invlpg (virt : Nat)
  | read (i : Index)
  | write (i : Index) (e : Nat)
  | memzero
  | bitmap (i : Nat)
  | setBit (i j : Nat)
  | clearBit (addr : Nat)
  /-- `page_getframe` finds no frame; nothing happens but that it is counted -/
  | refuse

def Op.Windowed : Op → Prop
  | .read _ | .write _ _ | .memzero => True
  | _ => False

instance (o : Op) : Decidable o.Windowed := by
  cases o <;> first | exact isTrue trivial | exact isFalse id

/-- An access when the window shows the frame `f`, and its answer. -/
def act (o : Op) (f : Nat) (s : State) : State × Nat :=
  match o with
  | .pmlt4 i => (s, s.mem s.root i)
  | .setPmlt4 i e => (s.store s.root i e, 0)
  | .framePt e => (s.store framePt 0 e, 0)
  | .invlpg _ => (s, 0)
  | .read i => (s, s.mem f i)
  | .write i e => (s.store f i e, 0)
  | .memzero => ({ s with mem := fun g j => if g = f then 0 else s.mem g j }, 0)
  | .bitmap i => (s, (s.bitmap i).toNat)
  | .setBit i j => (s.setBit i j, 0)
  | .clearBit addr => (pageClearBitmap s addr, 0)
  | .refuse => ({ s with refused := s.refused + 1 }, 0)

/-- An access when the window shows the frame that its entry names. -/
def flat (o : Op) (s : State) : State × Nat := act o s.windowFrame s

namespace Code

open Lib.Prog (emit)

def pageMapframe (address : Nat) : Prog Op Nat := do
  let _ ← emit (.framePt (address ||| 1 <<< 0 ||| 1 <<< 1))
  emit (.invlpg windowAddress)

def pageUmapframe : Prog Op Nat := do
  let _ ← emit (.framePt 0)
  emit (.invlpg windowAddress)

/-- Bit `j` of byte `i` is set, and its frame zeroed. -/
def grant (i j : Nat) : Prog Op Nat := do
  let _ ← emit (.setBit i j)
  let addr := (j + i * 8) * pageSize
  let _ ← pageMapframe addr
  let _ ← emit .memzero
  let _ ← pageUmapframe
  pure addr

/-- The search of `page_getframe` from byte `i` on, with `n` bytes to go. -/
def getframeFrom : Nat → Nat → Prog Op Nat
  | 0, _ => do
    let _ ← emit .refuse
    pure (2 ^ 64 - 1)
  | n + 1, i => do
    let b ← emit (.bitmap i)
    if BitVec.ofNat 8 b = 0xff then getframeFrom n (i + 1)
    else
      match freeBit (BitVec.ofNat 8 b) with
      | some j => grant i j
      | none => getframeFrom n (i + 1)

def pageGetframe : Prog Op Nat := getframeFrom pageBitmapSize 0

/-- `if( !( e & PAGE_PRESENT ) )`. -/
def ifAbsent (e : Nat) (p q : Prog Op Nat) : Prog Op Nat := if ¬ Present e then p else q

/-- `if( e != 0 )`. -/
def ifUsed (e : Nat) (p q : Prog Op Nat) : Prog Op Nat := if e ≠ 0 then p else q

def rootEntry (i : Index) (flags : Nat) : Prog Op Nat := do
  let e ← emit (.pmlt4 i)
  let _ ← ifAbsent e
    (do
      let frame ← pageGetframe
      emit (.setPmlt4 i (frame ||| flags)))
    (pure 0)
  let e ← emit (.pmlt4 i)
  pure (tableAddress e)

def tableEntry (addr : Nat) (i : Index) (flags : Nat) : Prog Op Nat := do
  let _ ← pageMapframe addr
  let e ← emit (.read i)
  let _ ← ifAbsent e
    (do
      let frame ← pageGetframe
      let _ ← pageMapframe addr
      emit (.write i (frame ||| flags)))
    (pure 0)
  let e ← emit (.read i)
  pure (tableAddress e)

def tablesFor (virt flags : Nat) : Prog Op Nat := do
  let pdptAddr ← rootEntry (pmlt4Index virt) flags
  let pdtAddr ← tableEntry pdptAddr (pdptIndex virt) flags
  tableEntry pdtAddr (pdtIndex virt) flags

def mapvPage (flags virt : Nat) : Prog Op Nat := do
  let ptAddr ← tablesFor virt flags
  let phyAddr ← pageGetframe
  let _ ← pageMapframe ptAddr
  let e ← emit (.read (ptIndex virt))
  ifUsed e (pure 0) do
    let _ ← emit (.write (ptIndex virt) (phyAddr ||| flags))
    pageUmapframe

def mapvpPage (flags virt phys : Nat) : Prog Op Nat := do
  let ptAddr ← tablesFor virt flags
  let _ ← pageMapframe ptAddr
  let e ← emit (.read (ptIndex virt))
  ifUsed e pageUmapframe do
    let _ ← emit (.write (ptIndex virt) (phys ||| flags))
    pageUmapframe

/-- The entry that the page table at `ptAddr` has for `virt` is cleared, and the bit of its frame. -/
def umapvEntry (ptAddr virt : Nat) : Prog Op Nat := do
  let _ ← pageMapframe ptAddr
  let e ← emit (.read (ptIndex virt))
  let _ ← emit (.write (ptIndex virt) 0)
  let _ ← emit (.clearBit (tableAddress e))
  pageUmapframe

def umapvPage (virt : Nat) : Prog Op Nat := do
  let e ← emit (.pmlt4 (pmlt4Index virt))
  ifAbsent e (pure 0) do
    let e ← emit (.pmlt4 (pmlt4Index virt))
    let _ ← pageMapframe (tableAddress e)
    let e ← emit (.read (pdptIndex virt))
    ifAbsent e (pure 0) do
      let e ← emit (.read (pdptIndex virt))
      let _ ← pageMapframe (tableAddress e)
      let e ← emit (.read (pdtIndex virt))
      ifAbsent e (pure 0) do
        let e ← emit (.read (pdtIndex virt))
        umapvEntry (tableAddress e) virt

def pageAlloc4K (flags : Nat) : Prog Op Nat := do
  let phys ← pageGetframe
  let ptAddr ← tablesFor phys flags
  let _ ← pageMapframe ptAddr
  let _ ← emit (.write (ptIndex phys) (phys ||| flags))
  let _ ← pageUmapframe
  pure phys

def forPages (body : Nat → Prog Op Nat) : Nat → Prog Op Nat
  | 0 => pure 0
  | n + 1 => do
    let _ ← forPages body n
    body n

def pageMapv (virt length flags : Nat) : Prog Op Nat :=
  forPages (fun i => mapvPage flags (pageAt virt i)) (rounds length)

def pageMapvp (virt phys length flags : Nat) : Prog Op Nat :=
  forPages (fun i => mapvpPage flags (pageAt virt i) (pageAt phys i)) (rounds length)

def pageUmapv (virt length : Nat) : Prog Op Nat :=
  forPages (fun i => umapvPage (pageAt virt i)) (rounds length)

/-! ## Without a cache -/

variable {s : State} {addr flags virt phys length : Nat} {i : Index}

@[simp] theorem exec_pageMapframe (s : State) (addr : Nat) :
    Prog.exec flat (pageMapframe addr) s = (Paging.pageMapframe s addr, 0) := rfl

@[simp] theorem exec_pageUmapframe (s : State) : Prog.exec flat pageUmapframe s = (Paging.pageUmapframe s, 0) := rfl

theorem flat_pmlt4 (s : State) (i : Index) : flat (.pmlt4 i) s = (s, s.mem s.root i) := rfl

theorem flat_read (s : State) (i : Index) : flat (.read i) s = (s, s.window i) := rfl

theorem exec_getframeFrom (s : State) (n i : Nat) :
    Prog.exec flat (getframeFrom n i) s =
      match scan s.bitmap n i with
      | some (i, j) =>
        (Paging.pageUmapframe (Paging.pageMapframe (s.setBit i j) ((j + i * 8) * pageSize)).zeroWindow,
          (j + i * 8) * pageSize)
      | none => ({ s with refused := s.refused + 1 }, 2 ^ 64 - 1) := by
  induction n generalizing i with
  | zero => rfl
  | succ n ih =>
      have hbyte : BitVec.ofNat 8 (s.bitmap i).toNat = s.bitmap i := by simp
      simp only [getframeFrom, Prog.bind_eq, Prog.exec_bind, Prog.exec_emit, flat, act, hbyte, scan]
      split_ifs
      · exact ih (i + 1)
      · cases hfree : freeBit (s.bitmap i) with
        | none => exact ih (i + 1)
        | some j => rfl

@[simp] theorem exec_pageGetframe (s : State) : Prog.exec flat pageGetframe s = Paging.pageGetframe s := by
  refine (exec_getframeFrom s pageBitmapSize 0).trans ?_
  unfold Paging.pageGetframe
  cases scan s.bitmap pageBitmapSize 0 <;> rfl

theorem exec_ifAbsent (e : Nat) (p q : Prog Op Nat) (s : State) :
    Prog.exec flat (ifAbsent e p q) s = if ¬ Present e then Prog.exec flat p s else Prog.exec flat q s :=
  Prog.exec_ite p q s

theorem ifAbsent_present {e : Nat} (h : Present e) (p q : Prog Op Nat) : ifAbsent e p q = q := if_neg (not_not.mpr h)

theorem ifAbsent_absent {e : Nat} (h : ¬ Present e) (p q : Prog Op Nat) : ifAbsent e p q = p := if_pos h

theorem exec_ifUsed (e : Nat) (p q : Prog Op Nat) (s : State) :
    Prog.exec flat (ifUsed e p q) s = if e ≠ 0 then Prog.exec flat p s else Prog.exec flat q s :=
  Prog.exec_ite p q s

theorem ifUsed_zero {e : Nat} (h : e = 0) (p q : Prog Op Nat) : ifUsed e p q = q := if_neg (not_not.mpr h)

theorem ifUsed_ne {e : Nat} (h : e ≠ 0) (p q : Prog Op Nat) : ifUsed e p q = p := if_pos h

@[simp] theorem exec_rootEntry (s : State) (i : Index) (flags : Nat) :
    Prog.exec flat (rootEntry i flags) s = Paging.rootEntry s i flags := by
  simp only [rootEntry, Prog.bind_eq, Prog.pure_eq, Prog.exec_bind, Prog.exec_emit, Prog.exec_ret, exec_ifAbsent,
    exec_pageGetframe, flat_pmlt4, Paging.rootEntry]
  by_cases h : Present (s.mem s.root i)
  · simp only [h, not_true_eq_false, if_false, if_true]
  · simp only [h, not_false_eq_true, if_true, if_false]
    rfl

@[simp] theorem exec_tableEntry (s : State) (addr : Nat) (i : Index) (flags : Nat) :
    Prog.exec flat (tableEntry addr i flags) s = Paging.tableEntry s addr i flags := by
  simp only [tableEntry, Prog.bind_eq, Prog.pure_eq, Prog.exec_bind, Prog.exec_emit, Prog.exec_ret, exec_ifAbsent,
    exec_pageGetframe, exec_pageMapframe, flat_read, Paging.tableEntry]
  by_cases h : Present ((Paging.pageMapframe s addr).window i)
  · simp only [h, not_true_eq_false, if_false, if_true]
  · simp only [h, not_false_eq_true, if_true, if_false]
    rfl

@[simp] theorem exec_tablesFor (s : State) (virt flags : Nat) :
    Prog.exec flat (tablesFor virt flags) s = Paging.tablesFor s virt flags := by
  simp only [tablesFor, Prog.bind_eq, Prog.exec_bind, exec_rootEntry, exec_tableEntry]
  rfl

theorem exec_mapvPage (s : State) (flags virt : Nat) :
    (Prog.exec flat (mapvPage flags virt) s).1 = Paging.mapvPage flags s virt := by
  simp only [mapvPage, Prog.bind_eq, Prog.pure_eq, Prog.exec_bind, Prog.exec_emit, Prog.exec_ret, exec_ifUsed,
    exec_tablesFor, exec_pageGetframe, exec_pageMapframe, exec_pageUmapframe, flat_read, Paging.mapvPage]
  split_ifs <;> rfl

theorem exec_mapvpPage (s : State) (flags virt phys : Nat) :
    (Prog.exec flat (mapvpPage flags virt phys) s).1 = Paging.mapvpPage flags s virt phys := by
  simp only [mapvpPage, Prog.bind_eq, Prog.exec_bind, Prog.exec_emit, exec_ifUsed, exec_tablesFor, exec_pageMapframe,
    exec_pageUmapframe, flat_read, Paging.mapvpPage]
  split_ifs <;> rfl

theorem exec_umapvPage (s : State) (virt : Nat) :
    (Prog.exec flat (umapvPage virt) s).1 = Paging.umapvPage s virt := by
  simp only [umapvPage, umapvEntry, Prog.bind_eq, Prog.pure_eq, Prog.exec_bind, Prog.exec_emit, Prog.exec_ret,
    exec_ifAbsent, exec_pageMapframe, exec_pageUmapframe, flat_pmlt4, flat_read, Paging.umapvPage]
  split_ifs <;> rfl

theorem exec_pageAlloc4K (s : State) (flags : Nat) :
    Prog.exec flat (pageAlloc4K flags) s = Paging.pageAlloc4K s flags := by
  simp only [pageAlloc4K, Prog.bind_eq, Prog.pure_eq, Prog.exec_bind, Prog.exec_emit, Prog.exec_ret, exec_tablesFor,
    exec_pageGetframe, exec_pageMapframe, exec_pageUmapframe, flat, act, Paging.pageAlloc4K]
  rfl

theorem exec_forPages {body : Nat → Prog Op Nat} {round : Nat → State → State}
    (h : ∀ i s, (Prog.exec flat (body i) s).1 = round i s) (n : Nat) (s : State) :
    (Prog.exec flat (forPages body n) s).1 = Paging.forPages round n s := by
  induction n with
  | zero => rfl
  | succ n ih => rw [forPages, Prog.bind_eq, Prog.exec_bind, h, ih, Paging.forPages]

theorem exec_pageMapv (s : State) (virt length flags : Nat) :
    (Prog.exec flat (pageMapv virt length flags) s).1 = Paging.pageMapv s virt length flags :=
  exec_forPages (fun _ s => exec_mapvPage s _ _) _ s

theorem exec_pageMapvp (s : State) (virt phys length flags : Nat) :
    (Prog.exec flat (pageMapvp virt phys length flags) s).1 = Paging.pageMapvp s virt phys length flags :=
  exec_forPages (fun _ s => exec_mapvpPage s _ _ _) _ s

theorem exec_pageUmapv (s : State) (virt length : Nat) :
    (Prog.exec flat (pageUmapv virt length) s).1 = Paging.pageUmapv s virt length :=
  exec_forPages (fun _ s => exec_umapvPage s _) _ s

end Code

end HaOS.Paging
