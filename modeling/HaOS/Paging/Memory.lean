import HaOS.Lib.Bytes
import HaOS.Paging.RoundTrip

/-!
# Memory behind virtual addresses

* `translate` : the frame behind an address; `loadByte`, `storeByte`, `storeBytes` : accesses, `none` on a page fault;
* `Owned A s` : the addresses of `A` lie in pages of their own, in frames that are no tables;
* `Owned.storeBytes` : bytes that are stored there can be loaded again, and no others change;
* `Owned.map` : the bytes stay when further pages are mapped, whose addresses are owned then, too.
-/

namespace HaOS.Paging
open Lib (byteOf setByte)

/-- The addresses that the processor accepts. -/
def Canonical (a : Nat) : Prop := a < 2 ^ 47 ∨ 2 ^ 64 - 2 ^ 47 ≤ a ∧ a < 2 ^ 64

instance (a : Nat) : Decidable (Canonical a) := inferInstanceAs (Decidable (_ ∨ _))

def translate (s : State) (a : Nat) : Option Nat := if Canonical a then target (walk s a) else none

def qwordIndex (a : Nat) : Index := Fin.ofNat 512 (a % pageSize / 8)

def loadByte (s : State) (a : Nat) : Option UInt8 :=
  (translate s a).map fun f => byteOf (s.mem f (qwordIndex a)) (a % 8)

def storeByte (s : State) (a : Nat) (b : UInt8) : Option State :=
  (translate s a).map fun f => s.store f (qwordIndex a) (setByte (s.mem f (qwordIndex a)) (a % 8) b)

def storeBytes : State → Nat → List UInt8 → Option State
  | s, _, [] => some s
  | s, a, b :: bs => (storeByte s a b).bind fun s => storeBytes s (qword (a + 1)) bs

variable {s t u : State} {A B : Nat → Prop} {a x f virt length flags : Nat} {b : UInt8} {bs : List UInt8}
  {new : List (Nat × Nat)} {lost : List Nat}

/-- From `s` to `t`, only contents of frames that are no tables change. -/
structure SameTables (s t : State) : Prop where
  pmlt4 : t.pmlt4 = s.pmlt4
  table : ∀ p, p.length ≤ 3 → t.table p = s.table p
  bitmap : t.bitmap = s.bitmap
  refused : t.refused = s.refused
  walk : ∀ v, walk t v = walk s v

structure Owned (A : Nat → Prop) (s : State) : Prop where
  shape : TreeShaped s
  canonical : ∀ a, A a → Canonical a
  off : ∀ a, A a → ¬ OnWindow a
  frame : ∀ a, A a → ∃ f, target (walk s a) = some f ∧ s.Marked f ∧ s.NoTable f
  inj : ∀ a x f, A a → A x → target (walk s a) = some f → target (walk s x) = some f → vpn a = vpn x

/-! ## Stores -/

theorem translate_of_owned (h : Owned A s) (ha : A a) : translate s a = target (walk s a) := if_pos (h.canonical a ha)

theorem canonical_inj (ha : Canonical a) (hx : Canonical x) (hv : vpn a = vpn x) (ho : a % pageSize = x % pageSize) :
    a = x := by
  unfold Canonical vpn pageSize at *
  omega

theorem place_ne (ha : Canonical a) (hx : Canonical x) (hne : a ≠ x) (hv : vpn a = vpn x) :
    ¬ (qwordIndex a = qwordIndex x ∧ a % 8 = x % 8) := by
  rintro ⟨hq, h8⟩
  have hval := congrArg Fin.val hq
  simp only [qwordIndex, Fin.ofNat] at hval
  refine hne (canonical_inj ha hx hv ?_)
  unfold pageSize at *
  omega

theorem sameTables_store (hn : s.NoTable f) (i : Index) (e : Nat) : SameTables s (s.store f i e) where
  pmlt4 := rfl
  table _ hp := table_store (fun q hq => hn q hq.le) hp
  bitmap := rfl
  refused := rfl
  walk v := entry_store_orphan (length_tablePath v).le hn i e

theorem SameTables.refl (s : State) : SameTables s s := ⟨rfl, fun _ _ => rfl, rfl, rfl, fun _ => rfl⟩

theorem SameTables.trans (h : SameTables s t) (h' : SameTables t u) : SameTables s u :=
  ⟨h'.pmlt4.trans h.pmlt4, fun p hp => (h'.table p hp).trans (h.table p hp), h'.bitmap.trans h.bitmap,
    h'.refused.trans h.refused, fun v => (h'.walk v).trans (h.walk v)⟩

theorem SameTables.marked (h : SameTables s t) (hf : s.Marked f) : t.Marked f := by
  unfold State.Marked
  rw [h.bitmap]
  exact hf

theorem SameTables.noTable (h : SameTables s t) (hf : s.NoTable f) : t.NoTable f := by
  intro p hp
  rw [h.table p hp]
  exact hf p hp

theorem SameTables.free (h : SameTables s t) : t.free = s.free := free_congr h.bitmap

theorem SameTables.needed (h : SameTables s t) (vs : List Nat) : needed flags 1 t.has vs = needed flags 1 s.has vs := by
  apply needed_congr
  intro r hr
  rw [State.has, h.table r hr, State.has]

theorem Owned.same (h : Owned A s) (ht : SameTables s t) : Owned A t where
  shape := h.shape.congr ht.pmlt4 ht.table fun _ hf _ => ht.marked hf
  canonical := h.canonical
  off := h.off
  frame a ha := by
    obtain ⟨f, hf, hm, hn⟩ := h.frame a ha
    refine ⟨f, ?_, ht.marked hm, ht.noTable hn⟩
    rw [ht.walk]
    exact hf
  inj a x f ha hx h1 h2 := by
    rw [ht.walk] at h1 h2
    exact h.inj a x f ha hx h1 h2

theorem loadByte_of_target (h : Owned A s) (ha : A a) (hf : target (walk s a) = some f) :
    loadByte s a = some (byteOf (s.mem f (qwordIndex a)) (a % 8)) := by
  rw [loadByte, translate_of_owned h ha, hf]
  rfl

/-- A byte that is stored can be loaded again, and the others stay. -/
theorem Owned.storeByte (h : Owned A s) (ha : A a) (b : UInt8) :
    ∃ t, storeByte s a b = some t ∧ SameTables s t ∧ loadByte t a = some b ∧
      ∀ x, A x → x ≠ a → loadByte t x = loadByte s x := by
  obtain ⟨f, hf, -, hn⟩ := h.frame a ha
  have hsame := sameTables_store hn (qwordIndex a) (setByte (s.mem f (qwordIndex a)) (a % 8) b)
  have ht := h.same hsame
  refine ⟨_, ?_, hsame, ?_, fun x hx hne => ?_⟩
  · rw [Paging.storeByte, translate_of_owned h ha, hf]
    rfl
  · rw [loadByte_of_target ht ha (by rwa [hsame.walk]), mem_store, if_pos ⟨rfl, rfl⟩, Lib.byteOf_setByte]
  · obtain ⟨g, hg, -, -⟩ := h.frame x hx
    rw [loadByte_of_target ht hx (by rwa [hsame.walk]), loadByte_of_target h hx hg, mem_store]
    split_ifs with heq
    · obtain ⟨rfl, hq⟩ := heq
      have hplace := place_ne (h.canonical x hx) (h.canonical a ha) hne (h.inj x a g hx ha hg hf)
      rw [Lib.byteOf_setByte_of_ne b fun h8 => hplace ⟨hq, h8⟩, hq]
    · rfl

theorem Owned.storeBytes (h : Owned A s) (hA : ∀ i < bs.length, A (a + i)) (hend : a + bs.length ≤ 2 ^ 64) :
    ∃ t, storeBytes s a bs = some t ∧ SameTables s t ∧ (∀ i < bs.length, loadByte t (a + i) = bs[i]?) ∧
      ∀ x, A x → (x < a ∨ a + bs.length ≤ x) → loadByte t x = loadByte s x := by
  induction bs generalizing s a with
  | nil => exact ⟨s, rfl, .refl s, fun i hi => absurd hi (Nat.not_lt_zero i), fun _ _ _ => rfl⟩
  | cons b bs ih =>
      rw [List.length_cons] at hA hend
      obtain ⟨u, hu, hsu, hb, hother⟩ := h.storeByte (a := a) (hA 0 (Nat.succ_pos _)) b
      have hnext : ∀ i < bs.length, A (a + 1 + i) := by
        intro i hi
        rw [Nat.add_assoc, Nat.add_comm 1]
        exact hA (i + 1) (Nat.succ_lt_succ hi)
      obtain ⟨t, ht, hst, hbs, hrest⟩ := ih (h.same hsu) hnext (by omega)
      have hq : Paging.storeBytes u (qword (a + 1)) bs = Paging.storeBytes u (a + 1) bs := by
        cases bs with
        | nil => rfl
        | cons c bs =>
            rw [List.length_cons] at hend
            rw [qword_of_lt (by omega)]
      refine ⟨t, ?_, hsu.trans hst, fun i hi => ?_, fun x hx hout => ?_⟩
      · rw [Paging.storeBytes, hu, Option.bind_some, hq]
        exact ht
      · rcases Nat.eq_zero_or_pos i with rfl | hpos
        · rw [hrest _ (hA 0 hi) (.inl (by omega))]
          exact hb
        · obtain ⟨j, rfl⟩ : ∃ j, i = j + 1 := ⟨i - 1, by omega⟩
          rw [List.getElem?_cons_succ, ← hbs j (by simpa using hi)]
          congr 1
          omega
      · rw [List.length_cons] at hout
        rw [hrest x hx (by omega), hother x hx (by omega)]

/-- Without a page fault, all the addresses are such that the processor accepts. -/
theorem canonical_of_storeBytes (h : storeBytes s a bs = some t) (hend : a + bs.length ≤ 2 ^ 64) :
    ∀ i < bs.length, Canonical (a + i) := by
  induction bs generalizing s a with
  | nil => exact fun i hi => absurd hi (Nat.not_lt_zero i)
  | cons b bs ih =>
      rw [List.length_cons] at hend ⊢
      obtain ⟨u, hu, hrest⟩ := Option.bind_eq_some_iff.mp h
      intro i hi
      rcases Nat.eq_zero_or_pos i with rfl | hpos
      · rw [Nat.add_zero]
        by_contra hcan
        rw [storeByte, translate, if_neg hcan] at hu
        cases hu
      · obtain ⟨j, rfl⟩ : ∃ j, i = 1 + j := ⟨i - 1, by omega⟩
        rw [qword_of_lt (by omega)] at hrest
        rw [← Nat.add_assoc]
        exact ih hrest (by omega) j (by omega)

/-! ## Mapping further pages -/

def InRange (virt length a : Nat) : Prop := virt ≤ a ∧ a < virt + length

theorem vpn_rangePages (halign : virt % pageSize = 0) (hend : virt + length ≤ 2 ^ 64) (ha : InRange virt length a) :
    ∃ v ∈ rangePages virt length, vpn a = vpn v := by
  obtain ⟨hlo, hhi⟩ := ha
  have hi : (a - virt) / pageSize < pages length := by
    unfold pages pageSize
    split_ifs <;> omega
  refine ⟨_, List.mem_map.mpr ⟨(a - virt) / pageSize, List.mem_range.mpr hi, rfl⟩, ?_⟩
  unfold pageSize at halign
  unfold vpn qword pageSize
  omega

/-- Addresses in use are not in pages that are not mapped. -/
theorem Owned.not_inRange (h : Owned A s) (ha : A a) (halign : virt % pageSize = 0) (hend : virt + length ≤ 2 ^ 64)
    (h0 : ∀ w ∈ rangePages virt length, walk s w = 0) : ¬ InRange virt length a := by
  intro hin
  obtain ⟨w, hw, hvpn⟩ := vpn_rangePages halign hend hin
  obtain ⟨f, hf, -⟩ := h.frame a ha
  rw [walk_congr hvpn, h0 w hw] at hf
  cases hf

theorem Owned.frame_map (h : Owned A s) (hm : Mapping flags s t (rangePages virt length) new lost) (hp : Present flags)
    (ha : A a) : ∃ f, walk t a = walk s a ∧ target (walk s a) = some f ∧ Bit s.bitmap f ∧ t.Marked f ∧ t.NoTable f ∧
      t.mem f = s.mem f := by
  obtain ⟨f, hf, hmarked, hno⟩ := h.frame a ha
  have hkept : walk t a = walk s a := by
    refine hm.walk_kept hp (h.off a ha) fun hz => ?_
    rw [hz] at hf
    cases hf
  have hno' := hm.ext.noTable_of_bit hno hmarked.2
  exact ⟨f, hkept, hf, hmarked.2, hmarked.mono hm.ext.bit, hno', hm.ext.data hp f hmarked hno'⟩

theorem Mapping.frame_inRange (hm : Mapping flags s t (rangePages virt length) new lost) (hp : Present flags)
    (hflags : flags < pageSize) (halign : virt % pageSize = 0) (hend : virt + length ≤ 2 ^ 64)
    (h0 : ∀ v ∈ rangePages virt length, walk s v = 0) (ha : InRange virt length a) :
    ¬ OnWindow a ∧ ∃ x ∈ new, vpn a = vpn x.1 ∧ target (walk t a) = some x.2 ∧ ¬ Bit s.bitmap x.2 ∧ t.Marked x.2 ∧
      t.NoTable x.2 := by
  obtain ⟨v, hv, hav⟩ := vpn_rangePages halign hend ha
  refine ⟨fun hw => ?_, ?_⟩
  · obtain ⟨hpath, hi⟩ := (vpn_eq_iff a v).mp hav
    exact hm.off v hv ⟨hpath ▸ hw.1, hi ▸ hw.2⟩
  · obtain hkept | ⟨x, hx, hvx, hwalk⟩ := hm.walk_cases (hm.off v hv)
    · exact absurd (hkept.trans (h0 v hv)) (hm.walk_ne_zero hp hv)
    · obtain ⟨hfree, hmarked, hno⟩ := hm.frame x.2 (List.mem_append_left _ (List.mem_map_of_mem hx))
      refine ⟨x, hx, hav.trans hvx, ?_, hfree, hmarked, hno⟩
      rw [walk_congr hav, hwalk, target_or (Nat.lt_trans hmarked.1 (by decide)) hflags, if_pos hp]

/-- Pages that are mapped anew lie apart from the ones before, whose bytes stay. -/
theorem Owned.map (h : Owned A s) (hm : Mapping flags s t (rangePages virt length) new lost) (hp : Present flags)
    (hflags : flags < pageSize) (halign : virt % pageSize = 0) (hend : virt + length ≤ 2 ^ 64)
    (hcan : ∀ a, InRange virt length a → Canonical a) (h0 : ∀ v ∈ rangePages virt length, walk s v = 0) :
    Owned (fun a => A a ∨ InRange virt length a) t ∧ ∀ a, A a → loadByte t a = loadByte s a := by
  have hnew : ∀ a, InRange virt length a → _ := fun a ha => hm.frame_inRange hp hflags halign hend h0 ha
  -- no frame of an old page is the frame of a new one
  have hcross : ∀ a x f, A a → InRange virt length x → target (walk t a) = some f → target (walk t x) = some f → False := by
    intro a x f ha hx h1 h2
    obtain ⟨g, hkept, hg, hbit, -⟩ := h.frame_map hm hp ha
    obtain ⟨-, y, -, -, hy, hfree, -⟩ := hnew x hx
    rw [hkept, hg, Option.some.injEq] at h1
    rw [hy, Option.some.injEq] at h2
    rw [h1, ← h2] at hbit
    exact hfree hbit
  have hown : Owned (fun a => A a ∨ InRange virt length a) t := by
    refine ⟨hm.shape h.shape, fun a ha => ha.elim (h.canonical a) (hcan a),
      fun a ha => ha.elim (h.off a) fun ha => (hnew a ha).1, fun a ha => ?_, fun a x f ha hx h1 h2 => ?_⟩
    · rcases ha with ha | ha
      · obtain ⟨f, hkept, hf, -, hmarked, hno, -⟩ := h.frame_map hm hp ha
        exact ⟨f, by rw [hkept, hf], hmarked, hno⟩
      · obtain ⟨-, x, -, -, hf, -, hmarked, hno⟩ := hnew a ha
        exact ⟨x.2, hf, hmarked, hno⟩
    · rcases ha with ha | ha <;> rcases hx with hx | hx
      · obtain ⟨-, hkept, -⟩ := h.frame_map hm hp ha
        obtain ⟨-, hkept', -⟩ := h.frame_map hm hp hx
        rw [hkept] at h1
        rw [hkept'] at h2
        exact h.inj a x f ha hx h1 h2
      · exact (hcross a x f ha hx h1 h2).elim
      · exact (hcross x a f hx ha h2 h1).elim
      · obtain ⟨-, y, hy, hay, hya, -⟩ := hnew a ha
        obtain ⟨-, z, hz, hxz, hzx, -⟩ := hnew x hx
        have heq : y.2 = z.2 := Option.some.inj ((hya.symm.trans h1).trans (h2.symm.trans hzx))
        have hyz := List.inj_on_of_nodup_map (List.nodup_append.mp hm.nodup).1 hy hz heq
        rw [hay, hxz, hyz]
  refine ⟨hown, fun a ha => ?_⟩
  obtain ⟨f, hkept, hf, -, -, -, hmem⟩ := h.frame_map hm hp ha
  rw [loadByte_of_target hown (.inl ha) (by rw [hkept, hf]), loadByte_of_target h ha hf, hmem]

end HaOS.Paging
