import CStable.CSTableWriter

/-!
# `CStable.Proofs.Pages`: allocated pages

A `PageManager` serves every writer of a table, so what matters is the sequence
of all `allocPage` calls, whoever makes them: `allocPages` runs such a sequence.

* `allocPages_adjacent`: as long as the offset stays below `2 ^ 63`, the pages
  lie back to back from the initial offset on, so they never overlap.
* `size_le_allocPage_iff`: a page is as large as requested exactly for sizes up
  to `2 ^ 32 - 512`. For larger sizes the padded size is `2 ^ 32`, which the
  32-bit field stores as zero.
* `pagesNeverOverlap_iff`: the two together. `allocPage_truncates` is a size at
  which the allocation breaks its promise.
-/

set_option autoImplicit false

namespace CStable

open Support

namespace PageManager

/-- A sequence of `allocPage` calls: the pages returned and the page manager
afterwards. -/
def allocPages (pm : PageManager) : List UInt32 → List PageRef × PageManager
  | [] => ([], pm)
  | size :: sizes =>
    let (page, pm) := pm.allocPage size
    let (pages, pm) := pm.allocPages sizes
    (page :: pages, pm)

/-- The first page of a sequence of allocations, and the others behind it. -/
theorem allocPages_cons (pm : PageManager) (size : UInt32) (sizes : List UInt32) :
    pm.allocPages (size :: sizes) =
      ((pm.allocPage size).1 :: ((pm.allocPage size).2.allocPages sizes).1,
        ((pm.allocPage size).2.allocPages sizes).2) := rfl

/-- `getOffset` is below `2 ^ 63` after each of the calls. -/
def OffsetFits (pm : PageManager) (sizes : List UInt32) : Prop :=
  ∀ k, (pm.allocPages (sizes.take k)).2.getOffset.toNat < 2 ^ 63

/-! ### One allocation -/

/-- The size of an allocated page: the padded size, unless it is `2 ^ 32`. -/
theorem allocPage_size (pm : PageManager) (size : UInt32) :
    (pm.allocPage size).1.size.toNat =
      if size.toNat ≤ 2 ^ 32 - 512 then padToNextSector size.toNat else 0 := by
  have hlt : size.toNat < 2 ^ 32 := size.toNat_lt
  show (UInt32.ofNat (padToNextSector size.toNat)).toNat = _
  rw [UInt32.toNat_ofNat']
  unfold padToNextSector kSectorSize
  by_cases h : size.toNat ≤ 2 ^ 32 - 512
  · rw [if_pos h]
    omega
  · rw [if_neg h]
    omega

/-- A page is as large as requested exactly when the padded size fits. -/
theorem size_le_allocPage_iff (pm : PageManager) (size : UInt32) :
    size.toNat ≤ (pm.allocPage size).1.size.toNat ↔ size.toNat ≤ 2 ^ 32 - 512 := by
  rw [allocPage_size]
  by_cases h : size.toNat ≤ 2 ^ 32 - 512
  · rw [if_pos h]
    exact ⟨fun _ => h, fun _ => le_padToNextSector _⟩
  · rw [if_neg h]
    constructor
    · intro h0
      omega
    · intro h'
      exact absurd h' h

/-- A page is a whole number of sectors, also where the padding has wrapped. -/
theorem allocPage_size_dvd (pm : PageManager) (size : UInt32) :
    512 ∣ (pm.allocPage size).1.size.toNat := by
  rw [allocPage_size]
  by_cases h : size.toNat ≤ 2 ^ 32 - 512
  · rw [if_pos h]
    exact padToNextSector_dvd _
  · rw [if_neg h]
    exact Nat.dvd_zero 512

/-- Below `2 ^ 63` the offset does not wrap: it moves to the end of the page. -/
theorem allocPage_getOffset {pm : PageManager} (size : UInt32)
    (h : pm.getOffset.toNat < 2 ^ 63) :
    (pm.allocPage size).2.getOffset.toNat = (pm.allocPage size).1.extent.stop := by
  have hlt : (pm.allocPage size).1.size.toNat < 2 ^ 32 := UInt32.toNat_lt _
  have ho : pm.offset.toNat < 2 ^ 63 := h
  show (pm.offset + (pm.allocPage size).1.size.toUInt64).toNat = _
  rw [UInt64.toNat_add, UInt32.toNat_toUInt64]
  show _ = pm.offset.toNat + (pm.allocPage size).1.size.toNat
  omega

/-! ### A sequence of allocations -/

/-- The next page starts within the range of a file offset. -/
theorem OffsetFits.head {pm : PageManager} {sizes : List UInt32} (h : pm.OffsetFits sizes) :
    pm.getOffset.toNat < 2 ^ 63 := h 0

/-- What the condition says of the rest of a sequence, after its first page. -/
theorem OffsetFits.tail {pm : PageManager} {size : UInt32} {sizes : List UInt32}
    (h : pm.OffsetFits (size :: sizes)) : (pm.allocPage size).2.OffsetFits sizes :=
  fun k => h (k + 1)

/-- The pages lie back to back from the offset of the page manager to the
offset it has afterwards. -/
theorem allocPages_adjacent {pm : PageManager} {sizes : List UInt32} (h : pm.OffsetFits sizes) :
    Adjacent pm.offset.toNat ((pm.allocPages sizes).1.map PageRef.extent) ∧
      (pm.allocPages sizes).2.getOffset.toNat =
        endOf pm.offset.toNat ((pm.allocPages sizes).1.map PageRef.extent) := by
  induction sizes generalizing pm with
  | nil => exact ⟨trivial, rfl⟩
  | cons size sizes ih =>
    obtain ⟨hadj, hend⟩ := ih h.tail
    have hstop := allocPage_getOffset size h.head
    rw [getOffset] at hstop
    rw [allocPages_cons, List.map_cons, adjacent_cons, endOf_cons, hend, ← hstop]
    refine ⟨⟨rfl, hadj⟩, ?_⟩
    rw [hstop]
    rfl

/-- The offset after a sequence of allocations is the end of the last page. -/
theorem allocPages_getOffset_eq_stop {pm : PageManager} {sizes : List UInt32}
    (h : pm.OffsetFits sizes) {page : PageRef}
    (hlast : (pm.allocPages sizes).1.getLast? = some page) :
    (pm.allocPages sizes).2.getOffset.toNat = page.extent.stop := by
  induction sizes generalizing pm with
  | nil => cases hlast
  | cons size sizes ih =>
    have hstop := allocPage_getOffset size h.head
    have htail := @ih _ h.tail
    rw [allocPages_cons] at hlast ⊢
    cases hpages : ((pm.allocPage size).2.allocPages sizes).1 with
    | nil =>
      -- no allocation follows, so the offset is the one after this page
      rw [hpages, List.getLast?_singleton] at hlast
      cases hlast
      cases sizes with
      | nil => exact hstop
      | cons size' sizes => cases hpages
    | cons p ps =>
      rw [hpages, List.getLast?_cons_cons] at hlast
      exact htail (by rw [hpages]; exact hlast)

/-- Every page starts and ends on a sector when the page manager does. -/
theorem allocPages_aligned {pm : PageManager} {sizes : List UInt32} (h : pm.OffsetFits sizes)
    (halign : 512 ∣ pm.offset.toNat) :
    ∀ p ∈ (pm.allocPages sizes).1, 512 ∣ p.offset.toNat ∧ 512 ∣ p.size.toNat := by
  induction sizes generalizing pm with
  | nil =>
    intro p hp
    cases hp
  | cons size sizes ih =>
    have hsize := allocPage_size_dvd pm size
    have hnext : 512 ∣ (pm.allocPage size).2.offset.toNat := by
      have hstop : (pm.allocPage size).2.offset.toNat =
          pm.offset.toNat + (pm.allocPage size).1.size.toNat := allocPage_getOffset size h.head
      rw [hstop]
      exact Nat.dvd_add halign hsize
    intro p hp
    rcases List.mem_cons.mp hp with rfl | hp
    · exact ⟨halign, hsize⟩
    · exact ih h.tail hnext p hp

/-- Every page is as large as requested exactly when every size can be padded in
32 bits. -/
theorem allocPages_large_enough_iff (pm : PageManager) (sizes : List UInt32) :
    List.Forall₂ (fun s p => s.toNat ≤ p.size.toNat) sizes (pm.allocPages sizes).1 ↔
      ∀ s ∈ sizes, s.toNat ≤ 2 ^ 32 - 512 := by
  induction sizes generalizing pm with
  | nil => simp [allocPages]
  | cons size sizes ih =>
    rw [allocPages_cons, List.forall₂_cons, size_le_allocPage_iff, ih, List.forall_mem_cons]

/-- Pages never overlap: what the callers of `allocPage` rely on, and what the
size of the file in the metablock of `commitV2` relies on. -/
structure PagesNeverOverlap (pm : PageManager) (sizes : List UInt32) : Prop where
  aligned : ∀ p ∈ (pm.allocPages sizes).1, 512 ∣ p.offset.toNat ∧ 512 ∣ p.size.toNat
  large_enough :
    List.Forall₂ (fun s p => s.toNat ≤ p.size.toNat) sizes (pm.allocPages sizes).1
  disjoint : ((pm.allocPages sizes).1.map PageRef.extent).Pairwise Extent.Disjoint
  above : ∀ p ∈ (pm.allocPages sizes).1, pm.offset.toNat ≤ p.offset.toNat
  ends : ∀ p, (pm.allocPages sizes).1.getLast? = some p →
    (pm.allocPages sizes).2.getOffset.toNat = p.extent.stop
  file_size_covers : ∀ p ∈ (pm.allocPages sizes).1, ∀ (t : CSTableWriter) (idx_head : PageRef),
    p.extent.stop ≤ (t.newMetaBlock idx_head (pm.allocPages sizes).2).file_size.toNat

/-- The allocation keeps its promises exactly when no size is above
`2 ^ 32 - 512`. -/
theorem pagesNeverOverlap_iff (pm : PageManager) (sizes : List UInt32)
    (halign : 512 ∣ pm.offset.toNat) (hfits : pm.OffsetFits sizes) :
    PagesNeverOverlap pm sizes ↔ ∀ s ∈ sizes, s.toNat ≤ 2 ^ 32 - 512 := by
  constructor
  · intro h
    exact (allocPages_large_enough_iff pm sizes).mp h.large_enough
  · intro hsizes
    obtain ⟨hadj, hend⟩ := allocPages_adjacent hfits
    have hbounds : ∀ p ∈ (pm.allocPages sizes).1,
        pm.offset.toNat ≤ p.offset.toNat ∧
          p.extent.stop ≤ (pm.allocPages sizes).2.getOffset.toNat := by
      intro p hp
      rw [hend]
      exact hadj.bounds p.extent (List.mem_map_of_mem hp)
    exact
      { aligned := allocPages_aligned hfits halign
        large_enough := (allocPages_large_enough_iff pm sizes).mpr hsizes
        disjoint := hadj.pairwise_disjoint
        above := fun p hp => (hbounds p hp).1
        ends := fun _ hlast => allocPages_getOffset_eq_stop hfits hlast
        file_size_covers := fun p hp _ _ => (hbounds p hp).2 }

/-- The condition is met by the pages of the value writers. -/
theorem pagesNeverOverlap_pages :
    PagesNeverOverlap (PageManager.new .v0_2_0 [] 512) [1024, 1024, 524288] := by
  have hsizes : ∀ s ∈ [1024, 1024, 524288], UInt32.toNat s ≤ 2 ^ 32 - 512 := by
    simp
  refine (pagesNeverOverlap_iff _ _ (by decide) ?_).mpr hsizes
  intro k
  match k with
  | 0 => decide
  | 1 => decide
  | 2 => decide
  | k + 3 =>
    rw [List.take_of_length_le (by simp)]
    decide

/-- A page of `2 ^ 32 - 1` bytes is requested at the first sector after the
header: the page returned has size zero. -/
theorem allocPage_truncates :
    512 ∣ (PageManager.new .v0_2_0 [] 512).offset.toNat ∧
      (PageManager.new .v0_2_0 [] 512).OffsetFits [0xffffffff] ∧
      ¬ PagesNeverOverlap (PageManager.new .v0_2_0 [] 512) [0xffffffff] := by
  refine ⟨by decide, ?_, ?_⟩
  · intro k
    match k with
    | 0 => decide
    | k + 1 =>
      rw [List.take_of_length_le (by simp)]
      decide
  · intro h
    have hlarge := h.large_enough
    revert hlarge
    decide

end PageManager

end CStable
