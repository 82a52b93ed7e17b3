import CStable.CSTableWriter

/-!
# `CStable.Proofs.Store`: what page streams do to the file of a table

`PageStore.Inv` is what holds of the page writers of a v0.2.0 table from its
creation to its commit: every page write lies behind the header, every page a
writer has finished is in the file, and every writer is registered with the
index.

The offset of the page manager is a 64-bit integer that may wrap. A page at or
past `2 ^ 63` can never be written, and its writer keeps it until the commit
(`Stuck`), so a table for which `commit` succeeds never came that far.

* `PageStore.Inv.appendValue`: the step.
* `CSTableWriter.Inv.after`: the run, for any operations, also ones that fail.
* `PageIndex.writeEntries_spec`: what the commit adds.
-/

set_option autoImplicit false

namespace CStable

open Support

/-- The bytes of the range have been passed to a page write. -/
def Written (file : List FileWrite) (e : Extent) : Prop := ∃ data, .page e.start e.len data ∈ file

/-- What was written before is written still when more writes follow. They may write over it,
which is another matter. -/
theorem Written.append {file : List FileWrite} {e : Extent} (h : Written file e)
    (ws : List FileWrite) : Written (file ++ ws) e := by
  obtain ⟨data, hmem⟩ := h
  exact ⟨data, List.mem_append_left ws hmem⟩

/-- The writes are page writes behind the first `start` bytes. -/
def PagesFrom (start : Nat) (ws : List FileWrite) : Prop :=
  ∀ w ∈ ws, ∃ o n data, w = .page o n data ∧ start ≤ o

/-- Writes of pages from a position on, one list after the other. -/
theorem PagesFrom.append {start : Nat} {ws us : List FileWrite} (hws : PagesFrom start ws)
    (hus : PagesFrom start us) : PagesFrom start (ws ++ us) := by
  intro w hw
  rcases List.mem_append.mp hw with h | h
  · exact hws w h
  · exact hus w h

/-- A page behind the position is one of them. -/
theorem PagesFrom.page {start o : Nat} (h : start ≤ o) (n : Nat) (data : Bytes) :
    PagesFrom start [.page o n data] := by
  intro w hw
  rw [List.mem_singleton] at hw
  exact ⟨o, n, data, hw, h⟩

/-! ### One page writer -/

namespace UInt64PageWriter

/-- The current page lies where the kernel refuses writes. -/
def Stuck (w : UInt64PageWriter) : Prop :=
  w.has_page = true ∧ 2 ^ 63 ≤ w.page.offset.toNat + w.page.size.toNat

/-- A stuck writer cannot finish its page: the data is longer than any page, and the position
check of the write fails. -/
theorem Stuck.flushPages_ne_ok {w : UInt64PageWriter} (h : w.Stuck) (pm : PageManager)
    (r : List (PageRef × Nat) × PageManager) : w.flushPages pm ≠ .ok r := by
  intro hflush
  unfold flushPages at hflush
  rw [if_pos h.1] at hflush
  obtain ⟨pm', hwrite, -⟩ := Result.bind_eq_ok.mp hflush
  have hlt := (PageManager.writePage_eq_ok.mp hwrite).1.below
  exact absurd h.2 (by omega)

/-- A stuck writer stays stuck, as it can only begin a page after finishing the one it has. The
page it has can not be written. -/
theorem Stuck.appendValue {w w' : UInt64PageWriter} {pm pm' : PageManager} {value : UInt64}
    (h : w.Stuck) (happend : w.appendValue pm value = .ok (w', pm')) : w'.Stuck := by
  rcases appendValue_eq_ok happend with ⟨pages, pm₁, -, hflush, -, -⟩ | ⟨-, -, rfl, -⟩
  · exact absurd hflush (h.flushPages_ne_ok pm _)
  · exact h

/-- Finishing the current page adds at most its page write to the file. Every
page of the resulting list was listed before or has just been written. -/
theorem flushPages_writes {w : UInt64PageWriter} {pm pm' : PageManager}
    {pages : List (PageRef × Nat)} (start : Nat) (hflush : w.flushPages pm = .ok (pages, pm')) :
    ∃ ws, pm' = { pm with file := pm.file ++ ws } ∧
      (∀ p ∈ pages, p ∈ w.pages ∨ Written pm'.file p.1.extent) ∧
      ((w.has_page = true → start ≤ w.page.offset.toNat) → PagesFrom start ws) := by
  rcases flushPages_eq_ok hflush with ⟨-, rfl, rfl⟩ | ⟨hpage, rfl, rfl⟩
  · refine ⟨[], by rw [List.append_nil], fun p hp => Or.inl hp, fun _ w hw => ?_⟩
    cases hw
  · refine ⟨_, rfl, fun p hp => ?_, fun hstart => PagesFrom.page (hstart hpage) _ _⟩
    rcases List.mem_append.mp hp with h | h
    · exact Or.inl h
    · rw [List.mem_singleton] at h
      subst h
      exact Or.inr ⟨w.page_buf, List.mem_append_right _ List.mem_cons_self⟩

end UInt64PageWriter

/-! ### The page store -/

namespace PageStore

/-- The pages in use end below the offset of the page manager, and all page
writes so far lie behind the header. -/
structure Sound (header : Bytes) (s : PageStore) : Prop where
  header_le : header.length ≤ s.page_mgr.offset.toNat
  offset_lt : s.page_mgr.offset.toNat < 2 ^ 63
  current : ∀ w ∈ s.page_writers, w.has_page = true → header.length ≤ w.page.offset.toNat
  file : ∃ ws, s.page_mgr.file = .stream header :: ws ∧ PagesFrom header.length ws

/-- What holds of the page writers of a table after its header was written. -/
structure Inv (header : Bytes) (s : PageStore) : Prop where
  version : s.page_mgr.version = .v0_2_0
  position : s.page_mgr.meta_block_position = v0_2_0.kMetaBlockPosition
  size : s.page_mgr.meta_block_size = v0_2_0.kMetaBlockSize
  registered : ∀ i, i < s.page_writers.length → ∃ key, (key, i) ∈ s.page_idx
  finished : ∀ w ∈ s.page_writers, ∀ p ∈ w.pages,
    Written s.page_mgr.file p.1.extent
  state : (∃ w ∈ s.page_writers, w.Stuck) ∨ s.Sound header

/-- A property of some element survives the update of one element that keeps it. The store
updates one writer at a time. -/
theorem exists_mem_set {α : Type} {P : α → Prop} {l : List α} {i : Nat} {a b : α}
    (hi : l[i]? = some a) (hkeep : P a → P b) (h : ∃ x ∈ l, P x) : ∃ x ∈ l.set i b, P x := by
  obtain ⟨x, hx, hP⟩ := h
  obtain ⟨j, hj⟩ := List.mem_iff_getElem?.mp hx
  by_cases hij : i = j
  · subst hij
    rw [hi] at hj
    cases hj
    have hlen : i < l.length := (List.getElem?_eq_some_iff.mp hi).1
    exact ⟨b, List.mem_set hlen b, hkeep hP⟩
  · refine ⟨x, List.mem_iff_getElem?.mpr ⟨j, ?_⟩, hP⟩
    rw [List.getElem?_set_ne hij, hj]

/-- `appendValue` on one writer of the store keeps the invariant: the page it may finish is
written, and the one it may begin lies behind all the others. -/
theorem Inv.appendValue {header : Bytes} {s : PageStore} {pm' : PageManager}
    {w w' : UInt64PageWriter} {i : Nat} {value : UInt64} (h : s.Inv header)
    (hi : s.page_writers[i]? = some w) (happend : w.appendValue s.page_mgr value = .ok (w', pm')) :
    Inv header { s with page_mgr := pm', page_writers := s.page_writers.set i w' } := by
  have hw : w ∈ s.page_writers := List.mem_iff_getElem?.mpr ⟨i, hi⟩
  have hreg : ∀ j, j < (s.page_writers.set i w').length → ∃ key, (key, j) ∈ s.page_idx := by
    rw [List.length_set]
    exact h.registered
  have hstuck : (∃ w ∈ s.page_writers, w.Stuck) → ∃ v ∈ s.page_writers.set i w', v.Stuck :=
    exists_mem_set hi fun hs => hs.appendValue happend
  rcases UInt64PageWriter.appendValue_eq_ok happend with
    ⟨pages, pm₁, -, hflush, hw', hpm'⟩ | ⟨-, -, rfl, rfl⟩
  · -- the page is full, or there was none: it is finished and a new one begins
    rw [UInt64PageWriter.allocPage_kPageSize] at hw' hpm'
    subst hw' hpm'
    obtain ⟨ws, rfl, hpages, hfrom⟩ :=
      UInt64PageWriter.flushPages_writes header.length hflush
    refine ⟨h.version, h.position, h.size, hreg, fun v hv p hp => ?_, ?_⟩
    · rcases List.mem_or_eq_of_mem_set hv with hold | rfl
      · exact (h.finished v hold p hp).append ws
      · rcases hpages p hp with hold | hnew
        · exact (h.finished w hw p hold).append ws
        · exact hnew
    · rcases h.state with hs | hs
      · exact Or.inl (hstuck hs)
      · have hlt := hs.offset_lt
        have hsum : (s.page_mgr.offset + 1024).toNat = s.page_mgr.offset.toNat + 1024 := by
          rw [UInt64.toNat_add]
          exact Nat.mod_eq_of_lt (by simp only [UInt64.reduceToNat]; omega)
        -- an allocation past 2^63 leaves a writer whose page can never be written
        by_cases hfits : s.page_mgr.offset.toNat + 1024 < 2 ^ 63
        · refine Or.inr ⟨?_, ?_, fun v hv hpage => ?_, ?_⟩
          · have hle := hs.header_le
            show header.length ≤ (s.page_mgr.offset + 1024).toNat
            omega
          · show (s.page_mgr.offset + 1024).toNat < 2 ^ 63
            omega
          · rcases List.mem_or_eq_of_mem_set hv with hold | rfl
            · exact hs.current v hold hpage
            · exact hs.header_le
          · obtain ⟨us, hfile, hus⟩ := hs.file
            refine ⟨us ++ ws, ?_, hus.append (hfrom (hs.current w hw))⟩
            show s.page_mgr.file ++ ws = _
            rw [hfile, List.cons_append]
        · have hlen : i < s.page_writers.length := (List.getElem?_eq_some_iff.mp hi).1
          refine Or.inl ⟨_, List.mem_set hlen _, rfl, ?_⟩
          show 2 ^ 63 ≤ s.page_mgr.offset.toNat + 1024
          omega
  · -- the value goes into the buffer of the current page, and no page is written
    refine ⟨h.version, h.position, h.size, hreg, fun v hv p hp => ?_, ?_⟩
    · rcases List.mem_or_eq_of_mem_set hv with hold | rfl
      · exact h.finished v hold p hp
      · exact h.finished w hw p hp
    · rcases h.state with hs | hs
      · exact Or.inl (hstuck hs)
      · refine Or.inr ⟨hs.header_le, hs.offset_lt, fun v hv hpage => ?_, hs.file⟩
        rcases List.mem_or_eq_of_mem_set hv with hold | rfl
        · exact hs.current v hold hpage
        · exact hs.current w hw hpage

/-- The same for the function of the store, which looks up the writer and puts it back. -/
theorem preserves_appendValue (header : Bytes) (i : Nat) (value : UInt64) :
    CxxM.Preserves (Inv header) (PageStore.appendValue i value) := by
  refine CxxM.Preserves.update fun s s' hs hstep => ?_
  cases hi : s.page_writers[i]? with
  | none =>
    rw [hi] at hstep
    cases hstep
  | some w =>
    rw [hi] at hstep
    obtain ⟨⟨w', pm'⟩, happend, hret⟩ := Result.bind_eq_ok.mp hstep
    cases hret
    exact hs.appendValue hi happend

/-! ### Registering page writers -/

/-- From `s` to `s'` the keys are registered, in order, and nothing is written. -/
structure Registers (keys : List PageIndexKey) (s s' : PageStore) : Prop where
  keys : s'.page_idx.map Prod.fst = s.page_idx.map Prod.fst ++ keys
  page_mgr : s'.page_mgr = s.page_mgr
  inv : ∀ header, s.Inv header → s'.Inv header

/-- Registering nothing changes nothing. -/
theorem Registers.refl (s : PageStore) : Registers [] s s :=
  ⟨(List.append_nil _).symm, rfl, fun _ h => h⟩

/-- What is registered in two steps is registered in their order. -/
theorem Registers.trans {ks ls : List PageIndexKey} {s t u : PageStore} (h : Registers ks s t)
    (h' : Registers ls t u) : Registers (ks ++ ls) s u where
  keys := by rw [h'.keys, h.keys, List.append_assoc]
  page_mgr := h'.page_mgr.trans h.page_mgr
  inv := fun header hs => h'.inv header (h.inv header hs)

/-- `addPageWriter` puts one key behind the others; nothing checks whether the key is there
already. -/
theorem registers_addPageWriter (s : PageStore) (key : PageIndexKey) (page_writer : Nat) :
    Registers [key] s (s.addPageWriter key page_writer) where
  keys := List.map_append
  page_mgr := rfl
  inv := fun _ h =>
    { h with
      registered := fun i hi =>
        have ⟨key', hmem⟩ := h.registered i hi
        ⟨key', List.mem_append_left _ hmem⟩
      state := h.state.imp_right fun hs => { hs with } }

/-- The constructor of a page writer registers it under its key. -/
theorem registers_newPageWriter (s : PageStore) (key : PageIndexKey) :
    Registers [key] s (s.newPageWriter key).2 where
  keys := List.map_append
  page_mgr := rfl
  inv := fun header h => by
    refine ⟨h.version, h.position, h.size, fun i hi => ?_, fun w hw p hp => ?_, ?_⟩
    · have hlen : i < s.page_writers.length + 1 := by
        rw [← List.length_singleton (a := UInt64PageWriter.new), ← List.length_append]
        exact hi
      by_cases hold : i < s.page_writers.length
      · obtain ⟨key', hmem⟩ := h.registered i hold
        exact ⟨key', List.mem_append_left _ hmem⟩
      · have hi' : i = s.page_writers.length := by omega
        subst hi'
        exact ⟨key, List.mem_append_right _ List.mem_cons_self⟩
    · rcases List.mem_append.mp hw with hold | hnew
      · exact h.finished w hold p hp
      · rw [List.mem_singleton] at hnew
        subst hnew
        cases hp
    · rcases h.state with ⟨w, hw, hstuck⟩ | hs
      · exact Or.inl ⟨w, List.mem_append_left _ hw, hstuck⟩
      · refine Or.inr ⟨hs.header_le, hs.offset_lt, fun w hw hpage => ?_, hs.file⟩
        rcases List.mem_append.mp hw with hold | hnew
        · exact hs.current w hold hpage
        · rw [List.mem_singleton] at hnew
          subst hnew
          cases hpage

end PageStore

/-- The keys the constructors of a column writer register: those of the level
streams twice, by the page writer and by the column writer. -/
def ColumnConfig.registeredKeys (c : ColumnConfig) : List PageIndexKey :=
  (if c.rlevel_max > 0 then [⟨c.column_id, .RLEVEL⟩, ⟨c.column_id, .RLEVEL⟩] else []) ++
    (if c.dlevel_max > 0 then [⟨c.column_id, .DLEVEL⟩, ⟨c.column_id, .DLEVEL⟩] else []) ++
    [⟨c.column_id, .DATA⟩]

/-- The constructor of a column writer registers its level writers twice: each registers itself,
and then the constructor registers it again. -/
theorem DefaultColumnWriter.registers_new (c : ColumnConfig) (s : PageStore) :
    PageStore.Registers
      ((if c.rlevel_max > 0 then [⟨c.column_id, .RLEVEL⟩, ⟨c.column_id, .RLEVEL⟩] else []) ++
        (if c.dlevel_max > 0 then [⟨c.column_id, .DLEVEL⟩, ⟨c.column_id, .DLEVEL⟩] else []))
      s (new c s).2 := by
  have hlevel : ∀ (s : PageStore) (key : PageIndexKey),
      PageStore.Registers [key, key] s (newLevelWriter s key).2 := fun s key =>
    (PageStore.registers_newPageWriter s key).trans (PageStore.registers_addPageWriter _ key _)
  unfold new
  by_cases hr : c.rlevel_max > 0
  · by_cases hd : c.dlevel_max > 0
    · simp only [if_pos hr, if_pos hd]
      exact (hlevel s _).trans (hlevel _ _)
    · simp only [if_pos hr, if_neg hd]
      exact (hlevel s _).trans (.refl _)
  · by_cases hd : c.dlevel_max > 0
    · simp only [if_neg hr, if_pos hd]
      exact hlevel s _
    · simp only [if_neg hr, if_neg hd]
      exact .refl s

/-- The data stream is registered last, and only for integers stored in full: any other storage
type raises. -/
theorem UnsignedIntColumnWriter.new_eq_ok {c : ColumnConfig} {s s' : PageStore}
    {w : UnsignedIntColumnWriter} (h : new c s = .ok (w, s')) :
    c.storage_type = ColumnEncoding.UINT64_PLAIN.code ∧
      PageStore.Registers c.registeredKeys s s' := by
  have hreg := DefaultColumnWriter.registers_new c s
  unfold new at h
  rcases DefaultColumnWriter.new c s with ⟨base, s₁⟩
  dsimp only at h
  split at h
  · next henc =>
    cases h
    exact ⟨ColumnEncoding.ofCode?_eq_some.mp henc,
      hreg.trans (PageStore.registers_newPageWriter _ _)⟩
  · cases h

/-- A column writer is made for unsigned integers stored in full only; the other types of v0.2.0
are not implemented and raise. -/
theorem CSTableWriter.openColumnV2_eq_ok {c : ColumnConfig} {s s' : PageStore}
    {w : UnsignedIntColumnWriter} (h : openColumnV2 c s = .ok (w, s')) :
    c.logical_type = ColumnType.UNSIGNED_INT.code ∧
      c.storage_type = ColumnEncoding.UINT64_PLAIN.code ∧
      PageStore.Registers c.registeredKeys s s' := by
  unfold openColumnV2 at h
  split at h
  · next htype =>
    exact ⟨ColumnType.ofCode?_eq_some.mp htype, UnsignedIntColumnWriter.new_eq_ok h⟩
  · cases h

/-! ### A column and a table -/

/-- The functions of a column writer keep what `appendValue` keeps, because this is all they do
to the store. -/
theorem UnsignedIntColumnWriter.preserves_call {P : PageStore → Prop}
    (h : ∀ i value, CxxM.Preserves P (PageStore.appendValue i value))
    (w : UnsignedIntColumnWriter) (c : WriteCall) : CxxM.Preserves P (w.call c) := by
  have hlevel : ∀ page_writer lvl,
      CxxM.Preserves P (DefaultColumnWriter.appendLevel page_writer lvl) := by
    intro page_writer lvl
    cases page_writer with
    | none => exact .pure ()
    | some i => exact h i _
  have hwrite : ∀ rlvl dlvl value, CxxM.Preserves P (w.writeUnsignedInt rlvl dlvl value) :=
    fun rlvl dlvl value => (hlevel _ _).bind fun _ => (hlevel _ _).bind fun _ => h _ _
  unfold call
  cases c.arg with
  | null => exact (hlevel _ _).bind fun _ => hlevel _ _
  | boolean value => exact hwrite _ _ _
  | unsignedInt value => exact hwrite _ _ _
  | signedInt value => exact hwrite _ _ _
  | float value => exact (CxxM.Preserves.lift _).bind fun _ => hwrite _ _ _
  | string value => exact (CxxM.Preserves.lift _).bind fun _ => hwrite _ _ _
  | dateTime value => exact hwrite _ _ _

/-! ### The index -/

namespace PageIndex

/-- What the loop over the registered writers does: the entries have the keys in
order, the pages they list are in the file, and no writer was stuck. -/
structure Entries (page_writers : List UInt64PageWriter) (page_mgr page_mgr' : PageManager)
    (idx : List (PageIndexKey × Nat)) (entries : List (PageIndexKey × Bytes)) : Prop where
  keys : entries.map Prod.fst = idx.map Prod.fst
  not_stuck : ∀ key i w, (key, i) ∈ idx → page_writers[i]? = some w → ¬ w.Stuck
  writes : ∃ ws, page_mgr' = { page_mgr with file := page_mgr.file ++ ws } ∧
    ∀ start, (∀ w ∈ page_writers, w.has_page = true → start ≤ w.page.offset.toNat) →
      PagesFrom start ws
  pages : (∀ w ∈ page_writers, ∀ p ∈ w.pages, Written page_mgr.file p.1.extent) →
    ∀ e ∈ entries, ∃ pages, e.2 = UInt64PageWriter.pageListBytes pages ∧
      ∀ p ∈ pages, Written page_mgr'.file p.1.extent

/-- The loop of `PageIndex::write` over the registrations: each entry finishes the current page
of its writer and lists the pages. By induction on the registrations, with the page manager
moving on; the writers themselves are not changed. -/
theorem writeEntries_spec {page_writers : List UInt64PageWriter} {page_mgr page_mgr' : PageManager}
    {idx : List (PageIndexKey × Nat)} {entries : List (PageIndexKey × Bytes)}
    (h : writeEntries page_writers page_mgr idx = .ok (entries, page_mgr')) :
    Entries page_writers page_mgr page_mgr' idx entries := by
  induction idx generalizing page_mgr entries with
  | nil =>
    cases h
    refine ⟨rfl, fun key i w hmem => absurd hmem List.not_mem_nil, ⟨[], ?_, fun _ _ w hw => ?_⟩,
      fun _ e he => absurd he List.not_mem_nil⟩
    · rw [List.append_nil]
    · cases hw
  | cons entry rest ih =>
    obtain ⟨key, writer⟩ := entry
    unfold writeEntries at h
    cases hw : page_writers[writer]? with
    | none =>
      rw [hw] at h
      cases h
    | some w =>
      rw [hw] at h
      have hmem : w ∈ page_writers := List.mem_iff_getElem?.mpr ⟨writer, hw⟩
      obtain ⟨⟨index, pm₁⟩, hindex, h⟩ := Result.bind_eq_ok.mp h
      obtain ⟨⟨pages, pm₂⟩, hflush, hret⟩ := Result.bind_eq_ok.mp hindex
      cases hret
      obtain ⟨⟨entries', pm₃⟩, hrest, hret⟩ := Result.bind_eq_ok.mp h
      cases hret
      have hih := ih hrest
      -- this writer was flushed: it is not stuck, and the pages it lists are in the file
      have hstuck : ¬ w.Stuck := fun hs => hs.flushPages_ne_ok page_mgr _ hflush
      have hflushed := fun start => UInt64PageWriter.flushPages_writes start hflush
      obtain ⟨us, rfl, hus⟩ := hih.writes
      obtain ⟨ws, rfl, hlisted, -⟩ := hflushed 0
      refine ⟨?_, fun key' i v hkey hv => ?_, ⟨ws ++ us, ?_, fun start hstart => ?_⟩,
        fun hfin e he => ?_⟩
      · rw [List.map_cons, List.map_cons, hih.keys]
      · rcases List.mem_cons.mp hkey with heq | htail
        · cases heq
          rw [hw] at hv
          cases hv
          exact hstuck
        · exact hih.not_stuck key' i v htail hv
      · rw [List.append_assoc]
      · obtain ⟨ws', hws', -, hfrom⟩ := hflushed start
        have hsame : ws = ws' := List.append_cancel_left (congrArg PageManager.file hws')
        subst hsame
        exact (hfrom (hstart w hmem)).append (hus start hstart)
      · rcases List.mem_cons.mp he with rfl | htail
        · refine ⟨pages, rfl, fun p hp => ?_⟩
          rcases hlisted p hp with hold | hnew
          · exact ((hfin w hmem p hold).append ws).append us
          · exact hnew.append us
        · exact hih.pages (fun v hv p hp => (hfin v hv p hp).append ws) e htail

/-- A table whose index could be written was never stuck, since a stuck writer would have failed
to finish its page. -/
theorem Entries.sound {header : Bytes} {s : PageStore} {page_mgr' : PageManager}
    {entries : List (PageIndexKey × Bytes)}
    (h : Entries s.page_writers s.page_mgr page_mgr' s.page_idx entries) (hs : s.Inv header) :
    s.Sound header := by
  rcases hs.state with ⟨w, hw, hstuck⟩ | hsound
  · obtain ⟨i, hi⟩ := List.mem_iff_getElem?.mp hw
    obtain ⟨key, hkey⟩ := hs.registered i (List.getElem?_eq_some_iff.mp hi).1
    exact absurd hstuck (h.not_stuck key i w hkey hi)
  · exact hsound

/-- The write of the page that holds an index. -/
def indexWrite (page : PageRef) (entries : List (PageIndexKey × Bytes)) : FileWrite :=
  .page page.offset.toNat page.size.toNat
    (indexPage (entries.flatMap entryBytes).length (entries.flatMap entryBytes))

/-- `write` for a table without an old index: the entries, then one page that
holds them. -/
theorem write_eq_ok {s : PageStore} {page : PageRef} {page_mgr' : PageManager}
    (h : write s none = .ok (page, page_mgr')) :
    ∃ entries page_mgr size, writeEntries s.page_writers s.page_mgr s.page_idx =
        .ok (entries, page_mgr) ∧
      page = (page_mgr.allocPage size).1 ∧
      page_mgr' = { (page_mgr.allocPage size).2 with
        file := page_mgr.file ++ [indexWrite page entries] } := by
  obtain ⟨⟨entries, pm⟩, hentries, h⟩ := Result.bind_eq_ok.mp h
  dsimp only at h
  split_ifs at h with hempty
  obtain ⟨pm₁, hwrite, h⟩ := Result.bind_eq_ok.mp h
  obtain ⟨-, rfl⟩ := PageManager.writePage_eq_ok.mp hwrite
  obtain ⟨_, hcheck, hret⟩ := Result.bind_eq_ok.mp h
  cases hret
  unfold RCHECK at hcheck
  split_ifs at hcheck with hused
  · refine ⟨entries, pm, _, hentries, rfl, ?_⟩
    rw [beq_iff_eq.mp hused]
    rfl
  · cases hcheck

end PageIndex

namespace CSTableWriter

/-- The columns of a table are opened one after the other, and the keys of each are registered
in this order. -/
theorem openColumns_v2_spec {columns : List ColumnConfig} {s s' : PageStore}
    {slots : List ColumnSlot} (h : openColumns .v0_2_0 s columns = .ok (slots, s')) :
    (∀ c ∈ columns, c.logical_type = ColumnType.UNSIGNED_INT.code ∧
        c.storage_type = ColumnEncoding.UINT64_PLAIN.code) ∧
      PageStore.Registers (columns.flatMap ColumnConfig.registeredKeys) s s' := by
  induction columns generalizing s slots with
  | nil =>
    cases h
    exact ⟨fun c hc => absurd hc List.not_mem_nil, .refl _⟩
  | cons c cs ih =>
    obtain ⟨⟨w, s₁⟩, hcol, h₁⟩ := Result.bind_eq_ok.mp h
    obtain ⟨⟨writers, s₂⟩, hrest, hret⟩ := Result.bind_eq_ok.mp
      ((Result.ok_bind _ _).symm.trans h₁)
    cases hret
    obtain ⟨htype, henc, hreg⟩ := openColumnV2_eq_ok hcol
    obtain ⟨htypes, hregs⟩ := ih hrest
    refine ⟨fun c' hc' => ?_, hreg.trans hregs⟩
    rcases List.mem_cons.mp hc' with rfl | hmem
    · exact ⟨htype, henc⟩
    · exact htypes c' hmem

/-- A table of v0.2.0 that has been created: its header is written, its columns
are registered with the index, and nothing else has happened. -/
structure Created (t : CSTableWriter) (header : Bytes) : Prop where
  version : t.version = .v0_2_0
  writeHeader : v0_2_0.writeHeader t.columns = .ok header
  file : t.file = [.stream header]
  types : ∀ c ∈ t.columns, c.logical_type = ColumnType.UNSIGNED_INT.code ∧
    c.storage_type = ColumnEncoding.UINT64_PLAIN.code
  keys : t.pages.page_idx.map Prod.fst = t.columns.flatMap ColumnConfig.registeredKeys
  inv : t.pages.Inv header
  current_txid : t.current_txid = 0
  free_idx_ptr : t.free_idx_ptr = none

/-- The columns of a new table are the flat columns of a copy of its schema. -/
theorem createFile_columns {mem : Uninit} {order : HashOrder} {version : BinaryFormatVersion}
    {schema : TableSchema} {t : CSTableWriter} (h : createFile mem order version schema = .ok t) :
    t.columns = TableSchema.flatColumns mem (TableSchema.copy order schema) := by
  obtain ⟨_, -, h⟩ := Result.bind_eq_ok.mp h
  obtain ⟨_, -, hret⟩ := Result.bind_eq_ok.mp h
  cases hret
  rfl

/-- A new table of v0.2.0 has its header in the file, an empty store and no rows. -/
theorem createFile_v2_spec {mem : Uninit} {order : HashOrder} {schema : TableSchema}
    {t : CSTableWriter} (h : createFile mem order .v0_2_0 schema = .ok t) :
    ∃ header, t.Created header := by
  obtain ⟨⟨file, header_size⟩, hinit, h⟩ := Result.bind_eq_ok.mp h
  obtain ⟨header, hheader, hlt, rfl, rfl⟩ := initialHeader_eq_ok hinit
  obtain ⟨⟨writers, pages⟩, hopen, hret⟩ := Result.bind_eq_ok.mp h
  cases hret
  obtain ⟨htypes, hreg⟩ := openColumns_v2_spec hopen
  have hoff : (UInt64.ofNat header.length).toNat = header.length := by
    rw [UInt64.toNat_ofNat']
    exact Nat.mod_eq_of_lt (by omega)
  refine ⟨header, rfl, hheader, ?_, htypes, hreg.keys, hreg.inv header ?_, rfl, rfl⟩
  · show pages.page_mgr.file = _
    rw [hreg.page_mgr]
    rfl
  · refine ⟨rfl, rfl, rfl, fun i hi => absurd hi (Nat.not_lt_zero i), fun w hw => ?_,
      Or.inr ⟨?_, ?_, fun w hw => ?_, [], rfl, fun w hw => ?_⟩⟩
    · cases hw
    · show header.length ≤ (UInt64.ofNat header.length).toNat
      omega
    · show (UInt64.ofNat header.length).toNat < 2 ^ 63
      omega
    · cases hw
    · cases hw

/-- Creating a table, writing to it and committing it. -/
def createAndCommit (mem : Uninit) (order : HashOrder) (version : BinaryFormatVersion)
    (schema : TableSchema) (ops : List TableOp) : Result (CSTableWriter × CSTableWriter) := do
  let t ← createFile mem order version schema
  let t' ← (t.after ops).commit mem
  .ok (t, t')

/-- What no operation between creation and commit changes. -/
structure SameTable (t t' : CSTableWriter) : Prop where
  version : t'.version = t.version
  schema : t'.schema = t.schema
  columns : t'.columns = t.columns
  current_txid : t'.current_txid = t.current_txid
  cur_idx_ptr : t'.cur_idx_ptr = t.cur_idx_ptr
  free_idx_ptr : t'.free_idx_ptr = t.free_idx_ptr

/-- A table is the same as itself but for the columns and the store. -/
theorem SameTable.refl (t : CSTableWriter) : SameTable t t := ⟨rfl, rfl, rfl, rfl, rfl, rfl⟩

/-- And so are tables that are the same as one in between. -/
theorem SameTable.trans {t u v : CSTableWriter} (h : SameTable t u) (h' : SameTable u v) :
    SameTable t v where
  version := h'.version.trans h.version
  schema := h'.schema.trans h.schema
  columns := h'.columns.trans h.columns
  current_txid := h'.current_txid.trans h.current_txid
  cur_idx_ptr := h'.cur_idx_ptr.trans h.cur_idx_ptr
  free_idx_ptr := h'.free_idx_ptr.trans h.free_idx_ptr

/-- A write to a column changes the columns and the page store, the latter only
through the functions of the column writer. -/
theorem writeColumn_spec {P : PageStore → Prop}
    (h : ∀ i value, CxxM.Preserves P (PageStore.appendValue i value)) (i : Nat) (c : WriteCall)
    (t : CSTableWriter) :
    SameTable t (CxxM.exec (writeColumn i c) t).2 ∧
      (P t.pages → P (CxxM.exec (writeColumn i c) t).2.pages) := by
  unfold CxxM.exec writeColumn
  cases t.slot i with
  | error e => exact ⟨.refl t, id⟩
  | ok slot =>
    dsimp only
    -- a v0.1.0 writer has no pages; one of v0.2.0 may have written some before it raised
    cases slot.writer with
    | v1 w =>
      dsimp only
      cases w.call c with
      | ok w => exact ⟨⟨rfl, rfl, rfl, rfl, rfl, rfl⟩, id⟩
      | error e => exact ⟨.refl t, id⟩
    | v2 w =>
      have hkeep := UnsignedIntColumnWriter.preserves_call h w c t.pages
      dsimp only
      rcases hrun : CxxM.exec (w.call c) t.pages with ⟨r, pages⟩
      rw [hrun] at hkeep
      cases r with
      | ok u => exact ⟨⟨rfl, rfl, rfl, rfl, rfl, rfl⟩, hkeep⟩
      | error e => exact ⟨⟨rfl, rfl, rfl, rfl, rfl, rfl⟩, hkeep⟩

/-- An operation changes the columns, the store and the number of rows, whether it fails
or not. -/
theorem apply_spec {P : PageStore → Prop}
    (h : ∀ i value, CxxM.Preserves P (PageStore.appendValue i value)) (op : TableOp)
    (t : CSTableWriter) :
    SameTable t (CxxM.exec (apply op) t).2 ∧ (P t.pages → P (CxxM.exec (apply op) t).2.pages) := by
  cases op with
  | addRow => exact ⟨⟨rfl, rfl, rfl, rfl, rfl, rfl⟩, id⟩
  | addRows n => exact ⟨⟨rfl, rfl, rfl, rfl, rfl, rfl⟩, id⟩
  | write column c =>
    rw [exec_apply_write]
    cases t.getColumnWriter column with
    | ok i => exact writeColumn_spec h i c t
    | error e => exact ⟨.refl t, id⟩

/-- A run of operations, whether they fail or not, keeps what the functions of the store keep.
By induction on the operations. -/
theorem after_spec {P : PageStore → Prop}
    (h : ∀ i value, CxxM.Preserves P (PageStore.appendValue i value)) (ops : List TableOp)
    (t : CSTableWriter) :
    SameTable t (after ops t) ∧ (P t.pages → P (after ops t).pages) := by
  induction ops generalizing t with
  | nil => exact ⟨.refl t, id⟩
  | cons op ops ih =>
    obtain ⟨hsame, hkeep⟩ := apply_spec h op t
    obtain ⟨hsame', hkeep'⟩ := ih (CxxM.exec (apply op) t).2
    exact ⟨hsame.trans hsame', fun hP => hkeep' (hkeep hP)⟩

end CSTableWriter

end CStable
