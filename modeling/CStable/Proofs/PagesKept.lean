import CStable.Proofs.IndexPage
import CStable.Proofs.TableV2

/-!
# `CStable.Proofs.PagesKept`: what appending to a v0.2.0 table leaves alone

A page writer writes its current page when the page is full and when the table is
committed, each time from the beginning of its buffer, and the buffer only grows. So a page
that has been written holds the same bytes from then on, as far as they were written.

* `KeptByAppend`: what `appendValue` does to a page store, as the two cases an invariant has
  to survive.
* `Since`: the state of a page store since an earlier one. Everything written in between is
  `Later`: behind all pages there were, or a current page of then with more in it.
-/

set_option autoImplicit false

namespace CStable

open Support

/-! ### One page writer -/

namespace UInt64PageWriter

/-- The page writes of `flushPages`. -/
def flushWrites (w : UInt64PageWriter) : List FileWrite :=
  if w.has_page then [.page w.page.offset.toNat w.page.size.toNat w.page_buf] else []

/-- Finishing the current page is one page write, if there is a current page. -/
theorem mem_flushWrites {w : UInt64PageWriter} {u : FileWrite} : u ∈ w.flushWrites ↔
    w.has_page = true ∧ u = .page w.page.offset.toNat w.page.size.toNat w.page_buf := by
  unfold flushWrites
  split_ifs with hpage
  · rw [List.mem_singleton]
    exact ⟨fun h => ⟨hpage, h⟩, fun h => h.2⟩
  · exact ⟨fun h => absurd h List.not_mem_nil, fun h => absurd h.1 hpage⟩

/-- `flushPages` lists the current page and writes it, and does nothing else. -/
theorem flushPages_ok {w : UInt64PageWriter} {pm pm' : PageManager} {pages : List (PageRef × Nat)}
    (h : w.flushPages pm = .ok (pages, pm')) :
    pages = w.listed ∧ pm' = { pm with file := pm.file ++ w.flushWrites } := by
  unfold listed flushWrites
  rcases flushPages_eq_ok h with ⟨hpage, rfl, rfl⟩ | ⟨hpage, rfl, rfl⟩
  · rw [hpage, if_neg Bool.false_ne_true, if_neg Bool.false_ne_true, List.append_nil]
    exact ⟨rfl, rfl⟩
  · rw [hpage, if_pos rfl, if_pos rfl]
    exact ⟨rfl, rfl⟩

/-- The writer after a value that goes to its current page. -/
def extend (w : UInt64PageWriter) (value : UInt64) : UInt64PageWriter :=
  { w with page_buf := w.page_buf ++ appendUInt64 value.toNat }

/-- The writer after a value for which it has begun a page. -/
def begin (w : UInt64PageWriter) (page : PageRef) (value : UInt64) : UInt64PageWriter where
  has_page := true
  page := page
  page_buf := w.page_buf ++ appendUInt64 value.toNat
  pages := w.listed

/-- The pages a writer has been given so far. -/
def allPages (w : UInt64PageWriter) : List PageRef :=
  w.pages.map Prod.fst ++ if w.has_page then [w.page] else []

/-- The pages of a writer are the finished ones and the current one. -/
theorem mem_allPages {w : UInt64PageWriter} {p : PageRef} : p ∈ w.allPages ↔
    p ∈ w.pages.map Prod.fst ∨ w.has_page = true ∧ p = w.page := by
  unfold allPages
  split_ifs with hpage
  · rw [List.mem_append, List.mem_singleton]
    exact or_congr_right ⟨fun h => ⟨hpage, h⟩, fun h => h.2⟩
  · rw [List.append_nil]
    exact ⟨Or.inl, fun h => h.resolve_right fun h => hpage h.1⟩

/-- The finished pages of a writer that has begun a page are all pages it had. -/
theorem map_listed (w : UInt64PageWriter) : w.listed.map Prod.fst = w.allPages := by
  unfold listed allPages
  split_ifs
  · rw [List.map_append, List.map_singleton]
  · rw [List.append_nil]

end UInt64PageWriter

/-! ### The page store -/

namespace PageStore

/-- The store after a value that goes to the current page of its writer. -/
def extend (s : PageStore) (i : Nat) (w : UInt64PageWriter) (value : UInt64) : PageStore :=
  { s with page_writers := s.page_writers.set i (w.extend value) }

/-- The store after a value for which its writer has begun a page. -/
def begin (s : PageStore) (i : Nat) (w : UInt64PageWriter) (value : UInt64) : PageStore :=
  { s with
    page_mgr := { s.page_mgr with
      file := s.page_mgr.file ++ w.flushWrites
      offset := s.page_mgr.offset + 1024 }
    page_writers := s.page_writers.set i (w.begin ⟨s.page_mgr.offset, 1024⟩ value) }

/-- A page that is begun takes 1024 bytes, if the positions are below `2 ^ 63`. -/
theorem offset_begin {s : PageStore} {i : Nat} {w : UInt64PageWriter} {value : UInt64}
    (h : s.page_mgr.offset.toNat + 1024 < 2 ^ 63) :
    (s.begin i w value).page_mgr.offset.toNat = s.page_mgr.offset.toNat + 1024 := by
  show (s.page_mgr.offset + 1024).toNat = _
  rw [UInt64.toNat_add]
  exact Nat.mod_eq_of_lt (by simp only [UInt64.reduceToNat]; omega)

/-- The property is kept by `appendValue`, as long as the pages stay where the kernel writes
them. -/
structure KeptByAppend (P : PageStore → Prop) : Prop where
  offset_lt : ∀ s, P s → s.page_mgr.offset.toNat < 2 ^ 63
  extend : ∀ s i w value, P s → s.page_writers[i]? = some w → P (s.extend i w value)
  begin : ∀ s i w value, P s → s.page_writers[i]? = some w →
    s.page_mgr.offset.toNat + 1024 < 2 ^ 63 → P (s.begin i w value)

/-- A writer of the store has its page where the kernel refuses writes. It will never be
committed. -/
def SomeStuck (s : PageStore) : Prop := ∃ w ∈ s.page_writers, w.Stuck

/-- A property that both branches of `appendValue` keep is kept by the function, up to a writer
that gets stuck. -/
theorem KeptByAppend.preserves {P : PageStore → Prop} (h : KeptByAppend P) (i : Nat)
    (value : UInt64) :
    CxxM.Preserves (fun s => s.SomeStuck ∨ P s) (PageStore.appendValue i value) := by
  refine CxxM.Preserves.update fun s s' hs hstep => ?_
  cases hi : s.page_writers[i]? with
  | none =>
    rw [hi] at hstep
    cases hstep
  | some w =>
    rw [hi] at hstep
    obtain ⟨⟨w', pm'⟩, happend, hret⟩ := Result.bind_eq_ok.mp hstep
    cases hret
    have hlen : i < s.page_writers.length := (List.getElem?_eq_some_iff.mp hi).1
    rcases hs with hstuck | hP
    · exact Or.inl (exists_mem_set hi (fun hw => hw.appendValue happend) hstuck)
    rcases UInt64PageWriter.appendValue_eq_ok happend with
      ⟨pages, pm₁, -, hflush, rfl, rfl⟩ | ⟨-, -, rfl, rfl⟩
    · obtain ⟨rfl, rfl⟩ := UInt64PageWriter.flushPages_ok hflush
      rw [UInt64PageWriter.allocPage_kPageSize]
      by_cases hfits : s.page_mgr.offset.toNat + 1024 < 2 ^ 63
      · exact Or.inr (h.begin s i w value hP hi hfits)
      · -- the new page is where the kernel refuses writes
        refine Or.inl ⟨_, List.mem_set hlen _, rfl, ?_⟩
        show 2 ^ 63 ≤ s.page_mgr.offset.toNat + 1024
        omega
    · exact Or.inr (h.extend s i w value hP hi)

/-- What of the store no write changes: where the metablocks are, the registrations and the
number of writers. -/
structure SameIndex (s s' : PageStore) : Prop where
  version : s'.page_mgr.version = s.page_mgr.version
  position : s'.page_mgr.meta_block_position = s.page_mgr.meta_block_position
  size : s'.page_mgr.meta_block_size = s.page_mgr.meta_block_size
  page_idx : s'.page_idx = s.page_idx
  length : s'.page_writers.length = s.page_writers.length

/-- A store has the same index as itself. -/
theorem SameIndex.refl (s : PageStore) : SameIndex s s := ⟨rfl, rfl, rfl, rfl, rfl⟩

/-- Appending a value never touches the registrations. -/
theorem preserves_sameIndex (s₀ : PageStore) (i : Nat) (value : UInt64) :
    CxxM.Preserves (SameIndex s₀) (PageStore.appendValue i value) := by
  refine CxxM.Preserves.update fun s s' hs hstep => ?_
  cases hi : s.page_writers[i]? with
  | none =>
    rw [hi] at hstep
    cases hstep
  | some w =>
    rw [hi] at hstep
    obtain ⟨⟨w', pm'⟩, happend, hret⟩ := Result.bind_eq_ok.mp hstep
    cases hret
    have hlength : (s.page_writers.set i w').length = s₀.page_writers.length :=
      (List.length_set ..).trans hs.length
    rcases UInt64PageWriter.appendValue_eq_ok happend with
      ⟨pages, pm₁, -, hflush, rfl, rfl⟩ | ⟨-, -, rfl, rfl⟩
    · obtain ⟨-, rfl⟩ := UInt64PageWriter.flushPages_ok hflush
      exact ⟨hs.version, hs.position, hs.size, hs.page_idx, hlength⟩
    · exact ⟨hs.version, hs.position, hs.size, hs.page_idx, hlength⟩

/-! ### The store since an earlier state -/

/-- A page write that came after the writers were `snap` and all pages ended at `limit`: it
is behind them, or it writes a page that was being filled again, with more in it. -/
def Later (limit : Nat) (snap : List UInt64PageWriter) : FileWrite → Prop
  | .page o n data => limit ≤ o ∨ ∃ v ∈ snap, v.has_page = true ∧ o = v.page.offset.toNat ∧
      n = v.page.size.toNat ∧ v.page_buf <+: data
  | _ => False

/-- The store since its writers were `snap`, its pages ended at `limit` and its file was
`base`. All pages are behind `start`; those being filled overlap no other. -/
structure Since (start limit : Nat) (base : List FileWrite) (snap : List UInt64PageWriter)
    (s : PageStore) : Prop where
  offset_lt : s.page_mgr.offset.toNat < 2 ^ 63
  start_le : start ≤ limit
  limit_le : limit ≤ s.page_mgr.offset.toNat
  within : ∀ w ∈ s.page_writers, ∀ p ∈ w.allPages,
    start ≤ p.offset.toNat ∧ p.extent.stop ≤ s.page_mgr.offset.toNat
  finished : ∀ w ∈ s.page_writers, ∀ v ∈ s.page_writers, v.has_page = true →
    ∀ p ∈ w.pages.map Prod.fst, Extent.Disjoint p.extent v.page.extent
  written : ∀ w ∈ s.page_writers, ∀ p ∈ w.pages, Written s.page_mgr.file p.1.extent
  filled : ∀ (i j : Nat) (w v : UInt64PageWriter), s.page_writers[i]? = some w →
    s.page_writers[j]? = some v → i ≠ j → w.has_page = true → v.has_page = true →
      Extent.Disjoint w.page.extent v.page.extent
  current : ∀ (i : Nat) (w : UInt64PageWriter), s.page_writers[i]? = some w →
    w.has_page = true → limit ≤ w.page.offset.toNat ∨ ∃ v, snap[i]? = some v ∧ v.has_page = true ∧
      w.page = v.page ∧ v.page_buf <+: w.page_buf
  file : ∃ ws, s.page_mgr.file = base ++ ws ∧ ∀ u ∈ ws, Later limit snap u

/-- After an update an element is the new one or an old one at another position. -/
theorem getElem?_set_cases {α : Type} {l : List α} {i j : Nat} {b x : α}
    (h : (l.set i b)[j]? = some x) : i = j ∧ x = b ∨ i ≠ j ∧ l[j]? = some x := by
  by_cases hij : i = j
  · subst hij
    have hlt : i < (l.set i b).length := (List.getElem?_eq_some_iff.mp h).1
    rw [List.getElem?_set_self (by rwa [List.length_set] at hlt)] at h
    exact Or.inl ⟨rfl, (Option.some.inj h).symm⟩
  · rw [List.getElem?_set_ne hij] at h
    exact Or.inr ⟨hij, h⟩

variable {start limit : Nat} {base : List FileWrite} {snap : List UInt64PageWriter}
  {s : PageStore} {i : Nat} {w : UInt64PageWriter}

/-- The page that a flush writes is one that the earlier state did not list as finished, or it
is written again with its data in front. -/
theorem Since.later_flush (h : s.Since start limit base snap) (hi : s.page_writers[i]? = some w) :
    ∀ u ∈ w.flushWrites, Later limit snap u := by
  intro u hu
  obtain ⟨hpage, rfl⟩ := UInt64PageWriter.mem_flushWrites.mp hu
  rcases h.current i w hi hpage with hnew | ⟨v, hv, hvpage, heq, hbuf⟩
  · exact Or.inl hnew
  · exact Or.inr ⟨v, List.mem_of_getElem? hv, hvpage, by rw [heq], by rw [heq], hbuf⟩

/-- A value on the current page changes the buffer only; no page is begun or written. -/
theorem Since.extend (h : s.Since start limit base snap) (value : UInt64)
    (hi : s.page_writers[i]? = some w) : (s.extend i w value).Since start limit base snap := by
  have hw : w ∈ s.page_writers := List.mem_of_getElem? hi
  -- the pages of the writer are the same, only the buffer is longer
  have hmem : ∀ v ∈ (s.extend i w value).page_writers, ∃ u ∈ s.page_writers,
      u.pages = v.pages ∧ u.has_page = v.has_page ∧ u.page = v.page := fun v hv => by
    rcases List.mem_or_eq_of_mem_set hv with hold | rfl
    · exact ⟨v, hold, rfl, rfl, rfl⟩
    · exact ⟨w, hw, rfl, rfl, rfl⟩
  refine ⟨h.offset_lt, h.start_le, h.limit_le, fun v hv p hp => ?_, fun v hv u hu hpage p hp => ?_,
    fun v hv p hp => ?_, fun j k v u hj hk hne hvpage hupage => ?_, fun j v hj hpage => ?_, h.file⟩
  · obtain ⟨v', hv', hpages, hhas, hcur⟩ := hmem v hv
    refine h.within v' hv' p (UInt64PageWriter.mem_allPages.mpr ?_)
    rw [hpages, hhas, hcur]
    exact UInt64PageWriter.mem_allPages.mp hp
  · obtain ⟨v', hv', hpages, -, -⟩ := hmem v hv
    obtain ⟨u', hu', -, hhas, hcur⟩ := hmem u hu
    rw [← hcur]
    exact h.finished v' hv' u' hu' (hhas.trans hpage) p (hpages ▸ hp)
  · obtain ⟨v', hv', hpages, -, -⟩ := hmem v hv
    exact h.written v' hv' p (hpages ▸ hp)
  · have hsame : ∀ {j : Nat} {v : UInt64PageWriter},
        (s.extend i w value).page_writers[j]? = some v → ∃ u : UInt64PageWriter,
          s.page_writers[j]? = some u ∧ u.has_page = v.has_page ∧ u.page = v.page := by
      intro j v hj
      rcases getElem?_set_cases hj with ⟨rfl, rfl⟩ | ⟨-, hold⟩
      · exact ⟨w, hi, rfl, rfl⟩
      · exact ⟨v, hold, rfl, rfl⟩
    obtain ⟨v', hj', hhas, hcur⟩ := hsame hj
    obtain ⟨u', hk', hhas', hcur'⟩ := hsame hk
    rw [← hcur, ← hcur']
    exact h.filled j k v' u' hj' hk' hne (hhas.trans hvpage) (hhas'.trans hupage)
  · rcases getElem?_set_cases hj with ⟨rfl, rfl⟩ | ⟨-, hold⟩
    · rcases h.current i w hi hpage with hnew | ⟨u, hu, hupage, heq, hbuf⟩
      · exact Or.inl hnew
      · exact Or.inr ⟨u, hu, hupage, heq, hbuf.trans (List.prefix_append _ _)⟩
    · exact h.current j v hold hpage

/-- A page that is begun now lies behind every page there is. -/
theorem Since.disjoint_begin (h : s.Since start limit base snap) :
    ∀ v ∈ s.page_writers, ∀ p ∈ v.allPages,
      Extent.Disjoint p.extent (⟨s.page_mgr.offset, 1024⟩ : PageRef).extent :=
  fun v hv p hp => Or.inl (h.within v hv p hp).2

/-- The finished pages after a page is begun: the page that was full has become one of them, and
overlaps none that is being filled. -/
theorem Since.finished_begin (h : s.Since start limit base snap) (value : UInt64)
    (hi : s.page_writers[i]? = some w) :
    ∀ v ∈ (s.begin i w value).page_writers, ∀ u ∈ (s.begin i w value).page_writers,
      u.has_page = true → ∀ p ∈ v.pages.map Prod.fst, Extent.Disjoint p.extent u.page.extent := by
  intro v hv u hu hpage p hp
  have hw : w ∈ s.page_writers := List.mem_of_getElem? hi
  -- the finished pages of a writer are pages it had
  obtain ⟨v', hv', hall, hfinished⟩ : ∃ v' ∈ s.page_writers, p ∈ v'.allPages ∧
      (p ∈ v'.pages.map Prod.fst ∨ v' = w) := by
    rcases List.mem_or_eq_of_mem_set hv with hold | rfl
    · exact ⟨v, hold, UInt64PageWriter.mem_allPages.mpr (Or.inl hp), Or.inl hp⟩
    · exact ⟨w, hw, w.map_listed ▸ hp, Or.inr rfl⟩
  obtain ⟨k, hk⟩ := List.mem_iff_getElem?.mp hu
  rcases getElem?_set_cases hk with ⟨rfl, rfl⟩ | ⟨hne, hold⟩
  · exact h.disjoint_begin v' hv' p hall
  · rcases hfinished with hfinished | rfl
    · exact h.finished v' hv' u (List.mem_of_getElem? hold) hpage p hfinished
    · rcases UInt64PageWriter.mem_allPages.mp hall with hfin | ⟨hwpage, rfl⟩
      · exact h.finished v' hv' u (List.mem_of_getElem? hold) hpage p hfin
      · exact h.filled i k v' u hi hold hne hwpage hpage

/-- The finished pages are written, and the page that was full has just been. -/
theorem Since.written_begin (h : s.Since start limit base snap) (value : UInt64)
    (hi : s.page_writers[i]? = some w) :
    ∀ v ∈ (s.begin i w value).page_writers, ∀ p ∈ v.pages,
      Written (s.begin i w value).page_mgr.file p.1.extent := by
  intro v hv p hp
  have hw : w ∈ s.page_writers := List.mem_of_getElem? hi
  rcases List.mem_or_eq_of_mem_set hv with hold | rfl
  · exact (h.written v hold p hp).append _
  · have hlisted : p ∈ w.listed := hp
    unfold UInt64PageWriter.listed at hlisted
    split_ifs at hlisted with hpage
    · rcases List.mem_append.mp hlisted with hfin | hcur
      · exact (h.written w hw p hfin).append _
      · rw [List.mem_singleton] at hcur
        subst hcur
        exact ⟨w.page_buf, List.mem_append_right _
          (UInt64PageWriter.mem_flushWrites.mpr ⟨hpage, rfl⟩)⟩
    · exact (h.written w hw p hlisted).append _

/-- The pages that are being filled overlap no other, the new one because it was allocated
last. -/
theorem Since.filled_begin (h : s.Since start limit base snap) (value : UInt64) {j k : Nat}
    {v u : UInt64PageWriter} (hj : (s.begin i w value).page_writers[j]? = some v)
    (hk : (s.begin i w value).page_writers[k]? = some u) (hne : j ≠ k) (hvpage : v.has_page = true)
    (hupage : u.has_page = true) : Extent.Disjoint v.page.extent u.page.extent := by
  have hcurrent : ∀ v ∈ s.page_writers, v.has_page = true → v.page ∈ v.allPages :=
    fun v _ hpage => UInt64PageWriter.mem_allPages.mpr (Or.inr ⟨hpage, rfl⟩)
  rcases getElem?_set_cases hj with ⟨rfl, rfl⟩ | ⟨hij, hjold⟩
  · rcases getElem?_set_cases hk with ⟨hik, -⟩ | ⟨-, hkold⟩
    · exact absurd hik hne
    · have hu := List.mem_of_getElem? hkold
      exact (h.disjoint_begin u hu u.page (hcurrent u hu hupage)).symm
  · have hv := List.mem_of_getElem? hjold
    rcases getElem?_set_cases hk with ⟨rfl, rfl⟩ | ⟨-, hkold⟩
    · exact h.disjoint_begin v hv v.page (hcurrent v hv hvpage)
    · exact h.filled j k v u hjold hkold hne hvpage hupage

/-- A value that begins a page writes the current one first. That page was begun after the
earlier state, or it is the one that was current then, with more data; and the new page lies
behind all of them. -/
theorem Since.begin (h : s.Since start limit base snap) (value : UInt64)
    (hi : s.page_writers[i]? = some w) (hfits : s.page_mgr.offset.toNat + 1024 < 2 ^ 63) :
    (s.begin i w value).Since start limit base snap := by
  have hw : w ∈ s.page_writers := List.mem_of_getElem? hi
  have hoff : (s.begin i w value).page_mgr.offset.toNat = s.page_mgr.offset.toNat + 1024 :=
    offset_begin hfits
  have hlimit := h.limit_le
  have hstart := h.start_le
  refine ⟨?_, h.start_le, ?_, fun v hv p hp => ?_, h.finished_begin value hi,
    h.written_begin value hi, fun j k v u => h.filled_begin value, fun j v hj hpage => ?_, ?_⟩
  · rw [hoff]
    exact hfits
  · rw [hoff]
    omega
  · rw [hoff]
    -- the new page starts where the last allocation ended
    rcases List.mem_or_eq_of_mem_set hv with hold | rfl
    · obtain ⟨hlo, hhi⟩ := h.within v hold p hp
      exact ⟨hlo, by omega⟩
    · rcases UInt64PageWriter.mem_allPages.mp hp with hlisted | ⟨-, rfl⟩
      · have hold : p ∈ w.listed.map Prod.fst := hlisted
        rw [UInt64PageWriter.map_listed] at hold
        obtain ⟨hlo, hhi⟩ := h.within w hw p hold
        exact ⟨hlo, by omega⟩
      · show start ≤ s.page_mgr.offset.toNat ∧ s.page_mgr.offset.toNat + 1024 ≤ _
        omega
  · rcases getElem?_set_cases hj with ⟨rfl, rfl⟩ | ⟨-, hold⟩
    · exact Or.inl h.limit_le
    · exact h.current j v hold hpage
  · obtain ⟨ws, hfile, hws⟩ := h.file
    refine ⟨ws ++ w.flushWrites, ?_, fun u hu => ?_⟩
    · show s.page_mgr.file ++ w.flushWrites = _
      rw [hfile, List.append_assoc]
    · rcases List.mem_append.mp hu with hold | hflush
      · exact hws u hold
      · exact h.later_flush hi u hflush

/-- So what the earlier state listed stays in place, whichever branch `appendValue` takes. -/
theorem keptByAppend_since (start limit : Nat) (base : List FileWrite)
    (snap : List UInt64PageWriter) : KeptByAppend (Since start limit base snap) where
  offset_lt _ h := h.offset_lt
  extend _ _ _ value h hi := h.extend value hi
  begin _ _ _ value h hi hfits := h.begin value hi hfits

end PageStore

end CStable
