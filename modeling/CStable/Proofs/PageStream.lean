import CStable.Columns.UInt64Page

/-!
# `CStable.Proofs.PageStream`: what a page stream stores

A run of a `UInt64PageWriter` is a list of `StreamOp`s: a value is appended, or
another writer allocates a page from the same page manager. `runPages` performs
the run and the `writeIndex` after it.

`StoredExactly` says what a reader of the pages needs. The run keeps it while the
values fit in one page (`Inv`), that is up to 128 values. The buffer is not
cleared when a page is finished, so from the 129th value on the page being
filled holds more bytes than a page has room for: `storedExactly_iff`.
-/

set_option autoImplicit false

namespace CStable

open Support

/-- What happens to a page writer and the page manager it shares. -/
inductive StreamOp where
  /-- `appendValue`. -/
  | append (value : UInt64)
  /-- Another writer calls `allocPage`. -/
  | alloc (size : UInt32)
  deriving DecidableEq, Repr

namespace UInt64PageWriter

/-- The values appended in a run. -/
def appended : List StreamOp → List UInt64
  | [] => []
  | .append value :: ops => value :: appended ops
  | .alloc _ :: ops => appended ops

/-- One step of a run. -/
def step (w : UInt64PageWriter) (page_mgr : PageManager) :
    StreamOp → Result (UInt64PageWriter × PageManager)
  | .append value => w.appendValue page_mgr value
  | .alloc size => .ok (w, (page_mgr.allocPage size).2)

/-- The steps of a run one after the other. -/
def runStream (w : UInt64PageWriter) (page_mgr : PageManager) :
    List StreamOp → Result (UInt64PageWriter × PageManager)
  | [] => .ok (w, page_mgr)
  | op :: ops => do
    let (w, page_mgr) ← w.step page_mgr op
    w.runStream page_mgr ops

/-- A run of a new writer and its `writeIndex`: the pages and used bytes the
index lists, and the page manager with the log of the file. -/
def runPages (page_mgr : PageManager) (ops : List StreamOp) :
    Result (List (PageRef × Nat) × PageManager) := do
  let (w, page_mgr) ← new.runStream page_mgr ops
  w.flushPages page_mgr

/-- The values of a run that only appends one value again and again. -/
theorem appended_replicate (n : Nat) (value : UInt64) :
    appended (List.replicate n (.append value)) = List.replicate n value := by
  induction n with
  | zero => rfl
  | succ n ih => rw [List.replicate_succ, appended, ih, List.replicate_succ]

/-- The bytes of a sequence of values. -/
def encoded (values : List UInt64) : Bytes :=
  values.flatMap fun v => appendUInt64 v.toNat

/-- Each value takes eight bytes of a page. -/
theorem length_encoded (values : List UInt64) : (encoded values).length = 8 * values.length := by
  induction values with
  | nil => rfl
  | cons v vs ih =>
    have hcons : encoded (v :: vs) = appendUInt64 v.toNat ++ encoded vs := rfl
    rw [hcons, List.length_append, length_appendUInt64, ih, List.length_cons]
    omega

/-- The bytes of two runs of values, one after the other. -/
theorem encoded_append (vs ws : List UInt64) : encoded (vs ++ ws) = encoded vs ++ encoded ws :=
  List.flatMap_append

/-- The pages store exactly the values: no page is overfull, every page write
of the run kept the precondition of `writePage`, and the used bytes of the
pages, as the file has them at the end, are the values in order. -/
structure StoredExactly (start : PageManager) (values : List UInt64)
    (pages : List (PageRef × Nat)) (page_mgr : PageManager) : Prop where
  fits : ∀ p ∈ pages, p.2 ≤ p.1.size.toNat
  precondition : ∀ page_offset page_size data,
    .page page_offset page_size data ∈ page_mgr.file.drop start.file.length →
      data.length ≤ page_size
  content : (pages.flatMap fun p => readAt (contents page_mgr.file) p.1.offset.toNat p.2) =
    encoded values

/-! ### The invariant of a run -/

/-- The state after the values `values`: they are all in the buffer, and as long
as they fit in a page nothing has been written. -/
structure Inv (start : PageManager) (values : List UInt64) (w : UInt64PageWriter)
    (page_mgr : PageManager) : Prop where
  page_buf : w.page_buf = encoded values
  has_page : w.has_page = !values.isEmpty
  page_size : values ≠ [] → w.page.size = kPageSize
  one_page : values.length ≤ 128 → w.pages = [] ∧ page_mgr.file = start.file

/-- A fresh writer has written no pages and its buffer is empty. -/
theorem Inv.start (page_mgr : PageManager) : Inv page_mgr [] new page_mgr where
  page_buf := rfl
  has_page := rfl
  page_size := fun h => absurd rfl h
  one_page := fun _ => ⟨rfl, rfl⟩

/-- A value that is appended ends up in the buffer. A new page is only begun for
the first value and when the current page is full. -/
theorem Inv.appendValue {start page_mgr page_mgr' : PageManager} {values : List UInt64}
    {w w' : UInt64PageWriter} {value : UInt64} (hinv : Inv start values w page_mgr)
    (h : w.appendValue page_mgr value = .ok (w', page_mgr')) :
    Inv start (values ++ [value]) w' page_mgr' := by
  have hbuf : w.page_buf ++ appendUInt64 value.toNat = encoded (values ++ [value]) := by
    rw [encoded_append, hinv.page_buf]
    rfl
  have hlen : w.page_buf.length = 8 * values.length := by
    rw [hinv.page_buf, length_encoded]
  have hcount : (values ++ [value]).length = values.length + 1 := List.length_append
  rcases appendValue_eq_ok h with
    ⟨pages, pm, hroll, hflush, rfl, rfl⟩ | ⟨hpage, _, rfl, rfl⟩
  · refine ⟨hbuf, by simp, fun _ => by rw [allocPage_kPageSize]; rfl, fun hle => ?_⟩
    -- with at most 128 values the only new page is that of the first value
    have hno : w.has_page = false := by
      by_contra hyes
      have hvals : values ≠ [] := by
        rintro rfl
        exact hyes hinv.has_page
      have hsize : kPageSize.toNat = 1024 := by decide
      have hfull : w.page.size.toNat < w.page_buf.length + 8 := hroll.resolve_left hyes
      rw [hinv.page_size hvals, hsize] at hfull
      omega
    rcases flushPages_eq_ok hflush with ⟨_, hp, hpm⟩ | ⟨hyes, _⟩
    · obtain ⟨hpages, hfile⟩ := hinv.one_page (by omega)
      exact ⟨hp.trans hpages, by rw [PageManager.allocPage_file, hpm, hfile]⟩
    · rw [hno] at hyes
      cases hyes
  · have hvals : values ≠ [] := by
      rintro rfl
      rw [hinv.has_page] at hpage
      cases hpage
    refine ⟨hbuf, ?_, fun _ => hinv.page_size hvals, fun hle => hinv.one_page (by omega)⟩
    rw [show ({ w with page_buf := w.page_buf ++ appendUInt64 value.toNat } :
      UInt64PageWriter).has_page = w.has_page from rfl, hpage]
    simp

/-- The invariant of a whole run: the pages and the buffer hold the values that were appended so
far. By induction on the operations, from the step lemma. -/
theorem Inv.runStream {start page_mgr page_mgr' : PageManager} {values : List UInt64}
    {w w' : UInt64PageWriter} {ops : List StreamOp} (hinv : Inv start values w page_mgr)
    (h : w.runStream page_mgr ops = .ok (w', page_mgr')) :
    Inv start (values ++ appended ops) w' page_mgr' := by
  induction ops generalizing w page_mgr values with
  | nil =>
    cases h
    rwa [appended, List.append_nil]
  | cons op ops ih =>
    obtain ⟨⟨w₁, pm₁⟩, hstep, hrest⟩ := Result.bind_eq_ok.mp h
    cases op with
    | append value =>
      have hrun := ih (hinv.appendValue hstep) hrest
      rwa [List.append_assoc] at hrun
    | alloc size =>
      have hnext : Inv start values w (page_mgr.allocPage size).2 :=
        ⟨hinv.page_buf, hinv.has_page, hinv.page_size, hinv.one_page⟩
      cases hstep
      exact ih hnext hrest

/-! ### The pages of a run -/

/-- With more values than a page holds, the entry of the last page is overfull. -/
theorem not_storedExactly {start page_mgr : PageManager} {ops : List StreamOp}
    {pages : List (PageRef × Nat)} (h : runPages start ops = .ok (pages, page_mgr))
    (hmany : 128 < (appended ops).length) :
    ¬ StoredExactly start (appended ops) pages page_mgr := by
  obtain ⟨⟨w, pm⟩, hrun, hflush⟩ := Result.bind_eq_ok.mp h
  have hinv := (Inv.start start).runStream hrun
  rw [List.nil_append] at hinv
  have hne : appended ops ≠ [] := by
    intro hnil
    rw [hnil] at hmany
    exact absurd hmany (by simp)
  intro hexact
  have hlast : (w.page, w.page_buf.length) ∈ pages := by
    rcases flushPages_eq_ok hflush with ⟨hno, _, _⟩ | ⟨_, hp, _⟩
    · rw [hinv.has_page] at hno
      simp [hne] at hno
    · rw [hp]
      exact List.mem_append_right _ List.mem_cons_self
  have hfits : w.page_buf.length ≤ w.page.size.toNat := hexact.fits _ hlast
  have hsize : kPageSize.toNat = 1024 := by decide
  rw [hinv.page_buf, length_encoded, hinv.page_size hne, hsize] at hfits
  omega

/-- The values are stored exactly when they fit in one page. -/
theorem storedExactly_iff (start : PageManager) (ops : List StreamOp)
    (pages : List (PageRef × Nat)) (page_mgr : PageManager)
    (h : runPages start ops = .ok (pages, page_mgr)) :
    StoredExactly start (appended ops) pages page_mgr ↔ (appended ops).length ≤ 128 := by
  constructor
  · intro hexact
    -- the 129th value makes the second page repeat the first
    by_contra hmany
    exact not_storedExactly h (by omega) hexact
  · intro hle
    obtain ⟨⟨w, pm⟩, hrun, hflush⟩ := Result.bind_eq_ok.mp h
    have hinv := (Inv.start start).runStream hrun
    rw [List.nil_append] at hinv
    obtain ⟨hpages, hfile⟩ := hinv.one_page hle
    rcases flushPages_eq_ok hflush with ⟨hno, hp, hpm⟩ | ⟨hyes, hp, hpm⟩
    · -- no value was appended and there is no page
      have hnil : appended ops = [] := by
        rw [hinv.has_page] at hno
        simpa using hno
      rw [hpages] at hp
      rw [hpm, hp, hnil]
      refine ⟨?_, ?_, rfl⟩
      · intro p hmem
        cases hmem
      · intro o s d hmem
        rw [hfile, List.drop_length] at hmem
        cases hmem
    · -- the values fit one page, which `flush` writes
      have hne : appended ops ≠ [] := by
        intro hnil
        rw [hinv.has_page, hnil] at hyes
        cases hyes
      have hsize : w.page.size.toNat = 1024 := by
        rw [hinv.page_size hne]
        decide
      have hlen : w.page_buf.length = 8 * (appended ops).length := by
        rw [hinv.page_buf, length_encoded]
      have hfit : w.page_buf.length ≤ w.page.size.toNat := by omega
      rw [hpages, List.nil_append] at hp
      rw [hpm, hp]
      refine ⟨?_, ?_, ?_⟩
      · intro p hmem
        rw [List.mem_singleton.mp hmem]
        exact hfit
      · intro o s d hmem
        rw [hfile, List.drop_left, List.mem_singleton] at hmem
        cases hmem
        exact hfit
      · -- the only page is written last, so the file holds the buffer there
        rw [List.flatMap_singleton, ← hinv.page_buf]
        exact readAt_contents_page hfit

/-- A run of three values with a foreign allocation in between. -/
theorem storedExactly_three :
    ∃ pages page_mgr,
      runPages (PageManager.new .v0_2_0 [] 512) [.append 7, .alloc 4096, .append 8, .append 9] =
          .ok (pages, page_mgr) ∧
        StoredExactly (PageManager.new .v0_2_0 [] 512) [7, 8, 9] pages page_mgr :=
  ⟨_, _, rfl, (storedExactly_iff (PageManager.new .v0_2_0 [] 512)
    [.append 7, .alloc 4096, .append 8, .append 9] _ _ rfl).mpr (by decide)⟩

/-- With 129 values the run ends normally, and what it stored is not exact. -/
theorem not_storedExactly_129 :
    ∃ pages page_mgr,
      runPages (PageManager.new .v0_2_0 [] 512) (List.replicate 129 (.append 0)) =
          .ok (pages, page_mgr) ∧
        ¬ StoredExactly (PageManager.new .v0_2_0 [] 512) (List.replicate 129 0) pages
          page_mgr := by
  have hok : (runPages (PageManager.new .v0_2_0 [] 512)
      (List.replicate 129 (.append 0))).toBool = true := by
    decide +kernel
  cases hrun : runPages (PageManager.new .v0_2_0 [] 512) (List.replicate 129 (.append 0)) with
  | error e =>
    rw [hrun] at hok
    cases hok
  | ok r =>
    have hvals := appended_replicate 129 0
    have hnot := not_storedExactly hrun (by rw [hvals, List.length_replicate]; decide)
    rw [hvals] at hnot
    exact ⟨r.1, r.2, rfl, hnot⟩

end UInt64PageWriter

end CStable
