import CStable.Proofs.ReadBack
import CStable.Proofs.Snapshots

/-!
# `CStable.Proofs.CrashedRuns`: the file of a v0.2.0 table after a crash

A table of v0.2.0 is created, written to and committed, possibly several times, and only the
first `k` writes of all this reach the file. `crash_shows_last_commit`: the file shows the
last commit whose metablock is among them (`Shows`), and cannot be opened when there is none.

The run lemma is `Resting.run`. Its step is `Resting.commit`, and `Resting.intact` is what it
says of a `k` between two commits.
-/

set_option autoImplicit false

namespace CStable

open Support v0_2_0

/-! ### A created table -/

namespace PageStore

/-- No value has been appended to any of the writers. -/
def Fresh (s : PageStore) : Prop := ∀ w ∈ s.page_writers, w = UInt64PageWriter.new

/-- A new writer has written no page. So a store without pages stays one when a writer is added
to it. -/
theorem Fresh.newPageWriter {s : PageStore} (h : s.Fresh) (key : PageIndexKey) :
    (s.newPageWriter key).2.Fresh := by
  intro w hw
  rcases List.mem_append.mp hw with hold | hnew
  · exact h w hold
  · exact List.mem_singleton.mp hnew

end PageStore

/-- The default column class adds its writers, and no pages. -/
theorem DefaultColumnWriter.fresh_new (c : ColumnConfig) {s : PageStore} (h : s.Fresh) :
    (new c s).2.Fresh := by
  have hlevel : ∀ (s : PageStore) (key : PageIndexKey), s.Fresh → (newLevelWriter s key).2.Fresh :=
    fun _ key hs => hs.newPageWriter key
  unfold new
  by_cases hr : c.rlevel_max > 0
  · by_cases hd : c.dlevel_max > 0
    · simp only [if_pos hr, if_pos hd]
      exact hlevel _ _ (hlevel _ _ h)
    · simp only [if_pos hr, if_neg hd]
      exact hlevel _ _ h
  · by_cases hd : c.dlevel_max > 0
    · simp only [if_neg hr, if_pos hd]
      exact hlevel _ _ h
    · simp only [if_neg hr, if_neg hd]
      exact h

/-- Nor does the class of unsigned integers, with its level streams. -/
theorem UnsignedIntColumnWriter.fresh_new {c : ColumnConfig} {s s' : PageStore}
    {w : UnsignedIntColumnWriter} (h : new c s = .ok (w, s')) (hs : s.Fresh) : s'.Fresh := by
  have hbase := DefaultColumnWriter.fresh_new c hs
  unfold new at h
  rcases DefaultColumnWriter.new c s with ⟨base, s₁⟩
  dsimp only at h hbase
  split at h
  · cases h
    exact hbase.newPageWriter _
  · cases h

namespace CSTableWriter

/-- A created table of version 0.2.0 has no pages yet, whatever its columns are. By induction on
the columns. -/
theorem fresh_openColumns {columns : List ColumnConfig} {s s' : PageStore}
    {slots : List ColumnSlot} (h : openColumns .v0_2_0 s columns = .ok (slots, s'))
    (hs : s.Fresh) : s'.Fresh := by
  induction columns generalizing s slots with
  | nil =>
    cases h
    exact hs
  | cons c cs ih =>
    obtain ⟨⟨w, s₁⟩, hcol, h₁⟩ := Result.bind_eq_ok.mp h
    obtain ⟨⟨writers, s₂⟩, hrest, hret⟩ := Result.bind_eq_ok.mp
      ((Result.ok_bind _ _).symm.trans h₁)
    cases hret
    refine ih hrest ?_
    unfold openColumnV2 at hcol
    split at hcol
    · exact UnsignedIntColumnWriter.fresh_new hcol hs
    · cases hcol

/-- A created table is at rest, with no commit behind it. -/
theorem createFile_resting {mem : Uninit} {order : HashOrder} {schema : TableSchema}
    {t : CSTableWriter} (h : createFile mem order .v0_2_0 schema = .ok t) :
    ∃ header, t.Created header ∧ Resting header t ∧ t.cur_idx_ptr = none := by
  obtain ⟨header, hcreated⟩ := createFile_v2_spec h
  have hinit : t.pages.Fresh ∧ t.cur_idx_ptr = none := by
    obtain ⟨⟨file, header_size⟩, -, h⟩ := Result.bind_eq_ok.mp h
    obtain ⟨⟨writers, pages⟩, hopen, hret⟩ := Result.bind_eq_ok.mp h
    cases hret
    exact ⟨fresh_openColumns hopen fun w hw => absurd hw List.not_mem_nil, rfl⟩
  obtain ⟨hfresh, hcur⟩ := hinit
  -- no writer has a page yet, so what `Since` says of pages is said of none
  have hno_page : ∀ w ∈ t.pages.page_writers, w.has_page ≠ true := by
    intro w hw hpage
    rw [hfresh w hw] at hpage
    cases hpage
  have hno_pages : ∀ w ∈ t.pages.page_writers, w.pages = [] := by
    intro w hw
    rw [hfresh w hw]
    rfl
  have hsound : t.pages.Sound header := by
    rcases hcreated.inv.state with ⟨w, hw, hpage, -⟩ | hsound
    · exact absurd hpage (hno_page w hw)
    · exact hsound
  refine ⟨header, hcreated, ?_, hcur⟩
  exact
    { version := hcreated.version
      writeHeader := hcreated.writeHeader
      pm_version := hcreated.inv.version
      position := hcreated.inv.position
      size := hcreated.inv.size
      registered := hcreated.inv.registered
      current_txid := hcreated.current_txid
      since :=
        { offset_lt := hsound.offset_lt
          start_le := hsound.header_le
          limit_le := Nat.le_refl _
          within := fun w hw p hp => by
            rcases UInt64PageWriter.mem_allPages.mp hp with hfin | ⟨hpage, -⟩
            · rw [hno_pages w hw] at hfin
              cases hfin
            · exact absurd hpage (hno_page w hw)
          finished := fun _ _ v hv hpage => absurd hpage (hno_page v hv)
          written := fun w hw p hp => by
            rw [hno_pages w hw] at hp
            cases hp
          filled := fun i _ w _ hi _ _ hpage =>
            absurd hpage (hno_page w (List.mem_of_getElem? hi))
          current := fun i w hi hpage => absurd hpage (hno_page w (List.mem_of_getElem? hi))
          file := ⟨[], (List.append_nil _).symm, fun u hu => absurd hu List.not_mem_nil⟩ }
      durable := fun w hw hpage => absurd hpage (hno_page w hw)
      index := fun page hpage => by
        rw [hcur] at hpage
        cases hpage
      index_data := fun page hpage => by
        rw [hcur] at hpage
        cases hpage
      slots := by
        refine ⟨0, ?_⟩
        rw [hcur, hcreated.file]
        exact hasSlots_header hcreated.writeHeader }

/-! ### What a file shows -/

/-- A file shows a committed table: it opens with the columns and the row count of the table,
its metablock names the index page of the table, this page lists the pages of the writers, and
they hold what they held in the file of the table. -/
structure Shows (mem : Uninit) (t : CSTableWriter) (file : Bytes) : Prop where
  opens : ∃ hdr rest reader, readHeader mem file = .ok (hdr, rest) ∧
    CSTableReader.openFile mem file = .ok reader ∧
    hdr.metablock.map MetaBlock.headIndexPage = t.cur_idx_ptr ∧ reader.numRecords = t.num_rows ∧
    reader.columns.map ColumnConfig.shape = t.columns.map ColumnConfig.shape
  index : ∀ page, t.cur_idx_ptr = some page →
    readAt file page.offset.toNat page.size.toNat = PageIndex.indexData t.pages page
  pages : ∀ w ∈ t.pages.page_writers, ∀ p ∈ w.listed,
    readAt file p.1.offset.toNat (min p.2 p.1.size.toNat) =
      readAt (contents t.file) p.1.offset.toNat (min p.2 p.1.size.toNat)

variable {header : Bytes} {t t' : CSTableWriter} {mem : Uninit} {file : Bytes}

/-- A file that still has what the table had shows the last commit. -/
theorem Resting.shows (h : Resting header t) (hcols : Representable t.columns)
    (htypes : ∀ c ∈ t.columns, c.logical_type = ColumnType.UNSIGNED_INT.code ∧
      c.storage_type = ColumnEncoding.UINT64_PLAIN.code)
    (hcur : t.cur_idx_ptr ≠ none) (hfile : t.Intact file) : Shows mem t file := by
  obtain ⟨page, hpage⟩ := Option.ne_none_iff_exists'.mp hcur
  obtain ⟨file_size, hslots⟩ := h.slots
  rw [hpage] at hslots
  obtain ⟨rest, hread⟩ := (hfile.slots _ hslots).readHeader mem hcols
  obtain ⟨readers, hopen⟩ := CSTableReader.openColumnsV2_ok []
    (t.columns.map (stored mem)) fun c hc => by
      obtain ⟨c', hc', rfl⟩ := List.mem_map.mp hc
      exact htypes c' hc'
  refine ⟨⟨_, rest, ⟨.v0_2_0, t.columns.map (stored mem), readers.map ColumnReader.v2, t.num_rows,
    [], [] ++ (t.columns.map (stored mem)).flatMap CSTableReader.openedKeys⟩, hread, ?_, ?_, rfl,
    ?_⟩, fun page' hpage' => ?_, hfile.pages⟩
  · unfold CSTableReader.openFile
    rw [hread, Result.ok_bind]
    dsimp only
    rw [hopen, Result.ok_bind]
  · rw [hpage]
    rfl
  · rw [List.map_map]
    rfl
  · rw [hfile.index page' hpage']
    exact h.index_data page' hpage'

/-- Without a commit there is no metablock to be found. -/
theorem Resting.raises (h : Resting header t) (hcols : Representable t.columns)
    (hcur : t.cur_idx_ptr = none) (hfile : t.Intact file) :
    Raises (CSTableReader.openFile mem file) := by
  obtain ⟨file_size, hslots⟩ := h.slots
  rw [hcur] at hslots
  exact CSTableReader.raises_openFile ((hfile.slots _ hslots).readHeader mem hcols)

/-! ### Runs -/

/-- `t₁` is the table of the last commit of a run whose writes are all among the first `k`:
the next commit, if there is one, ends behind them. -/
structure LastCommit (rounds : List (Uninit × List TableOp)) (t : CSTableWriter) (k : Nat)
    (done : List (Uninit × List TableOp)) (t₁ : CSTableWriter) : Prop where
  committed : commits done t = .ok t₁
  within : done ≠ [] → t₁.file.length ≤ k
  next : ∃ rest, rounds = done ++ rest ∧ ∀ round later, rest = round :: later →
    ∃ t₂, commits (done ++ [round]) t = .ok t₂ ∧ k < t₂.file.length

/-- The file of a run only grows. -/
theorem Resting.file_grows {rounds : List (Uninit × List TableOp)} :
    ∀ {t : CSTableWriter}, Resting header t → commits rounds t = .ok t' → t.file <+: t'.file := by
  induction rounds with
  | nil =>
    intro t _ hrun
    cases hrun
    exact List.prefix_refl _
  | cons round rounds ih =>
    obtain ⟨mem, ops⟩ := round
    intro t h hrun
    obtain ⟨t₁, hcommit, hrest⟩ := Result.bind_eq_ok.mp hrun
    obtain ⟨-, -, -, -, hresting, ws, mb, hfile, -⟩ := h.commit hcommit
    have hfirst : t.file <+: t₁.file := by
      rw [hfile]
      exact List.prefix_append _ _
    exact hfirst.trans (ih hresting hrest)

/-- A run of commits, cut anywhere behind what was in the file before it. -/
theorem Resting.run {rounds : List (Uninit × List TableOp)} {k : Nat} :
    ∀ {t : CSTableWriter}, Resting header t → commits rounds t = .ok t' → t.file.length ≤ k →
      k ≤ t'.file.length → ∃ done t₁, LastCommit rounds t k done t₁ ∧ Resting header t₁ ∧
        t₁.columns = t.columns ∧ (done = [] → t₁ = t) ∧ (done ≠ [] → t₁.cur_idx_ptr ≠ none) ∧
        t₁.Intact (contents (t'.file.take k)) := by
  -- by the rounds: a cut behind the first commit is a cut of the run that follows it
  induction rounds with
  | nil =>
    intro t h hrun hlo hhi
    cases hrun
    have htake : t'.file.take k = t'.file := List.take_of_length_le hlo
    refine ⟨[], t', ⟨rfl, fun hne => absurd rfl hne, [], rfl, fun _ _ hcons => ?_⟩, h, rfl,
      fun _ => rfl, fun hne => absurd rfl hne, ?_⟩
    · cases hcons
    · rw [htake]
      exact .refl t'
  | cons round rounds ih =>
    obtain ⟨mem, ops⟩ := round
    intro t h hrun hlo hhi
    obtain ⟨t₂, hcommit, hrest⟩ := Result.bind_eq_ok.mp hrun
    obtain ⟨-, -, hcur, hcolumns, hresting, ws, mb, hfile, hws⟩ := h.commit hcommit
    have hone : ∀ rounds', commits ((mem, ops) :: rounds') t = commits rounds' t₂ := by
      intro rounds'
      rw [commits, hcommit, Result.ok_bind]
    by_cases hk : t₂.file.length ≤ k
    · obtain ⟨done, t₁, ⟨hdone, hwithin, rest, hsplit, hnext⟩, hresting₁, hcolumns₁, hnil, hsome,
        hintact⟩ := ih hresting hrest hk hhi
      refine ⟨(mem, ops) :: done, t₁, ⟨(hone done).trans hdone, fun _ => ?_, rest, ?_, ?_⟩,
        hresting₁, hcolumns₁.trans hcolumns, fun hcons => ?_, fun _ => ?_, hintact⟩
      · by_cases hempty : done = []
        · rw [hnil hempty]
          exact hk
        · exact hwithin hempty
      · rw [hsplit, List.cons_append]
      · intro round later hcons
        obtain ⟨t₃, hcommits, hlt⟩ := hnext round later hcons
        exact ⟨t₃, (hone _).trans hcommits, hlt⟩
      · cases hcons
      · by_cases hempty : done = []
        · rw [hnil hempty]
          exact hcur
        · exact hsome hempty
    · -- the cut is inside this commit: only its pages can be in the file
      rw [Nat.not_le] at hk
      obtain ⟨more, hmore⟩ := hresting.file_grows hrest
      have hcut : t'.file.take k = t.file ++ ws.take (k - t.file.length) := by
        have hlen : t.file.length + (ws.length + 1) = t₂.file.length := by
          rw [hfile, List.length_append, List.length_append, List.length_singleton]
        rw [← hmore, List.take_append_of_le_length (Nat.le_of_lt hk), hfile, List.take_append,
          List.take_of_length_le hlo, List.take_append_of_le_length (by omega)]
      refine ⟨[], t, ⟨rfl, fun hne => absurd rfl hne, (mem, ops) :: rounds, rfl,
        fun round later hcons => ?_⟩, h, rfl, fun _ => rfl, fun hne => absurd rfl hne, ?_⟩
      · cases hcons
        exact ⟨t₂, hone [], hk⟩
      · rw [hcut]
        exact h.intact fun u hu => hws u (List.mem_of_mem_take hu)

/-- There is room for two commits: the third one would have to reuse the index of the
first. -/
theorem Resting.length_le_two (h : Resting header t)
    {rounds : List (Uninit × List TableOp)} (hrun : commits rounds t = .ok t') :
    rounds.length ≤ 2 := by
  rcases rounds with _ | ⟨⟨mem₁, ops₁⟩, _ | ⟨⟨mem₂, ops₂⟩, _ | ⟨⟨mem₃, ops₃⟩, rounds⟩⟩⟩
  · exact Nat.zero_le 2
  · exact Nat.le_succ 1
  · exact Nat.le_refl 2
  · obtain ⟨t₁, hfirst, hrun⟩ := Result.bind_eq_ok.mp hrun
    obtain ⟨t₂, hsecond, hrun⟩ := Result.bind_eq_ok.mp hrun
    obtain ⟨t₃, hthird, -⟩ := Result.bind_eq_ok.mp hrun
    obtain ⟨-, -, hcur₁, -, h₁, -⟩ := h.commit hfirst
    obtain ⟨-, hfree₂, -, -, h₂, -⟩ := h₁.commit hsecond
    obtain ⟨hfree, -⟩ := h₂.commit hthird
    exact absurd (hfree₂.symm.trans hfree) hcur₁

/-- After a crash the file of a v0.2.0 table shows the last commit that was complete, and
nothing of the writes after it. Before the first one it cannot be opened. -/
theorem crash_shows_last_commit {mem mem' : Uninit} {order : HashOrder} {schema : TableSchema}
    {t t' : CSTableWriter} {rounds : List (Uninit × List TableOp)}
    (hcreate : createFile mem order .v0_2_0 schema = .ok t) (hcols : Representable t.columns)
    (hrun : commits rounds t = .ok t') :
    rounds.length ≤ 2 ∧ ∀ k ≤ t'.file.length, ∃ done t₁, LastCommit rounds t k done t₁ ∧
      (done = [] → Raises (CSTableReader.openFile mem' (contents (t'.file.take k)))) ∧
      (done ≠ [] → Shows mem' t₁ (contents (t'.file.take k))) := by
  obtain ⟨header, hcreated, h, hcur⟩ := createFile_resting hcreate
  refine ⟨h.length_le_two hrun, fun k hk => ?_⟩
  have hone : t.file.length = 1 := by rw [hcreated.file, List.length_singleton]
  by_cases hzero : k = 0
  · -- not even the header is in the file
    subst hzero
    refine ⟨[], t, ⟨rfl, fun hne => absurd rfl hne, rounds, rfl, fun round later hcons => ?_⟩,
      fun _ => ?_, fun hne => absurd rfl hne⟩
    · subst hcons
      obtain ⟨t₂, hcommit, hrest⟩ := Result.bind_eq_ok.mp hrun
      obtain ⟨-, -, -, -, -, ws, mb, hfile, -⟩ := h.commit hcommit
      refine ⟨t₂, Result.bind_eq_ok.mpr ⟨t₂, hcommit, rfl⟩, ?_⟩
      rw [hfile, List.length_append]
      omega
    · rw [List.take_zero]
      exact CSTableReader.raises_openFile (raises_readHeader_nil mem')
  · -- the header is there, and with it the slots of the metablock
    obtain ⟨done, t₁, hlast, hresting, hcolumns, hnil, hsome, hintact⟩ :=
      h.run hrun (by omega) hk
    have hcols₁ : Representable t₁.columns := hcolumns ▸ hcols
    refine ⟨done, t₁, hlast, fun hempty => ?_, fun hne => ?_⟩
    · have hnone : t₁.cur_idx_ptr = none := by
        rw [hnil hempty]
        exact hcur
      exact hresting.raises hcols₁ hnone hintact
    · exact hresting.shows hcols₁ (hcolumns ▸ hcreated.types) (hsome hne) hintact

/-- Two commits of one column, the second with one more value on the same page. -/
theorem crash_shows_last_commit_two :
    let mem (b : UInt8) : Uninit := ⟨fun _ _ => b, fun _ => 0, ⟨0, [], 0, 0, 0, 0, 0, 0⟩, 0⟩
    let number : LeafType := ⟨.UNSIGNED_INT, ColumnType.noConfusion⟩
    let schema : TableSchema := [.leaf [0x61] number .UINT64_PLAIN false false]
    let rounds : List (Uninit × List TableOp) :=
      [(mem 1, [.write [0x61] ⟨0, 0, .unsignedInt 7⟩, .addRow]),
        (mem 2, [.write [0x61] ⟨0, 0, .unsignedInt 8⟩, .addRow])]
    ∃ t t', createFile (mem 0) ⟨id, fun _ => .refl _⟩ .v0_2_0 schema = .ok t ∧
      commits rounds t = .ok t' ∧ t'.file.length = 7 ∧
      ∀ k ≤ t'.file.length, ∃ done t₁, LastCommit rounds t k done t₁ ∧
        (done = [] → Raises (CSTableReader.openFile (mem 3) (contents (t'.file.take k)))) ∧
        (done ≠ [] → Shows (mem 3) t₁ (contents (t'.file.take k))) := by
  intro mem number schema rounds
  let order : HashOrder := ⟨id, fun _ => .refl _⟩
  obtain ⟨t', hrun⟩ := Result.exists_eq_ok (x := createFile (mem 0) order .v0_2_0 schema >>=
    commits rounds) (by decide +kernel)
  have hlength : ((createFile (mem 0) order .v0_2_0 schema >>= commits rounds).map
      fun t' => t'.file.length) = .ok 7 := by decide +kernel
  rw [hrun] at hlength
  obtain ⟨t, ht, ht'⟩ := Result.bind_eq_ok.mp hrun
  have hcols : Representable t.columns := by
    rw [createFile_columns ht]
    constructor <;> decide
  exact ⟨t, t', ht, ht', Except.ok.inj hlength, (crash_shows_last_commit ht hcols ht').2⟩

end CSTableWriter

end CStable
