import CStable.Proofs.FileBytes
import CStable.Proofs.FullBlocks

/-!
# `CStable.Proofs.RepeatedCommits`: a v0.1.0 table that is committed more than once

A commit of a v0.1.0 table writes the whole file anew and leaves the writers of the columns
in memory, with the blocks they have begun padded to their end. So a program may go on
writing and commit again: the file is then the one a single commit at the end writes,
provided that no column is continued behind padding (`rounds_commit`), and that no column is
of a class whose bytes depend on what memory holds.

* `SameStreams`: the writers of a table that was committed on the way against those of one
  that was not.
* `Continues`: the two tables, with the calls that are still to come.
-/

set_option autoImplicit false

namespace CStable

open Support

namespace CSTableWriter

/-! ### The writers after commits on the way -/

/-- The writers of a table that has been committed on the way against those of one that has
not: they differ in padding only, and not at all where calls are still to come. -/
structure SameStreams (later : Nat → List WriteCall) (ws vs : List v1.ColumnWriter) : Prop where
  length : ws.length = vs.length
  padded : ∀ (i : Nat) (w v : v1.ColumnWriter),
    ws[i]? = some w → vs[i]? = some v → w.commit = v.commit
  continued : ∀ (i : Nat) (w v : v1.ColumnWriter),
    ws[i]? = some w → vs[i]? = some v → later i ≠ [] → w = v

/-- Writers are where they are. -/
theorem SameStreams.refl {later : Nat → List WriteCall} (ws : List v1.ColumnWriter) :
    SameStreams later ws ws where
  length := rfl
  padded _ _ _ hw hv := congrArg _ (Option.some.inj (hw.symm.trans hv))
  continued _ _ _ hw hv _ := Option.some.inj (hw.symm.trans hv)

/-- Padded, the writers of both sides are the same: a side that was padded on the way has only
done it earlier. -/
theorem SameStreams.map_commit {later : Nat → List WriteCall} {ws vs : List v1.ColumnWriter}
    (h : SameStreams later ws vs) :
    ws.map v1.ColumnWriter.commit = vs.map v1.ColumnWriter.commit := by
  refine List.ext_getElem (by rw [List.length_map, List.length_map, h.length]) fun i hi hi' => ?_
  rw [List.length_map] at hi hi'
  rw [List.getElem_map, List.getElem_map]
  exact h.padded i _ _ (List.getElem?_eq_getElem hi) (List.getElem?_eq_getElem hi')

/-- The calls that were still to come, made on both. A writer that was padded gets none of
them. -/
theorem SameStreams.callAll {calls later : Nat → List WriteCall} {ws vs : List v1.ColumnWriter}
    (h : SameStreams (fun i => calls i ++ later i) ws vs) :
    SameStreams later (ws.mapIdx fun i w => (w.callAll (calls i)).1)
      (vs.mapIdx fun i v => (v.callAll (calls i)).1) := by
  constructor
  case length => rw [List.length_mapIdx, List.length_mapIdx, h.length]
  case padded =>
    intro i w' v' hw' hv'
    rw [List.getElem?_mapIdx] at hw' hv'
    obtain ⟨w, hw, rfl⟩ := Option.map_eq_some_iff.mp hw'
    obtain ⟨v, hv, rfl⟩ := Option.map_eq_some_iff.mp hv'
    by_cases hnone : calls i = []
    · rw [hnone]
      exact h.padded i w v hw hv
    · rw [h.continued i w v hw hv fun hnil => hnone (List.append_eq_nil_iff.mp hnil).1]
  case continued =>
    intro i w' v' hw' hv' hlater
    rw [List.getElem?_mapIdx] at hw' hv'
    obtain ⟨w, hw, rfl⟩ := Option.map_eq_some_iff.mp hw'
    obtain ⟨v, hv, rfl⟩ := Option.map_eq_some_iff.mp hv'
    rw [h.continued i w v hw hv fun hnil => hlater (List.append_eq_nil_iff.mp hnil).2]

/-- A commit pads the blocks of one side only. It has nothing to pad where calls are still
to come. -/
theorem SameStreams.commit {later : Nat → List WriteCall} {ws vs : List v1.ColumnWriter}
    (h : SameStreams later ws vs)
    (hfull : ∀ (i : Nat) (v : v1.ColumnWriter), vs[i]? = some v → v.FullBlocks ∨ later i = []) :
    SameStreams later (ws.map v1.ColumnWriter.commit) vs := by
  constructor
  case length => rw [List.length_map, h.length]
  case padded =>
    intro i w' v hw' hv
    rw [List.getElem?_map] at hw'
    obtain ⟨w, hw, rfl⟩ := Option.map_eq_some_iff.mp hw'
    rw [v1.ColumnWriter.commit_commit]
    exact h.padded i w v hw hv
  case continued =>
    intro i w' v hw' hv hlater
    rw [List.getElem?_map] at hw'
    obtain ⟨w, hw, rfl⟩ := Option.map_eq_some_iff.mp hw'
    have hblocks := (hfull i v hv).resolve_right hlater
    rw [h.padded i w v hw hv, hblocks.commit]

/-- A table with writers of v0.1.0 in all of its slots is one of v0.1.0. -/
theorem WritersV1.allV1 {t : CSTableWriter} {ws : List v1.ColumnWriter} (h : t.WritersV1 ws) :
    t.AllV1 := by
  intro slot hslot
  have hmem : slot.writer ∈ ws.map ColumnWriter.v1 := h ▸ List.mem_map_of_mem hslot
  obtain ⟨w, -, hw⟩ := List.mem_map.mp hmem
  exact ⟨w, hw.symm⟩

/-- The writers after calls on them. -/
theorem WritersV1.replay {t : CSTableWriter} {ws : List v1.ColumnWriter} (h : t.WritersV1 ws)
    (rows : UInt64) (calls : Nat → List WriteCall) :
    (t.replay rows calls).WritersV1 (ws.mapIdx fun i w => (w.callAll (calls i)).1) := by
  refine List.ext_getElem? fun i => ?_
  have hi := congrArg (fun xs : List ColumnWriter => xs[i]?) h
  simp only [List.getElem?_map] at hi
  unfold CSTableWriter.replay
  simp only [List.getElem?_map, List.getElem?_mapIdx, Option.map_map]
  -- both lists have the same length, so slot and writer are there together
  cases hslot : t.column_writers[i]? with
  | none =>
    rw [hslot] at hi
    cases hw : ws[i]? with
    | none => rfl
    | some w =>
      rw [hw] at hi
      cases hi
  | some slot =>
    rw [hslot] at hi
    cases hw : ws[i]? with
    | none =>
      rw [hw] at hi
      cases hi
    | some w =>
      rw [hw] at hi
      have hwriter : slot.writer = .v1 w := Option.some.inj hi
      refine congrArg some ?_
      show (slot.replay (calls i)).writer = .v1 (w.callAll (calls i)).1
      unfold ColumnSlot.replay
      rw [hwriter]

/-- The writers a commit leaves in the table are the padded ones; the version and the number of
rows stay. -/
theorem commitV1_writers {mem : Uninit} {t t' : CSTableWriter} {ws : List v1.ColumnWriter}
    (hws : t.WritersV1 ws) (hlen : t.columns.length = ws.length)
    (h : t.commitV1 mem = .ok t') :
    t'.WritersV1 (ws.map v1.ColumnWriter.commit) ∧ t'.version = t.version ∧
      t'.num_rows = t.num_rows := by
  unfold commitV1 at h
  rw [commitColumns_eq hws, Result.ok_bind] at h
  obtain ⟨_, -, h⟩ := Result.bind_eq_ok.mp h
  obtain ⟨_, -, hret⟩ := Result.bind_eq_ok.mp h
  cases hret
  refine ⟨?_, rfl, rfl⟩
  have hplaced : (t.placedColumns ws).map Prod.snd = ws.map v1.ColumnWriter.commit := by
    have hzip : (t.columns.zip ws).map Prod.snd = ws :=
      List.map_snd_zip (Nat.le_of_eq hlen.symm)
    calc (t.placedColumns ws).map Prod.snd
        = (t.columns.zip ws).map fun c => c.2.commit :=
          (map_eq_map (placedColumns_spec t ws) fun c p hcp => hcp.2.symm).symm
      _ = ws.map v1.ColumnWriter.commit := by
          rw [← hzip, List.map_map, hzip]
          rfl
  have hcols : t.column_writers.length = (t.placedColumns ws).length := by
    have hlength := congrArg List.length hplaced
    rw [List.length_map, List.length_map] at hlength
    rw [hws.length_eq, hlength]
  show (List.zipWith (fun slot col => ({ slot with writer := .v1 col.2 } : ColumnSlot))
    t.column_writers (t.placedColumns ws)).map ColumnSlot.writer = _
  rw [← hplaced, List.map_zipWith, List.map_map, ← List.map_uncurry_zip_eq_zipWith]
  calc (t.column_writers.zip (t.placedColumns ws)).map (fun p => ColumnWriter.v1 p.2.2)
      = ((t.column_writers.zip (t.placedColumns ws)).map Prod.snd).map
          fun p => ColumnWriter.v1 p.2 := by
        rw [List.map_map]
        rfl
    _ = (t.placedColumns ws).map fun p => ColumnWriter.v1 p.2 := by
        rw [List.map_snd_zip (Nat.le_of_eq hcols.symm)]

/-! ### Runs with commits on the way -/

/-- The operations of all rounds. -/
def opsOf (rounds : List (Uninit × List TableOp)) : List TableOp := rounds.flatMap Prod.snd

/-- No column that is written to again has a block begun at one of the commits. The states
are those of the table that is not committed on the way. -/
def CommitsOnBlocks : CSTableWriter → List (Uninit × List TableOp) → List TableOp → Prop
  | _, [], _ => True
  | t, (_, ops) :: rounds, last =>
    (∀ i slot w, (t.after ops).column_writers[i]? = some slot → slot.writer = .v1 w →
      w.FullBlocks ∨ callsOn t (opsOf rounds ++ last) i = []) ∧
      CommitsOnBlocks (t.after ops) rounds last

/-- Operations one list after the other. -/
theorem after_append (t : CSTableWriter) (xs ys : List TableOp) :
    t.after (xs ++ ys) = (t.after xs).after ys := List.foldl_append

/-- The calls on a column come in the order of the operations. -/
theorem callsOn_append (t : CSTableWriter) (xs ys : List TableOp) (i : Nat) :
    callsOn t (xs ++ ys) i = callsOn t xs i ++ callsOn t ys i := List.filterMap_append

/-- Which column a name stands for depends on the names only, so a commit, which places the
bodies, does not change it. -/
theorem callsOn_congr {t u : CSTableWriter}
    (h : t.columns.map ColumnConfig.column_name = u.columns.map ColumnConfig.column_name)
    (ops : List TableOp) : callsOn t ops = callsOn u ops := by
  have hfind : ∀ (s : CSTableWriter) (name : Bytes),
      (s.columns.findIdx? fun c => c.column_name == name) =
        (s.columns.map ColumnConfig.column_name).findIdx? fun n => n == name := fun s name => by
    rw [List.findIdx?_map]
    rfl
  have hget : ∀ name, t.getColumnWriter name = u.getColumnWriter name := fun name => by
    unfold getColumnWriter
    rw [hfind t, hfind u, h]
  funext i
  refine List.filterMap_congr fun op _ => ?_
  cases op with
  | write column c =>
    show (if t.getColumnWriter column = .ok i then some c else none) = _
    rw [hget]
    rfl
  | _ => rfl

/-- Bodies that do not shrink one by one do not shrink together. So a later commit covers the
file of an earlier one. -/
theorem bodySizes_le_map {ws : List v1.ColumnWriter} {f : v1.ColumnWriter → v1.ColumnWriter}
    (h : ∀ w : v1.ColumnWriter, w.bodySize ≤ (f w).bodySize) :
    bodySizes ws ≤ bodySizes (ws.map f) := by
  unfold bodySizes
  induction ws with
  | nil => exact Nat.le_refl _
  | cons w ws ih =>
    rw [List.map_cons, List.map_cons, List.map_cons, List.sum_cons, List.sum_cons]
    exact Nat.add_le_add (h w) ih

/-- Calls make no body smaller. A commit that succeeds shows that the writes of a single one in
its place would have. -/
theorem bodySizes_le_callAll (ws : List v1.ColumnWriter) (calls : Nat → List WriteCall) :
    bodySizes ws ≤ bodySizes (ws.mapIdx fun i w => (w.callAll (calls i)).1) := by
  unfold bodySizes
  induction ws generalizing calls with
  | nil => exact Nat.le_refl _
  | cons w ws ih =>
    rw [List.mapIdx_cons, List.map_cons, List.map_cons, List.sum_cons, List.sum_cons]
    exact Nat.add_le_add (v1.ColumnWriter.bodySize_le_callAll _ w) (ih fun i => calls (i + 1))

/-- The table `t` has been committed on the way, `u` has taken the same operations without
that, and the calls `later` are still to come. The file of `t` has reached no further than
the next commit will write. -/
structure Continues (later : Nat → List WriteCall) (t u : CSTableWriter)
    (ws vs : List v1.ColumnWriter) : Prop where
  version : t.version = .v0_1_0
  version' : u.version = .v0_1_0
  columns : t.columns.map ColumnConfig.unplaced = u.columns.map ColumnConfig.unplaced
  num_rows : t.num_rows = u.num_rows
  writers : t.WritersV1 ws
  writers' : u.WritersV1 vs
  length : t.columns.length = ws.length
  streams : SameStreams later ws vs
  file : (contents t.file).length ≤ t.headerSizeV1 + bodySizes ws
  file' : u.file = []

/-- Both tables have columns of the same names. -/
theorem Continues.names_eq {later : Nat → List WriteCall} {t u : CSTableWriter}
    {ws vs : List v1.ColumnWriter} (h : Continues later t u ws vs) :
    t.columns.map ColumnConfig.column_name = u.columns.map ColumnConfig.column_name := by
  rw [map_column_name_unplaced, h.columns, ← map_column_name_unplaced]

/-- Operations on both tables make the same calls on both. The calls still to come are the index
of the relation, and become fewer. -/
theorem Continues.after {later : Nat → List WriteCall} {t u : CSTableWriter}
    {ws vs : List v1.ColumnWriter} {ops : List TableOp}
    (h : Continues (fun i => callsOn u ops i ++ later i) t u ws vs) :
    ∃ ws' vs', Continues later (t.after ops) (u.after ops) ws' vs' := by
  have hcalls : callsOn t ops = callsOn u ops := callsOn_congr h.names_eq ops
  refine ⟨ws.mapIdx fun i w => (w.callAll (callsOn u ops i)).1,
    vs.mapIdx fun i v => (v.callAll (callsOn u ops i)).1, ?_⟩
  rw [after_eq h.writers.allV1, after_eq h.writers'.allV1, hcalls]
  exact
    { version := h.version
      version' := h.version'
      columns := h.columns
      num_rows := congrArg (· + rowsAdded ops) h.num_rows
      writers := h.writers.replay _ _
      writers' := h.writers'.replay _ _
      length := h.length.trans List.length_mapIdx.symm
      streams := h.streams.callAll
      file := by
        have hsizes := bodySizes_le_callAll ws (callsOn u ops)
        have hheader : (t.replay (rowsAdded ops) (callsOn u ops)).headerSizeV1 = t.headerSizeV1 :=
          headerSizeV1_congr rfl
        rw [hheader]
        exact Nat.le_trans h.file (Nat.add_le_add_left hsizes _)
      file' := h.file' }

/-- A commit of the one table only. Its writers are padded, the other's are not, and where that
makes a difference no calls are still to come. -/
theorem Continues.commit {later : Nat → List WriteCall} {t t' u : CSTableWriter}
    {ws vs : List v1.ColumnWriter} {mem : Uninit} (h : Continues later t u ws vs)
    (hfull : ∀ (i : Nat) (v : v1.ColumnWriter), vs[i]? = some v → v.FullBlocks ∨ later i = [])
    (hcommit : t.commit mem = .ok t') :
    Continues later t' u (ws.map v1.ColumnWriter.commit) vs := by
  have hcommit' : t.commitV1 mem = .ok t' := by
    rwa [CSTableWriter.commit, h.version] at hcommit
  have hspec := commitV1_spec h.writers h.length hcommit'
  obtain ⟨hwriters, hversion, hrows⟩ := commitV1_writers h.writers h.length hcommit'
  have hsame : t'.columns.map ColumnConfig.unplaced = t.columns.map ColumnConfig.unplaced := by
    have hzip : (t.columns.zip ws).map Prod.fst = t.columns :=
      List.map_fst_zip (Nat.le_of_eq h.length)
    rw [hspec.columns, List.map_map]
    calc (t.placedColumns ws).map (ColumnConfig.unplaced ∘ Prod.fst)
        = (t.columns.zip ws).map (ColumnConfig.unplaced ∘ Prod.fst) :=
          (map_eq_map (placedColumns_spec t ws) fun c p hcp =>
            (congrArg ColumnConfig.unplaced hcp.1).symm).symm
      _ = t.columns.map ColumnConfig.unplaced := by
          rw [← List.map_map, hzip]
  have hheader : t'.headerSizeV1 = t.headerSizeV1 := headerSizeV1_congr <| by
    rw [map_column_name_unplaced, hsame, ← map_column_name_unplaced]
  -- bodies only grow, so the file of the earlier commit is overwritten to its end
  have hold : (contents t.file).length ≤
      t.headerSizeV1 + bodySizes (ws.map v1.ColumnWriter.commit) :=
    Nat.le_trans h.file
      (Nat.add_le_add_left (bodySizes_le_map v1.ColumnWriter.bodySize_le_commit) _)
  exact
    { version := hversion.trans h.version
      version' := h.version'
      columns := hsame.trans h.columns
      num_rows := hrows.trans h.num_rows
      writers := hwriters
      writers' := h.writers'
      length := by
        have hlength := congrArg List.length hsame
        rw [List.length_map, List.length_map] at hlength
        rw [hlength, h.length, List.length_map]
      streams := h.streams.commit hfull
      file := by
        rw [length_contents_overwrite hspec h.length hold, hheader]
      file' := h.file' }

/-- A commit of both tables, at the end, writes the same streams. No calls are left to come
then. -/
theorem Continues.sameCommit {later : Nat → List WriteCall} {t u : CSTableWriter}
    {ws vs : List v1.ColumnWriter} (h : Continues later t u ws vs) : SameCommit t u ws vs where
  version := h.version
  version' := h.version'
  columns := h.columns
  num_rows := h.num_rows
  writers := h.writers
  writers' := h.writers'
  length := h.length
  committed := h.streams.map_commit

/-- Rounds of operations with commits of the one table between them. By induction on the rounds,
both tables moving on. -/
theorem Continues.commits {rounds : List (Uninit × List TableOp)} {last : List TableOp} :
    ∀ {t t' u : CSTableWriter} {ws vs : List v1.ColumnWriter},
      Continues (callsOn u (opsOf rounds ++ last)) t u ws vs →
      CommitsOnBlocks u rounds last → CSTableWriter.commits rounds t = .ok t' →
      ∃ ws' vs', Continues (callsOn u last) t' (u.after (opsOf rounds)) ws' vs' := by
  induction rounds with
  | nil =>
    intro t t' u ws vs h _ hrun
    cases hrun
    exact ⟨ws, vs, h⟩
  | cons round rounds ih =>
    obtain ⟨mem, ops⟩ := round
    rintro t t' u ws vs h ⟨hblocks, hrest⟩ hrun
    obtain ⟨t₁, hcommit, hrun⟩ := Result.bind_eq_ok.mp hrun
    have hsplit : callsOn u (opsOf ((mem, ops) :: rounds) ++ last) =
        fun i => callsOn u ops i ++ callsOn u (opsOf rounds ++ last) i := funext fun i => by
      rw [← callsOn_append, ← List.append_assoc]
      rfl
    rw [hsplit] at h
    obtain ⟨ws₁, vs₁, hafter⟩ := h.after
    -- calls find their columns by name, and operations leave the names alone
    have hnames : callsOn (u.after ops) = callsOn u := by
      rw [after_eq h.writers'.allV1]
      rfl
    have hcontinues := hafter.commit (fun i v hv => by
      have hslot := congrArg (fun xs : List ColumnWriter => xs[i]?) hafter.writers'
      simp only [List.getElem?_map, hv, Option.map_some] at hslot
      obtain ⟨slot, hslot, hwriter⟩ := Option.map_eq_some_iff.mp hslot
      exact hblocks i slot v hslot hwriter) hcommit
    obtain ⟨ws', vs', hend⟩ := ih (hnames ▸ hcontinues) hrest hrun
    refine ⟨ws', vs', ?_⟩
    have hrun' : u.after (opsOf ((mem, ops) :: rounds)) = (u.after ops).after (opsOf rounds) :=
      after_append u ops (opsOf rounds)
    rw [hrun', ← hnames]
    exact hend

/-- A table of v0.1.0 that is committed after rounds of operations has the file of a single
commit at the end, byte for byte and whatever each of the commits finds in memory, when no
column is continued behind a block that a commit has padded and none is of a class that counts
more bytes than it writes. -/
theorem rounds_commit {mem₀ mem : Uninit} (mem' : Uninit) {t t₁ t' : CSTableWriter}
    (h : Reached mem₀ t) (hv : t.version = .v0_1_0) (hcounted : t.AllCounted)
    {rounds : List (Uninit × List TableOp)} {last : List TableOp}
    (hblocks : CommitsOnBlocks t rounds last) (hrounds : commits rounds t = .ok t₁)
    (hcommit : (t₁.after last).commit mem = .ok t') :
    ∃ u, (t.after (opsOf rounds ++ last)).commit mem' = .ok u ∧
      contents t'.file = contents u.file := by
  obtain ⟨ws, hws⟩ : ∃ ws, t.WritersV1 ws := exists_writersV1 (h.replayed hv).allV1
  have hstart : Continues (callsOn t (opsOf rounds ++ last)) t t ws ws :=
    { version := hv
      version' := hv
      columns := rfl
      num_rows := rfl
      writers := hws
      writers' := hws
      length := (h.replayed hv).slots.length_eq.trans hws.length_eq
      streams := .refl ws
      file := by
        rw [(h.replayed hv).file]
        exact Nat.zero_le _
      file' := (h.replayed hv).file }
  obtain ⟨ws₁, vs₁, hend⟩ := hstart.commits hblocks hrounds
  have hnames : callsOn (t.after (opsOf rounds)) last = callsOn t last := by
    rw [after_eq hws.allV1]
    rfl
  have hend' : Continues (fun i => callsOn (t.after (opsOf rounds)) last i ++ []) t₁
      (t.after (opsOf rounds)) ws₁ vs₁ := by
    have heq : (fun i => callsOn (t.after (opsOf rounds)) last i ++ []) = callsOn t last := by
      rw [hnames]
      exact funext fun i => List.append_nil _
    rw [heq]
    exact hend
  obtain ⟨ws₂, vs₂, hlast⟩ := hend'.after
  rw [← after_append] at hlast
  -- the table that is committed once is one a program can have, with the columns of `t`
  have hcolumns : (t.after (opsOf rounds ++ last)).columns = t.columns := by
    rw [after_eq hws.allV1]
    rfl
  have hreached : Reached mem₀ (t.after (opsOf rounds ++ last)) := h.after
  obtain ⟨vs, hvs, hclasses⟩ := (hreached.classesV1 hlast.version').writers
  obtain rfl : vs₂ = vs := hlast.writers'.unique hvs
  have hsame := hlast.sameCommit
  obtain ⟨u, hu⟩ := hsame.symm.exists_commit mem' hcommit
  refine ⟨u, hu, hsame.contents ((placed_full_iff hclasses).mpr ?_) ?_ ?_ hcommit hu⟩
  · unfold AllCounted
    rw [hcolumns]
    exact hcounted
  · exact Nat.le_trans hlast.file
      (Nat.add_le_add_left (bodySizes_le_map v1.ColumnWriter.bodySize_le_commit) _)
  · rw [hlast.file']
    exact Nat.zero_le _

/-- Two columns of which the first commit finds a block of 128 entries each; memory holds
something else at every commit. -/
theorem rounds_commit_block :
    let mem (b : UInt8) : Uninit := ⟨fun _ _ => b, fun _ => 0, ⟨0, [], 0, 0, 0, 0, 0, 0⟩, 0⟩
    let string : LeafType := ⟨.STRING, ColumnType.noConfusion⟩
    let number : LeafType := ⟨.UNSIGNED_INT, ColumnType.noConfusion⟩
    let schema : TableSchema := [.leaf [0x61] string .STRING_PLAIN false false,
      .leaf [0x62] number .UINT64_LEB128 false true]
    let a : TableOp := .write [0x61] ⟨0, 0, .string [0x78]⟩
    let b : TableOp := .write [0x62] ⟨0, 1, .unsignedInt 7⟩
    let first : List TableOp := (List.replicate 128 [a, b, .addRow]).flatten
    ∃ t t₁ t' u, createFile (mem 0) ⟨id, fun _ => .refl _⟩ .v0_1_0 schema = .ok t ∧
      commits [(mem 1, first)] t = .ok t₁ ∧
      (t₁.after [b, a, .addRow]).commit (mem 2) = .ok t' ∧
      (t.after (opsOf [(mem 1, first)] ++ [b, a, .addRow])).commit (mem 3) = .ok u ∧
      contents t'.file = contents u.file := by
  intro mem string number schema a b first
  let order : HashOrder := ⟨id, fun _ => .refl _⟩
  obtain ⟨t', hrun⟩ := Result.exists_eq_ok (x := createFile (mem 0) order .v0_1_0 schema >>=
    fun t => commits [(mem 1, first)] t >>= fun t₁ => (t₁.after [b, a, .addRow]).commit (mem 2))
    (by decide +kernel)
  obtain ⟨t, ht, hrun⟩ := Result.bind_eq_ok.mp hrun
  obtain ⟨t₁, ht₁, ht'⟩ := Result.bind_eq_ok.mp hrun
  have hv : t.version = .v0_1_0 := by
    cases ht
    rfl
  have hdvd : ∀ slot ∈ (t.after first).column_writers, 128 ∣ slot.history.length ∧
      128 ∣ (v1.ColumnWriter.values slot.history).length := by
    cases ht
    decide +kernel
  have hreplayed : (t.after first).Replayed := by
    rw [after_eq (createFile_replayed ht).allV1]
    exact (createFile_replayed ht).replay _ _
  have hblocks : CommitsOnBlocks t [(mem 1, first)] [b, a, .addRow] := by
    refine ⟨fun i slot w hslot hw => Or.inl ?_, trivial⟩
    obtain ⟨hentries, hvalues⟩ := hdvd slot (List.mem_of_getElem? hslot)
    exact hreplayed.fullBlocks_of_dvd hslot hw hentries hvalues
  have hcounted : t.AllCounted := by
    cases ht
    intro c hc e he
    rcases List.mem_pair.mp hc with rfl | rfl <;> rcases he with rfl | rfl | rfl <;> decide
  obtain ⟨u, hu, hsame⟩ := rounds_commit (mem 3) (.createFile ht) hv hcounted hblocks ht₁ ht'
  exact ⟨t, t₁, t', u, ht, ht₁, ht', hu, hsame⟩

end CSTableWriter

end CStable
