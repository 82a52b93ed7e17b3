import Mathlib.Data.List.Basic
import Mathlib.Algebra.BigOperators.Group.List.Basic
import Mathlib.Algebra.Ring.Nat

/-!
# `CStable.Support.Disk`: extents of a file and positional writes

A file is the list of its cells, over any cell type. `writeAt` is a positional
write: it replaces the cells it covers and, when it starts past the end, fills
the gap with the cell `zero`. A log of writes is applied in order by
`applyWrites`; a crash after `k` writes leaves `applyWrites` of the first `k`.

* `getElem?_writeAt`: the content after a write, cell by cell.
* `readAt_writeAt`, `readAt_writeAt_of_disjoint`: a region holds what was
  written to it, and a write elsewhere leaves it alone.
* `Adjacent`: extents laid out back to back from a base. They are pairwise
  disjoint (`Adjacent.pairwise_disjoint`) and end where the lengths add up to.
-/

set_option autoImplicit false

namespace CStable.Support

/-! ### Extents -/

/-- A range of positions: `len` cells from `start` on. -/
structure Extent where
  start : Nat
  len : Nat
  deriving DecidableEq, Repr

namespace Extent

/-- The position after the last cell. -/
def stop (e : Extent) : Nat := e.start + e.len

/-- No position lies in both. -/
def Disjoint (a b : Extent) : Prop := a.stop ≤ b.start ∨ b.stop ≤ a.start

instance (a b : Extent) : Decidable (Disjoint a b) :=
  inferInstanceAs (Decidable (_ ∨ _))

/-- Two ranges that do not meet do not meet the other way around. -/
theorem Disjoint.symm {a b : Extent} (h : Disjoint a b) : Disjoint b a := Or.symm h

end Extent

/-- The extents lie back to back, in order, from `base` on. -/
def Adjacent : Nat → List Extent → Prop
  | _, [] => True
  | base, e :: es => e.start = base ∧ Adjacent e.stop es

/-- No extents are laid out back to back from anywhere. -/
@[simp] theorem adjacent_nil (base : Nat) : Adjacent base [] := trivial

/-- The first extent starts at the base, and the others go on where it stops. -/
theorem adjacent_cons {base : Nat} {e : Extent} {es : List Extent} :
    Adjacent base (e :: es) ↔ e.start = base ∧ Adjacent e.stop es := Iff.rfl

/-- Where extents laid out back to back from `base` end. -/
def endOf (base : Nat) (es : List Extent) : Nat := base + (es.map Extent.len).sum

/-- Without extents the end is the base. -/
@[simp] theorem endOf_nil (base : Nat) : endOf base [] = base := rfl

/-- The end is that of the other extents, laid out behind the first. -/
theorem endOf_cons (base : Nat) (e : Extent) (es : List Extent) :
    endOf base (e :: es) = endOf (base + e.len) es := by
  simp only [endOf, List.map_cons, List.sum_cons]
  omega

/-- Extents end behind their base. -/
theorem le_endOf (base : Nat) (es : List Extent) : base ≤ endOf base es :=
  Nat.le_add_right _ _

/-- Adjacent extents lie between the base and their end. By induction on the extents, with the
base moving on. -/
theorem Adjacent.bounds {base : Nat} {es : List Extent} (h : Adjacent base es) :
    ∀ e ∈ es, base ≤ e.start ∧ e.stop ≤ endOf base es := by
  induction es generalizing base with
  | nil =>
    intro e he
    cases he
  | cons e es ih =>
    obtain ⟨hstart, htail⟩ := h
    have hstop : e.stop = base + e.len := by rw [Extent.stop, hstart]
    intro f hf
    rw [endOf_cons, ← hstop]
    rcases List.mem_cons.mp hf with rfl | hf
    · exact ⟨Nat.le_of_eq hstart.symm, le_endOf _ _⟩
    · obtain ⟨hlo, hhi⟩ := ih htail f hf
      exact ⟨by omega, hhi⟩

/-- Extents laid out back to back never overlap: each lies behind the end of those before it. By
induction on the extents. -/
theorem Adjacent.pairwise_disjoint {base : Nat} {es : List Extent} (h : Adjacent base es) :
    es.Pairwise Extent.Disjoint := by
  induction es generalizing base with
  | nil => exact List.Pairwise.nil
  | cons e es ih =>
    obtain ⟨_, htail⟩ := h
    refine List.Pairwise.cons (fun f hf => ?_) (ih htail)
    exact Or.inl (htail.bounds f hf).1

/-! ### Positional writes -/

variable {α : Type}

/-- The cells of a region; shorter than `len` where the file ends. -/
def readAt (f : List α) (pos len : Nat) : List α := (f.drop pos).take len

/-- Overwrite the cells from `pos` on by `data`; a gap before `pos` is filled
with `zero`. A write of no cells does not change the file. -/
def writeAt (zero : α) (f : List α) (pos : Nat) (data : List α) : List α :=
  if data.length = 0 then f
  else f.take pos ++ List.replicate (pos - f.length) zero ++ data ++ f.drop (pos + data.length)

/-- A positional write, as it is issued. -/
structure Write (α : Type) where
  pos : Nat
  data : List α
  deriving DecidableEq, Repr

/-- The positions a write covers. -/
def Write.extent (w : Write α) : Extent := ⟨w.pos, w.data.length⟩

/-- The file after a log of writes, in the order they were issued. -/
def applyWrites (zero : α) (f : List α) (ws : List (Write α)) : List α :=
  ws.foldl (fun g w => writeAt zero g w.pos w.data) f

/-- A log without writes changes nothing. -/
@[simp] theorem applyWrites_nil (zero : α) (f : List α) : applyWrites zero f [] = f := rfl

/-- The first write of a log comes first. -/
@[simp] theorem applyWrites_cons (zero : α) (f : List α) (w : Write α) (ws : List (Write α)) :
    applyWrites zero f (w :: ws) = applyWrites zero (writeAt zero f w.pos w.data) ws := rfl

/-- Two logs, one after the other. A crash cuts a log in two, so that this is used with the
writes that got to the file and the others. -/
theorem applyWrites_append (zero : α) (f : List α) (ws us : List (Write α)) :
    applyWrites zero f (ws ++ us) = applyWrites zero (applyWrites zero f ws) us :=
  List.foldl_append

/-- The content after a write, cell by cell: the old cells in front of it, zeros in a gap behind
the old end, the data, and the old cells behind it. A write of no data is none. -/
theorem getElem?_writeAt (zero : α) (f : List α) (pos : Nat) (data : List α) (i : Nat) :
    (writeAt zero f pos data)[i]? =
      if data.length = 0 then f[i]?
      else if i < pos then (if i < f.length then f[i]? else some zero)
      else if i < pos + data.length then data[i - pos]?
      else f[i]? := by
  unfold writeAt
  by_cases h0 : data.length = 0
  · rw [if_pos h0, if_pos h0]
  rw [if_neg h0, if_neg h0]
  -- the file before `pos`, padded, is exactly `pos` cells long
  have hpre : (f.take pos ++ List.replicate (pos - f.length) zero).length = pos := by
    rw [List.length_append, List.length_take, List.length_replicate]
    omega
  by_cases hi : i < pos
  · rw [if_pos hi, List.append_assoc, List.getElem?_append_left (by omega)]
    by_cases hf : i < f.length
    · rw [if_pos hf, List.getElem?_append_left (by rw [List.length_take]; omega),
        List.getElem?_take_of_lt hi]
    · rw [if_neg hf, List.getElem?_append_right (by rw [List.length_take]; omega),
        List.getElem?_replicate, if_pos (by rw [List.length_take]; omega)]
  · rw [if_neg hi, List.append_assoc, List.getElem?_append_right (by omega), hpre]
    by_cases hd : i < pos + data.length
    · rw [if_pos hd, List.getElem?_append_left (by omega)]
    · rw [if_neg hd, List.getElem?_append_right (by omega), List.getElem?_drop]
      congr 1
      omega

/-- A write behind the end makes the file longer; one inside leaves its length. An empty write
does neither, wherever it is. -/
theorem length_writeAt (zero : α) (f : List α) (pos : Nat) (data : List α)
    (h : data.length ≠ 0) :
    (writeAt zero f pos data).length = max f.length (pos + data.length) := by
  rw [writeAt, if_neg h]
  simp only [List.length_append, List.length_take, List.length_replicate, List.length_drop]
  omega

/-- No write shortens the file. -/
theorem length_le_length_writeAt (zero : α) (f : List α) (pos : Nat) (data : List α) :
    f.length ≤ (writeAt zero f pos data).length := by
  by_cases h : data.length = 0
  · have hsame : writeAt zero f pos data = f := if_pos h
    exact Nat.le_of_eq (congrArg List.length hsame.symm)
  · rw [length_writeAt zero f pos data h]
    exact Nat.le_max_left _ _

/-- A log does not shorten the file either. By induction on the writes. -/
theorem length_le_length_applyWrites (zero : α) (f : List α) (ws : List (Write α)) :
    f.length ≤ (applyWrites zero f ws).length := by
  induction ws generalizing f with
  | nil => exact Nat.le_refl _
  | cons w ws ih =>
    exact Nat.le_trans (length_le_length_writeAt zero f w.pos w.data) (ih _)

/-- The cells of a region are those of the file from its start on. -/
theorem getElem?_readAt (f : List α) (pos len i : Nat) :
    (readAt f pos len)[i]? = if i < len then f[pos + i]? else none := by
  rw [readAt, List.getElem?_take, List.getElem?_drop]

/-- A region inside the file has its full length. -/
theorem length_readAt {f : List α} {pos len : Nat} (h : pos + len ≤ f.length) :
    (readAt f pos len).length = len := by
  rw [readAt, List.length_take, List.length_drop]
  omega

/-- The beginning of a region is the region of fewer cells at the same place. -/
theorem take_readAt {f : List α} {pos len k : Nat} (h : k ≤ len) :
    (readAt f pos len).take k = readAt f pos k := by
  rw [readAt, List.take_take, Nat.min_eq_left h, readAt]

/-- Two files that agree on the cells of a region have the same region. Statements about files
go over to their cells in this way. -/
theorem readAt_congr {f g : List α} {pos len : Nat}
    (h : ∀ i, pos ≤ i → i < pos + len → f[i]? = g[i]?) :
    readAt f pos len = readAt g pos len := by
  apply List.ext_getElem?
  intro i
  rw [getElem?_readAt, getElem?_readAt]
  by_cases hi : i < len
  · rw [if_pos hi, if_pos hi, h (pos + i) (by omega) (by omega)]
  · rw [if_neg hi, if_neg hi]

/-- A region holds what was just written to it, also behind the old end of the file. The gap in
between is filled, and is not part of the region. -/
theorem readAt_writeAt (zero : α) (f : List α) (pos : Nat) (data : List α) :
    readAt (writeAt zero f pos data) pos data.length = data := by
  apply List.ext_getElem?
  intro i
  rw [getElem?_readAt, getElem?_writeAt]
  by_cases hi : i < data.length
  · rw [if_pos hi, if_neg (by omega), if_neg (by omega), if_pos (by omega)]
    congr 1
    omega
  · rw [if_neg hi, List.getElem?_eq_none (by omega)]

/-- A write elsewhere leaves a region of the file as it is. The region has to lie inside the
file, because a write behind the end fills the gap with zeros. -/
theorem readAt_writeAt_of_disjoint (zero : α) {f : List α} {pos len : Nat} {w : Write α}
    (hin : pos + len ≤ f.length) (hdisj : Extent.Disjoint ⟨pos, len⟩ w.extent) :
    readAt (writeAt zero f w.pos w.data) pos len = readAt f pos len := by
  have hd : pos + len ≤ w.pos ∨ w.pos + w.data.length ≤ pos := hdisj
  apply readAt_congr
  intro i hlo hhi
  rw [getElem?_writeAt]
  by_cases h0 : w.data.length = 0
  · rw [if_pos h0]
  rw [if_neg h0]
  by_cases hi : i < w.pos
  · rw [if_pos hi, if_pos (by omega)]
  · rw [if_neg hi, if_neg (by omega)]

/-- The write leaves a region that holds the data as it is: it goes elsewhere, or it writes
the data again, perhaps with more behind it. -/
def Write.Keeps (w : Write α) (pos : Nat) (data : List α) : Prop :=
  Extent.Disjoint ⟨pos, data.length⟩ w.extent ∨ w.pos = pos ∧ data <+: w.data

/-- A region that one write keeps, because it goes elsewhere or writes the same data. The two
cases are one for the proofs that follow. -/
theorem readAt_writeAt_of_keeps (zero : α) {f : List α} {pos : Nat} {data : List α} {w : Write α}
    (h : readAt f pos data.length = data) (hw : w.Keeps pos data) :
    readAt (writeAt zero f w.pos w.data) pos data.length = data := by
  by_cases hempty : data = []
  · rw [hempty, readAt, List.length_nil, List.take_zero]
  rcases hw with hdisj | ⟨rfl, hagain⟩
  · have hlen := congrArg List.length h
    rw [readAt, List.length_take, List.length_drop] at hlen
    have hpos := List.length_pos_of_ne_nil hempty
    have hin : pos + data.length ≤ f.length := by omega
    rw [readAt_writeAt_of_disjoint zero hin hdisj, h]
  · rw [← take_readAt hagain.length_le, readAt_writeAt, ← List.prefix_iff_eq_take.mp hagain]

/-- A region that every write of a log keeps holds its data at the end. By induction on
the log. -/
theorem readAt_applyWrites_of_keeps (zero : α) {f : List α} {pos : Nat} {data : List α}
    {ws : List (Write α)} (h : readAt f pos data.length = data)
    (hws : ∀ w ∈ ws, w.Keeps pos data) :
    readAt (applyWrites zero f ws) pos data.length = data := by
  induction ws generalizing f with
  | nil => exact h
  | cons w ws ih =>
    have hw := readAt_writeAt_of_keeps zero h (hws w List.mem_cons_self)
    exact ih hw fun u hu => hws u (List.mem_cons_of_mem w hu)

/-- A write behind a prefix of the file leaves the prefix in place and acts on the rest. Headers
are taken off the front of a file by this. -/
theorem writeAt_append_right (zero : α) (p f : List α) {pos : Nat} (data : List α)
    (h : p.length ≤ pos) :
    writeAt zero (p ++ f) pos data = p ++ writeAt zero f (pos - p.length) data := by
  by_cases h0 : data.length = 0
  · rw [writeAt, if_pos h0, writeAt, if_pos h0]
  · rw [writeAt, if_neg h0, writeAt, if_neg h0, List.take_append, List.take_of_length_le h,
      List.drop_append, List.drop_eq_nil_of_le (by omega), List.length_append, List.nil_append,
      Nat.sub_add_eq, show pos + data.length - p.length = pos - p.length + data.length by omega]
    simp only [List.append_assoc]

/-- A write that covers the beginning of the file exactly replaces it. -/
theorem writeAt_append_left (zero : α) (old f : List α) {data : List α}
    (h : data.length = old.length) : writeAt zero (old ++ f) 0 data = data ++ f := by
  by_cases h0 : data.length = 0
  · rw [writeAt, if_pos h0, List.eq_nil_of_length_eq_zero h0,
      List.eq_nil_of_length_eq_zero (h.symm.trans h0)]
  · rw [writeAt, if_neg h0, Nat.zero_add, h, List.drop_left]
    simp

/-- A write at the end of the file appends. -/
theorem writeAt_length (zero : α) (f data : List α) :
    writeAt zero f f.length data = f ++ data := by
  by_cases h0 : data.length = 0
  · rw [writeAt, if_pos h0, List.eq_nil_of_length_eq_zero h0, List.append_nil]
  · rw [writeAt, if_neg h0, List.take_length, Nat.sub_self, List.replicate_zero,
      List.append_nil, List.drop_eq_nil_of_le (by omega), List.append_nil]

/-- Writes whose extents continue the file back to back append their data, in order. So a log of
pages is read as one text. -/
theorem applyWrites_adjacent (zero : α) (f : List α) (ws : List (Write α))
    (h : Adjacent f.length (ws.map Write.extent)) :
    applyWrites zero f ws = f ++ ws.flatMap Write.data := by
  induction ws generalizing f with
  | nil => rw [applyWrites_nil, List.flatMap_nil, List.append_nil]
  | cons w ws ih =>
    obtain ⟨hstart, htail⟩ := h
    have hpos : w.pos = f.length := hstart
    have hstop : w.extent.stop = (f ++ w.data).length := by
      rw [List.length_append, ← hpos]
      rfl
    rw [hstop] at htail
    rw [applyWrites_cons, hpos, writeAt_length, ih _ htail, List.flatMap_cons,
      List.append_assoc]

/-- Writes laid out back to back behind a beginning of the file replace what was there as far
as they reach. -/
theorem applyWrites_overwrite (zero : α) (p f : List α) (ws : List (Write α))
    (h : Adjacent p.length (ws.map Write.extent)) :
    applyWrites zero (p ++ f) ws =
      p ++ ws.flatMap Write.data ++ f.drop (ws.flatMap Write.data).length := by
  induction ws generalizing p f with
  | nil => rw [applyWrites_nil, List.flatMap_nil, List.append_nil, List.length_nil, List.drop_zero]
  | cons w ws ih =>
    obtain ⟨hstart, htail⟩ := h
    have hpos : w.pos = p.length := hstart
    have hstop : w.extent.stop = (p ++ w.data).length := by
      rw [List.length_append, ← hpos]
      rfl
    rw [hstop] at htail
    -- the write covers the front of what was there, and starts where the one before it stopped
    have hwrite : writeAt zero f 0 w.data = w.data ++ f.drop w.data.length := by
      by_cases h0 : w.data.length = 0
      · rw [writeAt, if_pos h0, h0, List.drop_zero, List.eq_nil_of_length_eq_zero h0,
          List.nil_append]
      · rw [writeAt, if_neg h0, List.take_zero, Nat.zero_sub, List.replicate_zero,
          List.nil_append, List.nil_append, Nat.zero_add]
    rw [applyWrites_cons, hpos, writeAt_append_right zero p f w.data (Nat.le_refl _), Nat.sub_self,
      hwrite, ← List.append_assoc, ih _ _ htail, List.flatMap_cons, List.drop_drop,
      List.length_append, List.append_assoc p]

end CStable.Support
