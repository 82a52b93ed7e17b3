import Mathlib.Data.List.Basic
import Mathlib.Data.List.Forall2
import Mathlib.Algebra.Group.Nat.Defs

/-!
# `CStable.Support.Striping`: nested records as columns with levels

A column of a nested record type is given by the fields on the way to it (`Hop`),
each of which may be repeated and may be missing. What a record holds in that
column is a nest of lists, one list for each field (`Nest`): the occurrences of the
field, and for each of them what it holds further down.

`stripe` writes such a nest as a flat list of entries with a repetition level `r`
and a definition level `d`. The first entry of an occurrence has the repetition
level of the occurrence; a field that is missing leaves one entry without a value.

* `stripe_cons`, `le_of_mem_tail`, `tail_pos_iff`: where a new record starts.
* `Present.fits`: the levels stay within those of the column, and the definition level
  tells values from missing fields.
* `scan_stripe`: counting the repetition levels gives back the position of every
  entry in the nest (`addressed`), which is what puts a record together again.
-/

set_option autoImplicit false

namespace CStable.Support.Striping

/-- A field on the way to a column. -/
structure Hop where
  repeated : Bool
  optional : Bool
  deriving DecidableEq, Repr

namespace Hop

/-- What the field adds to the repetition level. -/
def rep (h : Hop) : Nat := if h.repeated then 1 else 0

/-- What the field adds to the definition level. -/
def opt (h : Hop) : Nat := if h.optional || h.repeated then 1 else 0

end Hop

/-- The maximal repetition level of a column. -/
def reps : List Hop → Nat
  | [] => 0
  | h :: hs => h.rep + reps hs

/-- The maximal definition level of a column. -/
def opts : List Hop → Nat
  | [] => 0
  | h :: hs => h.opt + opts hs

/-- A field adds one repetition level or none. -/
theorem Hop.rep_le (h : Hop) : h.rep ≤ 1 := by
  unfold Hop.rep
  split <;> omega

/-- A field adds one definition level or none. -/
theorem Hop.opt_le (h : Hop) : h.opt ≤ 1 := by
  unfold Hop.opt
  split <;> omega

/-- Each field adds one level at most, so a column has no more levels than there are fields
on the way to it. -/
theorem reps_le_length (hs : List Hop) : reps hs ≤ hs.length := by
  induction hs with
  | nil => exact Nat.le_refl 0
  | cons h hs ih =>
    have hone := h.rep_le
    rw [reps, List.length_cons]
    omega

/-- The same for the definition levels. -/
theorem opts_le_length (hs : List Hop) : opts hs ≤ hs.length := by
  induction hs with
  | nil => exact Nat.le_refl 0
  | cons h hs ih =>
    have hone := h.opt_le
    rw [opts, List.length_cons]
    omega

/-- What a record holds below the fields: a value, or the occurrences of the first
field. -/
def Nest (α : Type) : List Hop → Type
  | [] => α
  | _ :: hs => List (Nest α hs)

/-- The occurrences of the first field. -/
def Nest.list {α : Type} {h : Hop} {hs : List Hop} (cs : Nest α (h :: hs)) : List (Nest α hs) := cs

/-- An entry of a column. -/
structure Entry (α : Type) where
  r : Nat
  d : Nat
  value : Option α
  deriving DecidableEq, Repr

variable {α : Type}

/-- The entries of a nest: `r` is the repetition level of its first entry, `rmax`
the one of the fields above, `d` their definition level. -/
def stripe : (hs : List Hop) → Nat → Nat → Nat → Nest α hs → List (Entry α)
  | [], r, _, d, v => [⟨r, d, some v⟩]
  | _ :: _, r, _, d, [] => [⟨r, d, none⟩]
  | h :: hs, r, rmax, d, c :: cs =>
    stripe hs r (rmax + h.rep) (d + h.opt) c ++
      cs.flatMap (stripe hs (rmax + h.rep) (rmax + h.rep) (d + h.opt))

/-! ### Where records start -/

/-- The first entry has the repetition level of the nest. There always is a first entry, since a
nest without occurrences is a null. -/
theorem stripe_cons (hs : List Hop) (r rmax d : Nat) (c : Nest α hs) :
    ∃ e es, stripe hs r rmax d c = e :: es ∧ e.r = r := by
  induction hs generalizing r rmax d with
  | nil => exact ⟨_, _, rfl, rfl⟩
  | cons h hs ih =>
    cases c with
    | nil => exact ⟨_, _, rfl, rfl⟩
    | cons c cs =>
      obtain ⟨e, es, heq, hr⟩ := ih r (rmax + h.rep) (d + h.opt) c
      refine ⟨e, es ++ cs.flatMap (stripe hs (rmax + h.rep) (rmax + h.rep) (d + h.opt)), ?_, hr⟩
      rw [stripe, heq, List.cons_append]

/-- Every nest makes at least one entry, so that each record is seen in every column. A nest
without values makes a null. -/
theorem stripe_ne_nil (hs : List Hop) (r rmax d : Nat) (c : Nest α hs) :
    stripe hs r rmax d c ≠ [] := by
  obtain ⟨e, es, heq, -⟩ := stripe_cons hs r rmax d c
  rw [heq]
  exact List.cons_ne_nil e es

/-- The entries after the first, when there is an occurrence: the rest of the first occurrence
and all of the others, which start at the level of the field. -/
theorem tail_stripe_cons (h : Hop) (hs : List Hop) (r rmax d : Nat) (c : Nest α hs)
    (cs : List (Nest α hs)) :
    (stripe (h :: hs) r rmax d (c :: cs : List (Nest α hs))).tail =
      (stripe hs r (rmax + h.rep) (d + h.opt) c).tail ++
        cs.flatMap (stripe hs (rmax + h.rep) (rmax + h.rep) (d + h.opt)) := by
  rw [stripe, List.tail_append_of_ne_nil (stripe_ne_nil _ _ _ _ _)]

/-- No entry but the first has a level below that of the fields above. By induction on the
fields on the way to the leaf. -/
theorem le_of_mem_tail {hs : List Hop} {r rmax d : Nat} {c : Nest α hs} :
    ∀ e ∈ (stripe hs r rmax d c).tail, rmax ≤ e.r := by
  induction hs generalizing r rmax d with
  | nil =>
    intro e he
    cases he
  | cons h hs ih =>
    cases c with
    | nil =>
      intro e he
      cases he
    | cons c cs =>
      intro e he
      rw [tail_stripe_cons] at he
      rcases List.mem_append.mp he with he | he
      · have hle := ih e he
        omega
      · -- a later occurrence starts at the level of the field, and stays above it
        obtain ⟨c', -, he⟩ := List.mem_flatMap.mp he
        obtain ⟨e', es, heq, hr⟩ := stripe_cons hs (rmax + h.rep) (rmax + h.rep) (d + h.opt) c'
        rw [heq] at he
        rcases List.mem_cons.mp he with rfl | he
        · omega
        · have hle := ih (r := rmax + h.rep) (d := d + h.opt) (c := c') e (by rwa [heq])
          omega

/-- Down to the first repeated field, no field occurs twice. -/
def StartsOnce : (hs : List Hop) → Nest α hs → Prop
  | [], _ => True
  | h :: hs, cs => h.repeated = true ∨
    (cs.list.length ≤ 1 ∧ ∀ c ∈ cs.list, StartsOnce hs c)

/-- Exactly then a nest is one record: the level zero occurs only at its start, because no field
that is not repeated occurs twice above the first repeated one. -/
theorem tail_pos_iff {hs : List Hop} {d : Nat} {c : Nest α hs} :
    (∀ e ∈ (stripe hs 0 0 d c).tail, 0 < e.r) ↔ StartsOnce hs c := by
  induction hs generalizing d with
  | nil => exact iff_of_true (fun e he => by cases he) trivial
  | cons h hs ih =>
    cases c with
    | nil =>
      refine iff_of_true (fun e he => by cases he) (Or.inr ⟨Nat.zero_le 1, fun c hc => ?_⟩)
      cases hc
    | cons c cs =>
      rw [tail_stripe_cons]
      show _ ↔ (h.repeated = true ∨ ((c :: cs).length ≤ 1 ∧ ∀ c' ∈ c :: cs, StartsOnce hs c'))
      by_cases hrep : h.repeated = true
      · -- below a repeated field every later entry has level one at least
        have hone : 0 + h.rep = 1 := by simp [Hop.rep, hrep]
        refine iff_of_true (fun e he => ?_) (Or.inl hrep)
        rw [hone] at he
        rcases List.mem_append.mp he with he | he
        · exact le_of_mem_tail e he
        · obtain ⟨c', -, he⟩ := List.mem_flatMap.mp he
          obtain ⟨e', es, heq, hr⟩ := stripe_cons hs 1 1 (d + h.opt) c'
          rw [heq] at he
          rcases List.mem_cons.mp he with rfl | he
          · omega
          · exact le_of_mem_tail (r := 1) (d := d + h.opt) (c := c') e (by rwa [heq])
      · have hzero : 0 + h.rep = 0 := by simp [Hop.rep, hrep]
        rw [hzero]
        constructor
        · intro hpos
          right
          cases cs with
          | nil =>
            refine ⟨Nat.le_refl 1, fun c' hc' => ?_⟩
            rw [List.mem_singleton] at hc'
            subst hc'
            refine (ih (d := d + h.opt)).mp fun e he => hpos e ?_
            exact List.mem_append_left _ he
          | cons c' cs =>
            -- the second occurrence starts at level zero
            obtain ⟨e, es, heq, hr⟩ := stripe_cons hs 0 0 (d + h.opt) c'
            have hlt := hpos e (by
              refine List.mem_append_right _ ?_
              rw [List.flatMap_cons, heq]
              exact List.mem_cons_self)
            omega
        · rintro (habs | ⟨hlen, honce⟩)
          · exact absurd habs hrep
          · have hnil : cs = [] := List.eq_nil_of_length_eq_zero (by
              rw [List.length_cons] at hlen
              omega)
            subst hnil
            rw [List.flatMap_nil, List.append_nil]
            exact ih.mpr (honce c List.mem_cons_self)

/-! ### Levels -/

/-- Every field that can not be missing occurs. -/
def Present : (hs : List Hop) → Nest α hs → Prop
  | [], _ => True
  | h :: hs, cs => (h.opt = 0 → cs.list ≠ []) ∧ ∀ c ∈ cs.list, Present hs c

/-- The levels of an entry are those of its column at most, and it has a value
exactly when its definition level is the one of the column. -/
structure Fits (rmax dmax : Nat) (e : Entry α) : Prop where
  r : e.r ≤ rmax
  d : e.d ≤ dmax
  value : e.value.isSome ↔ e.d = dmax

/-- The levels of a nest are within the maxima of its fields, and a value has the highest
definition level. This is what a column checks of its entries. -/
theorem Present.fits {hs : List Hop} {r rmax d : Nat} {c : Nest α hs} (h : Present hs c)
    (hr : r ≤ rmax) : ∀ e ∈ stripe hs r rmax d c, Fits (rmax + reps hs) (d + opts hs) e := by
  induction hs generalizing r rmax d with
  | nil =>
    intro e he
    rw [stripe, List.mem_singleton] at he
    subst he
    exact ⟨hr, Nat.le_refl d, iff_of_true rfl rfl⟩
  | cons f hs ih =>
    have hsum : ∀ n m : Nat, n + (f.rep + m) = n + f.rep + m := fun n m => by omega
    have hsum' : ∀ n m : Nat, n + (f.opt + m) = n + f.opt + m := fun n m => by omega
    cases c with
    | nil =>
      -- the field is missing, so it is one that adds to the definition level
      intro e he
      rw [stripe, List.mem_singleton] at he
      subst he
      have hopt : f.opt ≠ 0 := fun hzero => h.1 hzero rfl
      refine ⟨Nat.le_trans hr (Nat.le_add_right _ _), Nat.le_add_right _ _,
        iff_of_false (by simp) ?_⟩
      show d ≠ d + (f.opt + opts hs)
      omega
    | cons c cs =>
      intro e he
      rw [reps, opts, hsum, hsum']
      rw [stripe] at he
      rcases List.mem_append.mp he with he | he
      · exact ih (h.2 c List.mem_cons_self) (by omega) e he
      · obtain ⟨c', hc', he⟩ := List.mem_flatMap.mp he
        exact ih (h.2 c' (List.mem_cons_of_mem c hc')) (Nat.le_refl _) e he

/-- Every value of a nest has a property. -/
def Nest.All (P : α → Prop) : (hs : List Hop) → Nest α hs → Prop
  | [], v => P v
  | _ :: hs, cs => ∀ c ∈ cs.list, Nest.All P hs c

/-- What follows from a property of the values holds of a nest of such values. -/
theorem Nest.All.imp {P Q : α → Prop} (hpq : ∀ v, P v → Q v) {hs : List Hop} {c : Nest α hs}
    (h : Nest.All P hs c) : Nest.All Q hs c := by
  induction hs with
  | nil => exact hpq c h
  | cons f hs ih => exact fun c' hc' => ih (h c' hc')

/-- The values of the entries are those of the nest, so that what holds of all of these holds of
all entries. -/
theorem Nest.All.stripe {P : α → Prop} {hs : List Hop} {r rmax d : Nat} {c : Nest α hs}
    (h : Nest.All P hs c) :
    ∀ e ∈ Striping.stripe hs r rmax d c, ∀ v, e.value = some v → P v := by
  induction hs generalizing r rmax d with
  | nil =>
    intro e he v hv
    rw [Striping.stripe, List.mem_singleton] at he
    subst he
    cases hv
    exact h
  | cons f hs ih =>
    cases c with
    | nil =>
      intro e he v hv
      rw [Striping.stripe, List.mem_singleton] at he
      subst he
      cases hv
    | cons c cs =>
      intro e he
      rw [Striping.stripe] at he
      rcases List.mem_append.mp he with he | he
      · exact ih (h c List.mem_cons_self) e he
      · obtain ⟨c', hc', he⟩ := List.mem_flatMap.mp he
        exact ih (h c' (List.mem_cons_of_mem c hc')) e he

/-! ### Other values -/

/-- The nest with a function applied to its values. -/
def Nest.map {β : Type} (f : α → β) : (hs : List Hop) → Nest α hs → Nest β hs
  | [], v => f v
  | _ :: hs, cs => List.map (Nest.map f hs) cs.list

/-- The entry with a function applied to its value. -/
def Entry.map {β : Type} (f : α → β) (e : Entry α) : Entry β := ⟨e.r, e.d, e.value.map f⟩

/-- The levels do not depend on the values: converting the values before or after makes no
difference. -/
theorem stripe_map {β : Type} (f : α → β) (hs : List Hop) (r rmax d : Nat) (c : Nest α hs) :
    stripe hs r rmax d (Nest.map f hs c) = (stripe hs r rmax d c).map (Entry.map f) := by
  induction hs generalizing r rmax d with
  | nil => rfl
  | cons h hs ih =>
    cases c with
    | nil => rfl
    | cons c cs =>
      show stripe hs r (rmax + h.rep) (d + h.opt) (Nest.map f hs c) ++
        (List.map (Nest.map f hs) cs).flatMap (stripe hs _ _ _) = _
      rw [stripe, List.map_append, ih, List.flatMap_map, List.map_flatMap]
      simp only [ih]

/-! ### Addresses -/

/-- What an entry says of the place it belongs to. -/
structure Cell (α : Type) where
  d : Nat
  value : Option α
  deriving DecidableEq, Repr

/-- The position of an occurrence is kept for a repeated field only. -/
def Hop.index (h : Hop) (j : Nat) (idx : List Nat) : List Nat :=
  if h.repeated then j :: idx else idx

/-- The cells of the occurrences of a field from the `j`-th on, with their
addresses. -/
def occurrences (h : Hop) : Nat → List (List (List Nat × Cell α)) → List (List Nat × Cell α)
  | _, [] => []
  | j, cells :: rest =>
    cells.map (fun x => (h.index j x.1, x.2)) ++ occurrences h (j + 1) rest

/-- The cells of a nest with their addresses, which are the positions of the
occurrences of the repeated fields they lie in. -/
def addressed : (hs : List Hop) → Nat → Nest α hs → List (List Nat × Cell α)
  | [], d, v => [([], ⟨d, some v⟩)]
  | h :: hs, d, [] => [(List.replicate (reps (h :: hs)) 0, ⟨d, none⟩)]
  | h :: hs, d, c :: cs =>
    occurrences h 0 ((c :: cs : List (Nest α hs)).map (addressed hs (d + h.opt)))

/-- The cells of a nest with occurrences and other values. -/
theorem addressed_map_cons {β : Type} (f : α → β) (h : Hop) (hs : List Hop) (d : Nat)
    (c : Nest α hs) (cs : List (Nest α hs)) :
    addressed (h :: hs) d (Nest.map f (h :: hs) (c :: cs : List (Nest α hs))) =
      occurrences h 0 ((c :: cs).map fun c' => addressed hs (d + h.opt) (Nest.map f hs c')) := by
  show occurrences h 0 (List.map _ (List.map _ (c :: cs))) = _
  rw [List.map_map]
  rfl

/-- No cell of a nest lies below the definition level of the nest. By induction on the hops. -/
theorem le_of_mem_addressed {hs : List Hop} :
    ∀ {d : Nat} {c : Nest α hs}, ∀ x ∈ addressed hs d c, d ≤ x.2.d := by
  induction hs with
  | nil =>
    intro d c x hx
    rw [addressed, List.mem_singleton] at hx
    exact hx ▸ Nat.le_refl d
  | cons h hs ih =>
    intro d c x hx
    cases c with
    | nil =>
      rw [addressed, List.mem_singleton] at hx
      exact hx ▸ Nat.le_refl d
    | cons c cs =>
      -- numbering the occurrences changes the addresses and not the cells
      have hblocks : ∀ (blocks : List (List (List Nat × Cell α))) (j : Nat),
          (∀ b ∈ blocks, ∀ x ∈ b, d ≤ x.2.d) → ∀ x ∈ occurrences h j blocks, d ≤ x.2.d := by
        intro blocks
        induction blocks with
        | nil => exact fun _ _ x hx => absurd hx List.not_mem_nil
        | cons b bs ihb =>
          intro j hall x hx
          rw [occurrences] at hx
          rcases List.mem_append.mp hx with hx | hx
          · obtain ⟨y, hy, rfl⟩ := List.mem_map.mp hx
            exact hall b List.mem_cons_self y hy
          · exact ihb (j + 1) (fun b' hb' => hall b' (List.mem_cons_of_mem b hb')) x hx
      refine hblocks _ 0 (fun b hb y hy => ?_) x hx
      obtain ⟨c', -, rfl⟩ := List.mem_map.mp hb
      exact Nat.le_trans (Nat.le_add_right d h.opt) (ih y hy)

/-- Occurrences have cells when the first one has. -/
theorem occurrences_ne_nil (h : Hop) (j : Nat) {cells : List (List Nat × Cell α)}
    (hcells : cells ≠ []) (rest : List (List (List Nat × Cell α))) :
    occurrences h j (cells :: rest) ≠ [] := by
  intro hnil
  rw [occurrences] at hnil
  exact hcells (List.map_eq_nil_iff.mp (List.append_eq_nil_iff.mp hnil).1)

/-- A nest has at least one cell, a null at the address of the field if there is nothing
else. -/
theorem addressed_ne_nil (hs : List Hop) (d : Nat) (c : Nest α hs) : addressed hs d c ≠ [] := by
  induction hs generalizing d with
  | nil => exact List.cons_ne_nil _ _
  | cons h hs ih =>
    cases c with
    | nil => exact List.cons_ne_nil _ _
    | cons c cs => exact occurrences_ne_nil h 0 (ih (d + h.opt) c) _

/-- A field that is not repeated occurs at most once, at every level. -/
def Single : (hs : List Hop) → Nest α hs → Prop
  | [], _ => True
  | h :: hs, cs => (h.repeated = false → cs.list.length ≤ 1) ∧ ∀ c ∈ cs.list, Single hs c

/-- Where no field that is not repeated occurs twice at all, none does above the first repeated
one. -/
theorem Single.startsOnce {hs : List Hop} {c : Nest α hs} (h : Single hs c) : StartsOnce hs c := by
  induction hs with
  | nil => trivial
  | cons f hs ih =>
    cases hrep : f.repeated with
    | true => exact Or.inl hrep
    | false => exact Or.inr ⟨h.1 hrep, fun c hc => ih (h.2 c hc)⟩

/-- Other values leave the occurrences as they are. By induction on the hops. -/
theorem Single.map {β : Type} (f : α → β) {hs : List Hop} {c : Nest α hs} (h : Single hs c) :
    Single hs (Nest.map f hs c) := by
  induction hs with
  | nil => trivial
  | cons hop hs ih =>
    refine ⟨fun hrep => ?_, fun c' hc' => ?_⟩
    · exact Nat.le_trans (Nat.le_of_eq (List.length_map (Nest.map f hs))) (h.1 hrep)
    · obtain ⟨c, hc, rfl⟩ := List.mem_map.mp hc'
      exact ih (h.2 c hc)

/-- Move the counters on: the counter of a level goes up by one, those of the
levels below start again. -/
def bump : Nat → List Nat → List Nat
  | 0, idx => idx
  | _ + 1, [] => []
  | 1, i :: idx => (i + 1) :: List.replicate idx.length 0
  | r + 2, i :: idx => i :: bump (r + 1) idx

/-- The counters that belong to the entries, from given ones on. -/
def scan : List Nat → List (Entry α) → List (List Nat × Cell α)
  | _, [] => []
  | idx, e :: es => (bump e.r idx, ⟨e.d, e.value⟩) :: scan (bump e.r idx) es

/-- The counters after the entries. -/
def finish : List Nat → List (Entry α) → List Nat
  | idx, [] => idx
  | idx, e :: es => finish (bump e.r idx) es

/-- Counting goes through two lists one after the other, the second with the counters the first
one left. -/
theorem scan_append (idx : List Nat) (xs ys : List (Entry α)) :
    scan idx (xs ++ ys) = scan idx xs ++ scan (finish idx xs) ys := by
  induction xs generalizing idx with
  | nil => rfl
  | cons x xs ih => rw [List.cons_append, scan, ih, scan, finish, List.cons_append]

/-- The counters after two lists are those the second leaves from those of the first. -/
theorem finish_append (idx : List Nat) (xs ys : List (Entry α)) :
    finish idx (xs ++ ys) = finish (finish idx xs) ys := by
  induction xs generalizing idx with
  | nil => rfl
  | cons x xs ih => rw [List.cons_append, finish, ih, finish]

/-- The counters above a level stay, the counter at the level goes up and those below it start
again at zero. -/
theorem bump_append (pre : List Nat) (i : Nat) (suf : List Nat) :
    bump (pre.length + 1) (pre ++ i :: suf) = pre ++ (i + 1) :: List.replicate suf.length 0 := by
  induction pre with
  | nil => rfl
  | cons p pre ih =>
    rw [List.length_cons, List.cons_append, bump, ih, List.cons_append]

/-- Counting does not change the number of counters. -/
theorem bump_length (r : Nat) (idx : List Nat) : (bump r idx).length = idx.length := by
  induction idx generalizing r with
  | nil => cases r <;> rfl
  | cons i idx ih =>
    match r with
    | 0 => rfl
    | 1 => simp [bump]
    | r + 2 => rw [bump, List.length_cons, ih, List.length_cons]

/-- What a scan of a nest gives: the addresses below `pre`, and counters that still
start with `pre`. -/
def Scans (pre idx : List Nat) (es : List (Entry α)) (n : Nat) (cells : List (List Nat × Cell α)) :
    Prop :=
  scan idx es = cells.map (fun x => (pre ++ x.1, x.2)) ∧
    ∃ suf, finish idx es = pre ++ suf ∧ suf.length = n

/-- The later occurrences of a repeated field, one after the other. Each raises the counter of
the field and leaves those above it alone. -/
theorem scans_occurrences {h : Hop} (hrep : h.repeated = true) {hs : List Hop} {d : Nat}
    {pre : List Nat} (ih : ∀ (j : Nat) (idx : List Nat) (c : Nest α hs), Single hs c →
      bump (pre.length + 1) idx = (pre ++ [j]) ++ List.replicate (reps hs) 0 →
      Scans (pre ++ [j]) idx (stripe hs (pre.length + 1) (pre.length + 1) d c) (reps hs)
        (addressed hs d c)) :
    ∀ (cs : List (Nest α hs)) (j : Nat) (suf : List Nat), suf.length = reps hs →
      (∀ c ∈ cs, Single hs c) →
      Scans pre (pre ++ j :: suf)
        (cs.flatMap (stripe hs (pre.length + 1) (pre.length + 1) d)) (1 + reps hs)
        (occurrences h (j + 1) (cs.map (addressed hs d))) := by
  intro cs
  induction cs with
  | nil =>
    intro j suf hsuf _
    refine ⟨rfl, j :: suf, rfl, ?_⟩
    rw [List.length_cons]
    omega
  | cons c cs ihcs =>
    intro j suf hsuf hsingle
    -- the next occurrence counts one level up and starts all deeper counters again
    have hbump : bump (pre.length + 1) (pre ++ j :: suf) =
        (pre ++ [j + 1]) ++ List.replicate (reps hs) 0 := by
      rw [bump_append, hsuf, List.append_assoc, List.singleton_append]
    obtain ⟨hscan, suf', hfinish, hlen⟩ := ih (j + 1) _ c (hsingle c List.mem_cons_self) hbump
    rw [List.append_assoc, List.singleton_append] at hfinish
    obtain ⟨hscan', suf'', hfinish', hlen'⟩ := ihcs (j + 1) suf' hlen fun c' hc' =>
      hsingle c' (List.mem_cons_of_mem c hc')
    refine ⟨?_, suf'', ?_, hlen'⟩
    · rw [List.flatMap_cons, scan_append, hfinish, hscan, hscan', List.map_cons, occurrences,
        List.map_append, List.map_map]
      congr 1
      apply List.map_congr_left
      intro x _
      simp [Hop.index, hrep]
    · rw [List.flatMap_cons, finish_append, hfinish, hfinish']

/-- Counting the repetition levels of a nest gives back the addresses. The first
entry sets the counters to `pre` followed by zeros. -/
theorem scan_stripe {hs : List Hop} :
    ∀ {pre idx : List Nat} {r d : Nat} {c : Nest α hs}, Single hs c →
      bump r idx = pre ++ List.replicate (reps hs) 0 →
      Scans pre idx (stripe hs r pre.length d c) (reps hs) (addressed hs d c) := by
  induction hs with
  | nil =>
    intro pre idx r d c _ hbump
    rw [reps, List.replicate_zero] at hbump
    refine ⟨?_, [], hbump, rfl⟩
    rw [stripe, scan, scan, hbump, addressed, List.map_singleton]
  | cons h hs ih =>
    intro pre idx r d c hsingle hbump
    cases c with
    | nil =>
      refine ⟨?_, List.replicate (reps (h :: hs)) 0, hbump, List.length_replicate⟩
      rw [stripe, scan, scan, hbump, addressed, List.map_singleton]
    | cons c cs =>
      have hc := hsingle.2 c List.mem_cons_self
      cases hrep : h.repeated with
      | false =>
        -- a field that is not repeated has one occurrence and no counter
        have hnil : cs = [] := List.eq_nil_of_length_eq_zero
          (Nat.le_zero.mp (Nat.le_of_succ_le_succ (hsingle.1 hrep)))
        have hzero : h.rep = 0 := by simp [Hop.rep, hrep]
        subst hnil
        rw [reps, hzero, Nat.zero_add] at hbump ⊢
        obtain ⟨hscan, hfinish⟩ := ih (d := d + h.opt) hc hbump
        refine ⟨?_, ?_⟩
        · rw [stripe, hzero, Nat.add_zero, List.flatMap_nil, List.append_nil, hscan, addressed,
            List.map_singleton, occurrences, occurrences, List.append_nil, List.map_map]
          apply List.map_congr_left
          intro x _
          simp [Hop.index, hrep]
        · rw [stripe, hzero, Nat.add_zero, List.flatMap_nil, List.append_nil]
          exact hfinish
      | true =>
        have hone : h.rep = 1 := by simp [Hop.rep, hrep]
        have hlen : ∀ j : Nat, (pre ++ [j]).length = pre.length + 1 := fun j => by simp
        have hfirst : bump r idx = (pre ++ [0]) ++ List.replicate (reps hs) 0 := by
          rw [hbump, reps, hone, List.append_assoc, Nat.add_comm 1, List.replicate_succ,
            List.singleton_append]
        obtain ⟨hscan, suf, hfinish, hsuf⟩ := ih (d := d + h.opt) hc hfirst
        rw [hlen] at hscan hfinish
        rw [List.append_assoc, List.singleton_append] at hfinish
        have hstep : ∀ (j : Nat) (idx : List Nat) (c : Nest α hs), Single hs c →
            bump (pre.length + 1) idx = (pre ++ [j]) ++ List.replicate (reps hs) 0 →
            Scans (pre ++ [j]) idx (stripe hs (pre.length + 1) (pre.length + 1) (d + h.opt) c)
              (reps hs) (addressed hs (d + h.opt) c) := by
          intro j idx c hc hidx
          have hscans := ih (d := d + h.opt) hc hidx
          rwa [hlen] at hscans
        obtain ⟨hscan', suf', hfinish', hsuf'⟩ := scans_occurrences hrep hstep cs 0 suf hsuf
          fun c' hc' => hsingle.2 c' (List.mem_cons_of_mem c hc')
        refine ⟨?_, suf', ?_, by rw [hsuf', reps, hone]⟩
        · rw [stripe, hone, scan_append, hfinish, hscan, hscan', addressed, List.map_cons,
            occurrences, List.map_append, List.map_map]
          congr 1
          apply List.map_congr_left
          intro x _
          simp [Hop.index, hrep]
        · rw [stripe, hone, finish_append, hfinish, hfinish']

end CStable.Support.Striping
