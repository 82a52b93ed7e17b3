import CStable.Support.Wire

/-!
# `CStable.Support.BitPack`: packing integers into words

`packLane w b` packs values of `b` bits one after the other into words of `w`
bits by shifting and or-ing, without masking the values first; a value that
crosses a word boundary is split. `unpackLane w b` reads them back.
`unpackLane_packLane` is the round trip for values below `2 ^ b`.

A vector unit does this for four streams at once: `lanes` deals a list out to
four lanes and `interleave` collects them again.
-/

set_option autoImplicit false

namespace CStable.Support

/-! ### One lane -/

/-- Pack values into words. `acc` is the current word, of which the low `shift`
bits are taken. A word that is full is put out; what did not fit starts the
next one. -/
def packLane (w b : Nat) : Nat → Nat → List Nat → List Nat
  | _, _, [] => []
  | shift, acc, v :: vs =>
    let acc := acc ||| (v <<< shift) % 2 ^ w
    if shift + b < w then packLane w b (shift + b) acc vs
    else if shift + b = w then acc :: packLane w b 0 0 vs
    else acc :: packLane w b (shift + b - w) (v >>> (w - shift)) vs

/-- Read `n` values from words, the first at bit `shift` of the first word. -/
def unpackLane (w b : Nat) : Nat → Nat → List Nat → List Nat
  | 0, _, _ => []
  | n + 1, shift, words =>
    let inReg := words.headD 0
    if shift + b < w then
      ((inReg >>> shift) &&& (2 ^ b - 1)) :: unpackLane w b n (shift + b) words
    else if shift + b = w then
      (inReg >>> shift) :: unpackLane w b n 0 words.tail
    else
      let next := words.tail.headD 0
      ((inReg >>> shift) ||| ((next <<< (w - shift)) % 2 ^ w &&& (2 ^ b - 1))) ::
        unpackLane w b n (shift + b - w) words.tail

variable {w b : Nat}

/-- Or-ing in a value that is shifted above the accumulator adds it: no bit is in both. From
here on the packing is arithmetic. -/
theorem or_shiftLeft_eq_add {acc v shift : Nat} (hacc : acc < 2 ^ shift) :
    acc ||| v <<< shift = acc + v * 2 ^ shift := by
  rw [Nat.shiftLeft_eq, Nat.or_comm, Nat.mul_comm v, ← Nat.two_pow_add_eq_or_of_lt hacc v,
    Nat.add_comm]

/-- Or-ing a value in above the bits taken, cut off at the word size. The part that is cut off
goes to the next word. -/
theorem or_shiftLeft_mod {acc v shift : Nat} (hacc : acc < 2 ^ shift) (hshift : shift ≤ w) :
    acc ||| (v <<< shift) % 2 ^ w = acc + v % 2 ^ (w - shift) * 2 ^ shift := by
  have hpow : 2 ^ w = 2 ^ shift * 2 ^ (w - shift) := by
    rw [← pow_add]
    congr 1
    omega
  rw [Nat.shiftLeft_eq, Nat.mul_comm v, hpow, Nat.mul_mod_mul_left, Nat.mul_comm (2 ^ shift),
    ← Nat.shiftLeft_eq, or_shiftLeft_eq_add hacc, Nat.shiftLeft_eq]

/-- Every word put out fits in the word size, so that its bytes are those of a `uint32_t`. By
induction on the values. -/
theorem packLane_lt {shift acc : Nat} {vs : List Nat} (hacc : acc < 2 ^ w)
    (hvs : ∀ v ∈ vs, v < 2 ^ w) : ∀ x ∈ packLane w b shift acc vs, x < 2 ^ w := by
  induction vs generalizing shift acc with
  | nil =>
    intro x hx
    cases hx
  | cons v vs ih =>
    have hacc' : acc ||| (v <<< shift) % 2 ^ w < 2 ^ w :=
      Nat.or_lt_two_pow hacc (Nat.mod_lt _ (Nat.two_pow_pos w))
    have hv : v < 2 ^ w := hvs v List.mem_cons_self
    have hrest : ∀ u ∈ vs, u < 2 ^ w := fun u hu => hvs u (List.mem_cons_of_mem v hu)
    have hcarry : v >>> (w - shift) < 2 ^ w :=
      Nat.lt_of_le_of_lt (Nat.shiftRight_le v (w - shift)) hv
    unfold packLane
    intro x hx
    -- the word goes on, ends with the value, or leaves a rest of it to the next
    split_ifs at hx with h1 h2
    · exact ih hacc' hrest x hx
    · rcases List.mem_cons.mp hx with rfl | hx
      · exact hacc'
      · exact ih (Nat.two_pow_pos w) hrest x hx
    · rcases List.mem_cons.mp hx with rfl | hx
      · exact hacc'
      · exact ih hcarry hrest x hx

/-- The number of words put out: one for every word the bits fill. What is left in the
accumulator is not put out. -/
theorem length_packLane {shift acc : Nat} {vs : List Nat} (hshift : shift < w) (hb : b ≤ w) :
    (packLane w b shift acc vs).length = (shift + b * vs.length) / w := by
  induction vs generalizing shift acc with
  | nil =>
    show 0 = (shift + b * 0) / w
    rw [Nat.mul_zero, Nat.add_zero, Nat.div_eq_of_lt hshift]
  | cons v vs ih =>
    have hlen : shift + b * (v :: vs).length = shift + b + b * vs.length := by
      rw [List.length_cons]
      ring
    rw [hlen]
    unfold packLane
    split_ifs with h1 h2
    · exact ih h1
    · rw [List.length_cons, ih (by omega), h2, Nat.add_comm w, Nat.add_div_right _ (by omega),
        Nat.zero_add]
    · rw [List.length_cons, ih (by omega)]
      have hsplit : shift + b + b * vs.length = (shift + b - w + b * vs.length) + w := by omega
      rw [hsplit, Nat.add_div_right _ (by omega)]

/-- The value just or-ed in stays within the bits it takes. -/
theorem acc_lt {acc v shift : Nat} (hacc : acc < 2 ^ shift) (hv : v < 2 ^ b) :
    acc + v * 2 ^ shift < 2 ^ (shift + b) := by
  have hle : (v + 1) * 2 ^ shift ≤ 2 ^ b * 2 ^ shift := Nat.mul_le_mul_right _ hv
  have hpow : 2 ^ (shift + b) = 2 ^ b * 2 ^ shift := by rw [Nat.add_comm, pow_add]
  have hexp : (v + 1) * 2 ^ shift = v * 2 ^ shift + 2 ^ shift := by ring
  omega

/-- The part of a value that crosses the word boundary has no more bits than the rest of its
width. -/
theorem carry_lt {v shift : Nat} (hv : v < 2 ^ b) (hshift : shift ≤ w) (hcross : w ≤ shift + b) :
    v >>> (w - shift) < 2 ^ (shift + b - w) := by
  rw [Nat.shiftRight_eq_div_pow]
  apply Nat.div_lt_of_lt_mul
  rw [← pow_add]
  rwa [show w - shift + (shift + b - w) = b by omega]

/-- The bits taken before the first value stay in the first word, which is what lets a word be
filled by several values. -/
theorem headD_packLane_mod {shift acc : Nat} {vs : List Nat} (hacc : acc < 2 ^ shift)
    (hshift : shift < w) (hvs : ∀ v ∈ vs, v < 2 ^ b) (hfull : w ≤ shift + b * vs.length) :
    (packLane w b shift acc vs).headD 0 % 2 ^ shift = acc := by
  induction vs generalizing shift acc with
  | nil =>
    rw [List.length_nil] at hfull
    omega
  | cons v vs ih =>
    have hv : v < 2 ^ b := hvs v List.mem_cons_self
    have hor := or_shiftLeft_mod (v := v) hacc (Nat.le_of_lt hshift)
    have hlow : ∀ x, (acc + x * 2 ^ shift) % 2 ^ shift = acc := fun x => by
      rw [Nat.add_mul_mod_self_right, Nat.mod_eq_of_lt hacc]
    have hlen : b * (v :: vs).length = b + b * vs.length := by
      rw [List.length_cons]
      ring
    unfold packLane
    rw [hor]
    split_ifs with h1 h2
    · -- the word is not full yet: its bits below `shift + b` are already fixed
      have hvw : v % 2 ^ (w - shift) = v :=
        Nat.mod_eq_of_lt (lt_of_lt_of_le hv (Nat.pow_le_pow_right (by norm_num) (by omega)))
      have hrec := ih (acc_lt hacc hv) h1 (fun u hu => hvs u (List.mem_cons_of_mem v hu))
        (by omega)
      have hdvd : 2 ^ shift ∣ 2 ^ (shift + b) := pow_dvd_pow 2 (Nat.le_add_right shift b)
      rw [hvw, ← Nat.mod_mod_of_dvd _ hdvd, hrec, hlow]
    · exact hlow _
    · exact hlow _

/-- Values of `b` bits that fill the words exactly are read back. By induction on the values,
with the bits taken so far. -/
theorem unpackLane_packLane {shift acc : Nat} {vs : List Nat} (hb0 : 0 < b) (hb : b ≤ w)
    (hacc : acc < 2 ^ shift) (hshift : shift < w) (hvs : ∀ v ∈ vs, v < 2 ^ b)
    (hfull : (shift + b * vs.length) % w = 0) :
    unpackLane w b vs.length shift (packLane w b shift acc vs) = vs := by
  induction vs generalizing shift acc with
  | nil => rfl
  | cons v vs ih =>
    have hv : v < 2 ^ b := hvs v List.mem_cons_self
    have hrest : ∀ u ∈ vs, u < 2 ^ b := fun u hu => hvs u (List.mem_cons_of_mem v hu)
    have hlen : shift + b * (v :: vs).length = shift + b + b * vs.length := by
      rw [List.length_cons]
      ring
    rw [hlen] at hfull
    have hor := or_shiftLeft_mod (v := v) hacc (Nat.le_of_lt hshift)
    have hshr : ∀ x, (acc + x * 2 ^ shift) >>> shift = x := fun x => by
      rw [Nat.shiftRight_eq_div_pow, Nat.add_mul_div_right _ _ (Nat.two_pow_pos shift),
        Nat.div_eq_of_lt hacc, Nat.zero_add]
    rw [List.length_cons]
    unfold packLane unpackLane
    rw [hor]
    by_cases h1 : shift + b < w
    · -- the value lies inside the word, of which more is still to come
      have hvw : v % 2 ^ (w - shift) = v :=
        Nat.mod_eq_of_lt (lt_of_lt_of_le hv (Nat.pow_le_pow_right (by norm_num) (by omega)))
      have hmore : w ≤ shift + b + b * vs.length :=
        Nat.le_of_dvd (by omega) (Nat.dvd_of_mod_eq_zero hfull)
      have hhead := headD_packLane_mod (acc_lt hacc hv) h1 hrest hmore
      simp only [if_pos h1]
      rw [hvw, ih (acc_lt hacc hv) h1 hrest hfull]
      congr 1
      rw [Nat.and_two_pow_sub_one_eq_mod, Nat.shiftRight_eq_div_pow, ← Nat.mod_mul_right_div_self,
        ← pow_add, hhead, ← Nat.shiftRight_eq_div_pow, hshr]
    · simp only [if_neg h1]
      by_cases h2 : shift + b = w
      · -- the value ends with the word
        have hvw : v % 2 ^ (w - shift) = v := by
          rw [show w - shift = b by omega, Nat.mod_eq_of_lt hv]
        have hnext : (0 + b * vs.length) % w = 0 := by
          rwa [h2, Nat.add_mod_left, ← Nat.zero_add (b * vs.length)] at hfull
        simp only [if_pos h2]
        rw [List.headD_cons, List.tail_cons, hvw, hshr,
          ih (Nat.two_pow_pos 0) (by omega) hrest hnext]
      · -- the value is split between this word and the next
        have hcarry := carry_lt (w := w) hv (Nat.le_of_lt hshift) (by omega)
        have hnext : (shift + b - w + b * vs.length) % w = 0 := by
          have hsplit : shift + b + b * vs.length = shift + b - w + b * vs.length + w := by omega
          rwa [hsplit, Nat.add_mod_right] at hfull
        have hmore : w ≤ shift + b - w + b * vs.length :=
          Nat.le_of_dvd (by omega) (Nat.dvd_of_mod_eq_zero hnext)
        have hhead := headD_packLane_mod hcarry (by omega) hrest hmore
        simp only [if_neg h2]
        rw [List.headD_cons, List.tail_cons, hshr, ih hcarry (by omega) hrest hnext]
        congr 1
        generalize (packLane w b (shift + b - w) (v >>> (w - shift)) vs).headD 0 = next at hhead
        have hdvd : 2 ^ b ∣ 2 ^ w := pow_dvd_pow 2 hb
        have hbits : 2 ^ b = 2 ^ (shift + b - w) * 2 ^ (w - shift) := by
          rw [← pow_add]
          congr 1
          omega
        rw [Nat.and_two_pow_sub_one_eq_mod, Nat.mod_mod_of_dvd _ hdvd, Nat.shiftLeft_eq, hbits,
          Nat.mul_mod_mul_right, hhead, ← Nat.shiftLeft_eq,
          or_shiftLeft_eq_add (Nat.mod_lt _ (Nat.two_pow_pos _)), Nat.shiftRight_eq_div_pow,
          Nat.mul_comm]
        exact Nat.mod_add_div v _

/-- Whatever words are read, the values have `b` bits: the mask of the unpacking sees to it. By
induction on the number of values. -/
theorem unpackLane_lt {n shift : Nat} {words : List Nat}
    (hwords : ∀ x ∈ words, x < 2 ^ w) : ∀ v ∈ unpackLane w b n shift words, v < 2 ^ b := by
  induction n generalizing shift words with
  | zero =>
    intro v hv
    cases hv
  | succ n ih =>
    have hhead : words.headD 0 < 2 ^ w := by
      cases words with
      | nil => exact Nat.two_pow_pos w
      | cons x xs => exact hwords x List.mem_cons_self
    have htail : ∀ x ∈ words.tail, x < 2 ^ w := fun x hx => hwords x (List.mem_of_mem_tail hx)
    have hmask : ∀ x : Nat, x &&& (2 ^ b - 1) < 2 ^ b := by
      intro x
      rw [Nat.and_two_pow_sub_one_eq_mod]
      exact Nat.mod_lt _ (Nat.two_pow_pos b)
    -- without a mask it is the end of the word that cuts the value off
    have hshift : w ≤ shift + b → words.headD 0 >>> shift < 2 ^ b := by
      intro hle
      rw [Nat.shiftRight_eq_div_pow]
      apply Nat.div_lt_of_lt_mul
      rw [← pow_add]
      exact lt_of_lt_of_le hhead (Nat.pow_le_pow_right (by norm_num) hle)
    intro v hv
    unfold unpackLane at hv
    dsimp only at hv
    split_ifs at hv with h1 h2
    · rcases List.mem_cons.mp hv with rfl | hv
      · exact hmask _
      · exact ih hwords v hv
    · rcases List.mem_cons.mp hv with rfl | hv
      · exact hshift (by omega)
      · exact ih htail v hv
    · rcases List.mem_cons.mp hv with rfl | hv
      · exact Nat.or_lt_two_pow (hshift (by omega)) (hmask _)
      · exact ih htail v hv

/-! ### Four lanes -/

variable {α : Type}

/-- Deal a list out to four lanes; up to three values at the end are left. -/
def lanes : List α → List α × List α × List α × List α
  | a :: b :: c :: d :: rest =>
    let (as, bs, cs, ds) := lanes rest
    (a :: as, b :: bs, c :: cs, d :: ds)
  | _ => ([], [], [], [])

/-- Collect four lanes, one value from each in turn. -/
def interleave : List α → List α → List α → List α → List α
  | a :: as, b :: bs, c :: cs, d :: ds => a :: b :: c :: d :: interleave as bs cs ds
  | _, _, _, _ => []

/-- Dealing out what was collected from lanes of one length gives the lanes back. By induction
on the lanes, four at once. -/
theorem lanes_interleave {as bs cs ds : List α} (hb : bs.length = as.length)
    (hc : cs.length = as.length) (hd : ds.length = as.length) :
    lanes (interleave as bs cs ds) = (as, bs, cs, ds) := by
  induction as generalizing bs cs ds with
  | nil =>
    rw [List.length_nil] at hb hc hd
    rw [List.eq_nil_of_length_eq_zero hb, List.eq_nil_of_length_eq_zero hc,
      List.eq_nil_of_length_eq_zero hd]
    rfl
  | cons a as ih =>
    cases bs with
    | nil => cases hb
    | cons b bs =>
    cases cs with
    | nil => cases hc
    | cons c cs =>
    cases ds with
    | nil => cases hd
    | cons d ds =>
      rw [List.length_cons, List.length_cons, Nat.add_right_cancel_iff] at hb hc hd
      rw [interleave, lanes, ih hb hc hd]

/-- Collecting what was dealt out from a list of full rounds gives the list back. By induction
on the rounds. -/
theorem interleave_lanes {n : Nat} {xs : List α} (h : xs.length = 4 * n) :
    interleave (lanes xs).1 (lanes xs).2.1 (lanes xs).2.2.1 (lanes xs).2.2.2 = xs := by
  induction n generalizing xs with
  | zero =>
    rw [List.eq_nil_of_length_eq_zero h]
    rfl
  | succ n ih =>
    match xs, h with
    | a :: b :: c :: d :: rest, h =>
      have hrest : rest.length = 4 * n := by
        simp only [List.length_cons] at h
        omega
      have hrec := ih hrest
      simp only [lanes, interleave]
      rw [hrec]

/-- The four lanes of a list of full rounds have a quarter of its length and
hold its values. -/
theorem lanes_spec {n : Nat} {xs : List α} (h : xs.length = 4 * n) :
    ((lanes xs).1.length = n ∧ (lanes xs).2.1.length = n ∧ (lanes xs).2.2.1.length = n ∧
        (lanes xs).2.2.2.length = n) ∧
      (∀ x ∈ (lanes xs).1, x ∈ xs) ∧ (∀ x ∈ (lanes xs).2.1, x ∈ xs) ∧
      (∀ x ∈ (lanes xs).2.2.1, x ∈ xs) ∧ (∀ x ∈ (lanes xs).2.2.2, x ∈ xs) := by
  induction n generalizing xs with
  | zero =>
    rw [List.eq_nil_of_length_eq_zero h]
    simp [lanes]
  | succ n ih =>
    -- four values at a time, one for each lane
    match xs, h with
    | a :: b :: c :: d :: rest, h =>
      have hrest : rest.length = 4 * n := by
        simp only [List.length_cons] at h
        omega
      obtain ⟨⟨h1, h2, h3, h4⟩, m1, m2, m3, m4⟩ := ih hrest
      have hcons : ∀ {y : α} {l : List α}, y ∈ [a, b, c, d] → (∀ x ∈ l, x ∈ rest) →
          ∀ x ∈ y :: l, x ∈ [a, b, c, d] ++ rest := by
        intro y l hy hl x hx
        rcases List.mem_cons.mp hx with rfl | hx
        · exact List.mem_append_left rest hy
        · exact List.mem_append_right _ (hl x hx)
      refine ⟨⟨congrArg (· + 1) h1, congrArg (· + 1) h2, congrArg (· + 1) h3,
        congrArg (· + 1) h4⟩, hcons ?_ m1, hcons ?_ m2, hcons ?_ m3, hcons ?_ m4⟩ <;> simp

/-- Every value collected comes from one of the lanes. -/
theorem mem_interleave {as bs cs ds : List α} {x : α} (h : x ∈ interleave as bs cs ds) :
    x ∈ as ∨ x ∈ bs ∨ x ∈ cs ∨ x ∈ ds := by
  induction as generalizing bs cs ds with
  | nil => cases bs <;> cases cs <;> cases ds <;> cases h
  | cons a as ih =>
    cases bs with
    | nil => cases h
    | cons b bs =>
    cases cs with
    | nil => cases h
    | cons c cs =>
    cases ds with
    | nil => cases h
    | cons d ds =>
      simp only [interleave, List.mem_cons] at h ⊢
      rcases h with h | h | h | h | h
      · exact Or.inl (Or.inl h)
      · exact Or.inr (Or.inl (Or.inl h))
      · exact Or.inr (Or.inr (Or.inl (Or.inl h)))
      · exact Or.inr (Or.inr (Or.inr (Or.inl h)))
      · rcases ih h with h | h | h | h
        · exact Or.inl (Or.inr h)
        · exact Or.inr (Or.inl (Or.inr h))
        · exact Or.inr (Or.inr (Or.inl (Or.inr h)))
        · exact Or.inr (Or.inr (Or.inr (Or.inr h)))

/-- Four lanes of one length make four times as many values. -/
theorem length_interleave {as bs cs ds : List α} (hb : bs.length = as.length)
    (hc : cs.length = as.length) (hd : ds.length = as.length) :
    (interleave as bs cs ds).length = 4 * as.length := by
  induction as generalizing bs cs ds with
  | nil => cases bs <;> cases cs <;> cases ds <;> simp_all [interleave]
  | cons a as ih =>
    cases bs with
    | nil => cases hb
    | cons b bs =>
    cases cs with
    | nil => cases hc
    | cons c cs =>
    cases ds with
    | nil => cases hd
    | cons d ds =>
      rw [List.length_cons, List.length_cons, Nat.add_right_cancel_iff] at hb hc hd
      simp only [interleave, List.length_cons, ih hb hc hd]
      omega

/-! ### Words as bytes -/

/-- The numbers of a byte list, `w` bytes each. -/
def leWords (w : Nat) : Nat → List UInt8 → List Nat
  | 0, _ => []
  | n + 1, bs => leNat (bs.take w) :: leWords w n (bs.drop w)

/-- Words that fit in `w` bytes are read back from their bytes. By induction on the words. -/
theorem leWords_flatMap {w : Nat} {xs : List Nat} (h : ∀ x ∈ xs, x < 256 ^ w) :
    leWords w xs.length (xs.flatMap (leBytes w)) = xs := by
  induction xs with
  | nil => rfl
  | cons x xs ih =>
    have hx : x < 256 ^ w := h x List.mem_cons_self
    have hlen : (leBytes w x).length = w := leBytes_length w x
    rw [List.length_cons, leWords, List.flatMap_cons, List.take_left' hlen, List.drop_left' hlen,
      leNat_leBytes_of_lt hx, ih fun y hy => h y (List.mem_cons_of_mem x hy)]

/-- A word of `w` bytes is below the range of the width. -/
theorem leWords_lt {w n : Nat} {bs : List UInt8} : ∀ x ∈ leWords w n bs, x < 256 ^ w := by
  induction n generalizing bs with
  | zero =>
    intro x hx
    cases hx
  | succ n ih =>
    intro x hx
    rcases List.mem_cons.mp hx with rfl | hx
    · refine lt_of_lt_of_le (leNat_lt _) (Nat.pow_le_pow_right (by norm_num) ?_)
      exact List.length_take_le w bs
    · exact ih x hx

/-- What holds of every value holds of those dealt out to a lane. -/
theorem lanes_forall {P : Nat → Prop} : ∀ {xs : List Nat}, (∀ x ∈ xs, P x) →
    (∀ x ∈ (lanes xs).1, P x) ∧ (∀ x ∈ (lanes xs).2.1, P x) ∧ (∀ x ∈ (lanes xs).2.2.1, P x) ∧
      ∀ x ∈ (lanes xs).2.2.2, P x
  | [], _ => by simp [lanes]
  | [_], _ => by simp [lanes]
  | [_, _], _ => by simp [lanes]
  | [_, _, _], _ => by simp [lanes]
  | a :: b :: c :: d :: rest, h => by
    simp only [List.forall_mem_cons] at h
    obtain ⟨ha, hb, hc, hd, hrest⟩ := h
    have hrec := lanes_forall hrest
    simp only [lanes, List.forall_mem_cons]
    exact ⟨⟨ha, hrec.1⟩, ⟨hb, hrec.2.1⟩, ⟨hc, hrec.2.2.1⟩, hd, hrec.2.2.2⟩

/-- A list of words takes the width of each. -/
theorem length_flatMap_leBytes (w : Nat) (xs : List Nat) :
    (xs.flatMap (leBytes w)).length = w * xs.length := by
  induction xs with
  | nil => rfl
  | cons x xs ih =>
    rw [List.flatMap_cons, List.length_append, leBytes_length, ih, List.length_cons]
    ring

end CStable.Support
