import Mathlib.Data.List.Basic

/-!
# `CStable.Support.Parser`: rules for parsers over a token list

A parser takes the tokens that are left and returns a value with the tokens
after it, or an error. `Parses p ts a` says that `p` reads exactly the tokens
`ts`, whatever follows them, and returns `a`. The rules below build such facts
along the structure of a parser:

* `Parses.pure`, `Parses.bind`, `Parses.map`: the monad operations.
* `Parses.repeatN`: a loop that reads one item after the other.

What a parser does on input that was cut off has rules of the same form:

* `FailsShort`: it fails on every proper prefix of the tokens.
* `Strict`: it reads exactly the tokens and fails short.
* `Lenient`: it reads exactly the tokens, and takes what there is when they were
  cut off. What comes after it has to fail on no input at all.
-/

set_option autoImplicit false

namespace CStable.Support

/-- A function from the tokens left to a value and the tokens after it. -/
abbrev Parser (τ ε α : Type) := StateT (List τ) (Except ε) α

namespace Parser

variable {τ ε α β : Type}

/-- `p` consumes exactly `ts` and returns `a`, whatever comes after. -/
def Parses (p : Parser τ ε α) (ts : List τ) (a : α) : Prop :=
  ∀ rest, p (ts ++ rest) = .ok (a, rest)

/-- Running a sequence of two parsers: the second gets the tokens the first has left. -/
theorem run_bind (p : Parser τ ε α) (f : α → Parser τ ε β) (ts : List τ) :
    (p >>= f) ts =
      match p ts with
      | .ok (a, rest) => f a rest
      | .error e => .error e := by
  show (p ts >>= fun x => f x.1 x.2) = _
  rcases p ts with e | ⟨a, rest⟩ <;> rfl

/-- A sequence succeeds exactly when both parsers do, one after the other. Applied again and
again it takes a reading apart into its fields. -/
theorem run_bind_eq_ok {p : Parser τ ε α} {f : α → Parser τ ε β} {ts rest : List τ} {b : β} :
    (p >>= f) ts = .ok (b, rest) ↔
      ∃ a ts', p ts = .ok (a, ts') ∧ f a ts' = .ok (b, rest) := by
  rw [run_bind]
  rcases hp : p ts with e | ⟨a, ts'⟩
  · constructor
    · intro h
      cases h
    · rintro ⟨a, ts', h, -⟩
      cases h
  · constructor
    · intro h
      exact ⟨a, ts', rfl, h⟩
    · rintro ⟨a', ts'', h, hf⟩
      cases h
      exact hf

/-- Returning a value reads no tokens. -/
theorem Parses.pure (a : α) : Parses (pure a : Parser τ ε α) [] a :=
  fun _ => rfl

/-- What two parsers read one after the other is what they read in sequence. The second may
depend on the value of the first, as a string does on its length. -/
theorem Parses.bind {p : Parser τ ε α} {f : α → Parser τ ε β} {ts us : List τ}
    {a : α} {b : β} (hp : Parses p ts a) (hf : Parses (f a) us b) :
    Parses (p >>= f) (ts ++ us) b := by
  intro rest
  rw [run_bind, List.append_assoc, hp]
  exact hf rest

/-- The last parser of a sequence may read nothing, and then the tokens are those of the
first. -/
theorem Parses.bind_nil {p : Parser τ ε α} {f : α → Parser τ ε β} {ts : List τ} {a : α} {b : β}
    (hp : Parses p ts a) (hf : Parses (f a) [] b) : Parses (p >>= f) ts b := by
  have h := hp.bind hf
  rwa [List.append_nil] at h

/-- A parser that ends with a computation on what it read, as one does that puts its fields into
a record. -/
theorem Parses.bind_pure {p : Parser τ ε α} {ts : List τ} {a : α} {g : α → β} {b : β}
    (hp : Parses p ts a) (hb : g a = b) : Parses (p >>= fun x => Pure.pure (g x)) ts b :=
  hp.bind_nil (hb ▸ Parses.pure (g a))

/-- A function of the value changes nothing about the tokens. -/
theorem Parses.map {p : Parser τ ε α} {ts : List τ} {a : α} (g : α → β)
    (hp : Parses p ts a) : Parses (g <$> p) ts (g a) :=
  hp.bind_pure rfl

/-- A computation that reads nothing and returns, such as a check that passes. -/
theorem Parses.lift {r : Except ε α} {a : α} (h : r = .ok a) :
    Parses (liftM r : Parser τ ε α) [] a := by
  intro rest
  rw [h]
  rfl

/-- Read `n` items with the same parser. -/
def repeatN (p : Parser τ ε α) : Nat → Parser τ ε (List α)
  | 0 => pure []
  | n + 1 => do
    let a ← p
    let as ← repeatN p n
    pure (a :: as)

/-- A loop reads the items in order when each item's tokens are read as it. By induction on the
items; the length of the list is the count of the loop. -/
theorem Parses.repeatN {p : Parser τ ε α} {enc : β → List τ} (val : β → α) (xs : List β)
    (h : ∀ x ∈ xs, Parses p (enc x) (val x)) :
    Parses (repeatN p xs.length) (xs.flatMap enc) (xs.map val) := by
  induction xs with
  | nil => exact Parses.pure []
  | cons x xs ih =>
    have hx := h x List.mem_cons_self
    have hxs := ih fun y hy => h y (List.mem_cons_of_mem x hy)
    exact hx.bind (hxs.bind_pure rfl)

/-- A loop returns as many items as asked for, each of them one the item parser
can return. -/
theorem repeatN_spec {p : Parser τ ε α} {P : α → Prop}
    (hp : ∀ ts a rest, p ts = .ok (a, rest) → P a) {n : Nat} {ts rest : List τ} {as : List α}
    (h : repeatN p n ts = .ok (as, rest)) : as.length = n ∧ ∀ a ∈ as, P a := by
  induction n generalizing ts as with
  | zero =>
    cases h
    exact ⟨rfl, fun a ha => absurd ha List.not_mem_nil⟩
  | succ n ih =>
    obtain ⟨a, ts₁, ha, h⟩ := run_bind_eq_ok.mp h
    obtain ⟨as', ts₂, has, hret⟩ := run_bind_eq_ok.mp h
    cases hret
    obtain ⟨hlen, hall⟩ := ih has
    refine ⟨by rw [List.length_cons, hlen], fun x hx => ?_⟩
    rcases List.mem_cons.mp hx with rfl | hmem
    · exact hp _ _ _ ha
    · exact hall x hmem

/-- A loop over a parser that returns `val b` on the tokens `enc b` only, for some `b`,
returns the values of such items on their tokens only. -/
theorem repeatN_reads {p : Parser τ ε α} {enc : β → List τ} {val : β → α}
    (hp : ∀ ts a rest, p ts = .ok (a, rest) → ∃ b, ts = enc b ++ rest ∧ val b = a) {n : Nat}
    {ts rest : List τ} {as : List α} (h : repeatN p n ts = .ok (as, rest)) :
    ∃ bs : List β, bs.length = n ∧ ts = bs.flatMap enc ++ rest ∧ bs.map val = as := by
  induction n generalizing ts as with
  | zero =>
    cases h
    exact ⟨[], rfl, rfl, rfl⟩
  | succ n ih =>
    obtain ⟨a, ts₁, ha, h⟩ := run_bind_eq_ok.mp h
    obtain ⟨as', ts₂, has, hret⟩ := run_bind_eq_ok.mp h
    cases hret
    obtain ⟨b, rfl, rfl⟩ := hp _ _ _ ha
    obtain ⟨bs, rfl, rfl, rfl⟩ := ih has
    exact ⟨b :: bs, rfl, by rw [List.flatMap_cons, List.append_assoc], rfl⟩

/-- Read items back to back up to the end of the input. An item is at least one
token long, so `fuel` needs to be no more than the number of tokens. -/
def readAll (p : Parser τ ε α) (stuck : ε) : Nat → List τ → Except ε (List α)
  | _, [] => .ok []
  | 0, _ :: _ => .error stuck
  | fuel + 1, t :: ts =>
    match p (t :: ts) with
    | .error e => .error e
    | .ok (a, rest) =>
      match readAll p stuck fuel rest with
      | .error e => .error e
      | .ok as => .ok (a :: as)

/-- Items written back to back are read as these items and nothing else. No item may be empty,
since the loop goes by the tokens that are left. -/
theorem readAll_flatMap {p : Parser τ ε α} {enc : β → List τ} (val : β → α) (stuck : ε)
    (xs : List β) (h : ∀ x ∈ xs, Parses p (enc x) (val x)) (hne : ∀ x ∈ xs, enc x ≠ [])
    {fuel : Nat} (hfuel : (xs.flatMap enc).length ≤ fuel) :
    readAll p stuck fuel (xs.flatMap enc) = .ok (xs.map val) := by
  induction xs generalizing fuel with
  | nil =>
    cases fuel <;> rfl
  | cons x xs ih =>
    obtain ⟨t, ts, hx⟩ := List.exists_cons_of_ne_nil (hne x List.mem_cons_self)
    rw [List.flatMap_cons, List.length_append, hx, List.length_cons] at hfuel
    cases fuel with
    | zero => omega
    | succ fuel =>
      have hread : p (t :: (ts ++ xs.flatMap enc)) = .ok (val x, xs.flatMap enc) := by
        have hparse := h x List.mem_cons_self (xs.flatMap enc)
        rwa [hx, List.cons_append] at hparse
      have hrest := ih (fun y hy => h y (List.mem_cons_of_mem x hy))
        (fun y hy => hne y (List.mem_cons_of_mem x hy)) (show _ ≤ fuel by omega)
      rw [List.flatMap_cons, hx, List.cons_append, readAll, hread]
      dsimp only
      rw [hrest, List.map_cons]

/-! ### Input that was cut off -/

/-- On every proper prefix of `ts`, `p` fails, with an error of the kind `E`. -/
def FailsShort (E : ε → Prop) (p : Parser τ ε α) (ts : List τ) : Prop :=
  ∀ us, us <+: ts → us ≠ ts → ∃ e, E e ∧ p us = .error e

/-- `p` reads exactly `ts` and returns `a`; it fails when they were cut off. -/
structure Strict (E : ε → Prop) (p : Parser τ ε α) (ts : List τ) (a : α) : Prop where
  parses : Parses p ts a
  short : FailsShort E p ts

/-- `p` reads exactly `ts` and returns `a`; when they were cut off it takes what
there is. -/
structure Lenient (p : Parser τ ε α) (ts : List τ) (a : α) : Prop where
  parses : Parses p ts a
  short : ∀ us, us <+: ts → us ≠ ts → ∃ a', p us = .ok (a', [])

variable {E : ε → Prop}

/-- A proper prefix of two parts ends in the first, or holds it and a proper
prefix of the second. -/
theorem proper_prefix_append {ts us vs : List τ} (h : vs <+: ts ++ us) (hne : vs ≠ ts ++ us) :
    (vs <+: ts ∧ vs ≠ ts) ∨ ∃ ws, vs = ts ++ ws ∧ ws <+: us ∧ ws ≠ us := by
  rcases List.prefix_or_prefix_of_prefix h (List.prefix_append ts us) with hvs | ⟨ws, rfl⟩
  · by_cases hfull : vs = ts
    · subst hfull
      refine Or.inr ⟨[], (List.append_nil vs).symm, List.nil_prefix, fun hnil => hne ?_⟩
      rw [← hnil, List.append_nil]
    · exact Or.inl ⟨hvs, hfull⟩
  · refine Or.inr ⟨ws, rfl, (List.prefix_append_right_inj ts).mp h, fun heq => hne ?_⟩
    rw [heq]

/-- There is a proper prefix of `ts` only if there are tokens; the empty input is
one. -/
theorem FailsShort.nil {p : Parser τ ε α} {ts : List τ} (h : FailsShort E p ts) (hne : ts ≠ []) :
    ∃ e, E e ∧ p [] = .error e :=
  h [] List.nil_prefix hne.symm

/-- A sequence fails where its first parser does: the second one is not reached. -/
theorem FailsShort.bind_left {p : Parser τ ε α} {f : α → Parser τ ε β} {ts : List τ}
    (h : FailsShort E p ts) : FailsShort E (p >>= f) ts := by
  intro us hus hne
  obtain ⟨e, he, hp⟩ := h us hus hne
  exact ⟨e, he, by rw [run_bind, hp]⟩

/-- A strict parser before one that fails short. A prefix ends in the tokens of the first or of
the second, and either parser fails on its own part. -/
theorem Strict.bind_short {p : Parser τ ε α} {f : α → Parser τ ε β} {ts us : List τ} {a : α}
    (hp : Strict E p ts a) (hf : FailsShort E (f a) us) : FailsShort E (p >>= f) (ts ++ us) := by
  intro vs hvs hne
  rcases proper_prefix_append hvs hne with ⟨hts, hcut⟩ | ⟨ws, rfl, hws, hcut⟩
  · exact hp.short.bind_left vs hts hcut
  · obtain ⟨e, he, hrun⟩ := hf ws hws hcut
    exact ⟨e, he, by rw [run_bind, hp.parses ws]; exact hrun⟩

/-- A lenient parser before one that fails short and has something to read: where the first one
runs out of tokens, the second finds none. -/
theorem Lenient.bind_short {p : Parser τ ε α} {f : α → Parser τ ε β} {ts us : List τ} {a : α}
    (hp : Lenient p ts a) (hf : ∀ a', FailsShort E (f a') us) (hne : us ≠ []) :
    FailsShort E (p >>= f) (ts ++ us) := by
  intro vs hvs hcut
  rcases proper_prefix_append hvs hcut with ⟨hts, hcut⟩ | ⟨ws, rfl, hws, hcut⟩
  · obtain ⟨a', hrun⟩ := hp.short vs hts hcut
    obtain ⟨e, he, hnil⟩ := (hf a').nil hne
    exact ⟨e, he, by rw [run_bind, hrun]; exact hnil⟩
  · obtain ⟨e, he, hrun⟩ := hf a ws hws hcut
    exact ⟨e, he, by rw [run_bind, hp.parses ws]; exact hrun⟩

/-- Strict parsers one after the other are a strict parser. -/
theorem Strict.bind {p : Parser τ ε α} {f : α → Parser τ ε β} {ts us : List τ} {a : α} {b : β}
    (hp : Strict E p ts a) (hf : Strict E (f a) us b) : Strict E (p >>= f) (ts ++ us) b :=
  ⟨hp.parses.bind hf.parses, hp.bind_short hf.short⟩

/-- A strict parser that ends with a computation on what it read: the computation reads nothing
and so can not be cut off. -/
theorem Strict.bind_pure {p : Parser τ ε α} {ts : List τ} {a : α} {g : α → β}
    (hp : Strict E p ts a) : Strict E (p >>= fun x => Pure.pure (g x)) ts (g a) :=
  ⟨hp.parses.bind_pure rfl, hp.short.bind_left⟩

/-- The same for a lenient parser, which returns a value on a prefix as well. -/
theorem Lenient.bind_pure {p : Parser τ ε α} {ts : List τ} {a : α} {g : α → β}
    (hp : Lenient p ts a) : Lenient (p >>= fun x => Pure.pure (g x)) ts (g a) := by
  refine ⟨hp.parses.bind_pure rfl, fun us hus hne => ?_⟩
  obtain ⟨a', hrun⟩ := hp.short us hus hne
  exact ⟨g a', by rw [run_bind, hrun]; rfl⟩

/-- A loop over a strict parser is strict: it fails inside one of the items, or where
an item is missing. -/
theorem Strict.repeatN {p : Parser τ ε α} {enc : β → List τ} (val : β → α) (xs : List β)
    (h : ∀ x ∈ xs, Strict E p (enc x) (val x)) :
    Strict E (repeatN p xs.length) (xs.flatMap enc) (xs.map val) := by
  refine ⟨Parses.repeatN val xs fun x hx => (h x hx).parses, ?_⟩
  induction xs with
  | nil => exact fun us hus hne => absurd (List.prefix_nil.mp hus) hne
  | cons x xs ih =>
    have hxs := ih fun y hy => h y (List.mem_cons_of_mem x hy)
    exact (h x List.mem_cons_self).bind_short hxs.bind_left

end Parser

end CStable.Support
