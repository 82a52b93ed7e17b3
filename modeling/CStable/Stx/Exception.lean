/-!
# `CStable.Stx.Exception`: raised exceptions and state that survives them

The library throws through the macros `RAISE`, `RAISEF` and `RCHECK` of
`stx/exception.h`. A C++ exception does not undo the writes made before the
`throw`, so a function that may throw while it changes an object is modelled
in `CxxM σ`: a function of the state that returns a result or an abort,
together with the state it leaves behind in both cases.

An abort is either an exception a caller can catch (`Abort.raised`) or a step
after which the C++ text has no meaning the model could follow
(`Abort.fault`): a null reference, an access outside the mapped memory, the
end of a function that returns no value.
-/

set_option autoImplicit false

namespace CStable

/-- A `std::string`, a `Buffer` or a memory region: a list of bytes. -/
abbrev Bytes := List UInt8

/-- The exception types of `stx/exception.h` the modelled code raises, and the
two `std::` exceptions thrown by `std::stoull` and its siblings. -/
inductive ExnKind where
  | kAssertionError
  | kBufferOverflowError
  | kEOFError
  | kIOError
  | kIllegalArgumentError
  | kIllegalStateError
  | kIndexError
  | kNotFoundError
  | kNotImplementedError
  | kNotYetImplementedError
  | kRuntimeError
  | kTypeError
  | stdInvalidArgument
  | stdOutOfRange
  deriving DecidableEq, Repr

/-- A thrown exception: its type, its message (for `RAISEF` the format string)
and the arguments the format string refers to as `$0`, `$1`. -/
structure Exn where
  kind : ExnKind
  message : String
  args : List Bytes
  deriving DecidableEq, Repr

/-- How a computation ends without a value. -/
inductive Abort where
  /-- A thrown exception, which a caller can catch. -/
  | raised (e : Exn)
  /-- The C++ text has no defined meaning from here on. -/
  | fault
  deriving DecidableEq, Repr

/-- An abort a caller can catch. -/
def Abort.IsRaised (a : Abort) : Prop :=
  ∃ e, a = .raised e

/-- The result of a function that changes no object. -/
abbrev Result (α : Type) := Except Abort α

instance Result.instDecidableEq {α : Type} [DecidableEq α] : DecidableEq (Result α)
  | .ok a, .ok b => decidable_of_iff (a = b) ⟨congrArg _, Except.ok.inj⟩
  | .error a, .error b => decidable_of_iff (a = b) ⟨congrArg _, Except.error.inj⟩
  | .ok _, .error _ => isFalse nofun
  | .error _, .ok _ => isFalse nofun

/-- `RAISE(kind, message)`. -/
def RAISE {α : Type} (kind : ExnKind) (message : String) : Result α :=
  .error (.raised ⟨kind, message, []⟩)

/-- `RAISEF(kind, format, args...)`. -/
def RAISEF {α : Type} (kind : ExnKind) (format : String) (args : List Bytes) : Result α :=
  .error (.raised ⟨kind, format, args⟩)

/-- `RCHECK(cond, message)`. -/
def RCHECK (cond : Bool) (message : String) : Result Unit :=
  if cond then .ok () else RAISE .kAssertionError message

/-- The computation ended with an exception, the outcome the code documents as
"raises". A fault does not count. -/
def Raises {α : Type} (r : Result α) : Prop :=
  ∃ e, r = .error (.raised e)

instance {α : Type} : (r : Result α) → Decidable (Raises r)
  | .ok _ => isFalse (fun ⟨_, h⟩ => nomatch h)
  | .error (.raised e) => isTrue ⟨e, rfl⟩
  | .error .fault => isFalse (fun ⟨_, h⟩ => nomatch h)

/-- A `bind` in `Result` succeeds exactly when both steps do. Read from left to right it takes a
function of the source apart into its calls, in their order. -/
theorem Result.bind_eq_ok {α β : Type} {x : Result α} {f : α → Result β} {b : β} :
    x >>= f = .ok b ↔ ∃ a, x = .ok a ∧ f a = .ok b := by
  cases x with
  | error e =>
    constructor
    · intro h
      cases h
    · rintro ⟨a, h, _⟩
      cases h
  | ok a =>
    constructor
    · intro h
      exact ⟨a, rfl, h⟩
    · rintro ⟨a', h, hf⟩
      cases h
      exact hf

/-- A result that is a value, from a check that computes. Runs on concrete tables use it, where
the value itself is too long to write down. -/
theorem Result.exists_eq_ok {α : Type} {x : Result α} (h : x.toOption.isSome = true) :
    ∃ a, x = .ok a := by
  cases x with
  | ok a => exact ⟨a, rfl⟩
  | error e => cases h

@[simp] theorem Result.ok_bind {α β : Type} (a : α) (f : α → Result β) :
    ((.ok a : Result α) >>= f) = f a := rfl

@[simp] theorem Result.error_bind {α β : Type} (e : Abort) (f : α → Result β) :
    ((.error e : Result α) >>= f) = .error e := rfl

@[simp] theorem Result.pure_eq {α : Type} (a : α) : (pure a : Result α) = .ok a := rfl

/-- Computations on an object of type `σ` that may abort and keep what they
have changed so far. -/
abbrev CxxM (σ α : Type) := ExceptT Abort (StateM σ) α

namespace CxxM

variable {σ α β : Type}

/-- The outcome of a computation started on the object `s`, and the object it
leaves behind. -/
def exec (x : CxxM σ α) (s : σ) : Result α × σ := x s

/-- Run a function that changes nothing. -/
def lift (r : Result α) : CxxM σ α := fun s => (r, s)

/-- Replace the object by the result of `f`, or abort and leave it as it is. -/
def update (f : σ → Result σ) : CxxM σ Unit := fun s =>
  match f s with
  | .ok s' => (.ok (), s')
  | .error e => (.error e, s)

@[simp] theorem exec_pure (a : α) (s : σ) : exec (pure a) s = (.ok a, s) := rfl

@[simp] theorem exec_lift (r : Result α) (s : σ) : exec (lift r) s = (r, s) := rfl

/-- The object that the first step left is the one the second starts from, and an abort of the
first step leaves what it had written: C++ does not undo side effects on a throw. -/
theorem exec_bind (x : CxxM σ α) (f : α → CxxM σ β) (s : σ) :
    exec (x >>= f) s =
      match exec x s with
      | (.ok a, s') => exec (f a) s'
      | (.error e, s') => (.error e, s') := by
  show ExceptT.bind x f s = _
  unfold ExceptT.bind ExceptT.mk exec
  show (match x s with | (a, s') => ExceptT.bindCont f a s') = _
  rcases hx : x s with ⟨r, s'⟩
  cases r <;> rfl

/-- After a first step that succeeds, the second runs on the object it left. Together with
`exec_bind_error` this is how runs are followed. -/
theorem exec_bind_ok {x : CxxM σ α} {f : α → CxxM σ β} {s s' : σ} {a : α}
    (h : exec x s = (.ok a, s')) : exec (x >>= f) s = exec (f a) s' := by
  rw [exec_bind, h]

/-- An abort in the first step is the abort of the whole, with the object as the first step left
it. -/
theorem exec_bind_error {x : CxxM σ α} {f : α → CxxM σ β} {s s' : σ} {e : Abort}
    (h : exec x s = (.error e, s')) : exec (x >>= f) s = (.error e, s') := by
  rw [exec_bind, h]

/-- An update that raises leaves the object as it is: the function computes a new object or none
at all. -/
theorem exec_update (f : σ → Result σ) (s : σ) :
    exec (update f) s =
      match f s with
      | .ok s' => (.ok (), s')
      | .error e => (.error e, s) := rfl

/-- The computation keeps a property of the object, also when it aborts. -/
def Preserves (P : σ → Prop) (x : CxxM σ α) : Prop := ∀ s, P s → P (exec x s).2

namespace Preserves

variable {P : σ → Prop}

/-- A computation that only returns a value keeps every property of the object. -/
theorem pure (a : α) : Preserves P (Pure.pure a : CxxM σ α) := fun _ h => h

/-- So does one that only raises or returns, because it never gets to the object. -/
theorem lift (r : Result α) : Preserves P (CxxM.lift r) := fun _ h => h

/-- Two steps keep a property that each of them keeps, whatever the first one returned. This
holds after an exception too, so callers that catch are covered. -/
theorem bind {x : CxxM σ α} {f : α → CxxM σ β} (hx : Preserves P x)
    (hf : ∀ a, Preserves P (f a)) : Preserves P (x >>= f) := by
  intro s hs
  have hs' := hx s hs
  rw [exec_bind]
  rcases hrun : exec x s with ⟨r, s'⟩
  rw [hrun] at hs'
  cases r with
  | ok a => exact hf a s' hs'
  | error e => exact hs'

/-- An update needs to keep the property where it succeeds; where it raises the object is the
old one. -/
theorem update {f : σ → Result σ} (hf : ∀ s s', P s → f s = .ok s' → P s') :
    Preserves P (CxxM.update f) := by
  intro s hs
  rw [exec_update]
  cases hstep : f s with
  | ok s' => exact hf s s' hs hstep
  | error e => exact hs

end Preserves

end CxxM

/-! ### Faults -/

/-- The computation returns or raises. -/
def NoFault {α : Type} (r : Result α) : Prop := r ≠ .error .fault

namespace NoFault

variable {α β : Type}

/-- A value is no fault. -/
theorem ok (a : α) : NoFault (.ok a : Result α) := by
  intro h
  cases h

/-- Exceptions of the program are no faults: a caller can catch them. -/
theorem raise (kind : ExnKind) (message : String) : NoFault (RAISE kind message : Result α) := by
  intro h
  cases h

/-- A sequence has no fault if no step has one. For the second step only values that the first
one can return count, which is where bounds that were checked before come in. -/
theorem bind {x : Result α} {f : α → Result β} (hx : NoFault x)
    (hf : ∀ a, x = .ok a → NoFault (f a)) : NoFault (x >>= f) := by
  cases x with
  | error e =>
    intro h
    cases h
    exact hx rfl
  | ok a => exact hf a rfl

/-- A conversion of the value adds no fault. -/
theorem map {x : Result α} {f : α → β} (hx : NoFault x) : NoFault (x.map f) := by
  cases x with
  | error e =>
    intro h
    cases h
    exact hx rfl
  | ok a => exact ok _

end NoFault

end CStable
