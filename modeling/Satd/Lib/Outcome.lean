import Mathlib.Tactic

/-!
# Outcomes of a program that can fail or panic

A call of a systems-language function ends in one of three ways: it returns a
value, it returns an error, or it panics. `Outcome` keeps the three apart, so
that an index out of range is not confused with an input the program rejects.
Two judgments are developed for it. `Extends` compares two programs and says
that one returns whatever the other returns. `Safe` is the weakest-precondition
judgment: the program does not panic, and a value it returns satisfies the
postcondition.

Loops run on fuel. A loop that runs out of fuel panics, so a proof that a loop
is safe is also a proof that it ends.
-/

namespace Rust

universe u

/-- How a call ends. -/
inductive Outcome (ε α : Type u) where
  | ok (value : α)
  | err (error : ε)
  | panic
  deriving DecidableEq, Repr

namespace Outcome

variable {ε α β γ : Type u}

/-- Sequencing: errors and panics end the program where they occur. -/
protected def bind (first : Outcome ε α) (next : α → Outcome ε β) : Outcome ε β :=
  match first with
  | ok value => next value
  | err error => err error
  | panic => panic

instance : Monad (Outcome ε) where
  pure := Outcome.ok
  bind := Outcome.bind

@[simp] theorem pure_eq (value : α) : (pure value : Outcome ε α) = ok value := rfl

@[simp] theorem ok_bind (value : α) (next : α → Outcome ε β) :
    (ok value >>= next) = next value := rfl

@[simp] theorem err_bind (error : ε) (next : α → Outcome ε β) :
    ((err error : Outcome ε α) >>= next) = err error := rfl

@[simp] theorem panic_bind (next : α → Outcome ε β) :
    ((panic : Outcome ε α) >>= next) = panic := rfl

variable {first program : Outcome ε α} {next : α → Outcome ε β} {value : α} {items : List α}
  {position start stop : Nat}

/-- A sequence returns only through a value of its first half. -/
theorem bind_eq_ok {result : β} :
    (first >>= next) = ok result ↔ ∃ value, first = ok value ∧ next value = ok result := by
  cases first <;> simp

/-- Sequencing is associative. -/
theorem bind_assoc (first : Outcome ε α) (next : α → Outcome ε β) (last : β → Outcome ε γ) :
    (first >>= next >>= last) = first >>= fun value => next value >>= last := by
  cases first <;> rfl

/-- The program returns a value. -/
def isOk : Outcome ε α → Bool
  | ok _ => true
  | _ => false

theorem exists_of_isOk (returned : program.isOk = true) : ∃ value, program = ok value := by
  cases program with
  | ok value => exact ⟨value, rfl⟩
  | err error => cases returned
  | panic => cases returned

/-- Return the error when the condition holds, and go on otherwise. -/
def failWhen (bad : Bool) (error : ε) : Outcome ε PUnit :=
  if bad then err error else ok PUnit.unit

@[simp] theorem failWhen_false (error : ε) : failWhen false error = ok PUnit.unit := rfl

@[simp] theorem failWhen_true (error : ε) : failWhen true error = err error := rfl

/-- A check is passed exactly when its condition is false. -/
@[simp] theorem failWhen_eq_ok {bad : Bool} {error : ε} {result : PUnit} :
    failWhen bad error = ok result ↔ bad = false := by
  cases bad <;> simp

/-- Run a check only when the condition holds. -/
def onlyIf (condition : Bool) (check : Outcome ε PUnit) : Outcome ε PUnit :=
  if condition then check else ok PUnit.unit

@[simp] theorem onlyIf_true (check : Outcome ε PUnit) : onlyIf true check = check := rfl

@[simp] theorem onlyIf_false (check : Outcome ε PUnit) : onlyIf false check = ok PUnit.unit := rfl

/-- Panic unless the condition holds. -/
def assert (good : Bool) : Outcome ε PUnit :=
  if good then ok PUnit.unit else panic

@[simp] theorem assert_true : (assert true : Outcome ε PUnit) = ok PUnit.unit := rfl

/-- The value of an option, with an error for `none`. -/
def ofOption (error : ε) : Option α → Outcome ε α
  | some value => ok value
  | none => err error

@[simp] theorem ofOption_eq_ok {error : ε} {found : Option α} :
    ofOption error found = ok value ↔ found = some value := by
  cases found <;> simp [ofOption]

/-- The value of an option that must be there. -/
def unwrap : Option α → Outcome ε α
  | some value => ok value
  | none => panic

@[simp] theorem unwrap_some (value : α) : (unwrap (some value) : Outcome ε α) = ok value := rfl

/-- Read one element of a slice. -/
def index (items : List α) (position : Nat) : Outcome ε α := unwrap items[position]?

/-- The part of a slice from `start` up to, not including, `stop`. -/
def slice (items : List α) (start stop : Nat) : Outcome ε (List α) :=
  if start ≤ stop ∧ stop ≤ items.length then ok ((items.drop start).take (stop - start))
  else panic

/-- Remove the last element of a vector that must not be empty. -/
def popLast (items : List α) : Outcome ε (α × List α) :=
  match items.getLast? with
  | some item => ok (item, items.dropLast)
  | none => panic

/-- Read the last element of a vector that must not be empty. -/
def lastItem (items : List α) : Outcome ε α := unwrap items.getLast?

/-- Exchange two elements of a vector. -/
def swapItems (items : List α) (left right : Nat) : Outcome ε (List α) :=
  match items[left]?, items[right]? with
  | some leftItem, some rightItem => ok ((items.set left rightItem).set right leftItem)
  | _, _ => panic

/-- Remove one element of a vector. -/
def removeItem (items : List α) (position : Nat) : Outcome ε (List α) :=
  if position < items.length then ok (items.eraseIdx position) else panic

/-- Insert an element into a vector before the given position. -/
def insertItem (items : List α) (position : Nat) (item : α) : Outcome ε (List α) :=
  if position ≤ items.length then ok (items.insertIdx position item) else panic

/-- Remove a range of a vector. -/
def drainItems (items : List α) (start stop : Nat) : Outcome ε (List α) :=
  if start ≤ stop ∧ stop ≤ items.length then ok (items.take start ++ items.drop stop) else panic

/-- A read returns the element at its position. -/
theorem index_eq_ok_iff {item : α} :
    (index items position : Outcome ε α) = ok item ↔ items[position]? = some item := by
  cases found : items[position]? <;> simp [index, unwrap, found]

/-- An index inside the slice reads an element. -/
theorem index_eq_ok (inside : position < items.length) :
    (index items position : Outcome ε α) = ok items[position] := by
  simp [index, List.getElem?_eq_getElem inside]

@[simp] theorem index_cons_zero (item : α) (items : List α) :
    (index (item :: items) 0 : Outcome ε α) = ok item := rfl

@[simp] theorem index_cons_succ (item : α) (items : List α) (position : Nat) :
    (index (item :: items) (position + 1) : Outcome ε α) = index items position := by
  simp [index]

/-- Bounds inside the slice cut out a part of the expected length. -/
theorem slice_eq_ok (ordered : start ≤ stop) (inside : stop ≤ items.length) :
    (slice items start stop : Outcome ε (List α)) =
      ok ((items.drop start).take (stop - start)) := by
  simp [slice, ordered, inside]

/-! ## Loops -/

/-- What one pass of a loop body does: go round again or leave. -/
inductive Flow (σ β : Type u) where
  | next (state : σ)
  | done (result : β)
  deriving DecidableEq, Repr

/-- Run a loop body until it leaves, at most `fuel` times. -/
def loop {σ : Type u} (body : σ → Outcome ε (Flow σ β)) : Nat → σ → Outcome ε β
  | 0, _ => panic
  | fuel + 1, state =>
    match body state with
    | ok (.next state) => loop body fuel state
    | ok (.done result) => ok result
    | err error => err error
    | panic => panic

/-! ## One program returning whatever another returns -/

/-- Every value `strict` returns is also returned by `lenient`. -/
def Extends (lenient strict : Outcome ε α) : Prop := ∀ value, strict = ok value → lenient = ok value

namespace Extends

theorem refl (program : Outcome ε α) : Extends program program :=
  fun _ returned => returned

variable {afterLenient afterStrict : α → Outcome ε β} {lenient strict : Outcome ε α}

/-- Related programs stay related when the same continuation shape follows. -/
theorem bind (first : Extends lenient strict)
    (next : ∀ value, Extends (afterLenient value) (afterStrict value)) :
    Extends (lenient >>= afterLenient) (strict >>= afterStrict) := by
  intro result returned
  obtain ⟨value, strictOk, rest⟩ := bind_eq_ok.mp returned
  exact bind_eq_ok.mpr ⟨value, first value strictOk, next value result rest⟩

/-- Two programs that end in the same way are compared before their end. -/
theorem before {next : α → Outcome ε β} (first : Extends lenient strict) :
    Extends (lenient >>= next) (strict >>= next) :=
  first.bind fun value => refl (next value)

/-- Two programs that begin in the same way are compared after their beginning. -/
theorem after (next : ∀ value, Extends (afterLenient value) (afterStrict value)) :
    Extends (first >>= afterLenient) (first >>= afterStrict) :=
  bind (refl first) next

/-- A check that fires less often is the more lenient one. -/
theorem failWhen {lenientBad strictBad : Bool} (implies : lenientBad = true → strictBad = true)
    (error : ε) : Extends (failWhen lenientBad error) (failWhen strictBad error) := by
  cases lenientBad with
  | false =>
    intro value _
    rfl
  | true =>
    rw [implies rfl]
    exact refl _

/-- A check run less often is the more lenient one. -/
theorem onlyIf {lenientWhen strictWhen : Bool} {lenient strict : Outcome ε PUnit}
    (implies : lenientWhen = true → strictWhen = true) (checks : Extends lenient strict) :
    Extends (onlyIf lenientWhen lenient) (onlyIf strictWhen strict) := by
  cases lenientWhen with
  | false =>
    intro value _
    rfl
  | true =>
    rw [implies rfl]
    exact checks

/-- Loops of related bodies are related, with the same fuel. -/
theorem loop {σ : Type u} {lenientBody strictBody : σ → Outcome ε (Flow σ β)}
    (bodies : ∀ state, Extends (lenientBody state) (strictBody state)) (fuel : Nat) (start : σ) :
    Extends (loop lenientBody fuel start) (loop strictBody fuel start) := by
  induction fuel generalizing start with
  | zero =>
    intro value returned
    cases returned
  | succ fuel ih =>
    intro value returned
    cases pass : strictBody start with
    | ok flow =>
      rw [Outcome.loop, pass] at returned
      rw [Outcome.loop, bodies start flow pass]
      cases flow with
      | next state => exact ih state value returned
      | done result => exact returned
    | err error => simp [Outcome.loop, pass] at returned
    | panic => simp [Outcome.loop, pass] at returned

end Extends

/-! ## Programs that do not panic -/

/-- The program does not panic, and a value it returns satisfies `post`. -/
def Safe (program : Outcome ε α) (post : α → Prop := fun _ => True) : Prop :=
  match program with
  | ok value => post value
  | err _ => True
  | panic => False

namespace Safe

variable {post weaker : α → Prop}

@[simp] theorem ok_iff : Safe (ok value : Outcome ε α) post ↔ post value := Iff.rfl

@[simp] theorem err_intro (error : ε) : Safe (err error : Outcome ε α) post := trivial

/-- What a safe program returns satisfies its postcondition. -/
theorem of_eq_ok (safe : Safe program post) (returned : program = ok value) : post value := by
  rw [returned] at safe
  exact safe

/-- A safe program does not panic. -/
theorem ne_panic (safe : Safe program post) : program ≠ panic := by
  intro panicked
  rw [panicked] at safe
  exact safe

/-- Absence of panics and a fact about every returned value make a program safe. -/
theorem intro (noPanic : program ≠ panic) (returned : ∀ value, program = ok value → post value) :
    Safe program post := by
  cases program with
  | ok value => exact returned value rfl
  | err error => trivial
  | panic => exact noPanic rfl

/-- Consequence rule. -/
theorem mono (safe : Safe program post) (implies : ∀ value, post value → weaker value) :
    Safe program weaker := by
  cases program with
  | ok value => exact implies value safe
  | err error => trivial
  | panic => exact safe.elim

/-- Keep only that the program does not panic. -/
theorem forget (safe : Safe program post) : Safe program := safe.mono (fun _ _ => trivial)

/-- Remember which program returned the value. -/
theorem remember (safe : Safe program post) :
    Safe program (fun value => program = ok value ∧ post value) := by
  cases program with
  | ok value => exact ⟨rfl, safe⟩
  | err error => trivial
  | panic => exact safe.elim

variable {final : β → Prop}

/-- Sequencing rule. -/
theorem bind (first : Safe program post) (rest : ∀ value, post value → Safe (next value) final) :
    Safe (program >>= next) final := by
  cases program with
  | ok value => exact rest value first
  | err error => trivial
  | panic => exact first.elim

/-- Sequencing rule when nothing is known about the first value. -/
theorem andThen (first : Safe program) (rest : ∀ value, Safe (next value) final) :
    Safe (program >>= next) final :=
  first.bind (fun value _ => rest value)

/-- Conditional rule. -/
theorem ite {condition : Prop} [Decidable condition] {second : Outcome ε α}
    (whenTrue : condition → Safe first post) (whenFalse : ¬condition → Safe second post) :
    Safe (if condition then first else second) post := by
  split
  · exact whenTrue ‹_›
  · exact whenFalse ‹_›

/-- A check is safe, and after it the condition is known to be false. -/
theorem failWhen (bad : Bool) (error : ε) : Safe (failWhen bad error) (fun _ => bad = false) := by
  cases bad <;> simp

theorem refuse {bad : Bool} {error : ε} : Safe (Outcome.failWhen bad error) :=
  (failWhen bad error).forget

/-- Sequencing rule for a check. -/
theorem check {bad : Bool} {error : ε} {next : PUnit → Outcome ε β}
    (rest : bad = false → Safe (next ⟨⟩) final) :
    Safe (Outcome.failWhen bad error >>= next) final :=
  (failWhen bad error).bind fun _ passed => rest passed

/-- A check made under a condition is safe when it is safe under that condition. -/
theorem onlyIf {condition : Bool} {check : Outcome ε PUnit}
    (safe : condition = true → Safe check) :
    Safe (onlyIf condition check) := by
  cases condition with
  | false => trivial
  | true => exact safe rfl

/-- An option turned into an error is safe. -/
theorem ofOption (error : ε) (found : Option α) :
    Safe (ofOption error found) (fun value => found = some value) := by
  cases found <;> simp [Outcome.ofOption]

theorem index (inside : position < items.length) :
    Safe (index items position : Outcome ε α) (fun value => items[position]? = some value) := by
  simp [index_eq_ok inside, List.getElem?_eq_getElem inside]

/-- Sequencing rule for a read. -/
theorem read (inside : position < items.length)
    (rest : ∀ item, items[position]? = some item → Safe (next item) final) :
    Safe (Outcome.index items position >>= next) final :=
  (index inside).bind rest

theorem slice (ordered : start ≤ stop) (inside : stop ≤ items.length) :
    Safe (slice items start stop : Outcome ε (List α))
      (fun part => part.length = stop - start) := by
  rw [slice_eq_ok ordered inside]
  simp only [ok_iff, List.length_take, List.length_drop]
  omega

theorem popLast (nonempty : items ≠ []) :
    Safe (popLast items : Outcome ε (α × List α))
      (fun popped => items = popped.2 ++ [popped.1]) := by
  have split := List.dropLast_append_getLast nonempty
  simp [Outcome.popLast, List.getLast?_eq_some_getLast nonempty, split]

theorem lastItem (nonempty : items ≠ []) :
    Safe (lastItem items : Outcome ε α) (fun item => items.getLast? = some item) := by
  simp [Outcome.lastItem, List.getLast?_eq_some_getLast nonempty]

theorem swapItems {left right : Nat} (leftInside : left < items.length)
    (rightInside : right < items.length) :
    Safe (swapItems items left right : Outcome ε (List α))
      (fun swapped => swapped.length = items.length) := by
  simp [Outcome.swapItems, List.getElem?_eq_getElem leftInside,
    List.getElem?_eq_getElem rightInside]

theorem removeItem (inside : position < items.length) :
    Safe (removeItem items position : Outcome ε (List α)) := by
  simp [Outcome.removeItem, inside]

theorem insertItem (inside : position ≤ items.length) (item : α) :
    Safe (insertItem items position item : Outcome ε (List α)) := by
  simp [Outcome.insertItem, inside]

theorem drainItems (ordered : start ≤ stop) (inside : stop ≤ items.length) :
    Safe (drainItems items start stop : Outcome ε (List α)) := by
  simp [Outcome.drainItems, ordered, inside]

/-- What a pass from `state` may do: keep the invariant and lower the measure, or
leave with a final result. -/
@[reducible] def Pass {σ : Type u} (invariant : σ → Prop) (final : β → Prop) (measure : σ → Nat)
    (state : σ) : Flow σ β → Prop
  | .next after => invariant after ∧ measure after < measure state
  | .done result => final result

/-- Loop rule: the body keeps an invariant and lowers a measure below the fuel. -/
theorem loop {σ : Type u} {body : σ → Outcome ε (Flow σ β)} (invariant : σ → Prop)
    (measure : σ → Nat)
    (pass : ∀ state, invariant state → Safe (body state) (Pass invariant final measure state))
    (fuel : Nat) (start : σ) (holds : invariant start) (enough : measure start < fuel) :
    Safe (loop body fuel start) final := by
  induction fuel generalizing start with
  | zero => omega
  | succ fuel ih =>
    have once := pass start holds
    unfold Outcome.loop
    cases flow : body start with
    | ok value =>
      rw [flow] at once
      cases value with
      | next after =>
        obtain ⟨kept, lower⟩ := once
        exact ih after kept (by omega)
      | done result => exact once
    | err error => trivial
    | panic =>
      rw [flow] at once
      exact once.elim

end Safe

/-- Loop rule for a body that always returns. -/
theorem loop_eq_ok {σ : Type u} {body : σ → Outcome ε (Flow σ β)} {final : β → Prop}
    (invariant : σ → Prop) (measure : σ → Nat)
    (pass : ∀ state, invariant state →
      ∃ flow, body state = ok flow ∧ Safe.Pass invariant final measure state flow)
    (fuel : Nat) (start : σ) (holds : invariant start) (enough : measure start < fuel) :
    ∃ result, loop body fuel start = ok result ∧ final result := by
  induction fuel generalizing start with
  | zero => omega
  | succ fuel ih =>
    obtain ⟨flow, ran, kept⟩ := pass start holds
    unfold loop
    rw [ran]
    cases flow with
    | next after => exact ih after kept.1 (by have := kept.2; omega)
    | done result => exact ⟨result, rfl, kept⟩

end Outcome

end Rust
