import Satd.Policy.Syntax
import Satd.Lib.Wire

/-!
# Script tokens and script patterns

A script is read as a list of opcodes and data pushes; a push that declares more
bytes than are left ends the list. Patterns are matched by a search with two
positions, one in the tokens and one in the pattern, that remembers the last `*`
it passed and returns to it on a mismatch. A cursor into a script is modelled by
the bytes that are left. Both loops run on a bound on their number of steps,
which `tokenize_tokens` and `globLoop_finishes` show to be enough.
-/

namespace Satd.Policy

open List Option

open Satd.Consensus (Bytes)

/-! ## Tokens -/

/-- The leading opcode, with the pushed data of a data push. -/
structure ScriptToken where
  op : UInt8
  data : Option Bytes
  deriving DecidableEq, Repr

structure Tokenized where
  tokens : List ScriptToken
  wellFormed : Bool
  deriving DecidableEq, Repr

/-- What an opcode says about the bytes after it. -/
inductive PushSize where
  | plain
  | truncated
  | take (size : Nat) (left : Bytes)

def pushSize (op : UInt8) (rest : Bytes) : PushSize :=
  if 0x01 ≤ op ∧ op ≤ 0x4b then .take op.toNat rest
  else if op = 0x4c then
    match rest with
    | size :: left => .take size.toNat left
    | _ => .truncated
  else if op = 0x4d then
    match rest with
    | low :: high :: left => .take (Wire.leNat [low, high]) left
    | _ => .truncated
  else if op = 0x4e then
    match rest with
    | a :: b :: c :: d :: left => .take (Wire.leNat [a, b, c, d]) left
    | _ => .truncated
  else .plain

/-- A token before the rest of the stream. -/
def Tokenized.cons (token : ScriptToken) (rest : Tokenized) : Tokenized :=
  ⟨token :: rest.tokens, rest.wellFormed⟩

def tokenizeFrom : Nat → Bytes → Tokenized
  | _, [] => ⟨[], true⟩
  | 0, _ :: _ => ⟨[], true⟩
  | fuel + 1, op :: rest =>
    match pushSize op rest with
    | .plain => (tokenizeFrom fuel rest).cons ⟨op, none⟩
    | .truncated => ⟨[], false⟩
    | .take size left =>
      if size > left.length then ⟨[], false⟩
      else (tokenizeFrom fuel (left.drop size)).cons ⟨op, some (left.take size)⟩

def tokenize (script : Bytes) : Tokenized := tokenizeFrom script.length script

/-- What is left after the size of a push is part of what was there. -/
theorem pushSize_length {op : UInt8} {rest left : Bytes} {size : Nat}
    (read : pushSize op rest = .take size left) : left.length ≤ rest.length := by
  unfold pushSize at read
  split_ifs at read
  · cases read
    exact le_rfl
  · match rest, read with
    | _ :: _, read => cases read; simp
  · match rest, read with
    | _ :: _ :: _, read => cases read; simp only [length_cons]; omega
  · match rest, read with
    | _ :: _ :: _ :: _ :: _, read => cases read; simp only [length_cons]; omega

variable {script : Bytes} {starJ : Option Nat}

/-- The tokens of a script, however many there are. -/
inductive Tokens : Bytes → Tokenized → Prop
  | nil : Tokens [] ⟨[], true⟩
  | plain {op rest tokens} (read : pushSize op rest = .plain) (later : Tokens rest tokens) :
      Tokens (op :: rest) (tokens.cons ⟨op, none⟩)
  | truncated {op rest} (read : pushSize op rest = .truncated) : Tokens (op :: rest) ⟨[], false⟩
  | short {op rest size left} (read : pushSize op rest = .take size left)
      (more : size > left.length) : Tokens (op :: rest) ⟨[], false⟩
  | push {op rest size left tokens} (read : pushSize op rest = .take size left)
      (fits : ¬ size > left.length) (later : Tokens (left.drop size) tokens) :
      Tokens (op :: rest) (tokens.cons ⟨op, some (left.take size)⟩)

/-- Every token takes at least one byte, so as many steps as bytes are enough. -/
theorem tokenizeFrom_tokens {fuel : Nat} {script : Bytes} (enough : script.length ≤ fuel) :
    Tokens script (tokenizeFrom fuel script) := by
  induction fuel generalizing script with
  | zero =>
    obtain rfl : script = [] := length_eq_zero_iff.mp (Nat.le_zero.mp enough)
    exact .nil
  | succ fuel ih =>
    cases script with
    | nil => exact .nil
    | cons op rest =>
      rw [length_cons] at enough
      rw [tokenizeFrom]
      cases read : pushSize op rest with
      | plain => exact .plain read (ih (by omega))
      | truncated => exact .truncated read
      | take size left =>
        have shorter := pushSize_length read
        dsimp only
        split
        next more => exact .short read more
        next fits => exact .push read fits (ih (by rw [length_drop]; omega))

theorem tokenize_tokens (script : Bytes) : Tokens script (tokenize script) :=
  tokenizeFrom_tokens le_rfl

theorem tokenizeFrom_length (fuel : Nat) (script : Bytes) :
    (tokenizeFrom fuel script).tokens.length ≤ script.length := by
  induction fuel generalizing script with
  | zero => cases script <;> simp [tokenizeFrom]
  | succ fuel ih =>
    cases script with
    | nil => simp [tokenizeFrom]
    | cons op rest =>
      simp only [tokenizeFrom]
      cases read : pushSize op rest with
      | plain =>
        have tail := ih rest
        simp only [Tokenized.cons, length_cons]
        omega
      | truncated => simp
      | take size left =>
        have shorter := pushSize_length read
        have tail := ih (left.drop size)
        rw [length_drop] at tail
        simp only
        split
        · simp
        · simp only [Tokenized.cons, length_cons]
          omega

/-- A script has at most as many tokens as bytes. -/
theorem tokenize_length : (tokenize script).tokens.length ≤ script.length :=
  tokenizeFrom_length _ script

variable (tokens : List ScriptToken)

def maxPush : I128 :=
  I128.ofLength ((tokens.filterMap fun token => token.data.map List.length).max?.getD 0)

def countOp (op : UInt8) : I128 := I128.ofLength (tokens.countP fun token => token.op == op)

/-! ## Patterns -/

/-- Whether one token matches one pattern element; the search never asks about
a run of tokens. -/
def tokenMatches (token : ScriptToken) : PatToken → Bool
  | .op opcode => token.op == opcode
  | .push => token.data.isSome
  | .pushLen length => token.data.any fun data => data.length == length.toNat
  | .pushRange least greatest =>
    token.data.any fun data => least.toNat ≤ data.length && data.length ≤ greatest.toNat
  | .pushExact exact => token.data.any fun data => data == exact
  | .pushPrefix start =>
    token.data.any fun data => start.length ≤ data.length && data.take start.length == start
  | .anyOne => true
  | .anyRun => false

/-- The search of the pattern from token `i` and element `j`, with the last `*`
passed and the token it gives up at. -/
def globLoop (padded : List PatToken) :
    Nat → (i j : Nat) → (starJ : Option Nat) → (starI : Nat) → Option Bool
  | 0, _, _, _, _ => none
  | fuel + 1, i, j, starJ, starI =>
    match tokens[i]? with
    | none => some (((padded.drop j).dropWhile fun element => element == .anyRun).isEmpty)
    | some token =>
      if padded[j]? = some .anyRun then globLoop padded fuel i (j + 1) (some j) i
      else if (padded[j]?).any (tokenMatches token) then
        globLoop padded fuel (i + 1) (j + 1) starJ starI
      else
        match starJ with
        | some star =>
          globLoop padded fuel (starI + 1) (star + 1) (some star) (starI + 1)
        | none => some false

/-- A bound on the steps of a search. -/
def globFuel (tokens padded : Nat) : Nat := (padded + 1) * ((tokens + 1) * (tokens + 1))

def globSearch (pattern : List PatToken) : Bool :=
  let padded := .anyRun :: (pattern ++ [.anyRun])
  (globLoop tokens padded (globFuel tokens.length padded.length) 0 0 none 0).getD false

def ScriptPattern.containsIn (pattern : ScriptPattern) (tokens : List ScriptToken) : Bool :=
  globSearch tokens pattern.tokens

/-- What the search has left to do: elements after the last `*`, then tokens the
`*` may still take, then tokens before a mismatch or the end. -/
def globMeasure (tokens padded : Nat) (i : Nat) (starJ : Option Nat) (starI : Nat) : Nat :=
  (padded - starJ.elim 0 (· + 1)) * ((tokens + 1) * (tokens + 1)) +
    ((tokens - starI) * (tokens + 1) + (tokens - i))

/-- The parts of the measure below the first are less than one unit of it. -/
theorem globMeasure_minor (tokens starI i : Nat) :
    (tokens - starI) * (tokens + 1) + (tokens - i) < (tokens + 1) * (tokens + 1) := by
  have rows : (tokens - starI) * (tokens + 1) ≤ tokens * (tokens + 1) :=
    Nat.mul_le_mul_right _ (Nat.sub_le _ _)
  have square : (tokens + 1) * (tokens + 1) = tokens * (tokens + 1) + (tokens + 1) := by ring
  omega

theorem globMeasure_star (tokens i starI : Nat) {padded j : Nat} (inside : j < padded)
    (later : starJ.elim 0 (· + 1) ≤ j) :
    globMeasure tokens padded i (some j) i < globMeasure tokens padded i starJ starI := by
  have minor := globMeasure_minor tokens i i
  obtain ⟨gap, isGap⟩ : ∃ gap, padded - starJ.elim 0 (· + 1) = (padded - (j + 1)) + 1 + gap :=
    ⟨j - starJ.elim 0 (· + 1), by omega⟩
  simp only [globMeasure, isGap, elim_some]
  have split : (padded - (j + 1) + 1 + gap) * ((tokens + 1) * (tokens + 1)) =
      (padded - (j + 1)) * ((tokens + 1) * (tokens + 1)) + (tokens + 1) * (tokens + 1) +
        gap * ((tokens + 1) * (tokens + 1)) := by ring
  omega

theorem globMeasure_back (padded star : Nat) {tokens i starI : Nat} (inside : i < tokens)
    (behind : starI ≤ i) :
    globMeasure tokens padded (starI + 1) (some star) (starI + 1) <
      globMeasure tokens padded i (some star) starI := by
  have step : tokens - starI = (tokens - (starI + 1)) + 1 := by omega
  simp only [globMeasure, step, add_mul, one_mul]
  omega

/-- The search ends within its bound. -/
theorem globLoop_finishes {padded : List PatToken} {fuel i j starI : Nat}
    (later : starJ.elim 0 (· + 1) ≤ j) (behind : starI ≤ i)
    (enough : globMeasure tokens.length padded.length i starJ starI < fuel) :
    (globLoop tokens padded fuel i j starJ starI).isSome := by
  induction fuel generalizing i j starJ starI with
  | zero => omega
  | succ fuel ih =>
    simp only [globLoop]
    cases found : tokens[i]? with
    | none => simp
    | some token =>
      have inside : i < tokens.length := (List.getElem?_eq_some_iff.mp found).1
      simp only
      split
      · rename_i isRun
        have before : j < padded.length := (List.getElem?_eq_some_iff.mp isRun).1
        have less := globMeasure_star tokens.length i starI before later
        exact ih le_rfl le_rfl (by omega)
      · split
        · refine ih (by omega) (by omega) ?_
          simp only [globMeasure] at enough ⊢
          omega
        · cases starJ with
          | none => simp
          | some star =>
            have less := globMeasure_back padded.length star inside behind
            exact ih le_rfl le_rfl (by omega)

/-- Started at the first token, the search answers. -/
theorem globSearch_finishes (padded : List PatToken) :
    (globLoop tokens padded (globFuel tokens.length padded.length) 0 0 none 0).isSome := by
  apply globLoop_finishes tokens (le_refl 0) (le_refl 0)
  have minor := globMeasure_minor tokens.length 0 0
  simp only [globMeasure, globFuel, Option.elim_none, Nat.sub_zero, add_mul, one_mul]
    at minor ⊢
  omega

/-! ## What the search decides -/

/-- The tokens match the pattern: an element matches one token, and a run any number of them. -/
def Globs : List PatToken → List ScriptToken → Prop
  | [], tokens => tokens = []
  | element :: rest, tokens =>
    if element = .anyRun then ∃ count, Globs rest (tokens.drop count)
    else tokens.head?.any (tokenMatches · element) = true ∧ Globs rest tokens.tail

variable (padded : List PatToken)

/-- What is left of the tokens matches what is left of the pattern. -/
def GlobsFrom (i j : Nat) : Prop := Globs (padded.drop j) (tokens.drop i)

variable {tokens padded} {i j : Nat}

theorem globsFrom_run (isRun : padded[j]? = some .anyRun) :
    GlobsFrom tokens padded i j ↔ ∃ count, GlobsFrom tokens padded (i + count) (j + 1) := by
  obtain ⟨inside, at_⟩ := List.getElem?_eq_some_iff.mp isRun
  simp only [GlobsFrom, drop_eq_getElem_cons inside, at_, Globs, if_true, drop_drop]

theorem globsFrom_one (notRun : padded[j]? ≠ some .anyRun) (inside : j < padded.length) :
    GlobsFrom tokens padded i j ↔
      (tokens[i]?.any fun token => padded[j]?.any (tokenMatches token)) ∧
        GlobsFrom tokens padded (i + 1) (j + 1) := by
  have isElement := getElem?_eq_getElem inside
  have plain : padded[j] ≠ .anyRun := fun same => notRun (isElement.trans (by rw [same]))
  simp only [GlobsFrom, drop_eq_getElem_cons inside, Globs, if_neg plain, head?_drop,
    tail_drop, isElement, any_some]

/-- Without tokens only runs match. -/
theorem globs_nil (pattern : List PatToken) :
    Globs pattern [] ↔ (pattern.dropWhile fun element => element == .anyRun).isEmpty = true := by
  induction pattern with
  | nil => simp [Globs]
  | cons element rest ih => by_cases isRun : element = .anyRun <;> simp [Globs, isRun, ih]

/-- What the search knows at token `i` and element `j`: a match goes on somewhere after the last
run, and from the first token left to it the elements since have matched up to here. -/
structure Searching (tokens : List ScriptToken) (padded : List PatToken) (i j star starI : Nat) :
    Prop where
  whole : Globs padded tokens ↔ ∃ count, GlobsFrom tokens padded (starI + count) (star + 1)
  later : ∀ count, GlobsFrom tokens padded (starI + count) (star + 1) →
    GlobsFrom tokens padded (i + count) j
  since : GlobsFrom tokens padded i j → GlobsFrom tokens padded starI (star + 1)

section Progress

variable {star starI : Nat} (searching : Searching tokens padded i j star starI)

include searching

theorem Searching.back (globs : GlobsFrom tokens padded i j) : Globs padded tokens :=
  searching.whole.mpr ⟨0, searching.since globs⟩

theorem Searching.forth (globs : Globs padded tokens) :
    ∃ count, GlobsFrom tokens padded (i + count) j :=
  (searching.whole.mp globs).imp searching.later

theorem Searching.run (isRun : padded[j]? = some .anyRun) :
    Searching tokens padded i (j + 1) j i := by
  refine ⟨⟨fun globs => ?_, fun found => ?_⟩, fun _ => id, id⟩
  · obtain ⟨before, found⟩ := searching.forth globs
    obtain ⟨more, found⟩ := (globsFrom_run isRun).mp found
    exact ⟨before + more, by rwa [← add_assoc]⟩
  · exact searching.back ((globsFrom_run isRun).mpr found)

variable {token : ScriptToken}

theorem Searching.one (isToken : tokens[i]? = some token) (notRun : padded[j]? ≠ some .anyRun)
    (fits : (padded[j]?).any (tokenMatches token) = true) :
    Searching tokens padded (i + 1) (j + 1) star starI := by
  have inside : j < padded.length := by
    by_contra outside
    simp [getElem?_eq_none (not_lt.mp outside)] at fits
  refine ⟨searching.whole, fun count found => ?_, fun found => searching.since ?_⟩
  · rw [add_right_comm]
    exact ((globsFrom_one notRun inside).mp (searching.later count found)).2
  · rw [globsFrom_one notRun inside, isToken]
    exact ⟨fits, found⟩

theorem Searching.retry (isToken : tokens[i]? = some token) (notRun : padded[j]? ≠ some .anyRun)
    (differs : ¬(padded[j]?).any (tokenMatches token) = true) :
    Searching tokens padded (starI + 1) (star + 1) star (starI + 1) := by
  have failed : ¬GlobsFrom tokens padded i j := by
    by_cases inside : j < padded.length
    · rw [globsFrom_one notRun inside, isToken]
      exact fun globs => differs globs.1
    · rw [GlobsFrom, drop_eq_nil_of_le (not_lt.mp inside), Globs, drop_eq_nil_iff, not_le]
      exact (List.getElem?_eq_some_iff.mp isToken).1
  refine ⟨searching.whole.trans ⟨?_, ?_⟩, fun _ => id, id⟩
  · rintro ⟨count, found⟩
    cases count with
    | zero => exact absurd (searching.later 0 found) failed
    | succ count => exact ⟨count, by rwa [add_right_comm]⟩
  · rintro ⟨count, found⟩
    exact ⟨count + 1, by rwa [add_right_comm] at found⟩

/-- An answer of the search is right. -/
theorem globLoop_decides {fuel : Nat} {answer : Bool}
    (ran : globLoop tokens padded fuel i j (some star) starI = some answer) :
    answer = true ↔ Globs padded tokens := by
  induction fuel generalizing i j star starI with
  | zero => cases ran
  | succ fuel ih =>
    simp only [globLoop] at ran
    cases isToken : tokens[i]? with
    | none =>
      have here : ∀ count, GlobsFrom tokens padded (i + count) j ↔ answer = true := by
        intro count
        have past : tokens.length ≤ i + count := by
          have := getElem?_eq_none_iff.mp isToken
          omega
        rw [isToken, Option.some.injEq] at ran
        rw [GlobsFrom, drop_eq_nil_of_le past, globs_nil, ran]
      constructor
      · exact fun yes => searching.back ((here 0).mpr yes)
      · intro globs
        obtain ⟨count, found⟩ := searching.forth globs
        exact (here count).mp found
    | some token =>
      simp only [isToken] at ran
      split at ran
      next isRun => exact ih (searching.run isRun) ran
      next notRun =>
        split at ran
        next fits => exact ih (searching.one isToken notRun fits) ran
        next differs => exact ih (searching.retry isToken notRun differs) ran

end Progress

/-- A run at the end leaves over any tokens. -/
theorem globs_append_run {pattern : List PatToken} {tokens : List ScriptToken} :
    Globs (pattern ++ [.anyRun]) tokens ↔ ∃ count, Globs pattern (tokens.take count) := by
  induction pattern generalizing tokens with
  | nil => exact ⟨fun _ => ⟨0, rfl⟩, fun _ => ⟨tokens.length, drop_length⟩⟩
  | cons element rest ih =>
    by_cases isRun : element = .anyRun
    · simp only [cons_append, Globs, isRun, if_true, ih, drop_take]
      constructor
      · rintro ⟨skipped, count, globs⟩
        exact ⟨skipped + count, skipped, by rwa [Nat.add_sub_cancel_left]⟩
      · rintro ⟨count, skipped, globs⟩
        exact ⟨skipped, count - skipped, globs⟩
    · simp only [cons_append, Globs, if_neg isRun, ih]
      cases tokens with
      | nil => simp
      | cons token later =>
        constructor
        · rintro ⟨fits, count, globs⟩
          exact ⟨count + 1, fits, globs⟩
        · rintro ⟨count, fits, globs⟩
          cases count with
          | zero => simp at fits
          | succ count => exact ⟨fits, count, globs⟩

/-- The search ends, and is true exactly when a contiguous part of the tokens matches the
pattern. -/
theorem globSearch_decides (tokens : List ScriptToken) (pattern : List PatToken) :
    (globLoop tokens (.anyRun :: (pattern ++ [.anyRun]))
      (globFuel tokens.length (.anyRun :: (pattern ++ [.anyRun])).length) 0 0 none 0).isSome ∧
      (globSearch tokens pattern = true ↔ ∃ part, part <:+: tokens ∧ Globs pattern part) := by
  have finishes := globSearch_finishes tokens (.anyRun :: (pattern ++ [.anyRun]))
  refine ⟨finishes, ?_⟩
  have decides : globSearch tokens pattern = true ↔
      Globs (.anyRun :: (pattern ++ [.anyRun])) tokens := by
    obtain ⟨answer, ran⟩ := isSome_iff_exists.mp finishes
    rw [globSearch, ran, getD_some]
    generalize globFuel _ _ = fuel at ran
    cases fuel with
    | zero => cases ran
    | succ fuel =>
      cases tokens with
      | nil =>
        cases ran
        exact (globs_nil _).symm
      | cons token later =>
        have whole : GlobsFrom (token :: later) (.anyRun :: (pattern ++ [.anyRun])) 0 0 ↔ _ :=
          globsFrom_run rfl
        exact globLoop_decides ⟨whole, fun _ => id, id⟩ ran
  simp only [decides, Globs, if_true, globs_append_run]
  constructor
  · rintro ⟨start, count, globs⟩
    exact ⟨_, (List.take_prefix _ _).isInfix.trans (drop_suffix _ _).isInfix, globs⟩
  · rintro ⟨part, ⟨front, back, rfl⟩, globs⟩
    exact ⟨front.length, part.length, by simpa using globs⟩

end Satd.Policy
