import Satd.Chain.Compact
import Satd.Chain.Headers

/-!
# The difficulty of the next block

Every 2016 blocks the target is scaled by the time the last period took, within a factor of
four, and never above the limit of the network. Other blocks have the bits of their parent,
except on the test networks, where a late block may have the limit and the others look back for
a block that has not. All of this follows the parent links of the block it is computed for.
-/

namespace Satd.Chain

open Positional Satd.Bitcoin Satd.Storage Satd.Storage.BlockIndex Satd.Validation

/-! ## Retargeting -/

def retargetInterval : Nat := 2016

def targetTimespan : Nat := 14 * 24 * 60 * 60

def testnetAllowMinDiffAfter : Nat := 20 * 60

/-- The bits of the easiest target of a network. -/
def powLimitBits : Network → UInt32
  | .regtest => 0x207fffff
  | .signet => 0x1e0377ae
  | .testnet | .testnet4 | .bitcoin => 0x1d00ffff

variable (number : U256)

/-- Multiply by a 32-bit number. What does not fit is lost. -/
def mulU256U32 (factor : Nat) : U256 :=
  ⟨(carry (fun byte : BitVec 8 => (byte.toNat : Int) * factor) 8 number.bytes 0).1,
    (carry_length _).trans number.length_eq⟩

def divU256U32 (divisor : Nat) : U256 :=
  ⟨(divSmall divisor number.bytes 0).1, (divSmall_length).trans number.length_eq⟩

def compareTargets (left right : U256) : Ordering := Positional.compare left.bytes right.bytes

/-- The target, or the limit if it is above. -/
def clampTarget (target powlimit : U256) : U256 :=
  if compareTargets target powlimit = .gt then powlimit else target

/-- Scale the target that the old bits encode. -/
def retarget (oldBits : UInt32) (actualTimespan : Nat) (powlimitBits : UInt32) : UInt32 :=
  let oldTarget := targetFromCompact oldBits
  let scaled := mulU256U32 oldTarget actualTimespan
  let newTarget := divU256U32 scaled targetTimespan
  compactFromTarget (clampTarget newTarget (targetFromCompact powlimitBits))

/-- How long the period took, as far as it counts. -/
def clampedTimespan (first last : UInt32) : Nat :=
  max (targetTimespan / 4) (min (last.toNat - first.toNat) (targetTimespan * 4))

theorem mulU256U32_toNat {number : U256} {factor : Nat} (fits : number.toNat * factor < 2 ^ 256) :
    (mulU256U32 number factor).toNat = number.toNat * factor := by
  have sum := weight_mul (factor : Int) number.bytes
  have exact : ((mulU256U32 number factor).toNat : Int) = number.toNat * factor := by
    have fits : (number.toNat : Int) * factor < 2 ^ 256 := by exact_mod_cast fits
    have carried := carry_exact (w := 8) (fun byte : BitVec 8 => (byte.toNat : Int) * factor)
      number.bytes 0 (by rw [sum]; positivity)
      (by rw [sum, number.length_eq, add_zero]; exact fits)
    rw [sum, add_zero] at carried
    exact carried
  exact_mod_cast exact

theorem divU256U32_toNat {divisor : Nat} (positive : 0 < divisor) :
    (divU256U32 number divisor).toNat = number.toNat / divisor := by
  have quotient := divSmall_value number.bytes positive
  rwa [zero_mul, zero_add] at quotient

theorem clampTarget_toNat (target powlimit : U256) :
    (clampTarget target powlimit).toNat = min powlimit.toNat target.toNat := by
  have compared : compareTargets target powlimit = compare target.toNat powlimit.toNat :=
    compare_eq (target.length_eq.trans powlimit.length_eq.symm)
  rw [clampTarget]
  split_ifs with above
  · rw [compared, Nat.compare_eq_gt] at above
    rw [min_eq_left above.le]
  · rw [compared, Nat.compare_eq_gt] at above
    rw [Nat.min_eq_right (Nat.le_of_not_lt above)]

/-- A network that retargets has a limit that four times as long a period does not overflow. -/
theorem powLimit_fits {network : Network} (retargets : network ≠ .regtest) :
    (targetFromCompact (powLimitBits network)).toNat * (targetTimespan * 4) < 2 ^ 256 := by
  cases network with
  | regtest => exact absurd rfl retargets
  | bitcoin | testnet | testnet4 | signet => decide +kernel

variable {oldBits powlimitBits : UInt32} {timespan : Nat}

/-- The new bits are the compact form of the scaled target, or of the limit. -/
theorem retarget_toNat (fits : (targetFromCompact oldBits).toNat * timespan < 2 ^ 256) :
    (retarget oldBits timespan powlimitBits).toNat =
      compactOf (min (targetFromCompact powlimitBits).toNat
        ((targetFromCompact oldBits).toNat * timespan / targetTimespan)) := by
  rw [retarget, compactFromTarget_toNat, clampTarget_toNat, divU256U32_toNat _ (by decide),
    mulU256U32_toNat fits]

/-- The new target is not above the limit. -/
theorem retarget_le :
    (targetFromCompact (retarget oldBits timespan powlimitBits)).toNat ≤
      (targetFromCompact powlimitBits).toNat := by
  rw [retarget]
  set clamped := clampTarget _ (targetFromCompact powlimitBits) with isClamped
  have lower : clamped.toNat ≤ (targetFromCompact powlimitBits).toNat := by
    rw [isClamped, clampTarget_toNat]
    exact min_le_left _ _
  rw [decoded_toNat clamped (lower.trans_lt (targetFromCompact_lt powlimitBits))]
  exact (Nat.div_mul_le_self _ _).trans lower

/-! ## The next bits -/

section Lookup

variable (getByHash : IndexLookup)

/-- Follow as many parent links as given, each to the height just below. -/
def followParents : Nat → BlockIndexEntry → Except ValidationError BlockIndexEntry
  | 0, current => .ok current
  | steps + 1, current =>
    match getByHash current.header.prevBlockhash with
    | none => .error .badDifficulty
    | some parent =>
      if parent.height + 1 ≠ current.height then .error .badDifficulty
      else followParents steps parent

/-- The first block of the period that ends with the given one. -/
def periodFirst (prev : BlockIndexEntry) : Except ValidationError BlockIndexEntry :=
  if prev.height + 1 < retargetInterval then .error .badDifficulty
  else
    let firstHeight := prev.height + 1 - retargetInterval
    followParents getByHash (prev.height - firstHeight) prev

variable (height : Nat) (prev : BlockIndexEntry)

def calculateNextBits (powlimitBits : UInt32) : Except ValidationError UInt32 :=
  if height % retargetInterval ≠ 0 then .ok prev.header.bits
  else do
    let first ← periodFirst getByHash prev
    let actualTimespan := clampedTimespan first.header.time prev.header.time
    pure (retarget prev.header.bits actualTimespan powlimitBits)

/-- The same, with the target of the first block of the period. -/
def calculateNextBitsBip94 : Except ValidationError UInt32 :=
  if height % retargetInterval ≠ 0 then .ok prev.header.bits
  else do
    let first ← periodFirst getByHash prev
    let actualTimespan := clampedTimespan first.header.time prev.header.time
    pure (retarget first.header.bits actualTimespan (powLimitBits .bitcoin))

/-- Look back for a block that begins a period or has not the limit. The walk ends only if it
finds one, so it may run out of the given number of steps. -/
def walkBack : Nat → BlockIndexEntry → Option (Except ValidationError UInt32)
  | 0, _ => none
  | steps + 1, current =>
    if current.height % retargetInterval = 0 ∨ current.header.bits ≠ powLimitBits .testnet ∨
        current.height = 0 then
      some (.ok current.header.bits)
    else match getByHash current.header.prevBlockhash with
      | none => some (.error .badDifficulty)
      | some parent => walkBack steps parent

def calculateNextBitsTestnet (headerTime : UInt32) (prev : BlockIndexEntry) (bip94 : Bool)
    (steps : Nat) : Option (Except ValidationError UInt32) :=
  if height % retargetInterval = 0 then
    if bip94 then some (calculateNextBitsBip94 getByHash height prev)
    else some (calculateNextBits getByHash height prev (powLimitBits .testnet))
  else if prev.header.time.toNat + testnetAllowMinDiffAfter < headerTime.toNat then
    some (.ok (powLimitBits .testnet))
  else walkBack getByHash steps prev

/-- The bits a block on top of the given one must have. -/
def nextBits (network : Network) (prev : BlockIndexEntry) (headerTime : UInt32) (steps : Nat) :
    Option (Except ValidationError UInt32) :=
  let height := prev.height + 1
  match network with
  | .regtest => some (.ok (powLimitBits .regtest))
  | .testnet => calculateNextBitsTestnet getByHash height headerTime prev false steps
  | .testnet4 => calculateNextBitsTestnet getByHash height headerTime prev true steps
  | .signet => some (calculateNextBits getByHash height prev (powLimitBits .signet))
  | .bitcoin => some (calculateNextBits getByHash height prev (powLimitBits .bitcoin))

/-- The blocks that parent links lead to, the block itself included. -/
inductive Ancestor (prev : BlockIndexEntry) : BlockIndexEntry → Prop
  | self : Ancestor prev prev
  | parent {entry parent : BlockIndexEntry} (reached : Ancestor prev entry)
      (link : getByHash entry.header.prevBlockhash = some parent) : Ancestor prev parent

end Lookup

section Agreement

variable {getByHash other : IndexLookup} {prev : BlockIndexEntry}

/-- Both lookups find the same parents of the ancestors of a block. -/
def AgreeOnAncestors (getByHash other : IndexLookup) (prev : BlockIndexEntry) : Prop :=
  ∀ entry, Ancestor getByHash prev entry →
    getByHash entry.header.prevBlockhash = other entry.header.prevBlockhash

section

variable (agree : AgreeOnAncestors getByHash other prev)
include agree

variable {current : BlockIndexEntry}

theorem followParents_congr (steps : Nat) (reached : Ancestor getByHash prev current) :
    followParents getByHash steps current = followParents other steps current := by
  induction steps generalizing current with
  | zero => rfl
  | succ steps ih =>
    rw [followParents, followParents, ← agree current reached]
    cases link : getByHash current.header.prevBlockhash with
    | none => rfl
    | some parent => simp only [ih (reached.parent link)]

theorem walkBack_congr (steps : Nat) (reached : Ancestor getByHash prev current) :
    walkBack getByHash steps current = walkBack other steps current := by
  induction steps generalizing current with
  | zero => rfl
  | succ steps ih =>
    rw [walkBack, walkBack, ← agree current reached]
    cases link : getByHash current.header.prevBlockhash with
    | none => rfl
    | some parent => simp only [ih (reached.parent link)]

theorem nextBits_congr (network : Network) (headerTime : UInt32) (steps : Nat) :
    nextBits getByHash network prev headerTime steps =
      nextBits other network prev headerTime steps := by
  have first : periodFirst getByHash prev = periodFirst other prev := by
    rw [periodFirst, periodFirst, followParents_congr agree _ .self]
  have walked := walkBack_congr agree steps .self
  cases network <;>
    simp [nextBits, calculateNextBitsTestnet, calculateNextBits, calculateNextBitsBip94, first,
      walked]

end

/-- Where every parent is one lower, the look back ends with the period at the latest. -/
theorem walkBack_ends (linked : ∀ entry parent, Ancestor getByHash prev entry →
      getByHash entry.header.prevBlockhash = some parent → parent.height + 1 = entry.height)
    {steps : Nat} {current : BlockIndexEntry} (reached : Ancestor getByHash prev current)
    (enough : current.height % retargetInterval < steps) :
    (walkBack getByHash steps current).isSome := by
  induction steps generalizing current with
  | zero => omega
  | succ steps ih =>
    rw [walkBack]
    split_ifs with found
    · rfl
    · cases link : getByHash current.header.prevBlockhash with
      | none => rfl
      | some parent =>
        have lower := linked current parent reached link
        apply ih (reached.parent link)
        simp only [retargetInterval] at found enough ⊢
        omega

/-- The parents of a block and its ancestors are known down to the first, one lower each. -/
def Rooted (getByHash : IndexLookup) (prev : BlockIndexEntry) : Prop :=
  ∀ entry, Ancestor getByHash prev entry → 0 < entry.height →
    ∃ parent, getByHash entry.header.prevBlockhash = some parent ∧ parent.height + 1 = entry.height

theorem followParents_ancestor (linked : Rooted getByHash prev) {steps : Nat}
    {current : BlockIndexEntry} (reached : Ancestor getByHash prev current)
    (enough : steps ≤ current.height) :
    ∃ first, followParents getByHash steps current = .ok first ∧
      Ancestor getByHash prev first ∧ first.height + steps = current.height := by
  induction steps generalizing current with
  | zero => exact ⟨current, rfl, reached, rfl⟩
  | succ steps ih =>
    obtain ⟨parent, link, lower⟩ := linked current reached (by omega)
    obtain ⟨first, found, ancestor, height⟩ := ih (reached.parent link) (by omega)
    exact ⟨first, by simp [followParents, link, lower, found], ancestor, by omega⟩

end Agreement

/-- The timespan that counts, for timestamps in any order. -/
def countedTimespan (first last : UInt32) : Int :=
  max (targetTimespan / 4) (min ((last.toNat : Int) - first.toNat) (targetTimespan * 4))

/-- Retargeting is exact on the networks that do it, from the first block of the period, and what
the next bits are depends on nothing but the timestamp and the ancestors of the parent. -/
theorem difficulty_exact :
    (∀ network ≠ Network.regtest, ∀ oldBits,
      (targetFromCompact oldBits).toNat ≤ (targetFromCompact (powLimitBits network)).toNat →
      ∀ first last,
        ((targetFromCompact oldBits).toNat : Int) * countedTimespan first last < 2 ^ 256 ∧
        ((retarget oldBits (clampedTimespan first last) (powLimitBits network)).toNat =
          compactOf (min (targetFromCompact (powLimitBits network)).toNat
            ((targetFromCompact oldBits).toNat * countedTimespan first last /
              targetTimespan : Int).toNat)) ∧
        (targetFromCompact (retarget oldBits (clampedTimespan first last)
          (powLimitBits network))).toNat ≤ (targetFromCompact (powLimitBits network)).toNat) ∧
    (∀ network ≠ Network.regtest, ∀ getByHash prev headerTime steps first,
      (prev.height + 1) % retargetInterval = 0 → periodFirst getByHash prev = .ok first →
      nextBits getByHash network prev headerTime steps =
        some (.ok (retarget (if network = .testnet4 then first.header.bits else prev.header.bits)
          (clampedTimespan first.header.time prev.header.time) (powLimitBits network)))) ∧
    (∀ getByHash other prev, AgreeOnAncestors getByHash other prev →
      ∀ network headerTime steps, nextBits getByHash network prev headerTime steps =
        nextBits other network prev headerTime steps) ∧
    (∀ getByHash prev, (∀ entry parent, Ancestor getByHash prev entry →
        getByHash entry.header.prevBlockhash = some parent → parent.height + 1 = entry.height) →
      ∀ network headerTime steps, retargetInterval ≤ steps →
        (nextBits getByHash network prev headerTime steps).isSome) ∧
    (∀ getByHash prev, Rooted getByHash prev → retargetInterval ≤ prev.height + 1 →
      ∃ first, periodFirst getByHash prev = .ok first ∧ Ancestor getByHash prev first ∧
        first.height = prev.height + 1 - retargetInterval) := by
  refine ⟨?_, ?_, fun _ _ _ agree => nextBits_congr agree, ?_, ?_⟩
  · intro network retargets oldBits within first last
    have counted : countedTimespan first last = clampedTimespan first last := by
      rw [countedTimespan, clampedTimespan]
      omega
    have short : clampedTimespan first last ≤ targetTimespan * 4 := by
      rw [clampedTimespan]
      exact Nat.max_le.mpr ⟨by decide, Nat.min_le_right _ _⟩
    have fits : (targetFromCompact oldBits).toNat * clampedTimespan first last < 2 ^ 256 :=
      (Nat.mul_le_mul within short).trans_lt (powLimit_fits retargets)
    rw [counted]
    refine ⟨by exact_mod_cast fits, ?_, retarget_le⟩
    rw [retarget_toNat fits]
    norm_cast
  · intro network retargets getByHash prev headerTime steps first boundary found
    cases network <;>
      simp_all [nextBits, calculateNextBitsTestnet, calculateNextBits, calculateNextBitsBip94,
        powLimitBits, bind, Except.bind, pure, Except.pure]
  · intro getByHash prev linked network headerTime steps enough
    have ends := walkBack_ends linked .self
      (lt_of_lt_of_le (Nat.mod_lt prev.height (by decide)) enough)
    cases network with
    | regtest | signet | bitcoin => rfl
    | testnet | testnet4 =>
      simp only [nextBits, calculateNextBitsTestnet]
      split_ifs <;> first | rfl | exact ends
  · intro getByHash prev linked long
    obtain ⟨first, found, ancestor, height⟩ := followParents_ancestor linked .self
      (Nat.sub_le prev.height (prev.height + 1 - retargetInterval))
    refine ⟨first, by rw [periodFirst, if_neg (by omega)]; exact found, ancestor, ?_⟩
    simp only [retargetInterval] at long height ⊢
    omega

/-- A block on the first one, and an index that may know another one on it. -/
def forkTip : BlockIndexEntry :=
  ⟨⟨1, Hash256.repeated 0, Hash256.repeated 0, 0, 0x1d00ffff, 0⟩, 1, .valid, 1, 0, 0, 0⟩

def forkIndex (other : Bool) (hash : BlockHash) : Option BlockIndexEntry :=
  if hash = Hash256.repeated 0 then
    some { forkTip with header.prevBlockhash := Hash256.repeated 9, height := 0 }
  else if other && hash = Hash256.repeated 2 then some forkTip
  else none

theorem forkIndex_agree : AgreeOnAncestors (forkIndex false) (forkIndex true) forkTip := by
  intro entry reached
  have elsewhere : entry.header.prevBlockhash ≠ Hash256.repeated 2 := by
    cases reached with
    | self => decide
    | parent _ link =>
      simp only [forkIndex, Bool.false_and, Bool.false_eq_true, if_false] at link
      split_ifs at link
      cases link
      decide
  simp [forkIndex, elsewhere]

/-- A signet period that took eight weeks, at the limit, and a block beside the parent. -/
theorem difficulty_exact_at_limit :
    (targetFromCompact 0x1e0377ae).toNat ≤ (targetFromCompact (powLimitBits .signet)).toNat ∧
      (retarget 0x1e0377ae (clampedTimespan 0 4838400) (powLimitBits .signet)).toNat =
        compactOf (min (targetFromCompact (powLimitBits .signet)).toNat
          ((targetFromCompact 0x1e0377ae).toNat * countedTimespan 0 4838400 /
            targetTimespan : Int).toNat) ∧
      nextBits (forkIndex false) .testnet forkTip 600 2 =
        nextBits (forkIndex true) .testnet forkTip 600 2 := by
  have within : (targetFromCompact 0x1e0377ae).toNat ≤
      (targetFromCompact (powLimitBits .signet)).toNat := by decide +kernel
  exact ⟨within, (difficulty_exact.1 .signet (by decide) 0x1e0377ae within 0 4838400).2.1,
    difficulty_exact.2.2.1 _ _ _ forkIndex_agree .testnet 600 2⟩

end Satd.Chain
