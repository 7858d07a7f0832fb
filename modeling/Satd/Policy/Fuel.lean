import Satd.Policy.Cost

/-!
# Fuel and the static cost

The cost model leaves out some of the fuel an evaluation takes: a unit for every element a
quantifier visits, the pass that splits a script into tokens before a pattern is searched in
it, and comparisons with bytes of fixed length, which it counts for one element and the
evaluator pays for at every element. `Covered` says, of the expression and the sizes of the
transaction, when what it counts makes up for that. A quantifier counts its body for as many
elements as a transaction can have, so half as many leave room for the units, and in the same
way scripts of half the length leave room for the tokens.
-/

namespace Satd.Policy

open Rust List
open Satd.Consensus (Bytes)

/-! ## What a call takes -/

/-- What a call costs for every byte of its receiver. -/
def perByte : MethodCall → Nat
  | .len | .startsWith _ | .endsWith _ => 0
  | .contains needle => needle.length
  | .countOp _ | .maxPush | .wellFormed => 1
  | .containsOps pattern => pattern.len + 2

/-- What a call costs whatever its receiver. -/
def perCall : MethodCall → Nat
  | .startsWith needle | .endsWith needle => needle.length
  | _ => 0

/-- How often a call reads its receiver: a pattern is searched in the tokens of a script,
which are found by a pass of its own. -/
def passes : MethodCall → Nat
  | .containsOps _ => 2
  | _ => 1

theorem exactScanned_eq (bound : Nat) (call : MethodCall) :
    exactScanned bound call = bound * perByte call + perCall call := by
  cases call <;> simp [exactScanned, perByte, perCall]

theorem saturatingProduct_le
    (first second : Nat) : saturatingProduct first second ≤ first * second :=
  min_le_left _ _

/-- The fuel of a call against the length of its receiver. -/
theorem callWork_le {bytes : Bytes} (call : MethodCall) :
    callWork bytes call ≤ passes call * bytes.length * perByte call + perCall call := by
  cases call with
  | len | startsWith | endsWith | countOp | maxPush | wellFormed =>
    simp [callWork, passes, perByte, perCall]
  | contains needle =>
    simpa [callWork, passes, perByte, perCall] using saturatingProduct_le _ _
  | containsOps pattern =>
    have tokens := (saturatingProduct_le (tokenize bytes).tokens.length (pattern.len + 2)).trans
      (Nat.mul_le_mul_right _ tokenize_length)
    have pass : bytes.length ≤ bytes.length * (pattern.len + 2) :=
      Nat.le_mul_of_pos_right _ (Nat.succ_pos _)
    simp only [callWork, passes, perByte, perCall, mul_assoc]
    omega

/-! ## The condition -/

section Views

variable (tx : TxView) (ctx : Ctx)

/-- The sizes the constants of the cost model stand for. -/
structure WithinLimits : Prop where
  inputs : tx.inputs.length ≤ maxInputs
  outputs : tx.outputs.length ≤ maxOutputs
  scripts : (tx.inputs.map fun input => input.scriptSig.length + input.leafScript.length).sum +
    (tx.outputs.map fun output => output.script.length).sum ≤ maxTxScan
  prevoutScripts : ∀ input ∈ tx.inputs, input.prevoutScript.length ≤ maxPrevoutScript
  txid : tx.txid.length = txidBytes
  prevoutTxids : ∀ input ∈ tx.inputs, input.prevoutTxid.length = txidBytes

/-- Scripts of at most half the length the constants stand for. -/
structure HalfScripts : Prop where
  scripts : 2 * ((tx.inputs.map fun input =>
    input.scriptSig.length + input.leafScript.length).sum +
    (tx.outputs.map fun output => output.script.length).sum) ≤ maxTxScan
  prevoutScripts : ∀ input ∈ tx.inputs, 2 * input.prevoutScript.length ≤ maxPrevoutScript

/-- A script that is part of the transaction or of a previous output, as against a
transaction id or a literal. -/
def isScript : Expr → Bool
  | .attr .output "script" _ | .attr .input "script_sig" _ | .attr .input "leaf_script" _
  | .attr .input "prevout_script" _ => true
  | _ => false

/-- The length of a receiver that is written in the rule. -/
def literalLength : Expr → Nat
  | .bytes value _ => value.length
  | _ => 0

/-- The model covers a call, inside a quantifier or outside. A comparison of fixed length is
counted for one element, unless its receiver is a previous output's script. -/
def CoveredCall (inside : Bool) (recv : Expr) : MethodCall → Prop
  | .len | .countOp _ | .maxPush | .wellFormed => True
  | .startsWith _ | .endsWith _ => inside = false ∨ (scanBound recv).2 = true
  | .contains _ => isScript recv = true ∨ inside = false ∧ literalLength recv ≤ maxTxScan
  | .containsOps _ => HalfScripts tx

/-- The model covers the expression on a transaction of these sizes. -/
def Covered : Bool → Expr → Prop
  | inside, .unary _ expr _ => Covered inside expr
  | inside, .binary _ lhs rhs _ => Covered inside lhs ∧ Covered inside rhs
  | inside, .method recv call _ => Covered inside recv ∧ CoveredCall tx inside recv call
  | _, .quant _ domain body _ =>
    2 * (elements tx domain).length ≤ maxElements domain ∧ Covered true body
  | _, _ => True

/-! ## Receivers -/

/-- What an expression can be evaluated for, inside a quantifier or outside. -/
def bindings : Option Domain → List Binder
  | none => [.top]
  | some domain => elements tx domain

/-- The length of what a receiver comes to. -/
def receiverLength (recv : Expr) (binder : Binder) : Nat :=
  ((meaning tx ctx recv binder).bind Value.bytes?).elim 0 List.length

/-- The fuel of a call with the given element bound. -/
def scanWork (recv : Expr) (call : MethodCall) (binder : Binder) : Nat :=
  ((meaning tx ctx recv binder).bind Value.bytes?).elim 0 fun bytes => callWork bytes call

variable {tx} {domain : Option Domain} {items : List Binder} {recv expr : Expr} {bound : Nat}
  {call : MethodCall} {type : Ty} {field : String} {α : Type}

theorem scanWork_le (binder : Binder) :
    scanWork tx ctx recv call binder ≤
      passes call * receiverLength tx ctx recv binder * perByte call + perCall call := by
  unfold scanWork receiverLength
  cases (meaning tx ctx recv binder).bind Value.bytes? with
  | none => exact zero_le
  | some bytes => exact callWork_le call

/-- The elements' receivers together are within the bound, and what the call costs for each
element is paid at most once. -/
theorem scanWork_sum_shared
    (total : passes call * (items.map (receiverLength tx ctx recv)).sum * perByte call ≤
      bound * perByte call)
    (once : items.length * perCall call ≤ perCall call) :
    (items.map (scanWork tx ctx recv call)).sum ≤ exactScanned bound call := by
  have perItem : ∀ item ∈ items, scanWork tx ctx recv call item ≤
      passes call * receiverLength tx ctx recv item * perByte call + perCall call :=
    fun item _ => scanWork_le ctx item
  have paid := sum_le_sum perItem
  have whole : (items.map fun item =>
      passes call * receiverLength tx ctx recv item * perByte call + perCall call).sum =
      passes call * (items.map (receiverLength tx ctx recv)).sum * perByte call +
        items.length * perCall call := by
    rw [sum_map_add, sum_map_mul_right, sum_map_mul_left, map_const', sum_replicate, smul_eq_mul]
  rw [exactScanned_eq]
  omega

/-- Every element's receiver is within the bound. -/
theorem scanWork_sum_recurring
    (short : ∀ item ∈ items, passes call * receiverLength tx ctx recv item ≤ bound) :
    (items.map (scanWork tx ctx recv call)).sum ≤ items.length * exactScanned bound call := by
  have perItem : ∀ item ∈ items, scanWork tx ctx recv call item ≤ exactScanned bound call := by
    intro item member
    rw [exactScanned_eq]
    exact (scanWork_le ctx item).trans
      (Nat.add_le_add_right (Nat.mul_le_mul_right _ (short item member)) _)
  have sum := sum_le_card_nsmul (items.map (scanWork tx ctx recv call))
    (exactScanned bound call) (forall_mem_map.mpr perItem)
  simpa only [length_map, smul_eq_mul] using sum

/-- Only literals and attributes are bytes. -/
theorem Typed.bytes_receiver {script : Bool} (typed : Typed domain recv type)
    (isBytes : type = .bytes script) :
    (∃ value span, recv = .bytes value span ∧ script = false) ∨
      ∃ root field span, recv = .attr root field span ∧ root.Bound domain ∧
        attrTable root field = some (.bytes script) := by
  cases typed with
  | @bytes _ value span =>
    cases isBytes
    exact .inl ⟨value, span, rfl, rfl⟩
  | @attr _ root field span _ bound known =>
    subst isBytes
    exact .inr ⟨root, field, span, rfl, bound, known⟩
  | bool | int | enum | not | logical | arithmetic | ordering | equality => cases isBytes
  | @method _ _ call => cases call <;> cases isBytes
  | @quant kind => cases kind <;> cases isBytes

/-- The attributes that are bytes, with those that are a script apart. -/
theorem attrTable_bytes {root : Root} {script : Bool}
    (known : attrTable root field = some (.bytes script)) :
    if script then
      (root = .output ∧ field = "script") ∨ (root = .input ∧ field = "script_sig") ∨
        (root = .input ∧ field = "leaf_script") ∨ (root = .input ∧ field = "prevout_script")
    else (root = .tx ∧ field = "txid") ∨ (root = .input ∧ field = "prevout_txid") := by
  cases root with
  | tx =>
    simp only [attrTable, txAttrType] at known
    split at known <;> cases known
    exact .inl ⟨rfl, rfl⟩
  | node =>
    simp only [attrTable, nodeAttrType] at known
    split at known <;> cases known
  | output =>
    simp only [attrTable, outAttrType] at known
    split at known <;> cases known
    exact .inl ⟨rfl, rfl⟩
  | input =>
    simp only [attrTable, inAttrType] at known
    split at known <;> cases known <;> simp

/-- Bytes of fixed length: outside a quantifier they are compared once, inside one a covered
call only asks for their length. -/
theorem scanWork_sum_fixed (part : items.Sublist (bindings tx domain)) (notScript :
      isScript recv = false) (notRecurring : (scanBound recv).2 = false)
    (flat : call.readsScript = false) (covered : CoveredCall tx domain.isSome recv call)
    (short : literalLength recv ≤ maxTxScan →
      ∀ item ∈ items, receiverLength tx ctx recv item ≤ bound) :
    (items.map (scanWork tx ctx recv call)).sum ≤ exactScanned bound call := by
  have single (outside : domain.isSome = false) : items.length ≤ 1 := by
    obtain rfl := Option.isSome_eq_false_iff.mp outside |> Option.isNone_iff_eq_none.mp
    simpa [bindings] using part.length_le
  cases call with
  | len => exact scanWork_sum_shared ctx (by simp [perByte]) (by simp [perCall])
  | startsWith needle | endsWith needle =>
    simp only [CoveredCall, notRecurring, Bool.false_eq_true, or_false] at covered
    exact scanWork_sum_shared ctx (by simp [perByte])
      ((Nat.mul_le_mul_right _ (single covered)).trans (one_mul _).le)
  | contains needle =>
    simp only [CoveredCall, notScript, Bool.false_eq_true, false_or] at covered
    refine scanWork_sum_shared ctx (Nat.mul_le_mul_right _ ?_) (by simp [perCall])
    simp only [passes, one_mul]
    have sum := sum_le_card_nsmul (items.map (receiverLength tx ctx recv)) bound
      (forall_mem_map.mpr (short covered.2))
    rw [length_map, smul_eq_mul] at sum
    exact sum.trans ((Nat.mul_le_mul_right _ (single covered.1)).trans (one_mul _).le)
  | countOp | maxPush | wellFormed | containsOps => cases flat

/-- Scripts of the transaction: they are within the bound all together, twice if the call reads
them twice. -/
theorem scanWork_sum_scripts (domain : Domain) (limits : WithinLimits tx)
    (part : items.Sublist (bindings tx (some domain))) (covered : CoveredCall tx true recv call)
    (notRecurring : (scanBound recv).2 = false)
    (resident : ((elements tx domain).map (receiverLength tx ctx recv)).sum ≤
      (tx.inputs.map fun input => input.scriptSig.length + input.leafScript.length).sum +
        (tx.outputs.map fun output => output.script.length).sum) :
    (items.map (scanWork tx ctx recv call)).sum ≤ exactScanned maxTxScan call := by
  have fewer : (items.map (receiverLength tx ctx recv)).sum ≤
      ((elements tx domain).map (receiverLength tx ctx recv)).sum :=
    (part.map _).sum_le_sum fun _ _ => zero_le
  have within := limits.scripts
  refine scanWork_sum_shared ctx (Nat.mul_le_mul_right _ ?_) ?_
  · cases call with
    | containsOps =>
      have half := HalfScripts.scripts covered
      simp only [passes]
      omega
    | _ =>
      simp only [passes]
      omega
  · cases call with
    | startsWith | endsWith => simp [CoveredCall, notRecurring] at covered
    | _ => simp [perCall]

section

variable (limits : WithinLimits tx)
include limits

/-- What a scan takes over some elements is within what the model counts for it. -/
theorem scanWork_sum_le (part : items.Sublist (bindings tx domain)) {script : Bool}
    (readable : call.readsScript = true → script = true)
    (receiver : Typed domain recv (.bytes script))
    (covered : CoveredCall tx domain.isSome recv call) :
    (items.map (scanWork tx ctx recv call)).sum ≤
      (if (scanBound recv).2 then items.length else 1) * exactScanned (scanBound recv).1 call := by
  have notScript (isFlat : script = false) : call.readsScript = false := by
    cases reads : call.readsScript with
    | false => rfl
    | true => exact absurd (readable reads) (by simp [isFlat])
  rcases receiver.bytes_receiver rfl with ⟨value, span, rfl, isFlat⟩ | ⟨root, field, span, rfl,
    bound, known⟩
  · rw [if_neg (by simp [scanBound]), one_mul]
    exact scanWork_sum_fixed ctx part rfl rfl (notScript isFlat) covered fun short _ _ => short
  · cases script with
    | false =>
      obtain ⟨rfl, rfl⟩ | ⟨rfl, rfl⟩ := attrTable_bytes known
      · rw [if_neg (by simp [scanBound]), one_mul]
        exact scanWork_sum_fixed ctx part rfl rfl (notScript rfl) covered fun _ _ _ =>
          limits.txid.le
      · obtain rfl : domain = some .inputs := bound
        rw [if_neg (by simp [scanBound]), one_mul]
        refine scanWork_sum_fixed ctx part rfl rfl (notScript rfl) covered ?_
        intro _ item member
        obtain ⟨input, isInput, rfl⟩ := mem_map.mp (part.subset member)
        exact (limits.prevoutTxids input isInput).le
    | true =>
      obtain ⟨rfl, rfl⟩ | ⟨rfl, rfl⟩ | ⟨rfl, rfl⟩ | ⟨rfl, rfl⟩ := attrTable_bytes known
      · obtain rfl : domain = some .outputs := bound
        rw [if_neg (by simp [scanBound]), one_mul]
        refine scanWork_sum_scripts ctx .outputs limits part covered rfl ?_
        rw [elements, map_map]
        exact Nat.le_add_left _ _
      · obtain rfl : domain = some .inputs := bound
        rw [if_neg (by simp [scanBound]), one_mul]
        refine scanWork_sum_scripts ctx .inputs limits part covered rfl ?_
        rw [elements, map_map]
        exact (sum_le_sum fun _ _ => Nat.le_add_right _ _).trans (Nat.le_add_right _ _)
      · obtain rfl : domain = some .inputs := bound
        rw [if_neg (by simp [scanBound]), one_mul]
        refine scanWork_sum_scripts ctx .inputs limits part covered rfl ?_
        rw [elements, map_map]
        exact (sum_le_sum fun _ _ => Nat.le_add_left _ _).trans (Nat.le_add_right _ _)
      · obtain rfl : domain = some .inputs := bound
        refine scanWork_sum_recurring ctx ?_
        intro item member
        obtain ⟨input, isInput, rfl⟩ := mem_map.mp (part.subset member)
        cases call with
        | containsOps => exact HalfScripts.prevoutScripts covered input isInput
        | _ => exact (one_mul _).le.trans (limits.prevoutScripts input isInput)

end

/-! ## Expressions -/

theorem visited_sublist (settles : α → Bool) (items : List α) :
    (visited settles items).Sublist items := by
  induction items with
  | nil => exact .refl _
  | cons item rest ih =>
    simp only [visited]
    split
    · exact singleton_sublist.mpr mem_cons_self
    · exact ih.cons_cons item

/-- Every expression is at least one visit. -/
theorem exactCost_flat_pos (expr : Expr) : 0 < exactCost .flat expr := by
  cases expr <;> simp only [exactCost, visitOn] <;> omega

/-- What the model counts for an expression that is evaluated for some elements. -/
def share (count : Nat) (expr : Expr) : Nat :=
  count * exactCost .flat expr + exactCost .scan expr + count * exactCost .scanElem expr

/-- Half the elements leave room for a unit each. -/
theorem add_share_le {count : Nat} {domain : Domain} (half : 2 * count ≤ maxElements domain)
    (body : Expr) : count + share count body ≤ share (maxElements domain) body := by
  have unit : count ≤ count * exactCost .flat body :=
    Nat.le_mul_of_pos_right _ (exactCost_flat_pos body)
  have flat := Nat.mul_le_mul_right (exactCost .flat body) half
  have scanElem := Nat.mul_le_mul_right (exactCost .scanElem body) half
  simp only [share]
  rw [mul_assoc] at flat scanElem
  omega

/-- A covered expression, evaluated for some elements, takes no more fuel than the model counts
for so many. The induction is on the typing, one case for every form of expression. -/
theorem work_sum_le (limits : WithinLimits tx) (typed : Typed domain expr type)
    (covered : Covered tx domain.isSome expr) (items : List Binder)
    (part : items.Sublist (bindings tx domain)) :
    (items.map (work tx ctx expr)).sum ≤ share items.length expr := by
  induction typed generalizing items with
  | bool | int | bytes | enum | attr => simp [work, share, exactCost, visitOn, map_const']
  | not operand ih =>
    have inner := ih covered items part
    simp only [work, sum_map_add, map_const', sum_replicate, smul_eq_mul, mul_one, share,
      exactCost, visitOn, mul_add] at inner ⊢
    omega
  | @logical _ op lhs rhs _ _ _ _ leftIh rightIh
  | @arithmetic _ op _ lhs rhs _ _ _ _ leftIh rightIh
  | @ordering _ op _ lhs rhs _ _ _ _ leftIh rightIh
  | @equality _ op lhs rhs _ _ _ _ _ _ _ leftIh rightIh =>
    have left := leftIh covered.1 items part
    have right := rightIh covered.2 items part
    -- the right operand is looked at for some of the elements only
    have looked : (items.map fun item => if op.settledBy (meaning tx ctx lhs item) then 0
        else work tx ctx rhs item).sum ≤ (items.map (work tx ctx rhs)).sum :=
      sum_le_sum fun item _ => by split <;> omega
    simp only [work, sum_map_add, map_const', sum_replicate, smul_eq_mul, mul_one, share,
      exactCost, visitOn, mul_add] at left right looked ⊢
    omega
  | @method domain recv call script span readable receiver ih =>
    have operand := ih covered.1 items part
    have scans := scanWork_sum_le ctx limits part readable receiver covered.2
    have whole : (items.map (work tx ctx (.method recv call span))).sum =
        items.length + (items.map (work tx ctx recv)).sum +
          (items.map (scanWork tx ctx recv call)).sum := by
      simp only [work, sum_map_add, map_const', sum_replicate, smul_eq_mul, mul_one]
      rfl
    rw [whole]
    simp only [share, exactCost, visitOn, scanAxis, mul_add] at operand ⊢
    split at scans <;> rename_i recurring <;>
      simp only [recurring, if_true, if_false, reduceCtorEq, Bool.false_eq_true] <;> omega
  | @quant kind domain body span inner ih =>
    -- outside a quantifier there is at most one binding
    have single : items.length ≤ 1 := by simpa [bindings] using part.length_le
    rcases items with _ | ⟨item, _ | ⟨_, _⟩⟩
    · exact zero_le
    · have few := visited_sublist
        (fun element => kind.settledBy (meaning tx ctx body element)) (elements tx domain)
      have each := ih covered.2 _ few
      have room := add_share_le ((Nat.mul_le_mul_left 2 few.length_le).trans covered.1) body
      simp only [share, timesOn, exactCost, visitOn, work, map_cons, map_nil, sum_cons, sum_nil,
        length_singleton, sum_map_add, map_const', sum_replicate, smul_eq_mul, mul_one,
        one_mul] at each room ⊢
      omega
    · simp at single

/-- The fuel of a covered expression is within its cost. -/
theorem work_le (limits : WithinLimits tx) (typed : Typed none expr type)
    (covered : Covered tx false expr) : work tx ctx expr .top ≤ exactTotal expr := by
  have sum := work_sum_le ctx limits typed covered [.top] (.refl _)
  simpa [share, exactTotal] using sum

end Views

end Satd.Policy
