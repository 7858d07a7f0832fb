import Satd.Consensus.Opcode

/-!
# What `FindAndDelete` deletes

The walk stands at the boundaries of the instructions of the script as it is given. At each it
steps over every occurrence of the pattern that starts there, and then over one instruction.
-/

namespace Satd.Consensus

open Rust Outcome List

variable (script pattern : Bytes)

/-- The pattern occurs in the script at a position. -/
def Occurs (pc : Nat) : Prop := pattern <+: script.drop pc

/-- What the walk from a boundary leaves of the rest of the script, and how many occurrences it
deletes. A rest that is no instruction stays whole. -/
inductive Walk : Nat → Bytes → Nat → Prop where
  | occurrence {pc rest count} (here : Occurs script pattern pc)
      (walk : Walk (pc + pattern.length) rest count) : Walk pc rest (count + 1)
  | instruction {pc read rest count} (absent : ¬Occurs script pattern pc)
      (reads : readInstruction script pc = .ok (some read)) (walk : Walk read.pc rest count) :
      Walk pc ((script.drop pc).take (read.pc - pc) ++ rest) count
  | tail {pc} (absent : ¬Occurs script pattern pc) (reads : readInstruction script pc = .ok none) :
      Walk pc (script.drop pc) 0

variable {script pattern} {pc : Nat}

theorem readPush_eq {opcode : UInt8} {start length : Nat} :
    ∃ read, readPush script opcode start length = .ok read ∧
      (.ok (min (start + length) script.length) : Exec Nat) =
        .ok (read.elim script.length Instruction.pc) := by
  rw [readPush]
  split
  next cut => exact ⟨none, rfl, congrArg _ (min_eq_right cut.le)⟩
  next fits =>
    rw [slice_eq_ok (by omega) (by omega)]
    exact ⟨_, rfl, congrArg _ (min_eq_left (not_lt.mp fits))⟩

theorem pushLength2_eq_ok (inside : pc + 1 < script.length) :
    ∃ length, pushLength2 script pc = .ok length := by
  simp [pushLength2, index_eq_ok inside, index_eq_ok (Nat.lt_of_succ_lt inside)]

theorem pushLength4_eq_ok (inside : pc + 3 < script.length) :
    ∃ length, pushLength4 script pc = .ok length := by
  have byte : ∀ position ≤ pc + 3, ∃ byte, (index script position : Exec UInt8) = .ok byte :=
    fun position before => ⟨_, index_eq_ok (by omega)⟩
  obtain ⟨byte0, read0⟩ := byte pc (by omega)
  obtain ⟨byte1, read1⟩ := byte (pc + 1) (by omega)
  obtain ⟨byte2, read2⟩ := byte (pc + 2) (by omega)
  obtain ⟨byte3, read3⟩ := byte (pc + 3) le_rfl
  exact ⟨_, by rw [pushLength4, read0, read1, read2, read3]; rfl⟩

/-- Stepping over an instruction is reading it; where none can be read it goes to the end. -/
theorem skipInstruction_eq (inside : pc < script.length) :
    ∃ read, readInstruction script pc = .ok read ∧
      skipInstruction script pc = .ok (read.elim script.length Instruction.pc) := by
  rw [readInstruction, skipInstruction, if_neg (by omega), index_eq_ok inside]
  simp only [ok_bind]
  generalize script[pc] = opcode
  by_cases zero : opcode = 0
  · subst zero
    exact ⟨_, rfl, by simp; omega⟩
  rw [if_neg (by simpa using zero)]
  split
  · exact readPush_eq
  split
  · by_cases cut : pc + 1 ≥ script.length
    · rw [if_pos cut, if_neg (by omega)]
      exact ⟨none, rfl, by simp; omega⟩
    · rw [if_neg cut, if_pos (by omega), index_eq_ok (by omega)]
      exact readPush_eq
  split
  · by_cases cut : pc + 1 + 1 ≥ script.length
    · rw [if_pos cut, if_neg (by omega)]
      exact ⟨none, rfl, rfl⟩
    · obtain ⟨length, read⟩ := pushLength2_eq_ok (not_le.mp cut)
      rw [if_neg cut, if_pos (by omega), read]
      exact readPush_eq
  split
  · by_cases cut : pc + 1 + 3 ≥ script.length
    · rw [if_pos cut, if_neg (by omega)]
      exact ⟨none, rfl, rfl⟩
    · obtain ⟨length, read⟩ := pushLength4_eq_ok (not_le.mp cut)
      rw [if_neg cut, if_pos (by omega), read]
      exact readPush_eq
  · exact ⟨_, rfl, rfl⟩

/-- Whatever the walk does from here, the walk from the start does after leaving `kept` and
deleting `count` occurrences. -/
def Reaches (script pattern kept : Bytes) (pc count : Nat) : Prop :=
  ∀ {rest more}, Walk script pattern pc rest more →
    Walk script pattern 0 (kept ++ rest) (count + more)

theorem readInstruction_end (past : script.length ≤ pc) :
    readInstruction script pc = .ok none := if_pos past

theorem Walk.end_eq (nonempty : pattern ≠ []) {rest : Bytes} {count : Nat}
    (walk : Walk script pattern script.length rest count) : rest = [] ∧ count = 0 := by
  cases walk with
  | occurrence here =>
    rw [Occurs, drop_length, prefix_nil] at here
    exact absurd here nonempty
  | instruction _ reads => cases (readInstruction_end le_rfl).symm.trans reads
  | tail => exact ⟨drop_length, rfl⟩

/-- Skipping the occurrences at a boundary is what the walk does there. -/
theorem skipMatches_walks (nonempty : pattern ≠ []) {kept : Bytes} {count : Nat}
    (inside : pc ≤ script.length) (reaches : Reaches script pattern kept pc count) :
    ∃ after, loop (skipMatchesPass script pattern) (script.length + 1) (pc, count) = .ok after ∧
      pc ≤ after.1 ∧ after.1 ≤ script.length ∧ ¬Occurs script pattern after.1 ∧
        Reaches script pattern kept after.1 after.2 := by
  have proper := length_pos_iff.mpr nonempty
  refine loop_eq_ok (fun state => pc ≤ state.1 ∧ state.1 ≤ script.length ∧
      Reaches script pattern kept state.1 state.2) (fun state => script.length - state.1) ?_ _ _
    ⟨le_rfl, inside, reaches⟩ (by simp only; omega)
  rintro ⟨pc, count⟩ ⟨after, inside, reaches⟩
  simp only [skipMatchesPass]
  split
  next fits =>
    rw [slice_eq_ok (by omega) fits, Nat.add_sub_cancel_left, ok_bind]
    split
    next found =>
      have here : Occurs script pattern pc := prefix_iff_eq_take.mpr (eq_of_beq found).symm
      refine ⟨_, rfl, ⟨by omega, fits, fun walk => ?_⟩, by simp only; omega⟩
      rw [add_assoc, add_comm 1]
      exact reaches (walk.occurrence here)
    next other =>
      exact ⟨_, rfl, after, inside, fun here => other (beq_iff_eq.mpr
        (prefix_iff_eq_take.mp here).symm), reaches⟩
  next short =>
    refine ⟨_, rfl, after, inside, fun here => short ?_, reaches⟩
    have := here.length_le
    rw [length_drop] at this
    omega

theorem take_append_rest {next : Nat} (forward : pc ≤ next) :
    (script.drop pc).take (next - pc) ++ script.drop next = script.drop pc := by
  have rest := take_append_drop (next - pc) (script.drop pc)
  rwa [drop_drop, Nat.add_sub_cancel' forward] at rest

/-- A walk that deletes nothing leaves everything. -/
theorem Walk.unchanged {rest : Bytes} (walk : Walk script pattern pc rest 0) :
    rest = script.drop pc := by
  generalize none : 0 = count at walk
  induction walk with
  | occurrence => cases none
  | @instruction pc read rest _ _ reads _ ih =>
    have forward := (readInstruction_safe.of_eq_ok reads read rfl).1
    rw [ih none, take_append_rest forward.le]
  | tail => rfl

theorem Walk.none_of_short (short : script.length < pattern.length) {rest : Bytes} {count : Nat}
    (walk : Walk script pattern pc rest count) : count = 0 := by
  induction walk with
  | occurrence here =>
    have := here.length_le
    rw [length_drop] at this
    omega
  | instruction _ _ _ ih => exact ih
  | tail => rfl

/-- The walk leads to one result only. -/
theorem Walk.unique {rest other : Bytes} {count more : Nat}
    (walk : Walk script pattern pc rest count) (second : Walk script pattern pc other more) :
    other = rest ∧ more = count := by
  induction walk generalizing other more with
  | occurrence here _ ih =>
    cases second with
    | occurrence _ walk =>
      obtain ⟨rfl, rfl⟩ := ih walk
      exact ⟨rfl, rfl⟩
    | instruction absent => exact absurd here absent
    | tail absent => exact absurd here absent
  | instruction absent reads _ ih =>
    cases second with
    | occurrence here => exact absurd here absent
    | instruction _ again walk =>
      cases reads.symm.trans again
      obtain ⟨rfl, rfl⟩ := ih walk
      exact ⟨rfl, rfl⟩
    | tail _ again => cases reads.symm.trans again
  | tail absent reads =>
    cases second with
    | occurrence here => exact absurd here absent
    | instruction _ again => cases reads.symm.trans again
    | tail => exact ⟨rfl, rfl⟩

theorem findAndDelete_walks (nonempty : pattern ≠ []) :
    ∃ kept count, findAndDelete script pattern = .ok (kept, count) ∧
      Walk script pattern 0 kept count := by
  obtain ⟨last, ran, inside, walk⟩ : ∃ last : DeleteState,
      loop (findAndDeletePass script pattern) (script.length + 1)
        { result := [], count := 0, pc := 0, pc2 := 0 } = .ok last ∧ last.pc2 ≤ script.length ∧
        Walk script pattern 0 (last.result ++ script.drop last.pc2) last.count := by
    refine loop_eq_ok (fun state => state.pc2 ≤ state.pc ∧ state.pc ≤ script.length ∧
        Reaches script pattern
          (state.result ++ (script.drop state.pc2).take (state.pc - state.pc2)) state.pc
          state.count)
      (fun state => script.length - state.pc) ?_ _ _
      ⟨le_rfl, zero_le, fun walk => by simpa using walk⟩ (by simp)
    rintro state ⟨ordered, inside, reaches⟩
    obtain ⟨⟨pc, count⟩, skipped, after, inside, absent, reaches⟩ :=
      skipMatches_walks nonempty inside reaches
    rw [findAndDeletePass, slice_eq_ok ordered (by omega), ok_bind, skipped, ok_bind]
    simp only
    split
    next past =>
      exact ⟨_, rfl, inside, reaches (.tail absent (readInstruction_end past))⟩
    next more =>
      obtain ⟨read, reads, stepped⟩ := skipInstruction_eq (not_le.mp more)
      rw [stepped]
      cases read with
      | none =>
        refine ⟨_, rfl, ⟨inside, le_rfl, fun walk => ?_⟩, by simp; omega⟩
        obtain ⟨rfl, rfl⟩ := walk.end_eq nonempty
        have whole : (script.drop pc).take (script.length - pc) = script.drop pc :=
          take_of_length_le (by simp)
        simp only [Option.elim_none, whole, append_nil]
        exact reaches (.tail absent reads)
      | some read =>
        obtain ⟨forward, within⟩ := readInstruction_safe.of_eq_ok reads read rfl
        refine ⟨_, rfl, ⟨forward.le, within, fun walk => ?_⟩, by simp; omega⟩
        rw [append_assoc]
        exact reaches (.instruction absent reads walk)
  have unchanged : last.count = 0 → Walk script pattern 0 script 0 := by
    intro none
    rw [none] at walk
    rwa [walk.unchanged] at walk
  rw [findAndDelete]
  split
  next early =>
    rw [List.isEmpty_iff] at early
    exact ⟨_, _, rfl, unchanged (walk.none_of_short (early.resolve_left nonempty))⟩
  next =>
    rw [ran, ok_bind]
    split
    next =>
      rw [slice_eq_ok inside le_rfl, take_of_length_le (by simp)]
      exact ⟨_, _, rfl, walk⟩
    next none => exact ⟨_, _, rfl, unchanged (by omega)⟩

/-- `FindAndDelete` ends and never reads outside the script. -/
theorem findAndDelete_safe {script pattern : Bytes} : Safe (findAndDelete script pattern) := by
  by_cases empty : pattern = []
  · rw [empty]
    trivial
  · obtain ⟨kept, count, ran, -⟩ := findAndDelete_walks empty
    rw [ran]
    trivial

/-- `FindAndDelete` returns what the walk over the script leaves, with the number of deletions;
when there is none that is the script. -/
theorem findAndDelete_exact (script : Bytes) (first : UInt8) (others : Bytes) :
    ∃ kept count, findAndDelete script (first :: others) = .ok (kept, count) ∧
      (∀ rest more, Walk script (first :: others) 0 rest more ↔ rest = kept ∧ more = count) ∧
      (count = 0 → kept = script) := by
  obtain ⟨kept, count, ran, walk⟩ := findAndDelete_walks (cons_ne_nil first others)
  refine ⟨kept, count, ran, fun rest more => ⟨walk.unique, ?_⟩, ?_⟩
  · rintro ⟨rfl, rfl⟩
    exact walk
  · rintro rfl
    exact walk.unchanged

end Satd.Consensus
