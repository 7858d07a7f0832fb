import Mathlib.Data.Nat.Bitwise
import Mathlib.Tactic

/-!
# Merkle branches

The root that validation computes over the hashes of a block, the branch of sibling
hashes a server hands out for one of them, and the fold by which a client gets back to
the root. The hash of a pair is a parameter.
-/

namespace Satd.Validation

open List

variable {α : Type} (hash : α → α → α)

/-- A level with its last entry doubled if their number is odd. -/
def padded (level : List α) : List α :=
  if level.length % 2 = 0 then level else level ++ level.getLast?.toList

def pairs : List α → List α
  | left :: right :: rest => hash left right :: pairs rest
  | _ => []

/-- Levels are paired up until one entry is left. -/
def merkleLoop : Nat → List α → List α
  | 0, level => level
  | fuel + 1, level =>
    if level.length ≤ 1 then level else merkleLoop fuel (pairs hash (padded level))

def computeMerkleRootFromHashes (zero : α) (hashes : List α) : α :=
  (merkleLoop hash hashes.length hashes).headD zero

/-- The siblings up to the last level. The source would panic if one were missing. -/
def branchLoop : Nat → List α → Nat → List α
  | 0, _, _ => []
  | fuel + 1, level, idx =>
    if level.length ≤ 1 then []
    else (padded level)[idx ^^^ 1]?.toList ++ branchLoop fuel (pairs hash (padded level)) (idx / 2)

def computeMerkleBranch (txids : List α) (pos : Nat) : List α :=
  if txids.isEmpty ∨ txids.length ≤ pos then [] else branchLoop hash txids.length txids pos

def rootFromBranch : α → List α → Nat → α
  | acc, [], _ => acc
  | acc, sibling :: rest, pos =>
    rootFromBranch (if pos % 2 = 0 then hash acc sibling else hash sibling acc) rest (pos / 2)

section

variable {hash} {level : List α} {entry : α} {idx : Nat}

theorem xor_one_add_two (idx : Nat) : (idx + 2) ^^^ 1 = (idx ^^^ 1) + 2 := by
  rcases Nat.even_or_odd idx with even | odd
  · rw [Nat.xor_one_of_even even, Nat.xor_one_of_even (by simpa [Nat.even_add] using even)]
  · rw [Nat.xor_one_of_odd odd, Nat.xor_one_of_odd (by simpa [Nat.odd_add] using odd)]
    have positive := odd.pos
    omega

/-- The parent of an entry is the hash of it and its sibling. -/
theorem getElem?_pairs (hash : α → α → α) (even : level.length % 2 = 0)
    (found : level[idx]? = some entry) :
    ∃ sibling, level[idx ^^^ 1]? = some sibling ∧ (pairs hash level)[idx / 2]? =
      some (if idx % 2 = 0 then hash entry sibling else hash sibling entry) := by
  induction idx using Nat.twoStepInduction generalizing level with
  | zero | one =>
    rcases level with _ | ⟨left, _ | ⟨right, rest⟩⟩
    · simp at found
    · simp at even
    · simp_all [pairs]
  | more idx ih _ =>
    rcases level with _ | ⟨left, _ | ⟨right, rest⟩⟩
    · simp at found
    · simp at even
    · rw [length_cons, length_cons, add_assoc, Nat.add_mod_right] at even
      obtain ⟨sibling, isSibling, parent⟩ := ih even (by simpa using found)
      exact ⟨sibling, by simpa [xor_one_add_two] using isSibling, by simpa [pairs] using parent⟩

theorem length_padded (level : List α) : (padded level).length = (level.length + 1) / 2 * 2 := by
  rw [padded]
  split
  · omega
  · cases level with
    | nil => contradiction
    | cons first rest =>
      simp [getLast?_cons] at *
      omega

theorem length_pairs (level : List α) : (pairs hash level).length = level.length / 2 := by
  induction level using pairs.induct with
  | case1 left right rest ih =>
    rw [pairs, length_cons, ih, length_cons, length_cons]
    omega
  | case2 level short =>
    rcases level with _ | ⟨left, _ | ⟨right, rest⟩⟩
    · simp [pairs]
    · simp [pairs]
    · exact absurd rfl (short left right rest)

/-- Folding an entry along its branch gives the last level. -/
theorem rootFromBranch_branchLoop {fuel : Nat} (enough : level.length ≤ fuel + 1)
    (found : level[idx]? = some entry) :
    merkleLoop hash fuel level =
      [rootFromBranch hash entry (branchLoop hash fuel level idx) idx] := by
  have alone {level : List α} {idx : Nat} {entry : α} (found : level[idx]? = some entry)
      (short : level.length ≤ 1) : level = [entry] := by
    rcases level with _ | ⟨first, _ | _⟩
    · simp at found
    · cases idx <;> simp_all
    · simp at short
  induction fuel generalizing level idx entry with
  | zero => exact alone found enough
  | succ fuel ih =>
    rw [merkleLoop, branchLoop]
    split_ifs with short
    · exact alone found short
    · have size := length_padded level
      have inside : (padded level)[idx]? = some entry := by
        rw [padded]
        split
        · exact found
        · rw [getElem?_append_left (List.getElem?_eq_some_iff.mp found).1, found]
      obtain ⟨sibling, isSibling, parent⟩ := getElem?_pairs hash (by omega) inside
      rw [isSibling, ih (by rw [length_pairs]; omega) parent]
      rfl

/-- With an injective hash, a fold is reached from one entry along one branch only. -/
theorem rootFromBranch_injective
    (injective : ∀ {left right left' right'}, hash left right = hash left' right' →
      left = left' ∧ right = right') {entry other : α} {branch others : List α} {pos : Nat}
    (length : branch.length = others.length)
    (same : rootFromBranch hash entry branch pos = rootFromBranch hash other others pos) :
    entry = other ∧ branch = others := by
  induction branch generalizing entry other others pos with
  | nil =>
    cases others with
    | nil => exact ⟨same, rfl⟩
    | cons => cases length
  | cons sibling rest ih =>
    cases others with
    | nil => cases length
    | cons sibling' rest' =>
      obtain ⟨parents, rfl⟩ := ih (Nat.succ.inj length) same
      split at parents
      · obtain ⟨rfl, rfl⟩ := injective parents
        exact ⟨rfl, rfl⟩
      · obtain ⟨rfl, rfl⟩ := injective parents
        exact ⟨rfl, rfl⟩

end

/-- Folding a hash along its branch gives the root. With an injective pair hash, nothing else at
its position and no other branch of that length does. -/
theorem merkle_branches (zero : α) {txids : List α} {pos : Nat} {txid : α}
    (found : txids[pos]? = some txid) :
    rootFromBranch hash txid (computeMerkleBranch hash txids pos) pos =
        computeMerkleRootFromHashes hash zero txids ∧
      ((∀ {left right left' right'}, hash left right = hash left' right' →
          left = left' ∧ right = right') →
        ∀ other branch, branch.length = (computeMerkleBranch hash txids pos).length →
          rootFromBranch hash other branch pos = computeMerkleRootFromHashes hash zero txids →
          other = txid ∧ branch = computeMerkleBranch hash txids pos) := by
  have inside := (List.getElem?_eq_some_iff.mp found).1
  have complete : rootFromBranch hash txid (computeMerkleBranch hash txids pos) pos =
      computeMerkleRootFromHashes hash zero txids := by
    rw [computeMerkleRootFromHashes, rootFromBranch_branchLoop (Nat.le_succ _) found,
      computeMerkleBranch, if_neg]
    · rfl
    · rw [isEmpty_iff_length_eq_zero]
      omega
  refine ⟨complete, fun injective other branch length same => ?_⟩
  exact rootFromBranch_injective injective length (same.trans complete.symm)

theorem merkle_branches_of_three :
    rootFromBranch Nat.pair 7 (computeMerkleBranch Nat.pair [5, 6, 7] 2) 2 =
        computeMerkleRootFromHashes Nat.pair 0 [5, 6, 7] ∧
      ∀ other branch, branch.length = 2 →
        rootFromBranch Nat.pair other branch 2 =
          computeMerkleRootFromHashes Nat.pair 0 [5, 6, 7] → other = 7 := by
  obtain ⟨complete, sound⟩ := merkle_branches Nat.pair 0 (rfl : [5, 6, 7][2]? = some 7)
  exact ⟨complete, fun other branch length same =>
    (sound Nat.pair_eq_pair.mp other branch length same).1⟩

end Satd.Validation
