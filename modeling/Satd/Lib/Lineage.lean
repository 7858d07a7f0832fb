import Mathlib.Tactic

/-!
# Lineages

Nodes that each know how deep they lie and which node they hang on. In a linked view the
node they hang on lies one level higher, so a node has exactly one ancestor at every
level down to its own.
-/

namespace Lineage

universe u

variable {α : Type u}

/-- The depth of a node and the name of its parent. -/
abbrev View (α : Type u) := α → Option (Nat × α)

/-- A node that is not at the top hangs on one that is one level higher. -/
def Linked (view : View α) : Prop :=
  ∀ node depth parent, view node = some (depth + 1, parent) →
    ∃ grandparent, view parent = some (depth, grandparent)

/-- Go up a number of levels. -/
def up (view : View α) : Nat → α → α
  | 0, node => node
  | steps + 1, node =>
    match view node with
    | some (_, parent) => up view steps parent
    | none => node

/-- The ancestor at a level, the node itself included. -/
def ancestorAt (view : View α) (node : α) (level : Nat) : Option α :=
  match view node with
  | some (depth, _) => if level ≤ depth then some (up view (depth - level) node) else none
  | none => none

variable {view : View α} {node parent : α} {depth level : Nat}

section

variable (here : view node = some (depth, parent))
include here

theorem ancestorAt_self : ancestorAt view node depth = some node := by
  simp [ancestorAt, here, up]

theorem ancestorAt_deeper (deeper : depth < level) : ancestorAt view node level = none := by
  simp [ancestorAt, here, Nat.not_le.mpr deeper]

theorem ancestorAt_isSome : (ancestorAt view node level).isSome ↔ level ≤ depth := by
  by_cases within : level ≤ depth <;> simp [ancestorAt, here, within]

end

/-- Above a node its ancestors are those of its parent. -/
theorem ancestorAt_parent (linked : Linked view) (here : view node = some (depth + 1, parent))
    (higher : level ≤ depth) : ancestorAt view node level = ancestorAt view parent level := by
  obtain ⟨grandparent, above⟩ := linked node depth parent here
  have steps : depth + 1 - level = (depth - level) + 1 := by omega
  have within : level ≤ depth + 1 := by omega
  simp only [ancestorAt, here, above, if_pos higher, if_pos within, steps, up]

theorem up_add (first second : Nat) (node : α) :
    up view (first + second) node = up view second (up view first node) := by
  induction first generalizing node with
  | zero => rw [zero_add, up]
  | succ first ih =>
    rw [Nat.add_right_comm]
    cases here : view node with
    | none => cases second <;> simp [up, here]
    | some entry => simpa only [up, here] using ih entry.2

section

variable (linked : Linked view)
include linked

theorem view_up {steps : Nat} (here : view node = some (steps + level, parent)) :
    ∃ grandparent, view (up view steps node) = some (level, grandparent) := by
  induction steps generalizing node parent with
  | zero => exact ⟨parent, by simpa [up] using here⟩
  | succ steps ih =>
    rw [Nat.add_right_comm] at here
    obtain ⟨grandparent, above⟩ := linked node _ parent here
    simpa only [up, here] using ih above

variable {ancestor : α} (found : ancestorAt view node level = some ancestor)
include found

omit linked in
theorem up_of_ancestorAt : ∃ depth parent, view node = some (depth, parent) ∧ level ≤ depth ∧
    up view (depth - level) node = ancestor := by
  cases here : view node with
  | none => simp [ancestorAt, here] at found
  | some entry => exact ⟨_, _, rfl, by simpa [ancestorAt, here] using found⟩

/-- An ancestor lies at the level it was asked for. -/
theorem view_of_ancestorAt : ∃ grandparent, view ancestor = some (level, grandparent) := by
  obtain ⟨depth, parent, here, within, rfl⟩ := up_of_ancestorAt found
  exact view_up linked (by rw [here, Nat.sub_add_cancel within])

/-- The ancestors of an ancestor are those of the node. -/
theorem ancestorAt_ancestor {higher : Nat} (order : higher ≤ level) :
    ancestorAt view node higher = ancestorAt view ancestor higher := by
  obtain ⟨grandparent, there⟩ := view_of_ancestorAt linked found
  obtain ⟨depth, parent, here, within, rfl⟩ := up_of_ancestorAt found
  have steps : depth - higher = depth - level + (level - higher) := by omega
  simp only [ancestorAt, here, there, if_pos order, if_pos (order.trans within), steps, up_add]

end

/-- A view that knows more nodes agrees on the ancestors of those known before. -/
theorem ancestorAt_extend {larger : View α} (linked : Linked view)
    (grown : ∀ node entry, view node = some entry → larger node = some entry)
    (here : view node = some (depth, parent)) :
    ancestorAt larger node level = ancestorAt view node level := by
  have same {steps depth : Nat} {node parent : α} (here : view node = some (depth, parent))
      (within : steps ≤ depth) : up larger steps node = up view steps node := by
    induction steps generalizing node parent depth with
    | zero => rfl
    | succ steps ih =>
      obtain ⟨depth, rfl⟩ := Nat.exists_eq_add_of_lt within
      obtain ⟨grandparent, above⟩ := linked node _ parent here
      simpa only [up, here, grown _ _ here] using ih above (Nat.le_add_right _ _)
  simp only [ancestorAt, here, grown _ _ here, same here (Nat.sub_le _ _)]

end Lineage
