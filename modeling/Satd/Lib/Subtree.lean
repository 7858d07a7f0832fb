import Mathlib.Tactic

/-!
# Walking a subtree

A walk with a stack over nodes that know their children: take a node from the stack, push
its children, go on. No set of visited nodes is kept. In a forest it visits the root and
its descendants, each once, so a bound on the number of nodes bounds the walk
(`walk_settled`).
-/

namespace Subtree

open List

universe u

variable {α : Type u}

/-- The nodes taken from the stack, in order. The children of a node are taken last to
first. -/
def walk (children : α → List α) : Nat → List α → List α
  | 0, _ => []
  | _ + 1, [] => []
  | fuel + 1, node :: rest => node :: walk children fuel ((children node).reverse ++ rest)

/-- Every node is the child of one node at most, and lies deeper. -/
structure Forest (children : α → List α) (level : α → Nat) : Prop where
  nodup : ∀ node, (children node).Nodup
  parent : ∀ {child first second}, child ∈ children first → child ∈ children second → first = second
  deeper : ∀ {child node}, child ∈ children node → level node < level child

/-- Where a walk from a root stands: the nodes taken and those on the stack. -/
structure Settled (children : α → List α) (level : α → Nat) (root : α) (taken stack : List α) :
    Prop where
  nodup : (taken ++ stack).Nodup
  rooted : root ∈ taken ++ stack
  reached : ∀ node ∈ taken ++ stack, node = root ∨ ∃ above ∈ taken, node ∈ children above
  closed : ∀ node ∈ taken, ∀ child ∈ children node, child ∈ taken ++ stack
  below : ∀ node ∈ taken ++ stack, level root ≤ level node

theorem settled_start {children : α → List α} {level : α → Nat} {root : α} :
    Settled children level root [] [root] where
  nodup := by simp
  rooted := by simp
  reached node member := .inl (by simpa using member)
  closed node member := by simp at member
  below node member := by
    obtain rfl : node = root := by simpa using member
    exact le_rfl

variable {children : α → List α} {level : α → Nat} {root : α}

section

variable (forest : Forest children level)
include forest

variable {rest taken : List α} {domain : Finset α}

/-- A child of the node on top is neither taken nor on the stack. -/
theorem Settled.child_new {node : α} (settled : Settled children level root taken (node :: rest))
    {child : α} (isChild : child ∈ children node) : child ∉ taken ++ node :: rest := by
  intro known
  rcases settled.reached child known with rfl | ⟨above, earlier, alsoChild⟩
  · have notAbove := settled.below node (by simp)
    have deeper := forest.deeper isChild
    omega
  · obtain rfl := forest.parent alsoChild isChild
    have apart := disjoint_of_nodup_append settled.nodup
    exact apart earlier mem_cons_self

theorem Settled.step {node : α} (settled : Settled children level root taken (node :: rest)) :
    Settled children level root (taken ++ [node]) ((children node).reverse ++ rest) := by
  have split : ∀ other, other ∈ (taken ++ [node]) ++ ((children node).reverse ++ rest) ↔
      other ∈ taken ++ node :: rest ∨ other ∈ children node := by
    intro other
    simp only [mem_append, mem_cons, mem_reverse, not_mem_nil]
    tauto
  constructor
  · have shuffled : ((taken ++ [node]) ++ ((children node).reverse ++ rest)).Perm
        (children node ++ (taken ++ node :: rest)) := by
      calc ((taken ++ [node]) ++ ((children node).reverse ++ rest)).Perm
            ((taken ++ [node]) ++ (children node ++ rest)) :=
              ((reverse_perm _).append_right rest).append_left _
        _ = ((taken ++ [node]) ++ children node) ++ rest := (append_assoc ..).symm
        List.Perm _ ((children node ++ (taken ++ [node])) ++ rest) :=
              perm_append_comm.append_right rest
        _ = children node ++ (taken ++ node :: rest) := by simp
    rw [shuffled.nodup_iff, nodup_append']
    exact ⟨forest.nodup node, settled.nodup, fun child isChild known =>
      settled.child_new forest isChild known⟩
  · exact (split root).mpr (.inl settled.rooted)
  · intro other member
    rcases (split other).mp member with known | isChild
    · rcases settled.reached other known with rfl | ⟨above, earlier, isChild⟩
      · exact .inl rfl
      · exact .inr ⟨above, mem_append_left _ earlier, isChild⟩
    · exact .inr ⟨node, by simp, isChild⟩
  · intro other member child isChild
    rw [split]
    rcases mem_append.mp member with earlier | last
    · exact .inl (settled.closed other earlier child isChild)
    · obtain rfl := mem_singleton.mp last
      exact .inr isChild
  · intro other member
    rcases (split other).mp member with known | isChild
    · exact settled.below other known
    · have above := settled.below node (by simp)
      have deeper := forest.deeper isChild
      omega

/-- A walk within a finite domain runs to the end of its stack. -/
theorem Settled.run [DecidableEq α]
    (inside : ∀ node ∈ domain, ∀ child ∈ children node, child ∈ domain) {fuel : Nat}
    {stack : List α} (settled : Settled children level root taken stack)
    (within : ∀ node ∈ taken ++ stack, node ∈ domain) (enough : domain.card < taken.length + fuel) :
    Settled children level root (taken ++ walk children fuel stack) [] := by
  induction fuel generalizing taken stack with
  | zero =>
    have bounded : taken.length ≤ domain.card := by
      rw [← toFinset_card_of_nodup (List.Nodup.of_append_left settled.nodup)]
      exact Finset.card_le_card fun node member =>
        within node (mem_append_left _ (mem_toFinset.mp member))
    omega
  | succ fuel ih =>
    cases stack with
    | nil => simpa [walk] using settled
    | cons node rest =>
      have next := ih (settled.step forest)
        (fun other member => by
          have cases : other ∈ taken ++ node :: rest ∨ other ∈ children node := by
            simp only [mem_append, mem_cons, mem_reverse, not_mem_nil] at member ⊢
            tauto
          rcases cases with known | isChild
          · exact within other known
          · exact inside node (within node (by simp)) other isChild)
        (by simp only [length_append, length_singleton]; omega)
      simpa [walk] using next

/-- The walk from a root takes the root, with every node its children, and nothing that is
not reached from the root. -/
theorem walk_settled [DecidableEq α] (inside : ∀ node, ∀ child ∈ children node, child ∈ domain)
    (rooted : root ∈ domain) {fuel : Nat} (enough : domain.card < fuel) :
    Settled children level root (walk children fuel [root]) [] := by
  have settled : Settled children level root ([] ++ walk children fuel [root]) [] :=
    (settled_start).run forest
      (fun node _ child isChild => inside node child isChild)
      (fun node member => by
        obtain rfl : node = root := by simpa using member
        exact rooted)
      (by simpa using enough)
  simpa using settled

end

end Subtree
