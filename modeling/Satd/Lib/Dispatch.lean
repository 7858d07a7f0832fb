import Mathlib.Data.List.Nodup
import Mathlib.Data.Set.Insert

/-!
# Jobs handed out to workers

A dispatcher keeps its jobs twice over: for each job that is out, the worker that has it, and
for each worker it knows, the list of the jobs the worker has. The two tables are changed one
after another, so between two changes some jobs that are out are on no list. Those are the
excused ones: the invariant carries the set of them, and each rule says how a change of one
table moves it.
-/

namespace Dispatch

open Function List

universe u v

variable {α : Type u} {ω : Type v}

/-- Every list names distinct jobs, no more than the limit, all of them out to the worker, and
a job that is out and not excused is on the list of the worker that has it. -/
structure Held (out : α → Option ω) (lists : ω → Option (List α)) (limit : Nat)
    (excused : Set α) : Prop where
  distinct : ∀ {worker jobs}, lists worker = some jobs → jobs.Nodup
  limited : ∀ {worker jobs}, lists worker = some jobs → jobs.length ≤ limit
  holding : ∀ {worker jobs}, lists worker = some jobs → ∀ job ∈ jobs, out job = some worker
  listed : ∀ {job worker}, out job = some worker →
    job ∈ excused ∨ ∃ jobs, lists worker = some jobs ∧ job ∈ jobs

variable {out : α → Option ω} {lists : ω → Option (List α)} {limit : Nat} {excused : Set α}

theorem held_empty {limit : Nat} :
    Held (fun _ : α => (none : Option ω)) (fun _ => none) limit ∅ where
  distinct := by simp
  limited := by simp
  holding := by simp
  listed := by simp

section Strike

variable [DecidableEq α] [DecidableEq ω]

/-- A job comes off the list of a worker. -/
def strike (lists : ω → Option (List α)) (worker : ω) (job : α) : ω → Option (List α) :=
  update lists worker ((lists worker).map fun jobs => jobs.filter fun other => other ≠ job)

variable {jobs : List α} {worker : ω}

theorem strike_eq_some {other : ω} {job : α} (list : strike lists worker job other = some jobs) :
    ∃ before, lists other = some before ∧ List.Sublist jobs before ∧
      (other = worker → job ∉ jobs) := by
  by_cases same : other = worker
  · subst same
    simp only [strike, update_self, Option.map_eq_some_iff] at list
    obtain ⟨before, known, rfl⟩ := list
    exact ⟨before, known, filter_sublist, fun _ => by simp⟩
  · rw [strike, update_of_ne same] at list
    exact ⟨jobs, list, .refl _, fun equal => absurd equal same⟩

theorem strike_of_list {other : ω} {job member : α} (list : lists other = some jobs)
    (memberIn : member ∈ jobs) (different : member ≠ job) :
    ∃ after, strike lists worker job other = some after ∧ member ∈ after := by
  by_cases same : other = worker
  · subst same
    exact ⟨_, by simp only [strike, update_self, list, Option.map_some]; rfl,
      by simp [memberIn, different]⟩
  · exact ⟨jobs, by rw [strike, update_of_ne same]; exact list, memberIn⟩

end Strike

namespace Held

/-- Only the excused jobs that are out matter. -/
theorem excuse (held : Held out lists limit excused) {others : Set α}
    (covers : ∀ job ∈ excused, (out job).isSome → job ∈ others) :
    Held out lists limit others where
  distinct := held.distinct
  limited := held.limited
  holding := held.holding
  listed := by
    intro job worker taken
    obtain excuse | onList := held.listed taken
    · exact .inl (covers job excuse (by simp [taken]))
    · exact .inr onList

/-- A job that is not out is on no list. -/
theorem unlisted (held : Held out lists limit excused) {job : α} (free : out job = none)
    {worker : ω} {jobs : List α} (list : lists worker = some jobs) : job ∉ jobs := by
  intro onList
  have taken := held.holding list job onList
  rw [free] at taken
  cases taken

section Jobs

variable [DecidableEq α]

/-- Jobs go out to a worker before they are put on its list. -/
theorem claim (held : Held out lists limit excused) {jobs : List α}
    (free : ∀ job ∈ jobs, out job = none) (worker : ω) :
    Held (fun job => if job ∈ jobs then some worker else out job) lists limit
      (excused ∪ {job | job ∈ jobs}) where
  distinct := held.distinct
  limited := held.limited
  holding := by
    intro other others list member memberIn
    have old : member ∉ jobs := fun claimed => held.unlisted (free member claimed) list memberIn
    rw [if_neg old]
    exact held.holding list member memberIn
  listed := by
    intro job holder taken
    by_cases claimed : job ∈ jobs
    · exact .inl (.inr claimed)
    · rw [if_neg claimed] at taken
      exact (held.listed taken).imp_left .inl

/-- A job that is on no list comes back. -/
theorem revoke (held : Held out lists limit excused) {job : α}
    (offLists : ∀ {worker jobs}, lists worker = some jobs → job ∉ jobs) :
    Held (update out job none) lists limit (excused \ {job}) where
  distinct := held.distinct
  limited := held.limited
  holding := by
    intro worker jobs list member memberIn
    have different : member ≠ job := by
      rintro rfl
      exact offLists list memberIn
    rw [update_of_ne different]
    exact held.holding list member memberIn
  listed := by
    intro other holder taken
    have different : other ≠ job := by
      rintro rfl
      simp at taken
    rw [update_of_ne different] at taken
    exact (held.listed taken).imp_left fun excuse => ⟨excuse, different⟩

end Jobs

section Workers

variable [DecidableEq ω]

section

variable (held : Held out lists limit excused)
include held

variable {worker : ω} {jobs : List α}

omit held in
theorem update_eq_some {list : Option (List α)} {other : ω}
    (found : update lists worker list other = some jobs) :
    other = worker ∧ list = some jobs ∨ lists other = some jobs := by
  by_cases same : other = worker
  · subst same
    exact .inl ⟨rfl, by simpa using found⟩
  · rw [update_of_ne same] at found
    exact .inr found

/-- A worker that is not known yet has nothing. -/
theorem register (unknown : lists worker = none) :
    Held out (update lists worker (some [])) limit excused := by
  constructor
  · intro other jobs list
    obtain ⟨-, ⟨⟩⟩ | list := update_eq_some list
    · exact nodup_nil
    · exact held.distinct list
  · intro other jobs list
    obtain ⟨-, ⟨⟩⟩ | list := update_eq_some list
    · exact Nat.zero_le _
    · exact held.limited list
  · intro other jobs list job member
    obtain ⟨-, ⟨⟩⟩ | list := update_eq_some list
    · cases member
    · exact held.holding list job member
  · intro job holder taken
    obtain excuse | ⟨jobs, list, member⟩ := held.listed taken
    · exact .inl excuse
    · have different : holder ≠ worker := by
        rintro rfl
        rw [unknown] at list
        cases list
      exact .inr ⟨jobs, by rw [update_of_ne different]; exact list, member⟩

/-- A worker leaves. What it has is out without being listed. -/
theorem dismiss (known : lists worker = some jobs) :
    Held out (update lists worker none) limit (excused ∪ {job | job ∈ jobs}) := by
  have before : ∀ {other others}, update lists worker none other = some others →
      lists other = some others := fun list => (update_eq_some list).resolve_left (by simp)
  refine ⟨fun list => held.distinct (before list), fun list => held.limited (before list),
    fun list => held.holding (before list), ?_⟩
  intro job holder taken
  obtain excuse | ⟨others, list, member⟩ := held.listed taken
  · exact .inl (.inl excuse)
  · by_cases same : holder = worker
    · subst same
      rw [known, Option.some.injEq] at list
      exact .inl (.inr (list ▸ member))
    · exact .inr ⟨others, by rw [update_of_ne same]; exact list, member⟩

/-- Jobs that are out to a worker and on no list go on its list. -/
theorem enlist {more : List α} (known : lists worker = some jobs) (fresh : more.Nodup)
    (taken : ∀ job ∈ more, out job = some worker) (offList : ∀ job ∈ more, job ∉ jobs)
    (room : jobs.length + more.length ≤ limit) :
    Held out (update lists worker (some (jobs ++ more))) limit (excused \ {job | job ∈ more}) := by
  constructor
  · intro other others list
    obtain ⟨rfl, ⟨⟩⟩ | list := update_eq_some list
    · have disjoint : jobs.Disjoint more := fun job left right => offList job right left
      exact nodup_append'.mpr ⟨held.distinct known, fresh, disjoint⟩
    · exact held.distinct list
  · intro other others list
    obtain ⟨rfl, ⟨⟩⟩ | list := update_eq_some list
    · rw [length_append]
      exact room
    · exact held.limited list
  · intro other others list job member
    obtain ⟨rfl, ⟨⟩⟩ | list := update_eq_some list
    · obtain old | new := mem_append.mp member
      · exact held.holding known job old
      · exact taken job new
    · exact held.holding list job member
  · intro job holder isOut
    by_cases new : job ∈ more
    · have same : holder = worker := by
        have := taken job new
        rw [isOut, Option.some.injEq] at this
        exact this
      subst same
      exact .inr ⟨jobs ++ more, update_self .., mem_append_right _ new⟩
    · obtain excuse | ⟨others, list, member⟩ := held.listed isOut
      · exact .inl ⟨excuse, new⟩
      · by_cases same : holder = worker
        · subst same
          rw [known, Option.some.injEq] at list
          subst list
          exact .inr ⟨jobs ++ more, update_self .., mem_append_left _ member⟩
        · exact .inr ⟨others, by rw [update_of_ne same]; exact list, member⟩

/-- A job leaves the worker that has it, if one has. -/
theorem land [DecidableEq α] {job : α} (holder : ∀ other, out job = some other → other = worker) :
    Held (update out job none) (strike lists worker job) limit (excused \ {job}) := by
  have struck : Held out (strike lists worker job) limit (insert job excused) := by
    constructor
    · intro other jobs list
      obtain ⟨before, known, sub, -⟩ := strike_eq_some list
      exact (held.distinct known).sublist sub
    · intro other jobs list
      obtain ⟨before, known, sub, -⟩ := strike_eq_some list
      exact sub.length_le.trans (held.limited known)
    · intro other jobs list member memberIn
      obtain ⟨before, known, sub, -⟩ := strike_eq_some list
      exact held.holding known member (sub.subset memberIn)
    · intro other holder taken
      by_cases same : other = job
      · exact .inl (.inl same)
      · obtain excuse | ⟨jobs, list, memberIn⟩ := held.listed taken
        · exact .inl (.inr excuse)
        · exact .inr (strike_of_list list memberIn same)
  refine (struck.revoke ?_).excuse ?_
  · intro other jobs list onList
    obtain ⟨before, known, sub, off⟩ := strike_eq_some list
    exact off (holder other (held.holding known job (sub.subset onList))) onList
  · rintro other ⟨rfl | excuse, different⟩ -
    · exact absurd rfl different
    · exact ⟨excuse, different⟩

end

end Workers

end Held

end Dispatch
