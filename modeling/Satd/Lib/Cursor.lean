import Satd.Lib.Outcome

/-!
# Reading from a buffer

A cursor is a buffer with a position. A read returns a value and moves the cursor
past some bytes, and `Moved` says which. A read that always moves past the encoding
of the value it returns loses nothing; one that returns the value whenever its
encoding comes next reads back what was written.
-/

namespace Rust

open List Outcome

structure Cursor where
  buf : List UInt8
  pos : Nat

namespace Cursor

variable {ε : Type}

/-- The beginning of a buffer. -/
def new (buf : List UInt8) : Cursor := ⟨buf, 0⟩

variable (cursor : Cursor)

def remaining : Nat := cursor.buf.length - cursor.pos

/-- What is left to read. -/
def rest : List UInt8 := cursor.buf.drop cursor.pos

/-- The position is in the buffer or at its end. -/
def Valid : Prop := cursor.pos ≤ cursor.buf.length

/-- The second cursor is the first moved past the bytes. -/
structure Moved (before : Cursor) (bytes : List UInt8) (after : Cursor) : Prop where
  same : after.buf = before.buf
  valid : after.Valid
  passed : before.rest = bytes ++ after.rest

theorem new_valid {buf : List UInt8} : (new buf).Valid := zero_le

@[simp] theorem new_rest (buf : List UInt8) : (new buf).rest = buf := rfl

@[simp] theorem length_rest : cursor.rest.length = cursor.remaining := by
  simp [rest, remaining]

variable {cursor after before : Cursor} {bytes tail : List UInt8}

/-- Nothing is left exactly when no byte is. -/
theorem rest_eq_nil (done : cursor.remaining = 0) : cursor.rest = [] := by
  rw [← length_eq_zero_iff, length_rest, done]

theorem Moved.refl (valid : cursor.Valid) : Moved cursor [] cursor := ⟨rfl, valid, rfl⟩

theorem Moved.trans {middle : Cursor} {first second : List UInt8}
    (start : Moved before first middle) (finish : Moved middle second after) :
    Moved before (first ++ second) after where
  same := finish.same.trans start.same
  valid := finish.valid
  passed := by rw [start.passed, finish.passed, append_assoc]

theorem Moved.remaining (moved : Moved before bytes after) :
    before.remaining = bytes.length + after.remaining := by
  rw [← length_rest, ← length_rest, moved.passed, length_append]

/-- What is left after a move is what followed the bytes. -/
theorem Moved.rest_eq (moved : Moved before bytes after) (read : before.rest = bytes ++ tail) :
    after.rest = tail :=
  append_cancel_left (moved.passed.symm.trans read)

/-- Cutting out the next bytes, where there are enough. -/
theorem slice_next {count : Nat} (valid : cursor.Valid) (enough : count ≤ cursor.remaining) :
    (slice cursor.buf cursor.pos (cursor.pos + count) : Outcome ε (List UInt8)) =
        .ok (cursor.rest.take count) ∧
      Moved cursor (cursor.rest.take count) ⟨cursor.buf, cursor.pos + count⟩ := by
  have inside : cursor.pos + count ≤ cursor.buf.length := by
    have bound : cursor.pos ≤ cursor.buf.length := valid
    simp only [remaining] at enough
    omega
  constructor
  · rw [Outcome.slice_eq_ok (Nat.le_add_right _ _) inside, Nat.add_sub_cancel_left]
    rfl
  · refine ⟨rfl, inside, ?_⟩
    simp only [rest, ← drop_drop]
    exact (take_append_drop count _).symm

/-- Cutting out everything that is left after a move. -/
theorem Moved.slice_rest (moved : Moved before bytes after) :
    (slice before.buf after.pos before.buf.length : Outcome ε (List UInt8)) = .ok after.rest := by
  have inside : after.pos ≤ before.buf.length := by
    rw [← moved.same]
    exact moved.valid
  rw [Outcome.slice_eq_ok inside le_rfl, rest, moved.same, take_of_length_le (length_drop ..).le]

/-- The first bytes of what is left, when they are known. -/
theorem take_rest (read : cursor.rest = bytes ++ tail) :
    cursor.rest.take bytes.length = bytes ∧ bytes.length ≤ cursor.remaining := by
  constructor
  · rw [read, take_left]
  · rw [← length_rest, read, length_append]
    exact Nat.le_add_right _ _

end Cursor

end Rust
