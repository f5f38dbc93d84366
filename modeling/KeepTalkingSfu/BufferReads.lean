import KeepTalkingSfu.ByteTransport

/-!
# Reads that can panic

A decoder over a byte buffer checks that enough bytes are there and then takes
them. The checks answer with an error; taking bytes that are not there is not an
error but the end of the task. Here both are outcomes, so that a decoder written
with these reads can be shown to answer always. Nothing here names a format.
-/
namespace KeepTalkingSfu.BufferReads
open ByteTransport

inductive Fault where
  | failed (text : String)
  | panicked
  deriving DecidableEq, Repr

def ensure (p : Prop) [Decidable p] (text : String) : Except Fault Unit :=
  if p then .ok () else .error (.failed text)

/-- Takes the first `n` bytes off the buffer. -/
def splitTo (n : ℕ) (buf : Bytes) : Except Fault (Bytes × Bytes) :=
  if n ≤ buf.length then .ok (buf.take n,buf.drop n) else .error .panicked

def getU8 (buf : Bytes) : Except Fault (UInt8 × Bytes) :=
  match buf with
  | b::rest => .ok (b,rest)
  | [] => .error .panicked

/-- Takes a big-endian word of `n` bytes off the buffer. -/
def getWord (n : ℕ) (buf : Bytes) : Except Fault (ℕ × Bytes) :=
  if n ≤ buf.length then .ok (beValue (buf.take n),buf.drop n) else .error .panicked

/-- The bytes as an array of `n`. -/
def asArray (n : ℕ) (bytes : Bytes) : Except Fault { bs : Bytes // bs.length = n } :=
  if h : bytes.length = n then .ok ⟨bytes,h⟩ else .error .panicked

/-- An answer of a decoder that has no way to panic. -/
def answered {A : Type} (x : Except String A) : Except Fault A := x.mapError .failed

section
variable {A B : Type}

@[simp] theorem answered_ok (a : A) : answered (.ok a) = .ok a := rfl

@[simp] theorem answered_error (text : String) :
    answered (.error text : Except String A) = .error (.failed text) := rfl

theorem answered_eq_ok {x : Except String A} {a : A} : answered x = .ok a ↔ x = .ok a := by
  cases x <;> simp

/-- Composing answers gives an answer. -/
theorem answered_bind (x : Except String A) (f : A → Except String B) :
    (answered x >>= fun a => answered (f a)) = answered (x >>= f) := by
  cases x <;> rfl

theorem answered_cases (x : Except String A) :
    (∃ text, answered x = .error (.failed text)) ∨ ∃ a, answered x = .ok a := by
  cases x with
  | error text => exact .inl ⟨text,rfl⟩
  | ok a => exact .inr ⟨a,rfl⟩

end

/-- A computation that got to its end got through its first part. -/
theorem bind_eq_ok {E A B : Type} {x : Except E A} {f : A → Except E B} {b : B}
    (h : (x >>= f) = .ok b) : ∃ a, x = .ok a ∧ f a = .ok b := by
  cases x with
  | error e => cases h
  | ok a => exact ⟨a,rfl,h⟩

/-- What was checked for can be taken. -/
theorem ensure_bind {A : Type} (p : Prop) [Decidable p] (text : String) (x : Except Fault A) :
    (ensure p text >>= fun _ => x) = if p then x else .error (.failed text) := by
  unfold ensure
  split_ifs <;> rfl

theorem splitTo_of_le {n : ℕ} {buf : Bytes} (h : n ≤ buf.length) :
    splitTo n buf = .ok (buf.take n,buf.drop n) := if_pos h

theorem getWord_of_le {n : ℕ} {buf : Bytes} (h : n ≤ buf.length) :
    getWord n buf = .ok (beValue (buf.take n),buf.drop n) := if_pos h

theorem asArray_of_length {n : ℕ} {bytes : Bytes} (h : bytes.length = n) :
    asArray n bytes = .ok ⟨bytes,h⟩ := dif_pos h

end KeepTalkingSfu.BufferReads
