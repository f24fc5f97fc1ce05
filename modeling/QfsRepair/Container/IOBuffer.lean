import Mathlib.Data.List.TakeDrop
import Mathlib.Algebra.Order.Group.Int

/-!
# Trimming an `IOBuffer` to available space

An `IOBuffer` is a list of buffers, each with bytes to consume and space behind
them, and a count of all bytes.  `TrimAndConvertRemainderToAvailableSpace` keeps
the first bytes and turns the others into space.
-/

namespace QfsRepair.Container

open List

variable {Byte : Type*}

/-- The bytes from `mConsumer` to `mProducer`, and the space from there to `mEnd`. -/
structure IOBufferData (Byte : Type*) where
  bytes : List Byte
  space : ℕ

def IOBufferData.trim (data : IOBufferData Byte) (numBytes : ℕ) : IOBufferData Byte where
  bytes := data.bytes.take numBytes
  space := data.space + (data.bytes.length - numBytes)

structure IOBuffer (Byte : Type*) where
  buf : List (IOBufferData Byte)
  byteCount : ℤ

/-- The bytes of all buffers. -/
def content (buf : List (IOBufferData Byte)) : List Byte := buf.flatMap IOBufferData.bytes

/-- The loop over the buffers; it ends as soon as no bytes are left to keep. -/
def trimLoop : ℕ → List (IOBufferData Byte) → List (IOBufferData Byte)
  | _, [] => []
  | nBytes, data :: buf =>
    if nBytes < data.bytes.length then data.trim nBytes :: buf
    else if nBytes - data.bytes.length = 0 then data :: buf
    else data :: trimLoop (nBytes - data.bytes.length) buf

def trimAndConvertRemainderToAvailableSpace (numBytes : ℤ) (buffer : IOBuffer Byte) :
    IOBuffer Byte :=
  if buffer.byteCount ≤ numBytes then buffer
  else
    { buf := trimLoop (max 0 numBytes).toNat buffer.buf
      byteCount := max 0 numBytes }

/-- The first bytes are kept, and the count is that of the bytes kept. -/
def TrimCorrect (numBytes : ℤ) (buffer : IOBuffer Byte) : Prop :=
  let trimmed := trimAndConvertRemainderToAvailableSpace numBytes buffer
  content trimmed.buf = (content buffer.buf).take numBytes.toNat ∧
    trimmed.byteCount = (content trimmed.buf).length

/-- The buffers behind the one in which the loop ends. -/
def behindEnd : ℕ → List (IOBufferData Byte) → List (IOBufferData Byte)
  | _, [] => []
  | nBytes, data :: buf =>
    if nBytes ≤ data.bytes.length then buf else behindEnd (nBytes - data.bytes.length) buf

/-- The loop leaves the buffers behind its end as they are. -/
theorem content_trimLoop (nBytes : ℕ) (buf : List (IOBufferData Byte)) :
    content (trimLoop nBytes buf) =
      (content buf).take nBytes ++ content (behindEnd nBytes buf) := by
  induction buf generalizing nBytes with
  | nil => simp [content, trimLoop, behindEnd]
  | cons data buf ih =>
    simp only [content, flatMap_cons, take_append] at ih ⊢
    rw [trimLoop, behindEnd]
    rcases lt_trichotomy nBytes data.bytes.length with hlt | heq | hgt
    · rw [if_pos hlt, if_pos hlt.le, flatMap_cons, IOBufferData.trim,
        Nat.sub_eq_zero_of_le hlt.le, take_zero, append_nil]
    · simp [heq]
    · rw [if_neg hgt.not_gt, if_neg (by omega), if_neg hgt.not_ge, flatMap_cons, ih,
        take_of_length_le hgt.le, append_assoc]

/-- A buffer with an exact count is trimmed correctly if and only if no bytes are to
be dropped, or none lie behind the buffer in which the loop ends. -/
theorem trimCorrect_iff {buffer : IOBuffer Byte}
    (hexact : buffer.byteCount = (content buffer.buf).length) (numBytes : ℤ) :
    TrimCorrect numBytes buffer ↔ buffer.byteCount ≤ numBytes ∨
      content (behindEnd numBytes.toNat buffer.buf) = [] := by
  have hmax : (max 0 numBytes).toNat = numBytes.toNat := by omega
  rw [TrimCorrect, trimAndConvertRemainderToAvailableSpace, hmax]
  by_cases hall : buffer.byteCount ≤ numBytes
  · rw [if_pos hall]
    exact iff_of_true ⟨(take_of_length_le (by omega)).symm, hexact⟩ (.inl hall)
  · simp only [if_neg hall, content_trimLoop, append_right_eq_self]
    rw [or_iff_right hall]
    refine and_iff_left_of_imp fun hempty => ?_
    rw [hempty, append_nil, length_take]
    omega

/-- The loop ends in the second buffer, and cuts its second byte off. -/
theorem trimCorrect_two : TrimCorrect 2 (⟨[⟨[true], 0⟩, ⟨[true, false], 0⟩], 3⟩ : IOBuffer Bool) :=
  (trimCorrect_iff rfl 2).mpr (.inr rfl)

/-- Two buffers of one byte each. -/
def twoBuffers : IOBuffer Bool := ⟨[⟨[true], 0⟩, ⟨[true], 0⟩], 2⟩

/-- Both bytes are left after a trim to one byte. -/
theorem not_trimCorrect_one : ¬ TrimCorrect 1 twoBuffers := by
  rintro ⟨hcontent, -⟩
  exact absurd hcontent (by decide)

end QfsRepair.Container
