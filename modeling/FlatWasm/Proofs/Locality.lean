import FlatWasm.Proofs.Failures
import FlatWasm.Proofs.Truncation

/-!
# Operations see only what they take

An operation is given a whole input and a place in it. The bytes it takes decide alone whether it
succeeds and with what value: they may stand anywhere, and anything or nothing may follow them.
With fewer of them it fails. The input stays as it is, and the place moves forward within it.

A row of indices asks how much input is left before it reads the first index. This does not break
the rule, since each index takes a byte or more: the question is answered alike wherever all of the
indices are there.
-/

namespace FlatWasm

/-- The place in an input that has so many bytes before it. -/
def Cursor.inside (input : List UInt8) (position : Nat) : Cursor := ⟨position, input.drop position⟩

theorem Cursor.inside_length (before after : List UInt8) :
    inside (before ++ after) before.length = ⟨before.length, after⟩ := by
  rw [inside, List.drop_left]

theorem Cursor.MovesTo.inside {input : List UInt8} {position : Nat} {left : Cursor}
    (h : (Cursor.inside input position).MovesTo left) (hp : position ≤ input.length) :
    ∃ last, position ≤ last ∧ last ≤ input.length ∧ left = .inside input last := by
  obtain ⟨count, hcount, rfl⟩ := h
  rw [remaining, Cursor.inside, List.length_drop] at hcount
  refine ⟨position + count, Nat.le_add_right position count, by omega, ?_⟩
  rw [advance, Cursor.inside, Cursor.inside, List.drop_drop]

namespace Read

variable {α : Type} {reader : Read α}

/-- Where these bytes stand between `before` and `after`, the reader takes exactly them and succeeds
with the value. -/
def Consumes (reader : Read α) (before taken after : List UInt8) (value : α) : Prop :=
  reader (.inside (before ++ taken ++ after) before.length) =
    (.ok value, .inside (before ++ taken ++ after) (before ++ taken).length)

/-- The reader depends on nothing but the bytes it takes, and changes nothing but its place. -/
structure Confined (reader : Read α) : Prop where
  anywhere : ∀ before taken after value, reader.Consumes before taken after value →
    ∀ before' after', reader.Consumes before' taken after' value
  cut : ∀ before taken after value, reader.Consumes before taken after value →
    ∀ before' front, front <+: taken → front ≠ taken →
      ∃ cause left, reader (.inside (before' ++ front) before'.length) = (.error cause, left) ∧
        cause.isShortage = true
  forward : ∀ input position, position ≤ input.length →
    ∃ last, position ≤ last ∧ last ≤ input.length ∧
      (reader (.inside input position)).2 = .inside input last

/-- Of what surrounds the bytes that a local reader takes, nothing matters. -/
theorem Local.consumes_iff (hl : reader.Local) {before taken after : List UInt8} {value : α} :
    reader.Consumes before taken after value ↔ reader.Takes taken value := by
  have hstart : Cursor.inside (before ++ taken ++ after) before.length =
      ⟨before.length, taken ++ after⟩ := by
    rw [List.append_assoc, Cursor.inside_length]
  have hend : Cursor.inside (before ++ taken ++ after) (before ++ taken).length =
      Cursor.advance ⟨before.length, taken ++ after⟩ taken.length := by
    rw [Cursor.inside_length, Cursor.advance, List.length_append, List.drop_left]
  rw [Consumes, hstart, hend, hl.ok_advance_iff, List.take_left]
  refine and_iff_right ?_
  rw [Cursor.remaining, List.length_append]
  exact Nat.le_add_right _ _

theorem SelfDelimiting.confined_of_advances (hs : reader.SelfDelimiting) (ha : reader.Advances) :
    reader.Confined where
  anywhere := by
    intro before taken after value h before' after'
    rw [hs.isLocal.consumes_iff] at h ⊢
    exact h
  cut := by
    intro before taken after value h before' front hfront hne
    rw [hs.isLocal.consumes_iff] at h
    obtain ⟨back, rfl⟩ := hfront
    have hb : back ≠ [] := mt List.self_eq_append_right.mpr hne
    rw [Cursor.inside_length]
    exact hs.runsOut front back value h hb before'.length
  forward := by
    intro input position hp
    exact (ha (.inside input position)).inside hp

end Read

/-! ## The operations -/

/-- What can be asked for at a place in the input, each with the type of its answer. Integers are of
any width, also of those that are refused. -/
inductive Operation : Type → Type where
  | byte : Operation UInt8
  | bytes (count : Nat) : Operation (List UInt8)
  | unsigned (width : Nat) : Operation Nat
  | signed (width : Nat) : Operation Int
  | word32 : Operation UInt32
  | word64 : Operation UInt64
  | indices : Operation (List UInt32)
  | blockType : Operation BlockType
  | memArg : Operation MemArg

namespace Operation

variable {α : Type}

def reader : Operation α → Read α
  | .byte => Read.byte
  | .bytes count => Read.bytes count
  | .unsigned width => Leb128.readUnsigned width
  | .signed width => Leb128.readSigned width
  | .word32 => Word.read32
  | .word64 => Word.read64
  | .indices => Read.indices
  | .blockType => Read.blockType
  | .memArg => Read.memArg

theorem selfDelimiting (operation : Operation α) : operation.reader.SelfDelimiting := by
  cases operation with
  | byte => exact Read.selfDelimiting_byte
  | bytes count => exact Read.selfDelimiting_bytes count
  | unsigned width => exact Leb128.selfDelimiting_readUnsigned width
  | signed width => exact Leb128.selfDelimiting_readSigned width
  | word32 => exact Read.selfDelimiting_read32
  | word64 => exact Read.selfDelimiting_read64
  | indices => exact Read.selfDelimiting_indices
  | blockType => exact Read.selfDelimiting_blockType
  | memArg => exact Read.selfDelimiting_memArg

theorem advances (operation : Operation α) : operation.reader.Advances := by
  cases operation with
  | byte => exact Read.advances_byte
  | bytes count => exact Read.advances_bytes count
  | unsigned width => exact Leb128.advances_readUnsigned width
  | signed width => exact Leb128.advances_readSigned width
  | word32 => exact Read.advances_read32
  | word64 => exact Read.advances_read64
  | indices => exact Read.advances_indices
  | blockType => exact Read.advances_blockType
  | memArg => exact Read.advances_memArg

/-- Every operation is confined to the bytes it takes. Where it succeeds on them once, it succeeds
with the same value wherever they stand and whatever follows; on any strict front part of them it
fails, because the input ends too early. Whether it succeeds or fails, it leaves the input as it is
and moves neither back nor past the end. -/
theorem confined (operation : Operation α) : operation.reader.Confined :=
  operation.selfDelimiting.confined_of_advances operation.advances

/-- Two indices between other bytes. They are read as well at the very end of an input. Without the
last byte the length still seems to fit, and the second index is found missing. -/
theorem confined_indices :
    indices.reader.Consumes [0x0B, 0x41] [0x02, 0x81, 0x01, 0x00] [0xFF] [129, 0] ∧
      indices.reader.Consumes [0x0E] [0x02, 0x81, 0x01, 0x00] [] [129, 0] ∧
      (∃ cause left, indices.reader (.inside ([0x0E] ++ [0x02, 0x81, 0x01]) 1) =
        (.error cause, left) ∧ cause.isShortage = true) ∧
      ∃ last, 1 ≤ last ∧ last ≤ 4 ∧
        (indices.reader (.inside [0x0E, 0x02, 0x81, 0x01] 1)).2 =
          .inside [0x0E, 0x02, 0x81, 0x01] last := by
  have h : indices.reader.Consumes [0x0B, 0x41] [0x02, 0x81, 0x01, 0x00] [0xFF] [129, 0] := rfl
  refine ⟨h, ?_, ?_, ?_⟩
  · exact (confined indices).anywhere _ _ _ _ h _ _
  · exact (confined indices).cut _ _ _ _ h [0x0E] _ (by decide) (by decide)
  · exact (confined indices).forward [0x0E, 0x02, 0x81, 0x01] 1 (by decide)

end Operation

end FlatWasm
