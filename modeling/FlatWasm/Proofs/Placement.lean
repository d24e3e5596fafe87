import FlatWasm.Proofs.Scanning

/-!
# Segments wherever they stand

A segment is read from its own bytes. What stands before it in the input decides the offsets of its
instructions and nothing else, and what follows decides nothing, although the length of a branch
table is compared with all of the input that is left and the size of a body is measured from an
offset. Segments that are written one behind the other are therefore read one after the other, each
as it is read alone.
-/

namespace FlatWasm

/-- The place in an input that has these bytes before it and the others behind it. -/
def Cursor.between (before rest : List UInt8) : Cursor :=
  (ofBytes (before ++ rest)).advance before.length

theorem Cursor.between_eq (before rest : List UInt8) :
    between before rest = ⟨before.length, rest⟩ := by
  simp [between, ofBytes, advance]

def Placed.movedBy (shift : Int) (placed : Placed) : Placed :=
  { placed with offset := (placed.offset + shift).toNat }

/-- The same body, read from a place further on in the input, or further back. -/
def Body.movedBy (shift : Int) (body : Body) : Body :=
  { body with instructions := body.instructions.map (Placed.movedBy shift) }

namespace Chunk

theorem place_movedBy {offset offset' : Nat} {shift : Int} (hs : (offset' : Int) = offset + shift)
    (chunks : List Chunk) :
    (place offset chunks).map (Placed.movedBy shift) = place offset' chunks := by
  induction chunks generalizing offset offset' with
  | nil => rfl
  | cons chunk chunks ih =>
    have hfirst : (offset + shift).toNat = offset' := by omega
    have hnext : ((offset' + chunk.bytes.length : Nat) : Int) =
        (offset + chunk.bytes.length : Nat) + shift := by
      push_cast
      omega
    rw [place, List.map_cons, ih hnext, place, Placed.movedBy, hfirst]

theorem offset_le_of_mem_place {offset : Nat} {chunks : List Chunk} {placed : Placed}
    (h : placed ∈ place offset chunks) : offset ≤ placed.offset := by
  induction chunks generalizing offset with
  | nil => cases h
  | cons chunk chunks ih =>
    rcases List.mem_cons.mp h with rfl | hmem
    · exact Nat.le_refl _
    · exact (Nat.le_add_right _ _).trans (ih hmem)

end Chunk

/-! ## One segment -/

namespace Transcript

variable {offset : Nat} {bytes rest : List UInt8} {chunks : List Chunk} {control : Control}
  {body : Body}

/-- The bytes of a segment have the same transcript at any offset and before any other input. -/
theorem moved (h : Transcript .segment ⟨offset, bytes ++ rest⟩ chunks control body
      ⟨offset + bytes.length, rest⟩) (offset' : Nat) (rest' : List UInt8) :
    Transcript .segment ⟨offset', bytes ++ rest'⟩ chunks control
      (body.movedBy (offset' - offset)) ⟨offset' + bytes.length, rest'⟩ := by
  have hbytes : bytes = Chunk.input chunks ++ terminator body.elseTerminated :=
    List.append_cancel_right h.input_eq
  refine ⟨congrArg (· ++ rest') hbytes, congrArg (offset' + List.length ·) hbytes, h.follows,
    h.finished, h.size_le, ?_, h.blocks_eq, fun hf => absurd hf (by decide)⟩
  have hplace := Chunk.place_movedBy (show (offset' : Int) = offset + (offset' - offset) by omega)
    chunks
  rw [Body.movedBy, Array.toList_map, h.instructions_eq, hplace]

end Transcript

namespace Body

theorem read_segment_moved {params : UInt32} {offset : Nat} {bytes rest : List UInt8} {body : Body}
    (h : read .segment params ⟨offset, bytes ++ rest⟩ =
      (.ok body, ⟨offset + bytes.length, rest⟩)) (offset' : Nat) (rest' : List UInt8) :
    read .segment params ⟨offset', bytes ++ rest'⟩ =
      (.ok (body.movedBy (offset' - offset)), ⟨offset' + bytes.length, rest'⟩) := by
  obtain ⟨hp, chunks, control, ht⟩ := read_ok_iff.mp h
  exact read_ok_iff.mpr ⟨hp, chunks, control, ht.moved offset' rest'⟩

theorem offset_le_of_mem {mode : BodyMode} {params : UInt32} {cursor left : Cursor} {body : Body}
    (h : read mode params cursor = (.ok body, left)) {placed : Placed}
    (hm : placed ∈ body.instructions) : cursor.offset ≤ placed.offset := by
  obtain ⟨-, chunks, control, ht⟩ := read_ok_iff.mp h
  rw [← Array.mem_toList_iff, ht.instructions_eq] at hm
  exact Chunk.offset_le_of_mem_place hm

end Body

/-! ## Segments in a row -/

/-- Bytes that are read as one segment, from the first to the last. -/
structure Segment where
  bytes : List UInt8
  body : Body
  whole : Body.read .segment body.params (.ofBytes bytes) = (.ok body, .between bytes [])

namespace Segment

/-- The bodies of segments that stand one behind the other, the first at the given offset. -/
def bodies : Nat → List Segment → List Body
  | _, [] => []
  | offset, segment :: rest =>
    segment.body.movedBy offset :: bodies (offset + segment.bytes.length) rest

def input (segments : List Segment) : List UInt8 := segments.flatMap bytes

theorem read_eq (segment : Segment) (offset : Nat) (rest : List UInt8) :
    Body.read .segment segment.body.params ⟨offset, segment.bytes ++ rest⟩ =
      (.ok (segment.body.movedBy offset), ⟨offset + segment.bytes.length, rest⟩) := by
  have h : Body.read .segment segment.body.params ⟨0, segment.bytes ++ []⟩ =
      (.ok segment.body, ⟨0 + segment.bytes.length, []⟩) := by
    have hw := segment.whole
    rwa [Cursor.between_eq, Cursor.ofBytes, ← List.append_nil segment.bytes,
      List.length_append, List.length_nil, Nat.add_zero,
      ← Nat.zero_add segment.bytes.length] at hw
  have hmoved := Body.read_segment_moved h offset rest
  simpa using hmoved

end Segment

namespace Body

/-- Reads segments one after the other, each from where the last one was left. -/
def readEach : List UInt32 → Cursor → List (Except DecodeError Body) × Cursor
  | [], cursor => ([], cursor)
  | params :: more, cursor =>
    match read .segment params cursor with
    | (result, cursor) =>
      match readEach more cursor with
      | (results, cursor) => (result :: results, cursor)

theorem readEach_input (segments : List Segment) (offset : Nat) (rest : List UInt8) :
    readEach (segments.map fun segment => segment.body.params)
        ⟨offset, Segment.input segments ++ rest⟩ =
      ((Segment.bodies offset segments).map Except.ok,
        ⟨offset + (Segment.input segments).length, rest⟩) := by
  induction segments generalizing offset with
  | nil => rfl
  | cons segment segments ih =>
    have hinput : Segment.input (segment :: segments) ++ rest =
        segment.bytes ++ (Segment.input segments ++ rest) := List.append_assoc ..
    have hlen : (Segment.input (segment :: segments)).length =
        segment.bytes.length + (Segment.input segments).length := List.length_append
    rw [hinput, List.map_cons, readEach, segment.read_eq]
    dsimp only
    rw [ih, hlen, Nat.add_assoc, Segment.bodies, List.map_cons]

/-- Reading a segment depends on its bytes alone: they are read alike behind any bytes and before
any others, with every offset moved by as much as the segment is. Hence segments that fill an input
are read one after the other, and nothing is left. -/
theorem read_segment_compositional :
    (∀ (params : UInt32) (body : Body) (before before' bytes rest rest' : List UInt8),
      read .segment params (.between before (bytes ++ rest)) =
          (.ok body, .between (before ++ bytes) rest) →
        read .segment params (.between before' (bytes ++ rest')) =
          (.ok (body.movedBy (before'.length - before.length)),
            .between (before' ++ bytes) rest') ∧
        ∀ placed ∈ body.instructions, before.length ≤ placed.offset) ∧
      ∀ segments : List Segment,
        readEach (segments.map fun segment => segment.body.params)
            (.ofBytes (Segment.input segments)) =
          ((Segment.bodies 0 segments).map Except.ok, .between (Segment.input segments) []) := by
  constructor
  · intro params body before before' bytes rest rest' h
    simp only [Cursor.between_eq, List.length_append] at h ⊢
    exact ⟨read_segment_moved h before'.length rest', fun placed hm => offset_le_of_mem h hm⟩
  · intro segments
    have h := readEach_input segments 0 []
    rwa [List.append_nil, Nat.zero_add, ← Cursor.between_eq, ← Cursor.ofBytes] at h

/-- A segment with a branch table moves from the middle of an input to its front. Two segments, of
which the first ends at an else, are read in a row. -/
theorem read_segment_compositional_table :
    (∃ body, read .segment 3 (.between [0xFF, 0xFF]
          ([0x02, 0x40, 0x0E, 0x01, 0x00, 0x00, 0x0B, 0x0B] ++ [0xFF])) =
        (.ok body, .between ([0xFF, 0xFF] ++ [0x02, 0x40, 0x0E, 0x01, 0x00, 0x00, 0x0B, 0x0B])
          [0xFF]) ∧
      read .segment 3 (.between [] ([0x02, 0x40, 0x0E, 0x01, 0x00, 0x00, 0x0B, 0x0B] ++ [])) =
        (.ok (body.movedBy (0 - 2)),
          .between ([] ++ [0x02, 0x40, 0x0E, 0x01, 0x00, 0x00, 0x0B, 0x0B]) [])) ∧
      readEach [0, 1] (.ofBytes [0x01, 0x05, 0x01, 0x0B]) =
        ([.ok ⟨#[⟨.plain .nop, 0, 1⟩], #[], 0, true⟩,
            .ok ⟨#[⟨.plain .nop, 2, 1⟩, ⟨.close none, 3, 1⟩], #[], 1, false⟩],
          .between [0x01, 0x05, 0x01, 0x0B] []) := by
  let table : Body :=
    ⟨#[⟨.enter .block .empty 0, 2, 2⟩, ⟨.brTable [⟨0, 0⟩] ⟨0, 0⟩, 4, 4⟩, ⟨.close (some 0), 8, 1⟩,
        ⟨.close none, 9, 1⟩],
      #[⟨.block, .empty, 0, none, some 2⟩], 3, false⟩
  have htable : read .segment 3 (.between [0xFF, 0xFF]
        ([0x02, 0x40, 0x0E, 0x01, 0x00, 0x00, 0x0B, 0x0B] ++ [0xFF])) =
      (.ok table, .between ([0xFF, 0xFF] ++ [0x02, 0x40, 0x0E, 0x01, 0x00, 0x00, 0x0B, 0x0B])
        [0xFF]) := by
    decide +kernel
  let first : Segment :=
    ⟨[0x01, 0x05], ⟨#[⟨.plain .nop, 0, 1⟩], #[], 0, true⟩, by decide +kernel⟩
  let second : Segment :=
    ⟨[0x01, 0x0B], ⟨#[⟨.plain .nop, 0, 1⟩, ⟨.close none, 1, 1⟩], #[], 1, false⟩,
      by decide +kernel⟩
  refine ⟨⟨table, htable, ?_⟩, ?_⟩
  · exact (read_segment_compositional.1 3 table [0xFF, 0xFF] [] _ [0xFF] [] htable).1
  · have hrow := read_segment_compositional.2 [first, second]
    simp only [Segment.bodies, Body.movedBy, Placed.movedBy, first, second, List.map_toArray,
      List.map_cons, List.map_nil] at hrow
    exact hrow

end Body

end FlatWasm
