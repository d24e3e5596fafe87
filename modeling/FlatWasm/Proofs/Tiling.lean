import FlatWasm.Proofs.Placement

/-!
# Instructions side by side

The places of the instructions of a body cover the bytes that were read, without a gap and without
an overlap: each instruction begins where the one before it ends, the first at the place where
reading began, and the last ends where it stopped. The one byte that no instruction has is the else
that ends a segment. However an operand is padded, the length of its instruction counts all of it.
-/

namespace FlatWasm

/-- The instructions of a body lie side by side in the input, from `start` to the cursor that was
left. -/
structure Body.Tiles (body : Body) (input : List UInt8) (start : Nat) (left : Cursor) : Prop where
  first : ∀ placed, body.instructions[0]? = some placed → placed.offset = start
  next : ∀ (index : Nat) (placed following : Placed), body.instructions[index]? = some placed →
    body.instructions[index + 1]? = some following →
    following.offset = placed.offset + placed.length
  spelled : ∀ placed ∈ body.instructions,
    placed.labelled.instruction.Spelled ((input.drop placed.offset).take placed.length)
  opcode : ∀ placed ∈ body.instructions,
    input[placed.offset]? = some placed.labelled.operator.opcode
  length_pos : ∀ placed ∈ body.instructions, 1 ≤ placed.length
  encode_le : ∀ placed ∈ body.instructions, placed.labelled.encode.length ≤ placed.length
  last : ∀ placed, body.instructions.back? = some placed →
    left.offset = placed.offset + placed.length + if body.elseTerminated then 1 else 0
  terminated : body.elseTerminated = true →
    ∃ place, left.offset = place + 1 ∧ input[place]? = some Operator.otherwise.opcode
  empty : body.instructions = #[] → body.elseTerminated = true ∧ left.offset = start + 1
  left_eq : left = (Cursor.ofBytes input).advance left.offset

namespace Chunk

theorem input_take_succ {chunks : List Chunk} {index : Nat} {chunk : Chunk}
    (h : chunks[index]? = some chunk) :
    input (chunks.take (index + 1)) = input (chunks.take index) ++ chunk.bytes := by
  rw [input, input, List.take_add_one, h, List.flatMap_append]
  simp

/-- A chunk has its place behind the bytes of those before it. -/
theorem getElem?_place (offset : Nat) (chunks : List Chunk) (index : Nat) :
    (place offset chunks)[index]? = chunks[index]?.map fun chunk =>
      ⟨chunk.labelled, offset + (input (chunks.take index)).length, chunk.bytes.length⟩ := by
  induction chunks generalizing offset index with
  | nil => rfl
  | cons chunk chunks ih =>
    cases index with
    | zero => rfl
    | succ index =>
      rw [place, List.getElem?_cons_succ, ih, List.getElem?_cons_succ, List.take_succ_cons]
      congr 1
      funext following
      rw [input, input, List.flatMap_cons, List.length_append, Nat.add_assoc]

end Chunk

namespace Transcript

variable {mode : BodyMode} {before rest : List UInt8} {chunks : List Chunk} {control : Control}
  {body : Body} {left : Cursor}

theorem getElem?_eq (h : Transcript mode (.between before rest) chunks control body left)
    (index : Nat) : body.instructions[index]? = chunks[index]?.map fun chunk =>
      ⟨chunk.labelled, before.length + (Chunk.input (chunks.take index)).length,
        chunk.bytes.length⟩ := by
  rw [← Array.getElem?_toList, h.instructions_eq, Chunk.getElem?_place, Cursor.between_eq]

theorem size_eq (h : Transcript mode (.between before rest) chunks control body left) :
    body.instructions.size = chunks.length := by
  have hcode := congrArg List.length h.code_eq
  rwa [Body.code, List.length_map, Array.length_toList, Chunk.code, List.length_map] at hcode

theorem input_eq_between (h : Transcript mode (.between before rest) chunks control body left) :
    rest = Chunk.input chunks ++ terminator body.elseTerminated ++ left.rest := by
  have hinput := h.input_eq
  rwa [Cursor.between_eq] at hinput

theorem offset_eq_between (h : Transcript mode (.between before rest) chunks control body left) :
    left.offset = before.length + (Chunk.input chunks).length +
      (terminator body.elseTerminated).length := by
  have hoffset := h.offset_eq
  rwa [Cursor.between_eq, List.length_append, ← Nat.add_assoc] at hoffset

/-- The input divides at an instruction: what is ahead of it fills the input up to its offset, and
then come the bytes of its chunk. -/
theorem divides (h : Transcript mode (.between before rest) chunks control body left) {index : Nat}
    {placed : Placed} (hp : body.instructions[index]? = some placed) :
    ∃ (chunk : Chunk) (ahead behind : List UInt8),
      before ++ rest = ahead ++ (chunk.bytes ++ behind) ∧ placed.offset = ahead.length ∧
        placed.length = chunk.bytes.length ∧ placed.labelled = chunk.labelled := by
  rw [h.getElem?_eq] at hp
  obtain ⟨chunk, hchunk, rfl⟩ := Option.map_eq_some_iff.mp hp
  obtain ⟨hlt, rfl⟩ := List.getElem?_eq_some_iff.mp hchunk
  have hinput : Chunk.input chunks = Chunk.input (chunks.take index) ++
      (chunks[index].bytes ++ Chunk.input (chunks.drop (index + 1))) := by
    conv_lhs => rw [← List.take_append_drop index chunks, List.drop_eq_getElem_cons hlt]
    rw [Chunk.input, List.flatMap_append, List.flatMap_cons]
    rfl
  refine ⟨chunks[index], before ++ Chunk.input (chunks.take index),
    Chunk.input (chunks.drop (index + 1)) ++ (terminator body.elseTerminated ++ left.rest), ?_,
    List.length_append.symm, rfl, rfl⟩
  rw [h.input_eq_between, hinput]
  simp only [List.append_assoc]

theorem spelled_at (h : Transcript mode (.between before rest) chunks control body left)
    {placed : Placed} (hm : placed ∈ body.instructions) :
    placed.labelled.instruction.Spelled
      (((before ++ rest).drop placed.offset).take placed.length) := by
  obtain ⟨index, hp⟩ := Array.getElem?_of_mem hm
  obtain ⟨chunk, ahead, behind, hinput, hoffset, hlength, hlabelled⟩ := h.divides hp
  rw [hinput, hoffset, hlength, hlabelled, List.drop_left, List.take_left]
  exact chunk.spelled

theorem next_offset (h : Transcript mode (.between before rest) chunks control body left)
    {index : Nat} {placed following : Placed} (hp : body.instructions[index]? = some placed)
    (hf : body.instructions[index + 1]? = some following) :
    following.offset = placed.offset + placed.length := by
  rw [h.getElem?_eq] at hp hf
  obtain ⟨chunk, hchunk, rfl⟩ := Option.map_eq_some_iff.mp hp
  obtain ⟨other, -, rfl⟩ := Option.map_eq_some_iff.mp hf
  dsimp only
  rw [Chunk.input_take_succ hchunk, List.length_append, Nat.add_assoc]

/-- The last instruction ends where the chunks do. -/
theorem last_offset (h : Transcript mode (.between before rest) chunks control body left)
    {placed : Placed} (hp : body.instructions.back? = some placed) :
    placed.offset + placed.length = before.length + (Chunk.input chunks).length := by
  rw [Array.back?_eq_getElem?, h.getElem?_eq, h.size_eq] at hp
  obtain ⟨chunk, hchunk, rfl⟩ := Option.map_eq_some_iff.mp hp
  have hlt := (List.getElem?_eq_some_iff.mp hchunk).1
  have hall : chunks.take (chunks.length - 1 + 1) = chunks := List.take_of_length_le (by omega)
  have hinput := Chunk.input_take_succ hchunk
  rw [hall] at hinput
  dsimp only
  rw [hinput, List.length_append, Nat.add_assoc]

theorem tiles (h : Transcript mode (.between before rest) chunks control body left) :
    body.Tiles (before ++ rest) before.length left where
  first placed hp := by
    rw [h.getElem?_eq] at hp
    obtain ⟨chunk, -, rfl⟩ := Option.map_eq_some_iff.mp hp
    rfl
  next index placed following hp hf := h.next_offset hp hf
  spelled placed hm := h.spelled_at hm
  opcode placed hm := by
    obtain ⟨index, hp⟩ := Array.getElem?_of_mem hm
    obtain ⟨chunk, ahead, behind, hinput, hoffset, -, hlabelled⟩ := h.divides hp
    obtain ⟨operands, hbytes, -⟩ := chunk.spelled
    rw [hinput, hoffset, hbytes, hlabelled, List.getElem?_append_right (Nat.le_refl _),
      Nat.sub_self]
    rfl
  length_pos placed hm := by
    obtain ⟨index, hp⟩ := Array.getElem?_of_mem hm
    obtain ⟨chunk, -, -, -, -, hlength, -⟩ := h.divides hp
    rw [hlength]
    exact chunk.spelled.length_pos
  encode_le placed hm := by
    obtain ⟨index, hp⟩ := Array.getElem?_of_mem hm
    obtain ⟨chunk, -, -, -, -, hlength, hlabelled⟩ := h.divides hp
    rw [hlength, hlabelled]
    exact chunk.spelled.shortens.length_le
  last placed hp := by
    rw [h.last_offset hp, h.offset_eq_between]
    cases body.elseTerminated <;> rfl
  terminated he := by
    have hoffset := h.offset_eq_between
    have hinput := h.input_eq_between
    rw [he] at hoffset hinput
    refine ⟨before.length + (Chunk.input chunks).length, hoffset, ?_⟩
    rw [hinput, List.append_assoc, ← List.append_assoc before, ← List.length_append,
      List.getElem?_append_right (Nat.le_refl _), Nat.sub_self]
    rfl
  empty hnone := by
    have hchunks : chunks = [] := by
      rw [← List.length_eq_zero_iff, ← h.size_eq, hnone]
      rfl
    have hfin := h.finished
    have hoffset := h.offset_eq_between
    rw [hchunks] at hfin hoffset
    cases he : body.elseTerminated with
    | true =>
      rw [he] at hoffset
      exact ⟨rfl, hoffset⟩
    | false =>
      -- a body that ends with an end has at least that instruction
      rw [he] at hfin
      obtain ⟨front, hcode, -⟩ := hfin
      exact absurd hcode (by simp [Chunk.code])
  left_eq := by
    obtain ⟨offset, behind⟩ := left
    have hoffset := h.offset_eq_between
    have hinput := h.input_eq_between
    dsimp only at hoffset hinput
    have hlength : offset =
        (before ++ (Chunk.input chunks ++ terminator body.elseTerminated)).length := by
      rw [hoffset, List.length_append, List.length_append, Nat.add_assoc]
    rw [Cursor.advance, Cursor.ofBytes, Cursor.mk.injEq, hinput, ← List.append_assoc]
    dsimp only
    rw [hlength, List.drop_left, Nat.zero_add]
    exact ⟨rfl, rfl⟩

end Transcript

namespace Body

/-- Whatever body is read, from whatever place in an input, its instructions tile the bytes that
were read. -/
theorem read_tiles {mode : BodyMode} {params : UInt32} {before rest : List UInt8} {body : Body}
    {left : Cursor} (h : read mode params (.between before rest) = (.ok body, left)) :
    body.Tiles (before ++ rest) before.length left := by
  obtain ⟨-, chunks, control, ht⟩ := read_ok_iff.mp h
  exact ht.tiles

/-- A segment behind two other bytes. Its constant and its branch are padded, so that they are
longer than they are written; the else behind them belongs to no instruction. The segment behind
that one has no instruction at all. -/
theorem read_tiles_padded :
    ∃ body left, read .segment 0 (.between [0xFF, 0xFF] [0x02, 0x40, 0x41, 0x80, 0x80, 0x00, 0x0D,
        0x80, 0x00, 0x0B, 0x05, 0x05]) = (.ok body, left) ∧
      body.instructions.toList.map (fun placed => (placed.offset, placed.length)) =
        [(2, 2), (4, 4), (8, 3), (11, 1)] ∧
      body.Tiles [0xFF, 0xFF, 0x02, 0x40, 0x41, 0x80, 0x80, 0x00, 0x0D, 0x80, 0x00, 0x0B, 0x05,
        0x05] 2 left ∧
      ∃ body' left', read .segment 0 left = (.ok body', left') ∧ body'.instructions = #[] ∧
        body'.Tiles [0xFF, 0xFF, 0x02, 0x40, 0x41, 0x80, 0x80, 0x00, 0x0D, 0x80, 0x00, 0x0B, 0x05,
          0x05] 13 left' := by
  have hfirst : read .segment 0 (.between [0xFF, 0xFF] [0x02, 0x40, 0x41, 0x80, 0x80, 0x00, 0x0D,
      0x80, 0x00, 0x0B, 0x05, 0x05]) =
      (.ok ⟨#[⟨.enter .block .empty 0, 2, 2⟩, ⟨.plain (.const (.i32 0)), 4, 4⟩,
          ⟨.brIf ⟨0, 0⟩, 8, 3⟩, ⟨.close (some 0), 11, 1⟩],
        #[⟨.block, .empty, 0, none, some 3⟩], 0, true⟩, .between [0xFF, 0xFF, 0x02, 0x40, 0x41,
          0x80, 0x80, 0x00, 0x0D, 0x80, 0x00, 0x0B, 0x05] [0x05]) := by
    decide +kernel
  have hsecond : read .segment 0 (.between [0xFF, 0xFF, 0x02, 0x40, 0x41, 0x80, 0x80, 0x00, 0x0D,
      0x80, 0x00, 0x0B, 0x05] [0x05]) =
      (.ok ⟨#[], #[], 0, true⟩, .between [0xFF, 0xFF, 0x02, 0x40, 0x41, 0x80, 0x80, 0x00, 0x0D,
        0x80, 0x00, 0x0B, 0x05, 0x05] []) := by
    decide +kernel
  exact ⟨_, _, hfirst, rfl, read_tiles hfirst, _, _, hsecond, rfl, read_tiles hsecond⟩

end Body

end FlatWasm
