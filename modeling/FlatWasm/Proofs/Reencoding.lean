import FlatWasm.Proofs.Scanning

/-!
# Reading what was written

Writing a body that was read gives the canonical form of its bytes: every chunk is replaced by the
shortest spelling of its instruction. Labels do not depend on how an instruction is spelled, so the
canonical form is read as the same body, apart from the places of the instructions.
-/

namespace FlatWasm

namespace Chunk

/-- The same instruction in the spelling that is written. -/
def canonical (chunk : Chunk) : Chunk :=
  ⟨chunk.labelled, chunk.labelled.encode, Instruction.spelled_encode chunk.spelled.encodable⟩

theorem code_canonical (chunks : List Chunk) : code (chunks.map canonical) = code chunks := by
  simp only [code, List.map_map]
  rfl

theorem input_canonical (chunks : List Chunk) :
    input (chunks.map canonical) = (code chunks).flatMap Labelled.encode := by
  simp only [input, code, List.flatMap_map]
  rfl

theorem shortens_input (chunks : List Chunk) :
    Shortens (input (chunks.map canonical)) (input chunks) := by
  induction chunks with
  | nil => exact Shortens.refl _
  | cons chunk rest ih => exact chunk.spelled.shortens.append ih

end Chunk

namespace Body

/-- A body that was read is read again from its written form, in shorter places; and the written
form is the only one of its length. -/
theorem reencode_canonical {bytes : List UInt8} {params : UInt32} {body : Body}
    (h : decode bytes params = .ok body) :
    (∃ again, decode body.encode params = .ok again ∧ again.code = body.code ∧
        again.blocks = body.blocks ∧ again.params = body.params ∧
        again.elseTerminated = body.elseTerminated ∧ again.encode = body.encode) ∧
      body.encode.length ≤ bytes.length ∧
      (body.encode.length = bytes.length → body.encode = bytes) := by
  obtain ⟨hp, he, chunks, control, front, rfl, hfol, hcode, hn, hsize, hins, hblocks⟩ :=
    decode_ok_iff.mp h
  have hbody : body.code = Chunk.code chunks := by
    rw [code, hins, Chunk.place_labelled]
  have henc : body.encode = Chunk.input (chunks.map Chunk.canonical) := by
    rw [encode_eq, hbody, Chunk.input_canonical]
  have hshort := Chunk.shortens_input chunks
  rw [henc]
  refine ⟨?_, hshort.length_le, hshort.eq_of_length_eq⟩
  let again : Body :=
    ⟨(Chunk.place 0 (chunks.map Chunk.canonical)).toArray, body.blocks, params, false⟩
  have hagain : again.code = body.code := by
    rw [hbody, ← Chunk.code_canonical, ← Chunk.place_labelled 0]
    simp [again, code]
  refine ⟨again, decode_ok_iff.mpr ⟨rfl, rfl, chunks.map Chunk.canonical, control, front, rfl, ?_, ?_,
    hn, hshort.length_le.trans hsize, by simp [again], hblocks⟩, hagain, rfl, hp.symm, he.symm, ?_⟩
  · rwa [Chunk.code_canonical]
  · rwa [Chunk.code_canonical]
  · rw [encode_eq, hagain, ← encode_eq, henc]

/-- The operands of a constant, a branch and a branch table are padded in these bytes, and are
written without padding. -/
theorem reencode_padded :
    ∃ body, decode [0x02, 0x40, 0x41, 0x80, 0x80, 0x00, 0x0D, 0x80, 0x00, 0x0E, 0x81, 0x00, 0x00,
        0x80, 0x00, 0x0B, 0x0B] 2 = .ok body ∧
      body.encode = [0x02, 0x40, 0x41, 0x00, 0x0D, 0x00, 0x0E, 0x01, 0x00, 0x00, 0x0B, 0x0B] ∧
      ∃ again, decode body.encode 2 = .ok again ∧ again.code = body.code ∧
        again.blocks = body.blocks ∧ again.params = body.params ∧
        again.elseTerminated = body.elseTerminated ∧ again.encode = body.encode := by
  have h : decode [0x02, 0x40, 0x41, 0x80, 0x80, 0x00, 0x0D, 0x80, 0x00, 0x0E, 0x81, 0x00, 0x00,
      0x80, 0x00, 0x0B, 0x0B] 2 = .ok
      ⟨#[⟨.enter .block .empty 0, 0, 2⟩, ⟨.plain (.const (.i32 0)), 2, 4⟩, ⟨.brIf ⟨0, 0⟩, 6, 3⟩,
          ⟨.brTable [⟨0, 0⟩] ⟨0, 0⟩, 9, 6⟩, ⟨.close (some 0), 15, 1⟩, ⟨.close none, 16, 1⟩],
        #[⟨.block, .empty, 0, none, some 4⟩], 2, false⟩ := by
    decide +kernel
  exact ⟨_, h, by decide +kernel, (reencode_canonical h).1⟩

end Body

end FlatWasm
