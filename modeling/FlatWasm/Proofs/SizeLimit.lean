import FlatWasm.Proofs.Scanning

/-!
# How long a body may be

The size of a body is looked at before each instruction, and what is compared with the limit is the
offset at which the instruction begins. The instruction that ends a body is a single byte, so a body
may be one byte longer than the limit and no more. A body that is longer still is refused for its
size, whatever else may be said of it.
-/

namespace FlatWasm

/-- Chunks that make up a body in all but their size. -/
structure Complete (mode : BodyMode) (chunks : List Chunk) (elseTerminated : Bool)
    (final : Control) : Prop where
  follows : Control.Follows 0 .empty (Chunk.code chunks) final
  finished : Finished mode elseTerminated (Chunk.code chunks) final

/-! ## Beyond the limit -/

namespace Scan

/-- The scan comes to the error that says a body is too large. -/
def Oversized (outcome : Except DecodeError Bool × Scan) : Prop :=
  ∃ final, outcome = (.error (.malformed (.bodyTooLarge maxBodySize)), final)

theorem run_beyond {mode : BodyMode} {begin rounds : Nat} {scan : Scan}
    (h : maxBodySize < scan.cursor.offset - begin) : Oversized (run mode begin rounds scan) := by
  have ht : scan.tooLarge begin = true := by simpa [tooLarge] using h
  refine ⟨scan, ?_⟩
  unfold run
  rw [if_pos ht]

/-- A scan over the chunks of a body that is too large stops at the first chunk that begins beyond
the limit. -/
theorem run_oversized {mode : BodyMode} {begin rounds offset : Nat} {chunks : List Chunk}
    {rest : List UInt8} {control final : Control} {instructions : Array Placed}
    {elseTerminated : Bool}
    (hrounds : (Chunk.input chunks ++ terminator elseTerminated).length ≤ rounds)
    (hfol : Control.Follows instructions.size control (Chunk.code chunks) final)
    (hfin : Finished mode elseTerminated (Chunk.code chunks) final) (hbegin : begin ≤ offset)
    (hsize : maxBodySize + 1 <
      offset - begin + (Chunk.input chunks ++ terminator elseTerminated).length) :
    Oversized (run mode begin rounds
      ⟨⟨offset, Chunk.input chunks ++ terminator elseTerminated ++ rest⟩, control,
        instructions⟩) := by
  induction chunks generalizing rounds offset control instructions with
  | nil =>
    have hl : (terminator elseTerminated).length ≤ 1 := by cases elseTerminated <;> decide
    rw [Chunk.input, List.flatMap_nil, List.nil_append] at hsize
    apply run_beyond
    show maxBodySize < offset - begin
    omega
  | cons chunk chunks ih =>
    obtain ⟨next, hst, hfol⟩ := hfol
    have hpos := chunk.spelled.length_pos
    have hinput : Chunk.input (chunk :: chunks) = chunk.bytes ++ Chunk.input chunks := rfl
    rw [hinput, List.append_assoc, List.length_append] at hrounds hsize
    by_cases hbeyond : maxBodySize < offset - begin
    · exact run_beyond hbeyond
    obtain ⟨rounds, rfl⟩ := Nat.exists_eq_add_of_le' (show 1 ≤ rounds by omega)
    rw [hinput, List.append_assoc, List.append_assoc, run_chunk (Nat.le_of_not_lt hbeyond) hst]
    split
    · -- the end of the body is one byte, which the limit allows
      next hlast =>
      have hsp := chunk.spelled
      rw [hlast] at hsp
      have hone : chunk.bytes.length = 1 := by
        rw [hsp.eq_of_close]
        rfl
      rw [Chunk.code, List.map_cons, hlast] at hfin
      obtain ⟨rfl, hnil⟩ := finished_close hfin
      obtain rfl := List.map_eq_nil_iff.mp hnil
      have hnone : (Chunk.input [] ++ terminator false).length = 0 := rfl
      omega
    · next hgo =>
      rw [← List.append_assoc]
      refine ih (by omega) ?_ ((finished_cons hgo).mp hfin) (by omega) (by omega)
      rwa [Array.size_push]

end Scan

/-! ## Bodies of any size -/

namespace Control

/-- Instructions that have nothing to do with blocks leave the control state as it is. -/
theorem follows_replicate_plain (index : Nat) (control : Control) (count : Nat) (plain : Plain) :
    Follows index control (List.replicate count (.plain plain)) control := by
  induction count generalizing index with
  | zero => rfl
  | succ count ih => exact ⟨control, .plain plain, ih (index + 1)⟩

end Control

/-- Idle instructions and an end, `count + 1` bytes in all. -/
def idle (count : Nat) : List UInt8 :=
  List.replicate count Operator.nop.opcode ++ [Operator.close.opcode]

theorem length_idle (count : Nat) : (idle count).length = count + 1 := by
  rw [idle, List.length_append, List.length_replicate, List.length_singleton]

theorem exists_complete_idle (mode : BodyMode) (count : Nat) :
    ∃ chunks final, Complete mode chunks false final ∧
      idle count = Chunk.input chunks ++ terminator false := by
  let row : List Labelled := List.replicate count (.plain .nop) ++ [.close none]
  have hrow : ∀ labelled ∈ row, labelled.instruction.Encodable := by
    intro labelled hm
    rcases List.mem_append.mp hm with hm | hm
    · rw [List.eq_of_mem_replicate hm]
      trivial
    · rw [List.mem_singleton.mp hm]
      trivial
  obtain ⟨chunks, hcode, hinput⟩ := Chunk.exists_of_encodable hrow
  refine ⟨chunks, { Control.empty with depth := -1 }, ⟨?_, ?_⟩, ?_⟩
  · rw [hcode, Control.follows_append]
    exact ⟨.empty, Control.follows_replicate_plain 0 .empty count .nop, _, .finish rfl, rfl⟩
  · refine ⟨List.replicate count (.plain .nop), hcode, ?_⟩
    intro hm
    cases List.eq_of_mem_replicate hm
  · have hnop : (List.replicate count (Labelled.plain .nop)).flatMap Labelled.encode =
        List.replicate count Operator.nop.opcode := by
      rw [List.flatMap_replicate]
      show (List.replicate count [Operator.nop.opcode]).flatten = _
      rw [List.flatten_replicate_singleton]
    rw [hinput, terminator, if_neg Bool.false_ne_true, List.append_nil, List.flatMap_append, hnop,
      List.flatMap_singleton]
    rfl

namespace Body

theorem read_of_complete {mode : BodyMode} {chunks : List Chunk} {elseTerminated : Bool}
    {final : Control} (h : Complete mode chunks elseTerminated final)
    (hsize : (Chunk.input chunks ++ terminator elseTerminated).length ≤ maxBodySize + 1)
    (params : UInt32) (offset : Nat) :
    ∃ body, read mode params ⟨offset, Chunk.input chunks ++ terminator elseTerminated⟩ =
      (.ok body,
        ⟨offset + (Chunk.input chunks ++ terminator elseTerminated).length, []⟩) := by
  let body : Body := ⟨(Chunk.place offset chunks).toArray, final.blocks, params, elseTerminated⟩
  refine ⟨body, read_ok_iff.mpr ⟨rfl, chunks, final, ?_⟩⟩
  exact ⟨(List.append_nil _).symm, rfl, h.follows, h.finished, hsize, rfl, rfl, fun _ => rfl⟩

theorem read_oversized {mode : BodyMode} {chunks : List Chunk} {elseTerminated : Bool}
    {final : Control} (h : Complete mode chunks elseTerminated final)
    (hsize : maxBodySize + 1 < (Chunk.input chunks ++ terminator elseTerminated).length)
    (params : UInt32) (offset : Nat) (rest : List UInt8) :
    ∃ left, read mode params
        ⟨offset, Chunk.input chunks ++ terminator elseTerminated ++ rest⟩ =
      (.error (.malformed (.bodyTooLarge maxBodySize)), left) := by
  have hrun : Scan.Oversized (scan mode
      ⟨offset, Chunk.input chunks ++ terminator elseTerminated ++ rest⟩) :=
    Scan.run_oversized (by simp [Cursor.remaining]) h.follows h.finished (Nat.le_refl _)
      (by simpa using hsize)
  obtain ⟨scanned, hscan⟩ := hrun
  refine ⟨scanned.cursor, ?_⟩
  rw [read, hscan]

theorem read_length_le {mode : BodyMode} {params : UInt32} {cursor left : Cursor} {body : Body}
    (h : read mode params cursor = (.ok body, left)) :
    left.offset ≤ cursor.offset + (maxBodySize + 1) := by
  obtain ⟨-, chunks, control, ht⟩ := read_ok_iff.mp h
  have hsize := ht.size_le
  rw [ht.offset_eq]
  omega

/-- A body that is read takes one byte more than the limit at most. What is a body in all but its
size and takes more is refused as too large. The bound is met, in either mode and at any place. -/
theorem read_size_limit (mode : BodyMode) (params : UInt32) (offset : Nat) :
    (∀ input body left, read mode params ⟨offset, input⟩ = (.ok body, left) →
        left.offset ≤ offset + (maxBodySize + 1)) ∧
      (∀ chunks elseTerminated final rest, Complete mode chunks elseTerminated final →
        maxBodySize + 1 < (Chunk.input chunks ++ terminator elseTerminated).length →
          ∃ left, read mode params
              ⟨offset, Chunk.input chunks ++ terminator elseTerminated ++ rest⟩ =
            (.error (.malformed (.bodyTooLarge maxBodySize)), left)) ∧
      ∃ input body left, read mode params ⟨offset, input⟩ = (.ok body, left) ∧
        left.offset = offset + (maxBodySize + 1) := by
  refine ⟨fun input body left h => read_length_le h,
    fun chunks elseTerminated final rest h hsize => read_oversized h hsize params offset rest, ?_⟩
  obtain ⟨chunks, final, h, hidle⟩ := exists_complete_idle mode maxBodySize
  have hlen := length_idle maxBodySize
  rw [hidle] at hlen
  obtain ⟨body, hread⟩ := read_of_complete h (Nat.le_of_eq hlen) params offset
  exact ⟨_, body, _, hread, by rw [hlen]⟩

/-- A body of three bytes is read within the bound. A body of idle instructions that is two bytes
longer than the limit is refused. -/
theorem read_size_limit_idle :
    (∃ body left, read .function 0 (.ofBytes [0x01, 0x01, 0x0B]) = (.ok body, left) ∧
        left.offset ≤ 0 + (maxBodySize + 1)) ∧
      ∃ left, read .function 0 (.ofBytes (idle (maxBodySize + 1))) =
        (.error (.malformed (.bodyTooLarge maxBodySize)), left) := by
  constructor
  · have h : read .function 0 ⟨0, [0x01, 0x01, 0x0B]⟩ =
        (.ok ⟨#[⟨.plain .nop, 0, 1⟩, ⟨.plain .nop, 1, 1⟩, ⟨.close none, 2, 1⟩], #[], 0, false⟩,
          ⟨3, []⟩) := by
      decide +kernel
    exact ⟨_, _, h, (read_size_limit .function 0 0).1 _ _ _ h⟩
  · obtain ⟨chunks, final, h, hidle⟩ := exists_complete_idle .function (maxBodySize + 1)
    have hlen := length_idle (maxBodySize + 1)
    rw [hidle] at hlen
    obtain ⟨left, hread⟩ :=
      (read_size_limit .function 0 0).2.1 chunks false final [] h (by omega)
    rw [List.append_nil, ← hidle] at hread
    exact ⟨left, hread⟩

/-- The limit is not a limit on the number of bytes: here a function has one more. -/
theorem read_beyond_maxBodySize :
    ∃ body left, read .function 0 (.ofBytes (idle maxBodySize)) = (.ok body, left) ∧
      left.remaining = 0 ∧ maxBodySize < left.offset := by
  obtain ⟨chunks, final, h, hidle⟩ := exists_complete_idle .function maxBodySize
  have hlen := length_idle maxBodySize
  rw [hidle] at hlen
  obtain ⟨body, hread⟩ := read_of_complete h (Nat.le_of_eq hlen) 0 0
  rw [hlen, ← hidle] at hread
  refine ⟨body, _, hread, rfl, ?_⟩
  show maxBodySize < 0 + (maxBodySize + 1)
  omega

end Body

end FlatWasm
