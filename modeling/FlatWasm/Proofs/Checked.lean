import FlatWasm.Proofs.Operands
import Mathlib.Data.PFun
import Mathlib.Tactic.IntervalCases

/-!
# Reading with every partial operation checked

A second set of readers, over an input and a position in it, and in words of fixed width. Nothing
about them is safe by construction: the position may lie anywhere, and an index beyond the input, a
subtraction below zero, a shift by the whole width of a word or a conversion that would lose bits
has no result. The loops have no bound, and one that would not end has no result either.

Every operation does come to a result, and to the one of the reader it stands beside. It starts and
ends at a position within the input.
-/

namespace FlatWasm

namespace Checked

variable {α β γ σ ρ : Type}

/-! ## Loops -/

def rounds (round : σ → Option (ρ ⊕ σ)) : σ →. ρ ⊕ σ := fun state => round state

/-- Goes on from state to state until a round ends with a result. -/
noncomputable def loop (round : σ → Option (ρ ⊕ σ)) (state : σ) : Option ρ :=
  open Classical in ((rounds round).fix state).toOption

theorem mem_loop {round : σ → Option (ρ ⊕ σ)} {state : σ} {result : ρ} :
    result ∈ loop round state ↔
      .inl result ∈ round state ∨ ∃ next, .inr next ∈ round state ∧ result ∈ loop round next := by
  unfold loop
  simp only [Part.mem_toOption]
  rw [PFun.mem_fix_iff]
  show .inl result ∈ (round state : Part (ρ ⊕ σ)) ∨
    (∃ next, .inr next ∈ (round state : Part (ρ ⊕ σ)) ∧ _) ↔ _
  simp only [Part.mem_coe]

theorem loop_eq (round : σ → Option (ρ ⊕ σ)) (state : σ) :
    loop round state = (round state).bind (Sum.elim some (loop round)) := by
  apply Option.ext
  intro result
  rw [← Option.mem_def, mem_loop, ← Option.mem_def, Option.mem_bind_iff]
  constructor
  · intro h
    rcases h with h | ⟨next, hn, h⟩
    · exact ⟨.inl result, h, rfl⟩
    · exact ⟨.inr next, hn, h⟩
  · intro h
    obtain ⟨outcome, ho, h⟩ := h
    cases outcome with
    | inl value =>
      obtain rfl : value = result := Option.mem_some_iff.mp h
      exact .inl ho
    | inr next => exact .inr ⟨next, ho, h⟩

/-! ## Operations -/

/-- The bytes of an input and a position, which may lie beyond them. -/
structure Buffer where
  bytes : List UInt8
  pos : Nat

/-- Operations that succeed, fail, or come to no result at all. -/
abbrev Op (α : Type) := ExceptT Malformed (StateT Buffer Option) α

/-- Has no result if the value is missing. -/
def defined (value : Option α) : Op α := fun buffer =>
  value.map fun value => (.ok value, buffer)

/-- A round that fails ends the loop. -/
def outcome : Except Malformed (α ⊕ σ) × Buffer → (Except Malformed α × Buffer) ⊕ (σ × Buffer)
  | (.ok (.inl value), buffer) => .inl (.ok value, buffer)
  | (.ok (.inr state), buffer) => .inr (state, buffer)
  | (.error cause, buffer) => .inl (.error cause, buffer)

/-- A loop whose rounds read on at the position that the round before has left. -/
noncomputable def repeatedly (round : σ → Op (α ⊕ σ)) (state : σ) : Op α := fun buffer =>
  loop (fun place => (round place.1 place.2).map outcome) (state, buffer)

/-! ## Partial operations -/

def subtract (a b : Nat) : Option Nat := if b ≤ a then some (a - b) else none

def shiftLeft {width : Nat} (word : BitVec width) (amount : Nat) : Option (BitVec width) :=
  if amount < width then some (word <<< amount) else none

def shiftRight {width : Nat} (word : BitVec width) (amount : Nat) : Option (BitVec width) :=
  if amount < width then some (word >>> amount) else none

def toUInt32 (value : Nat) : Option UInt32 :=
  if value < UInt32.size then some (UInt32.ofNat value) else none

def toInt32 (value : Int) : Option Int32 :=
  if Int32.minValue.toInt ≤ value ∧ value ≤ Int32.maxValue.toInt then some (Int32.ofInt value)
  else none

/-- The bytes from one place up to another. -/
def slice (bytes : List UInt8) (start stop : Nat) : Option (List UInt8) :=
  if start ≤ stop ∧ stop ≤ bytes.length then some ((bytes.take stop).drop start) else none

/-! ## Readers -/

def remaining : Op Nat := do
  let buffer ← get
  defined (subtract buffer.bytes.length buffer.pos)

def hasAtLeast (count : Nat) : Op Bool := do
  return count ≤ (← remaining)

def byte : Op UInt8 := do
  let buffer ← get
  if buffer.pos < buffer.bytes.length then
    let value ← defined buffer.bytes[buffer.pos]?
    set (Buffer.mk buffer.bytes (buffer.pos + 1))
    return value
  else throw .unexpectedEnd

def bytes (count : Nat) : Op (List UInt8) := do
  if ← hasAtLeast count then
    let buffer ← get
    set (Buffer.mk buffer.bytes (buffer.pos + count))
    defined (slice buffer.bytes buffer.pos (buffer.pos + count))
  else throw .unexpectedEnd

/-- The seven bits of the value that a byte carries. -/
def payload (byte : UInt8) : BitVec 8 := byte.toBitVec &&& 0x7F

/-- Reads a further group of an unsigned integer, of which the lowest `shift` bits are known. -/
def unsignedRound (width : Nat) : Nat × BitVec 64 → Op (BitVec 64 ⊕ Nat × BitVec 64)
  | (shift, result) => do
    let byte ← byte
    let word := (payload byte).setWidth 64
    let room ← defined (subtract width shift)
    let beyond ← defined (if room < 7 then shiftRight word room else some 0)
    if beyond ≠ 0 then throw .integerTooLarge
    else
      let group ← defined (shiftLeft word shift)
      if byte &&& 0x80 = 0 then return .inl (result ||| group)
      else if width ≤ shift + 7 then throw .integerTooLong
      else return .inr (shift + 7, result ||| group)

/-- Whether the bits of a group beyond the room repeat the sign bit. -/
def signFits (room : Nat) (group : BitVec 8) : Option Bool :=
  if room < 7 then do
    let used ← subtract room 1
    let high ← shiftRight group used
    let ones ← shiftRight (0x7F : BitVec 8) used
    return high == 0 || high == ones
  else some true

/-- Reads a further group of a signed integer, of which the lowest `shift` bits are known. -/
def signedRound (width : Nat) : Nat × BitVec 64 → Op (BitVec 64 ⊕ Nat × BitVec 64)
  | (shift, result) => do
    let byte ← byte
    let room ← defined (subtract width shift)
    let fits ← defined (signFits room (payload byte))
    if !fits then throw .integerTooLarge
    else
      let group ← defined (shiftLeft ((payload byte).setWidth 64) shift)
      if byte &&& 0x80 = 0 then
        let sign ← defined
          (if shift + 7 < 64 ∧ byte &&& 0x40 ≠ 0 then shiftLeft (-1) (shift + 7) else some 0)
        return .inl (result ||| group ||| sign)
      else if width ≤ shift + 7 then throw .integerTooLong
      else return .inr (shift + 7, result ||| group)

noncomputable def unsigned (width : Nat) : Op (BitVec 64) :=
  if width = 0 ∨ 64 < width then throw (.unsupportedWidth width)
  else repeatedly (unsignedRound width) (0, 0)

noncomputable def signed (width : Nat) : Op (BitVec 64) :=
  if width = 0 ∨ 64 < width then throw (.unsupportedWidth width)
  else repeatedly (signedRound width) (0, 0)

noncomputable def index : Op UInt32 := do defined (toUInt32 (← unsigned 32).toNat)

noncomputable def int32 : Op Int32 := do defined (toInt32 (← signed 32).toInt)

noncomputable def int64 : Op Int64 := do return Int64.ofBitVec (← signed 64)

def word32 : Op UInt32 := do return UInt32.ofNat (Word.ofLittleEndian (← bytes 4))

def word64 : Op UInt64 := do return UInt64.ofNat (Word.ofLittleEndian (← bytes 8))

def times (item : Op α) : Nat → Op (List α)
  | 0 => pure []
  | count + 1 => do
    let value ← item
    let values ← times item count
    return value :: values

noncomputable def indices : Op (List UInt32) := do
  let length ← index
  if maxBranchTargets < length.toNat then throw (.vectorTooLong length.toNat)
  else if ← hasAtLeast length.toNat then times index length.toNat
  else throw (.vectorPastEnd length.toNat)

noncomputable def blockType : Op BlockType := do
  let code := (← signed 33).toInt
  if 0 ≤ code then return .index (← defined (toUInt32 code.toNat))
  else
    match BlockType.ofCode? code with
    | some type => return type
    | none => throw (.invalidBlockType code)

noncomputable def memArg : Op MemArg := do
  let align ← index
  let offset ← index
  return ⟨align, offset⟩

def reserved (use : ReservedUse) : Op Unit := do
  let value ← byte
  if value = 0 then return () else throw (.reservedByte use value)

noncomputable def constant : ValueType → Op Constant
  | .i32 => do return .i32 (← int32)
  | .i64 => do return .i64 (← int64)
  | .f32 => do return .f32 (← word32)
  | .f64 => do return .f64 (← word64)

/-- Reads the operands that belong to an operator. -/
noncomputable def operands : Operator → Op Instruction
  | .unreachable => return .plain .unreachable
  | .nop => return .plain .nop
  | .ret => return .plain .ret
  | .enter kind => do return .enter kind (← blockType)
  | .otherwise => return .otherwise
  | .close => return .close
  | .br => do return .br (← index)
  | .brIf => do return .brIf (← index)
  | .brTable => do
    let depths ← indices
    let default ← index
    return .brTable depths default
  | .call => do return .plain (.call (← index))
  | .callIndirect => do
    let type ← index
    reserved .callIndirect
    return .plain (.callIndirect type)
  | .parametric op => return .plain (.parametric op)
  | .variable op => do return .plain (.variable op (← index))
  | .memory op => do return .plain (.memory op (← memArg))
  | .memorySize op => do
    reserved op.reservedUse
    return .plain (.memorySize op)
  | .const type => do return .plain (.const (← constant type))
  | .numeric op => return .plain (.numeric op)

/-! ## Sequencing -/

theorem bind_apply (op : Op α) (next : α → Op β) (buffer : Buffer) :
    (op >>= next) buffer =
      match op buffer with
      | none => none
      | some (.ok value, buffer) => next value buffer
      | some (.error cause, buffer) => some (.error cause, buffer) := by
  show (ExceptT.bind op next) buffer = _
  simp only [ExceptT.bind, ExceptT.mk, bind, StateT.bind, ExceptT.bindCont]
  rcases op buffer with _ | ⟨_ | _, _⟩ <;> rfl

@[simp] theorem defined_bind (value : α) (next : α → Op β) :
    (defined (some value) >>= next) = next value := rfl

@[simp] theorem get_bind (next : Buffer → Op β) (buffer : Buffer) :
    (get >>= next : Op β) buffer = next buffer buffer := rfl

@[simp] theorem pure_apply (value : α) (buffer : Buffer) :
    (pure value : Op α) buffer = some (.ok value, buffer) := rfl

theorem repeatedly_eq (round : σ → Op (α ⊕ σ)) (state : σ) :
    repeatedly round state = round state >>= Sum.elim pure (repeatedly round) := by
  funext buffer
  rw [bind_apply, repeatedly, loop_eq]
  rcases round state buffer with _ | ⟨_ | _ | _, _⟩ <;> rfl

/-- From a position within the input, the operation comes to the result of the reader, as the view
shows it, and to a position within the input. -/
def Implements (view : α → β) (op : Op α) (reader : Read β) : Prop :=
  ∀ bytes pos, pos ≤ bytes.length → ∃ result last, pos ≤ last ∧ last ≤ bytes.length ∧
    op ⟨bytes, pos⟩ = some (result, ⟨bytes, last⟩) ∧
    reader ⟨pos, bytes.drop pos⟩ = (result.map view, ⟨last, bytes.drop last⟩)

namespace Implements

variable {δ : Type} {view : α → β} {op : Op α} {reader : Read β}

theorem ret (view : α → β) (value : α) : Implements view (pure value) (pure (view value)) :=
  fun _ pos h => ⟨.ok value, pos, Nat.le_refl pos, h, rfl, rfl⟩

theorem fail (view : α → β) (cause : Malformed) :
    Implements view (throw cause) (Read.fail cause) :=
  fun _ pos h => ⟨.error cause, pos, Nat.le_refl pos, h, rfl, rfl⟩

/-- The rest of a sequence needs to follow only for values that the reader has read. -/
theorem bind {view' : γ → δ} {next : α → Op γ} {next' : β → Read δ}
    (h : Implements view op reader)
    (hn : ∀ value, (∃ cursor left, reader cursor = (.ok (view value), left)) →
      Implements view' (next value) (next' (view value))) :
    Implements view' (op >>= next) (reader >>= next') := by
  intro bytes pos hpos
  obtain ⟨result, last, hle, hlast, hop, hread⟩ := h bytes pos hpos
  rw [bind_apply, hop, Read.bind_apply, hread]
  cases result with
  | error cause => exact ⟨.error cause, last, hle, hlast, rfl, rfl⟩
  | ok value =>
    obtain ⟨result, last', hle', hlast', hop', hread'⟩ := hn value ⟨_, _, hread⟩ bytes last hlast
    exact ⟨result, last', Nat.le_trans hle hle', hlast', hop', hread'⟩

/-- The result changed on both sides. -/
theorem map (h : Implements view op reader) {change : α → γ} {change' : β → δ} {view' : γ → δ}
    (hc : ∀ value, view' (change value) = change' (view value)) :
    Implements view' (op >>= fun value => pure (change value))
      (reader >>= fun value => pure (change' value)) := by
  refine h.bind fun value _ => ?_
  rw [← hc]
  exact ret view' (change value)

end Implements

/-! ## Bytes -/

theorem pos_lt {input : List UInt8} {pos : Nat} {value : UInt8} {rest : List UInt8}
    (h : input.drop pos = value :: rest) : pos < input.length := by
  by_contra hle
  rw [List.drop_eq_nil_of_le (by omega)] at h
  cases h

theorem drop_succ {input : List UInt8} {pos : Nat} {value : UInt8} {rest : List UInt8}
    (h : input.drop pos = value :: rest) : input.drop (pos + 1) = rest := by
  rw [← List.drop_drop, h, List.drop_one, List.tail_cons]

theorem byte_cons {input : List UInt8} {pos : Nat} {value : UInt8} {rest : List UInt8}
    (h : input.drop pos = value :: rest) :
    byte ⟨input, pos⟩ = some (.ok value, ⟨input, pos + 1⟩) := by
  have hget : input[pos]? = some value := by
    rw [← List.head?_drop, h, List.head?_cons]
  rw [byte, get_bind, if_pos (pos_lt h), hget]
  rfl

theorem byte_nil {input : List UInt8} {pos : Nat} (h : input.drop pos = []) :
    byte ⟨input, pos⟩ = some (.error .unexpectedEnd, ⟨input, pos⟩) := by
  rw [List.drop_eq_nil_iff] at h
  rw [byte, get_bind, if_neg (by simpa using h)]
  rfl

theorem implements_byte : Implements id byte Read.byte := by
  intro input pos hpos
  cases hd : input.drop pos with
  | nil => exact ⟨_, pos, Nat.le_refl pos, hpos, byte_nil hd, by rw [hd]; rfl⟩
  | cons value rest =>
    refine ⟨_, pos + 1, Nat.le_succ pos, pos_lt hd, byte_cons hd, ?_⟩
    rw [drop_succ hd]
    rfl

theorem subtract_eq {a b : Nat} (h : b ≤ a) : subtract a b = some (a - b) := if_pos h

theorem remaining_apply {input : List UInt8} {pos : Nat} (h : pos ≤ input.length) :
    remaining ⟨input, pos⟩ = some (.ok (input.drop pos).length, ⟨input, pos⟩) := by
  rw [remaining, get_bind, subtract_eq h, List.length_drop]
  rfl

example : remaining ⟨[], 1⟩ = none := rfl

theorem hasAtLeast_apply {input : List UInt8} {pos : Nat} (h : pos ≤ input.length) (count : Nat) :
    hasAtLeast count ⟨input, pos⟩ =
      some (.ok (Cursor.hasAtLeast ⟨pos, input.drop pos⟩ count), ⟨input, pos⟩) := by
  have heq : decide (count ≤ (input.drop pos).length) =
      Cursor.hasAtLeast ⟨pos, input.drop pos⟩ count := by
    rw [Bool.eq_iff_iff, Read.hasAtLeast_iff, decide_eq_true_eq]
  rw [hasAtLeast, bind_apply, remaining_apply h, ← heq]
  rfl

theorem implements_hasAtLeast (count : Nat) :
    Implements id (hasAtLeast count) (Read.hasAtLeast count) :=
  fun _ pos hpos => ⟨_, pos, Nat.le_refl pos, hpos, hasAtLeast_apply hpos count, rfl⟩

theorem implements_bytes (count : Nat) : Implements id (bytes count) (Read.bytes count) := by
  intro input pos hpos
  rw [bytes, bind_apply, hasAtLeast_apply hpos, Read.bytes]
  cases hh : Cursor.hasAtLeast ⟨pos, input.drop pos⟩ count with
  | false => exact ⟨_, pos, Nat.le_refl pos, hpos, rfl, rfl⟩
  | true =>
    have hcount : count ≤ (input.drop pos).length := Read.hasAtLeast_iff.mp hh
    rw [List.length_drop] at hcount
    have hslice : slice input pos (pos + count) = some ((input.drop pos).take count) := by
      rw [slice, if_pos (by omega), List.drop_take, Nat.add_sub_cancel_left]
    refine ⟨.ok ((input.drop pos).take count), pos + count, by omega, by omega, ?_, ?_⟩
    · show defined (slice input pos (pos + count)) ⟨input, pos + count⟩ = _
      rw [hslice]
      rfl
    · rw [← List.drop_drop]
      rfl

/-! ## Words -/

theorem payload_toNat (byte : UInt8) : (payload byte).toNat = Leb128.payload byte := by
  rw [payload, BitVec.toNat_and]
  exact Nat.and_two_pow_sub_one_eq_mod byte.toNat 7

theorem word_toNat (byte : UInt8) : ((payload byte).setWidth 64).toNat = Leb128.payload byte := by
  have hlt := Leb128.payload_lt byte
  rw [BitVec.toNat_setWidth, payload_toNat, Nat.mod_eq_of_lt (by omega)]

theorem and_top_eq_zero_iff (byte : UInt8) :
    byte &&& 0x80 = 0 ↔ Leb128.continues byte = false := by
  obtain ⟨bits⟩ := byte
  revert bits
  decide +kernel

theorem and_sign_ne_zero_iff (byte : UInt8) : byte &&& 0x40 ≠ 0 ↔ 64 ≤ Leb128.payload byte := by
  obtain ⟨bits⟩ := byte
  revert bits
  decide +kernel

theorem shiftLeft_ofInt (value : Int) (amount : Nat) :
    BitVec.ofInt 64 value <<< amount = BitVec.ofInt 64 (value * 2 ^ amount) := by
  have hpow : BitVec.twoPow 64 amount = BitVec.ofInt 64 (2 ^ amount) := by
    have hcast : ((2 ^ amount : Nat) : Int) = 2 ^ amount := by push_cast; rfl
    rw [← hcast, BitVec.ofInt_natCast]
    exact BitVec.eq_of_toNat_eq (by rw [BitVec.toNat_twoPow, BitVec.toNat_ofNat])
  rw [BitVec.shiftLeft_eq_mul_twoPow, BitVec.ofInt_mul, hpow]

theorem group_eq (byte : UInt8) (shift : Nat) :
    (payload byte).setWidth 64 <<< shift =
      BitVec.ofInt 64 (Leb128.payload byte * 2 ^ shift) := by
  have hword : (payload byte).setWidth 64 = BitVec.ofInt 64 (Leb128.payload byte : Int) := by
    rw [BitVec.ofInt_natCast, ← word_toNat, BitVec.ofNat_toNat, BitVec.setWidth_eq]
  rw [hword, shiftLeft_ofInt]

/-- Bits above those of a word are joined to it by addition. -/
theorem or_shiftLeft {word : BitVec 64} {amount : Nat} (h : word.toNat < 2 ^ amount)
    (high : BitVec 64) : word ||| high <<< amount = word + high <<< amount := by
  refine (BitVec.add_eq_or_of_and_eq_zero _ _ (BitVec.eq_of_getLsbD_eq fun place _ => ?_)).symm
  rw [BitVec.getLsbD_and, BitVec.getLsbD_shiftLeft]
  by_cases hlt : place < amount
  · simp [hlt]
  · have hle : 2 ^ amount ≤ 2 ^ place := Nat.pow_le_pow_right (by decide) (by omega)
    have hclear : word.getLsbD place = false := by
      rw [← BitVec.testBit_toNat]
      exact Nat.testBit_lt_two_pow (by omega)
    simp [hclear]

theorem or_group_lt {word : BitVec 64} {shift : Nat} (h : word.toNat < 2 ^ shift) (byte : UInt8) :
    (word ||| (payload byte).setWidth 64 <<< shift).toNat < 2 ^ (shift + 7) := by
  have hle : 2 ^ shift ≤ 2 ^ (shift + 7) := Nat.pow_le_pow_right (by decide) (by omega)
  have hgroup : Leb128.payload byte * 2 ^ shift < 2 ^ (shift + 7) := by
    rw [Nat.pow_add, Nat.mul_comm]
    exact (Nat.mul_lt_mul_left (Nat.two_pow_pos shift)).mpr (Leb128.payload_lt byte)
  rw [BitVec.toNat_or, BitVec.toNat_shiftLeft, word_toNat, Nat.shiftLeft_eq]
  exact Nat.or_lt_two_pow (by omega) (lt_of_le_of_lt (Nat.mod_le _ _) hgroup)

/-- A group joined to the bits below it, and the value of the groups above it. -/
theorem join_group {result : BitVec 64} {shift : Nat} (h : result.toNat < 2 ^ shift) (byte : UInt8)
    (high : Int) :
    (result ||| (payload byte).setWidth 64 <<< shift) + BitVec.ofInt 64 (high * 2 ^ (shift + 7)) =
      result + BitVec.ofInt 64 ((Leb128.payload byte + 128 * high) * 2 ^ shift) := by
  have hsum : ((Leb128.payload byte : Int) + 128 * high) * 2 ^ shift =
      Leb128.payload byte * 2 ^ shift + high * 2 ^ (shift + 7) := by
    rw [pow_add]
    ring
  rw [or_shiftLeft h, group_eq, hsum, BitVec.ofInt_add, BitVec.add_assoc]

/-! ## Unsigned integers -/

section

variable {width shift pos : Nat} {result : BitVec 64} {input rest : List UInt8} {value : UInt8}

theorem shiftLeft_group (hs : shift < width) (hw : width ≤ 64) (word : BitVec 64) :
    shiftLeft word shift = some (word <<< shift) :=
  if_pos (by omega)

/-- Both loops go on in the same way once a group has been joined. -/
theorem last_or_again (value : UInt8) (last again : Op α) (buffer : Buffer) :
    (if value &&& 0x80 = 0 then last
      else if width ≤ shift + 7 then throw .integerTooLong else again) buffer =
      if !Leb128.continues value then last buffer
      else if width - shift ≤ 7 then some (.error .integerTooLong, buffer)
      else again buffer := by
  have hlong : width ≤ shift + 7 ↔ width - shift ≤ 7 := by omega
  simp only [and_top_eq_zero_iff, hlong, Bool.not_eq_true']
  split
  · rfl
  · split <;> rfl

theorem beyond_room (room : Nat) (value : UInt8) :
    ∃ beyond, (if room < 7 then shiftRight ((payload value).setWidth 64) room else some 0) =
        some beyond ∧
      (beyond ≠ 0 ↔ 1 <<< room ≤ Leb128.payload value) := by
  have hlt := Leb128.payload_lt value
  rw [Nat.one_shiftLeft]
  by_cases hr : room < 7
  · refine ⟨(payload value).setWidth 64 >>> room, by rw [if_pos hr, shiftRight, if_pos (by omega)],
      ?_⟩
    rw [← BitVec.toNat_inj.ne, BitVec.toNat_ushiftRight, word_toNat, Nat.shiftRight_eq_div_pow]
    show Leb128.payload value / 2 ^ room ≠ 0 ↔ _
    rw [Nat.div_ne_zero_iff]
    have hpos := Nat.two_pow_pos room
    omega
  · have hle : 2 ^ 7 ≤ 2 ^ room := Nat.pow_le_pow_right (by decide) (by omega)
    refine ⟨0, by rw [if_neg hr], ?_⟩
    simp only [ne_eq, not_true_eq_false, false_iff]
    omega

theorem unsignedRound_cons (hs : shift < width) (hw : width ≤ 64)
    (h : input.drop pos = value :: rest) :
    unsignedRound width (shift, result) ⟨input, pos⟩ =
      if 1 <<< (width - shift) ≤ Leb128.payload value then
        some (.error .integerTooLarge, ⟨input, pos + 1⟩)
      else if !Leb128.continues value then
        some (.ok (.inl (result ||| (payload value).setWidth 64 <<< shift)), ⟨input, pos + 1⟩)
      else if width - shift ≤ 7 then some (.error .integerTooLong, ⟨input, pos + 1⟩)
      else some (.ok (.inr (shift + 7, result ||| (payload value).setWidth 64 <<< shift)),
        ⟨input, pos + 1⟩) := by
  obtain ⟨beyond, hbeyond, hiff⟩ := beyond_room (width - shift) value
  rw [unsignedRound, bind_apply, byte_cons h]
  simp only [subtract_eq (Nat.le_of_lt hs), defined_bind, hbeyond, shiftLeft_group hs hw]
  by_cases hb : beyond ≠ 0
  · rw [if_pos hb, if_pos (hiff.mp hb)]
    rfl
  · rw [if_neg hb, if_neg (hiff.not.mp hb)]
    exact last_or_again value _ _ _

/-- The loop comes to the value of the groups, above the bits that it has. -/
theorem repeatedly_unsignedRound (hs : shift < width) (hw : width ≤ 64)
    (hr : result.toNat < 2 ^ shift) (hpos : pos ≤ input.length) :
    ∃ outcome last, pos ≤ last ∧ last ≤ input.length ∧
      repeatedly (unsignedRound width) (shift, result) ⟨input, pos⟩ =
        some (outcome.map fun high => result + BitVec.ofInt 64 (high * 2 ^ shift), ⟨input, last⟩) ∧
      Leb128.unsignedGroups (width - shift) pos (input.drop pos) =
        (outcome, ⟨last, input.drop last⟩) := by
  -- on the bytes that are left
  induction hd : input.drop pos generalizing pos shift result with
  | nil =>
    refine ⟨.error .unexpectedEnd, pos, Nat.le_refl pos, hpos, ?_, by rw [hd]; rfl⟩
    rw [repeatedly_eq, bind_apply, unsignedRound, bind_apply, byte_nil hd]
    rfl
  | cons value rest ih =>
    have hlt := pos_lt hd
    have hrest := drop_succ hd
    rw [repeatedly_eq, bind_apply, unsignedRound_cons hs hw hd, Leb128.unsignedGroups]
    split_ifs with hlarge hend hlong
    · exact ⟨.error .integerTooLarge, pos + 1, by omega, hlt, rfl, by rw [hrest]⟩
    · refine ⟨.ok (Leb128.payload value), pos + 1, by omega, hlt, ?_, by rw [hrest]⟩
      rw [or_shiftLeft hr, group_eq]
      rfl
    · exact ⟨.error .integerTooLong, pos + 1, by omega, hlt, rfl, by rw [hrest]⟩
    obtain ⟨outcome, last, hle, hlast, hop, hread⟩ :=
      ih (by omega : shift + 7 < width) (or_group_lt hr value) hlt hrest
    dsimp only [Sum.elim_inr]
    rw [hop, show width - shift - 7 = width - (shift + 7) by omega, hread]
    cases outcome with
    | error cause => exact ⟨.error cause, last, by omega, hlast, rfl, rfl⟩
    | ok high =>
      refine ⟨.ok (Leb128.payload value + 128 * high), last, by omega, hlast, ?_, rfl⟩
      show some (Except.ok (_ + BitVec.ofInt 64 ((high : Int) * 2 ^ (shift + 7))), _) = _
      rw [join_group hr value high]
      simp [Except.map]

/-- What a loop gives at the start, where no bits are known yet. -/
theorem start_eq (high : Int) : 0 + BitVec.ofInt 64 (high * 2 ^ 0) = BitVec.ofInt 64 high := by
  rw [pow_zero, mul_one]
  exact BitVec.zero_add _

theorem unsupported_iff (width : Nat) :
    ¬ Leb128.widthSupported width = true ↔ width = 0 ∨ 64 < width := by
  rw [Leb128.widthSupported, Bool.and_eq_true, decide_eq_true_eq, decide_eq_true_eq,
    Leb128.maxWidth]
  omega

theorem implements_unsigned (width : Nat) :
    Implements BitVec.toNat (unsigned width) (Leb128.readUnsigned width) := by
  by_cases hw : Leb128.widthSupported width = true
  · have hwidth : ¬ (width = 0 ∨ 64 < width) := by
      rw [← unsupported_iff, not_not]
      exact hw
    intro input pos hpos
    obtain ⟨outcome, last, hle, hlast, hop, hread⟩ :=
      @repeatedly_unsignedRound width 0 pos 0 input (by omega) (by omega) (by decide) hpos
    simp only [start_eq] at hop
    rw [Nat.sub_zero] at hread
    rw [unsigned, if_neg hwidth, hop, Leb128.readUnsigned_eq hw, hread]
    refine ⟨_, last, hle, hlast, rfl, ?_⟩
    cases outcome with
    | error cause => rfl
    | ok high =>
      obtain ⟨taken, rest, -, -, hu⟩ := Leb128.unsignedGroups_sound (Leb128.width_pos hw) hread
      have hfits : high < 2 ^ 64 :=
        lt_of_lt_of_le hu.fits (Nat.pow_le_pow_right (by decide) (by omega))
      show (Except.ok high, _) = (Except.ok (BitVec.ofInt 64 (high : Int)).toNat, _)
      rw [BitVec.ofInt_natCast, BitVec.toNat_ofNat, Nat.mod_eq_of_lt hfits]
  · have hread : Leb128.readUnsigned width = Read.fail (.unsupportedWidth width) := by
      funext cursor
      rw [Leb128.readUnsigned, if_neg hw]
      rfl
    rw [unsigned, if_pos ((unsupported_iff width).mp hw), hread]
    exact .fail _ _

/-! ## Signed integers -/

theorem signFits_eq {room : Nat} (hr : 0 < room) (value : UInt8) :
    signFits room (payload value) = some (Leb128.signFits room (Leb128.payload value)) := by
  have hlt := Leb128.payload_lt value
  unfold signFits
  split
  · next hroom =>
    rw [subtract_eq (by omega)]
    simp only [Option.bind_eq_bind, Option.bind_some, shiftRight]
    rw [if_pos (by omega), if_pos (by omega)]
    simp only [Option.bind_some, Option.pure_def, Option.some.injEq]
    rw [Bool.eq_iff_iff]
    simp only [Leb128.signFits, Bool.or_eq_true, beq_iff_eq, decide_eq_true_eq, ← BitVec.toNat_inj,
      BitVec.toNat_ushiftRight, payload_toNat, Nat.shiftRight_eq_div_pow, Nat.one_shiftLeft]
    interval_cases room <;> simp <;> omega
  · next hroom =>
    congr 1
    symm
    rw [Leb128.signFits_iff hlt]
    have hb := Leb128.signedGroup_bounds hlt
    by_cases h7 : room = 7
    · subst h7
      exact .inr hb
    · exact .inl (by omega)

/-- The sign bit of the last group, repeated up to the top of the word. -/
theorem join_last {result : BitVec 64} {shift : Nat} (h : result.toNat < 2 ^ shift) (value : UInt8) :
    ∃ sign, (if shift + 7 < 64 ∧ value &&& 0x40 ≠ 0 then shiftLeft (-1 : BitVec 64) (shift + 7)
        else some 0) = some sign ∧
      result ||| (payload value).setWidth 64 <<< shift ||| sign =
        result + BitVec.ofInt 64 (Leb128.signedGroup (Leb128.payload value) * 2 ^ shift) := by
  have hbit := and_sign_ne_zero_iff value
  by_cases hp : 64 ≤ Leb128.payload value
  · -- a shift by the whole width would leave nothing, and is left out
    refine ⟨BitVec.ofInt 64 (-1) <<< (shift + 7), ?_, ?_⟩
    · by_cases hshift : shift + 7 < 64
      · rw [if_pos ⟨hshift, hbit.mpr hp⟩, shiftLeft, if_pos hshift]
        rfl
      · rw [if_neg (fun h => hshift h.1), BitVec.shiftLeft_eq_zero (by omega)]
        rfl
    · have hgroup : Leb128.signedGroup (Leb128.payload value) =
          Leb128.payload value + 128 * (-1) := by
        rw [Leb128.signedGroup, if_neg (by omega)]
        omega
      rw [or_shiftLeft (or_group_lt h value), shiftLeft_ofInt, join_group h, hgroup]
  · refine ⟨0, by rw [if_neg (fun h => hp (hbit.mp h.2))], ?_⟩
    show result ||| _ ||| 0#64 = _
    rw [BitVec.or_zero, or_shiftLeft h, group_eq, Leb128.signedGroup, if_pos (by omega)]

theorem signedRound_cons (hs : shift < width) (hw : width ≤ 64) (hr : result.toNat < 2 ^ shift)
    (h : input.drop pos = value :: rest) :
    signedRound width (shift, result) ⟨input, pos⟩ =
      if !Leb128.signFits (width - shift) (Leb128.payload value) then
        some (.error .integerTooLarge, ⟨input, pos + 1⟩)
      else if !Leb128.continues value then
        some (.ok (.inl (result + BitVec.ofInt 64
          (Leb128.signedGroup (Leb128.payload value) * 2 ^ shift))), ⟨input, pos + 1⟩)
      else if width - shift ≤ 7 then some (.error .integerTooLong, ⟨input, pos + 1⟩)
      else some (.ok (.inr (shift + 7, result ||| (payload value).setWidth 64 <<< shift)),
        ⟨input, pos + 1⟩) := by
  obtain ⟨sign, hsign, hsum⟩ := join_last hr value
  rw [signedRound, bind_apply, byte_cons h]
  simp only [subtract_eq (Nat.le_of_lt hs), defined_bind, signFits_eq (Nat.sub_pos_of_lt hs),
    shiftLeft_group hs hw, hsign, hsum]
  split
  · rfl
  · exact last_or_again value _ _ _

theorem repeatedly_signedRound (hs : shift < width) (hw : width ≤ 64)
    (hr : result.toNat < 2 ^ shift) (hpos : pos ≤ input.length) :
    ∃ outcome last, pos ≤ last ∧ last ≤ input.length ∧
      repeatedly (signedRound width) (shift, result) ⟨input, pos⟩ =
        some (outcome.map fun high => result + BitVec.ofInt 64 (high * 2 ^ shift), ⟨input, last⟩) ∧
      Leb128.signedGroups (width - shift) pos (input.drop pos) =
        (outcome, ⟨last, input.drop last⟩) := by
  induction hd : input.drop pos generalizing pos shift result with
  | nil =>
    refine ⟨.error .unexpectedEnd, pos, Nat.le_refl pos, hpos, ?_, by rw [hd]; rfl⟩
    rw [repeatedly_eq, bind_apply, signedRound, bind_apply, byte_nil hd]
    rfl
  | cons value rest ih =>
    have hlt := pos_lt hd
    have hrest := drop_succ hd
    rw [repeatedly_eq, bind_apply, signedRound_cons hs hw hr hd, Leb128.signedGroups]
    split_ifs with hlarge hend hlong
    · exact ⟨.error .integerTooLarge, pos + 1, by omega, hlt, rfl, by rw [hrest]⟩
    · exact ⟨.ok (Leb128.signedGroup (Leb128.payload value)), pos + 1, by omega, hlt, rfl,
        by rw [hrest]⟩
    · exact ⟨.error .integerTooLong, pos + 1, by omega, hlt, rfl, by rw [hrest]⟩
    obtain ⟨outcome, last, hle, hlast, hop, hread⟩ :=
      ih (by omega : shift + 7 < width) (or_group_lt hr value) hlt hrest
    dsimp only [Sum.elim_inr]
    rw [hop, show width - shift - 7 = width - (shift + 7) by omega, hread]
    cases outcome with
    | error cause => exact ⟨.error cause, last, by omega, hlast, rfl, rfl⟩
    | ok high =>
      refine ⟨.ok (Leb128.payload value + 128 * high), last, by omega, hlast, ?_, rfl⟩
      show some (Except.ok (_ + BitVec.ofInt 64 (high * 2 ^ (shift + 7))), _) = _
      rw [join_group hr value high]
      rfl

theorem implements_signed (width : Nat) :
    Implements BitVec.toInt (signed width) (Leb128.readSigned width) := by
  by_cases hw : Leb128.widthSupported width = true
  · have hwidth : ¬ (width = 0 ∨ 64 < width) := by
      rw [← unsupported_iff, not_not]
      exact hw
    intro input pos hpos
    obtain ⟨outcome, last, hle, hlast, hop, hread⟩ :=
      @repeatedly_signedRound width 0 pos 0 input (by omega) (by omega) (by decide) hpos
    simp only [start_eq] at hop
    rw [Nat.sub_zero] at hread
    rw [signed, if_neg hwidth, hop, Leb128.readSigned_eq hw, hread]
    refine ⟨_, last, hle, hlast, rfl, ?_⟩
    cases outcome with
    | error cause => rfl
    | ok high =>
      obtain ⟨taken, rest, -, -, hs⟩ := Leb128.signedGroups_sound (Leb128.width_pos hw) hread
      have hpow : (2 : Int) ^ (width - 1) ≤ 2 ^ 63 := pow_le_pow_right₀ (by decide) (by omega)
      have hleast := hs.least
      have hgreatest := hs.greatest
      show (Except.ok high, _) = (Except.ok (BitVec.ofInt 64 high).toInt, _)
      rw [BitVec.toInt_ofInt_eq_self (by decide) (by omega) (by omega)]
  · have hread : Leb128.readSigned width = Read.fail (.unsupportedWidth width) := by
      funext cursor
      rw [Leb128.readSigned, if_neg hw]
      rfl
    rw [signed, if_pos ((unsupported_iff width).mp hw), hread]
    exact .fail _ _

end

/-! ## Operands -/

theorem readUnsigned_lt {width value : Nat} {cursor left : Cursor}
    (hw : Leb128.widthSupported width = true)
    (h : Leb128.readUnsigned width cursor = (.ok value, left)) : value < 2 ^ width := by
  rw [Leb128.readUnsigned_eq hw] at h
  obtain ⟨taken, rest, -, -, hu⟩ := Leb128.unsignedGroups_sound (Leb128.width_pos hw) h
  exact hu.fits

theorem readSigned_bounds {width : Nat} {value : Int} {cursor left : Cursor}
    (hw : Leb128.widthSupported width = true)
    (h : Leb128.readSigned width cursor = (.ok value, left)) :
    -2 ^ (width - 1) ≤ value ∧ value < 2 ^ (width - 1) := by
  rw [Leb128.readSigned_eq hw] at h
  obtain ⟨taken, rest, -, -, hs⟩ := Leb128.signedGroups_sound (Leb128.width_pos hw) h
  exact ⟨hs.least, hs.greatest⟩

theorem implements_index_toNat : Implements UInt32.toNat index (Leb128.readUnsigned 32) := by
  have hread : Leb128.readUnsigned 32 = Leb128.readUnsigned 32 >>= fun value => pure value :=
    (bind_pure _).symm
  rw [hread]
  refine (implements_unsigned 32).bind fun word hword => ?_
  obtain ⟨cursor, left, hword⟩ := hword
  have hlt : word.toNat < UInt32.size := readUnsigned_lt (by decide) hword
  rw [toUInt32, if_pos hlt]
  have hret := Implements.ret UInt32.toNat (UInt32.ofNat word.toNat)
  rwa [UInt32.toNat_ofNat_of_lt' hlt] at hret

theorem implements_index : Implements id index Read.index := by
  have hop : index = index >>= fun value => pure value := (bind_pure _).symm
  rw [hop]
  exact implements_index_toNat.map fun value => UInt32.ofNat_toNat.symm

theorem implements_int32 : Implements id int32 Leb128.readInt32 := by
  refine (implements_signed 32).bind fun word hword => ?_
  obtain ⟨cursor, left, hword⟩ := hword
  obtain ⟨hl, hu⟩ := readSigned_bounds (by decide) hword
  have hbounds : Int32.minValue.toInt ≤ word.toInt ∧ word.toInt ≤ Int32.maxValue.toInt := by
    rw [Int32.toInt_minValue, Int32.toInt_maxValue]
    omega
  rw [toInt32, if_pos hbounds]
  exact Implements.ret id (Int32.ofInt word.toInt)

theorem implements_int64 : Implements id int64 Leb128.readInt64 :=
  (implements_signed 64).map fun word => by
    show Int64.ofBitVec word = Int64.ofBitVec (BitVec.ofInt 64 word.toInt)
    rw [BitVec.ofInt_toInt]

theorem implements_times {view : α → β} {op : Op α} {item : Read β}
    (h : Implements view op item) (count : Nat) :
    Implements (List.map view) (times op count) (Read.times item count) := by
  induction count with
  | zero => exact Implements.ret (List.map view) []
  | succ count ih =>
    rw [Read.times_succ]
    exact h.bind fun value _ => ih.map fun values => List.map_cons

theorem implements_indices : Implements id indices Read.indices := by
  refine implements_index_toNat.bind fun length _ => ?_
  by_cases hlong : maxBranchTargets < length.toNat
  · rw [if_pos hlong, if_pos hlong]
    exact .fail _ _
  · rw [if_neg hlong, if_neg hlong]
    refine (implements_hasAtLeast length.toNat).bind fun enough _ => ?_
    cases enough with
    | false => exact .fail _ _
    | true =>
      have htimes := implements_times implements_index length.toNat
      rwa [List.map_id_fun] at htimes

theorem implements_blockType : Implements id blockType Read.blockType := by
  refine (implements_signed 33).bind fun word hword => ?_
  obtain ⟨cursor, left, hword⟩ := hword
  obtain ⟨hl, hu⟩ := readSigned_bounds (by decide) hword
  by_cases hcode : 0 ≤ word.toInt
  · have hlt : word.toInt.toNat < UInt32.size := by
      rw [UInt32.size]
      omega
    rw [if_pos hcode, toUInt32, if_pos hlt, BlockType.ofCode?_of_nonneg hcode]
    exact .ret id _
  · rw [if_neg hcode]
    cases BlockType.ofCode? word.toInt with
    | none => exact .fail _ _
    | some type => exact .ret id type

theorem implements_memArg : Implements id memArg Read.memArg :=
  implements_index.bind fun _ _ => implements_index.bind fun _ _ => .ret id _

theorem implements_reserved (use : ReservedUse) :
    Implements id (reserved use) (Read.reserved use) := by
  refine implements_byte.bind fun value _ => ?_
  show Implements id (if value = 0 then _ else _) (if value = 0 then _ else _)
  split
  · exact .ret id ()
  · exact .fail _ _

theorem implements_constant (type : ValueType) :
    Implements id (constant type) (Read.constant type) := by
  cases type with
  | i32 => exact implements_int32.map fun _ => rfl
  | i64 => exact implements_int64.map fun _ => rfl
  | f32 =>
    have hword : Implements id word32 Word.read32 := (implements_bytes 4).map fun _ => rfl
    exact hword.map fun _ => rfl
  | f64 =>
    have hword : Implements id word64 Word.read64 := (implements_bytes 8).map fun _ => rfl
    exact hword.map fun _ => rfl

theorem implements_operands (op : Operator) : Implements id (operands op) op.readOperands := by
  cases op with
  | unreachable => exact .ret id _
  | nop => exact .ret id _
  | ret => exact .ret id _
  | enter kind => exact implements_blockType.map fun _ => rfl
  | otherwise => exact .ret id _
  | close => exact .ret id _
  | br => exact implements_index.map fun _ => rfl
  | brIf => exact implements_index.map fun _ => rfl
  | brTable => exact implements_indices.bind fun _ _ => implements_index.map fun _ => rfl
  | call => exact implements_index.map fun _ => rfl
  | callIndirect =>
    exact implements_index.bind fun _ _ => (implements_reserved _).map fun _ => rfl
  | parametric op => exact .ret id _
  | «variable» op => exact implements_index.map fun _ => rfl
  | memory op => exact implements_memArg.map fun _ => rfl
  | memorySize op => exact (implements_reserved _).map fun _ => rfl
  | const type => exact (implements_constant type).map fun _ => rfl
  | numeric op => exact .ret id _

end Checked

end FlatWasm
