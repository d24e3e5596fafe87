import FlatWasm.Cursor
import Mathlib.Data.List.Basic

/-!
# What a reader takes

A reader that succeeds has taken a stretch of bytes off the front of the input. It is local when
that stretch alone decides the result: the same bytes give the same value at any offset and in
front of any other input. Locality passes through sequencing, so the readers of instructions
inherit it from the readers of bytes.

Many stretches may stand for one value. `Shortens` compares such a stretch with the one that a
writer gives, and is carried along by concatenation.
-/

namespace FlatWasm

namespace Read

variable {α β : Type}

/-- The reader takes exactly these bytes, wherever they stand, and makes this value of them. -/
def Takes (reader : Read α) (taken : List UInt8) (value : α) : Prop :=
  ∀ offset rest, reader ⟨offset, taken ++ rest⟩ = (.ok value, ⟨offset + taken.length, rest⟩)

/-- Whenever the reader succeeds, it takes the bytes that it moved past. -/
def Local (reader : Read α) : Prop :=
  ∀ offset bytes value left, reader ⟨offset, bytes⟩ = (.ok value, left) →
    ∃ taken rest, bytes = taken ++ rest ∧ left = ⟨offset + taken.length, rest⟩ ∧
      reader.Takes taken value

theorem bind_apply (reader : Read α) (next : α → Read β) (cursor : Cursor) :
    (reader >>= next) cursor =
      match reader cursor with
      | (.ok value, left) => next value left
      | (.error cause, left) => (.error cause, left) := by
  change (ExceptT.bind reader next) cursor = _
  simp only [ExceptT.bind, ExceptT.mk, bind, StateT.bind, ExceptT.bindCont]
  rcases reader cursor with ⟨_ | _, _⟩ <;> rfl

theorem pure_apply (value : α) (cursor : Cursor) :
    (pure value : Read α) cursor = (.ok value, cursor) := rfl

theorem bind_ok {reader : Read α} {next : α → Read β} {cursor left : Cursor} {value : β}
    (h : (reader >>= next) cursor = (.ok value, left)) :
    ∃ first middle, reader cursor = (.ok first, middle) ∧ next first middle = (.ok value, left) := by
  rw [bind_apply] at h
  rcases hr : reader cursor with ⟨_ | first, middle⟩ <;> rw [hr] at h
  · cases h
  · exact ⟨first, middle, rfl, h⟩

/-- Of two stretches that begin one input, a reader can take only one. -/
theorem Takes.unique {reader : Read α} {taken taken' rest rest' : List UInt8} {value value' : α}
    (h : reader.Takes taken value) (h' : reader.Takes taken' value')
    (he : taken ++ rest = taken' ++ rest') : taken = taken' ∧ value = value' := by
  have hr := h 0 rest
  rw [he, h' 0 rest', Nat.zero_add, Nat.zero_add] at hr
  injection hr with hv hc
  injection hv with hv
  injection hc with hl
  exact ⟨List.append_inj_left he hl.symm, hv.symm⟩

theorem Takes.value_eq {reader : Read α} {taken : List UInt8} {value value' : α}
    (h : reader.Takes taken value) (h' : reader.Takes taken value') : value = value' :=
  (h.unique h' (Eq.refl (taken ++ []))).2

/-! ## Sequencing -/

theorem takes_pure (value : α) : (pure value : Read α).Takes [] value := fun _ _ => rfl

theorem local_pure (value : α) : (pure value : Read α).Local := by
  intro offset bytes value' left h
  rw [pure_apply] at h
  cases h
  exact ⟨[], bytes, rfl, rfl, takes_pure value⟩

theorem local_fail (cause : Malformed) : (fail cause : Read α).Local := by
  intro offset bytes value left h
  cases h

theorem Takes.bind {reader : Read α} {next : α → Read β} {front back : List UInt8} {first : α}
    {value : β} (hr : reader.Takes front first) (hn : (next first).Takes back value) :
    (reader >>= next).Takes (front ++ back) value := by
  intro offset rest
  rw [bind_apply, List.append_assoc, hr offset (back ++ rest)]
  dsimp only
  rw [hn, List.length_append, Nat.add_assoc]

theorem Local.bind {reader : Read α} {next : α → Read β} (hr : reader.Local)
    (hn : ∀ first, (next first).Local) : (reader >>= next).Local := by
  intro offset bytes value left h
  obtain ⟨first, middle, hf, hs⟩ := bind_ok h
  obtain ⟨front, rest, rfl, rfl, htf⟩ := hr _ _ _ _ hf
  obtain ⟨back, rest', rfl, rfl, htb⟩ := hn first _ _ _ _ hs
  refine ⟨front ++ back, rest', by rw [List.append_assoc], ?_, htf.bind htb⟩
  rw [List.length_append, Nat.add_assoc]

@[simp] theorem takes_pure_iff {value value' : α} {taken : List UInt8} :
    (pure value : Read α).Takes taken value' ↔ taken = [] ∧ value = value' := by
  constructor
  · intro h
    have he : taken ++ [] = [] ++ taken := by simp
    obtain ⟨ht, hv⟩ := h.unique (takes_pure value) he
    exact ⟨ht, hv.symm⟩
  · rintro ⟨rfl, rfl⟩
    exact takes_pure value

@[simp] theorem takes_fail_iff {cause : Malformed} {value : α} {taken : List UInt8} :
    ¬ (fail cause : Read α).Takes taken value := by
  intro h
  cases h 0 []

/-- A sequence takes the bytes of its two parts one after the other, and nothing else. -/
theorem takes_bind_iff {reader : Read α} {next : α → Read β} (hr : reader.Local)
    (hn : ∀ first, (next first).Local) {taken : List UInt8} {value : β} :
    (reader >>= next).Takes taken value ↔
      ∃ front back first, taken = front ++ back ∧ reader.Takes front first ∧
        (next first).Takes back value := by
  constructor
  · intro h
    obtain ⟨first, middle, hf, hs⟩ := bind_ok (h 0 [])
    obtain ⟨front, rest, he, rfl, htf⟩ := hr _ _ _ _ hf
    obtain ⟨back, rest', rfl, hl, htb⟩ := hn first _ _ _ _ hs
    simp only [Cursor.mk.injEq] at hl
    refine ⟨front, back, first, ?_, htf, htb⟩
    simpa [← hl.2] using he
  · rintro ⟨front, back, first, rfl, hf, hb⟩
    exact hf.bind hb

/-! ## Bytes -/

theorem takes_byte (value : UInt8) : byte.Takes [value] value := fun _ _ => rfl

theorem local_byte : byte.Local := by
  intro offset bytes value left h
  cases bytes with
  | nil => cases h
  | cons first rest =>
    cases h
    exact ⟨[value], rest, rfl, rfl, takes_byte value⟩

theorem takes_byte_iff {taken : List UInt8} {value : UInt8} :
    byte.Takes taken value ↔ taken = [value] := by
  constructor
  · intro h
    cases taken with
    | nil => cases h 0 []
    | cons first rest =>
      have he : (first :: rest) ++ [] = [first] ++ rest := by simp
      have hu := h.unique (takes_byte first) he
      rw [hu.1, hu.2]
  · rintro rfl
    exact takes_byte value

theorem hasAtLeast_iff {cursor : Cursor} {count : Nat} :
    cursor.hasAtLeast count = true ↔ count ≤ cursor.rest.length := by
  simp only [Cursor.hasAtLeast, List.length_take, beq_iff_eq]
  omega

theorem takes_bytes (taken : List UInt8) : (bytes taken.length).Takes taken taken := by
  intro offset rest
  have hh : Cursor.hasAtLeast ⟨offset, taken ++ rest⟩ taken.length = true := by
    rw [hasAtLeast_iff]
    simp
  rw [bytes, if_pos hh, Cursor.advance, List.take_left, List.drop_left]

theorem local_bytes (count : Nat) : (bytes count).Local := by
  intro offset input value left h
  by_cases hh : Cursor.hasAtLeast ⟨offset, input⟩ count = true
  · have hl : (input.take count).length = count := by
      rw [hasAtLeast_iff] at hh
      rw [List.length_take, Nat.min_eq_left hh]
    rw [bytes, if_pos hh] at h
    cases h
    refine ⟨input.take count, input.drop count, (List.take_append_drop count input).symm, ?_, ?_⟩
    · rw [hl]
      rfl
    · have ht := takes_bytes (input.take count)
      rwa [hl] at ht
  · rw [bytes, if_neg hh] at h
    cases h

theorem takes_bytes_iff {count : Nat} {taken value : List UInt8} :
    (bytes count).Takes taken value ↔ taken = value ∧ value.length = count := by
  constructor
  · intro h
    have hb := h 0 []
    by_cases hh : Cursor.hasAtLeast ⟨0, taken ++ []⟩ count = true
    · rw [bytes, if_pos hh] at hb
      rw [hasAtLeast_iff, List.append_nil] at hh
      injection hb with hv hc
      injection hv with hv
      injection hc with hl
      dsimp only at hl hh
      have hl : taken.length = count := by omega
      rw [List.append_nil, ← hl, List.take_length] at hv
      exact ⟨hv, hv ▸ hl⟩
    · rw [bytes, if_neg hh] at hb
      cases hb
  · rintro ⟨rfl, rfl⟩
    exact takes_bytes taken

end Read

/-! ## Short and long forms of one value -/

/-- The first form is the shorter one, unless the two are the same. -/
def Shortens (short long : List UInt8) : Prop := short = long ∨ short.length < long.length

namespace Shortens

variable {short long short' long' : List UInt8}

@[refl] theorem refl (bytes : List UInt8) : Shortens bytes bytes := Or.inl rfl

theorem length_le (h : Shortens short long) : short.length ≤ long.length := by
  rcases h with rfl | h
  · exact Nat.le_refl _
  · exact Nat.le_of_lt h

theorem eq_of_length_eq (h : Shortens short long) (hl : short.length = long.length) :
    short = long := by
  rcases h with h | h
  · exact h
  · omega

theorem append (h : Shortens short long) (h' : Shortens short' long') :
    Shortens (short ++ short') (long ++ long') := by
  rcases h with rfl | h
  · rcases h' with rfl | h'
    · exact refl _
    · exact Or.inr (by simpa using h')
  · have hl := h'.length_le
    exact Or.inr (by simp only [List.length_append]; omega)

theorem cons (byte : UInt8) (h : Shortens short long) : Shortens (byte :: short) (byte :: long) :=
  append (refl [byte]) h

end Shortens

end FlatWasm
