import FlatWasm.Error

/-!
# Byte cursors

A cursor is a place in an input: the number of bytes before it and the bytes after it. A reading
operation gives its result together with the cursor it leaves behind, also when it fails, so a
caller can see how far it came.
-/

namespace FlatWasm

structure Cursor where
  offset : Nat
  rest : List UInt8
deriving DecidableEq

/-- Operations that read at a cursor and move it forward. -/
abbrev Read (α : Type) := ExceptT Malformed (StateM Cursor) α

namespace Cursor

def ofBytes (bytes : List UInt8) : Cursor := ⟨0, bytes⟩

def remaining (cursor : Cursor) : Nat := cursor.rest.length

def advance (cursor : Cursor) (count : Nat) : Cursor :=
  ⟨cursor.offset + count, cursor.rest.drop count⟩

/-- Looks at no more than `count` bytes. -/
def hasAtLeast (cursor : Cursor) (count : Nat) : Bool :=
  (cursor.rest.take count).length == count

end Cursor

namespace Read

variable {α : Type}

def fail (cause : Malformed) : Read α := throw cause

def byte? : Read (Option UInt8) := fun cursor =>
  match cursor.rest with
  | [] => (.ok none, cursor)
  | byte :: rest => (.ok (some byte), ⟨cursor.offset + 1, rest⟩)

def byte : Read UInt8 := fun cursor =>
  match cursor.rest with
  | [] => (.error .unexpectedEnd, cursor)
  | byte :: rest => (.ok byte, ⟨cursor.offset + 1, rest⟩)

/-- All of the next `count` bytes, or none of them. -/
def bytes (count : Nat) : Read (List UInt8) := fun cursor =>
  if cursor.hasAtLeast count then
    (.ok (cursor.rest.take count), cursor.advance count)
  else
    (.error .unexpectedEnd, cursor)

def hasAtLeast (count : Nat) : Read Bool := fun cursor =>
  (.ok (cursor.hasAtLeast count), cursor)

/-- Reads `count` items, one after another, behind the items `done`, which are held last first. -/
def timesAfter (item : Read α) : Nat → List α → Read (List α)
  | 0, done, cursor => (.ok done.reverse, cursor)
  | count + 1, done, cursor =>
    match item cursor with
    | (.ok value, cursor) => timesAfter item count (value :: done) cursor
    | (.error cause, cursor) => (.error cause, cursor)

def times (item : Read α) (count : Nat) : Read (List α) := timesAfter item count []

end Read

end FlatWasm
