import Mathlib.Algebra.GroupWithZero.Nat
import Mathlib.Data.List.Basic

/-!
# Columns of variable-length entries

A column of optional entries of variable length is stored as one buffer with the
offsets of consecutive chunks and the validity of each entry. A builder that
writes the entries one after the other into a buffer of fixed size, and records
lengths and validity on the way, stores exactly the entries that it was given.
-/

namespace SecureFusion.Library

open List

variable {α : Type}

def offsetsFrom (start : Nat) : List Nat → List Nat
  | [] => [start]
  | length :: rest => start :: offsetsFrom (start + length) rest

def slices (data : List α) : List Nat → List (List α)
  | start :: stop :: rest => (data.drop start).take (stop - start) :: slices data (stop :: rest)
  | _ => []

theorem slices_cons_offsetsFrom (data : List α) (start stop : Nat) (lengths : List Nat) :
    slices data (start :: offsetsFrom stop lengths) =
      (data.drop start).take (stop - start) :: slices data (offsetsFrom stop lengths) := by
  cases lengths <;> rfl

theorem slices_offsetsFrom (before : List α) (chunks : List (List α)) :
    slices (before ++ chunks.flatten) (offsetsFrom before.length (chunks.map List.length)) =
      chunks := by
  induction chunks generalizing before with
  | nil => rfl
  | cons chunk rest ih =>
    have first : ((before ++ (chunk :: rest).flatten).drop before.length).take
        (before.length + chunk.length - before.length) = chunk := by
      rw [drop_left, flatten_cons, Nat.add_sub_cancel_left, take_left]
    have others := ih (before ++ chunk)
    rw [length_append, append_assoc, ← flatten_cons] at others
    rw [map_cons, offsetsFrom, slices_cons_offsetsFrom, first, others]

/-- A column in offset form; without a validity buffer every entry is present. -/
structure EntryColumn (α : Type) where
  offsets : List Nat
  data : List α
  validity : Option (List Bool)

def presentChunk (present : Bool) (chunk : List α) : Option (List α) :=
  if present then some chunk else none

def EntryColumn.entries (column : EntryColumn α) : List (Option (List α)) :=
  let chunks := slices column.data column.offsets
  match column.validity with
  | none => chunks.map some
  | some validity => List.zipWith presentChunk validity chunks

/-- A builder of a column with a buffer of fixed size. -/
structure ColumnBuilder (α : Type) where
  lengths : List Nat
  validity : List Bool
  buffer : List α
  written : Nat

namespace ColumnBuilder

def new (buffer : List α) : ColumnBuilder α := ⟨[], [], buffer, 0⟩

def appendNull (builder : ColumnBuilder α) : ColumnBuilder α :=
  { builder with
    lengths := builder.lengths ++ [0]
    validity := builder.validity ++ [false] }

def unwritten (builder : ColumnBuilder α) : List α := builder.buffer.drop builder.written

/-- Appends an entry that has been written to the start of the unwritten part. -/
def appendWritten (builder : ColumnBuilder α) (unwritten : List α) (length : Nat) :
    ColumnBuilder α :=
  { lengths := builder.lengths ++ [length]
    validity := builder.validity ++ [true]
    buffer := builder.buffer.take builder.written ++ unwritten
    written := builder.written + length }

def total (builder : ColumnBuilder α) : Nat := builder.lengths.sum

/-- The finished column: the buffer is cut, and a validity buffer kept if an entry is missing. -/
def finish (builder : ColumnBuilder α) : EntryColumn α where
  offsets := offsetsFrom 0 builder.lengths
  data := builder.buffer.take builder.written
  validity := if builder.validity.all id then none else some builder.validity

def size (entries : List (Option (List α))) : Nat :=
  (entries.map fun entry => (entry.getD []).length).sum

/-- A builder has stored some entries. -/
structure Stores (builder : ColumnBuilder α) (entries : List (Option (List α))) : Prop where
  lengths : builder.lengths = entries.map fun entry => (entry.getD []).length
  validity : builder.validity = entries.map Option.isSome
  written : builder.written = size entries
  fits : builder.written ≤ builder.buffer.length
  data : builder.buffer.take builder.written = (entries.map (·.getD [])).flatten

theorem stores_new (buffer : List α) : (new buffer).Stores [] :=
  ⟨rfl, rfl, rfl, Nat.zero_le _, rfl⟩

theorem size_append_singleton (entries : List (Option (List α))) (entry : Option (List α)) :
    size (entries ++ [entry]) = size entries + (entry.getD []).length := by
  simp only [size, map_append, map_cons, map_nil, sum_append, sum_cons, sum_nil, Nat.add_zero]

variable {builder : ColumnBuilder α} {entries : List (Option (List α))}

theorem Stores.appendNull (stores : builder.Stores entries) :
    builder.appendNull.Stores (entries ++ [none]) where
  lengths := by
    rw [ColumnBuilder.appendNull, stores.lengths, map_append]
    rfl
  validity := by
    rw [ColumnBuilder.appendNull, stores.validity, map_append]
    rfl
  written := by
    rw [size_append_singleton]
    exact stores.written
  fits := stores.fits
  data := by
    rw [map_append, flatten_append]
    have same := stores.data
    rw [ColumnBuilder.appendNull, same]
    exact (append_nil _).symm

theorem Stores.appendWritten (stores : builder.Stores entries) {entry rest : List α} :
    (builder.appendWritten (entry ++ rest) entry.length).Stores (entries ++ [some entry]) where
  lengths := by
    rw [ColumnBuilder.appendWritten, stores.lengths, map_append]
    rfl
  validity := by
    rw [ColumnBuilder.appendWritten, stores.validity, map_append]
    rfl
  written := by
    rw [size_append_singleton]
    exact congrArg (· + entry.length) stores.written
  fits := by
    have fits := stores.fits
    simp only [ColumnBuilder.appendWritten, length_append, length_take]
    omega
  data := by
    have kept : (builder.buffer.take builder.written).length = builder.written := by
      rw [length_take, Nat.min_eq_left stores.fits]
    have cut : (builder.buffer.take builder.written ++ (entry ++ rest)).take
        (builder.written + entry.length) = builder.buffer.take builder.written ++ entry := by
      rw [← append_assoc]
      apply take_left'
      rw [length_append, kept]
    rw [ColumnBuilder.appendWritten, cut, stores.data, map_append, flatten_append]
    simp only [map_cons, map_nil, Option.getD_some, flatten_cons, flatten_nil, append_nil]

theorem Stores.unwritten_appendWritten (stores : builder.Stores entries) (entry rest : List α) :
    (builder.appendWritten (entry ++ rest) entry.length).unwritten = rest := by
  have kept : (builder.buffer.take builder.written).length = builder.written := by
    rw [length_take, Nat.min_eq_left stores.fits]
  rw [unwritten, ColumnBuilder.appendWritten]
  show ((builder.buffer.take builder.written) ++ (entry ++ rest)).drop
    (builder.written + entry.length) = rest
  rw [← append_assoc]
  apply drop_left'
  rw [length_append, kept]

theorem zipWith_presentChunk (entries : List (Option (List α))) :
    List.zipWith presentChunk (entries.map Option.isSome) (entries.map (·.getD [])) =
      entries := by
  induction entries with
  | nil => rfl
  | cons entry rest ih =>
    rw [map_cons, map_cons, zipWith_cons_cons, ih]
    cases entry <;> rfl

theorem map_some_getD (present : (entries.map Option.isSome).all id = true) :
    (entries.map (·.getD [])).map some = entries := by
  rw [map_map]
  have same : ∀ entry ∈ entries, (some ∘ (·.getD [])) entry = entry := by
    intro entry member
    have isSome := all_eq_true.mp present entry.isSome (mem_map_of_mem member)
    obtain ⟨content, rfl⟩ := Option.isSome_iff_exists.mp isSome
    rfl
  rw [map_congr_left same, map_id']

theorem Stores.total_eq (stores : builder.Stores entries) : builder.total = size entries := by
  rw [total, stores.lengths, size]

theorem Stores.entries_finish (stores : builder.Stores entries) :
    builder.finish.entries = entries := by
  have chunks : slices (builder.buffer.take builder.written) (offsetsFrom 0 builder.lengths) =
      entries.map (·.getD []) := by
    have read := slices_offsetsFrom [] (entries.map (·.getD []))
    rw [nil_append, map_map] at read
    rw [stores.data, stores.lengths]
    exact read
  simp only [EntryColumn.entries, finish, chunks]
  by_cases present : builder.validity.all id = true
  · rw [if_pos present]
    rw [stores.validity] at present
    exact map_some_getD present
  · rw [if_neg present]
    simp only [stores.validity]
    exact zipWith_presentChunk entries

end ColumnBuilder

end SecureFusion.Library
