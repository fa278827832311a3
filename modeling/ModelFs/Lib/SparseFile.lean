import Mathlib.Data.List.Basic

/-!
# Sparse files

A file is a length and a partial map from offsets to cells: an offset below the length with no
cell is a hole. The cell type is a parameter, so a development can let cells carry more than
their byte. A read returns what lies below the length, holes included.

* `cell_pwrite`, `cell_ftruncate`, `cell_punch` — what each operation leaves at an offset.
* `get_pread` — a read returns the cells of its range.
-/

namespace ModelFs

structure SparseFile (κ : Type) where
  len : Nat
  cell : Nat → Option κ

namespace SparseFile

variable {κ : Type}

def empty : SparseFile κ where
  len := 0
  cell _ := none

/-- Write `data` at `off`. The file grows to hold it. -/
def pwrite (f : SparseFile κ) (off : Nat) (data : List κ) : SparseFile κ where
  len := if data = [] then f.len else max f.len (off + data.length)
  cell o := if off ≤ o ∧ o < off + data.length then data[o - off]? else f.cell o

/-- Set the length: cells past it go, and growth leaves a hole. -/
def ftruncate (f : SparseFile κ) (len : Nat) : SparseFile κ where
  len := len
  cell o := if o < len then f.cell o else none

/-- Cut a hole of `n` bytes at `off`, keeping the length. -/
def punch (f : SparseFile κ) (off n : Nat) : SparseFile κ where
  len := f.len
  cell o := if off ≤ o ∧ o < off + n then none else f.cell o

/-- Up to `n` cells from `off`, short at the end of the file. -/
def pread (f : SparseFile κ) (off n : Nat) : List (Option κ) :=
  (List.range (min n (f.len - off))).map fun k => f.cell (off + k)

theorem cell_pwrite_of_lt (f : SparseFile κ) {off o : Nat} (data : List κ) (h : o < off) :
    (f.pwrite off data).cell o = f.cell o := by
  have hout : ¬ (off ≤ o ∧ o < off + data.length) := by omega
  simp only [pwrite, if_neg hout]

theorem cell_pwrite_of_ge (f : SparseFile κ) {off o : Nat} (data : List κ)
    (h : off + data.length ≤ o) : (f.pwrite off data).cell o = f.cell o := by
  have hout : ¬ (off ≤ o ∧ o < off + data.length) := by omega
  simp only [pwrite, if_neg hout]

theorem cell_pwrite_of_mem (f : SparseFile κ) {off o : Nat} (data : List κ) (hlo : off ≤ o)
    (hhi : o < off + data.length) :
    ∃ a ∈ data, (f.pwrite off data).cell o = some a := by
  have hidx : o - off < data.length := by omega
  refine ⟨data[o - off], List.getElem_mem hidx, ?_⟩
  simp only [pwrite, if_pos (And.intro hlo hhi), List.getElem?_eq_getElem hidx]

theorem cell_ftruncate_of_lt (f : SparseFile κ) {len o : Nat} (h : o < len) :
    (f.ftruncate len).cell o = f.cell o := if_pos h

theorem cell_punch_of_lt (f : SparseFile κ) {off o : Nat} (n : Nat) (h : o < off) :
    (f.punch off n).cell o = f.cell o := if_neg (by omega)

theorem cell_punch_of_ge (f : SparseFile κ) {off o n : Nat} (h : off + n ≤ o) :
    (f.punch off n).cell o = f.cell o := if_neg (by omega)

theorem length_pread (f : SparseFile κ) (off n : Nat) :
    (f.pread off n).length = min n (f.len - off) := by
  simp [pread]

theorem getElem?_pread (f : SparseFile κ) {off n k : Nat} (h : k < (f.pread off n).length) :
    (f.pread off n)[k]? = some (f.cell (off + k)) := by
  rw [length_pread] at h
  simp [pread, h]

end SparseFile

end ModelFs
