import HathorLedger.Common.Bip32

/-!
# The cursor of a buffer

All operations of `common/buffer.c` on a buffer that is not `NULL`, as one type, with the runs of
several operations one after the other. An operation is exact when it stays inside the buffer,
leaves the cursor alone when it fails, and, if it is a read or a move that succeeds, makes its
output of the bytes behind the old cursor and moves the cursor behind exactly these bytes.

All operations but one are exact on every buffer. `buffer_move` copies the unread bytes but seeks by
the capacity of the output array, and the result of the seek is ignored. With unread bytes that do
not fill the array the seek fails, and the bytes are delivered while the cursor stays in front of
them.

## Main definitions

* `BufferOp`, `BufferOp.run`: the operations with their arguments, and what they do.
* `BufferOp.taken`: the bytes that a read or a move copies or decodes.
* `BufferOp.Exact`: the cursor moves by exactly what was delivered.
* `MovesExactly`: a run is exact, and its reads and moves deliver consecutive bytes.
* `FillsMoves`: the moves of a run fill their arrays, or have nothing left to move.

## Main results

* `BufferOp.exact_iff`: the operations that are exact.
* `movesExactly_iff`: the runs that are exact.
-/

namespace HathorLedger

/-! ### The operations -/

/-- An operation on a buffer with its arguments. An output that is `none` is a `NULL` pointer. -/
inductive BufferOp
  | seekSet (offset : UInt32)
  | seekCur (offset : UInt32)
  | seekEnd (offset : UInt32)
  | readU8
  | readU16 (e : Endianness)
  | readU32 (e : Endianness)
  | readU64 (e : Endianness)
  | readBip32Path (out : Option Bip32Path)
  | readBytes (out : Option Bytes) (outLen len : UInt32)
  | copy (out : Option Bytes) (outLen : UInt32)
  | move (out : Option Bytes) (outLen : UInt32)
  deriving DecidableEq, Repr

namespace BufferOp

/-- What an operation leaves in its output argument. -/
inductive Output
  | nothing
  | number (value : ℕ)
  | path (out : Bip32Path)
  | cells (out : Bytes)
  deriving DecidableEq, Repr

/-- The result of a function with an output argument, as the result of an operation. -/
def report {α : Type} (output : α → Output) (r : Bool × α × Buffer) : Bool × Output × Buffer :=
  (r.1, output r.2.1, r.2.2)

/-- Runs an operation: its result, its output and the buffer behind it. -/
def run : BufferOp → Buffer → Bool × Output × Buffer
  | seekSet offset, b => ((b.seekSet offset.toNat).1, .nothing, (b.seekSet offset.toNat).2)
  | seekCur offset, b => ((b.seekCur offset.toNat).1, .nothing, (b.seekCur offset.toNat).2)
  | seekEnd offset, b => ((b.seekEnd offset.toNat).1, .nothing, (b.seekEnd offset.toNat).2)
  | readU8, b => report .number b.readU8
  | readU16 e, b => report .number (b.readU16 e)
  | readU32 e, b => report .number (b.readU32 e)
  | readU64 e, b => report .number (b.readU64 e)
  | readBip32Path none, b => (false, .nothing, b)
  | readBip32Path (some out), b => report .path (b.readBip32Path out)
  | readBytes none _ _, b => (false, .nothing, b)
  | readBytes (some out) outLen len, b => report .cells (b.readBytes out outLen.toNat len.toNat)
  | copy none _, b => (false, .nothing, b)
  | copy (some out) outLen, b =>
    ((b.copy out 0 outLen.toNat).1, .cells (b.copy out 0 outLen.toNat).2, b)
  | move none _, b => (false, .nothing, b)
  | move (some out) outLen, b => report .cells (b.move out outLen.toNat)

/-- The operation returns `true`. -/
def Succeeds (op : BufferOp) (b : Buffer) : Prop := (op.run b).1 = true

/-- What the operation leaves in its output argument. -/
def output (op : BufferOp) (b : Buffer) : Output := (op.run b).2.1

/-- The buffer behind the operation. -/
def after (op : BufferOp) (b : Buffer) : Buffer := (op.run b).2.2

/-- The reads and the move, which take bytes from the buffer. -/
def takes : BufferOp → Bool
  | seekSet _ | seekCur _ | seekEnd _ | copy _ _ => false
  | _ => true

/-- The number of bytes that a read decodes or that its `memmove` copies. -/
def count : BufferOp → Buffer → ℕ
  | readU8, _ => 1
  | readU16 _, _ => 2
  | readU32 _, _ => 4
  | readU64 _, _ => 8
  | readBip32Path (some out), b => 1 + 4 * (b.readBip32Path out).2.1.length
  | readBytes _ _ len, _ => len.toNat
  | move _ _, b => sizeSub b.size b.offset
  | _, _ => 0

/-- The bytes that a read or a move delivers, from the cursor on. -/
def taken (op : BufferOp) (b : Buffer) : Bytes := (b.ptr.drop b.offset).take (op.count b)

/-- What a read or a move makes of the bytes that it delivers. -/
def makes : BufferOp → Bytes → Output
  | readU8, bytes => .number (byteAt bytes 0)
  | readU16 .be, bytes | readU32 .be, bytes | readU64 .be, bytes => .number (beValue bytes)
  | readU16 .le, bytes | readU32 .le, bytes | readU64 .le, bytes => .number (leValue bytes)
  | readBip32Path (some out), bytes => .path (out.written (byteAt bytes 0) bytes.tail)
  | readBytes (some out) _ _, bytes => .cells (memmove out 0 bytes)
  | move (some out) _, bytes => .cells (memmove out 0 bytes)
  | _, _ => .nothing

/-- The cursor moves by exactly what the operation has delivered. -/
structure Exact (op : BufferOp) (b : Buffer) : Prop where
  inside : (op.after b).offset ≤ (op.after b).size
  failed : ¬op.Succeeds b → (op.after b).offset = b.offset
  delivered : op.takes = true → op.Succeeds b → op.output b = op.makes (op.taken b)
  advanced : op.takes = true → op.Succeeds b →
    (op.after b).offset = b.offset + (op.taken b).length

/-- A move finds enough unread bytes to fill its array, or none at all. -/
def Fills : BufferOp → Buffer → Prop
  | move (some _) outLen, b => b.rest = [] ∨ outLen.toNat ≤ b.rest.length
  | _, _ => True

/-! ### One operation -/

section Operation

variable {b : Buffer}

/-- The buffer behind an operation: its cursor is inside, and it is the old one after a failure. -/
structure Safe (b : Buffer) (result : Bool) (b' : Buffer) : Prop where
  wf : b'.Wf
  ptr_eq : b'.ptr = b.ptr
  size_eq : b'.size = b.size
  kept : result = false → b' = b

theorem Safe.refl (h : b.Wf) (result : Bool) : Safe b result b := ⟨h, rfl, rfl, fun _ => rfl⟩

/-- A seek from the cursor ends inside the buffer, also where it fails. -/
theorem safe_seekCur (h : b.Wf) (n : ℕ) : Safe b (b.seekCur n).1 (b.seekCur n).2 := by
  unfold Buffer.seekCur
  split_ifs with hfail
  · exact .refl h _
  · exact ⟨⟨h.size_le, not_lt.1 (not_or.1 hfail).2, h.size_lt⟩, rfl, rfl, nofun⟩

/-- The reads and the move ignore the result of their seek. -/
theorem safe_of_seekCur (h : b.Wf) (n : ℕ) : Safe b true (b.seekCur n).2 :=
  ⟨(safe_seekCur h n).wf, (safe_seekCur h n).ptr_eq, (safe_seekCur h n).size_eq, nofun⟩

theorem safe_readUint (h : b.Wf) (n : ℕ) (value : Bytes → ℕ → ℕ) :
    Safe b (b.readUint n value).1 (b.readUint n value).2.2 := by
  unfold Buffer.readUint
  split_ifs
  · exact .refl h _
  · exact safe_of_seekCur h n

/-- Every operation keeps the cursor inside the buffer, and in its place when it fails. -/
theorem safe_after (h : b.Wf) (op : BufferOp) : Safe b (op.run b).1 (op.after b) := by
  cases op with
  | seekSet offset =>
    change Safe b (b.seekSet offset.toNat).1 (b.seekSet offset.toNat).2
    unfold Buffer.seekSet
    split_ifs with hfail
    · exact .refl h _
    · exact ⟨⟨h.size_le, not_lt.1 hfail, h.size_lt⟩, rfl, rfl, nofun⟩
  | seekCur offset => exact safe_seekCur h offset.toNat
  | seekEnd offset =>
    change Safe b (b.seekEnd offset.toNat).1 (b.seekEnd offset.toNat).2
    unfold Buffer.seekEnd
    split_ifs with hfail
    · exact .refl h _
    · refine ⟨⟨h.size_le, ?_, h.size_lt⟩, rfl, rfl, nofun⟩
      rw [sizeSub_of_le (not_lt.1 hfail)]
      exact Nat.sub_le _ _
  | readU8 => exact safe_readUint h 1 _
  | readU16 e => exact safe_readUint h 2 _
  | readU32 e => exact safe_readUint h 4 _
  | readU64 e => exact safe_readUint h 8 _
  | readBip32Path out =>
    cases out with
    | none => exact .refl h _
    | some out =>
      change Safe b (b.readBip32Path out).1 (b.readBip32Path out).2.2
      unfold Buffer.readBip32Path
      dsimp only
      split_ifs
      · exact .refl h _
      · exact safe_of_seekCur h _
  | readBytes out outLen len =>
    cases out with
    | none => exact .refl h _
    | some out =>
      change Safe b (b.readBytes out outLen.toNat len.toNat).1
        (b.readBytes out outLen.toNat len.toNat).2.2
      unfold Buffer.readBytes
      split_ifs
      · exact .refl h _
      · exact safe_of_seekCur h len.toNat
  | copy out outLen => cases out <;> exact .refl h _
  | move out outLen =>
    cases out with
    | none => exact .refl h _
    | some out =>
      change Safe b (b.move out outLen.toNat).1 (b.move out outLen.toNat).2.2
      unfold Buffer.move
      split
      · exact .refl h _
      · exact safe_of_seekCur h outLen.toNat

/-- The bytes that an operation takes are the first unread ones. -/
theorem taken_eq (h : b.Wf) {op : BufferOp} (hcount : op.count b ≤ b.rest.length) :
    op.taken b = b.rest.take (op.count b) :=
  h.take_drop_ptr hcount

theorem length_taken (h : b.Wf) {op : BufferOp} (hcount : op.count b ≤ b.rest.length) :
    (op.taken b).length = op.count b := by
  rw [taken_eq h hcount, List.length_take_of_le hcount]

/-- An operation is exact when its success makes the output of the bytes that it takes and leaves
the buffer behind them. -/
theorem exact_of_succeeds (h : b.Wf) {op : BufferOp}
    (hs : op.takes = true → op.Succeeds b → op.output b = op.makes (op.taken b) ∧
      op.after b = b.advance (op.count b) ∧ op.count b ≤ b.rest.length) : op.Exact b where
  inside := (safe_after h op).wf.offset_le
  failed hfail := congrArg Buffer.offset ((safe_after h op).kept (Bool.eq_false_iff.2 hfail))
  delivered htakes hsucceeds := (hs htakes hsucceeds).1
  advanced htakes hsucceeds := by
    obtain ⟨-, hafter, hcount⟩ := hs htakes hsucceeds
    rw [hafter, length_taken h hcount]
    rfl

theorem exact_of_readUint (h : b.Wf) {op : BufferOp} {n : ℕ} {value : Bytes → ℕ → ℕ}
    (hrun : op.run b = report .number (b.readUint n value)) (hcount : op.count b = n)
    (hmakes : op.makes ((b.ptr.drop b.offset).take n) = .number (value b.ptr b.offset)) :
    op.Exact b := by
  refine exact_of_succeeds h fun _ hs => ?_
  by_cases hn : n ≤ b.rest.length
  · rw [h.readUint_eq hn] at hrun
    refine ⟨?_, ?_, hcount.trans_le hn⟩
    · rw [output, hrun, taken, hcount, hmakes]
      rfl
    · rw [after, hrun, hcount]
      rfl
  · rw [h.readUint_short (not_le.1 hn)] at hrun
    rw [Succeeds, hrun] at hs
    cases hs

theorem exact_readBip32Path (h : b.Wf) (out : Bip32Path) : (readBip32Path (some out)).Exact b := by
  refine exact_of_succeeds h fun _ hs => ?_
  cases hr : b.rest with
  | nil =>
    have hread : b.readBip32Path out = (false, out, b) := by
      rw [Buffer.readBip32Path, bip32PathRead, h.remaining, hr, if_pos (by simp)]
      rfl
    rw [Succeeds, run, hread] at hs
    cases hs
  | cons x tail =>
    have hread := h.readBip32Path_cons hr out
    split_ifs at hread with hshort hrange
    · rw [Succeeds, run, hread] at hs
      cases hs
    · have hcount : (readBip32Path (some out)).count b = 1 + 4 * x.toNat := by
        rw [count, hread]
        rfl
      have hle : 1 + 4 * x.toNat ≤ b.rest.length := by
        rw [hr, List.length_cons]
        omega
      have htaken : (readBip32Path (some out)).taken b = x :: tail.take (4 * x.toNat) := by
        rw [taken_eq h (hcount.trans_le hle), hcount, hr, Nat.add_comm, List.take_succ_cons]
      refine ⟨?_, ?_, ?_⟩
      · rw [output, run, hread, htaken]
        refine congrArg Output.path ?_
        exact Bip32Path.written_congr (by rw [List.tail_cons, List.take_take, min_self])
      · rw [after, run, hread, hcount]
        rfl
      · rw [hcount, ← hr]
        exact hle
    · rw [Succeeds, run, hread] at hs
      cases hs

theorem exact_readBytes (h : b.Wf) (out : Bytes) (outLen len : UInt32) :
    (readBytes (some out) outLen len).Exact b := by
  refine exact_of_succeeds h fun _ hs => ?_
  by_cases hfail : b.rest.length < len.toNat ∨ outLen.toNat < len.toNat
  · rw [Succeeds, run, h.readBytes_fail hfail] at hs
    cases hs
  · rw [not_or, not_lt, not_lt] at hfail
    have hread := @Buffer.Wf.readBytes_eq b h out outLen.toNat len.toNat hfail.1 hfail.2
    refine ⟨?_, ?_, hfail.1⟩
    · have htaken : (readBytes (some out) outLen len).taken b = b.rest.take len.toNat :=
        taken_eq h hfail.1
      rw [output, run, hread, htaken]
      rfl
    · rw [after, run, hread]
      rfl

/-- A seek behind the unread bytes fails, also where the sum wraps around. -/
theorem seekCur_short (h : b.Wf) {n : UInt32} (hn : b.rest.length < n.toNat) :
    b.seekCur n.toNat = (false, b) := by
  have hlen := h.length_rest
  have hle := h.offset_le
  have hlt := h.size_lt
  have hmod : n.toNat < sizeMod := n.toNat_lt
  refine if_pos ?_
  unfold sizeAdd
  split_ifs with hwrap <;> omega

/-- A move is exact unless it has bytes to move that do not fill the array. -/
theorem exact_move_iff (h : b.Wf) (out : Bytes) (outLen : UInt32) :
    (move (some out) outLen).Exact b ↔ b.rest = [] ∨ outLen.toNat ≤ b.rest.length := by
  have hcount : (move (some out) outLen).count b = b.rest.length := h.remaining
  have htaken : (move (some out) outLen).taken b = b.rest := by
    rw [taken_eq h hcount.le, hcount, List.take_length]
  rcases lt_or_ge outLen.toNat b.rest.length with hlarge | hroom
  · have hrun : (move (some out) outLen).run b = (false, .cells out, b) := by
      rw [run, Buffer.move, h.copy_fail hlarge]
      rfl
    refine iff_of_true (exact_of_succeeds h fun _ hs => ?_) (.inr hlarge.le)
    rw [Succeeds, hrun] at hs
    cases hs
  have hrun : (move (some out) outLen).run b =
      (true, .cells (memmove out 0 b.rest), (b.seekCur outLen.toNat).2) := by
    rw [run, Buffer.move, h.copy_eq hroom]
    rfl
  have hdelivered : (move (some out) outLen).output b =
      (move (some out) outLen).makes ((move (some out) outLen).taken b) := by
    rw [output, hrun, htaken]
    rfl
  rcases hroom.eq_or_lt with hfull | hshort
  · refine iff_of_true (exact_of_succeeds h fun _ _ => ⟨hdelivered, ?_, hcount.le⟩) (.inr hfull.ge)
    rw [after, hrun, h.seekCur_eq hfull.ge, hcount, hfull]
  · have hstays : ((move (some out) outLen).after b).offset = b.offset := by
      rw [after, hrun, seekCur_short h hshort]
    constructor
    · intro hexact
      have hadvanced := hexact.advanced rfl (by rw [Succeeds, hrun])
      rw [hstays, htaken] at hadvanced
      exact .inl (List.eq_nil_of_length_eq_zero (by omega))
    · rintro (hnil | hle)
      · refine ⟨(safe_after h _).wf.offset_le, fun _ => hstays, fun _ _ => hdelivered, fun _ _ => ?_⟩
        rw [hstays, htaken, hnil]
        rfl
      · exact absurd hle hshort.not_ge

/-- The operations that are exact. -/
theorem exact_iff (h : b.Wf) (op : BufferOp) : op.Exact b ↔ op.Fills b := by
  cases op with
  | seekSet offset => exact iff_of_true (exact_of_succeeds h nofun) trivial
  | seekCur offset => exact iff_of_true (exact_of_succeeds h nofun) trivial
  | seekEnd offset => exact iff_of_true (exact_of_succeeds h nofun) trivial
  | readU8 =>
    refine iff_of_true (exact_of_readUint (n := 1) h rfl rfl (congrArg Output.number ?_)) trivial
    rw [byteAt_take Nat.zero_lt_one, byteAt_drop, Nat.add_zero]
  | readU16 e =>
    cases e <;> exact iff_of_true (exact_of_readUint h rfl rfl rfl) trivial
  | readU32 e =>
    cases e <;> exact iff_of_true (exact_of_readUint h rfl rfl rfl) trivial
  | readU64 e =>
    cases e <;> exact iff_of_true (exact_of_readUint h rfl rfl rfl) trivial
  | readBip32Path out =>
    cases out with
    | none => exact iff_of_true (exact_of_succeeds h nofun) trivial
    | some out => exact iff_of_true (exact_readBip32Path h out) trivial
  | readBytes out outLen len =>
    cases out with
    | none => exact iff_of_true (exact_of_succeeds h nofun) trivial
    | some out => exact iff_of_true (exact_readBytes h out outLen len) trivial
  | copy out outLen => exact iff_of_true (exact_of_succeeds h nofun) trivial
  | move out outLen =>
    cases out with
    | none => exact iff_of_true (exact_of_succeeds h nofun) trivial
    | some out => exact exact_move_iff h out outLen

end Operation

end BufferOp

/-! ### Runs of operations -/

open BufferOp

/-- The buffer behind a run of operations. -/
def runOps : List BufferOp → Buffer → Buffer
  | [], b => b
  | op :: ops, b => runOps ops (op.after b)

/-- Every operation of the run is exact. -/
def AllExact : List BufferOp → Buffer → Prop
  | [], _ => True
  | op :: ops, b => op.Exact b ∧ AllExact ops (op.after b)

/-- The run consists of reads and moves that succeed. -/
def AllTake : List BufferOp → Buffer → Prop
  | [], _ => True
  | op :: ops, b => (op.takes = true ∧ op.Succeeds b) ∧ AllTake ops (op.after b)

/-- The bytes that the operations of a run deliver, in order. -/
def pieces : List BufferOp → Buffer → List Bytes
  | [], _ => []
  | op :: ops, b => op.taken b :: pieces ops (op.after b)

/-- The reads and moves of a run deliver the bytes of the buffer in order: their pieces are what
stands between the old cursor and the new one. -/
def Consecutive (ops : List BufferOp) (b : Buffer) : Prop :=
  AllTake ops b → (pieces ops b).flatten ++ (runOps ops b).rest = b.rest ∧
    (runOps ops b).offset = b.offset + (pieces ops b).flatten.length

/-- A run is exact, and so its reads and moves deliver consecutive bytes of the buffer. -/
structure MovesExactly (ops : List BufferOp) (b : Buffer) : Prop where
  exact : AllExact ops b
  consecutive : Consecutive ops b

/-- Each move of the run finds enough unread bytes to fill its array, or none at all. -/
def FillsMoves : List BufferOp → Buffer → Prop
  | [], _ => True
  | op :: ops, b => op.Fills b ∧ FillsMoves ops (op.after b)

variable {b : Buffer}

theorem allExact_iff (h : b.Wf) (ops : List BufferOp) : AllExact ops b ↔ FillsMoves ops b := by
  induction ops generalizing b with
  | nil => exact Iff.rfl
  | cons op ops ih => exact and_congr (exact_iff h op) (ih (safe_after h op).wf)

/-- What an exact read or move leaves unread. -/
theorem rest_after (h : b.Wf) {op : BufferOp} (hexact : op.Exact b) (htakes : op.takes = true)
    (hs : op.Succeeds b) : op.taken b ++ (op.after b).rest = b.rest := by
  have hsafe := safe_after h op
  have hoffset := hexact.advanced htakes hs
  have hlen := h.length_rest
  have hfits : (op.taken b).length ≤ b.rest.length := by
    have hinside := hexact.inside
    rw [hsafe.size_eq] at hinside
    omega
  have htaken : op.taken b = b.rest.take (op.taken b).length :=
    (List.prefix_iff_eq_take.1 (List.take_prefix _ _)).trans (h.take_drop_ptr hfits)
  have hrest : (op.after b).rest = b.rest.drop (op.taken b).length := by
    rw [Buffer.rest, hsafe.ptr_eq, hsafe.size_eq, hoffset, ← List.drop_drop]
    rfl
  rw [hrest]
  nth_rewrite 1 [htaken]
  exact List.take_append_drop _ _

theorem AllExact.consecutive (h : b.Wf) {ops : List BufferOp} (hexact : AllExact ops b) :
    Consecutive ops b := by
  induction ops generalizing b with
  | nil => exact fun _ => ⟨rfl, rfl⟩
  | cons op ops ih =>
    rintro ⟨⟨htakes, hs⟩, hall⟩
    obtain ⟨hrest, hoffset⟩ := ih (safe_after h op).wf hexact.2 hall
    constructor
    · rw [pieces, runOps, List.flatten_cons, List.append_assoc, hrest,
        rest_after h hexact.1 htakes hs]
    · rw [pieces, runOps, List.flatten_cons, List.length_append, hoffset,
        hexact.1.advanced htakes hs, Nat.add_assoc]

/-- The cursor moves by exactly what was delivered, on every buffer and in every run of operations,
if and only if no move has unread bytes that do not fill its array. -/
theorem movesExactly_iff (h : b.Wf) (ops : List BufferOp) :
    MovesExactly ops b ↔ FillsMoves ops b :=
  ⟨fun hmoves => (allExact_iff h ops).1 hmoves.exact, fun hfills =>
    ⟨(allExact_iff h ops).2 hfills, ((allExact_iff h ops).2 hfills).consecutive h⟩⟩

/-- A version byte, a number and a path are read, and the three bytes left are moved. -/
def sampleOps : List BufferOp :=
  [readU8, readU16 .be, readBip32Path (some ⟨0, List.replicate 5 0⟩),
    move (some (List.replicate 3 0)) 3]

def sampleBuffer : Buffer := .ofBytes [1, 0, 2, 1, 0x80, 0, 0, 44, 7, 8, 9]

theorem movesExactly_sampleBuffer : MovesExactly sampleOps sampleBuffer :=
  (movesExactly_iff (Buffer.wf_ofBytes (by decide)) sampleOps).2
    ⟨trivial, trivial, trivial, .inr (by decide), trivial⟩

/-- Five unread bytes are moved into an array of six cells: all of them are delivered, and the
cursor stays in front of them. -/
theorem not_movesExactly_shortMove :
    ¬MovesExactly [move (some (List.replicate 6 0)) 6] (.ofBytes [1, 2, 3, 4, 5]) := by
  intro hmoves
  have hadvanced := hmoves.exact.1.advanced rfl rfl
  exact absurd hadvanced (by decide)

end HathorLedger
