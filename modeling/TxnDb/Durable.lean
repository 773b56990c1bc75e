import TxnDb.Basic
import TxnDb.Lib.LittleEndian

/-!
# The commit log

Every committed transaction of a durable database is a record of its write-ahead
log: a version byte, the commit timestamp, and the writes, each field behind its
length, little-endian (`encodeForLog`). Opening the log decodes the records
(`decodeCommit`), checking the version and every length against the bytes there
are. Lengths are `u32`: a commit whose lengths fit (`Fits`) is decoded as it was
encoded (`decodeCommit_encodeForLog`).

The write-ahead log itself (`Wal`) is the environment of the model: the records
whose append returned, and those being appended, each tagged with the
transaction it is for. The tag is there to state what the log holds; the
database sees the bytes only.
-/

namespace TxnDb

open LittleEndian

/-- One committed transaction recovered from the log. -/
structure RecoveredCommit where
  commitTs : ℕ
  writes : List WriteEntry
  deriving DecidableEq

/-- The version of the record format. -/
def recordVersion : UInt8 := 1

/-- The size of the smallest encoded write: an empty key, and the tag of a tombstone. -/
def minWriteBytes : ℕ := 4 + 1

/-- The encoding of a `u32` (a longer integer is truncated). -/
def encodeU32 (n : ℕ) : List UInt8 := toLE 4 n

/-- The encoding of a write. -/
def encodeWrite : WriteEntry → List UInt8
  | ⟨key, some v⟩ => encodeU32 key.length ++ (key ++ (1 :: (encodeU32 v.length ++ v)))
  | ⟨key, none⟩ => encodeU32 key.length ++ (key ++ [0])

/-- The record of a committed transaction. -/
def encodeForLog (commitTs : ℕ) (writes : List WriteEntry) : List UInt8 :=
  recordVersion :: (toLE 8 commitTs ++ (encodeU32 writes.length ++ writes.flatMap encodeWrite))

/-- A record that is not intact. -/
def corrupt (reason : String) : TxnError := .durability ("malformed commit record: " ++ reason)

/-- A record with a write that is neither a value nor a tombstone. -/
def corruptTag (tag : UInt8) : TxnError :=
  .durability ("malformed commit record: invalid value tag " ++ toString tag)

/-! ## Reading a record -/

/-- A cursor over the bytes of a record. -/
structure Reader where
  buf : List UInt8
  pos : ℕ

/-- What reads a value off the cursor, or fails. -/
abbrev Decoder (α : Type) := StateT Reader (Except TxnError) α

namespace Reader

def new (buf : List UInt8) : Reader := ⟨buf, 0⟩

/-- The number of bytes left. -/
def remaining : Decoder ℕ := fun reader => .ok (reader.buf.length - reader.pos, reader)

/-- The next `len` bytes. -/
def readBytes (len : ℕ) : Decoder (List UInt8) := fun reader =>
  let end_ := reader.pos + len
  if end_ ≤ reader.buf.length then
    .ok ((reader.buf.drop reader.pos).take len, { reader with pos := end_ })
  else .error (corrupt "record ends mid-field")

def readU8 : Decoder UInt8 := do
  return (← readBytes 1).headD 0

def readU32 : Decoder ℕ := do
  return ofLE (← readBytes 4)

def readU64 : Decoder ℕ := do
  return ofLE (← readBytes 8)

end Reader

open Reader

/-- The next write. -/
def decodeWrite : Decoder WriteEntry := do
  let keyLen ← readU32
  let key ← readBytes keyLen
  let tag ← readU8
  if tag = 0 then
    return ⟨key, none⟩
  else if tag = 1 then
    let valueLen ← readU32
    let value ← readBytes valueLen
    return ⟨key, some value⟩
  else throw (corruptTag tag)

/-- The next `count` writes. -/
def decodeWrites : (count : ℕ) → Decoder (List WriteEntry)
  | 0 => return []
  | count + 1 => do
    let write ← decodeWrite
    let writes ← decodeWrites count
    return write :: writes

/-- The commit a record is of, the cursor being at its start. -/
def readCommit : Decoder RecoveredCommit := do
  let version ← readU8
  if version ≠ recordVersion then
    throw (.durability ("unsupported commit record version " ++ toString version))
  let commitTs ← readU64
  let count ← readU32
  -- the count is not trusted to reserve memory
  if count > (← remaining) / minWriteBytes then
    throw (corrupt "write count exceeds record size")
  let writes ← decodeWrites count
  if (← remaining) ≠ 0 then
    throw (corrupt "trailing bytes after commit record")
  return ⟨commitTs, writes⟩

/-- Decoding a record. -/
def decodeCommit (bytes : List UInt8) : Except TxnError RecoveredCommit :=
  (·.1) <$> readCommit (Reader.new bytes)

/-! ## The log -/

/-- A record of the write-ahead log, and the transaction it is for. -/
structure Record where
  owner : ℕ
  data : List UInt8
  deriving DecidableEq

/-- The write-ahead log: the records whose append returned, in order, and those
    being appended. -/
structure Wal where
  records : List Record
  inFlight : List Record
  deriving DecidableEq

/-- The log of a database. -/
structure CommitLog where
  wal : Wal
  deriving DecidableEq

namespace CommitLog

/-- Opens the log on the records the write-ahead log iterates over, decoding them. -/
def openLog (records : List Record) : Except TxnError (CommitLog × List RecoveredCommit) := do
  let recovered ← records.mapM fun entry => decodeCommit entry.data
  return (⟨⟨records, []⟩⟩, recovered)

/-- The append of a record begins. -/
def append (log : CommitLog) (entry : Record) : CommitLog :=
  ⟨⟨log.wal.records, log.wal.inFlight ++ [entry]⟩⟩

/-- The append of a record returns: it is durable. -/
def synced (log : CommitLog) (entry : Record) : CommitLog :=
  ⟨⟨log.wal.records ++ [entry], log.wal.inFlight.erase entry⟩⟩

/-- The append of a record fails, and leaves the log without it. -/
def failed (log : CommitLog) (entry : Record) : CommitLog :=
  ⟨⟨log.wal.records, log.wal.inFlight.erase entry⟩⟩

end CommitLog

/-! ## Round trip -/

/-- The lengths of a commit fit in a `u32`. -/
def Fits (writes : List WriteEntry) : Prop :=
  writes.length < 2 ^ 32 ∧
    ∀ e ∈ writes, e.1.length < 2 ^ 32 ∧ ∀ v, e.2 = some v → v.length < 2 ^ 32

instance (writes : List WriteEntry) : Decidable (Fits writes) :=
  inferInstanceAs (Decidable (_ ∧ ∀ e ∈ writes, e.1.length < 2 ^ 32 ∧ ∀ v ∈ e.2, v.length < 2 ^ 32))

/-- With the bytes `bytes` next, and then `rest`, `d` reads `a` off `bytes`. -/
def Reads {α : Type} (d : Decoder α) (bytes rest : List UInt8) (a : α) : Prop :=
  ∀ pre, d ⟨pre ++ (bytes ++ rest), pre.length⟩ =
    .ok (a, ⟨pre ++ (bytes ++ rest), (pre ++ bytes).length⟩)

namespace Reads

variable {α β : Type} {d : Decoder α} {f : α → Decoder β} {bytes bytes' rest : List UInt8}
  {a : α} {b : β}

/-- Values are read one after the other. -/
theorem bind (h : Reads d bytes (bytes' ++ rest) a) (h' : Reads (f a) bytes' rest b) :
    Reads (d >>= f) (bytes ++ bytes') rest b := by
  intro pre
  have hd := h pre
  have hf := h' (pre ++ bytes)
  rw [← List.append_assoc bytes] at hd
  rw [List.append_assoc pre bytes, ← List.append_assoc bytes, List.append_assoc pre] at hf
  change (d _).bind (fun p => f p.1 p.2) = _
  rw [hd]
  exact hf

theorem pure (a : α) : Reads (Pure.pure a) [] rest a := fun pre => by
  rw [List.append_nil]
  rfl

theorem map {g : α → β} (h : Reads d bytes rest a) :
    Reads (d >>= fun x => Pure.pure (g x)) bytes rest (g a) := by
  have hbind := h.bind (f := fun x => Pure.pure (g x)) (pure (g a))
  rwa [List.append_nil] at hbind

theorem remaining : Reads remaining [] rest rest.length := fun pre => by
  simp [Reader.remaining]

theorem readBytes (bytes : List UInt8) : Reads (readBytes bytes.length) bytes rest bytes := by
  intro pre
  have hle : pre.length + bytes.length ≤ (pre ++ (bytes ++ rest)).length := by
    simp only [List.length_append]
    omega
  simp only [Reader.readBytes]
  rw [if_pos hle, List.drop_left, List.take_left, List.length_append]

theorem readU8 (b : UInt8) : Reads readU8 [b] rest b := (readBytes [b]).map

theorem readU32 {n : ℕ} (h : n < 2 ^ 32) : Reads readU32 (encodeU32 n) rest n := by
  have hread : Reads (Reader.readBytes 4) (toLE 4 n) rest (toLE 4 n) :=
    length_toLE 4 n ▸ readBytes (toLE 4 n)
  have hmap := hread.map (g := ofLE)
  rwa [ofLE_toLE (by rwa [show 256 ^ 4 = 2 ^ 32 from rfl])] at hmap

theorem readU64 {n : ℕ} (h : n < 2 ^ 64) : Reads readU64 (toLE 8 n) rest n := by
  have hread : Reads (Reader.readBytes 8) (toLE 8 n) rest (toLE 8 n) :=
    length_toLE 8 n ▸ readBytes (toLE 8 n)
  have hmap := hread.map (g := ofLE)
  rwa [ofLE_toLE (by rwa [show 256 ^ 8 = 2 ^ 64 from rfl])] at hmap

/-- A write whose lengths fit is read back. -/
theorem decodeWrite {e : WriteEntry} (hk : e.1.length < 2 ^ 32)
    (hv : ∀ v, e.2 = some v → v.length < 2 ^ 32) : Reads decodeWrite (encodeWrite e) rest e := by
  obtain ⟨key, value⟩ := e
  cases value with
  | none => exact (readU32 hk).bind ((readBytes key).bind ((readU8 0).bind (pure _)))
  | some v =>
    refine (readU32 hk).bind ((readBytes key).bind ((readU8 1).bind
      (b := (⟨key, some v⟩ : WriteEntry)) ?_))
    exact (readU32 (hv v rfl)).bind (readBytes v).map

theorem decodeWrites {writes : List WriteEntry}
    (h : ∀ e ∈ writes, e.1.length < 2 ^ 32 ∧ ∀ v, e.2 = some v → v.length < 2 ^ 32) :
    Reads (decodeWrites writes.length) (writes.flatMap encodeWrite) rest writes := by
  induction writes with
  | nil => exact pure []
  | cons e writes ih =>
    obtain ⟨hk, hv⟩ := h e List.mem_cons_self
    exact (decodeWrite hk hv).bind (ih fun e he => h e (List.mem_cons_of_mem _ he)).map

end Reads

/-- An encoded write takes at least the size of the smallest. -/
theorem minWriteBytes_le (e : WriteEntry) : minWriteBytes ≤ (encodeWrite e).length := by
  obtain ⟨key, _ | v⟩ := e <;> simp only [encodeWrite, minWriteBytes, encodeU32,
    List.length_append, List.length_cons, List.length_nil, length_toLE] <;> omega

theorem length_le_flatMap (writes : List WriteEntry) :
    writes.length * minWriteBytes ≤ (writes.flatMap encodeWrite).length := by
  induction writes with
  | nil => exact Nat.zero_le _
  | cons e writes ih =>
    have := minWriteBytes_le e
    rw [List.flatMap_cons, List.length_append, List.length_cons, Nat.succ_mul]
    omega

/-- A commit whose lengths fit is decoded as it was encoded. -/
theorem decodeCommit_encodeForLog {commitTs : ℕ} {writes : List WriteEntry}
    (hts : commitTs < 2 ^ 64) (h : Fits writes) :
    decodeCommit (encodeForLog commitTs writes) = .ok ⟨commitTs, writes⟩ := by
  have hcount : ¬writes.length > (writes.flatMap encodeWrite).length / minWriteBytes := by
    rw [not_lt, Nat.le_div_iff_mul_le (by decide)]
    exact length_le_flatMap writes
  have hread : Reads readCommit ([recordVersion] ++ (toLE 8 commitTs ++ (encodeU32 writes.length ++
      ([] ++ (writes.flatMap encodeWrite ++ []))))) [] ⟨commitTs, writes⟩ := by
    refine (Reads.readU8 recordVersion).bind ?_
    rw [if_neg (not_not.2 rfl)]
    refine (Reads.readU64 hts).bind ((Reads.readU32 h.1).bind (Reads.remaining.bind ?_))
    rw [if_neg (by simpa using hcount)]
    refine (Reads.decodeWrites h.2).bind (Reads.remaining.bind ?_)
    exact .pure _
  have hrun := hread []
  simp only [List.append_nil, List.nil_append] at hrun
  rw [decodeCommit, Reader.new]
  exact congrArg (Except.map (·.1)) hrun

end TxnDb
