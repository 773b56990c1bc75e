import TxnDb.Recovery
import TxnDb.Format

/-!
# Diagnoses of byte strings

What the decoder says of a byte string (`Diagnosis`): that it is a record, or the first
thing that is wrong with it, read from left to right. Of bytes that could be the beginning
of a record it says that the record ends too early, unless they are too few for the writes
announced; of a record with bytes after it, that there are some. The decoder returns what the
diagnosis says (`Diagnosis.decodeCommit`).
-/

namespace TxnDb

open LittleEndian Reader

variable {α β : Type} {d : Decoder α} {f : α → Decoder β} {e : TxnError} {bytes rest : List UInt8}
  {commitTs count : ℕ} {writes : List WriteEntry} {a : α}

/-! ## Diagnoses -/

/-- The lengths of a write fit in a `u32`. -/
def FitsEntry (e : WriteEntry) : Prop :=
  e.1.length < 2 ^ 32 ∧ ∀ v, e.2 = some v → v.length < 2 ^ 32

/-- What comes before the writes in a record of `count` writes. -/
def header (commitTs count : ℕ) : List UInt8 :=
  recordVersion :: (toLE 8 commitTs ++ encodeU32 count)

theorem fitsEntry_none {key : Key} (h : key.length < 2 ^ 32) : FitsEntry ⟨key, none⟩ := ⟨h, nofun⟩

/-- What is wrong with the bytes of a write. -/
inductive WriteDiagnosis : List UInt8 → TxnError → Prop
  /-- They end before the write does. -/
  | cut {bytes missing : List UInt8} {e : WriteEntry} (hmissing : missing ≠ []) (he : FitsEntry e)
      (hcut : bytes ++ missing = encodeWrite e) :
      WriteDiagnosis bytes (corrupt "record ends mid-field")
  /-- After the key, there is neither the tag of a value nor that of a tombstone. -/
  | tag {key rest : List UInt8} {tag : UInt8} (hkey : key.length < 2 ^ 32) (h0 : tag ≠ 0)
      (h1 : tag ≠ 1) :
      WriteDiagnosis (encodeU32 key.length ++ (key ++ tag :: rest)) (corruptTag tag)

/-- What there is to say of the bytes of a record. -/
inductive Diagnosis : List UInt8 → Except TxnError RecoveredCommit → Prop
  | intact {commitTs : ℕ} {writes : List WriteEntry} (hts : commitTs < 2 ^ 64)
      (hfit : Fits writes) : Diagnosis (encodeForLog commitTs writes) (.ok ⟨commitTs, writes⟩)
  /-- The record is of another version. -/
  | version {version : UInt8} {rest : List UInt8} (hversion : version ≠ recordVersion) :
      Diagnosis (version :: rest)
        (.error (.durability ("unsupported commit record version " ++ toString version)))
  /-- The record ends before its writes begin. -/
  | cut {bytes missing : List UInt8} {commitTs count : ℕ} (hts : commitTs < 2 ^ 64)
      (hcount : count < 2 ^ 32) (hmissing : missing ≠ [])
      (hcut : bytes ++ missing = header commitTs count) :
      Diagnosis bytes (.error (corrupt "record ends mid-field"))
  /-- The bytes are too few for the writes announced. -/
  | count {commitTs count : ℕ} {rest : List UInt8} (hts : commitTs < 2 ^ 64)
      (hcount : count < 2 ^ 32) (hfew : rest.length < count * minWriteBytes) :
      Diagnosis (header commitTs count ++ rest)
        (.error (corrupt "write count exceeds record size"))
  /-- The bytes are enough, but there is something wrong with a write. -/
  | write {commitTs count : ℕ} {writes : List WriteEntry} {rest : List UInt8} {e : TxnError}
      (hts : commitTs < 2 ^ 64) (hcount : count < 2 ^ 32)
      (henough : count * minWriteBytes ≤ (writes.flatMap encodeWrite ++ rest).length)
      (hwrites : ∀ e ∈ writes, FitsEntry e) (hlen : writes.length < count)
      (hrest : WriteDiagnosis rest e) :
      Diagnosis (header commitTs count ++ (writes.flatMap encodeWrite ++ rest)) (.error e)
  /-- There are bytes after the record. -/
  | trailing {commitTs : ℕ} {writes : List WriteEntry} {extra : List UInt8}
      (hts : commitTs < 2 ^ 64) (hfit : Fits writes) (hextra : extra ≠ []) :
      Diagnosis (encodeForLog commitTs writes ++ extra)
        (.error (corrupt "trailing bytes after commit record"))

theorem encodeForLog_eq (commitTs : ℕ) (writes : List WriteEntry) :
    encodeForLog commitTs writes =
      header commitTs writes.length ++ writes.flatMap encodeWrite := by
  rw [header, encodeForLog, List.cons_append, List.append_assoc]

/-- There is a byte string of which a field is the beginning. -/
theorem exists_toLE {width : ℕ} (h : bytes.length < width) :
    ∃ missing n, missing ≠ [] ∧ n < 256 ^ width ∧ bytes ++ missing = toLE width n := by
  let missing : List UInt8 := List.replicate (width - bytes.length) 0
  have hlen : (bytes ++ missing).length = width := by
    rw [List.length_append, List.length_replicate]
    omega
  refine ⟨missing, ofLE (bytes ++ missing), ?_, ?_, ?_⟩
  · rw [ne_eq, List.replicate_eq_nil_iff]
    omega
  · rw [← hlen]
    exact ofLE_lt _
  · have hbytes := toLE_ofLE (bytes ++ missing)
    rw [hlen] at hbytes
    exact hbytes.symm

/-! ## Decoders that are cut short -/

/-- On a first part of `bytes`, and nothing after it, `d` says that the record ends. -/
def EndsIn (d : Decoder α) (bytes : List UInt8) : Prop :=
  ∀ pre input missing, missing ≠ [] → input ++ missing = bytes →
    d ⟨pre ++ input, pre.length⟩ = .error (corrupt "record ends mid-field")

namespace EndsIn

variable {bytes' : List UInt8}

/-- A decoder that goes on ends where it did. -/
theorem left (h : EndsIn d bytes) : EndsIn (d >>= f) bytes := by
  intro pre input missing hne heq
  change (d _).bind (fun p => f p.1 p.2) = _
  rw [h pre input missing hne heq]
  rfl

/-- A value is read, or the decoder ends in it. -/
theorem bind (hread : ∀ rest, Reads d bytes rest a) (h : EndsIn d bytes)
    (h' : EndsIn (f a) bytes') : EndsIn (d >>= f) (bytes ++ bytes') := by
  have hthen : ∀ pre input missing, missing ≠ [] → input ++ missing = bytes' →
      (d >>= f) ⟨pre ++ (bytes ++ input), pre.length⟩ =
        .error (corrupt "record ends mid-field") := by
    intro pre input missing hne heq
    exact (hread input).bind_error (fun pre => h' pre input missing hne heq) pre
  intro pre input missing hne heq
  rcases List.append_eq_append_iff.1 heq with ⟨c, rfl, rfl⟩ | ⟨c, rfl, rfl⟩
  · cases c with
    | nil =>
      rw [List.append_nil] at hthen
      have hnil := hthen pre [] bytes' hne (List.nil_append _)
      rwa [List.append_nil] at hnil
    | cons b c => exact h.left pre input (b :: c) (List.cons_ne_nil b c) rfl
  · exact hthen pre c missing hne rfl

theorem pure : EndsIn (Pure.pure a : Decoder α) [] := by
  intro pre input missing hne heq
  exact absurd (List.append_eq_nil_iff.1 heq).2 hne

theorem readBytes {len : ℕ} (h : bytes.length = len) : EndsIn (readBytes len) bytes := by
  rintro pre input missing hne rfl
  have hpos := List.length_pos_of_ne_nil hne
  rw [List.length_append] at h
  simp only [Reader.readBytes, List.length_append]
  rw [if_neg (by omega)]

theorem readU8 (b : UInt8) : EndsIn readU8 [b] := (readBytes rfl).left

theorem readU32 (n : ℕ) : EndsIn readU32 (encodeU32 n) := (readBytes (length_toLE 4 n)).left

theorem readU64 (n : ℕ) : EndsIn readU64 (toLE 8 n) := (readBytes (length_toLE 8 n)).left

theorem decodeWrite {e : WriteEntry} (h : FitsEntry e) : EndsIn decodeWrite (encodeWrite e) := by
  obtain ⟨key, _ | value⟩ := e
  · refine bind (fun _ => Reads.readU32 h.1) (readU32 _) (bind (fun _ => Reads.readBytes key)
      (readBytes rfl) ?_)
    exact (readU8 0).left
  · refine bind (fun _ => Reads.readU32 h.1) (readU32 _) (bind (fun _ => Reads.readBytes key)
      (readBytes rfl) (bind (fun _ => Reads.readU8 1) (readU8 1) ?_))
    refine bind (fun _ => Reads.readU32 (h.2 value rfl)) (readU32 _) ?_
    exact (readBytes rfl).left

end EndsIn

/-! ## A diagnosis is what the decoder says -/

theorem WriteDiagnosis.decodeWrite (h : WriteDiagnosis bytes e) (pre : List UInt8) :
    decodeWrite ⟨pre ++ bytes, pre.length⟩ = .error e := by
  cases h with
  | cut hmissing he hcut => exact EndsIn.decodeWrite he pre _ _ hmissing hcut
  | @tag key rest tag hkey h0 h1 =>
    refine (Reads.readU32 hkey).bind_error ((Reads.readBytes key).bind_error fun pre => ?_) pre
    refine @Reads.bind_error _ _ _ _ _ [tag] rest _ (Reads.readU8 tag) (fun pre => ?_) pre
    rw [if_neg h0, if_neg h1]
    rfl

/-- The writes before the one that something is wrong with are read. -/
theorem decodeWrites_error (hwrites : ∀ e ∈ writes, FitsEntry e) (hlen : writes.length < count)
    (h : ∀ pre, decodeWrite ⟨pre ++ rest, pre.length⟩ = .error e) (pre : List UInt8) :
    decodeWrites count ⟨pre ++ (writes.flatMap encodeWrite ++ rest), pre.length⟩ =
      .error e := by
  induction writes generalizing count pre with
  | nil =>
    obtain ⟨count, rfl⟩ := Nat.exists_eq_add_one_of_ne_zero hlen.ne'
    rw [List.flatMap_nil, List.nil_append]
    change (decodeWrite _).bind _ = _
    rw [h pre]
    rfl
  | cons w writes ih =>
    obtain ⟨count, rfl⟩ := Nat.exists_eq_add_one_of_ne_zero (Nat.ne_zero_of_lt hlen)
    obtain ⟨hkey, hvalue⟩ := hwrites w List.mem_cons_self
    have hrest := ih (fun e he => hwrites e (List.mem_cons_of_mem _ he))
      (Nat.lt_of_succ_lt_succ hlen)
    rw [List.flatMap_cons, List.append_assoc]
    refine (Reads.decodeWrite hkey hvalue).bind_error (fun pre => ?_) pre
    change (decodeWrites count _).bind _ = _
    rw [hrest pre]
    rfl

/-- The header is read, if it is of the version. -/
theorem decodeCommit_header (hts : commitTs < 2 ^ 64) (hcount : count < 2 ^ 32)
    (h : ∀ pre, (do
      if count > rest.length / minWriteBytes then
        throw (corrupt "write count exceeds record size")
      let writes ← decodeWrites count
      if (← remaining) ≠ 0 then
        throw (corrupt "trailing bytes after commit record")
      return ⟨commitTs, writes⟩ : Decoder RecoveredCommit) ⟨pre ++ rest, pre.length⟩ = .error e) :
    decodeCommit (header commitTs count ++ rest) = .error e := by
  have hbytes : header commitTs count ++ rest =
      [recordVersion] ++ (toLE 8 commitTs ++ (encodeU32 count ++ ([] ++ rest))) := by
    rw [header, List.cons_append, List.append_assoc]
    rfl
  rw [decodeCommit, hbytes]
  refine congrArg (Except.map (·.1)) ((Reads.readU8 recordVersion).bind_error ?_ [])
  rw [if_neg (not_not.2 rfl)]
  exact (Reads.readU64 hts).bind_error ((Reads.readU32 hcount).bind_error
    (Reads.remaining.bind_error h))

/-- A decoder that ends in the header says so. -/
theorem EndsIn.readCommit (hts : commitTs < 2 ^ 64) :
    EndsIn readCommit (header commitTs count) := by
  refine bind (fun _ => Reads.readU8 recordVersion) (readU8 _) ?_
  rw [if_neg (not_not.2 rfl)]
  exact bind (fun _ => Reads.readU64 hts) (readU64 _) (readU32 count).left

/-- A diagnosis is what the decoder returns. -/
theorem Diagnosis.decodeCommit {r : Except TxnError RecoveredCommit} (h : Diagnosis bytes r) :
    decodeCommit bytes = r := by
  cases h with
  | intact hts hfit => exact decodeCommit_encodeForLog hts hfit
  | @version version rest hversion =>
    refine congrArg (Except.map (·.1)) (@Reads.bind_error _ _ _ _ _ [version] rest _
      (Reads.readU8 version) (fun pre => ?_) [])
    rw [if_pos hversion]
    rfl
  | cut hts hcount hmissing hcut =>
    exact congrArg (Except.map (·.1)) (EndsIn.readCommit hts [] _ _ hmissing hcut)
  | count hts hcount hfew =>
    refine decodeCommit_header hts hcount fun pre => ?_
    rw [if_pos (Nat.div_lt_of_lt_mul (by rwa [Nat.mul_comm]))]
    rfl
  | write hts hcount henough hwrites hlen hrest =>
    refine decodeCommit_header hts hcount fun pre => ?_
    rw [if_neg (not_lt.2 ((Nat.le_div_iff_mul_le (by decide)).2 henough))]
    change (decodeWrites _ _).bind _ = _
    rw [decodeWrites_error hwrites hlen hrest.decodeWrite pre]
    rfl
  | @trailing commitTs writes extra hts hfit hextra =>
    rw [encodeForLog_eq, List.append_assoc]
    refine decodeCommit_header hts hfit.1 fun pre => ?_
    rw [if_neg]
    · refine (Reads.decodeWrites hfit.2).bind_error (fun pre => ?_) pre
      refine @Reads.bind_error _ _ _ _ _ [] extra _ Reads.remaining (fun pre => ?_) pre
      rw [if_pos (mt List.length_eq_zero_iff.1 hextra)]
      rfl
    · rw [not_lt, Nat.le_div_iff_mul_le (by decide), List.length_append]
      exact (length_le_flatMap writes).trans (Nat.le_add_right _ _)

end TxnDb
