import TxnDb.Durable

/-!
# The record format

The decoder accepts the records that the encoder writes, of commits whose
lengths fit, and nothing else (`decodeCommit_ok_iff`): whatever it reads a value
from is the encoding of that value (`Accepts`), field by field.

So a record that is cut, or has bytes after it, is rejected
(`decodeCommit_prefix_free`), and a commit whose lengths do not fit is not read
back, although it is appended.
-/

namespace TxnDb

open LittleEndian Reader

variable {α β : Type} {d : Decoder α} {f : α → Decoder β} {e : TxnError}

/-- Whenever `d` reads a value, with the bytes `input` next, it has read a first part
    of them, and `R` holds of this part, of the rest, and of the value. -/
def Accepts (d : Decoder α) (R : (bytes rest : List UInt8) → α → Prop) : Prop :=
  ∀ pre input a reader, d ⟨pre ++ input, pre.length⟩ = .ok (a, reader) →
    ∃ bytes rest, input = bytes ++ rest ∧ reader = ⟨pre ++ input, (pre ++ bytes).length⟩ ∧
      R bytes rest a

namespace Accepts

variable {R : List UInt8 → List UInt8 → α → Prop} {T : List UInt8 → List UInt8 → β → Prop}

/-- Values are read one after the other. -/
theorem bind (h : Accepts d R) (h' : ∀ a bytes, Accepts (f a) fun bytes' rest b =>
    R bytes (bytes' ++ rest) a → T (bytes ++ bytes') rest b) : Accepts (d >>= f) T := by
  intro pre input b reader hok
  change (d _).bind (fun p => f p.1 p.2) = _ at hok
  cases hd : d ⟨pre ++ input, pre.length⟩ with
  | error e =>
    rw [hd] at hok
    cases hok
  | ok p =>
    obtain ⟨a, reader'⟩ := p
    obtain ⟨bytes, rest, rfl, rfl, hR⟩ := h pre input a reader' hd
    rw [hd] at hok
    change f a ⟨pre ++ (bytes ++ rest), (pre ++ bytes).length⟩ = _ at hok
    rw [← List.append_assoc] at hok
    obtain ⟨bytes', rest', rfl, rfl, hT⟩ := h' a bytes _ _ _ _ hok
    exact ⟨bytes ++ bytes', rest', by simp, by simp, hT hR⟩

theorem pure {a : α} (h : ∀ rest, R [] rest a) : Accepts (Pure.pure a) R := by
  intro pre input b reader hok
  obtain ⟨rfl, rfl⟩ := Prod.mk.inj (Except.ok.inj hok)
  exact ⟨[], input, rfl, by simp, h input⟩

theorem throw : Accepts (throw e : Decoder α) R := fun _ _ _ _ hok => nomatch hok

/-- A check, after which the decoder goes on. -/
theorem check {c : Prop} [Decidable c] (h : ¬c → Accepts d R) :
    Accepts (if c then (MonadExcept.throw e : Decoder Unit) >>= fun _ => d else d) R := by
  split_ifs with hc
  · exact fun _ _ _ _ hok => nomatch hok
  · exact h hc

theorem remaining : Accepts remaining fun bytes rest n => bytes = [] ∧ n = rest.length := by
  intro pre input n reader hok
  obtain ⟨rfl, rfl⟩ := Prod.mk.inj (Except.ok.inj hok)
  exact ⟨[], input, rfl, by simp, rfl, by simp⟩

theorem readBytes (len : ℕ) :
    Accepts (readBytes len) fun bytes _ a => a = bytes ∧ bytes.length = len := by
  intro pre input a reader hok
  simp only [Reader.readBytes] at hok
  split_ifs at hok with hle
  obtain ⟨rfl, rfl⟩ := Prod.mk.inj (Except.ok.inj hok)
  rw [List.length_append] at hle
  have hlen : (input.take len).length = len := by rw [List.length_take]; omega
  refine ⟨input.take len, input.drop len, (List.take_append_drop ..).symm, ?_, ?_, hlen⟩
  · rw [List.length_append, hlen]
  · rw [List.drop_left]

theorem readU8 : Accepts readU8 fun bytes _ b => bytes = [b] :=
  (readBytes 1).bind fun a bytes => pure fun rest ⟨ha, hlen⟩ => by
    obtain ⟨b, rfl⟩ := List.length_eq_one_iff.1 hlen
    rw [ha]
    rfl

theorem readU32 : Accepts readU32 fun bytes _ n => n < 2 ^ 32 ∧ bytes = encodeU32 n :=
  (readBytes 4).bind fun a bytes => pure fun rest ⟨ha, hlen⟩ => by
    rw [ha, List.append_nil, encodeU32, ← hlen, toLE_ofLE]
    exact ⟨(ofLE_lt bytes).trans_eq (by rw [hlen]; rfl), rfl⟩

theorem readU64 : Accepts readU64 fun bytes _ n => n < 2 ^ 64 ∧ bytes = toLE 8 n :=
  (readBytes 8).bind fun a bytes => pure fun rest ⟨ha, hlen⟩ => by
    rw [ha, List.append_nil, ← hlen, toLE_ofLE]
    exact ⟨(ofLE_lt bytes).trans_eq (by rw [hlen]; rfl), rfl⟩

/-- What a write is read from encodes it, and its lengths fit. -/
theorem decodeWrite : Accepts decodeWrite fun bytes _ e => bytes = encodeWrite e ∧
    e.1.length < 2 ^ 32 ∧ ∀ v, e.2 = some v → v.length < 2 ^ 32 := by
  refine readU32.bind fun keyLen b₁ => (readBytes keyLen).bind fun key b₂ =>
    readU8.bind fun tag b₃ => ?_
  split_ifs with h0 h1
  · refine pure fun rest htag ⟨hkey, hlen⟩ ⟨hlt, hkeyLen⟩ => ?_
    subst h0 htag hkey hkeyLen hlen
    exact ⟨by simp [encodeWrite], hlt, nofun⟩
  · refine readU32.bind fun valueLen b₄ => (readBytes valueLen).bind fun value b₅ =>
      pure fun rest ⟨hvalue, hvlen⟩ ⟨hvlt, hvalueLen⟩ htag ⟨hkey, hlen⟩ ⟨hlt, hkeyLen⟩ => ?_
    subst h1 htag hkey hkeyLen hlen hvalue hvalueLen hvlen
    refine ⟨by simp [encodeWrite], hlt, fun v hv => ?_⟩
    obtain rfl := Option.some.inj hv
    exact hvlt
  · exact throw

theorem decodeWrites (count : ℕ) : Accepts (decodeWrites count) fun bytes _ writes =>
    bytes = writes.flatMap encodeWrite ∧ writes.length = count ∧
      ∀ e ∈ writes, e.1.length < 2 ^ 32 ∧ ∀ v, e.2 = some v → v.length < 2 ^ 32 := by
  induction count with
  | zero => exact pure fun _ => ⟨rfl, rfl, nofun⟩
  | succ count ih =>
    refine decodeWrite.bind fun e b₁ => ih.bind fun writes b₂ =>
      pure fun rest ⟨hwrites, hlen, hall⟩ ⟨he, hfit⟩ => ?_
    subst he hwrites hlen
    refine ⟨by simp, rfl, fun e' he' => ?_⟩
    rcases List.mem_cons.1 he' with rfl | he'
    · exact hfit
    · exact hall e' he'

/-- What a commit is read from is its record. -/
theorem readCommit : Accepts readCommit fun bytes rest commit =>
    rest = [] ∧ commit.commitTs < 2 ^ 64 ∧ Fits commit.writes ∧
      bytes = encodeForLog commit.commitTs commit.writes := by
  refine readU8.bind fun version b₁ => check fun hversion => readU64.bind fun commitTs b₂ =>
    readU32.bind fun count b₃ => remaining.bind fun left b₄ => check fun _ =>
      (decodeWrites count).bind fun writes b₅ => remaining.bind fun left' b₆ => check fun hleft =>
        pure fun rest ⟨hb₆, hrest⟩ ⟨hb₅, hlen, hall⟩ ⟨hb₄, _⟩ ⟨hcount, hb₃⟩ ⟨hts, hb₂⟩ hb₁ => ?_
  have hversion := not_not.1 hversion
  have hleft := not_not.1 hleft
  subst hb₆ hb₅ hb₄ hb₃ hb₂ hb₁ hversion hlen
  refine ⟨?_, hts, ⟨hcount, hall⟩, by simp [encodeForLog]⟩
  exact List.length_eq_zero_iff.1 (hrest.symm.trans hleft)

end Accepts

/-- What is accepted is the record of a commit whose lengths fit. -/
theorem of_decodeCommit_ok {bytes : List UInt8} {commit : RecoveredCommit}
    (hok : decodeCommit bytes = .ok commit) : commit.commitTs < 2 ^ 64 ∧ Fits commit.writes ∧
      bytes = encodeForLog commit.commitTs commit.writes := by
  rw [decodeCommit] at hok
  cases hread : readCommit (Reader.new bytes) with
  | error e =>
    rw [hread] at hok
    cases hok
  | ok p =>
    obtain ⟨commit', reader⟩ := p
    rw [hread] at hok
    obtain rfl : commit' = commit := Except.ok.inj hok
    obtain ⟨bytes', rest, rfl, -, rfl, hts, hfit, rfl⟩ := Accepts.readCommit [] bytes _ _ hread
    exact ⟨hts, hfit, List.append_nil _⟩

/-- The decoder accepts the records of the commits whose lengths fit, and nothing else. -/
theorem decodeCommit_ok_iff (bytes : List UInt8) (commitTs : ℕ) (writes : List WriteEntry) :
    decodeCommit bytes = .ok ⟨commitTs, writes⟩ ↔
      commitTs < 2 ^ 64 ∧ Fits writes ∧ bytes = encodeForLog commitTs writes := by
  refine ⟨of_decodeCommit_ok, ?_⟩
  rintro ⟨hts, hfit, rfl⟩
  exact decodeCommit_encodeForLog hts hfit

/-! ## Records and parts of records -/

/-- What a decoder reads off the same bytes is the same, and so is what it leaves. -/
theorem Reads.unique {bytes bytes' rest rest' : List UInt8} {a a' : α} (h : Reads d bytes rest a)
    (h' : Reads d bytes' rest' a') (heq : bytes ++ rest = bytes' ++ rest') :
    a = a' ∧ bytes = bytes' ∧ rest = rest' := by
  have hrun := h []
  have hrun' := h' []
  rw [heq, hrun'] at hrun
  obtain ⟨ha, hreader⟩ := Prod.mk.inj (Except.ok.inj hrun)
  exact ⟨ha.symm, List.append_inj heq (Reader.mk.inj hreader).2.symm⟩

/-- The fields of a record, without the checks on the bytes left. -/
def readFields : Decoder RecoveredCommit := do
  let _ ← readU8
  let commitTs ← readU64
  let count ← readU32
  let writes ← decodeWrites count
  return ⟨commitTs, writes⟩

/-- The fields of a record are read off it, whatever comes next. -/
theorem Reads.readFields {rest : List UInt8} {commitTs : ℕ} {writes : List WriteEntry}
    (hts : commitTs < 2 ^ 64) (h : Fits writes) :
    Reads readFields (encodeForLog commitTs writes) rest ⟨commitTs, writes⟩ := by
  refine (Reads.readU8 recordVersion).bind ((Reads.readU64 hts).bind ((Reads.readU32 h.1).bind ?_))
  exact (Reads.decodeWrites h.2).map

/-- The timestamp of a record is that of its eight bytes. -/
theorem encodeForLog_mod (commitTs : ℕ) (writes : List WriteEntry) :
    encodeForLog (commitTs % 2 ^ 64) writes = encodeForLog commitTs writes := by
  rw [encodeForLog, encodeForLog, show 2 ^ 64 = 256 ^ 8 from rfl, toLE_mod]

/-- Two records that begin the same bytes are the same. -/
theorem encodeForLog_append_inj {commitTs commitTs' : ℕ} {writes writes' : List WriteEntry}
    {rest rest' : List UInt8} (h : Fits writes) (h' : Fits writes')
    (heq : encodeForLog commitTs writes ++ rest = encodeForLog commitTs' writes' ++ rest') :
    writes = writes' ∧ rest = rest' := by
  have hmod : ∀ n, n % 2 ^ 64 < 2 ^ 64 := fun n => Nat.mod_lt n (by decide)
  rw [← encodeForLog_mod commitTs, ← encodeForLog_mod commitTs'] at heq
  obtain ⟨hcommit, -, hrest⟩ :=
    (Reads.readFields (hmod commitTs) h).unique (Reads.readFields (hmod commitTs') h') heq
  exact ⟨(RecoveredCommit.mk.inj hcommit).2, hrest⟩

/-- Whatever is accepted, with bytes after it or not, among the bytes that begin with a
    record is that record. -/
theorem eq_of_decodeCommit_ok {commitTs : ℕ} {writes : List WriteEntry}
    {bytes rest rest' : List UInt8} {commit : RecoveredCommit} (h : Fits writes)
    (hok : decodeCommit bytes = .ok commit)
    (heq : bytes ++ rest = encodeForLog commitTs writes ++ rest') : rest = rest' := by
  obtain ⟨-, hfit, rfl⟩ := of_decodeCommit_ok hok
  exact (encodeForLog_append_inj hfit h heq).2

/-- No record is a prefix of another: what is left of one that is cut anywhere is rejected,
    and so is one with anything after it. -/
theorem decodeCommit_prefix_free {commitTs : ℕ} {writes : List WriteEntry} (h : Fits writes) :
    (∀ bytes, bytes <+: encodeForLog commitTs writes → bytes ≠ encodeForLog commitTs writes →
        ∃ e, decodeCommit bytes = .error e) ∧
      ∀ extra, extra ≠ [] →
        ∃ e, decodeCommit (encodeForLog commitTs writes ++ extra) = .error e := by
  constructor
  · rintro bytes ⟨rest, heq⟩ hne
    cases hdecode : decodeCommit bytes with
    | error e => exact ⟨e, rfl⟩
    | ok commit =>
      have hrest : rest = [] := eq_of_decodeCommit_ok h hdecode (by rw [heq, List.append_nil])
      rw [hrest, List.append_nil] at heq
      exact absurd heq hne
  · intro extra hne
    cases hdecode : decodeCommit (encodeForLog commitTs writes ++ extra) with
    | error e => exact ⟨e, rfl⟩
    | ok commit =>
      have hextra : [] = extra := eq_of_decodeCommit_ok h hdecode (List.append_nil _)
      exact absurd hextra.symm hne

/-- A record cut between its two entries, and one followed by what looks like an entry. -/
theorem decodeCommit_prefix_free_entries :
    (∃ e, decodeCommit ((encodeForLog 1 [⟨[120], none⟩, ⟨[121], none⟩]).take 19) = .error e) ∧
      ∃ e, decodeCommit (encodeForLog 1 [⟨[120], none⟩] ++ encodeWrite ⟨[121], none⟩) =
        .error e :=
  ⟨(decodeCommit_prefix_free (by decide)).1 _ (List.take_prefix _ _) (by decide),
    (decodeCommit_prefix_free (by decide)).2 _ (by decide)⟩

/-! ## Lengths that do not fit -/

/-- A decoder that reads a value, and fails then. -/
theorem Reads.bind_error {bytes rest : List UInt8} {a : α} (h : Reads d bytes rest a)
    (h' : ∀ pre, f a ⟨pre ++ rest, pre.length⟩ = .error e) (pre : List UInt8) :
    (d >>= f) ⟨pre ++ (bytes ++ rest), pre.length⟩ = .error e := by
  change (d _).bind (fun p => f p.1 p.2) = _
  rw [h pre, ← List.append_assoc]
  exact h' (pre ++ bytes)

theorem encodeU32_mod (n : ℕ) : encodeU32 (n % 2 ^ 32) = encodeU32 n := toLE_mod 4 n

/-- A value too long for its length field is cut when it is read back, and the rest of
    it is in the way. -/
theorem decodeCommit_of_le_length {commitTs : ℕ} {key : Key} {value : Value}
    (hts : commitTs < 2 ^ 64) (hkey : key.length < 2 ^ 32) (hlong : 2 ^ 32 ≤ value.length) :
    decodeCommit (encodeForLog commitTs [⟨key, some value⟩]) =
      .error (corrupt "trailing bytes after commit record") := by
  have hlt : value.length % 2 ^ 32 < 2 ^ 32 := Nat.mod_lt _ (by decide)
  have hread : (value.take (value.length % 2 ^ 32)).length = value.length % 2 ^ 32 := by
    rw [List.length_take, min_eq_left (Nat.mod_le _ _)]
  have hrest : (value.drop (value.length % 2 ^ 32)).length ≠ 0 := by
    rw [List.length_drop]
    omega
  -- the record, read field by field
  have hbytes : encodeForLog commitTs [⟨key, some value⟩] = [recordVersion] ++ (toLE 8 commitTs ++
      (encodeU32 1 ++ ([] ++ (([⟨key, some (value.take (value.length % 2 ^ 32))⟩] :
        List WriteEntry).flatMap encodeWrite ++ ([] ++ value.drop (value.length % 2 ^ 32)))))) := by
    simp only [encodeForLog, List.flatMap_cons, List.flatMap_nil, encodeWrite, hread, encodeU32_mod,
      List.append_assoc, List.cons_append, List.nil_append, List.append_nil,
      List.take_append_drop, List.length_singleton]
  have hone : 1 < 2 ^ 32 := by decide
  have hwrites : Reads (decodeWrites 1) (([⟨key, some (value.take (value.length % 2 ^ 32))⟩] :
      List WriteEntry).flatMap encodeWrite) ([] ++ value.drop (value.length % 2 ^ 32))
        [⟨key, some (value.take (value.length % 2 ^ 32))⟩] := by
    refine @Reads.decodeWrites _ [⟨key, some (value.take (value.length % 2 ^ 32))⟩] fun e he => ?_
    rw [List.mem_singleton.1 he]
    refine ⟨hkey, fun v hv => ?_⟩
    rw [← Option.some.inj hv, hread]
    exact hlt
  rw [decodeCommit, hbytes]
  refine congrArg (Except.map (·.1)) ((Reads.readU8 recordVersion).bind_error ?_ [])
  rw [if_neg (not_not.2 rfl)]
  refine (Reads.readU64 hts).bind_error ((Reads.readU32 hone).bind_error
    (Reads.remaining.bind_error ?_))
  rw [if_neg]
  · refine hwrites.bind_error fun pre => Reads.remaining.bind_error ?_ pre
    rw [if_pos hrest]
    exact fun _ => rfl
  · have := length_le_flatMap [⟨key, some (value.take (value.length % 2 ^ 32))⟩]
    rw [not_lt, Nat.le_div_iff_mul_le (by decide), List.length_append]
    exact this.trans (Nat.le_add_right _ _)

end TxnDb
