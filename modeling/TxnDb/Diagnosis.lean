import TxnDb.Diagnosis.Basic

/-!
# Logs that do not open

Each byte string has its diagnosis, which is what the decoder returns (`decodeCommit_eq_iff`). A
log opens iff its records are all intact, and otherwise fails with the diagnosis of the first one
that is not (`opens_iff_intact`).
-/

namespace TxnDb

open LittleEndian Reader

variable {α β : Type} {d : Decoder α} {f : α → Decoder β} {e : TxnError} {bytes rest : List UInt8}
  {commitTs count : ℕ} {writes : List WriteEntry} {a : α}

/-! ## What the decoder says is a diagnosis -/

/-- Whenever `d` fails, with the bytes `input` next, `F` holds of these and of the error. -/
def Fails (d : Decoder α) (F : List UInt8 → TxnError → Prop) : Prop :=
  ∀ pre input e, d ⟨pre ++ input, pre.length⟩ = .error e → F input e

namespace Fails

variable {R : List UInt8 → List UInt8 → α → Prop} {F : List UInt8 → TxnError → Prop}

/-- A decoder fails, or goes on and fails then. -/
theorem bind (hread : Accepts d R) (h : Fails d F) (h' : ∀ a bytes, Fails (f a) fun rest e =>
    R bytes rest a → F (bytes ++ rest) e) : Fails (d >>= f) F := by
  intro pre input e herr
  change (d _).bind (fun p => f p.1 p.2) = _ at herr
  cases hd : d ⟨pre ++ input, pre.length⟩ with
  | error e' =>
    rw [hd] at herr
    exact Except.error.inj herr ▸ h pre input e' hd
  | ok p =>
    obtain ⟨a, reader⟩ := p
    obtain ⟨bytes, rest, rfl, rfl, hR⟩ := hread pre input a reader hd
    rw [hd] at herr
    change f a ⟨pre ++ (bytes ++ rest), (pre ++ bytes).length⟩ = _ at herr
    rw [← List.append_assoc] at herr
    exact h' a bytes _ _ _ herr hR

theorem pure : Fails (Pure.pure a : Decoder α) F := by
  intro pre input e herr
  cases herr

theorem throw (h : ∀ input, F input e) : Fails (throw e : Decoder α) F := by
  intro pre input e' herr
  exact Except.error.inj herr ▸ h input

/-- A check, after which the decoder goes on. -/
theorem check {c : Prop} [Decidable c] (hc : c → ∀ input, F input e) (h : ¬c → Fails d F) :
    Fails (if c then (MonadExcept.throw e : Decoder Unit) >>= fun _ => d else d) F := by
  split_ifs with hif
  · exact throw (hc hif)
  · exact h hif

theorem remaining : Fails remaining F := by
  intro pre input e herr
  cases herr

theorem readBytes {len : ℕ}
    (h : ∀ input, input.length < len → F input (corrupt "record ends mid-field")) :
    Fails (readBytes len) F := by
  intro pre input e herr
  simp only [Reader.readBytes, List.length_append] at herr
  split_ifs at herr with hle
  exact Except.error.inj herr ▸ h input (by omega)

theorem readU8 (h : F [] (corrupt "record ends mid-field")) : Fails readU8 F :=
  bind (Accepts.readBytes 1)
    (readBytes fun _ hlt => List.length_eq_zero_iff.1 (Nat.lt_one_iff.1 hlt) ▸ h)
    fun _ _ => pure

theorem readU32 (h : ∀ input missing n, missing ≠ [] → n < 2 ^ 32 →
    input ++ missing = encodeU32 n → F input (corrupt "record ends mid-field")) :
    Fails readU32 F := by
  refine bind (Accepts.readBytes 4) (readBytes fun input hlt => ?_) fun _ _ => pure
  obtain ⟨missing, n, hne, hn, heq⟩ := exists_toLE hlt
  exact h input missing n hne hn heq

theorem readU64 (h : ∀ input missing n, missing ≠ [] → n < 2 ^ 64 →
    input ++ missing = toLE 8 n → F input (corrupt "record ends mid-field")) :
    Fails readU64 F := by
  refine bind (Accepts.readBytes 8) (readBytes fun input hlt => ?_) fun _ _ => pure
  obtain ⟨missing, n, hne, hn, heq⟩ := exists_toLE hlt
  exact h input missing n hne hn heq

/-- What ends in its bytes is the beginning of a byte string of its length. -/
theorem exists_bytes {len : ℕ} {input : List UInt8} (h : input.length < len) :
    ∃ missing, (input ++ missing).length = len := by
  refine ⟨List.replicate (len - input.length) 0, ?_⟩
  rw [List.length_append, List.length_replicate]
  omega

theorem decodeWrite : Fails decodeWrite WriteDiagnosis := by
  refine bind Accepts.readU32 (readU32 fun input missing n hne hn heq => ?_) fun keyLen b₁ =>
    bind (Accepts.readBytes keyLen) (readBytes fun input hlt ⟨hn, hb₁⟩ => ?_) fun key b₂ =>
      bind Accepts.readU8 (readU8 fun ⟨hkey, hlen⟩ ⟨hn, hb₁⟩ => ?_) fun tag b₃ => ?_
  · -- in the length of the key
    refine .cut (e := ⟨List.replicate n 0, none⟩)
      (List.append_ne_nil_of_left_ne_nil hne (List.replicate n 0 ++ [0]))
      (fitsEntry_none (List.length_replicate.trans_lt hn)) ?_
    rw [encodeWrite, List.length_replicate, ← heq, List.append_assoc]
  · -- in the key
    obtain ⟨missing, hmissing⟩ := exists_bytes hlt
    subst hb₁ hmissing
    refine .cut (e := ⟨input ++ missing, none⟩) (List.concat_ne_nil 0 missing)
      (fitsEntry_none hn) ?_
    simp [encodeWrite]
  · -- before the tag
    subst hb₁ hkey hlen
    refine .cut (e := ⟨key, none⟩) (List.cons_ne_nil 0 []) (fitsEntry_none hn) ?_
    simp [encodeWrite]
  split_ifs with h0 h1
  · exact pure
  · refine bind Accepts.readU32
      (readU32 fun input missing n hne hn' heq htag ⟨hkey, hlen⟩ ⟨hn, hb₁⟩ => ?_)
        fun valueLen b₄ => bind (Accepts.readBytes valueLen)
          (readBytes fun input hlt ⟨hn', hb₄⟩ htag ⟨hkey, hlen⟩ ⟨hn, hb₁⟩ => ?_) fun _ _ => pure
    · -- in the length of the value
      subst h1 htag hb₁ hkey hlen
      refine .cut (e := ⟨key, some (List.replicate n 0)⟩)
        (List.append_ne_nil_of_left_ne_nil hne (List.replicate n 0)) ⟨hn, fun v hv => ?_⟩ ?_
      · rw [← Option.some.inj hv]
        exact List.length_replicate.trans_lt hn'
      · simp [encodeWrite, ← heq]
    · -- in the value
      obtain ⟨missing, hmissing⟩ := exists_bytes hlt
      subst h1 htag hb₁ hkey hlen hb₄ hmissing
      have hne : missing ≠ [] := by
        rintro rfl
        simp at hlt
      refine .cut (e := ⟨key, some (input ++ missing)⟩) hne
        ⟨hn, fun v hv => Option.some.inj hv ▸ hn'⟩ ?_
      simp [encodeWrite]
  · refine throw fun input htag ⟨hkey, hlen⟩ ⟨hn, hb₁⟩ => ?_
    subst htag hb₁ hkey hlen
    exact .tag hn h0 h1

/-- The writes before the first one that something is wrong with are read. -/
theorem decodeWrites (count : ℕ) : Fails (decodeWrites count) fun input e =>
    ∃ (writes : List WriteEntry) (rest : List UInt8), input = writes.flatMap encodeWrite ++ rest ∧
      (∀ e ∈ writes, FitsEntry e) ∧ writes.length < count ∧ WriteDiagnosis rest e := by
  induction count with
  | zero => exact pure
  | succ count ih =>
    refine bind Accepts.decodeWrite (fun pre input e herr => ?_) fun w b₁ =>
      bind (Accepts.decodeWrites count) (fun pre input e herr ⟨hb₁, hfit⟩ => ?_) fun _ _ => pure
    · exact ⟨[], input, rfl, nofun, Nat.succ_pos count, Fails.decodeWrite pre input e herr⟩
    · obtain ⟨writes, rest, rfl, hwrites, hlen, hrest⟩ := ih pre input e herr
      subst hb₁
      exact ⟨w :: writes, rest, by simp, List.forall_mem_cons.2 ⟨hfit, hwrites⟩,
        Nat.succ_lt_succ hlen, hrest⟩

theorem readCommit : Fails readCommit fun input e => Diagnosis input (.error e) := by
  refine bind Accepts.readU8 (readU8 ?_) fun version b₁ => check ?_ fun hversion =>
    bind Accepts.readU64 (readU64 ?_) fun commitTs b₂ =>
      bind Accepts.readU32 (readU32 ?_) fun count b₃ =>
        bind Accepts.remaining remaining fun left b₄ => check ?_ fun henough =>
          bind (Accepts.decodeWrites count) (fun pre input e herr => ?_) fun writes b₅ =>
            bind Accepts.remaining remaining fun left' b₆ => check ?_ fun _ => pure
  · -- before the version
    exact @Diagnosis.cut [] (header 0 0) 0 0 (by decide) (by decide) (List.cons_ne_nil _ _) rfl
  · -- the version is another one
    intro hversion input hb₁
    subst hb₁
    exact .version hversion
  · -- in the timestamp
    intro input missing n hne hn heq hb₁
    obtain rfl := not_not.1 hversion
    subst hb₁
    refine @Diagnosis.cut _ (missing ++ encodeU32 0) n 0 hn (by decide)
      (List.append_ne_nil_of_left_ne_nil hne _) ?_
    simp [header, ← heq]
  · -- in the count
    rintro input missing n hne hn heq ⟨hts, hb₂⟩ hb₁
    obtain rfl := not_not.1 hversion
    subst hb₂ hb₁
    refine .cut hts hn hne ?_
    simp [header, ← heq]
  · -- the count is too large
    rintro hmany input ⟨hb₄, hleft⟩ ⟨hcount, hb₃⟩ ⟨hts, hb₂⟩ hb₁
    obtain rfl := not_not.1 hversion
    subst hb₄ hleft hb₃ hb₂ hb₁
    have h := Diagnosis.count hts hcount ((Nat.div_lt_iff_lt_mul (by decide)).1 hmany)
    simpa [header] using h
  · -- something is wrong with a write
    obtain ⟨writes, rest, rfl, hwrites, hlen, hrest⟩ := Fails.decodeWrites count pre input e herr
    rintro ⟨hb₄, hleft⟩ ⟨hcount, hb₃⟩ ⟨hts, hb₂⟩ hb₁
    obtain rfl := not_not.1 hversion
    subst hb₄ hleft hb₃ hb₂ hb₁
    have h := Diagnosis.write hts hcount
      ((Nat.le_div_iff_mul_le (by decide)).1 (not_lt.1 henough)) hwrites hlen hrest
    simpa [header] using h
  · -- there are bytes left
    rintro hmore input ⟨hb₆, hleft'⟩ ⟨hb₅, hlen, hall⟩ ⟨hb₄, hleft⟩ ⟨hcount, hb₃⟩ ⟨hts, hb₂⟩ hb₁
    obtain rfl := not_not.1 hversion
    subst hb₆ hleft' hb₅ hlen hb₄ hleft hb₃ hb₂ hb₁
    have h := Diagnosis.trailing hts ⟨hcount, hall⟩ (mt List.length_eq_zero_iff.2 hmore)
    simpa [encodeForLog] using h

end Fails

/-- What the decoder returns is a diagnosis, whatever the bytes are. -/
theorem diagnosed (bytes : List UInt8) : Diagnosis bytes (decodeCommit bytes) := by
  rw [decodeCommit]
  cases hread : readCommit (Reader.new bytes) with
  | error e => exact Fails.readCommit [] bytes e hread
  | ok p =>
    obtain ⟨⟨commitTs, writes⟩, reader⟩ := p
    obtain ⟨bytes', rest, rfl, -, rfl, hts, hfit, rfl⟩ := Accepts.readCommit [] bytes _ _ hread
    rw [List.append_nil]
    exact .intact hts hfit

/-- The decoder returns the diagnosis of the bytes, and each byte string has one. -/
theorem decodeCommit_eq_iff (bytes : List UInt8) (r : Except TxnError RecoveredCommit) :
    decodeCommit bytes = r ↔ Diagnosis bytes r := by
  constructor
  · rintro rfl
    exact diagnosed bytes
  · exact Diagnosis.decodeCommit

/-- A record cut in its second write still has the bytes for two of the smallest. One cut before
    them does not. -/
example : decodeCommit ((encodeForLog 1 [⟨[120], some [1]⟩, ⟨[121], none⟩]).take 25) =
      .error (corrupt "record ends mid-field") ∧
    decodeCommit ((encodeForLog 1 [⟨[120], some [1]⟩, ⟨[121], none⟩]).take 22) =
      .error (corrupt "write count exceeds record size") := by
  decide +kernel

/-! ## Opening -/

/-- The bytes are a record. -/
def Intact (bytes : List UInt8) : Prop :=
  ∃ commitTs writes, commitTs < 2 ^ 64 ∧ Fits writes ∧ bytes = encodeForLog commitTs writes

theorem intact_iff : Intact bytes ↔ ∃ commit, decodeCommit bytes = .ok commit := by
  constructor
  · rintro ⟨commitTs, writes, hts, hfit, rfl⟩
    exact ⟨_, decodeCommit_encodeForLog hts hfit⟩
  · rintro ⟨commit, hok⟩
    have h := diagnosed bytes
    rw [hok] at h
    cases h with
    | intact hts hfit => exact ⟨_, _, hts, hfit, rfl⟩

theorem bind_ok_eq_error_iff {ε α β : Type} {x : Except ε α} {g : α → β} {e : ε} :
    (x >>= fun a => .ok (g a)) = .error e ↔ x = .error e := by
  cases x with
  | error e' => exact ⟨fun h => congrArg _ (Except.error.inj h), fun h => by rw [h]; rfl⟩
  | ok a => constructor <;> intro h <;> cases h

/-- A computation over a list fails at the first member that it fails on. -/
theorem mapM_eq_error_iff {ε α β : Type} {f : α → Except ε β} {l : List α} {e : ε} :
    l.mapM f = .error e ↔ ∃ pre a post, l = pre ++ a :: post ∧
      (∀ b ∈ pre, ∃ y, f b = .ok y) ∧ f a = .error e := by
  induction l with
  | nil =>
    constructor
    · intro h
      cases h
    · rintro ⟨pre, a, post, h, -⟩
      exact absurd h.symm (List.append_ne_nil_of_right_ne_nil pre (List.cons_ne_nil a post))
  | cons b l ih =>
    rw [List.mapM_cons]
    cases hb : f b with
    | error e' =>
      constructor
      · intro h
        obtain rfl := Except.error.inj h
        exact ⟨[], b, l, rfl, nofun, hb⟩
      · rintro ⟨pre, a, post, heq, hpre, ha⟩
        rcases List.cons_eq_append_iff.1 heq with ⟨rfl, hpost⟩ | ⟨pre, rfl, -⟩
        · obtain ⟨rfl, -⟩ := List.cons.inj hpost
          obtain rfl := Except.error.inj (hb.symm.trans ha)
          rfl
        · obtain ⟨y, hy⟩ := hpre b List.mem_cons_self
          rw [hb] at hy
          cases hy
    | ok y =>
      have hrest : (Except.ok y >>= fun y => l.mapM f >>= fun ys => pure (y :: ys)) = .error e ↔
          l.mapM f = .error e := bind_ok_eq_error_iff
      rw [hrest, ih]
      constructor
      · rintro ⟨pre, a, post, rfl, hpre, ha⟩
        exact ⟨b :: pre, a, post, rfl, List.forall_mem_cons.2 ⟨⟨y, hb⟩, hpre⟩, ha⟩
      · rintro ⟨pre, a, post, heq, hpre, ha⟩
        rcases List.cons_eq_append_iff.1 heq with ⟨rfl, hpost⟩ | ⟨pre, rfl, rfl⟩
        · obtain ⟨rfl, -⟩ := List.cons.inj hpost
          rw [hb] at ha
          cases ha
        · exact ⟨pre, a, post, rfl, (List.forall_mem_cons.1 hpre).2, ha⟩

/-- A log opens iff its records are intact. Otherwise it fails with what is wrong with the first
    one that is not, whatever comes after it. -/
theorem opens_iff_intact (records : List Record) :
    ((∃ inner, Inner.openLog records = .ok inner) ↔ ∀ entry ∈ records, Intact entry.data) ∧
      ∀ e, Inner.openLog records = .error e ↔ ∃ pre entry post, records = pre ++ entry :: post ∧
        (∀ entry ∈ pre, Intact entry.data) ∧ Diagnosis entry.data (.error e) := by
  have herror : ∀ e, Inner.openLog records = .error e ↔
      ∃ pre entry post, records = pre ++ entry :: post ∧
        (∀ entry ∈ pre, Intact entry.data) ∧ Diagnosis entry.data (.error e) := by
    intro e
    have hfirst : Inner.openLog records = .error e ↔
        (records.mapM fun entry => decodeCommit entry.data) = .error e :=
      bind_ok_eq_error_iff.trans bind_ok_eq_error_iff
    rw [hfirst, mapM_eq_error_iff]
    refine exists₃_congr fun pre entry post => and_congr_right fun _ => and_congr ?_ ?_
    · exact forall₂_congr fun entry _ => intact_iff.symm
    · exact ⟨fun h => h ▸ diagnosed entry.data, Diagnosis.decodeCommit⟩
  refine ⟨⟨fun ⟨inner, hopen⟩ entry hentry => ?_, fun hall => ?_⟩, herror⟩
  · obtain ⟨commits, -, hread, -⟩ := Inner.openLog_inv hopen
    obtain ⟨i, hi, rfl⟩ := List.getElem_of_mem hentry
    have hok := (List.forall₂_iff_get.1 (forall₂_of_mapM hread)).2 i hi
    exact intact_iff.2 ⟨_, hok (by rwa [← (forall₂_of_mapM hread).length_eq])⟩
  · cases hopen : Inner.openLog records with
    | ok inner => exact ⟨inner, rfl⟩
    | error e =>
      -- a record that something is wrong with would not be intact
      obtain ⟨pre, entry, post, rfl, -, hwrong⟩ := (herror e).1 hopen
      obtain ⟨commit, hok⟩ := intact_iff.1 (hall entry (by simp))
      rw [hwrong.decodeCommit] at hok
      cases hok

end TxnDb
