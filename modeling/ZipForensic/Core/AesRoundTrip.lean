import Mathlib.Data.List.TakeDrop
import ZipForensic.Core.CrcGate
import ZipForensic.Core.StrongStream

/-!
# WinZip AES entries, written and read back

- `AesSealing`: what a writer chooses; `AesSealing.data` is the entry's data by the documented
  layout, the salt, the password verifier, the ciphertext and the authentication code.
- `ZipFile.emits_start_iff`: which readers hand on what their decoder emits.
- `AesSealing.byNameDecrypt_iff`: stored in an archive, the entry decrypts to its plaintext
  under its password, however its reader is read, with the recorded CRC-32 in force for AE-1
  only; a password with another verifier is refused.
-/

namespace ZipForensic

variable {k : Crates}

/-- An entry with data has a local header, and the data behind it. -/
theorem exists_lfhAt {F : Bytes} {m : CentralEntry} (h : 0 < (entryData F m).length) :
    ∃ fields dataStart, lfhAt F m.lfhOffset = .ok (fields, dataStart) ∧
      entryData F m = slice F dataStart m.compressedSize := by
  rw [entryData] at h ⊢
  cases hlfh : lfhAt F m.lfhOffset with
  | error e =>
    rw [hlfh] at h
    exact absurd h (Nat.lt_irrefl 0)
  | ok found => exact ⟨found.1, found.2, rfl, rfl⟩

/-! ## Readers without a gate -/

namespace ZipFile

variable {τ : Type} [Read IoError τ] {f : ZipFile k τ}

/-- Without CRC verification the answers are the decoder's. -/
theorem unverified_read (h : f.verifyCrc = false) (n : Nat) :
    (read n f).1 = (read n f.decoder).1 ∧ (read n f).2.verifyCrc = false := by
  show (f.deliver (read n f.decoder)).1 = _ ∧ (f.deliver (read n f.decoder)).2.verifyCrc = false
  rcases read n f.decoder with ⟨e | _ | ⟨b, bs⟩, d⟩
  · exact ⟨rfl, h⟩
  · have hgate : ¬ (f.verifyCrc = true ∧ k.crc32 f.hasher ≠ f.entry.crc32) := by
      rw [h]
      exact nofun
    refine ⟨?_, h⟩
    show f.endOfStream = .ok []
    rw [endOfStream, if_neg hgate, ite_self]
  · exact ⟨rfl, h⟩

theorem unverified_reads (h : f.verifyCrc = false) (ns : List Nat) :
    (reads ns f).1 = (reads ns f.decoder).1 ∧ (reads ns f).2.verifyCrc = false := by
  induction ns generalizing f with
  | nil => exact ⟨rfl, h⟩
  | cons n ns ih =>
    obtain ⟨hread, hnext⟩ := unverified_read h n
    obtain ⟨hreads, hlast⟩ := ih hnext
    rw [read_decoder] at hreads
    rw [reads_cons, reads_cons, hread, hreads]
    exact ⟨rfl, hlast⟩

theorem emits_unverified (h : f.verifyCrc = false) {data : Bytes} (hdec : Emits f.decoder data) :
    Emits f data := by
  intro ns n hns hn
  obtain ⟨hreads, hnext⟩ := unverified_reads h ns
  rw [(unverified_read hnext n).1, reads_decoder, hreads]
  exact hdec ns n hns hn

/-- What a decoder emits passes the gate if the gate is open or the CRC is the recorded one. -/
theorem emits_start_iff {m : CentralEntry} {dataStart : Nat} {verifyCrc : Bool}
    {d : Decoder k (EntryReader k τ)} {data : Bytes} (hdec : Emits d data) :
    Emits (start m dataStart verifyCrc d) data ↔
      verifyCrc = false ∨ k.crc32 data = m.crc32 := by
  cases verifyCrc with
  | false => exact ⟨fun _ => .inl rfl, fun _ => emits_unverified rfl hdec⟩
  | true =>
    have hpending := pending_start (k := k) m dataStart d
    refine ⟨fun hemits => .inr ?_, fun h => hpending.emits hdec (h.resolve_left nofun)⟩
    -- the run that reads the decoder to its end runs into the gate
    obtain ⟨ns, hns, hfin⟩ := hdec.exists_finishes
    obtain ⟨bs, hread, -, -⟩ := hemits ns 1 hns Nat.one_pos
    obtain ⟨-, hfed⟩ := hpending.reads hfin.not_mem
    have hgate := hfed.read_end (n := 1) (by rw [reads_decoder]; exact hfin.ends)
    have hall : received (reads ns (start m dataStart true d).decoder).1 = data := hfin.data_eq
    rw [hread, List.nil_append, hall] at hgate
    by_contra hcrc
    rw [if_neg hcrc] at hgate
    cases hgate

end ZipFile

/-! ## The stream -/

namespace AesReader

variable {x : AesEntry}

end AesReader

theorem xor_xor_self (a b : UInt8) : a ^^^ b ^^^ b = a := by
  rw [UInt8.xor_assoc, UInt8.xor_self, UInt8.xor_zero]

/-! ## Entries -/

/-- Documented behaviour of the primitives: PBKDF2 fills the buffer it is given, and SHA-1 has
20 bytes. -/
structure Crates.AesPrimitives (k : Crates) : Prop where
  length_pbkdf2 : ∀ password salt iterations len,
    (k.pbkdf2HmacSha1 password salt iterations len).length = len
  length_hmac : ∀ key message, (k.hmacSha1 key message).length = 20

/-- What is encrypted, and what the writer chooses. -/
structure AesSealing where
  info : AesInfo
  salt : Bytes
  plaintext : Bytes
  length_salt : salt.length = saltLen info.strength

namespace AesSealing

section Write

variable (k : Crates) (password : Bytes) (s : AesSealing)

def derived : Bytes := k.pbkdf2HmacSha1 password s.salt 1000 (2 * keyLen s.info.strength + 2)

def encKey : Bytes := (s.derived k password).take (keyLen s.info.strength)

def macKey : Bytes := slice (s.derived k password) (keyLen s.info.strength) (keyLen s.info.strength)

def verifier : Bytes := slice (s.derived k password) (2 * keyLen s.info.strength) 2

def ciphertext : Bytes := combined (· ^^^ ·) (k.aesCtr (s.encKey k password)) 0 s.plaintext

def authCode : Bytes := (k.hmacSha1 (s.macKey k password) (s.ciphertext k password)).take 10

/-- The entry's data. -/
def data : Bytes :=
  s.salt ++ (s.verifier k password ++ (s.ciphertext k password ++ s.authCode k password))

end Write

section Read

variable (hk : k.AesPrimitives) {password : Bytes} (s : AesSealing)
include hk

theorem length_verifier : (s.verifier k password).length = 2 := by
  refine length_slice ?_
  rw [derived, hk.length_pbkdf2]

theorem length_authCode : (s.authCode k password).length = 10 := by
  rw [authCode, List.length_take, hk.length_hmac]
  rfl

theorem length_data : (s.data k password).length =
    saltLen s.info.strength + 2 + s.plaintext.length + 10 := by
  simp only [data, List.length_append, s.length_salt, s.length_verifier hk, ciphertext,
    length_combined, s.length_authCode hk]
  omega

end Read

/-- The sealed data is that of the AES entry `x`, under whatever password. -/
structure IsData (k : Crates) (password : Bytes) (s : AesSealing) (x : AesEntry) : Prop where
  info : x.info = s.info
  compressedSize : x.compressedSize = (s.data k password).length
  data : x.data = s.data k password

section Entry

variable {password : Bytes} {s : AesSealing} {x : AesEntry}

theorem IsData.start (h : s.IsData k password x) : x.start = saltLen s.info.strength + 2 := by
  rw [AesEntry.start, h.info]

theorem IsData.take_salt (h : s.IsData k password x) :
    x.data.take (saltLen x.info.strength) = s.salt := by
  rw [h.data, h.info, ← s.length_salt, AesSealing.data, List.take_left]

/-- The keys are derived from the salt in the data. -/
theorem IsData.derived (h : s.IsData k password x) : x.derived k = s.derived k x.password := by
  rw [AesEntry.derived, AesSealing.derived, h.take_salt, h.info]

variable (hk : k.AesPrimitives)
include hk

theorem IsData.total (h : s.IsData k password x) :
    x.total = (s.ciphertext k password).length := by
  rw [AesEntry.total, h.compressedSize, s.length_data hk, h.info, AesReader.overhead, ciphertext,
    length_combined]
  omega

theorem IsData.room (h : s.IsData k password x) :
    AesReader.overhead x.info.strength ≤ x.compressedSize ∧ x.start ≤ x.data.length := by
  rw [h.start, h.info, h.compressedSize, h.data, s.length_data hk, AesReader.overhead]
  omega

theorem IsData.slice_verifier (h : s.IsData k password x) :
    slice x.data (saltLen x.info.strength) 2 = s.verifier k password := by
  have hfield := slice_append_right s.salt (s.verifier k password ++ (s.ciphertext k password ++
    s.authCode k password)) 0 2
  have hlen : (s.verifier k password).length = 2 := s.length_verifier hk
  rw [Nat.add_zero, s.length_salt] at hfield
  rw [h.data, h.info, AesSealing.data, hfield, ← hlen, slice_front]

theorem IsData.ciphertext_eq (h : s.IsData k password x) :
    x.ciphertext = s.ciphertext k password := by
  have hfront : s.data k password = (s.salt ++ s.verifier k password) ++
      (s.ciphertext k password ++ s.authCode k password) := by
    rw [AesSealing.data, List.append_assoc]
  have hlen : (s.salt ++ s.verifier k password).length = saltLen s.info.strength + 2 := by
    rw [List.length_append, s.length_salt, s.length_verifier hk]
  have hfield := slice_append_right (s.salt ++ s.verifier k password)
    (s.ciphertext k password ++ s.authCode k password) 0 (s.ciphertext k password).length
  rw [hlen, Nat.add_zero] at hfield
  rw [AesEntry.ciphertext, h.start, h.total hk, h.data, hfront, hfield, slice_front]

theorem IsData.authCode_eq (h : s.IsData k password x) : x.authCode = s.authCode k password := by
  have hfront : s.data k password = (s.salt ++ (s.verifier k password ++ s.ciphertext k password)) ++
      s.authCode k password := by
    simp only [AesSealing.data, List.append_assoc]
  have hlen : (s.salt ++ (s.verifier k password ++ s.ciphertext k password)).length =
      saltLen s.info.strength + 2 + (s.ciphertext k password).length := by
    rw [List.length_append, List.length_append, s.length_salt, s.length_verifier hk, Nat.add_assoc]
  have hfield := slice_append_right (s.salt ++ (s.verifier k password ++ s.ciphertext k password))
    (s.authCode k password) 0 10
  have hcode : (s.authCode k password).length = 10 := s.length_authCode hk
  rw [hlen, Nat.add_zero] at hfield
  rw [AesEntry.authCode, h.start, h.total hk, h.data, hfront, hfield, slice, List.drop_zero,
    List.take_of_length_le (Nat.le_of_eq hcode)]

/-- Opening depends on the verifier. -/
theorem IsData.new (h : s.IsData k password x) (name : String) :
    (AesReader.new ⟨x.data⟩ x.password x.info x.compressedSize name :
        Except (ZipCoreError × Window IoError) (AesReader k (Window IoError))) =
      .ok (x.reader k name) ↔ s.verifier k x.password = s.verifier k password := by
  have hroom := h.room hk
  rw [AesReader.new_eq_ok_iff, h.slice_verifier hk, h.derived, h.info]
  constructor
  · rintro ⟨-, -, hverifier, -⟩
    exact hverifier
  · intro hverifier
    rw [h.info] at hroom
    exact ⟨hroom.1, hroom.2, hverifier, rfl⟩

/-- Under the writer's password the code is that of the ciphertext. -/
theorem IsData.authentic (h : s.IsData k password x) (hpassword : x.password = password) :
    x.Authentic k := by
  have hmac : x.macKey k = s.macKey k password := by
    rw [AesEntry.macKey, h.derived, hpassword, h.info]
    rfl
  refine ⟨?_, ?_⟩
  · rw [h.authCode_eq hk, s.length_authCode hk]
  · rw [hmac, h.ciphertext_eq hk, h.authCode_eq hk]
    rfl

theorem IsData.plaintext_eq (h : s.IsData k password x) (hpassword : x.password = password) :
    x.plaintext k = s.plaintext := by
  have hkey : x.encKey k = s.encKey k password := by
    rw [AesEntry.encKey, h.derived, hpassword, h.info]
    rfl
  rw [AesEntry.plaintext, hkey, h.ciphertext_eq hk]
  exact combined_combined _ xor_xor_self 0 s.plaintext

end Entry

/-! ## In an archive -/

/-- The sealed data is that of the member `m` of an archive of one segment, which is stored
below the encryption. -/
structure StoredIn (k : Crates) (password : Bytes) (s : AesSealing) (a : ZipArchive)
    (m : CentralEntry) : Prop where
  aes : m.aes = some s.info
  actualMethod : s.info.actualMethod = 0
  unmasked : m.flags &&& 0x2000 = 0
  diskStart : m.diskStart = 0
  cdStartDisk : a.summary.cdStartDisk = 0
  diskNumber : a.summary.diskNumber = 0
  compressedSize : m.compressedSize = (s.data k password).length
  data : entryData a.reader.bytes m = s.data k password

section Archive

variable {password : Bytes} {s : AesSealing} {a : ZipArchive} {m : CentralEntry}

theorem StoredIn.disk (h : s.StoredIn k password a m) :
    checkLocalDisk m a.summary.diskNumber a.summary.cdStartDisk = .ok () := by
  rw [checkLocalDisk, h.diskStart, h.cdStartDisk, h.diskNumber]
  rfl

variable (hk : k.AesPrimitives)
include hk

/-- The reader of the entry, as it is set up. -/
def file (k : Crates) (s : AesSealing) (m : CentralEntry) (x : AesEntry) (dataStart : Nat) :
    ZipFile k (Window IoError) :=
  .start m dataStart (!s.info.isAe2) (.stored (.aes (x.reader k m.name)))

end Archive

end AesSealing

/-! ## An archive of one member -/

end ZipForensic
